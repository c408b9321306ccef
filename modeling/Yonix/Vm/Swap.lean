/-
  Yonix/Vm/Swap.lean
  ==================
  **What user pages hold, in a frame or in the swap area.**

  `Backed own M c held s` says that memory `c` is there: `M` are the pages each process
  has, every one of them is either present, in a frame of its own with the right
  bytes, or has one slot of the swap area under its identifier, with the right bytes.
  Frames are on the free list, with the rest of the kernel, in the hands of the
  function that is running (`held`), or under one page.  Allocating a frame may move
  any page to the swap area and keeps all of this; so do mapping, faulting in,
  unmapping and storing, with `M` and `c` changed as they should be.
-/
import Yonix.Vm.Unmap

namespace Yonix.Vm

/-- The bytes of each process, by address. -/
abbrev Content := Nat → Nat → UInt8

/-- Directory `d` has page `va` in frame `f`. -/
def Maps (s : Core) (d va f : Nat) : Prop := ∃ x, s.pte d va = some x ∧ x.p = true ∧ x.frame = f

/-- The page holds the bytes of process `pid` from address `va` on. -/
def Holds (page : Page) (c : Content) (pid va : Nat) : Prop :=
  ∀ k < PGSIZE, page.get k = c pid (va + k)

/-- Where the directory has no table, there is no present page to come. -/
def Blank (s : Core) (d : Nat) : Prop :=
  ∀ D va, s.dirs d = some D → D.tab (pdx va) = none → (D.pte va).p = false

structure Backed (own M : Nat → Nat → Prop) (c : Content) (held : List Nat) (s : Core) : Prop where
  func : ∀ pid d d', own pid d → own pid d' → d = d'
  pos : ∀ pid d, own pid d → pid ≠ 0
  blank : ∀ pid d, own pid d → Blank s d
  nodup : (s.freelist ++ s.kheld ++ held).Nodup
  apart : ∀ pid d va f, own pid d → PGSIZE ∣ va → Maps s d va f → f ∉ s.freelist ++ s.kheld ++ held
  inj : ∀ pid d va pid' d' va' f, own pid d → own pid' d' → PGSIZE ∣ va → PGSIZE ∣ va' →
    Maps s d va f → Maps s d' va' f → d = d' ∧ va = va'
  here : ∀ pid d va f, own pid d → PGSIZE ∣ va → Maps s d va f → M pid va ∧ Holds (s.mem f) c pid va
  slot : ∀ pid d va i, own pid d → PGSIZE ∣ va → i < SLOTSIZE → s.swapMap i = va ||| pid →
    M pid va ∧ ¬ Present s d va ∧ s.filled (va ||| pid) = swapm2secno i ∧
      Holds (s.swap (swapm2secno i)) c pid va
  away : ∀ pid d va, own pid d → M pid va → ¬ Present s d va → ∃ i < SLOTSIZE, s.swapMap i = va ||| pid
  mapped : ∀ pid d va, own pid d → M pid va → PGSIZE ∣ va ∧ s.pte d va ≠ none

variable {own M : Nat → Nat → Prop} {c : Content} {held : List Nat} {s t : Core}

theorem present_iff {d va : Nat} : Present s d va ↔ ∃ f, Maps s d va f := by
  constructor
  · rintro ⟨x, hx, hp⟩
    exact ⟨x.frame, x, hx, hp, rfl⟩
  · rintro ⟨-, x, hx, hp, -⟩
    exact ⟨x, hx, hp⟩

theorem Maps.present {d va f : Nat} (h : Maps s d va f) : Present s d va := present_iff.mpr ⟨f, h⟩

theorem maps_setPte_of_ne {d va d' va' f : Nat} {x : Pte} (hne : ¬ (d' = d ∧ va' = va)) :
    Maps (s.setPte d va x) d' va' f ↔ Maps s d' va' f := by
  unfold Maps
  rw [pte_setPte, if_neg hne]

theorem maps_setPte_self {d va f : Nat} {x y : Pte} (hy : s.pte d va = some y) :
    Maps (s.setPte d va x) d va f ↔ x.p = true ∧ x.frame = f := by
  unfold Maps
  rw [pte_setPte, if_pos ⟨rfl, rfl⟩, hy]
  simp

theorem Blank.setPte {d d' va : Nat} {x y : Pte} (h : Blank s d') (hy : s.pte d va = some y) :
    Blank (s.setPte d va x) d' := by
  intro D va' hD htab
  unfold Core.setPte at hD
  dsimp only at hD
  by_cases hd : d' = d
  · subst hd
    rw [Function.update_self] at hD
    obtain ⟨E, hE, rfl⟩ := Option.map_eq_some_iff.mp hD
    have hva : va' ≠ va := by
      rintro rfl
      unfold Core.pte at hy
      rw [hE] at hy
      simp [show E.tab (pdx va') = none from htab] at hy
    change (Function.update E.pte va x va').p = false
    rw [Function.update_of_ne hva]
    exact h E va' hE htab
  · rw [Function.update_of_ne hd] at hD
    exact h D va' hD htab

theorem Blank.setTab {d d' i f : Nat} (h : Blank s d') : Blank (s.setTab d i f) d' := by
  intro D va' hD htab
  unfold Core.setTab at hD
  dsimp only at hD
  by_cases hd : d' = d
  · subst hd
    rw [Function.update_self] at hD
    obtain ⟨E, hE, rfl⟩ := Option.map_eq_some_iff.mp hD
    change Function.update E.tab i (some f) (pdx va') = none at htab
    by_cases hi : pdx va' = i
    · rw [hi, Function.update_self] at htab
      cases htab
    · rw [Function.update_of_ne hi] at htab
      exact h E va' hE htab
  · rw [Function.update_of_ne hd] at hD
    exact h D va' hD htab

/-- A new table brings no page. -/
theorem maps_setTab {d d' i f va g : Nat} (h : Blank s d') :
    Maps (s.setTab d i f) d' va g ↔ Maps s d' va g := by
  constructor
  · rintro ⟨x, hx, hp, hg⟩
    rw [pte_setTab] at hx
    split at hx
    · rename_i hc
      obtain ⟨rfl, hpd⟩ := hc
      obtain ⟨D, hD, rfl⟩ := Option.map_eq_some_iff.mp hx
      cases htab : D.tab (pdx va) with
      | none =>
        rw [h D va hD htab] at hp
        cases hp
      | some k =>
        refine ⟨D.pte va, ?_, hp, hg⟩
        unfold Core.pte
        rw [hD]
        simp [htab]
    · exact ⟨x, hx, hp, hg⟩
  · rintro ⟨x, hx, hp, hg⟩
    exact ⟨x, pte_setTab_of_some hx d i f, hp, hg⟩

/-! ### The swap map -/

theorem firstFrom_some {test : Nat → Bool} {n i j : Nat} (h : firstFrom test n i = some j) :
    i ≤ j ∧ j < i + n ∧ test j = true := by
  induction n generalizing i with
  | zero => cases h
  | succ n ih =>
    unfold firstFrom at h
    split at h
    · rename_i ht
      cases h
      exact ⟨Nat.le_refl _, by omega, ht⟩
    · obtain ⟨h1, h2, h3⟩ := ih h
      exact ⟨by omega, by omega, h3⟩

theorem firstFrom_isSome {t : Nat → Bool} {n i j : Nat} (h1 : i ≤ j) (h2 : j < i + n)
    (ht : t j = true) : ∃ k, firstFrom t n i = some k := by
  induction n generalizing i with
  | zero => omega
  | succ n ih =>
    unfold firstFrom
    split
    · exact ⟨i, rfl⟩
    · rename_i hi
      have hne : i ≠ j := by
        rintro rfl
        exact hi ht
      exact ih (by omega) (by omega)

theorem swapm2secno_inj {i j : Nat} (h : swapm2secno i = swapm2secno j) : i = j := by
  unfold swapm2secno at h
  omega

theorem or_ne_zero {va pid : Nat} (h : pid ≠ 0) : va ||| pid ≠ 0 := by
  intro hz
  exact h (Nat.or_eq_zero_iff.mp hz).2

/-- The search by identifier finds the slot that the last `page_out` of the page
    filled. -/
theorem Backed.findSlot (h : Backed own M c held s) {pid d va : Nat} (hown : own pid d)
    (hm : M pid va) (hnp : ¬ Present s d va) :
    findSlot s (pid ||| va) = .ok (s.filled (va ||| pid)) := by
  obtain ⟨i, hi, hkey⟩ := h.away pid d va hown hm hnp
  have htest : decide (s.swapMap i = pid ||| va) = true := by simpa [Nat.lor_comm] using hkey
  obtain ⟨j, hj⟩ := firstFrom_isSome (t := fun i => s.swapMap i = pid ||| va) (Nat.zero_le i)
    (by omega : i < 0 + SLOTSIZE) htest
  obtain ⟨-, hlt, htest⟩ := firstFrom_some hj
  obtain ⟨-, -, hfilled, -⟩ := h.slot pid d va j hown (h.mapped pid d va hown hm).1 (by omega)
    (by simpa [Nat.lor_comm] using htest)
  unfold Vm.findSlot
  rw [hj, hfilled]

/-! ### Eviction -/

theorem Holds.congr {page page' : Page} {c' : Content} {pid va : Nat} (h : Holds page c pid va)
    (hp : page' = page) (hc : ∀ k < PGSIZE, c' pid (va + k) = c pid (va + k)) :
    Holds page' c' pid va := by
  intro k hk
  rw [hp, hc k hk]
  exact h k hk

theorem pageOut_backed (hs : Sound own s) (h : Backed own M c held s) (ht : pageOut s = .ok t) :
    Backed own M c held t ∧ (∀ f ∈ held, t.mem f = s.mem f) ∧ t.kheld = s.kheld := by
  obtain ⟨q, e, x, i, hsel, hx, hp, hi, rfl⟩ := pageOut_eq ht
  obtain ⟨hsame, he⟩ := selPage_spec hsel
  obtain ⟨e', he', hdir, hva', hkey'⟩ := mem_of_samePage hsame he
  obtain ⟨pid₀, hown₀, hkey₀, -, halign₀, -⟩ := hs.entry e' he'
  rw [← hdir] at hown₀
  rw [← hva'] at hkey₀ halign₀
  rw [← hkey'] at hkey₀
  have hmaps : Maps s e.dir e.va x.frame := ⟨x, hx, hp, rfl⟩
  have hfree : x.frame ∉ s.freelist ++ s.kheld ++ held := h.apart _ _ _ _ hown₀ halign₀ hmaps
  obtain ⟨-, hlt, hzero⟩ := firstFrom_some hi
  rw [decide_eq_true_eq] at hzero
  -- the pages in frames afterwards
  have hself : ∀ f, ¬ Maps (s.setPte e.dir e.va { x with p := false }) e.dir e.va f := by
    intro f hf
    exact absurd ((maps_setPte_self hx).mp hf).1 (by simp)
  have hold : ∀ d va f, Maps (s.setPte e.dir e.va { x with p := false }) d va f →
      Maps s d va f ∧ ¬ (d = e.dir ∧ va = e.va) := by
    intro d va f hf
    by_cases hc : d = e.dir ∧ va = e.va
    · obtain ⟨rfl, rfl⟩ := hc
      exact absurd hf (hself f)
    · exact ⟨(maps_setPte_of_ne hc).mp hf, hc⟩
  have hne : ∀ pid d va f, own pid d → PGSIZE ∣ va →
      Maps (s.setPte e.dir e.va { x with p := false }) d va f → f ≠ x.frame := by
    rintro pid d va f hown hva hf rfl
    obtain ⟨hf, hc⟩ := hold d va _ hf
    exact hc (h.inj pid d va pid₀ e.dir e.va _ hown hown₀ hva halign₀ hf hmaps)
  -- the identifier belongs to this page alone
  have hpage : ∀ pid d va, own pid d → PGSIZE ∣ va → va ||| pid = e.key →
      pid = pid₀ ∧ d = e.dir ∧ va = e.va := by
    intro pid d va hown hva hk
    obtain ⟨h1, h2⟩ := key_inj hva halign₀ (hs.small pid d hown) (hs.small pid₀ _ hown₀)
      (hk.trans hkey₀)
    subst h2
    exact ⟨rfl, h.func pid d e.dir hown hown₀, h1⟩
  refine ⟨⟨h.func, h.pos, ?_, ?_, ?_, ?_, ?_, ?_, ?_, ?_⟩, ?_, rfl⟩
  · exact fun pid d hown => (h.blank pid d hown).setPte hx
  · exact List.nodup_cons.mpr ⟨hfree, h.nodup⟩
  · intro pid d va f hown hva hf hmem
    rcases List.mem_cons.mp hmem with hc | hmem
    · exact hne pid d va f hown hva hf hc
    · exact h.apart pid d va f hown hva (hold d va f hf).1 hmem
  · intro pid d va pid' d' va' f hown hown' hva hva' hf hf'
    exact h.inj pid d va pid' d' va' f hown hown' hva hva' (hold d va f hf).1 (hold d' va' f hf').1
  · intro pid d va f hown hva hf
    obtain ⟨hm, hc⟩ := h.here pid d va f hown hva (hold d va f hf).1
    refine ⟨hm, hc.congr ?_ fun _ _ => rfl⟩
    exact Function.update_of_ne (hne pid d va f hown hva hf) _ _
  · intro pid d va j hown hva hj hk
    change Function.update s.swapMap i e.key j = va ||| pid at hk
    change M pid va ∧ ¬ Present (s.setPte e.dir e.va { x with p := false }) d va ∧
      Function.update s.filled e.key (swapm2secno i) (va ||| pid) = swapm2secno j ∧
      Holds (Function.update s.swap (swapm2secno i) (s.mem x.frame) (swapm2secno j)) c pid va
    by_cases hij : j = i
    · subst hij
      rw [Function.update_self] at hk
      obtain ⟨rfl, rfl, rfl⟩ := hpage pid d va hown hva hk.symm
      obtain ⟨hm, hc⟩ := h.here _ _ _ _ hown₀ halign₀ hmaps
      refine ⟨hm, ?_, ?_, ?_⟩
      · rw [present_iff]
        rintro ⟨f, hf⟩
        exact hself f hf
      · rw [← hk, Function.update_self]
      · rw [Function.update_self]
        exact hc
    · rw [Function.update_of_ne hij] at hk
      obtain ⟨hm, hnp, hfl, hc⟩ := h.slot pid d va j hown hva hj hk
      have hk' : va ||| pid ≠ e.key := by
        intro hc
        obtain ⟨rfl, rfl, rfl⟩ := hpage pid d va hown hva hc
        exact hnp hmaps.present
      refine ⟨hm, ?_, ?_, ?_⟩
      · rw [present_iff]
        rintro ⟨f, hf⟩
        exact hnp (hold d va f hf).1.present
      · rw [Function.update_of_ne hk']
        exact hfl
      · rw [Function.update_of_ne (fun hc => hij (swapm2secno_inj hc))]
        exact hc
  · intro pid d va hown hm hnp
    change ∃ j < SLOTSIZE, Function.update s.swapMap i e.key j = va ||| pid
    by_cases hc : d = e.dir ∧ va = e.va
    · obtain ⟨rfl, rfl⟩ := hc
      have hpid : pid = pid₀ := hs.owner pid pid₀ _ hown hown₀
      subst hpid
      refine ⟨i, by omega, ?_⟩
      rw [Function.update_self]
      exact hkey₀
    · have hnp' : ¬ Present s d va := fun hp => hnp (present_setPte_of_ne hp hc)
      obtain ⟨j, hj, hk⟩ := h.away pid d va hown hm hnp'
      have hji : j ≠ i := by
        rintro rfl
        rw [hzero] at hk
        exact or_ne_zero (h.pos pid d hown) hk.symm
      refine ⟨j, hj, ?_⟩
      rw [Function.update_of_ne hji]
      exact hk
  · intro pid d va hown hm
    obtain ⟨h1, h2⟩ := h.mapped pid d va hown hm
    exact ⟨h1, fun hn => h2 ((pte_setPte_eq_none s e.dir e.va _ d va).mp hn)⟩
  · intro f hf
    refine Function.update_of_ne ?_ _ _
    rintro rfl
    exact hfree (List.mem_append_right _ hf)

/-! ### Frames in hand -/

theorem Backed.drop {l : List Nat} (h : Backed own M c (l ++ held) s) : Backed own M c held s := by
  have hsub : List.Sublist (s.freelist ++ s.kheld ++ held) (s.freelist ++ s.kheld ++ (l ++ held)) :=
    (List.Sublist.refl _).append (List.sublist_append_right l held)
  exact ⟨h.func, h.pos, h.blank, h.nodup.sublist hsub,
    fun pid d va f h1 h2 h3 hmem => h.apart pid d va f h1 h2 h3 (hsub.mem hmem),
    h.inj, h.here, h.slot, h.away, h.mapped⟩

/-- Frames in hand may be written. -/
theorem Backed.setMem {f : Nat} {x : Page} (h : Backed own M c held s) (hf : f ∈ held) :
    Backed own M c held (s.setMem f x) := by
  refine ⟨h.func, h.pos, h.blank, h.nodup, h.apart, h.inj, ?_, h.slot, h.away, h.mapped⟩
  intro pid d va g hown hva hg
  obtain ⟨hm, hc⟩ := h.here pid d va g hown hva hg
  refine ⟨hm, hc.congr (Function.update_of_ne ?_ _ _) fun _ _ => rfl⟩
  rintro rfl
  exact h.apart pid d va g hown hva hg (List.mem_append_right _ hf)

theorem takeFrame_backed {o : Option Nat} (hne : s.freelist ≠ []) (h : Backed own M c held s)
    (ht : takeFrame s = (t, o)) :
    ∃ f, o = some f ∧ Backed own M c (f :: held) t ∧ (∀ g ∈ held, t.mem g = s.mem g) ∧
      t.kheld = s.kheld := by
  obtain ⟨f, l, hl⟩ := List.exists_cons_of_ne_nil hne
  simp only [takeFrame, hl, Prod.mk.injEq] at ht
  obtain ⟨rfl, rfl⟩ := ht
  have hperm : List.Perm (l ++ s.kheld ++ (f :: held)) (s.freelist ++ s.kheld ++ held) := by
    rw [hl]
    exact List.perm_middle
  refine ⟨f, rfl, ⟨h.func, h.pos, h.blank, hperm.nodup_iff.mpr h.nodup, ?_, h.inj, h.here, h.slot,
    h.away, h.mapped⟩, fun _ _ => rfl, rfl⟩
  intro pid d va g h1 h2 h3 hmem
  exact h.apart pid d va g h1 h2 h3 (hperm.mem_iff.mp hmem)

theorem kalloc_backed {o : Option Nat} (hs : Sound own s) (h : Backed own M c held s)
    (ht : kalloc s = .ok (t, o)) :
    ∃ f, o = some f ∧ Backed own M c (f :: held) t ∧ (∀ g ∈ held, t.mem g = s.mem g) ∧
      t.kheld = s.kheld := by
  unfold kalloc at ht
  split at ht
  · cases hu : pageOut s with
    | error e => simp [hu, Except.map] at ht
    | ok u =>
      rw [hu] at ht
      obtain ⟨-, -, hne⟩ := pageOut_spec hs hu
      obtain ⟨hb, hmem, hk⟩ := pageOut_backed hs h hu
      obtain ⟨f, hf, hb', hmem', hk'⟩ := takeFrame_backed hne hb (Except.ok.inj ht)
      exact ⟨f, hf, hb', fun g hg => (hmem' g hg).trans (hmem g hg), hk'.trans hk⟩
  · rename_i hne
    refine takeFrame_backed ?_ h (Except.ok.inj ht)
    intro hnil
    apply hne
    rw [hs.count, hnil]
    rfl

/-- Fields that play no part. -/
theorem Backed.congr (h : Backed own M c held s) (hd : t.dirs = s.dirs) (hf : t.freelist = s.freelist)
    (hk : t.kheld = s.kheld) (hm : t.mem = s.mem) (hsm : t.swapMap = s.swapMap)
    (hsw : t.swap = s.swap) (hfl : t.filled = s.filled) : Backed own M c held t := by
  have hpte : ∀ d va, t.pte d va = s.pte d va := fun d va => by simp only [Core.pte, hd]
  have hmaps : ∀ d va f, Maps t d va f ↔ Maps s d va f := fun d va f => by simp only [Maps, hpte]
  have hpres : ∀ d va, Present t d va ↔ Present s d va := fun d va => by simp only [Present, hpte]
  have hblank : ∀ d, Blank t d ↔ Blank s d := fun d => by simp only [Blank, hd]
  refine ⟨h.func, h.pos, ?_, ?_, ?_, ?_, ?_, ?_, ?_, ?_⟩ <;>
    simp only [hpte, hmaps, hpres, hblank, hf, hk, hm, hsm, hsw, hfl]
  exacts [h.blank, h.nodup, h.apart, h.inj, h.here, h.slot, h.away, h.mapped]

theorem allocSlab_backed (hs : Sound own s) (h : Backed own M c held s) (ht : allocSlab s = .ok t) :
    Backed own M c held t ∧ (∀ g ∈ held, t.mem g = s.mem g) ∧ t.kheld = s.kheld := by
  unfold allocSlab at ht
  split at ht
  · obtain ⟨⟨u, o⟩, hu, ht⟩ := bind_eq_ok.mp ht
    obtain ⟨f, rfl, hb, hmem, hk⟩ := kalloc_backed hs h hu
    cases ht
    have hb' : Backed own M c held u := Backed.drop (l := [f]) hb
    exact ⟨hb'.congr rfl rfl rfl rfl rfl rfl rfl, hmem, hk⟩
  · cases ht
    exact ⟨h.congr rfl rfl rfl rfl rfl rfl rfl, fun _ _ => rfl, rfl⟩

theorem walkpgdir_backed {d va : Nat} {r : Bool} (hs : Sound own s) (h : Backed own M c held s)
    (hw : walkpgdir s d va true = .ok (t, r)) :
    Backed own M c held t ∧ (∀ g ∈ held, t.mem g = s.mem g) ∧ t.kheld = s.kheld := by
  unfold walkpgdir at hw
  split at hw
  · cases hw
  · split at hw
    · cases hw
      exact ⟨h, fun _ _ => rfl, rfl⟩
    · rw [if_neg (by decide)] at hw
      obtain ⟨⟨u, o⟩, hu, hw⟩ := bind_eq_ok.mp hw
      obtain ⟨f, rfl, hb, hmem, hk⟩ := kalloc_backed hs h hu
      cases hw
      have hb' : Backed own M c held (u.setMem f Bytes.zero) :=
        Backed.drop (l := [f]) (hb.setMem List.mem_cons_self)
      refine ⟨?_, ?_, hk⟩
      · revert hb'
        generalize u.setMem f Bytes.zero = v
        intro hb'
        have hmaps : ∀ {pid d'}, own pid d' → ∀ va' g,
            Maps (v.setTab d (pdx va) f) d' va' g ↔ Maps v d' va' g :=
          fun hown va' g => maps_setTab (hb'.blank _ _ hown)
        have hpres : ∀ {pid d'}, own pid d' → ∀ va',
            Present (v.setTab d (pdx va) f) d' va' ↔ Present v d' va' := by
          intro pid d' hown va'
          rw [present_iff, present_iff]
          exact exists_congr (hmaps hown va')
        refine ⟨hb'.func, hb'.pos, fun pid d' hown => (hb'.blank pid d' hown).setTab, hb'.nodup,
          ?_, ?_, ?_, ?_, ?_, ?_⟩
        · exact fun pid d' va' g h1 h2 h3 => hb'.apart pid d' va' g h1 h2 ((hmaps h1 va' g).mp h3)
        · exact fun pid d1 va1 pid' d2 va2 g h1 h2 h3 h4 h5 h6 => hb'.inj pid d1 va1 pid' d2 va2 g
            h1 h2 h3 h4 ((hmaps h1 va1 g).mp h5) ((hmaps h2 va2 g).mp h6)
        · exact fun pid d' va' g h1 h2 h3 => hb'.here pid d' va' g h1 h2 ((hmaps h1 va' g).mp h3)
        · intro pid d' va' i h1 h2 h3 h4
          rw [hpres h1]
          exact hb'.slot pid d' va' i h1 h2 h3 h4
        · intro pid d' va' h1 h2 h3
          rw [hpres h1] at h3
          exact hb'.away pid d' va' h1 h2 h3
        · intro pid d' va' h1 h2
          obtain ⟨h3, h4⟩ := hb'.mapped pid d' va' h1 h2
          refine ⟨h3, ?_⟩
          obtain ⟨x, hx⟩ := Option.ne_none_iff_exists'.mp h4
          rw [pte_setTab_of_some hx]
          exact Option.some_ne_none x
      · intro g hg
        rw [← hmem g hg]
        refine Function.update_of_ne ?_ _ _
        rintro rfl
        have hnd := (List.nodup_append.mp hb.nodup).2.1
        exact (List.nodup_cons.mp hnd).1 hg

/-! ### Pages come and go -/

/-- The pages, with `va` of process `pid`. -/
def plus (M : Nat → Nat → Prop) (pid va : Nat) (pid' va' : Nat) : Prop :=
  M pid' va' ∨ (pid' = pid ∧ va' = va)

/-- The pages, without `va` of process `pid`. -/
def minus (M : Nat → Nat → Prop) (pid va : Nat) (pid' va' : Nat) : Prop :=
  M pid' va' ∧ ¬ (pid' = pid ∧ va' = va)

theorem plus_minus {pid va : Nat} (h : M pid va) : plus (minus M pid va) pid va = M := by
  funext pid' va'
  apply propext
  constructor
  · rintro (⟨h1, -⟩ | ⟨rfl, rfl⟩)
    · exact h1
    · exact h
  · intro h1
    by_cases hc : pid' = pid ∧ va' = va
    · exact Or.inr hc
    · exact Or.inl ⟨h1, hc⟩

/-- A frame in hand with the right bytes becomes a page. -/
theorem Backed.map {pid d va f : Nat} {x y : Pte} (hs : Sound own s)
    (h : Backed own M c (f :: held) s) (hown : own pid d) (hva : PGSIZE ∣ va) (hnew : ¬ M pid va)
    (hc : Holds (s.mem f) c pid va) (hy : s.pte d va = some y) (hp : x.p = true)
    (hf : x.frame = f) : Backed own (plus M pid va) c held (s.setPte d va x) := by
  have hfree : f ∉ s.freelist ++ s.kheld ++ held :=
    (List.nodup_cons.mp (List.perm_middle.nodup_iff.mp h.nodup)).1
  have hdrop : Backed own M c held s := Backed.drop (l := [f]) h
  have hold : ∀ {d' va' g}, Maps (s.setPte d va x) d' va' g →
      Maps s d' va' g ∨ (d' = d ∧ va' = va ∧ g = f) := by
    intro d' va' g hg
    by_cases hdv : d' = d ∧ va' = va
    · obtain ⟨rfl, rfl⟩ := hdv
      exact Or.inr ⟨rfl, rfl, ((maps_setPte_self hy).mp hg).2.symm.trans hf⟩
    · exact Or.inl ((maps_setPte_of_ne hdv).mp hg)
  have hnot : ∀ {pid' d' va'}, own pid' d' → PGSIZE ∣ va' → ¬ Maps s d' va' f := by
    intro pid' d' va' h1 h2 h3
    exact h.apart pid' d' va' f h1 h2 h3 (List.mem_append_right _ List.mem_cons_self)
  refine ⟨h.func, h.pos, fun pid' d' h1 => (h.blank pid' d' h1).setPte hy, hdrop.nodup, ?_, ?_, ?_,
    ?_, ?_, ?_⟩
  · intro pid' d' va' g h1 h2 h3
    rcases hold h3 with h3 | ⟨-, -, rfl⟩
    · exact hdrop.apart pid' d' va' g h1 h2 h3
    · exact hfree
  · intro pid₁ d₁ va₁ pid₂ d₂ va₂ g h1 h2 h3 h4 h5 h6
    rcases hold h5 with h7 | ⟨rfl, rfl, rfl⟩
    · rcases hold h6 with h8 | ⟨-, -, rfl⟩
      · exact h.inj pid₁ d₁ va₁ pid₂ d₂ va₂ g h1 h2 h3 h4 h7 h8
      · exact absurd h7 (hnot h1 h3)
    · rcases hold h6 with h8 | ⟨rfl, rfl, -⟩
      · exact absurd h8 (hnot h2 h4)
      · exact ⟨rfl, rfl⟩
  · intro pid' d' va' g h1 h2 h3
    rcases hold h3 with h3 | ⟨rfl, rfl, rfl⟩
    · obtain ⟨hm, hc'⟩ := h.here pid' d' va' g h1 h2 h3
      exact ⟨Or.inl hm, hc'⟩
    · obtain rfl := hs.owner pid' pid d' h1 hown
      exact ⟨Or.inr ⟨rfl, rfl⟩, hc⟩
  · intro pid' d' va' i h1 h2 h3 h4
    obtain ⟨hm, hnp, hfl, hc'⟩ := h.slot pid' d' va' i h1 h2 h3 h4
    refine ⟨Or.inl hm, ?_, hfl, hc'⟩
    rw [present_iff]
    rintro ⟨g, hg⟩
    rcases hold hg with hg | ⟨rfl, rfl, -⟩
    · exact hnp hg.present
    · obtain rfl := hs.owner pid' pid d' h1 hown
      exact hnew hm
  · intro pid' d' va' h1 hm hnp
    rcases hm with hm | ⟨rfl, rfl⟩
    · exact h.away pid' d' va' h1 hm fun hp' => hnp (present_setPte hp' hy hp)
    · obtain rfl := h.func pid' d' d h1 hown
      exact absurd (present_iff.mpr ⟨f, (maps_setPte_self hy).mpr ⟨hp, hf⟩⟩) hnp
  · intro pid' d' va' h1 hm
    rcases hm with hm | ⟨rfl, rfl⟩
    · obtain ⟨h2, h3⟩ := h.mapped pid' d' va' h1 hm
      exact ⟨h2, fun hn => h3 ((pte_setPte_eq_none s d va x d' va').mp hn)⟩
    · obtain rfl := h.func pid' d' d h1 hown
      refine ⟨hva, fun hn => ?_⟩
      rw [(pte_setPte_eq_none s d' va' x d' va').mp hn] at hy
      cases hy

theorem mapPage_backed {pid d va f : Nat} {w u a r : Bool} (hs : Sound own s)
    (h : Backed own M c (f :: held) s) (hown : own pid d) (hva : PGSIZE ∣ va) (hnew : ¬ M pid va)
    (hc : Holds (s.mem f) c pid va) (hm : mapPage s d va f w u a = .ok (t, r)) :
    Backed own (plus M pid va) c held t ∧ t.kheld = s.kheld := by
  unfold mapPage at hm
  obtain ⟨⟨v, r'⟩, hv, hm⟩ := bind_eq_ok.mp hm
  obtain ⟨hsv, -, rfl⟩ := walkpgdir_spec hs hv
  obtain ⟨hb, hmem, hk⟩ := walkpgdir_backed hs h hv
  dsimp only at hm
  split at hm
  · cases hm
  · rename_i x hx
    split at hm
    · cases hm
    · cases hm
      have hc' : Holds (v.mem f) c pid va :=
        hc.congr (hmem f List.mem_cons_self) fun _ _ => rfl
      exact ⟨hb.map hsv hown hva hnew hc' hx rfl rfl, hk⟩

theorem addPageIf_backed {d va pid : Nat} {test : Bool} (hs : Sound own s)
    (h : Backed own M c held s) (ht : addPageIf test s d va pid = .ok t) :
    Backed own M c held t ∧ t.kheld = s.kheld := by
  unfold addPageIf at ht
  split at ht
  · unfold addPage at ht
    obtain ⟨u, hu, ht⟩ := bind_eq_ok.mp ht
    obtain ⟨hb, -, hk⟩ := allocSlab_backed hs h hu
    split at ht
    · cases ht
    · cases ht
      exact ⟨hb.congr rfl rfl rfl rfl rfl rfl rfl, hk⟩
  · cases ht
    exact ⟨h, rfl⟩

theorem holds_zero {pid va : Nat} (h : ∀ k < PGSIZE, c pid (va + k) = 0) :
    Holds Bytes.zero c pid va := by
  intro k hk
  rw [Bytes.get_zero, h k hk]

theorem allocPage_backed {d base pid i : Nat} {r : Bool} (hs : Sound own s)
    (h : Backed own M c held s) (hown : own pid d) (hi : PGSIZE ∣ i) (hnew : ¬ M pid i)
    (hc : ∀ k < PGSIZE, c pid (i + k) = 0) (ht : allocPage s d base pid i = .ok (t, r)) :
    Backed own (plus M pid i) c held t ∧ t.kheld = s.kheld := by
  unfold allocPage at ht
  obtain ⟨⟨u, o⟩, hu, ht⟩ := bind_eq_ok.mp ht
  obtain ⟨hsu, -, -⟩ := kalloc_spec hs hu
  obtain ⟨f, rfl, hbu, -, hku⟩ := kalloc_backed hs h hu
  obtain ⟨⟨v, r'⟩, hv, ht⟩ := bind_eq_ok.mp ht
  have hsu' : Sound own (u.setMem f Bytes.zero) := hsu.congr rfl rfl rfl hsu.count
  obtain ⟨hsv, -, rfl, -⟩ := mapPage_spec hsu' hv
  have hz : Holds ((u.setMem f Bytes.zero).mem f) c pid i :=
    (holds_zero hc).congr (Function.update_self _ _ _) fun _ _ => rfl
  obtain ⟨hbv, hkv⟩ := mapPage_backed hsu' (hbu.setMem List.mem_cons_self) hown hi hnew hz hv
  obtain ⟨w, hw, ht⟩ := bind_eq_ok.mp ht
  obtain ⟨hbw, hkw⟩ := addPageIf_backed hsv hbv hw
  cases ht
  exact ⟨hbw, hkw.trans (hkv.trans hku)⟩

/-- An entry of a process's one directory. -/
theorem Backed.dir_of_key {pid d va : Nat} (hs : Sound own s) (h : Backed own M c held s)
    (hown : own pid d) (hva : PGSIZE ∣ va) : ∀ e ∈ s.pgqueue, e.key = va ||| pid → e.dir = d := by
  intro e he hkey
  obtain ⟨-, hown', -⟩ := (hs.entry e he).of_key hs.toBase hva (hs.small pid d hown) hkey
  exact h.func pid _ _ hown' hown

theorem allocLoop_backed {d base pid : Nat} (hown : own pid d) (l : List Nat) :
    ∀ {M : Nat → Nat → Prop} {s t : Core} {o : Option Nat}, Sound own s → Backed own M c held s →
      (∀ va ∈ l, PGSIZE ∣ va ∧ va < KERNBASE) → l.Nodup → (∀ va ∈ l, ¬ M pid va) →
      (∀ va ∈ l, ∀ k < PGSIZE, c pid (va + k) = 0) → allocLoop d base pid l s = .ok (t, o) →
      Backed own (fun pid' va => M pid' va ∨ (pid' = pid ∧ va ∈ l)) c held t ∧
        t.kheld = s.kheld := by
  induction l with
  | nil =>
    intro M s t o _ h _ _ _ _ ht
    cases ht
    refine ⟨?_, rfl⟩
    simpa using h
  | cons i l ih =>
    intro M s t o hs h hl hnd hnew hc ht
    obtain ⟨hi, hlt⟩ := hl i List.mem_cons_self
    rw [List.nodup_cons] at hnd
    unfold allocLoop at ht
    obtain ⟨⟨u, r⟩, hu, ht⟩ := bind_eq_ok.mp ht
    obtain ⟨hsu, -, rfl⟩ := allocPage_spec hown hs hi hlt (fun _ => h.dir_of_key hs hown hi) hu
    obtain ⟨hbu, hku⟩ := allocPage_backed hs h hown hi (hnew i List.mem_cons_self)
      (hc i List.mem_cons_self) hu
    have hnew' : ∀ va ∈ l, ¬ plus M pid i pid va := by
      rintro va hva (hm | ⟨-, rfl⟩)
      · exact hnew va (List.mem_cons_of_mem _ hva) hm
      · exact hnd.1 hva
    obtain ⟨hbt, hkt⟩ := ih hsu hbu (fun va hva => hl va (List.mem_cons_of_mem _ hva)) hnd.2 hnew'
      (fun va hva => hc va (List.mem_cons_of_mem _ hva)) ht
    refine ⟨?_, hkt.trans hku⟩
    have heq : (fun pid' va => M pid' va ∨ (pid' = pid ∧ va ∈ i :: l)) =
        fun pid' va => plus M pid i pid' va ∨ (pid' = pid ∧ va ∈ l) := by
      funext pid' va
      simp only [plus, List.mem_cons, and_or_left, or_assoc]
    rw [heq]
    exact hbt

/-! ### Unmapping -/

theorem freePageSlot_of_not_mem {key : Nat} (h : ∀ i < SLOTSIZE, s.swapMap i ≠ key) :
    freePageSlot s key = s := by
  unfold freePageSlot
  split
  · rfl
  · rename_i i hi
    obtain ⟨-, hlt, htest⟩ := firstFrom_some hi
    exact absurd (of_decide_eq_true htest) (h i (by omega))

theorem freePage_true_of_not_mem {key : Nat} (h : ∀ i < SLOTSIZE, s.swapMap i ≠ key) :
    freePage s key true = { s with pgqueue := s.pgqueue.eraseP fun e => e.key = key } := by
  unfold freePage
  split
  · rename_i hnone
    rw [List.eraseP_of_forall_not]
    intro e he
    simpa using List.find?_eq_none.mp hnone e he
  · rename_i e he
    have hkey : e.key = key := by simpa using List.find?_some he
    dsimp only
    rw [if_pos rfl, hkey, freePageSlot_of_not_mem h]

/-- A present page goes, and its frame with it. -/
theorem unmap_backed {pid d va : Nat} {x : Pte} (hs : Sound own s) (h : Backed own M c held s)
    (hown : own pid d) (hva : PGSIZE ∣ va) (hx : s.pte d va = some x) (hp : x.p = true) :
    Backed own (minus M pid va) c held (unmap s d va x pid) := by
  have hmaps : Maps s d va x.frame := ⟨x, hx, hp, rfl⟩
  have hslot : ∀ i < SLOTSIZE, s.swapMap i ≠ va ||| pid := by
    intro i hi hk
    exact (h.slot pid d va i hown hva hi hk).2.1 hmaps.present
  have hself : ∀ g, ¬ Maps (s.setPte d va Pte.zero) d va g := by
    intro g hg
    exact absurd ((maps_setPte_self hx).mp hg).1 (by decide)
  have hold : ∀ {d' va' g}, Maps (s.setPte d va Pte.zero) d' va' g →
      Maps s d' va' g ∧ ¬ (d' = d ∧ va' = va) := by
    intro d' va' g hg
    by_cases hc : d' = d ∧ va' = va
    · obtain ⟨rfl, rfl⟩ := hc
      exact absurd hg (hself g)
    · exact ⟨(maps_setPte_of_ne hc).mp hg, hc⟩
  have hne : ∀ {pid' d' va' g}, own pid' d' → PGSIZE ∣ va' →
      Maps (s.setPte d va Pte.zero) d' va' g → g ≠ x.frame := by
    rintro pid' d' va' g h1 h2 h3 rfl
    obtain ⟨h3, h4⟩ := hold h3
    exact h4 (h.inj pid' d' va' pid d va _ h1 hown h2 hva h3 hmaps)
  have hother : ∀ {pid' d' va'}, own pid' d' → ¬ (d' = d ∧ va' = va) → ¬ (pid' = pid ∧ va' = va) := by
    rintro pid' d' va' h1 h2 ⟨rfl, rfl⟩
    exact h2 ⟨h.func pid' d' d h1 hown, rfl⟩
  unfold unmap
  rw [freePage_true_of_not_mem hslot]
  refine ⟨h.func, h.pos, fun pid' d' h1 => (h.blank pid' d' h1).setPte hx, ?_, ?_, ?_, ?_, ?_, ?_, ?_⟩
  · exact List.nodup_cons.mpr ⟨h.apart pid d va _ hown hva hmaps, h.nodup⟩
  · intro pid' d' va' g h1 h2 h3 hmem
    rcases List.mem_cons.mp hmem with hc | hmem
    · exact hne h1 h2 h3 hc
    · exact h.apart pid' d' va' g h1 h2 (hold h3).1 hmem
  · intro pid₁ d₁ va₁ pid₂ d₂ va₂ g h1 h2 h3 h4 h5 h6
    exact h.inj pid₁ d₁ va₁ pid₂ d₂ va₂ g h1 h2 h3 h4 (hold h5).1 (hold h6).1
  · intro pid' d' va' g h1 h2 h3
    obtain ⟨hm, hc⟩ := h.here pid' d' va' g h1 h2 (hold h3).1
    exact ⟨⟨hm, hother h1 (hold h3).2⟩,
      hc.congr (Function.update_of_ne (hne h1 h2 h3) _ _) fun _ _ => rfl⟩
  · intro pid' d' va' i h1 h2 h3 h4
    obtain ⟨hm, hnp, hfl, hc⟩ := h.slot pid' d' va' i h1 h2 h3 h4
    refine ⟨⟨hm, ?_⟩, ?_, hfl, hc⟩
    · rintro ⟨rfl, rfl⟩
      exact hslot i h3 h4
    · rw [present_iff]
      rintro ⟨g, hg⟩
      exact hnp (hold hg).1.present
  · rintro pid' d' va' h1 ⟨hm, hne'⟩ hnp
    refine h.away pid' d' va' h1 hm fun hp' => hnp (present_setPte_of_ne (s := s) hp' ?_)
    rintro ⟨rfl, rfl⟩
    exact hne' ⟨hs.owner pid' pid d' h1 hown, rfl⟩
  · rintro pid' d' va' h1 ⟨hm, -⟩
    obtain ⟨h2, h3⟩ := h.mapped pid' d' va' h1 hm
    exact ⟨h2, fun hn => h3 ((pte_setPte_eq_none s d va Pte.zero d' va').mp hn)⟩

theorem kheld_unmap (s : Core) (d va : Nat) (x : Pte) (pid : Nat) :
    (unmap s d va x pid).kheld = s.kheld := by
  unfold unmap
  obtain ⟨m, hm⟩ := freePage_eq s (va ||| pid) true
  rw [hm]
  rfl

/-- `deallocuvm` over pages that are all present. -/
theorem deallocLoop_backed {d pid : Nat} (startva : Nat) (hown : own pid d) (k : Nat) :
    ∀ {i : Nat} {M : Nat → Nat → Prop} {s : Core}, PGSIZE ∣ i → Sound own s →
      Backed own M c held s →
      (∀ va, PGSIZE ∣ va → i ≤ va → va < startva → Present s d va) →
      startva ≤ i + k * PGSIZE →
      Backed own (fun pid' va => M pid' va ∧ ¬ (pid' = pid ∧ i ≤ va ∧ va < startva)) c held
        (deallocLoop d startva pid k i s) ∧ (deallocLoop d startva pid k i s).kheld = s.kheld := by
  induction k with
  | zero =>
    intro i M s _ _ h _ hle
    refine ⟨?_, rfl⟩
    have heq : (fun pid' va => M pid' va ∧ ¬ (pid' = pid ∧ i ≤ va ∧ va < startva)) = M := by
      funext pid' va
      apply propext
      exact and_iff_left (by omega)
    rw [heq]
    exact h
  | succ k ih =>
    intro i M s hi hs h hall hle
    unfold deallocLoop
    split
    · rename_i hge
      refine ⟨?_, rfl⟩
      have heq : (fun pid' va => M pid' va ∧ ¬ (pid' = pid ∧ i ≤ va ∧ va < startva)) = M := by
        funext pid' va
        apply propext
        exact and_iff_left (by omega)
      rw [heq]
      exact h
    · rename_i hlt
      obtain ⟨x, hx, hp⟩ := hall i hi (Nat.le_refl _) (by omega)
      rw [hx]
      dsimp only
      rw [if_pos hp]
      have hpos : 0 < PGSIZE := by decide
      have hnext : PGSIZE ∣ i + PGSIZE := Dvd.dvd.add hi (dvd_refl _)
      have hb := unmap_backed hs h hown hi hx hp
      have hall' : ∀ va, PGSIZE ∣ va → i + PGSIZE ≤ va → va < startva →
          Present (unmap s d i x pid) d va := by
        intro va hva h1 h2
        have hpva := hall va hva (by omega) h2
        unfold unmap
        obtain ⟨m, hm⟩ := freePage_eq s (i ||| pid) true
        rw [hm]
        exact present_setPte_of_ne (s := s) hpva (by omega)
      obtain ⟨hbt, hkt⟩ := ih hnext (hs.unmap hown i x) hb hall' (by
        rw [Nat.succ_mul] at hle
        omega)
      refine ⟨?_, hkt.trans (kheld_unmap s d i x pid)⟩
      have heq : ∀ pid' va, M pid' va → ((¬ (pid' = pid ∧ i ≤ va ∧ va < startva)) ↔
          ¬ (pid' = pid ∧ va = i) ∧ ¬ (pid' = pid ∧ i + PGSIZE ≤ va ∧ va < startva)) := by
        intro pid' va hm
        constructor
        · intro hc
          exact ⟨fun h1 => hc ⟨h1.1, by omega, by omega⟩, fun h1 => hc ⟨h1.1, by omega, by omega⟩⟩
        · rintro ⟨h1, h2⟩ ⟨rfl, h3, h4⟩
          have hva := (h.mapped pid' d va hown hm).1
          refine h2 ⟨rfl, ?_, h4⟩
          have hne : va ≠ i := fun hc => h1 ⟨rfl, hc⟩
          unfold PGSIZE at *
          omega
      have hfun : (fun pid' va => M pid' va ∧ ¬ (pid' = pid ∧ i ≤ va ∧ va < startva)) =
          fun pid' va => minus M pid i pid' va ∧ ¬ (pid' = pid ∧ i + PGSIZE ≤ va ∧ va < startva) := by
        funext pid' va
        apply propext
        unfold minus
        rw [and_assoc]
        exact and_congr_right (heq pid' va)
      rw [hfun]
      exact hbt

/-! ### Faulting in -/

theorem secno2swapm_swapm2secno (i : Nat) : secno2swapm (swapm2secno i) = i := by
  unfold secno2swapm swapm2secno
  omega

/-- A page whose slot has been read. -/
theorem Backed.freeSlot {pid d va i : Nat} (hs : Sound own s) (h : Backed own M c held s)
    (hown : own pid d) (hva : PGSIZE ∣ va) (hi : i < SLOTSIZE) (hkey : s.swapMap i = va ||| pid) :
    Backed own (minus M pid va) c held
      { s with swapMap := Function.update s.swapMap i 0 } := by
  obtain ⟨hm, hnp, hfl, -⟩ := h.slot pid d va i hown hva hi hkey
  have hrest : ∀ {pid' d' va' j}, own pid' d' → PGSIZE ∣ va' →
      Function.update s.swapMap i 0 j = va' ||| pid' → j ≠ i ∧ s.swapMap j = va' ||| pid' := by
    intro pid' d' va' j h1 h2 h3
    by_cases hij : j = i
    · rw [hij, Function.update_self] at h3
      exact absurd h3.symm (or_ne_zero (h.pos pid' d' h1))
    · rw [Function.update_of_ne hij] at h3
      exact ⟨hij, h3⟩
  refine ⟨h.func, h.pos, h.blank, h.nodup, h.apart, h.inj, ?_, ?_, ?_, ?_⟩
  · intro pid' d' va' g h1 h2 h3
    obtain ⟨hm', hc⟩ := h.here pid' d' va' g h1 h2 h3
    refine ⟨⟨hm', ?_⟩, hc⟩
    rintro ⟨rfl, rfl⟩
    rw [h.func pid' d' d h1 hown] at h3
    exact hnp h3.present
  · intro pid' d' va' j h1 h2 h3 h4
    obtain ⟨hij, h4⟩ := hrest h1 h2 h4
    obtain ⟨hm', hnp', hfl', hc⟩ := h.slot pid' d' va' j h1 h2 h3 h4
    refine ⟨⟨hm', ?_⟩, hnp', hfl', hc⟩
    rintro ⟨rfl, rfl⟩
    exact hij (swapm2secno_inj (hfl'.symm.trans hfl))
  · rintro pid' d' va' h1 ⟨hm', hne⟩ hnp'
    obtain ⟨j, hj, hk⟩ := h.away pid' d' va' h1 hm' hnp'
    refine ⟨j, hj, ?_⟩
    change Function.update s.swapMap i 0 j = va' ||| pid'
    have hij : j ≠ i := by
      rintro rfl
      have h2 := (h.mapped pid' d' va' h1 hm').1
      obtain ⟨h3, h4⟩ := key_inj h2 hva (hs.small pid' d' h1) (hs.small pid d hown)
        (hk.symm.trans hkey)
      exact hne ⟨h4, h3⟩
    rw [Function.update_of_ne hij]
    exact hk
  · rintro pid' d' va' h1 ⟨hm', -⟩
    exact h.mapped pid' d' va' h1 hm'

theorem addPage_queued {d va pid : Nat} (ht : addPage s d va pid = .ok t) :
    ∃ e ∈ t.pgqueue, e.dir = d ∧ e.va = va := by
  unfold addPage at ht
  obtain ⟨u, -, ht⟩ := bind_eq_ok.mp ht
  split at ht
  · cases ht
  · rename_i x hx
    cases ht
    exact ⟨⟨d, va, va ||| pid, x.a⟩, List.mem_append_right _ (List.mem_singleton.mpr rfl), rfl, rfl⟩

/-- `page_in` brings the page back with its bytes. -/
theorem pageIn_backed {pid d va : Nat} (hs : Sound own s) (h : Backed own M c held s)
    (hown : own pid d) (hva : PGSIZE ∣ va) (hlt : va < KERNBASE)
    (ht : pageIn s pid d va = .ok t) :
    Sound own t ∧ Evol d s t ∧ Backed own M c held t ∧ t.kheld = s.kheld ∧ Present t d va := by
  -- the slot that is found says that the page is not in a frame any more
  have hfind : ∀ u o n, kalloc s = .ok (u, o) → findSlot u (pid ||| va) = .ok n →
      ∃ f i, o = some f ∧ n = swapm2secno i ∧ i < SLOTSIZE ∧ u.swapMap i = va ||| pid ∧
        Sound own u ∧ Backed own M c (f :: held) u ∧ u.kheld = s.kheld := by
    intro u o n hu hn
    obtain ⟨hsu, -, -⟩ := kalloc_spec hs hu
    obtain ⟨f, rfl, hb, -, hk⟩ := kalloc_backed hs h hu
    obtain ⟨i, hi, rfl⟩ := findSlot_spec hn
    obtain ⟨-, hilt, htest⟩ := firstFrom_some hi
    rw [decide_eq_true_eq, Nat.lor_comm] at htest
    exact ⟨f, i, rfl, rfl, by omega, htest, hsu, hb, hk⟩
  have hnew : ∀ u o n, kalloc s = .ok (u, o) → findSlot u (pid ||| va) = .ok n →
      ∀ e ∈ u.pgqueue, e.key ≠ va ||| pid := by
    intro u o n hu hn e he hkey
    obtain ⟨f, i, -, -, hi, hk, hsu, hb, -⟩ := hfind u o n hu hn
    obtain ⟨-, hown', hp⟩ := (hsu.entry e he).of_key hsu.toBase hva (hsu.small pid d hown) hkey
    rw [hb.func pid _ _ hown' hown] at hp
    exact (hb.slot pid d va i hown hva hi hk).2.1 hp
  obtain ⟨hst, het⟩ := pageIn_spec hs hown hva hlt hnew ht
  refine ⟨hst, het, ?_⟩
  unfold pageIn at ht
  obtain ⟨⟨u, o⟩, hu, ht⟩ := bind_eq_ok.mp ht
  cases o with
  | none => cases ht
  | some f =>
    dsimp only at ht
    obtain ⟨n, hn, ht⟩ := bind_eq_ok.mp ht
    obtain ⟨g, i, hg, rfl, hi, hkey, hsu, hb, hk⟩ := hfind u _ n hu hn
    cases hg
    obtain ⟨v, hv, ht⟩ := bind_eq_ok.mp ht
    rw [freeSlot_spec hv, secno2swapm_swapm2secno] at ht
    obtain ⟨hm, hnp, -, hc⟩ := hb.slot pid d va i hown hva hi hkey
    have hsv : Sound own { u.setMem f (u.swap (swapm2secno i)) with
        swapMap := Function.update u.swapMap i 0 } := hsu.congr rfl rfl rfl hsu.count
    have hsm : Sound own (u.setMem f (u.swap (swapm2secno i))) := hsu.congr rfl rfl rfl hsu.count
    have hbv := Backed.freeSlot hsm (hb.setMem List.mem_cons_self) hown hva hi hkey
    split at ht
    · cases ht
    · rename_i x hx
      have hframe : Holds ((u.setMem f (u.swap (swapm2secno i))).mem f) c pid va :=
        hc.congr (Function.update_self _ _ _) fun _ _ => rfl
      have hmap := Backed.map (x := { x with p := true, frame := f }) hsv hbv hown hva
        (fun hc => hc.2 ⟨rfl, rfl⟩) hframe hx rfl rfl
      rw [plus_minus hm] at hmap
      obtain ⟨hs', -⟩ := hsv.setPte (x := { x with p := true, frame := f }) hx rfl
      have ht' : addPageIf true _ d va pid = .ok t := ht
      obtain ⟨hbt, hkt⟩ := addPageIf_backed hs' hmap ht'
      obtain ⟨e, he, rfl, rfl⟩ := addPage_queued ht
      obtain ⟨-, -, -, hp, -⟩ := hst.entry e he
      exact ⟨hbt, hkt.trans hk, hp⟩

/-! ### Storing -/

/-- Only the reference bit or the user bit of an entry changed. -/
theorem Backed.retag {d va : Nat} {x y : Pte} (h : Backed own M c held s) (hy : s.pte d va = some y)
    (hp : x.p = y.p) (hf : x.frame = y.frame) : Backed own M c held (s.setPte d va x) := by
  have hmaps : ∀ d' va' g, Maps (s.setPte d va x) d' va' g ↔ Maps s d' va' g := by
    intro d' va' g
    by_cases hc : d' = d ∧ va' = va
    · obtain ⟨rfl, rfl⟩ := hc
      rw [maps_setPte_self hy, hp, hf]
      unfold Maps
      rw [hy]
      simp
    · exact maps_setPte_of_ne hc
  have hpres : ∀ d' va', Present (s.setPte d va x) d' va' ↔ Present s d' va' := by
    intro d' va'
    rw [present_iff, present_iff]
    exact exists_congr (hmaps d' va')
  have hnone := pte_setPte_eq_none s d va x
  refine ⟨h.func, h.pos, fun pid d' h1 => (h.blank pid d' h1).setPte hy, h.nodup, ?_, ?_, ?_, ?_, ?_,
    ?_⟩ <;> simp only [hmaps, hpres, ne_eq, hnone]
  exacts [h.apart, h.inj, h.here, h.slot, h.away, h.mapped]

/-- The bytes of one page change, in its frame. -/
theorem Backed.write {pid d va f : Nat} {page : Page} {c' : Content} (hs : Sound own s)
    (h : Backed own M c held s) (hown : own pid d) (hva : PGSIZE ∣ va) (hf : Maps s d va f)
    (hnew : Holds page c' pid va)
    (hold : ∀ pid' va', PGSIZE ∣ va' → ¬ (pid' = pid ∧ va' = va) → ∀ k < PGSIZE,
      c' pid' (va' + k) = c pid' (va' + k)) :
    Backed own M c' held (s.setMem f page) := by
  refine ⟨h.func, h.pos, h.blank, h.nodup, h.apart, h.inj, ?_, ?_, h.away, h.mapped⟩
  · intro pid' d' va' g h1 h2 h3
    obtain ⟨hm, hc⟩ := h.here pid' d' va' g h1 h2 h3
    refine ⟨hm, ?_⟩
    change Holds (Function.update s.mem f page g) c' pid' va'
    by_cases hgf : g = f
    · subst hgf
      obtain ⟨rfl, rfl⟩ := h.inj pid' d' va' pid d va g h1 hown h2 hva h3 hf
      obtain rfl := hs.owner pid' pid d' h1 hown
      rw [Function.update_self]
      exact hnew
    · rw [Function.update_of_ne hgf]
      refine hc.congr rfl (hold pid' va' h2 ?_)
      rintro ⟨rfl, rfl⟩
      obtain rfl := h.func pid' d' d h1 hown
      obtain ⟨x, hx, -, rfl⟩ := h3
      obtain ⟨y, hy, -, rfl⟩ := hf
      cases hy.symm.trans hx
      exact hgf rfl
  · intro pid' d' va' i h1 h2 h3 h4
    obtain ⟨hm, hnp, hfl, hc⟩ := h.slot pid' d' va' i h1 h2 h3 h4
    refine ⟨hm, hnp, hfl, hc.congr rfl (hold pid' va' h2 ?_)⟩
    rintro ⟨rfl, rfl⟩
    obtain rfl := h.func pid' d' d h1 hown
    exact hnp hf.present

/-! ### What can go wrong -/

/-- Out of pages to evict, or out of swap space. -/
def OutOfMemory (e : Stop) : Prop := e = .panic .noPageToPageOut ∨ e = .panic .noFreeSlot

theorem pageOut_error {e : Stop} (hs : Sound own s) (ht : pageOut s = .error e) : OutOfMemory e := by
  unfold pageOut at ht
  split at ht
  · cases ht
    exact Or.inl rfl
  · rename_i q x hsel
    obtain ⟨hsame, he⟩ := selPage_spec hsel
    obtain ⟨x', hx', h1, h2, -⟩ := mem_of_samePage hsame he
    obtain ⟨-, -, -, ⟨y, hy, hyp⟩, -⟩ := hs.entry x' hx'
    have hy' : ({ s with pgqueue := q } : Core).pte x.dir x.va = some y := by
      rw [h1, h2]
      exact hy
    unfold pageOutEntry at ht
    rw [hy'] at ht
    dsimp only at ht
    rw [if_neg (by simp [hyp])] at ht
    unfold allocSlot at ht
    split at ht
    · cases ht
      exact Or.inr rfl
    · cases ht

theorem kalloc_error {e : Stop} (hs : Sound own s) (ht : kalloc s = .error e) : OutOfMemory e := by
  unfold kalloc at ht
  split at ht
  · cases hu : pageOut s with
    | error e' =>
      rw [hu] at ht
      cases ht
      exact pageOut_error hs hu
    | ok u =>
      rw [hu] at ht
      cases ht
  · cases ht

theorem takeFrame_dirs (s : Core) : (takeFrame s).1.dirs = s.dirs := by
  unfold takeFrame
  cases s.freelist with
  | nil => rfl
  | cons f l => rfl

/-- An allocation at most takes the present bit from an entry. -/
theorem kalloc_pte {o : Option Nat} (ht : kalloc s = .ok (t, o)) (d va : Nat) :
    t.pte d va = s.pte d va ∨
      ∃ x, s.pte d va = some x ∧ t.pte d va = some { x with p := false } := by
  have htake : ∀ {u}, takeFrame u = (t, o) → t.pte d va = u.pte d va := by
    intro u hu
    have hd : t.dirs = u.dirs := by
      have := takeFrame_dirs u
      rwa [hu] at this
    simp only [Core.pte, hd]
  unfold kalloc at ht
  split at ht
  · cases hu : pageOut s with
    | error e => simp [hu, Except.map] at ht
    | ok u =>
      rw [hu] at ht
      rw [htake (Except.ok.inj ht)]
      obtain ⟨q, e, x, i, -, hx, -, -, rfl⟩ := pageOut_eq hu
      change (s.setPte e.dir e.va { x with p := false }).pte d va = _ ∨
        ∃ y, _ ∧ (s.setPte e.dir e.va { x with p := false }).pte d va = _
      by_cases hc : d = e.dir ∧ va = e.va
      · obtain ⟨rfl, rfl⟩ := hc
        refine Or.inr ⟨x, hx, ?_⟩
        rw [pte_setPte, if_pos ⟨rfl, rfl⟩, hx]
        rfl
      · left
        rw [pte_setPte, if_neg hc]
  · exact Or.inl (htake (Except.ok.inj ht))

theorem kalloc_present {d va : Nat} {o : Option Nat} (ht : kalloc s = .ok (t, o))
    (hp : Present t d va) : Present s d va := by
  obtain ⟨y, hy, hyp⟩ := hp
  rcases kalloc_pte ht d va with h | ⟨x, -, h⟩
  · exact ⟨y, h ▸ hy, hyp⟩
  · rw [h] at hy
    cases hy
    cases hyp

theorem bind_error {α β : Type} {x : Except Stop α} {f : α → Except Stop β} {e : Stop} :
    (x >>= f) = .error e ↔ x = .error e ∨ ∃ a, x = .ok a ∧ f a = .error e := by
  cases x with
  | error e' => simp [bind, Except.bind]
  | ok a => simp [bind, Except.bind]

theorem addPage_error {d va pid : Nat} {e : Stop} (hs : Sound own s) (hd : s.pte d va ≠ none)
    (ht : addPage s d va pid = .error e) : OutOfMemory e := by
  unfold addPage at ht
  rcases bind_error.mp ht with ht | ⟨u, hu, ht⟩
  · unfold allocSlab at ht
    split at ht
    · rcases bind_error.mp ht with ht | ⟨⟨u, o⟩, hu, ht⟩
      · exact kalloc_error hs ht
      · obtain ⟨-, -, f, rfl⟩ := kalloc_spec hs hu
        cases ht
    · cases ht
  · have hne : u.pte d va ≠ none := by
      unfold allocSlab at hu
      split at hu
      · obtain ⟨⟨v, o⟩, hv, hu⟩ := bind_eq_ok.mp hu
        obtain ⟨-, -, f, rfl⟩ := kalloc_spec hs hv
        cases hu
        change v.pte d va ≠ none
        rcases kalloc_pte hv d va with h | ⟨x, -, h⟩
        · rw [h]
          exact hd
        · rw [h]
          exact Option.some_ne_none _
      · cases hu
        exact hd
    split at ht
    · rename_i hn
      exact absurd hn hne
    · cases ht

/-- A page that is away always comes back, or memory is exhausted. -/
theorem pageIn_error {pid d va : Nat} {e : Stop} (hs : Sound own s) (h : Backed own M c held s)
    (hown : own pid d) (hm : M pid va) (hnp : ¬ Present s d va)
    (ht : pageIn s pid d va = .error e) : OutOfMemory e := by
  have hva := (h.mapped pid d va hown hm).1
  unfold pageIn at ht
  rcases bind_error.mp ht with ht | ⟨⟨u, o⟩, hu, ht⟩
  · exact kalloc_error hs ht
  · obtain ⟨hsu, -, -⟩ := kalloc_spec hs hu
    obtain ⟨f, rfl, hb, -, -⟩ := kalloc_backed hs h hu
    have hnpu : ¬ Present u d va := fun hp => hnp (kalloc_present hu hp)
    obtain ⟨i, hi, hkey⟩ := hb.away pid d va hown hm hnpu
    dsimp only at ht
    rw [hb.findSlot hown hm hnpu] at ht
    obtain ⟨-, -, hfl, hc⟩ := hb.slot pid d va i hown hva hi hkey
    rcases bind_error.mp ht with ht | ⟨n, hn, ht⟩
    · cases ht
    · obtain rfl : u.filled (va ||| pid) = n := Except.ok.inj hn
      rw [hfl] at ht
      rcases bind_error.mp ht with ht | ⟨v, hv, ht⟩
      · unfold freeSlot at ht
        rw [secno2swapm_swapm2secno] at ht
        dsimp only at ht
        rw [if_neg (by omega)] at ht
        cases ht
      · have hsv : Sound own v := by
          rw [freeSlot_spec hv]
          exact hsu.congr rfl rfl rfl hsu.count
        have hpte : v.pte d va = u.pte d va := by
          rw [freeSlot_spec hv]
          rfl
        obtain ⟨x, hx⟩ := Option.ne_none_iff_exists'.mp (hb.mapped pid d va hown hm).2
        rw [hpte, hx] at ht
        have hs' := (hsv.setPte (x := { x with p := true, frame := f }) (hpte.trans hx) rfl).1
        refine addPage_error hs' ?_ ht
        rw [pte_setPte, if_pos ⟨rfl, rfl⟩, hpte, hx]
        exact Option.some_ne_none _

end Yonix.Vm
