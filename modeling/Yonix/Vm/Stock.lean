/-
  Yonix/Vm/Stock.lean
  ===================
  **Counting what an allocation needs.**

  Whether `kalloc` succeeds depends on four numbers only: the frames on the free list, the
  pages that can be evicted, the free slots of the swap area, and the slabs left.  A frame
  comes from the list or costs an entry of the queue and a slot.  So the run of a function
  that only allocates can be followed in these numbers (`Follows`), and it fails exactly
  if they run out.
-/
import Yonix.Vm.Transparent

namespace Yonix.Vm

/-! ### The numbers -/

structure Stock where
  free : Nat
  queue : Nat
  room : Nat
  slabs : Nat

/-- The free slots of the swap area. -/
@[irreducible] def room (m : Nat → Nat) : Nat := (List.range SLOTSIZE).countP fun i => m i = 0

def Core.stock (s : Core) : Stock := ⟨s.freelist.length, s.pgqueue.length, room s.swapMap, s.slabs⟩

/-- One frame. -/
def Stock.frame (a : Stock) : Option Stock :=
  if 0 < a.free then some { a with free := a.free - 1 }
  else if 0 < a.queue ∧ 0 < a.room then some { a with queue := a.queue - 1, room := a.room - 1 }
  else none

theorem Stock.frame_free {a : Stock} (h : 0 < a.free) : a.frame = some { a with free := a.free - 1 } :=
  if_pos h

theorem Stock.frame_evict {a : Stock} (h : a.free = 0) (hq : 0 < a.queue) (hr : 0 < a.room) :
    a.frame = some { a with queue := a.queue - 1, room := a.room - 1 } := by
  unfold Stock.frame
  rw [if_neg (by omega), if_pos ⟨hq, hr⟩]

theorem Stock.frame_none {a : Stock} (h : a.free = 0) (hn : ¬ (0 < a.queue ∧ 0 < a.room)) :
    a.frame = none := by
  unfold Stock.frame
  rw [if_neg (by omega), if_neg hn]

/-- A page table, if it is not there. -/
def Stock.table (new : Bool) (a : Stock) : Option Stock := if new then a.frame else some a

def Stock.slab (a : Stock) : Option Stock :=
  if a.slabs = 0 then a.frame.map fun a => { a with slabs := PGSIZE / SLABSIZE - 1 - 1 }
  else some { a with slabs := a.slabs - 1 }

/-- A new entry of the queue. -/
def Stock.entry (test : Bool) (a : Stock) : Option Stock :=
  if test then a.slab.map fun a => { a with queue := a.queue + 1 } else some a

/-- One page of `allocuvm`. -/
def Stock.page (new queued : Bool) (a : Stock) : Option Stock :=
  (a.frame.bind (Stock.table new)).bind (Stock.entry queued)

/-- The pages of `allocuvm`, in a directory with the tables `tab`. -/
def Stock.pages (base : Nat) : List Nat → (Nat → Bool) → Stock → Option Stock
  | [], _, a => some a
  | i :: l, tab, a =>
    (a.page (!tab (pdx i)) (base < i)).bind (Stock.pages base l (Function.update tab (pdx i) true))

/-- `x` succeeds exactly if the numbers suffice, and they say what is left. -/
def Follows {α : Type} (x : Except Stop α) (f : α → Core) (a : Option Stock) : Prop :=
  match x with
  | .ok v => a = some (f v).stock
  | .error _ => a = none

variable {own M : Nat → Nat → Prop} {c : Content} {held : List Nat} {s t : Core} {α β : Type}

theorem Follows.ok {v : α} {f : α → Core} {a : Option Stock} (h : a = some (f v).stock) :
    Follows (.ok v) f a := h

theorem Follows.bind {x : Except Stop α} {g : α → Except Stop β} {f : α → Core} {h : β → Core}
    {a : Option Stock} {k : Stock → Option Stock} (hx : Follows x f a)
    (hg : ∀ v, x = .ok v → Follows (g v) h (k (f v).stock)) : Follows (x >>= g) h (a.bind k) := by
  cases x with
  | error e =>
    rw [show a = none from hx]
    exact rfl
  | ok v =>
    rw [show a = some (f v).stock from hx]
    exact hg v rfl

theorem Follows.isSome {x : Except Stop α} {f : α → Core} {a : Option Stock} (h : Follows x f a) :
    (∃ v, x = .ok v) ↔ a.isSome = true := by
  cases x with
  | error e =>
    rw [show a = none from h]
    simp
  | ok v =>
    rw [show a = some (f v).stock from h]
    simp

/-! ### Frames -/

theorem countP_update {m : Nat → Nat} {i k : Nat} (hi : m i = 0) (hk : k ≠ 0) {l : List Nat}
    (hl : l.Nodup) (hmem : i ∈ l) :
    (l.countP fun j => Function.update m i k j = 0) + 1 = l.countP fun j => m j = 0 := by
  induction l with
  | nil => cases hmem
  | cons j l ih =>
    obtain ⟨hj, hl⟩ := List.nodup_cons.mp hl
    rw [List.countP_cons, List.countP_cons]
    by_cases hij : i = j
    · subst hij
      have hrest : (l.countP fun j => Function.update m i k j = 0) = l.countP fun j => m j = 0 := by
        refine List.countP_congr ?_
        intro j' hj'
        have hne : j' ≠ i := fun h => hj (h ▸ hj')
        rw [Function.update_of_ne hne]
      simp [hrest, hi, hk]
    · have hrest := ih hl ((List.mem_cons.mp hmem).resolve_left hij)
      rw [Function.update_of_ne (Ne.symm hij)]
      omega

theorem room_update {m : Nat → Nat} {i k : Nat} (hi : m i = 0) (hlt : i < SLOTSIZE) (hk : k ≠ 0) :
    room (Function.update m i k) + 1 = room m := by
  unfold room
  exact countP_update hi hk List.nodup_range (List.mem_range.mpr hlt)

theorem room_pos {m : Nat → Nat} (h : 0 < room m) : ∃ i, i < SLOTSIZE ∧ m i = 0 := by
  unfold room at h
  obtain ⟨i, hi, hzero⟩ := List.countP_pos_iff.mp h
  exact ⟨i, List.mem_range.mp hi, of_decide_eq_true hzero⟩

theorem secondChance_none {q : List Entry} (h : (secondChance q).2 = none) :
    (secondChance q).1.length = q.length := by
  induction q with
  | nil => rfl
  | cons e l ih =>
    unfold secondChance at h ⊢
    split at h
    · rename_i href
      rw [if_pos href, List.length_cons, List.length_cons, ih h]
    · cases h

theorem selPage_none {q l : List Entry} (h : selPage q = (l, none)) : q = [] := by
  unfold selPage at h
  split at h
  · cases h
  · rename_i l' hl
    have hlen := secondChance_none (q := q) (by rw [hl])
    rw [hl] at hlen
    obtain ⟨-, hhead⟩ := Prod.mk.inj h
    rw [List.head?_eq_none_iff.mp hhead] at hlen
    exact List.eq_nil_of_length_eq_zero hlen.symm

/-- `page_out` succeeds with an entry and a slot, and uses one of each. -/
theorem pageOut_follows (hs : Sound own s) (hpos : ∀ pid d, own pid d → pid ≠ 0) :
    (∀ t, pageOut s = .ok t → t.freelist.length = s.freelist.length + 1 ∧
      t.pgqueue.length + 1 = s.pgqueue.length ∧ room t.swapMap + 1 = room s.swapMap ∧
      t.slabs = s.slabs) ∧
    (∀ e, pageOut s = .error e → ¬ (0 < s.pgqueue.length ∧ 0 < room s.swapMap)) := by
  constructor
  · intro t ht
    obtain ⟨q, e, x, i, hsel, hx, hp, hi, rfl⟩ := pageOut_eq ht
    obtain ⟨hsame, he⟩ := selPage_spec hsel
    obtain ⟨e', he', -, -, hkey⟩ := mem_of_samePage hsame he
    obtain ⟨pid, hown, hkey', -⟩ := hs.entry e' he'
    obtain ⟨-, hlt, hzero⟩ := firstFrom_some hi
    have hne : e.key ≠ 0 := by
      rw [hkey, hkey']
      exact or_ne_zero (hpos pid _ hown)
    refine ⟨rfl, ?_, room_update (by simpa using hzero) (by omega) hne, rfl⟩
    have hlen := List.length_eraseP_of_mem he (p := fun e' => e'.key = e.key) (by simp)
    have hposlen := List.length_pos_of_mem he
    have hq := hsame.length_eq
    dsimp only
    omega
  · rintro e ht ⟨hq, hr⟩
    unfold pageOut at ht
    split at ht
    · rename_i l hsel
      rw [selPage_none hsel] at hq
      cases hq
    · rename_i q x hsel
      obtain ⟨hsame, he⟩ := selPage_spec hsel
      obtain ⟨x', hx', h1, h2, -⟩ := mem_of_samePage hsame he
      obtain ⟨-, -, -, ⟨y, hy, hyp⟩, -⟩ := hs.entry x' hx'
      have hy' : ({ s with pgqueue := q } : Core).pte x.dir x.va = some y := by
        rw [h1, h2]
        exact hy
      unfold pageOutEntry at ht
      rw [hy'] at ht
      dsimp only at ht
      rw [if_neg (by simp [hyp])] at ht
      unfold allocSlot at ht
      split at ht
      · rename_i hnone
        obtain ⟨i, hi, hzero⟩ := room_pos hr
        obtain ⟨k, hk⟩ := firstFrom_isSome (i := 0) (n := SLOTSIZE) (t := fun i => s.swapMap i = 0)
          (Nat.zero_le i) (by omega) (by simpa using hzero)
        change firstFrom (fun i => s.swapMap i = 0) SLOTSIZE 0 = none at hnone
        rw [hnone] at hk
        cases hk
      · cases ht

theorem takeFrame_stock (hne : s.freelist ≠ []) : (takeFrame s).1.stock =
    { s.stock with free := s.stock.free - 1 } := by
  obtain ⟨f, l, hl⟩ := List.exists_cons_of_ne_nil hne
  simp [takeFrame, Core.stock, hl]

theorem kalloc_follows (hs : Sound own s) (hpos : ∀ pid d, own pid d → pid ≠ 0) :
    Follows (kalloc s) Prod.fst s.stock.frame := by
  obtain ⟨hok, herr⟩ := pageOut_follows hs hpos
  unfold kalloc
  split
  · rename_i hzero
    have hempty : s.stock.free = 0 := hs.count.symm.trans hzero
    cases hu : pageOut s with
    | error e => exact Stock.frame_none hempty (herr e hu)
    | ok u =>
      obtain ⟨hfree, hqueue, hroom, hslabs⟩ := hok u hu
      obtain ⟨-, -, hne⟩ := pageOut_spec hs hu
      have hq : 0 < s.stock.queue := by
        change 0 < s.pgqueue.length
        omega
      have hr : 0 < s.stock.room := by
        change 0 < room s.swapMap
        omega
      change s.stock.frame = some (takeFrame u).1.stock
      rw [Stock.frame_evict hempty hq hr, takeFrame_stock hne]
      change s.freelist.length = 0 at hempty
      have h1 : s.pgqueue.length - 1 = u.pgqueue.length := by omega
      have h2 : room s.swapMap - 1 = room u.swapMap := by omega
      have h3 : u.freelist.length - 1 = s.freelist.length := by omega
      simp only [Core.stock, h1, h2, h3, hslabs]
  · rename_i hne
    have hlen : 0 < s.stock.free := by
      change 0 < s.freelist.length
      rw [← hs.count]
      exact Nat.pos_of_ne_zero hne
    change s.stock.frame = some (takeFrame s).1.stock
    rw [takeFrame_stock (List.length_pos_iff.mp hlen), Stock.frame_free hlen]

theorem allocSlab_follows (hs : Sound own s) (hpos : ∀ pid d, own pid d → pid ≠ 0) :
    Follows (allocSlab s) id s.stock.slab := by
  unfold allocSlab Stock.slab
  by_cases hzero : s.slabs = 0
  · have hstock : s.stock.slabs = 0 := hzero
    rw [if_pos hzero, if_pos hstock, Option.map_eq_bind]
    refine (kalloc_follows hs hpos).bind ?_
    rintro ⟨u, o⟩ hu
    obtain ⟨-, -, f, rfl⟩ := kalloc_spec hs hu
    exact rfl
  · have hstock : ¬ s.stock.slabs = 0 := hzero
    rw [if_neg hzero, if_neg hstock]
    exact rfl

/-! ### Pages -/

/-- Directory `d` has the tables `tab`. -/
def Tables (s : Core) (d : Nat) (tab : Nat → Bool) : Prop :=
  ∃ D, s.dirs d = some D ∧ ∀ r, (D.tab r).isSome = tab r

theorem Tables.setPte {d : Nat} {tab : Nat → Bool} (h : Tables s d tab) (d' va : Nat) (x : Pte) :
    Tables (s.setPte d' va x) d tab := by
  obtain ⟨D, hD, htab⟩ := h
  unfold Tables Core.setPte
  by_cases hd : d = d'
  · subst hd
    exact ⟨{ D with pte := Function.update D.pte va x }, by simp [hD], htab⟩
  · exact ⟨D, by simp [hd, hD], htab⟩

theorem Tables.kalloc {d : Nat} {tab : Nat → Bool} {o : Option Nat} (h : Tables s d tab)
    (ht : Vm.kalloc s = .ok (t, o)) : Tables t d tab := by
  have htake : ∀ {u : Core}, Tables u d tab → Tables (takeFrame u).1 d tab := by
    intro u hu
    unfold Tables
    rw [takeFrame_dirs]
    exact hu
  unfold Vm.kalloc at ht
  split at ht
  · cases hu : pageOut s with
    | error e =>
      rw [hu] at ht
      cases ht
    | ok u =>
      rw [hu] at ht
      obtain ⟨q, e, x, i, -, -, -, -, rfl⟩ := pageOut_eq hu
      obtain rfl := congrArg Prod.fst (Except.ok.inj ht)
      refine htake ?_
      exact h.setPte e.dir e.va { x with p := false }
  · obtain rfl := congrArg Prod.fst (Except.ok.inj ht)
    exact htake h

theorem Tables.allocSlab {d : Nat} {tab : Nat → Bool} (h : Tables s d tab)
    (ht : Vm.allocSlab s = .ok t) : Tables t d tab := by
  unfold Vm.allocSlab at ht
  split at ht
  · obtain ⟨⟨u, o⟩, hu, ht⟩ := bind_eq_ok.mp ht
    cases o with
    | none => cases ht
    | some f =>
      obtain rfl := Except.ok.inj ht
      exact Tables.kalloc (t := u) h hu
  · cases ht
    exact h

theorem walkpgdir_follows {d : Nat} {tab : Nat → Bool} (va : Nat) (hs : Sound own s)
    (hpos : ∀ pid d, own pid d → pid ≠ 0) (htab : Tables s d tab) :
    Follows (walkpgdir s d va true) Prod.fst (s.stock.table (!tab (pdx va))) ∧
      ∀ t r, walkpgdir s d va true = .ok (t, r) →
        Tables t d (Function.update tab (pdx va) true) ∧ t.pte d va ≠ none := by
  obtain ⟨D, hD, hsome⟩ := htab
  unfold walkpgdir
  rw [hD]
  dsimp only
  rw [hsome]
  by_cases hva : tab (pdx va) = true
  · rw [if_pos hva, hva]
    refine ⟨rfl, ?_⟩
    intro t r ht
    cases ht
    refine ⟨⟨D, hD, ?_⟩, ?_⟩
    · intro r
      rw [hsome, Function.update_apply]
      split
      · rename_i hr
        rw [hr, hva]
      · rfl
    · rw [← hsome, Option.isSome_iff_exists] at hva
      obtain ⟨f, hf⟩ := hva
      simp [Core.pte, hD, hf]
  · have hnew : (!tab (pdx va)) = true := by simpa using hva
    rw [if_neg hva, if_neg (by decide), hnew]
    constructor
    · rw [← Option.bind_fun_some (s.stock.table true)]
      apply (kalloc_follows hs hpos).bind (k := some) (h := Prod.fst)
      rintro ⟨u, o⟩ -
      cases o <;> exact rfl
    · intro t r ht
      obtain ⟨⟨u, o⟩, hu, ht⟩ := bind_eq_ok.mp ht
      obtain ⟨-, -, f, rfl⟩ := kalloc_spec hs hu
      cases ht
      obtain ⟨E, hE, hEtab⟩ := Tables.kalloc ⟨D, hD, hsome⟩ hu
      have hset : ((u.setMem f Bytes.zero).setTab d (pdx va) f).dirs d =
          some { E with tab := Function.update E.tab (pdx va) (some f) } := by
        simp [Core.setTab, Core.setMem, hE]
      refine ⟨⟨_, hset, ?_⟩, ?_⟩
      · intro r
        dsimp only
        rw [Function.update_apply, Function.update_apply]
        split
        · rfl
        · exact hEtab r
      · simp [Core.pte, hset]

theorem Tables.pte_ne_none {d va : Nat} {tab : Nat → Bool} (h : Tables s d tab)
    (hva : tab (pdx va) = true) : s.pte d va ≠ none := by
  obtain ⟨D, hD, htab⟩ := h
  rw [← htab, Option.isSome_iff_exists] at hva
  obtain ⟨f, hf⟩ := hva
  simp [Core.pte, hD, hf]

/-- A page that the process does not have is not present. -/
theorem Backed.not_present {pid d va : Nat} (h : Backed own M c held s) (hown : own pid d)
    (hva : PGSIZE ∣ va) (hnew : ¬ M pid va) : ¬ Present s d va := by
  intro hp
  obtain ⟨f, hf⟩ := present_iff.mp hp
  exact hnew (h.here pid d va f hown hva hf).1

theorem mapPage_follows {pid d va f : Nat} {w u a : Bool} {tab : Nat → Bool} (hs : Sound own s)
    (h : Backed own M c held s) (hown : own pid d) (hva : PGSIZE ∣ va) (hnew : ¬ M pid va)
    (htab : Tables s d tab) :
    Follows (mapPage s d va f w u a) Prod.fst (s.stock.table (!tab (pdx va))) ∧
      ∀ t r, mapPage s d va f w u a = .ok (t, r) → Tables t d (Function.update tab (pdx va) true) := by
  obtain ⟨hfol, hwalk⟩ := walkpgdir_follows va hs h.pos htab
  unfold mapPage
  constructor
  · rw [← Option.bind_fun_some (s.stock.table (!tab (pdx va)))]
    refine hfol.bind ?_
    rintro ⟨v, r⟩ hv
    obtain ⟨-, -, rfl⟩ := walkpgdir_spec hs hv
    obtain ⟨htv, hne⟩ := hwalk v true hv
    obtain ⟨x, hx⟩ := Option.ne_none_iff_exists'.mp hne
    have hp : ¬ x.p = true := by
      intro hp
      exact (walkpgdir_backed hs h hv).1.not_present hown hva hnew ⟨x, hx, hp⟩
    dsimp only
    rw [hx]
    dsimp only
    rw [if_neg hp]
    exact rfl
  · intro t r ht
    obtain ⟨⟨v, r'⟩, hv, ht⟩ := bind_eq_ok.mp ht
    obtain ⟨-, -, rfl⟩ := walkpgdir_spec hs hv
    obtain ⟨htv, -⟩ := hwalk v true hv
    dsimp only at ht
    split at ht
    · cases ht
    · split at ht
      · cases ht
      · obtain rfl := congrArg Prod.fst (Except.ok.inj ht)
        exact htv.setPte d va _

theorem addPageIf_follows {d va : Nat} {tab : Nat → Bool} (pid : Nat) (test : Bool) (hs : Sound own s)
    (hpos : ∀ pid d, own pid d → pid ≠ 0) (htab : Tables s d tab) (hva : tab (pdx va) = true) :
    Follows (addPageIf test s d va pid) id (s.stock.entry test) ∧
      ∀ t, addPageIf test s d va pid = .ok t → Tables t d tab := by
  unfold addPageIf Stock.entry
  cases test with
  | false =>
    refine ⟨rfl, ?_⟩
    intro t ht
    cases ht
    exact htab
  | true =>
    rw [if_pos rfl, if_pos rfl, Option.map_eq_bind]
    unfold addPage
    constructor
    · refine (allocSlab_follows hs hpos).bind ?_
      intro u hu
      obtain ⟨x, hx⟩ := Option.ne_none_iff_exists'.mp ((htab.allocSlab hu).pte_ne_none hva)
      rw [hx]
      change some _ = some _
      simp [Core.stock]
    · intro t ht
      obtain ⟨u, hu, ht⟩ := bind_eq_ok.mp ht
      split at ht
      · cases ht
      · obtain rfl := Except.ok.inj ht
        exact Tables.allocSlab (t := u) htab hu

theorem allocPage_follows {pid d i : Nat} {tab : Nat → Bool} (base : Nat) (hs : Sound own s)
    (h : Backed own M c held s) (hown : own pid d) (hi : PGSIZE ∣ i) (hnew : ¬ M pid i)
    (htab : Tables s d tab) :
    Follows (allocPage s d base pid i) Prod.fst (s.stock.page (!tab (pdx i)) (base < i)) ∧
      ∀ t r, allocPage s d base pid i = .ok (t, r) → Tables t d (Function.update tab (pdx i) true) := by
  -- the state between `kalloc` and `mappages`
  have hmid : ∀ {u : Core} {f : Nat}, kalloc s = .ok (u, some f) →
      Sound own (u.setMem f Bytes.zero) ∧ Backed own M c (f :: held) (u.setMem f Bytes.zero) ∧
        Tables (u.setMem f Bytes.zero) d tab := by
    intro u f hu
    obtain ⟨hsu, -, -⟩ := kalloc_spec hs hu
    obtain ⟨g, hg, hb, -⟩ := kalloc_backed hs h hu
    cases hg
    exact ⟨hsu.congr rfl rfl rfl hsu.count, hb.setMem List.mem_cons_self,
      Tables.kalloc (t := u) htab hu⟩
  have hself : Function.update tab (pdx i) true (pdx i) = true := Function.update_self _ _ _
  unfold allocPage Stock.page
  constructor
  · rw [Option.bind_assoc]
    refine (kalloc_follows hs h.pos).bind ?_
    rintro ⟨u, o⟩ hu
    obtain ⟨-, -, f, rfl⟩ := kalloc_spec hs hu
    obtain ⟨hsu, hbu, htu⟩ := hmid hu
    obtain ⟨hfol, hmap⟩ := mapPage_follows (f := f) (w := true) (u := true) (a := false) hsu hbu hown hi hnew htu
    refine hfol.bind ?_
    rintro ⟨v, r⟩ hv
    obtain ⟨hsv, -, rfl, -⟩ := mapPage_spec hsu hv
    obtain ⟨hadd, -⟩ := addPageIf_follows pid (decide (base < i)) hsv h.pos
      (hmap v true hv) hself
    dsimp only
    rw [← Option.bind_fun_some (v.stock.entry (decide (base < i)))]
    exact hadd.bind fun w _ => rfl
  · intro t r ht
    obtain ⟨⟨u, o⟩, hu, ht⟩ := bind_eq_ok.mp ht
    obtain ⟨-, -, f, rfl⟩ := kalloc_spec hs hu
    obtain ⟨hsu, hbu, htu⟩ := hmid hu
    obtain ⟨⟨v, r'⟩, hv, ht⟩ := bind_eq_ok.mp ht
    obtain ⟨hsv, -, rfl, -⟩ := mapPage_spec hsu hv
    obtain ⟨w, hw, ht⟩ := bind_eq_ok.mp ht
    obtain rfl := congrArg Prod.fst (Except.ok.inj ht)
    have htv := (mapPage_follows hsu hbu hown hi hnew htu).2 v true hv
    exact (addPageIf_follows pid _ hsv h.pos htv hself).2 w hw

/-- `allocuvm` over these pages. -/
theorem allocLoop_follows {pid d : Nat} (base : Nat) (hown : own pid d) (l : List Nat) :
    ∀ {M : Nat → Nat → Prop} {s : Core} {tab : Nat → Bool}, Sound own s → Backed own M c held s →
      Tables s d tab → (∀ va ∈ l, PGSIZE ∣ va ∧ va < KERNBASE) → l.Nodup → (∀ va ∈ l, ¬ M pid va) →
      (∀ va ∈ l, ∀ k < PGSIZE, c pid (va + k) = 0) →
      Follows (allocLoop d base pid l s) Prod.fst (Stock.pages base l tab s.stock) := by
  induction l with
  | nil => exact fun _ _ _ _ _ _ _ => rfl
  | cons i l ih =>
    intro M s tab hs h htab hl hnd hnew hc
    obtain ⟨hi, hlt⟩ := hl i List.mem_cons_self
    rw [List.nodup_cons] at hnd
    obtain ⟨hfol, htabs⟩ := allocPage_follows base hs h hown hi (hnew i List.mem_cons_self) htab
    unfold allocLoop Stock.pages
    refine hfol.bind ?_
    rintro ⟨u, r⟩ hu
    obtain ⟨hsu, -, rfl⟩ := allocPage_spec hown hs hi hlt (fun _ => h.dir_of_key hs hown hi) hu
    obtain ⟨hbu, -⟩ := allocPage_backed hs h hown hi (hnew i List.mem_cons_self)
      (hc i List.mem_cons_self) hu
    refine ih hsu hbu (htabs u true hu) (fun va hva => hl va (List.mem_cons_of_mem _ hva)) hnd.2 ?_
      fun va hva => hc va (List.mem_cons_of_mem _ hva)
    rintro va hva (hm | ⟨-, rfl⟩)
    · exact hnew va (List.mem_cons_of_mem _ hva) hm
    · exact hnd.1 hva

end Yonix.Vm
