/-
  Yonix/Vm/Copy.lean
  ==================
  **`fork` copies memory, unless the page it copies is evicted under its hands.**

  `copyuvm` takes the frame address of a page of the parent and then asks `kalloc` for a
  frame.  When no frame is free `kalloc` evicts a page.  If that is the page to be copied,
  its own frame comes back as the new one, with the node of the free list over its first
  eight bytes.  In every other case the child gets the bytes of the parent.  The parent
  keeps its own in all cases: the page goes to the swap area before the frame is freed.
-/
import Yonix.Vm.Transparent
import Yonix.Vm.Reaping

namespace Yonix.Vm

variable {own M : Nat → Nat → Prop} {c : Content} {held : List Nat} {s t : Core}

/-! ### Pages in frames and in slots -/

/-- The page at `va`, in its frame or in the slot that `page_in` would read. -/
def pageAt (s : Core) (d pid va : Nat) : Option Page :=
  match s.pte d va with
  | none => none
  | some x =>
    if x.p then some (s.mem x.frame)
    else match findSlot s (pid ||| va) with
      | .ok n => some (s.swap n)
      | .error _ => none

theorem Backed.pageAt {pid d va : Nat} (h : Backed own M c held s) (hown : own pid d)
    (hm : M pid va) : ∃ x, pageAt s d pid va = some x ∧ Holds x c pid va := by
  obtain ⟨hva, hne⟩ := h.mapped pid d va hown hm
  obtain ⟨y, hy⟩ := Option.ne_none_iff_exists'.mp hne
  unfold Vm.pageAt
  rw [hy]
  dsimp only
  by_cases hp : y.p = true
  · rw [if_pos hp]
    exact ⟨_, rfl, (h.here pid d va _ hown hva ⟨y, hy, hp, rfl⟩).2⟩
  · have hnp : ¬ Present s d va := by
      rintro ⟨z, hz, hzp⟩
      rw [hy] at hz
      cases hz
      exact hp hzp
    obtain ⟨i, hi, hkey⟩ := h.away pid d va hown hm hnp
    obtain ⟨-, -, hfl, hc⟩ := h.slot pid d va i hown hva hi hkey
    rw [if_neg hp, h.findSlot hown hm hnp, hfl]
    exact ⟨_, rfl, hc⟩

theorem Backed.of_pageAt {pid d va : Nat} {x : Page} (h : Backed own M c held s) (hown : own pid d)
    (hva : PGSIZE ∣ va) (hx : Vm.pageAt s d pid va = some x) : M pid va ∧ Holds x c pid va := by
  unfold Vm.pageAt at hx
  split at hx
  · cases hx
  · rename_i y hy
    split at hx
    · rename_i hp
      cases hx
      exact h.here pid d va _ hown hva ⟨y, hy, hp, rfl⟩
    · split at hx
      · rename_i n hn
        cases hx
        obtain ⟨i, hi, rfl⟩ := findSlot_spec hn
        obtain ⟨-, hlt, htest⟩ := firstFrom_some hi
        rw [decide_eq_true_eq, Nat.lor_comm] at htest
        obtain ⟨hm, -, -, hc⟩ := h.slot pid d va i hown hva (by omega) htest
        exact ⟨hm, hc⟩
      · cases hx

/-- Pages with the bytes of one process at one address are equal. -/
theorem Holds.unique {x y : Page} {c' : Content} {pid pid' va : Nat} (hx : Holds x c pid va)
    (hy : Holds y c' pid' va) (hc : ∀ k < PGSIZE, c' pid' (va + k) = c pid (va + k)) : y = x := by
  apply Bytes.ext_get
  intro k hk
  rw [hx k hk, hy k hk, hc k hk]

/-! ### Permissions -/

/-- The permissions of every mapped page outside `S` are kept. -/
def Keeps (S : Nat → Nat → Prop) (s t : Core) : Prop :=
  ∀ d va x, s.pte d va = some x → ¬ S d va → ∃ y, t.pte d va = some y ∧ y.w = x.w ∧ y.u = x.u

variable {S : Nat → Nat → Prop}

theorem Keeps.of_dirs (h : t.dirs = s.dirs) : Keeps S s t := by
  intro d va x hx _
  refine ⟨x, ?_, rfl, rfl⟩
  unfold Core.pte at hx ⊢
  rw [h]
  exact hx

theorem Keeps.trans {u : Core} (h : Keeps S s t) (h' : Keeps S t u) : Keeps S s u := by
  intro d va x hx hn
  obtain ⟨y, hy, hw, hu⟩ := h d va x hx hn
  obtain ⟨z, hz, hw', hu'⟩ := h' d va y hy hn
  exact ⟨z, hz, hw'.trans hw, hu'.trans hu⟩

theorem Keeps.mono {S' : Nat → Nat → Prop} (h : Keeps S s t) (hS : ∀ d va, S d va → S' d va) :
    Keeps S' s t :=
  fun d va x hx hn => h d va x hx fun hs => hn (hS d va hs)

theorem Keeps.setPte {d va : Nat} {x y : Pte} (hy : s.pte d va = some y)
    (hx : ¬ S d va → x.w = y.w ∧ x.u = y.u) : Keeps S s (s.setPte d va x) := by
  intro d' va' z hz hn
  rw [pte_setPte]
  split
  · rename_i hc
    obtain ⟨rfl, rfl⟩ := hc
    rw [hz] at hy
    cases hy
    rw [hz]
    exact ⟨x, rfl, hx hn⟩
  · exact ⟨z, hz, rfl, rfl⟩

theorem kalloc_keeps {o : Option Nat} (ht : kalloc s = .ok (t, o)) : Keeps S s t := by
  intro d va x hx _
  rcases kalloc_pte ht d va with h | ⟨y, hy, h⟩
  · exact ⟨x, h.trans hx, rfl, rfl⟩
  · rw [hx] at hy
    cases hy
    exact ⟨_, h, rfl, rfl⟩

theorem allocSlab_keeps (ht : allocSlab s = .ok t) : Keeps S s t := by
  unfold allocSlab at ht
  split at ht
  · obtain ⟨⟨u, o⟩, hu, ht⟩ := bind_eq_ok.mp ht
    cases o with
    | none => cases ht
    | some f =>
      cases ht
      exact (kalloc_keeps hu).trans (Keeps.of_dirs rfl)
  · cases ht
    exact Keeps.of_dirs rfl

theorem addPageIf_keeps {d va pid : Nat} {test : Bool} (ht : addPageIf test s d va pid = .ok t) :
    Keeps S s t := by
  unfold addPageIf at ht
  split at ht
  · unfold addPage at ht
    obtain ⟨u, hu, ht⟩ := bind_eq_ok.mp ht
    split at ht
    · cases ht
    · cases ht
      exact (allocSlab_keeps hu).trans (Keeps.of_dirs rfl)
  · cases ht
    exact Keeps.of_dirs rfl

theorem walkpgdir_keeps {d va : Nat} {r : Bool} (ht : walkpgdir s d va true = .ok (t, r)) :
    Keeps S s t := by
  unfold walkpgdir at ht
  split at ht
  · cases ht
  · split at ht
    · cases ht
      exact Keeps.of_dirs rfl
    · rw [if_neg (by decide)] at ht
      obtain ⟨⟨u, o⟩, hu, ht⟩ := bind_eq_ok.mp ht
      cases o with
      | none =>
        cases ht
        exact kalloc_keeps hu
      | some f =>
        cases ht
        apply (kalloc_keeps hu).trans
        intro d' va' x hx _
        exact ⟨x, pte_setTab_of_some (s := u.setMem f Bytes.zero) hx d (pdx va) f, rfl, rfl⟩

/-- A new page has the permissions it is mapped with. -/
theorem mapPage_keeps {d va f : Nat} {w u a : Bool} (ht : mapPage s d va f w u a = .ok (t, true)) :
    Keeps (fun d' va' => d' = d ∧ va' = va) s t ∧ t.pte d va = some ⟨true, w, u, a, f⟩ := by
  unfold mapPage at ht
  obtain ⟨⟨v, r⟩, hv, ht⟩ := bind_eq_ok.mp ht
  cases r with
  | false => cases ht
  | true =>
    dsimp only at ht
    split at ht
    · cases ht
    · rename_i x hx
      split at ht
      · cases ht
      · cases ht
        refine ⟨(walkpgdir_keeps hv).trans (Keeps.setPte hx fun hn => absurd ⟨rfl, rfl⟩ hn), ?_⟩
        rw [pte_setPte, if_pos ⟨rfl, rfl⟩, hx]
        rfl

theorem pageInIf_keeps {test : Bool} {pid d va : Nat} (ht : pageInIf test s pid d va = .ok t) :
    Keeps S s t := by
  unfold pageInIf at ht
  split at ht
  · unfold pageIn at ht
    obtain ⟨⟨u, o⟩, hu, ht⟩ := bind_eq_ok.mp ht
    cases o with
    | none => cases ht
    | some f =>
      dsimp only at ht
      obtain ⟨n, -, ht⟩ := bind_eq_ok.mp ht
      obtain ⟨v, hv, ht⟩ := bind_eq_ok.mp ht
      have hdirs : v.dirs = u.dirs := by
        rw [freeSlot_spec hv]
        rfl
      split at ht
      · cases ht
      · rename_i x hx
        have hadd : addPageIf true _ d va pid = .ok t := ht
        have hset : Keeps S v (v.setPte d va { x with p := true, frame := f }) :=
          Keeps.setPte hx fun _ => ⟨rfl, rfl⟩
        exact (((kalloc_keeps hu).trans (Keeps.of_dirs hdirs)).trans hset).trans (addPageIf_keeps hadd)
  · cases ht
    exact Keeps.of_dirs rfl

/-! ### The page under copy -/

/-- A page with the last node of the free list in it. -/
def asNode (x : Page) : Page := (x.setLE 0 4 PGSIZE).setLE 4 4 0

theorem asNode_eq_iff {x : Page} : asNode x = x ↔ ∀ k < 8, (asNode x).get k = x.get k := by
  constructor
  · intro h k _
    rw [h]
  · intro h
    apply Bytes.ext_get
    intro k hk
    rcases Nat.lt_or_ge k 8 with hlt | hge
    · exact h k hlt
    · unfold asNode Bytes.setLE
      rw [Bytes.get_patch_of_not_mem _ _ (by omega), Bytes.get_patch_of_not_mem _ _ (by omega)]

/-- The next `kalloc` evicts page `va` of directory `d`. -/
def evictsNext (s : Core) (d va : Nat) : Bool :=
  s.nfreeblock = 0 ∧ (selPage s.pgqueue).2.any fun e => e.dir = d ∧ e.va = va

/-- Page `va` of directory `d` is not evicted by the next `kalloc`, or it already starts
    with what `kfree` writes there. -/
def spared (s : Core) (d va : Nat) : Bool :=
  match s.pte d va with
  | none => true
  | some x =>
    !evictsNext s d va ||
      decide (∀ k : Nat, k < 8 → (asNode (s.mem x.frame)).get k = (s.mem x.frame).get k)

/-- What is in the frame of a page after `kalloc`. -/
theorem kalloc_mem {pid d va f : Nat} {o : Option Nat} (hs : Sound own s)
    (h : Backed own M c held s) (hown : own pid d) (hva : PGSIZE ∣ va) (hf : Maps s d va f)
    (ht : kalloc s = .ok (t, o)) :
    t.mem f = if evictsNext s d va then asNode (s.mem f) else s.mem f := by
  have htake : ∀ {u}, takeFrame u = (t, o) → t.mem = u.mem := by
    intro u hu
    unfold takeFrame at hu
    split at hu <;> cases hu <;> rfl
  unfold kalloc at ht
  split at ht
  · rename_i hzero
    cases hu : pageOut s with
    | error e => simp [hu, Except.map] at ht
    | ok u =>
      rw [hu] at ht
      rw [htake (Except.ok.inj ht)]
      obtain ⟨q, e, x, i, hsel, hx, hp, -, rfl⟩ := pageOut_eq hu
      obtain ⟨hsame, he⟩ := selPage_spec hsel
      obtain ⟨e', he', h1, h2, -⟩ := mem_of_samePage hsame he
      obtain ⟨pid', hown', -, -, halign, -⟩ := hs.entry e' he'
      rw [← h1] at hown'
      rw [← h2] at halign
      have hmaps : Maps s e.dir e.va x.frame := ⟨x, hx, hp, rfl⟩
      have hev : evictsNext s d va = decide (e.dir = d ∧ e.va = va) := by
        unfold evictsNext
        rw [hsel]
        simp [hzero]
      have hnil : s.freelist = [] := List.length_eq_zero_iff.mp (hs.count.symm.trans hzero)
      have hmem : ∀ g, (kfree (s.setPte e.dir e.va { x with p := false }) x.frame).mem g =
          if g = x.frame then asNode (s.mem x.frame) else s.mem g := by
        intro g
        unfold kfree
        simp only [Core.setPte, hnil, Function.update_apply]
        rfl
      rw [hev]
      change (kfree (s.setPte e.dir e.va { x with p := false }) x.frame).mem f = _
      rw [hmem]
      by_cases hc : e.dir = d ∧ e.va = va
      · obtain ⟨rfl, rfl⟩ := hc
        obtain ⟨y, hy, -, rfl⟩ := hf
        rw [hx] at hy
        cases hy
        rw [if_pos rfl, if_pos (by simp)]
      · have hne : f ≠ x.frame := by
          rintro rfl
          obtain ⟨h3, h4⟩ := h.inj pid d va pid' e.dir e.va _ hown hown' hva halign hf hmaps
          exact hc ⟨h3.symm, h4.symm⟩
        rw [if_neg hne, if_neg (by simpa using hc)]
  · rename_i hne
    rw [htake (Except.ok.inj ht)]
    have hev : evictsNext s d va = false := by
      unfold evictsNext
      simp [hne]
    rw [hev]
    rfl

/-- The frame of the page still has the bytes of the page exactly when it was spared. -/
theorem spared_iff {pid d va f : Nat} {o : Option Nat} (hs : Sound own s)
    (h : Backed own M c held s) (hown : own pid d) (hva : PGSIZE ∣ va) (hf : Maps s d va f)
    (ht : kalloc s = .ok (t, o)) : spared s d va = true ↔ Holds (t.mem f) c pid va := by
  have hc := (h.here pid d va f hown hva hf).2
  rw [kalloc_mem hs h hown hva hf ht]
  obtain ⟨x, hx, hp, rfl⟩ := hf
  unfold spared
  rw [hx]
  dsimp only
  cases evictsNext s d va with
  | false => exact iff_of_true rfl hc
  | true =>
    rw [Bool.not_true, Bool.false_or, decide_eq_true_eq, ← asNode_eq_iff, if_pos rfl]
    constructor
    · intro heq
      rw [heq]
      exact hc
    · intro hnode
      exact hc.unique hnode fun _ _ => rfl

/-! ### One round -/

/-- One round of the loop of `copyuvm`. -/
def copyPage (sd ppid td pid i : Nat) (s : Core) : Except Stop (Core × Bool) :=
  match s.pte sd i with
  | none => .error .stray
  | some x => do
    let s ← pageInIf (x.p = false) s ppid sd i
    match s.pte sd i with
    | none => .error .stray
    | some x =>
      match ← kalloc s with
      | (s, none) => return (s, false)
      | (s, some m) =>
        match ← mapPage (s.setMem m (s.mem x.frame)) td i m x.w x.u x.a with
        | (s, false) => return (s, false)
        | (s, true) =>
          let s ← addPageIf (0 < i ∧ x.u) s td i pid
          return (s, true)

theorem copyLoop_cons (sd ppid td pid i : Nat) (l : List Nat) (s : Core) :
    copyLoop sd ppid td pid (i :: l) s = (do
      match ← copyPage sd ppid td pid i s with
      | (s, false) => return (s, false)
      | (s, true) => copyLoop sd ppid td pid l s) := by
  rw [copyLoop]
  unfold copyPage
  cases s.pte sd i with
  | none => rfl
  | some x =>
    dsimp only
    simp only [bind, Except.bind]
    generalize pageInIf (x.p = false) s ppid sd i = a
    cases a with
    | error e => rfl
    | ok u =>
      dsimp only
      cases u.pte sd i with
      | none => rfl
      | some y =>
        dsimp only
        generalize kalloc u = b
        cases b with
        | error e => rfl
        | ok r =>
          obtain ⟨v, o⟩ := r
          cases o with
          | none => rfl
          | some m =>
            dsimp only
            generalize mapPage (v.setMem m (v.mem y.frame)) td i m y.w y.u y.a = b
            cases b with
            | error e => rfl
            | ok r =>
              obtain ⟨w, r⟩ := r
              cases r with
              | false => rfl
              | true =>
                dsimp only
                generalize addPageIf (0 < i ∧ y.u) w td i pid = b
                cases b with
                | error e => rfl
                | ok z => rfl

/-- In the round for page `i` the page is not evicted between its address being read and
    its bytes. -/
def sparedIn (sd ppid i : Nat) (s : Core) : Bool :=
  match s.pte sd i with
  | none => true
  | some x =>
    match pageInIf (x.p = false) s ppid sd i with
    | .error _ => true
    | .ok s => spared s sd i

/-- The bytes of page `va` of process `pid` replaced by those of a page. -/
def Content.setPage (c : Content) (pid va : Nat) (x : Page) : Content := fun pid' a =>
  if pid' = pid ∧ va ≤ a ∧ a < va + PGSIZE then x.get (a - va) else c pid' a

theorem Content.setPage_self {pid va k : Nat} {x : Page} (hk : k < PGSIZE) :
    c.setPage pid va x pid (va + k) = x.get k := by
  unfold Content.setPage
  rw [if_pos ⟨rfl, by omega, by omega⟩, Nat.add_sub_cancel_left]

theorem Content.setPage_of_ne {pid va pid' a : Nat} {x : Page} (h : pid' ≠ pid) :
    c.setPage pid va x pid' a = c pid' a :=
  if_neg fun hc => h hc.1

theorem Content.setPage_other {pid va va' k : Nat} {x : Page} (hva : PGSIZE ∣ va)
    (hva' : PGSIZE ∣ va') (hne : va' ≠ va) (hk : k < PGSIZE) :
    c.setPage pid va x pid (va' + k) = c pid (va' + k) := by
  apply if_neg
  rintro ⟨-, h1, h2⟩
  apply hne
  obtain ⟨i, rfl⟩ := hva
  obtain ⟨j, rfl⟩ := hva'
  unfold PGSIZE at *
  omega

/-- A page that comes back was one of the process's. -/
theorem pageInIf_backed {pid d va : Nat} {x : Pte} (hs : Sound own s) (h : Backed own M c held s)
    (hown : own pid d) (hva : PGSIZE ∣ va) (hlt : ∀ va, M pid va → va < KERNBASE)
    (hx : s.pte d va = some x) (ht : pageInIf (x.p = false) s pid d va = .ok t) :
    M pid va ∧ Sound own t ∧ Backed own M c held t ∧ Present t d va := by
  unfold pageInIf at ht
  split at ht
  · rename_i hp
    have hm : M pid va := by
      have hin := ht
      unfold pageIn at hin
      obtain ⟨⟨u, o⟩, hu, hin⟩ := bind_eq_ok.mp hin
      obtain ⟨f, rfl, hb, -, -⟩ := kalloc_backed hs h hu
      dsimp only at hin
      obtain ⟨n, hn, -⟩ := bind_eq_ok.mp hin
      obtain ⟨i, hi, rfl⟩ := findSlot_spec hn
      obtain ⟨-, hilt, htest⟩ := firstFrom_some hi
      rw [decide_eq_true_eq, Nat.lor_comm] at htest
      exact (hb.slot pid d va i hown hva (by omega) htest).1
    obtain ⟨hst, -, hbt, -, hpt⟩ := pageIn_backed hs h hown hva (hlt va hm) ht
    exact ⟨hm, hst, hbt, hpt⟩
  · rename_i hp
    cases ht
    have hpres : Present s d va := ⟨x, hx, by simpa using hp⟩
    obtain ⟨f, hf⟩ := present_iff.mp hpres
    exact ⟨(h.here pid d va f hown hva hf).1, hs, h, hpres⟩

variable {sd ppid td pid i : Nat}

/-- What a round leaves: the child has one more page, with the bytes of the parent exactly
    when the page was spared. -/
theorem copyPage_backed {r : Bool} (hs : Sound own s) (h : Backed own M c held s)
    (hsd : own ppid sd) (htd : own pid td) (hne : ppid ≠ pid) (hi : PGSIZE ∣ i)
    (hlt : ∀ va, M ppid va → va < KERNBASE) (hnew : ¬ M pid i)
    (ht : copyPage sd ppid td pid i s = .ok (t, r)) :
    r = true ∧ M ppid i ∧ Sound own t ∧
      (∃ page : Page, Backed own (plus M pid i) (c.setPage pid i page) held t ∧
        (sparedIn sd ppid i s = true ↔ Holds page c ppid i)) ∧
      Keeps (fun d va => d = td ∧ va = i) s t ∧
      ∀ x, s.pte sd i = some x → ∃ y, t.pte td i = some y ∧ y.w = x.w ∧ y.u = x.u := by
  unfold copyPage at ht
  unfold sparedIn
  split at ht
  · cases ht
  · rename_i x hx
    rw [hx]
    obtain ⟨u, hu, ht⟩ := bind_eq_ok.mp ht
    obtain ⟨hm, hsu, hbu, hpu⟩ := pageInIf_backed hs h hsd hi hlt hx hu
    rw [hu]
    dsimp only
    split at ht
    · cases ht
    · rename_i y hy
      obtain ⟨⟨v, o⟩, hv, ht⟩ := bind_eq_ok.mp ht
      obtain ⟨hsv, -, -⟩ := kalloc_spec hsu hv
      obtain ⟨m, rfl, hbv, -, -⟩ := kalloc_backed hsu hbu hv
      dsimp only at ht
      obtain ⟨⟨w, r'⟩, hw, ht⟩ := bind_eq_ok.mp ht
      have hyp : y.p = true := by
        obtain ⟨z, hz, hzp⟩ := hpu
        rw [hy] at hz
        cases hz
        exact hzp
      have hspared := spared_iff hsu hbu hsd hi ⟨y, hy, hyp, rfl⟩ hv
      generalize v.mem y.frame = page at hw hspared
      -- the child's page under the content that the copy brings
      have hbv' : Backed own M (c.setPage pid i page) (m :: held) (v.setMem m page) := by
        refine (hbv.setMem List.mem_cons_self).recontent ?_
        intro pid' va hM k hk
        by_cases hpid : pid' = pid
        · subst hpid
          have hva := (hbv.mapped pid' td va htd hM).1
          exact Content.setPage_other hi hva (fun heq => hnew (heq ▸ hM)) hk
        · exact Content.setPage_of_ne hpid
      have hsv' : Sound own (v.setMem m page) := hsv.congr rfl rfl rfl hsv.count
      have hholds : Holds ((v.setMem m page).mem m) (c.setPage pid i page) pid i := by
        intro k hk
        rw [Content.setPage_self hk]
        change (Function.update v.mem m page m).get k = page.get k
        rw [Function.update_self]
      obtain ⟨hsw, -, rfl, hpw, hqw⟩ := mapPage_spec hsv' hw
      obtain ⟨hbw, -⟩ := mapPage_backed hsv' hbv' htd hi hnew hholds hw
      dsimp only at ht
      obtain ⟨z, hz, ht⟩ := bind_eq_ok.mp ht
      cases ht
      have hnewq : ∀ e ∈ w.pgqueue, e.key ≠ i ||| pid := by
        intro e hmem hkey
        obtain ⟨hva, hown', -⟩ := (hsw.entry e hmem).of_key hsw.toBase hi (hsw.small pid td htd) hkey
        exact hqw e hmem ⟨hbw.func pid _ _ hown' htd, hva⟩
      obtain ⟨hsz, -⟩ := addPageIf_spec hsw htd hpw hi (hlt i hm) (fun _ => hnewq) hz
      obtain ⟨hbz, -⟩ := addPageIf_backed hsw hbw hz
      obtain ⟨hkw, hptew⟩ := mapPage_keeps hw
      have hkz : Keeps (fun d va => d = td ∧ va = i) s t :=
        ((((pageInIf_keeps hu).trans (kalloc_keeps hv)).trans (Keeps.of_dirs rfl)).trans hkw).trans
          (addPageIf_keeps hz)
      refine ⟨rfl, hm, hsz, ⟨page, hbz, hspared⟩, hkz, ?_⟩
      intro x' hx'
      cases hx'
      obtain ⟨y', hy', hyw, hyu⟩ := pageInIf_keeps (S := fun _ _ => False) hu sd i x hx not_false
      rw [hy] at hy'
      cases hy'
      obtain ⟨z', hz', hzw, hzu⟩ :=
        addPageIf_keeps (S := fun _ _ => False) hz td i _ hptew not_false
      exact ⟨z', hz', hzw.trans hyw, hzu.trans hyu⟩

/-! ### The loop -/

/-- No page is evicted while it is copied. -/
def spares (sd ppid td pid : Nat) : List Nat → Core → Bool
  | [], _ => true
  | i :: l, s => sparedIn sd ppid i s &&
    match copyPage sd ppid td pid i s with
    | .ok (t, true) => spares sd ppid td pid l t
    | _ => true

/-- The pages, with those of a list for process `pid`. -/
def plusAll (M : Nat → Nat → Prop) (pid : Nat) (l : List Nat) (pid' va : Nat) : Prop :=
  M pid' va ∨ (pid' = pid ∧ va ∈ l)

theorem plusAll_cons (M : Nat → Nat → Prop) (pid i : Nat) (l : List Nat) :
    plusAll (plus M pid i) pid l = plusAll M pid (i :: l) := by
  funext pid' va
  simp only [plusAll, plus, List.mem_cons, and_or_left, or_assoc]

/-- What the loop leaves in the memory of the child. -/
structure Copies (M : Nat → Nat → Prop) (sd ppid pid : Nat) (l : List Nat) (good : Bool)
    (c c' : Content) : Prop where
  mine : ∀ i ∈ l, M ppid i
  others : ∀ pid', pid' ≠ pid → c' pid' = c pid'
  rest : ∀ i, i ∉ l → PGSIZE ∣ i → ∀ k < PGSIZE, c' pid (i + k) = c pid (i + k)
  same : good = true ↔ ∀ i ∈ l, ∀ k < PGSIZE, c' pid (i + k) = c ppid (i + k)

theorem copyLoop_backed (hsd : own ppid sd) (htd : own pid td) (hne : ppid ≠ pid) (l : List Nat) :
    ∀ {M : Nat → Nat → Prop} {c : Content} {s t : Core} {r : Bool}, Sound own s →
      Backed own M c held s → (∀ va, M ppid va → va < KERNBASE) → (∀ i ∈ l, PGSIZE ∣ i) →
      l.Nodup → (∀ i ∈ l, ¬ M pid i) → copyLoop sd ppid td pid l s = .ok (t, r) →
      r = true ∧ Sound own t ∧
        (∃ c', Backed own (plusAll M pid l) c' held t ∧
          Copies M sd ppid pid l (spares sd ppid td pid l s) c c') ∧
        Keeps (fun d va => d = td ∧ va ∈ l) s t ∧
        ∀ i ∈ l, ∀ x, s.pte sd i = some x → ∃ y, t.pte td i = some y ∧ y.w = x.w ∧ y.u = x.u := by
  induction l with
  | nil =>
    intro M c s t r hs h _ _ _ _ ht
    cases ht
    have hnil : plusAll M pid [] = M := by
      funext pid' va
      simp [plusAll]
    refine ⟨rfl, hs, ⟨c, ?_, ?_⟩, Keeps.of_dirs rfl, fun i hi => absurd hi List.not_mem_nil⟩
    · rw [hnil]
      exact h
    · exact ⟨fun i hi => absurd hi List.not_mem_nil, fun _ _ => rfl, fun _ _ _ _ _ => rfl,
        iff_of_true rfl fun i hi => absurd hi List.not_mem_nil⟩
  | cons i l ih =>
    intro M c s t r hs h hlt hdvd hnd hnew ht
    obtain ⟨hnot, hnd⟩ := List.nodup_cons.mp hnd
    have hi := hdvd i List.mem_cons_self
    rw [copyLoop_cons] at ht
    obtain ⟨⟨u, r'⟩, hu, ht⟩ := bind_eq_ok.mp ht
    obtain ⟨rfl, hm, hsu, ⟨page, hbu, hspared⟩, hku, hptei⟩ :=
      copyPage_backed hs h hsd htd hne hi hlt (hnew i List.mem_cons_self) hu
    have hltu : ∀ va, plus M pid i ppid va → va < KERNBASE := by
      rintro va (hva | ⟨heq, -⟩)
      · exact hlt va hva
      · exact absurd heq hne
    have hnewu : ∀ j ∈ l, ¬ plus M pid i pid j := by
      rintro j hj (hmj | ⟨-, rfl⟩)
      · exact hnew j (List.mem_cons_of_mem _ hj) hmj
      · exact hnot hj
    obtain ⟨hr, hst, ⟨c', hbt, hc⟩, hkt, hptel⟩ := ih hsu hbu hltu
      (fun j hj => hdvd j (List.mem_cons_of_mem _ hj)) hnd hnewu ht
    rw [plusAll_cons] at hbt
    have hsdtd : sd ≠ td := by
      rintro rfl
      exact hne (hs.owner ppid pid sd hsd htd)
    have hhead : ∀ k < PGSIZE, c' pid (i + k) = page.get k := by
      intro k hk
      rw [hc.rest i hnot hi k hk, Content.setPage_self hk]
    have hparent : ∀ a, c.setPage pid i page ppid a = c ppid a := fun a => Content.setPage_of_ne hne
    refine ⟨hr, hst, ⟨c', hbt, ⟨?_, ?_, ?_, ?_⟩⟩, ?_, ?_⟩
    · intro j hj
      rcases List.mem_cons.mp hj with rfl | hj
      · exact hm
      · rcases hc.mine j hj with hmj | ⟨heq, -⟩
        · exact hmj
        · exact absurd heq hne
    · intro pid' hpid
      rw [hc.others pid' hpid]
      funext a
      exact Content.setPage_of_ne hpid
    · intro j hj hdj k hk
      simp only [List.mem_cons, not_or] at hj
      rw [hc.rest j hj.2 hdj k hk]
      exact Content.setPage_other hi hdj hj.1 hk
    · unfold spares
      rw [hu, Bool.and_eq_true]
      dsimp only
      rw [hspared, hc.same]
      constructor
      · rintro ⟨hpage, hrest⟩ j hj k hk
        rcases List.mem_cons.mp hj with rfl | hj
        · rw [hhead k hk]
          exact hpage k hk
        · rw [hrest j hj k hk, hparent]
      · intro hall
        refine ⟨?_, ?_⟩
        · intro k hk
          rw [← hhead k hk]
          exact hall i List.mem_cons_self k hk
        · intro j hj k hk
          rw [hparent]
          exact hall j (List.mem_cons_of_mem _ hj) k hk
    · refine (hku.mono ?_).trans (hkt.mono ?_)
      · rintro d va ⟨rfl, rfl⟩
        exact ⟨rfl, List.mem_cons_self⟩
      · rintro d va ⟨rfl, hva⟩
        exact ⟨rfl, List.mem_cons_of_mem _ hva⟩
    · intro j hj x hx
      rcases List.mem_cons.mp hj with rfl | hj
      · obtain ⟨y, hy, hyw, hyu⟩ := hptei x hx
        obtain ⟨z, hz, hzw, hzu⟩ := hkt td j y hy fun hin => hnot hin.2
        exact ⟨z, hz, hzw.trans hyw, hzu.trans hyu⟩
      · obtain ⟨y, hy, hyw, hyu⟩ := hku sd j x hx fun hin => hsdtd hin.1
        obtain ⟨z, hz, hzw, hzu⟩ := hptel j hj y hy
        exact ⟨z, hz, hzw.trans hyw, hzu.trans hyu⟩

/-! ### The new directory -/

/-- No slot carries a page of process `pid`. -/
def NoSlot (s : Core) (pid : Nat) : Prop :=
  ∀ i < SLOTSIZE, ∀ va, PGSIZE ∣ va → s.swapMap i ≠ va ||| pid

/-- An eviction fills a slot for a process that has pages. -/
theorem kalloc_noSlot {o : Option Nat} (hs : Sound own s) (hno : ∀ d, ¬ own pid d)
    (hsmall : pid ≤ MAX_PID) (h : NoSlot s pid) (ht : kalloc s = .ok (t, o)) : NoSlot t pid := by
  have htake : ∀ {u}, takeFrame u = (t, o) → t.swapMap = u.swapMap := by
    intro u hu
    unfold takeFrame at hu
    split at hu <;> cases hu <;> rfl
  unfold kalloc at ht
  split at ht
  · cases hu : pageOut s with
    | error e => simp [hu, Except.map] at ht
    | ok u =>
      rw [hu] at ht
      obtain ⟨q, e, x, j, hsel, -, -, -, rfl⟩ := pageOut_eq hu
      obtain ⟨hsame, he⟩ := selPage_spec hsel
      obtain ⟨e', he', h1, h2, h3⟩ := mem_of_samePage hsame he
      obtain ⟨pid', hown', hkey, -, halign, -⟩ := hs.entry e' he'
      intro i hi va hva hk
      rw [htake (Except.ok.inj ht)] at hk
      change Function.update s.swapMap j e.key i = va ||| pid at hk
      by_cases hij : i = j
      · rw [hij, Function.update_self, h3, hkey] at hk
        obtain ⟨-, rfl⟩ := key_inj halign hva (hs.small pid' _ hown') hsmall hk
        exact hno _ hown'
      · rw [Function.update_of_ne hij] at hk
        exact h i hi va hva hk
  · intro i hi va hva hk
    rw [htake (Except.ok.inj ht)] at hk
    exact h i hi va hva hk

theorem kernelTables_joins {d : Nat} (l : List Nat) :
    ∀ {s t : Core} {r : Bool}, Sound own s → Backed own M c held s →
      kernelTables d l s = .ok (t, r) →
      r = true ∧ Sound own t ∧ Backed own M c held t ∧ Keeps S s t := by
  induction l with
  | nil =>
    intro s t r hs h ht
    cases ht
    exact ⟨rfl, hs, h, Keeps.of_dirs rfl⟩
  | cons i l ih =>
    intro s t r hs h ht
    unfold kernelTables at ht
    obtain ⟨⟨u, r'⟩, hu, ht⟩ := bind_eq_ok.mp ht
    obtain ⟨hsu, -, rfl⟩ := walkpgdir_spec hs hu
    obtain ⟨hbu, -, -⟩ := walkpgdir_backed hs h hu
    obtain ⟨hr, hst, hbt, hkt⟩ := ih hsu hbu ht
    exact ⟨hr, hst, hbt, (walkpgdir_keeps hu).trans hkt⟩

/-- A new process gets an empty directory. -/
theorem setupkvm_joins {o : Option Nat} (hs : Sound own s) (h : Backed own M c held s)
    (hpos : pid ≠ 0) (hsmall : pid ≤ MAX_PID) (hno : ∀ d, ¬ own pid d) (hM : ∀ va, ¬ M pid va)
    (hslot : NoSlot s pid) (ht : setupkvm s = .ok (t, o)) :
    o = some s.nextDir ∧ Sound (adopt own pid s.nextDir) t ∧
      Backed (adopt own pid s.nextDir) M c held t ∧ Keeps (fun d _ => d = s.nextDir) s t := by
  unfold setupkvm at ht
  obtain ⟨⟨u, g⟩, hu, ht⟩ := bind_eq_ok.mp ht
  obtain ⟨hsu, heu, -⟩ := kalloc_spec hs hu
  obtain ⟨f, rfl, hbu, -, -⟩ := kalloc_backed hs h hu
  have hslotu := kalloc_noSlot hs hno hsmall hslot hu
  obtain ⟨⟨v, r⟩, hv, ht⟩ := bind_eq_ok.mp ht
  have hsm : Sound own (u.setMem f Bytes.zero) := hsu.congr rfl rfl rfl hsu.count
  have hbm : Backed own M c held (u.setMem f Bytes.zero) :=
    Backed.drop (l := [f]) (hbu.setMem List.mem_cons_self)
  have hfresh : ∀ pid' d', own pid' d' → d' ≠ (u.setMem f Bytes.zero).nextDir := by
    rintro pid' d' hown rfl
    exact hsm.live pid' _ hown (hsm.fresh _ (Nat.le_refl _))
  obtain ⟨rfl, hsv, hbv, hkv⟩ := kernelTables_joins (S := fun d _ => d = s.nextDir) kernelPdx
    (hsm.newDir hsmall f) (hbm.adopt hpos hno hfresh hM hslotu) hv
  cases ht
  have hnext : (u.setMem f Bytes.zero).nextDir = s.nextDir := heu.nextDir
  rw [hnext] at hsv hbv
  refine ⟨congrArg some hnext, hsv, hbv, ?_⟩
  have hnew : Keeps (fun d _ => d = s.nextDir) u ((u.setMem f Bytes.zero).newDir f) := by
    intro d va x hx hn
    refine ⟨x, ?_, rfl, rfl⟩
    rw [← hx]
    unfold Core.pte Core.newDir
    simp only [Core.setMem]
    rw [Function.update_of_ne (heu.nextDir ▸ hn)]
  exact ((kalloc_keeps hu).trans hnew).trans hkv

/-! ### `copyuvm` -/

/-- The child has the parent's pages below `sz`, in frames of its own, and the parent has
    what it had. -/
structure Copied (s t : Core) (sd ppid td pid sz : Nat) : Prop where
  bytes : ∀ va < sz, PGSIZE ∣ va → ∃ x, pageAt s sd ppid va = some x ∧ pageAt t td pid va = some x
  perms : ∀ va < sz, PGSIZE ∣ va →
    ∃ x y, s.pte sd va = some x ∧ t.pte td va = some y ∧ y.w = x.w ∧ y.u = x.u
  apart : ∀ va va' f, PGSIZE ∣ va → PGSIZE ∣ va' → Maps t td va f → ¬ Maps t sd va' f
  parent : ∀ va x, PGSIZE ∣ va → pageAt s sd ppid va = some x → pageAt t sd ppid va = some x

/-- No page is evicted in `copyuvm` while it is copied. -/
def sparesAll (s : Core) (sd sz ppid pid : Nat) : Bool :=
  match setupkvm s with
  | .ok (u, some td) => spares sd ppid td pid (pages 0 sz) u
  | _ => true

theorem mem_pages_zero {sz va : Nat} (hlt : va < sz) (hva : PGSIZE ∣ va) : va ∈ pages 0 sz :=
  mem_pages_iff.mpr ⟨hva, Nat.zero_le _, hlt⟩

end Yonix.Vm
