/-
  Yonix/Umalloc/Heap.lean
  =======================
  **The free list over every history of calls.**

  The free blocks, headed by `base`, are linked in a ring in the order of their
  addresses, with a gap after each; together with the blocks that the program has they
  tile the memory obtained.  `free` puts a block after the last header below it and
  joins it with its neighbours, and finds the place before it has gone around.
-/
import Yonix.Umalloc.Model
import Yonix.Lib.Run

namespace Yonix.Umalloc

/-! ### Blocks that tile memory -/

def Blk.Covers (b : Blk) (x : Nat) : Prop := b.addr ≤ x ∧ x < b.fin

def Blk.Apart (b c : Blk) : Prop := b.fin ≤ c.addr ∨ c.fin ≤ b.addr

theorem Blk.Apart.symm {b c : Blk} (h : b.Apart c) : c.Apart b := Or.symm h

/-- The blocks are disjoint and make up the memory obtained. -/
structure Tiles (l got : List Blk) : Prop where
  pos : ∀ b ∈ l, 1 ≤ b.size
  apart : l.Pairwise Blk.Apart
  tile : ∀ x, (∃ b ∈ l, b.Covers x) ↔ ∃ g ∈ got, g.Covers x

/-- Two blocks where the second starts at the end of the first. -/
def Blk.join (b c : Blk) : Blk := ⟨b.addr, b.size + c.size⟩

theorem Blk.join_fin {b c : Blk} (h : b.fin = c.addr) : (b.join c).fin = c.fin := by
  unfold fin join HEADERSIZE at *
  dsimp only
  omega

theorem Blk.join_covers {b c : Blk} (h : b.fin = c.addr) (x : Nat) :
    (b.join c).Covers x ↔ b.Covers x ∨ c.Covers x := by
  unfold Covers
  rw [join_fin h]
  unfold join
  unfold fin at *
  dsimp only
  omega

theorem Blk.join_apart {b c d : Blk} (h : b.fin = c.addr) (hd : 1 ≤ d.size) (hb : d.Apart b)
    (hc : d.Apart c) : d.Apart (b.join c) := by
  unfold Apart at *
  rw [join_fin h]
  unfold join
  unfold fin HEADERSIZE at *
  dsimp only
  omega

namespace Tiles

variable {l l' got : List Blk} {b c : Blk}

theorem perm (h : Tiles l got) (hp : l.Perm l') : Tiles l' got := by
  refine ⟨fun b hb => h.pos b (hp.mem_iff.mpr hb), ?_, ?_⟩
  · exact (hp.pairwise_iff fun hbc => hbc.symm).mp h.apart
  · intro x
    rw [← h.tile x]
    exact exists_congr fun b => and_congr_left' hp.mem_iff.symm

theorem merge (h : Tiles (b :: c :: l) got) (hbc : b.fin = c.addr) : Tiles (b.join c :: l) got := by
  obtain ⟨hb, hrest⟩ := List.pairwise_cons.mp h.apart
  obtain ⟨hc, hl⟩ := List.pairwise_cons.mp hrest
  refine ⟨?_, List.pairwise_cons.mpr ⟨?_, hl⟩, ?_⟩
  · intro d hd
    rcases List.mem_cons.mp hd with rfl | hd
    · have := h.pos b List.mem_cons_self
      change 1 ≤ b.size + c.size
      omega
    · exact h.pos d (by simp [hd])
  · intro d hd
    have hpos := h.pos d (by simp [hd])
    exact (Blk.join_apart hbc hpos (hb d (by simp [hd])).symm (hc d hd).symm).symm
  · intro x
    rw [← h.tile x]
    simp only [List.exists_mem_cons_iff, Blk.join_covers hbc, or_assoc]

theorem split {a m n : Nat} (h : Tiles (⟨a, m + n⟩ :: l) got) (hm : 1 ≤ m) (hn : 1 ≤ n) :
    Tiles (⟨a, m⟩ :: ⟨a + HEADERSIZE * m, n⟩ :: l) got := by
  obtain ⟨hb, hl⟩ := List.pairwise_cons.mp h.apart
  refine ⟨?_, List.pairwise_cons.mpr ⟨?_, List.pairwise_cons.mpr ⟨?_, hl⟩⟩, ?_⟩
  · intro d hd
    rcases List.mem_cons.mp hd with rfl | hd
    · exact hm
    · rcases List.mem_cons.mp hd with rfl | hd
      · exact hn
      · exact h.pos d (List.mem_cons_of_mem _ hd)
  · intro d hd
    rcases List.mem_cons.mp hd with rfl | hd
    · exact Or.inl (Nat.le_refl _)
    · have := hb d hd
      unfold Blk.Apart Blk.fin HEADERSIZE at *
      dsimp only at *
      omega
  · intro d hd
    have := hb d hd
    unfold Blk.Apart Blk.fin HEADERSIZE at *
    dsimp only at *
    omega
  · intro x
    rw [← h.tile x]
    simp only [List.exists_mem_cons_iff, ← or_assoc]
    refine or_congr_left ?_
    unfold Blk.Covers Blk.fin HEADERSIZE
    dsimp only
    omega

/-- New memory above the old. -/
theorem add (h : Tiles l got) (hb : 1 ≤ b.size) (hnew : ∀ g ∈ got, g.fin ≤ b.addr) :
    Tiles (b :: l) (b :: got) := by
  refine ⟨?_, List.pairwise_cons.mpr ⟨?_, h.apart⟩, ?_⟩
  · intro d hd
    rcases List.mem_cons.mp hd with rfl | hd
    · exact hb
    · exact h.pos d hd
  · intro d hd
    -- the last byte of the block is below the new memory
    have hpos := h.pos d hd
    have hcov : d.Covers (d.fin - 1) := by
      unfold Blk.Covers Blk.fin HEADERSIZE
      omega
    obtain ⟨g, hg, hgcov⟩ := (h.tile _).mp ⟨d, hd, hcov⟩
    have hge := hnew g hg
    refine Or.inr ?_
    unfold Blk.Covers at hgcov hcov
    omega
  · intro x
    simp only [List.exists_mem_cons_iff, h.tile x]

/-- A block lies in one of the parts obtained. -/
theorem inside {base : Nat} (h : Tiles l got)
    (hlow : ∀ g ∈ got, base + HEADERSIZE ≤ g.addr ∧ g.fin ≤ 2 ^ 32) {b : Blk} (hb : b ∈ l) :
    base + HEADERSIZE ≤ b.addr ∧ b.fin ≤ 2 ^ 32 := by
  have hpos := h.pos b hb
  have hfirst : b.Covers b.addr := by
    unfold Blk.Covers Blk.fin HEADERSIZE
    omega
  have hlast : b.Covers (b.fin - 1) := by
    unfold Blk.Covers Blk.fin HEADERSIZE
    omega
  obtain ⟨g, hg, hgcov⟩ := (h.tile _).mp ⟨b, hb, hfirst⟩
  obtain ⟨g', hg', hgcov'⟩ := (h.tile _).mp ⟨b, hb, hlast⟩
  have := (hlow g hg).1
  have := (hlow g' hg').2
  unfold Blk.Covers at hgcov hgcov' hlast
  omega

theorem addr_inj (h : Tiles l got) : (l.map Blk.addr).Nodup := by
  rw [List.Nodup, List.pairwise_map]
  refine h.apart.imp_of_mem ?_
  intro b c hb hc hbc heq
  have := h.pos b hb
  have := h.pos c hc
  unfold Blk.Apart Blk.fin HEADERSIZE at hbc
  omega

/-- There are no more blocks than bytes. -/
theorem length_le (h : Tiles l got) : l.length ≤ HEADERSIZE * (got.map Blk.size).sum := by
  have hsub : l.map Blk.addr ⊆ got.flatMap fun g => List.range' g.addr (HEADERSIZE * g.size) := by
    intro x hx
    obtain ⟨b, hb, rfl⟩ := List.mem_map.mp hx
    have hpos := h.pos b hb
    have hcov : b.Covers b.addr := by
      unfold Blk.Covers Blk.fin HEADERSIZE
      omega
    obtain ⟨g, hg, hgcov⟩ := (h.tile _).mp ⟨b, hb, hcov⟩
    exact List.mem_flatMap.mpr ⟨g, hg, List.mem_range'_1.mpr hgcov⟩
  have hle := (List.subperm_of_subset h.addr_inj hsub).length_le
  rw [List.length_map, List.length_flatMap] at hle
  simp only [List.length_range'] at hle
  rwa [List.sum_map_mul_left] at hle

end Tiles

/-! ### The heap -/

/-- The links as the blocks see them. -/
def Heap.next (h : Heap) (b : Blk) : Nat := (h.mem b.addr).ptr

/-- The free list, headed by the static header. -/
def nodes (base : Nat) (free : List Blk) : List Blk := ⟨base, 0⟩ :: free

/-- The free blocks `free` are linked in order, and tile the memory with the blocks
    `used`. -/
structure Good (base : Nat) (h : Heap) (free used : List Blk) : Prop where
  ring : Links h.next Blk.addr (nodes base free) base
  freep : ∃ b ∈ nodes base free, h.freep = b.addr
  size : ∀ b ∈ nodes base free ++ used, (h.mem b.addr).size = b.size
  gaps : (nodes base free).Pairwise fun b c => b.fin < c.addr
  tiles : Tiles (free ++ used) h.got
  low : ∀ g ∈ h.got, base + HEADERSIZE ≤ g.addr ∧ g.fin ≤ 2 ^ 32

variable {base : Nat} {h : Heap} {free used : List Blk}

theorem Good.sorted (hg : Good base h free used) :
    (nodes base free).Pairwise fun b c => b.addr < c.addr := by
  refine hg.gaps.imp ?_
  intro b c hbc
  unfold Blk.fin at hbc
  omega

theorem Good.length_lt (hg : Good base h free used) : (nodes base free).length < h.turns := by
  have hle := hg.tiles.length_le
  unfold nodes Heap.turns
  rw [List.length_cons]
  rw [List.length_append] at hle
  omega

/-- A header below `x` ends the headers below it. -/
theorem split_below {x : Nat} : ∀ {l : List Blk}, l.Pairwise (fun b c => b.addr < c.addr) →
    (∀ b ∈ l, b.addr ≠ x) → ∀ {p : Blk}, p.addr < x → (∀ b ∈ l, p.addr < b.addr) →
    ∃ ns q ys, p :: l = ns ++ q :: ys ∧ (∀ b ∈ ns, b.addr < q.addr) ∧ q.addr < x ∧
      ∀ b ∈ ys, x < b.addr := by
  intro l
  induction l with
  | nil =>
    intro _ _ p hp _
    exact ⟨[], p, [], rfl, by simp, hp, by simp⟩
  | cons a l ih =>
    intro hsorted hne p hp hpl
    obtain ⟨ha, hl⟩ := List.pairwise_cons.mp hsorted
    have hax := hne a List.mem_cons_self
    by_cases hlt : a.addr < x
    · obtain ⟨ns, q, ys, heq, hns, hq, hys⟩ := ih hl (fun b hb => hne b (by simp [hb])) hlt ha
      refine ⟨p :: ns, q, ys, by rw [heq]; rfl, ?_, hq, hys⟩
      intro b hb
      rcases List.mem_cons.mp hb with rfl | hb
      · refine hpl q ?_
        rw [heq]
        simp
      · exact hns b hb
    · refine ⟨[], p, a :: l, rfl, by simp, hp, ?_⟩
      intro b hb
      rcases List.mem_cons.mp hb with rfl | hb
      · omega
      · have := ha b hb
        omega

/-! ### The place for a block -/

/-- Below the block `free` goes on upwards. -/
theorem place_up {bp e : Nat} (he : e < bp) (l : List Blk) : ∀ {n : Nat},
    Links h.next Blk.addr l e → l.Pairwise (fun b c => b.addr < c.addr) → (∀ b ∈ l, b.addr < e) →
    place h.mem bp (n + l.length) (first Blk.addr l e) = place h.mem bp n e := by
  induction l with
  | nil =>
    intro n _ _ _
    rfl
  | cons a l ih =>
    intro n hlinks hsorted hlt
    obtain ⟨hnext, hlinks⟩ := hlinks
    obtain ⟨ha, hl⟩ := List.pairwise_cons.mp hsorted
    have hnext' : (h.mem a.addr).ptr = first Blk.addr l e := hnext
    have hbounds : a.addr < first Blk.addr l e ∧ first Blk.addr l e < bp := by
      cases l with
      | nil => exact ⟨hlt a List.mem_cons_self, he⟩
      | cons b l =>
        have := hlt b (by simp)
        exact ⟨ha b List.mem_cons_self, this.trans he⟩
    change place h.mem bp (n + (l.length + 1)) a.addr = _
    rw [← Nat.add_assoc, place, hnext', if_neg (by omega), if_neg (by omega)]
    exact ih hlinks hl fun b hb => hlt b (List.mem_cons_of_mem a hb)

/-- Above the block it goes on to the static header. -/
theorem place_around {bp : Nat} (hbase : base < bp) (l : List Blk) : ∀ {n : Nat},
    Links h.next Blk.addr l base → l.Pairwise (fun b c => b.addr < c.addr) → (∀ b ∈ l, bp < b.addr) →
    place h.mem bp (n + l.length) (first Blk.addr l base) = place h.mem bp n base := by
  induction l with
  | nil =>
    intro n _ _ _
    rfl
  | cons a l ih =>
    intro n hlinks hsorted hlt
    obtain ⟨hnext, hlinks⟩ := hlinks
    obtain ⟨ha, hl⟩ := List.pairwise_cons.mp hsorted
    have hnext' : (h.mem a.addr).ptr = first Blk.addr l base := hnext
    have habove := hlt a List.mem_cons_self
    have hbounds : first Blk.addr l base = base ∨ a.addr < first Blk.addr l base := by
      cases l with
      | nil => exact Or.inl rfl
      | cons b l => exact Or.inr (ha b List.mem_cons_self)
    change place h.mem bp (n + (l.length + 1)) a.addr = _
    rw [← Nat.add_assoc, place, hnext', if_neg (by omega), if_neg (by omega)]
    exact ih hlinks hl fun b hb => hlt b (List.mem_cons_of_mem a hb)

/-- The loop of `free` stops at the last header below the block. -/
theorem Good.place (hg : Good base h free used) {bp : Nat} {ns ys : List Blk} {p : Blk}
    (hnodes : nodes base free = ns ++ p :: ys) (hp : p.addr < bp) (hys : ∀ b ∈ ys, bp < b.addr) :
    place h.mem bp h.turns h.freep = some p.addr := by
  have hring := hg.ring
  have hsorted := hg.sorted
  have hlen := hg.length_lt
  have hfirst : first Blk.addr ns p.addr = base := by
    have : first Blk.addr (nodes base free) base = base := rfl
    rw [hnodes, first_append] at this
    exact this
  rw [hnodes] at hring hsorted hlen
  rw [List.length_append, List.length_cons] at hlen
  obtain ⟨hlinks, hnext, hlinks'⟩ := links_append.mp hring
  obtain ⟨hns, hpys, hcross⟩ := List.pairwise_append.mp hsorted
  obtain ⟨hpy, hsys⟩ := List.pairwise_cons.mp hpys
  have hnsp : ∀ b ∈ ns, b.addr < p.addr := fun b hb => hcross b hb p List.mem_cons_self
  have hbase : base < bp := by
    cases ns with
    | nil =>
      have : p.addr = base := hfirst
      omega
    | cons a ns =>
      have : a.addr = base := hfirst
      have := hnsp a List.mem_cons_self
      omega
  have hstop : ∀ n, Umalloc.place h.mem bp (n + 1) p.addr = some p.addr := by
    intro n
    have hnext' : (h.mem p.addr).ptr = first Blk.addr ys base := hnext
    rw [Umalloc.place, hnext']
    cases ys with
    | nil =>
      rw [show first Blk.addr ([] : List Blk) base = base from rfl]
      have hbp : base ≤ p.addr := by
        cases ns with
        | nil => exact le_of_eq hfirst.symm
        | cons a ns =>
          have : a.addr = base := hfirst
          have := hnsp a List.mem_cons_self
          omega
      rw [if_neg (by omega), if_pos ⟨hbp, Or.inl hp⟩]
    | cons y ys => exact if_pos ⟨hp, hys y List.mem_cons_self⟩
  have hup : ∀ n, Umalloc.place h.mem bp (n + 1 + ns.length) base = some p.addr := by
    intro n
    rw [← hfirst, place_up hp ns hlinks hns hnsp]
    exact hstop n
  obtain ⟨f, hf, hfreep⟩ := hg.freep
  rw [hfreep]
  rw [hnodes] at hf
  rcases List.mem_append.mp hf with hf | hf
  · -- from a header below the place
    obtain ⟨as, bs, rfl⟩ := List.append_of_mem hf
    obtain ⟨-, hseg⟩ := links_append.mp hlinks
    obtain ⟨-, hsegsorted, -⟩ := List.pairwise_append.mp hns
    rw [List.length_append] at hlen
    obtain ⟨n, hn⟩ : ∃ n, h.turns = n + 1 + (f :: bs).length := ⟨h.turns - 1 - (f :: bs).length, by omega⟩
    rw [hn]
    rw [show f.addr = first Blk.addr (f :: bs) p.addr from rfl, place_up hp (f :: bs) hseg hsegsorted
      fun b hb => hnsp b (List.mem_append_right as hb)]
    exact hstop n
  · rcases List.mem_cons.mp hf with rfl | hf
    · obtain ⟨n, hn⟩ : ∃ n, h.turns = n + 1 := ⟨h.turns - 1, by omega⟩
      rw [hn]
      exact hstop n
    · -- from a header above it, around by the static header
      obtain ⟨as, bs, rfl⟩ := List.append_of_mem hf
      obtain ⟨-, hseg⟩ := links_append.mp hlinks'
      obtain ⟨-, hsegsorted, -⟩ := List.pairwise_append.mp hsys
      rw [List.length_append] at hlen
      obtain ⟨n, hn⟩ : ∃ n, h.turns = n + 1 + ns.length + (f :: bs).length :=
        ⟨h.turns - 1 - ns.length - (f :: bs).length, by omega⟩
      rw [hn, show f.addr = first Blk.addr (f :: bs) base from rfl,
        place_around hbase (f :: bs) hseg hsegsorted fun b hb => hys b (List.mem_append_right as hb)]
      exact hup n

/-! ### `free` -/

/-- Blocks that tile memory, among headers without any. -/
def Tiled (l got : List Blk) : Prop := Tiles (l.filter fun b => 0 < b.size) got

theorem Tiled.perm {l l' got : List Blk} (h : Tiled l got) (hp : l.Perm l') : Tiled l' got :=
  Tiles.perm h (hp.filter _)

theorem Tiled.merge {l got : List Blk} {b c : Blk} (h : Tiled (b :: c :: l) got)
    (hb : 1 ≤ b.size) (hc : 1 ≤ c.size) (hbc : b.fin = c.addr) : Tiled (b.join c :: l) got := by
  have hjoin : 0 < (b.join c).size := by
    change 0 < b.size + c.size
    omega
  have hb' : decide (0 < b.size) = true := decide_eq_true hb
  have hc' : decide (0 < c.size) = true := decide_eq_true hc
  have hj' : decide (0 < (b.join c).size) = true := decide_eq_true hjoin
  unfold Tiled at *
  rw [List.filter_cons, if_pos hb', List.filter_cons, if_pos hc'] at h
  rw [List.filter_cons, if_pos hj']
  exact h.merge hbc

theorem tiled_nodes (hpos : ∀ b ∈ free ++ used, 1 ≤ b.size) (got : List Blk) :
    Tiled (nodes base free ++ used) got ↔ Tiles (free ++ used) got := by
  have hfilter : (nodes base free ++ used).filter (fun b => 0 < b.size) = free ++ used := by
    unfold nodes
    rw [List.cons_append, List.filter_cons_of_neg (by simp), List.filter_eq_self]
    intro b hb
    exact decide_eq_true (hpos b hb)
  unfold Tiled
  rw [hfilter]

/-- The block `b` goes between the headers `ns`, `p` and the blocks `ys`. -/
structure Place (base : Nat) (h : Heap) (b : Blk) (ns : List Blk) (p : Blk) (ys used : List Blk) :
    Prop where
  links : Links h.next Blk.addr ns p.addr
  links' : Links h.next Blk.addr ys base
  size : ∀ c ∈ ns ++ p :: (ys ++ used), (h.mem c.addr).size = c.size
  sizeb : (h.mem b.addr).size = b.size
  gaps : (ns ++ p :: ys).Pairwise fun c d => c.fin < d.addr
  tiled : Tiled (b :: (ns ++ p :: (ys ++ used))) h.got
  pos : ∀ c ∈ ns ++ p :: (ys ++ used), c ≠ ⟨base, 0⟩ → 1 ≤ c.size
  posb : 1 ≤ b.size
  low : base < b.addr
  high : b.fin ≤ 2 ^ 32
  ends : ∀ c ∈ ns ++ p :: (ys ++ used), c.fin ≤ 2 ^ 32
  below : ∀ c ∈ ns ++ [p], c.fin ≤ b.addr
  above : ∀ c ∈ ys, b.fin ≤ c.addr
  other : ∀ c ∈ ns ++ p :: (ys ++ used), c.addr ≠ b.addr
  otherp : ∀ c ∈ ns ++ (ys ++ used), c.addr ≠ p.addr

theorem Place.mem_suffix {ns ys zs : List Blk} {p c : Blk} (hzs : zs <:+ ys)
    (hc : c ∈ ns ++ p :: (zs ++ used)) : c ∈ ns ++ p :: (ys ++ used) := by
  rcases List.mem_append.mp hc with hc | hc
  · exact List.mem_append_left _ hc
  · refine List.mem_append_right _ ?_
    rcases List.mem_cons.mp hc with rfl | hc
    · exact List.mem_cons_self
    · refine List.mem_cons_of_mem _ ?_
      rcases List.mem_append.mp hc with hc | hc
      · exact List.mem_append_left _ (hzs.subset hc)
      · exact List.mem_append_right _ hc

/-- The header of the block is written, for the blocks `zs` above it. -/
theorem Place.set {b b1 p : Blk} {ns ys zs : List Blk} (hb : Place base h b ns p ys used) {x : Header}
    (haddr : b1.addr = b.addr) (hx : x.size = b1.size) (hzs : zs <:+ ys)
    (htiled : Tiled (b1 :: (ns ++ p :: (zs ++ used))) h.got) (hpos : 1 ≤ b1.size)
    (hhigh : b1.fin ≤ 2 ^ 32) (habove : ∀ c ∈ zs, b1.fin ≤ c.addr) :
    Place base (h.set b.addr x) b1 ns p zs used := by
  have hmem : ∀ {c : Blk}, c ∈ ns ++ p :: (ys ++ used) → (h.set b.addr x).mem c.addr = h.mem c.addr :=
    fun hc => Function.update_of_ne (hb.other _ hc) _ _
  have hself : (h.set b.addr x).mem b.addr = x := Function.update_self _ _ _
  have hsub : ∀ {c : Blk}, c ∈ ns ++ p :: (zs ++ used) → c ∈ ns ++ p :: (ys ++ used) :=
    fun hc => Place.mem_suffix hzs hc
  obtain ⟨ws, rfl⟩ := hzs
  refine ⟨?_, ?_, ?_, ?_, ?_, htiled, fun c hc => hb.pos c (hsub hc), hpos, ?_, hhigh,
    fun c hc => hb.ends c (hsub hc), ?_, habove, ?_, ?_⟩
  · refine hb.links.congr fun c hc => ?_
    change ((h.set b.addr x).mem c.addr).ptr = _
    rw [hmem (List.mem_append_left _ hc)]
    rfl
  · refine (links_append.mp hb.links').2.congr fun c hc => ?_
    change ((h.set b.addr x).mem c.addr).ptr = _
    rw [hmem (hsub (by simp [hc]))]
    rfl
  · intro c hc
    rw [hmem (hsub hc)]
    exact hb.size c (hsub hc)
  · rw [haddr, hself, hx]
  · refine hb.gaps.sublist ?_
    exact (List.sublist_append_right ws zs).cons_cons p |>.append_left ns
  · rw [haddr]
    exact hb.low
  · rw [haddr]
    exact hb.below
  · intro c hc
    rw [haddr]
    exact hb.other c (hsub hc)
  · intro c hc
    refine hb.otherp c ?_
    rcases List.mem_append.mp hc with hc | hc
    · exact List.mem_append_left _ hc
    · rw [List.append_assoc]
      exact List.mem_append_right _ (List.mem_append_right ws hc)

/-- The block above is one of the list. -/
theorem Place.pos_above {b p y : Blk} {ns ys : List Blk} (hb : Place base h b ns p ys used) (hy : y ∈ ys) :
    1 ≤ y.size ∧ y.addr < 2 ^ 32 := by
  have hin : y ∈ ns ++ p :: (ys ++ used) := by simp [hy]
  have habove := hb.above y hy
  have hlow := hb.low
  have hpos : 1 ≤ y.size := by
    refine hb.pos y hin ?_
    rintro rfl
    unfold Blk.fin at habove
    dsimp only at habove
    omega
  have hends := hb.ends y hin
  unfold Blk.fin HEADERSIZE at hends
  omega

/-- The block is joined with its upper neighbour. -/
theorem Place.joinUp {b p : Blk} {ns ys : List Blk} (h0 : base ≠ 0) (hb : Place base h b ns p ys used)
    (hnext : (h.mem p.addr).ptr = first Blk.addr ys base) :
    ∃ b1 zs, b1.addr = b.addr ∧ b.size ≤ b1.size ∧ Place base (h.joinUp p.addr b.addr) b1 ns p zs used ∧
      (∀ c ∈ zs, b1.fin < c.addr) ∧
      ((h.joinUp p.addr b.addr).mem b.addr).ptr = first Blk.addr zs base := by
  have hself : ∀ x : Header, (h.set b.addr x).mem b.addr = x := fun x => Function.update_self _ _ _
  have hhigh := hb.high
  have hlow := hb.low
  have hfin : b.addr < b.fin := by
    have := hb.posb
    unfold Blk.fin HEADERSIZE
    omega
  obtain ⟨-, hpys, -⟩ := List.pairwise_append.mp hb.gaps
  obtain ⟨-, hys⟩ := List.pairwise_cons.mp hpys
  unfold Heap.joinUp
  dsimp only
  rw [hb.sizeb, hnext]
  split
  · rename_i hup
    have hmod : b.fin % 2 ^ 32 = first Blk.addr ys base := hup
    cases ys with
    | nil =>
      have hmod' : b.fin % 2 ^ 32 = base := hmod
      omega
    | cons y ys =>
      have hmod' : b.fin % 2 ^ 32 = y.addr := hmod
      have habove := hb.above y List.mem_cons_self
      have hadj : b.fin = y.addr := by omega
      have hy : y ∈ ns ++ p :: (y :: ys ++ used) := by simp
      obtain ⟨hposy, -⟩ := hb.pos_above List.mem_cons_self
      have hperm : (ns ++ p :: (y :: ys ++ used)).Perm (y :: (ns ++ p :: (ys ++ used))) := by
        have hmid : ((ns ++ [p]) ++ y :: (ys ++ used)).Perm (y :: ((ns ++ [p]) ++ (ys ++ used))) :=
          List.perm_middle
        simpa using hmid
      have htiled := (hb.tiled.perm (hperm.cons b)).merge hb.posb hposy hadj
      have hyfin := hb.ends y hy
      have hsum : b.size + y.size < 2 ^ 32 := by
        unfold Blk.fin HEADERSIZE at hadj hyfin
        omega
      have hsize : (h.mem y.addr).size = y.size := hb.size y hy
      obtain ⟨hyys, -⟩ := List.pairwise_cons.mp hys
      have hgap : ∀ c ∈ ys, (b.join y).fin < c.addr := by
        intro c hc
        rw [Blk.join_fin hadj]
        exact hyys c hc
      refine ⟨b.join y, ys, rfl, Nat.le_add_right _ _, ?_, hgap, ?_⟩
      · refine hb.set rfl ?_ (List.suffix_cons y ys) htiled ?_ ?_ fun c hc => (hgap c hc).le
        · change (b.size + (h.mem y.addr).size) % 2 ^ 32 = b.size + y.size
          rw [hsize, Nat.mod_eq_of_lt hsum]
        · change 1 ≤ b.size + y.size
          omega
        · rw [Blk.join_fin hadj]
          exact hyfin
      · rw [hself]
        exact hb.links'.1
  · rename_i hup
    refine ⟨b, ys, rfl, Nat.le_refl _, ?_, ?_, ?_⟩
    · exact hb.set rfl rfl List.suffix_rfl hb.tiled hb.posb hhigh hb.above
    · -- the block above starts later, and so do those above it
      intro c hc
      have hle := hb.above c hc
      cases ys with
      | nil => cases hc
      | cons y ys =>
        have hley := hb.above y List.mem_cons_self
        obtain ⟨-, hylt⟩ := hb.pos_above List.mem_cons_self
        have hne : ¬ b.fin % 2 ^ 32 = y.addr := hup
        rcases List.mem_cons.mp hc with rfl | hc
        · omega
        · have hgap := (List.pairwise_cons.mp hys).1 c hc
          unfold Blk.fin at hgap hley ⊢
          omega
    · rw [hself]

/-- What comes before a block of the list starts with the static header. -/
theorem nodes_before {l ns ys : List Blk} {p : Blk} (hnodes : ns ++ p :: ys = nodes base l) :
    (ns = [] ∧ p = ⟨base, 0⟩) ∨ ∃ ns', ns = ⟨base, 0⟩ :: ns' := by
  cases ns with
  | nil => exact Or.inl ⟨rfl, (List.cons.inj hnodes).1⟩
  | cons a ns => exact Or.inr ⟨ns, by rw [(List.cons.inj hnodes).1]⟩

/-- The parts of a list in order are the parts of the heap. -/
theorem Good.of_nodes {ms : List Blk} (hms : ms = nodes base free)
    (hring : Links h.next Blk.addr ms base) (hfreep : ∃ b ∈ ms, h.freep = b.addr)
    (hsize : ∀ b ∈ ms ++ used, (h.mem b.addr).size = b.size)
    (hgaps : ms.Pairwise fun b c => b.fin < c.addr) (htiled : Tiled (ms ++ used) h.got)
    (hpos : ∀ b ∈ ms ++ used, b ≠ ⟨base, 0⟩ → 1 ≤ b.size)
    (hused : ∀ b ∈ used, b.addr ≠ base)
    (hlow : ∀ g ∈ h.got, base + HEADERSIZE ≤ g.addr ∧ g.fin ≤ 2 ^ 32) : Good base h free used := by
  subst hms
  refine ⟨hring, hfreep, hsize, hgaps, ?_, hlow⟩
  refine (tiled_nodes ?_ _).mp htiled
  intro b hb
  refine hpos b (List.mem_cons_of_mem _ hb) ?_
  rintro rfl
  rcases List.mem_append.mp hb with hb | hb
  · have := (List.pairwise_cons.mp hgaps).1 _ hb
    unfold Blk.fin at this
    dsimp only at this
    omega
  · exact hused _ hb rfl

/-- The header below the place is written, with a block `q` there in the list and the
    blocks `zs` above it. -/
theorem Place.write {b p q : Blk} {ns ys zs : List Blk} (hb : Place base h b ns p ys used) {x : Header}
    (hnodes : ∃ l, ns ++ q :: zs = nodes base l)
    (hlow : ∀ g ∈ h.got, base + HEADERSIZE ≤ g.addr ∧ g.fin ≤ 2 ^ 32)
    (hused : ∀ c ∈ used, c.addr ≠ base)
    (haddr : q.addr = p.addr) (hsize : x.size = q.size) (hptr : x.ptr = first Blk.addr zs base)
    (hzs : ∀ c ∈ zs, c = b ∨ c ∈ ys) (hlinks : Links h.next Blk.addr zs base)
    (hgaps : (q :: zs).Pairwise fun c d => c.fin < d.addr)
    (htiled : Tiled (ns ++ q :: (zs ++ used)) h.got) (hpos : q ≠ ⟨base, 0⟩ → 1 ≤ q.size) :
    ∃ free', ns ++ q :: zs = nodes base free' ∧
      Good base { h.set p.addr x with freep := p.addr } free' used := by
  obtain ⟨l, hl⟩ := hnodes
  have hself : (h.set p.addr x).mem p.addr = x := Function.update_self _ _ _
  have hother : ∀ c ∈ ns ++ (zs ++ used), c.addr ≠ p.addr := by
    intro c hc
    rcases List.mem_append.mp hc with hc | hc
    · exact hb.otherp c (List.mem_append_left _ hc)
    · rcases List.mem_append.mp hc with hc | hc
      · rcases hzs c hc with rfl | hc
        · exact (hb.other p (by simp)).symm
        · exact hb.otherp c (by simp [hc])
      · exact hb.otherp c (by simp [hc])
  have hmem : ∀ {c : Blk}, c ∈ ns ++ (zs ++ used) → (h.set p.addr x).mem c.addr = h.mem c.addr :=
    fun hc => Function.update_of_ne (hother _ hc) _ _
  have hold : ∀ {c : Blk}, c ∈ ns ++ (zs ++ used) → c = b ∨ c ∈ ns ++ p :: (ys ++ used) := by
    intro c hc
    rcases List.mem_append.mp hc with hc | hc
    · exact Or.inr (List.mem_append_left _ hc)
    · rcases List.mem_append.mp hc with hc | hc
      · rcases hzs c hc with rfl | hc
        · exact Or.inl rfl
        · exact Or.inr (by simp [hc])
      · exact Or.inr (by simp [hc])
  have hsplit : ∀ {c : Blk}, c ∈ (ns ++ q :: zs) ++ used → c = q ∨ c ∈ ns ++ (zs ++ used) := by
    intro c hc
    simp only [List.append_assoc, List.cons_append, List.mem_append, List.mem_cons] at hc ⊢
    tauto
  obtain ⟨hns, hpys, hcross⟩ := List.pairwise_append.mp hb.gaps
  refine ⟨l, hl, Good.of_nodes hl ?_ ⟨q, by simp, haddr.symm⟩ ?_ ?_ ?_ ?_ hused hlow⟩
  · refine links_append.mpr ⟨?_, ?_, ?_⟩
    · rw [show first Blk.addr (q :: zs) base = p.addr from haddr]
      refine hb.links.congr fun c hc => ?_
      change ((h.set p.addr x).mem c.addr).ptr = (h.mem c.addr).ptr
      rw [hmem (List.mem_append_left _ hc)]
    · change ((h.set p.addr x).mem q.addr).ptr = _
      rw [haddr, hself, hptr]
    · refine hlinks.congr fun c hc => ?_
      change ((h.set p.addr x).mem c.addr).ptr = (h.mem c.addr).ptr
      rw [hmem (by simp [hc])]
  · intro c hc
    change ((h.set p.addr x).mem c.addr).size = c.size
    rcases hsplit hc with rfl | hc
    · rw [haddr, hself, hsize]
    · rw [hmem hc]
      rcases hold hc with rfl | hc
      · exact hb.sizeb
      · exact hb.size c hc
  · refine List.pairwise_append.mpr ⟨hns, hgaps, ?_⟩
    intro c hc d hd
    have hcp := hcross c hc p List.mem_cons_self
    rcases List.mem_cons.mp hd with rfl | hd
    · rw [haddr]
      exact hcp
    · have hqd := (List.pairwise_cons.mp hgaps).1 d hd
      unfold Blk.fin at hqd
      omega
  · rw [List.append_assoc]
    exact htiled
  · intro c hc hne
    rcases hsplit hc with rfl | hc
    · exact hpos hne
    · rcases hold hc with rfl | hc
      · exact hb.posb
      · exact hb.pos c hc hne

/-- The block is joined with its lower neighbour; the result is the free list. -/
theorem Place.joinDown {b p : Blk} {l ns ys : List Blk} (hb : Place base h b ns p ys used)
    (hnodes : ns ++ p :: ys = nodes base l)
    (hlow : ∀ g ∈ h.got, base + HEADERSIZE ≤ g.addr ∧ g.fin ≤ 2 ^ 32)
    (hused : ∀ c ∈ used, c.addr ≠ base)
    (hgap : ∀ c ∈ ys, b.fin < c.addr) (hnext : (h.mem b.addr).ptr = first Blk.addr ys base) :
    ∃ free', Good base { h.joinDown p.addr b.addr with freep := p.addr } free' used ∧
      ∃ c ∈ nodes base free', b.size ≤ c.size := by
  have hp : p ∈ ns ++ p :: (ys ++ used) := by simp
  have hbelow := hb.below p (by simp)
  have hhigh := hb.high
  have hlowb := hb.low
  have hfin : b.addr < b.fin := by
    have := hb.posb
    unfold Blk.fin HEADERSIZE
    omega
  obtain ⟨-, hpys, -⟩ := List.pairwise_append.mp hb.gaps
  obtain ⟨hpy, hys⟩ := List.pairwise_cons.mp hpys
  unfold Heap.joinDown
  rw [hb.size p hp, hb.sizeb, hnext]
  split
  · rename_i hdown
    have hmod : p.fin % 2 ^ 32 = b.addr := hdown
    have hadj : p.fin = b.addr := by omega
    have hne : p ≠ ⟨base, 0⟩ := by
      rintro rfl
      unfold Blk.fin at hadj
      dsimp only at hadj
      omega
    have hpos := hb.pos p hp hne
    have hsum : p.size + b.size < 2 ^ 32 := by
      unfold Blk.fin HEADERSIZE at hadj hhigh
      omega
    have hperm : (b :: (ns ++ p :: (ys ++ used))).Perm (p :: b :: (ns ++ (ys ++ used))) :=
      (List.perm_middle.cons b).trans (List.Perm.swap p b _)
    have htiled := ((hb.tiled.perm hperm).merge hpos hb.posb hadj).perm List.perm_middle.symm
    have hnodes' : ∃ l, ns ++ p.join b :: ys = nodes base l := by
      obtain ⟨-, hpbase⟩ | ⟨ns', rfl⟩ := nodes_before hnodes
      · exact absurd hpbase hne
      · exact ⟨ns' ++ p.join b :: ys, rfl⟩
    obtain ⟨free', hfree', hgood⟩ := hb.write
      (x := ⟨first Blk.addr ys base, (p.size + b.size) % 2 ^ 32⟩) hnodes' hlow hused rfl
      (Nat.mod_eq_of_lt hsum) rfl (fun c hc => Or.inr hc) hb.links'
      (List.pairwise_cons.mpr ⟨fun c hc => (Blk.join_fin hadj).trans_lt (hgap c hc), hys⟩) htiled
      (fun _ => hpos.trans (Nat.le_add_right _ _))
    refine ⟨free', hgood, p.join b, ?_, Nat.le_add_left _ _⟩
    rw [← hfree']
    simp
  · rename_i hdown
    have hmod : ¬ p.fin % 2 ^ 32 = b.addr := hdown
    have hlt : p.fin < b.addr := by omega
    have hperm : (b :: (ns ++ p :: (ys ++ used))).Perm (ns ++ p :: (b :: ys ++ used)) := by
      have hmid : ((ns ++ [p]) ++ b :: (ys ++ used)).Perm (b :: ((ns ++ [p]) ++ (ys ++ used))) :=
        List.perm_middle
      simpa using hmid.symm
    have hnodes' : ∃ l, ns ++ p :: b :: ys = nodes base l := by
      obtain ⟨rfl, rfl⟩ | ⟨ns', rfl⟩ := nodes_before hnodes
      · exact ⟨b :: ys, rfl⟩
      · exact ⟨ns' ++ p :: b :: ys, rfl⟩
    have hgaps : (p :: b :: ys).Pairwise fun c d => c.fin < d.addr := by
      refine List.pairwise_cons.mpr ⟨?_, List.pairwise_cons.mpr ⟨hgap, hys⟩⟩
      intro c hc
      rcases List.mem_cons.mp hc with rfl | hc
      · exact hlt
      · exact hpy c hc
    obtain ⟨free', hfree', hgood⟩ := hb.write (x := ⟨b.addr, p.size⟩) hnodes' hlow hused rfl rfl rfl
      (fun c hc => List.mem_cons.mp hc) ⟨hnext, hb.links'⟩ hgaps (hb.tiled.perm hperm) (hb.pos p hp)
    refine ⟨free', hgood, b, ?_, Nat.le_refl _⟩
    rw [← hfree']
    simp

/-- The blocks that tile memory are no header of the static data. -/
theorem Good.inside (hg : Good base h free used) {b : Blk} (hb : b ∈ free ++ used) :
    base + HEADERSIZE ≤ b.addr ∧ b.fin ≤ 2 ^ 32 :=
  hg.tiles.inside hg.low hb

theorem nodup_nodes {got : List Blk} (ht : Tiles (free ++ used) got)
    (hlow : ∀ g ∈ got, base + HEADERSIZE ≤ g.addr ∧ g.fin ≤ 2 ^ 32) :
    ((nodes base free ++ used).map Blk.addr).Nodup := by
  refine List.nodup_cons.mpr ⟨?_, ht.addr_inj⟩
  intro hmem
  obtain ⟨b, hb, hbase⟩ := List.mem_map.mp hmem
  have hlow := (ht.inside hlow hb).1
  have hbase' : b.addr = base := hbase
  unfold HEADERSIZE at hlow
  omega

theorem Good.nodup (hg : Good base h free used) : ((nodes base free ++ used).map Blk.addr).Nodup :=
  nodup_nodes hg.tiles hg.low

/-- There is a place for a block that the program has. -/
theorem Good.place_for {b : Blk} (hg : Good base h free (b :: used)) :
    ∃ ns p ys, nodes base free = ns ++ p :: ys ∧ p.addr < b.addr ∧ (∀ c ∈ ys, b.addr < c.addr) ∧
      Place base h b ns p ys used := by
  have hin : b ∈ free ++ b :: used := by simp
  obtain ⟨hlow, hhigh⟩ := hg.inside hin
  have hposb := hg.tiles.pos b hin
  have hperm : (free ++ b :: used).Perm (b :: (free ++ used)) := List.perm_middle
  have hapart : ∀ c ∈ free ++ used, c.Apart b := by
    have hb := (List.pairwise_cons.mp (hg.tiles.perm hperm).apart).1
    exact fun c hc => (hb c hc).symm
  have hbase : base < b.addr := by
    unfold HEADERSIZE at hlow
    omega
  -- the addresses of the headers, with that of the block in front
  have hnodup : ((b :: (nodes base free ++ used)).map Blk.addr).Nodup := by
    refine (List.Perm.nodup_iff ?_).mp hg.nodup
    exact List.perm_middle.map Blk.addr
  obtain ⟨hnot, hnodup⟩ := List.nodup_cons.mp hnodup
  have hne : ∀ c ∈ nodes base free ++ used, c.addr ≠ b.addr := by
    intro c hc heq
    exact hnot (List.mem_map.mpr ⟨c, hc, heq⟩)
  obtain ⟨hsbase, hsfree⟩ := List.pairwise_cons.mp hg.sorted
  obtain ⟨ns, p, ys, hnodes, hns, hp, hys⟩ :=
    split_below hsfree (fun c hc => hne c (by simp [nodes, hc])) hbase hsbase
  have hnodes' : nodes base free = ns ++ p :: ys := hnodes
  have hassoc : ns ++ p :: (ys ++ used) = nodes base free ++ used := by
    rw [hnodes']
    simp
  have hmem : ∀ c ∈ ns ++ p :: (ys ++ used), c = ⟨base, 0⟩ ∨ c ∈ free ++ used := by
    intro c hc
    rw [hassoc] at hc
    exact List.mem_cons.mp hc
  have hring := hg.ring
  rw [hnodes'] at hring
  obtain ⟨hlinks, -, hlinks'⟩ := links_append.mp hring
  refine ⟨ns, p, ys, hnodes', hp, hys, hlinks, hlinks', ?_, hg.size b (by simp), ?_, ?_, ?_, hposb, hbase,
    hhigh, ?_, ?_, ?_, ?_, ?_⟩
  · intro c hc
    rw [hassoc] at hc
    refine hg.size c ?_
    simp only [List.mem_append, List.mem_cons] at hc ⊢
    tauto
  · rw [← hnodes']
    exact hg.gaps
  · rw [hassoc]
    have htiled : Tiled (nodes base free ++ b :: used) h.got :=
      (tiled_nodes hg.tiles.pos _).mpr hg.tiles
    exact htiled.perm List.perm_middle
  · intro c hc hcb
    rcases hmem c hc with rfl | hc
    · exact absurd rfl hcb
    · refine hg.tiles.pos c ?_
      exact hperm.mem_iff.mpr (List.mem_cons_of_mem b hc)
  · intro c hc
    rcases hmem c hc with rfl | hc
    · unfold Blk.fin at hhigh ⊢
      dsimp only
      omega
    · exact (hg.inside (hperm.mem_iff.mpr (List.mem_cons_of_mem b hc))).2
  · intro c hc
    have hcb : c.addr < b.addr := by
      rcases List.mem_append.mp hc with hc | hc
      · exact (hns c hc).trans hp
      · rw [List.mem_singleton.mp hc]
        exact hp
    have hc' : c ∈ ns ++ p :: (ys ++ used) := by
      simp only [List.mem_append, List.mem_cons, List.not_mem_nil, or_false] at hc ⊢
      tauto
    rcases hmem c hc' with rfl | hc'
    · exact hcb.le
    · rcases hapart c hc' with hle | hle
      · exact hle
      · unfold Blk.fin at hle
        omega
  · intro c hc
    have hbc := hys c hc
    rcases hmem c (by simp [hc]) with rfl | hc'
    · dsimp only at hbc
      omega
    · rcases hapart c hc' with hle | hle
      · unfold Blk.fin at hle
        omega
      · exact hle
  · rw [hassoc]
    exact hne
  · rw [← hassoc] at hnodup
    have hfront : ((p :: (ns ++ (ys ++ used))).map Blk.addr).Nodup :=
      (List.Perm.nodup_iff (List.perm_middle.map Blk.addr)).mp hnodup
    intro c hc heq
    exact (List.nodup_cons.mp hfront).1 (List.mem_map.mpr ⟨c, hc, heq⟩)

@[simp] theorem joinUp_got (p bp : Nat) : (h.joinUp p bp).got = h.got := by
  unfold Heap.joinUp
  dsimp only
  split <;> rfl

@[simp] theorem joinUp_live (p bp : Nat) : (h.joinUp p bp).live = h.live := by
  unfold Heap.joinUp
  dsimp only
  split <;> rfl

@[simp] theorem joinDown_got (p bp : Nat) : (h.joinDown p bp).got = h.got := by
  unfold Heap.joinDown
  split <;> rfl

@[simp] theorem joinDown_live (p bp : Nat) : (h.joinDown p bp).live = h.live := by
  unfold Heap.joinDown
  split <;> rfl

/-- A block that the program has is put back: `free`. -/
theorem Good.put {b : Blk} (h0 : base ≠ 0) (hg : Good base h free (b :: used)) :
    ∃ h' free', h.free b.addr = .ok h' ∧ Good base h' free' used ∧ h'.got = h.got ∧ h'.live = h.live ∧
      ∃ c ∈ nodes base free', b.size ≤ c.size := by
  obtain ⟨ns, p, ys, hnodes, hp, hys, hb⟩ := hg.place_for
  have hring := hg.ring
  rw [hnodes] at hring
  obtain ⟨-, hnext, -⟩ := links_append.mp hring
  obtain ⟨b1, zs, haddr, hsize, hb1, hgap, hnext1⟩ := hb.joinUp h0 hnext
  have hused : ∀ c ∈ used, c.addr ≠ base := by
    intro c hc
    have hlow := (hg.inside (b := c) (by simp [hc])).1
    unfold HEADERSIZE at hlow
    omega
  have hnodes1 : ∃ l, ns ++ p :: zs = nodes base l := by
    obtain ⟨rfl, rfl⟩ | ⟨ns', rfl⟩ := nodes_before hnodes.symm
    · exact ⟨zs, rfl⟩
    · exact ⟨ns' ++ p :: zs, rfl⟩
  obtain ⟨l, hl⟩ := hnodes1
  obtain ⟨free', hgood, c, hc, hle⟩ :=
    hb1.joinDown hl (by simpa using hg.low) hused hgap (by rw [haddr]; exact hnext1)
  refine ⟨_, free', ?_, hgood, by simp, by simp, c, hc, hsize.trans hle⟩
  unfold Heap.free
  rw [hg.place hnodes hp hys, haddr]

end Yonix.Umalloc
