/-
  Yonix/Umalloc/History.lean
  ==========================
  **The allocator over every history of calls.**

  `malloc` goes around the free list to a block that is large enough, takes it off or cuts
  its tail, and after `morecore` it finds the new block.  So whatever is allocated and
  freed, in whatever order, the free blocks and those of the program tile the memory
  obtained, and no call runs out of turns.
-/
import Yonix.Umalloc.Heap

namespace Yonix.Umalloc

variable {base : Nat} {h : Heap} {free used : List Blk}

/-! ### The search for a block -/

/-- The loop of `malloc` over the headers `l` up to `freep`. -/
theorem scan_links (nunits : Nat) {f : Blk} (hf : (h.mem f.addr).size = f.size) : ∀ (l : List Blk) {n : Nat}
    {q : Blk}, Links h.next Blk.addr (q :: l) f.addr → (∀ c ∈ l, c.addr ≠ f.addr) →
    (∀ c ∈ l, (h.mem c.addr).size = c.size) → l.length < n →
    ∃ d c, scan h.mem nunits f.addr n q.addr (first Blk.addr l f.addr) = some (d.addr, c.addr) ∧
      d ∈ q :: l ∧ c ∈ f :: l ∧ h.next d = c.addr ∧
      (nunits ≤ c.size ∨ ∀ b ∈ f :: l, b.size < nunits) := by
  intro l
  induction l with
  | nil =>
    intro n q hlinks _ _ hn
    obtain ⟨n, rfl⟩ : ∃ m, n = m + 1 := ⟨n - 1, by omega⟩
    refine ⟨q, f, ?_, by simp, by simp, hlinks.1, ?_⟩
    · exact if_pos (Or.inr rfl)
    · simpa using le_or_gt nunits f.size
  | cons a l ih =>
    intro n q hlinks hne hsize hn
    obtain ⟨n, rfl⟩ : ∃ m, n = m + 1 := ⟨n - 1, by omega⟩
    obtain ⟨hnext, hlinks⟩ := hlinks
    have ha := hsize a List.mem_cons_self
    change ∃ d c, scan h.mem nunits f.addr (n + 1) q.addr a.addr = _ ∧ _
    rw [scan, ha]
    by_cases hle : nunits ≤ a.size
    · exact ⟨q, a, if_pos (Or.inl hle), by simp, by simp, hnext, Or.inl hle⟩
    · rw [if_neg (not_or.mpr ⟨hle, hne a List.mem_cons_self⟩)]
      obtain ⟨d, c, hscan, hd, hc, hdc, hlarge⟩ := ih hlinks (fun b hb => hne b (List.mem_cons_of_mem a hb))
        (fun b hb => hsize b (List.mem_cons_of_mem a hb)) (Nat.lt_of_succ_lt_succ hn)
      have hnext' : (h.mem a.addr).ptr = first Blk.addr l f.addr := hlinks.1
      rw [hnext']
      refine ⟨d, c, hscan, List.mem_cons_of_mem q hd, ?_, hdc, ?_⟩
      · rcases List.mem_cons.mp hc with rfl | hc
        · exact List.mem_cons_self
        · exact List.mem_cons_of_mem f (List.mem_cons_of_mem a hc)
      · refine hlarge.imp_right fun hall => ?_
        intro b hb
        rcases List.mem_cons.mp hb with rfl | hb
        · exact hall b List.mem_cons_self
        · rcases List.mem_cons.mp hb with rfl | hb
          · omega
          · exact hall b (List.mem_cons_of_mem f hb)

/-- The loop stops at a block that is large enough, if there is one. -/
theorem Good.scan (hg : Good base h free used) (nunits : Nat) :
    ∃ d c, scan h.mem nunits h.freep h.turns h.freep (h.mem h.freep).ptr = some (d.addr, c.addr) ∧
      d ∈ nodes base free ∧ c ∈ nodes base free ∧ h.next d = c.addr ∧
      (nunits ≤ c.size ∨ ∀ b ∈ nodes base free, b.size < nunits) := by
  obtain ⟨f, hf, hfreep⟩ := hg.freep
  obtain ⟨l, r, hnodes⟩ := List.append_of_mem hf
  have hring := hg.ring
  have hsorted := hg.sorted
  have hlen := hg.length_lt
  have hfirst : base = first Blk.addr l f.addr := by
    have : first Blk.addr (nodes base free) base = base := rfl
    rw [hnodes, first_append] at this
    exact this.symm
  rw [hnodes] at hring hsorted hlen
  rw [hfirst] at hring
  have hrot := links_rotate hring
  have hmem : ∀ c, c ∈ f :: (r ++ l) ↔ c ∈ nodes base free := by
    intro c
    rw [hnodes]
    simp only [List.mem_append, List.mem_cons]
    tauto
  obtain ⟨-, hfr, hcross⟩ := List.pairwise_append.mp hsorted
  have hne : ∀ c ∈ r ++ l, c.addr ≠ f.addr := by
    intro c hc
    rcases List.mem_append.mp hc with hc | hc
    · exact ((List.pairwise_cons.mp hfr).1 c hc).ne'
    · exact (hcross c hc f List.mem_cons_self).ne
  have hsize : ∀ c ∈ f :: (r ++ l), (h.mem c.addr).size = c.size := by
    intro c hc
    exact hg.size c (List.mem_append_left used ((hmem c).mp hc))
  have hlen' : (r ++ l).length < h.turns := by
    rw [List.length_append] at hlen ⊢
    rw [List.length_cons] at hlen
    omega
  obtain ⟨d, c, hscan, hd, hc, hdc, hlarge⟩ := scan_links nunits (hsize f List.mem_cons_self) (r ++ l) hrot
    hne (fun c hc => hsize c (List.mem_cons_of_mem f hc)) hlen'
  have hnext : (h.mem f.addr).ptr = first Blk.addr (r ++ l) f.addr := hrot.1
  refine ⟨d, c, ?_, (hmem d).mp hd, (hmem c).mp hc, hdc, ?_⟩
  · rw [hfreep, hnext]
    exact hscan
  · exact hlarge.imp_right fun hall b hb => hall b ((hmem b).mpr hb)

/-- The header that refers to a block comes before it in the list. -/
theorem Good.before (hg : Good base h free used) {d c : Blk} (hd : d ∈ nodes base free)
    (hc : c ∈ nodes base free) (hdc : h.next d = c.addr) (hpos : 1 ≤ c.size) :
    ∃ ms zs, nodes base free = ms ++ d :: c :: zs := by
  obtain ⟨ms, zs, hnodes⟩ := List.append_of_mem hd
  have hring := hg.ring
  rw [hnodes] at hring
  obtain ⟨-, hnext, -⟩ := links_append.mp hring
  have hinj : ∀ b ∈ nodes base free, b.addr = c.addr → b = c := by
    have hnodup := hg.nodup
    rw [List.map_append] at hnodup
    intro b hb heq
    exact List.inj_on_of_nodup_map hnodup.of_append_left hb hc heq
  rw [hnext] at hdc
  cases zs with
  | nil =>
    have hcb := hinj ⟨base, 0⟩ List.mem_cons_self hdc
    rw [← hcb] at hpos
    dsimp only at hpos
    omega
  | cons b zs =>
    have hbc : b = c := hinj b (by rw [hnodes]; simp) hdc
    rw [hbc] at hnodes
    exact ⟨ms, zs, hnodes⟩

/-! ### The block is taken -/

/-- The blocks after one of the list may be exchanged. -/
theorem nodes_after {ms rs : List Blk} {d : Blk} (hnodes : nodes base free = ms ++ d :: rs) :
    ∃ xs, free = xs ++ rs ∧ ∀ ys, nodes base (xs ++ ys) = ms ++ d :: ys := by
  obtain ⟨rfl, rfl⟩ | ⟨ms', rfl⟩ := nodes_before hnodes.symm
  · exact ⟨[], (List.cons.inj hnodes).2, fun ys => rfl⟩
  · refine ⟨ms' ++ [d], ?_, fun ys => ?_⟩
    · rw [(List.cons.inj hnodes).2]
      simp
    · simp [nodes]

/-- A header is at an address of its own. -/
theorem addr_ne_of_nodup {b : Blk} {l : List Blk} (hnodup : ((b :: l).map Blk.addr).Nodup) :
    ∀ c ∈ l, c.addr ≠ b.addr := by
  intro c hc heq
  exact (List.nodup_cons.mp hnodup).1 (List.mem_map.mpr ⟨c, hc, heq⟩)

/-- The list without one of its blocks: the header before it refers to the one after it. -/
theorem Good.take_off {ms zs : List Blk} {d c : Blk} (hg : Good base h free used)
    (hnodes : nodes base free = ms ++ d :: c :: zs) :
    ∃ free', Good base { h.set d.addr ⟨(h.mem c.addr).ptr, (h.mem d.addr).size⟩ with freep := d.addr }
      free' (c :: used) := by
  have hassoc : ms ++ d :: c :: (zs ++ used) = nodes base free ++ used := by
    rw [hnodes]
    simp
  have hnodup : ((d :: (ms ++ c :: (zs ++ used))).map Blk.addr).Nodup := by
    refine (List.Perm.nodup_iff ?_).mp hg.nodup
    rw [← hassoc]
    exact List.perm_middle.map Blk.addr
  have hother := addr_ne_of_nodup hnodup
  have hold : ∀ b, b ∈ nodes base free ++ used ↔ b = d ∨ b ∈ ms ++ c :: (zs ++ used) := by
    intro b
    rw [← hassoc]
    simp only [List.mem_append, List.mem_cons]
    tauto
  obtain ⟨xs, rfl, hxs⟩ := nodes_after hnodes
  have hsub : ((xs ++ c :: zs) ++ used).Perm ((xs ++ zs) ++ c :: used) := by
    have hmid : (xs ++ c :: (zs ++ used)).Perm (c :: (xs ++ (zs ++ used))) := List.perm_middle
    have hmid' : ((xs ++ zs) ++ c :: used).Perm (c :: ((xs ++ zs) ++ used)) := List.perm_middle
    rw [List.append_assoc, List.append_assoc] at hmid'
    rw [List.append_assoc, List.append_assoc]
    simpa using hmid.trans hmid'.symm
  obtain ⟨x, hx⟩ : ∃ x : Header, x = ⟨(h.mem c.addr).ptr, (h.mem d.addr).size⟩ := ⟨_, rfl⟩
  rw [← hx]
  have hself : (h.set d.addr x).mem d.addr = x := Function.update_self _ _ _
  have hmem : ∀ {b : Blk}, b ∈ ms ++ c :: (zs ++ used) → (h.set d.addr x).mem b.addr = h.mem b.addr :=
    fun hb => Function.update_of_ne (hother _ hb) _ _
  have hring := hg.ring
  have hgaps := hg.gaps
  rw [hnodes] at hring hgaps
  obtain ⟨hms, hd, hc, hzs⟩ := links_append.mp hring
  refine ⟨xs ++ zs, ?_, ⟨d, by rw [hxs]; simp, rfl⟩, ?_, ?_, hg.tiles.perm hsub, hg.low⟩
  · rw [hxs]
    refine links_append.mpr ⟨?_, ?_, ?_⟩
    · refine hms.congr fun b hb => ?_
      change ((h.set d.addr x).mem b.addr).ptr = (h.mem b.addr).ptr
      rw [hmem (List.mem_append_left _ hb)]
    · change ((h.set d.addr x).mem d.addr).ptr = _
      rw [hself, hx]
      exact hc
    · refine hzs.congr fun b hb => ?_
      change ((h.set d.addr x).mem b.addr).ptr = (h.mem b.addr).ptr
      rw [hmem (by simp [hb])]
  · intro b hb
    have hb' : b = d ∨ b ∈ ms ++ c :: (zs ++ used) := by
      rw [hxs] at hb
      simp only [List.mem_append, List.mem_cons] at hb ⊢
      tauto
    change ((h.set d.addr x).mem b.addr).size = b.size
    have hsize := hg.size b ((hold b).mpr hb')
    rcases hb' with rfl | hb'
    · rw [hself, hx]
      exact hsize
    · rw [hmem hb']
      exact hsize
  · rw [hxs]
    refine hgaps.sublist ?_
    exact ((List.sublist_cons_self c zs).cons_cons d).append_left ms

/-- The tail of a block is cut off. -/
theorem Good.cut {a m n y : Nat} {ms zs : List Blk} {d : Blk} (hg : Good base h free used)
    (hnodes : nodes base free = ms ++ d :: ⟨a, m + n⟩ :: zs) (hm : 1 ≤ m) (hn : 1 ≤ n) :
    ∃ free', Good base { (h.set a ⟨(h.mem a).ptr, m⟩).set (a + HEADERSIZE * m) ⟨y, n⟩ with freep := d.addr }
      free' (⟨a + HEADERSIZE * m, n⟩ :: used) := by
  obtain ⟨xs, rfl, hxs⟩ := nodes_after hnodes
  obtain ⟨c, hc⟩ : ∃ c : Blk, c = ⟨a, m⟩ := ⟨_, rfl⟩
  obtain ⟨t, ht⟩ : ∃ t : Blk, t = ⟨a + HEADERSIZE * m, n⟩ := ⟨_, rfl⟩
  have htiles : Tiles (xs ++ c :: zs ++ t :: used) h.got := by
    have hmid : (xs ++ ⟨a, m + n⟩ :: zs ++ used).Perm (⟨a, m + n⟩ :: (xs ++ (zs ++ used))) := by
      rw [List.append_assoc, List.cons_append]
      exact List.perm_middle
    have hsplit := (hg.tiles.perm hmid).split hm hn
    rw [← hc, ← ht] at hsplit
    refine hsplit.perm ?_
    have hct : ((xs ++ c :: zs) ++ t :: used).Perm (t :: ((xs ++ c :: zs) ++ used)) := List.perm_middle
    have hcc : (xs ++ c :: (zs ++ used)).Perm (c :: (xs ++ (zs ++ used))) := List.perm_middle
    refine List.Perm.trans (List.Perm.swap t c _) (hct.trans ?_).symm
    rw [List.append_assoc, List.cons_append]
    exact hcc.cons t
  have hnew : nodes base (xs ++ c :: zs) ++ t :: used = ms ++ d :: c :: (zs ++ t :: used) := by
    rw [hxs]
    simp
  have hnodup := nodup_nodes htiles hg.low
  rw [hnew] at hnodup
  -- the headers that are not written
  have hotherc : ∀ b ∈ ms ++ d :: (zs ++ t :: used), b.addr ≠ c.addr := by
    refine addr_ne_of_nodup ((List.Perm.nodup_iff (List.Perm.map Blk.addr ?_)).mp hnodup)
    have hmid : ((ms ++ [d]) ++ c :: (zs ++ t :: used)).Perm (c :: ((ms ++ [d]) ++ (zs ++ t :: used))) :=
      List.perm_middle
    simpa using hmid
  have hothert : ∀ b ∈ ms ++ d :: c :: (zs ++ used), b.addr ≠ t.addr := by
    refine addr_ne_of_nodup ((List.Perm.nodup_iff (List.Perm.map Blk.addr ?_)).mp hnodup)
    have hmid : ((ms ++ d :: c :: zs) ++ t :: used).Perm (t :: ((ms ++ d :: c :: zs) ++ used)) :=
      List.perm_middle
    simpa using hmid
  have hac : a = c.addr := by rw [hc]
  have hat : a + HEADERSIZE * m = t.addr := by rw [ht]
  rw [← ht, hat]
  obtain ⟨h1, hh1⟩ : ∃ h1, h1 = (h.set a ⟨(h.mem a).ptr, m⟩).set t.addr ⟨y, n⟩ := ⟨_, rfl⟩
  rw [← hh1]
  have hmemt : h1.mem t.addr = ⟨y, n⟩ := by
    rw [hh1]
    exact Function.update_self _ _ _
  have hmemc : h1.mem c.addr = ⟨(h.mem c.addr).ptr, m⟩ := by
    rw [hh1, hac]
    refine (Function.update_of_ne (hothert c (by simp)) _ _).trans ?_
    exact Function.update_self _ _ _
  have hmem : ∀ {b : Blk}, b ∈ ms ++ d :: (zs ++ used) → h1.mem b.addr = h.mem b.addr := by
    intro b hb
    rw [hh1, hac]
    refine (Function.update_of_ne (hothert b ?_) _ _).trans (Function.update_of_ne (hotherc b ?_) _ _)
    · simp only [List.mem_append, List.mem_cons] at hb ⊢
      tauto
    · simp only [List.mem_append, List.mem_cons] at hb ⊢
      tauto
  have hgot : h1.got = h.got := by
    rw [hh1]
    rfl
  have hring := hg.ring
  have hgaps := hg.gaps
  rw [hnodes] at hring hgaps
  have hptr : ∀ b ∈ ms ++ d :: c :: zs, h1.next b = h.next b := by
    intro b hb
    have hb' : b = c ∨ b ∈ ms ++ d :: (zs ++ used) := by
      simp only [List.mem_append, List.mem_cons] at hb ⊢
      tauto
    change (h1.mem b.addr).ptr = (h.mem b.addr).ptr
    rcases hb' with rfl | hb'
    · rw [hmemc]
    · rw [hmem hb']
  refine ⟨xs ++ c :: zs, ?_, ⟨d, by rw [hxs]; simp, rfl⟩, ?_, ?_, ?_, ?_⟩
  · rw [hxs]
    refine Links.congr ?_ hptr
    obtain ⟨hms, hd, hc', hzs⟩ := links_append.mp hring
    refine links_append.mpr ⟨hms, ?_, ?_, hzs⟩
    · rw [hd]
      exact hac
    · change (h.mem c.addr).ptr = _
      rw [← hac]
      exact hc'
  · intro b hb
    rw [hnew] at hb
    have hb' : b = t ∨ b = c ∨ b ∈ ms ++ d :: (zs ++ used) := by
      simp only [List.mem_append, List.mem_cons] at hb ⊢
      tauto
    change (h1.mem b.addr).size = b.size
    rcases hb' with rfl | rfl | hb'
    · rw [hmemt, ht]
    · rw [hmemc, hc]
    · rw [hmem hb']
      refine hg.size b ?_
      rw [hnodes]
      simp only [List.mem_append, List.mem_cons] at hb' ⊢
      tauto
  · rw [hxs]
    obtain ⟨hms, hrest, hcross⟩ := List.pairwise_append.mp hgaps
    obtain ⟨hd, hrest⟩ := List.pairwise_cons.mp hrest
    obtain ⟨ha, hzs⟩ := List.pairwise_cons.mp hrest
    refine List.pairwise_append.mpr ⟨hms, List.pairwise_cons.mpr ⟨?_, List.pairwise_cons.mpr ⟨?_, hzs⟩⟩, ?_⟩
    · intro b hb
      rcases List.mem_cons.mp hb with rfl | hb
      · rw [← hac]
        exact hd _ List.mem_cons_self
      · exact hd b (List.mem_cons_of_mem _ hb)
    · intro b hb
      have hlt := ha b hb
      rw [hc]
      unfold Blk.fin HEADERSIZE at hlt ⊢
      dsimp only at hlt ⊢
      omega
    · intro b hb e he
      rcases List.mem_cons.mp he with rfl | he
      · exact hcross b hb e List.mem_cons_self
      · rcases List.mem_cons.mp he with rfl | he
        · rw [← hac]
          exact hcross b hb ⟨a, m + n⟩ (by simp)
        · exact hcross b hb e (by simp [he])
  · rw [hgot]
    exact htiles
  · rw [hgot]
    exact hg.low

theorem Good.with_live (hg : Good base h free used) (live : List Nat) :
    Good base { h with live := live } free used :=
  ⟨hg.ring, hg.freep, hg.size, hg.gaps, hg.tiles, hg.low⟩

/-- A block that is large enough is taken, whole or its tail. -/
theorem Good.taken {d c : Blk} {nunits : Nat} (hg : Good base h free used) (hd : d ∈ nodes base free)
    (hc : c ∈ nodes base free) (hdc : h.next d = c.addr) (hn : 1 ≤ nunits) (hle : nunits ≤ c.size) :
    ∃ free' b, (h.take d.addr c.addr nunits).2 = some b.addr ∧ b.size = nunits ∧
      (h.take d.addr c.addr nunits).1.live = b.addr :: h.live ∧
      Good base (h.take d.addr c.addr nunits).1 free' (b :: used) := by
  obtain ⟨ms, zs, hnodes⟩ := hg.before hd hc hdc (hn.trans hle)
  have hsize := hg.size c (List.mem_append_left used hc)
  unfold Heap.take
  rw [hsize]
  split
  · rename_i heq
    obtain ⟨free', hgood⟩ := hg.take_off hnodes
    exact ⟨free', c, rfl, heq, rfl, hgood.with_live _⟩
  · rename_i hne
    obtain ⟨a, m⟩ := c
    dsimp only at hle hne hsize ⊢
    obtain ⟨k, rfl⟩ : ∃ k, m = k + nunits := ⟨m - nunits, by omega⟩
    have hk : 1 ≤ k := by omega
    rw [Nat.add_sub_cancel]
    have hin : (⟨a, k + nunits⟩ : Blk) ∈ free ++ used := by
      obtain ⟨xs, rfl, -⟩ := nodes_after hnodes
      simp
    have hfin := (hg.inside hin).2
    have hpadd : padd a k = a + HEADERSIZE * k := by
      unfold padd
      unfold Blk.fin HEADERSIZE at hfin
      dsimp only at hfin
      unfold HEADERSIZE
      exact Nat.mod_eq_of_lt (by omega)
    rw [hpadd]
    obtain ⟨free', hgood⟩ := hg.cut hnodes hk hn
    exact ⟨free', ⟨a + HEADERSIZE * k, nunits⟩, rfl, rfl, rfl, hgood.with_live _⟩

/-! ### Memory is obtained -/

/-- New memory above all that was obtained before is put on the list. -/
theorem Good.obtain {b : Blk} (h0 : base ≠ 0) (hg : Good base h free used) (hpos : 1 ≤ b.size)
    (hlow : base + HEADERSIZE ≤ b.addr) (hnew : ∀ g ∈ h.got, g.fin ≤ b.addr) (hhigh : b.fin ≤ 2 ^ 32) :
    ∃ h' free', { h.set b.addr ⟨(h.mem b.addr).ptr, b.size⟩ with got := b :: h.got }.free b.addr = .ok h' ∧
      Good base h' free' used ∧ h'.got = b :: h.got ∧ h'.live = h.live ∧
      ∃ c ∈ nodes base free', b.size ≤ c.size := by
  have htiles := hg.tiles.add hpos hnew
  obtain ⟨h1, hh1⟩ : ∃ h1, h1 = { h.set b.addr ⟨(h.mem b.addr).ptr, b.size⟩ with got := b :: h.got } :=
    ⟨_, rfl⟩
  rw [← hh1]
  have hlow' : ∀ g ∈ h1.got, base + HEADERSIZE ≤ g.addr ∧ g.fin ≤ 2 ^ 32 := by
    intro g hgm
    rw [hh1] at hgm
    rcases List.mem_cons.mp hgm with rfl | hgm
    · exact ⟨hlow, hhigh⟩
    · exact hg.low g hgm
  have hgot : h1.got = b :: h.got := by rw [hh1]
  have htiles' : Tiles (free ++ b :: used) h1.got := by
    rw [hgot]
    exact htiles.perm List.perm_middle.symm
  have hnodup := nodup_nodes htiles' hlow'
  have hother : ∀ c ∈ nodes base free ++ used, c.addr ≠ b.addr :=
    addr_ne_of_nodup ((List.Perm.nodup_iff (List.perm_middle.map Blk.addr)).mp hnodup)
  have hmem : ∀ {c : Blk}, c ∈ nodes base free ++ used → h1.mem c.addr = h.mem c.addr := by
    intro c hc
    rw [hh1]
    exact Function.update_of_ne (hother c hc) _ _
  have hgood : Good base h1 free (b :: used) := by
    refine ⟨?_, ?_, ?_, hg.gaps, htiles', hlow'⟩
    · refine hg.ring.congr fun c hc => ?_
      change (h1.mem c.addr).ptr = (h.mem c.addr).ptr
      rw [hmem (List.mem_append_left used hc)]
    · rw [hh1]
      exact hg.freep
    · intro c hc
      have hc' : c = b ∨ c ∈ nodes base free ++ used := by
        simp only [List.mem_append, List.mem_cons] at hc ⊢
        tauto
      rcases hc' with rfl | hc'
      · have hself : h1.mem c.addr = ⟨(h.mem c.addr).ptr, c.size⟩ := by
          rw [hh1]
          exact Function.update_self _ _ _
        rw [hself]
      · rw [hmem hc']
        exact hg.size c hc'
  obtain ⟨h', free', hfree, hgood', hgot', hlive, c, hc, hle⟩ := hgood.put h0
  refine ⟨h', free', hfree, hgood', hgot'.trans hgot, ?_, c, hc, hle⟩
  rw [hlive, hh1]
  rfl

/-- `morecore` leaves a free block of the size asked for, if the answer is one of `sbrk`. -/
theorem Good.morecore {nunits a : Nat} (h0 : base ≠ 0) (hg : Good base h free used)
    (hn : nunits ≤ 2 ^ 27 + 1) :
    h.morecore base nunits a = .error .notCalled ∨
      ∃ h' free', h.morecore base nunits a = .ok h' ∧ Good base h' free' used ∧ h'.live = h.live ∧
        ∃ c ∈ nodes base free', nunits ≤ c.size := by
  have hmore : nunits ≤ moreUnits nunits ∧ 1 ≤ moreUnits nunits ∧ moreUnits nunits ≤ 2 ^ 27 + 1 := by
    unfold moreUnits
    split <;> omega
  obtain ⟨hge, hpos, hmax⟩ := hmore
  have hunits : moreUnits nunits * HEADERSIZE % 2 ^ 32 / HEADERSIZE = moreUnits nunits := by
    unfold HEADERSIZE
    omega
  unfold Heap.morecore
  dsimp only
  rw [hunits]
  split
  · rename_i hfresh
    right
    obtain ⟨-, hlow, hnew, hhigh⟩ := hfresh
    obtain ⟨h', free', hfree, hgood, -, hlive, c, hc, hle⟩ :=
      hg.obtain (b := ⟨a, moreUnits nunits⟩) h0 hpos hlow hnew hhigh
    exact ⟨h', free', hfree, hgood, hlive, c, hc, hge.trans hle⟩
  · exact Or.inl rfl

/-- A block that is large enough is found and taken. -/
theorem Good.found {nunits : Nat} (hg : Good base h free used) (hn : 1 ≤ nunits)
    (hlarge : ∃ c ∈ nodes base free, nunits ≤ c.size) :
    ∃ d c free' b, Umalloc.scan h.mem nunits h.freep h.turns h.freep (h.mem h.freep).ptr = some (d, c) ∧
      nunits ≤ (h.mem c).size ∧ (h.take d c nunits).2 = some b.addr ∧ b.size = nunits ∧
      (h.take d c nunits).1.live = b.addr :: h.live ∧
      Good base (h.take d c nunits).1 free' (b :: used) := by
  obtain ⟨d, c, hscan, hd, hc, hdc, hor⟩ := hg.scan nunits
  have hle : nunits ≤ c.size := by
    rcases hor with hle | hall
    · exact hle
    · obtain ⟨e, he, hle⟩ := hlarge
      exact absurd hle (Nat.not_le.mpr (hall e he))
  have hsize := hg.size c (List.mem_append_left used hc)
  obtain ⟨free', b, hres, hbsize, hlive, hgood⟩ := hg.taken hd hc hdc hn hle
  exact ⟨d.addr, c.addr, free', b, hscan, hsize ▸ hle, hres, hbsize, hlive, hgood⟩

/-- No block is large enough, and the loop has gone around. -/
theorem Good.missed {nunits : Nat} (hg : Good base h free used)
    (hsmall : ¬ ∃ c ∈ nodes base free, nunits ≤ c.size) :
    ∃ d c, Umalloc.scan h.mem nunits h.freep h.turns h.freep (h.mem h.freep).ptr = some (d, c) ∧
      ¬ nunits ≤ (h.mem c).size := by
  obtain ⟨d, c, hscan, -, hc, -, -⟩ := hg.scan nunits
  refine ⟨d.addr, c.addr, hscan, ?_⟩
  rw [hg.size c (List.mem_append_left used hc)]
  exact fun hle => hsmall ⟨c, hc, hle⟩

/-- `malloc` gets a block or a refusal of `sbrk`, after at most one call of it. -/
theorem Good.search {nunits : Nat} (h0 : base ≠ 0) (hg : Good base h free used) (hn : 1 ≤ nunits)
    (hmax : nunits ≤ 2 ^ 27 + 1) (answer : Option Nat) :
    h.search base nunits [answer] = .error .notCalled ∨
      ∃ h' r free' used', h.search base nunits [answer] = .ok (h', r) ∧ Good base h' free' used' ∧
        (r = none ∧ used' = used ∧ h'.live = h.live ∨
          ∃ b, r = some b.addr ∧ b.size = nunits ∧ used' = b :: used ∧ h'.live = b.addr :: h.live) := by
  -- a block that is large enough is found at once
  have hfound : ∀ {h : Heap} {free : List Blk} (answers : List (Option Nat)), Good base h free used →
      (∃ c ∈ nodes base free, nunits ≤ c.size) →
      ∃ h' free' b, h.search base nunits answers = .ok (h', some b.addr) ∧ b.size = nunits ∧
        h'.live = b.addr :: h.live ∧ Good base h' free' (b :: used) := by
    intro h free answers hg hlarge
    obtain ⟨d, c, free', b, hscan, hle, hres, hbsize, hlive, hgood⟩ := hg.found hn hlarge
    refine ⟨_, free', b, ?_, hbsize, hlive, hgood⟩
    unfold Heap.search
    rw [hscan]
    dsimp only
    rw [if_pos hle, ← hres]
  by_cases hlarge : ∃ c ∈ nodes base free, nunits ≤ c.size
  · obtain ⟨h', free', b, hres, hbsize, hlive, hgood⟩ := hfound [answer] hg hlarge
    exact Or.inr ⟨h', _, free', _, hres, hgood, Or.inr ⟨b, rfl, hbsize, rfl, hlive⟩⟩
  · obtain ⟨d, c, hscan, hsmall⟩ := hg.missed hlarge
    unfold Heap.search
    rw [hscan]
    dsimp only
    rw [if_neg hsmall]
    cases answer with
    | none => exact Or.inr ⟨h, none, free, used, rfl, hg, Or.inl ⟨rfl, rfl, rfl⟩⟩
    | some a =>
      dsimp only
      rcases hg.morecore h0 hmax (a := a) with hbad | ⟨h1, free1, hmore, hg1, hlive1, hlarge1⟩
      · rw [hbad]
        exact Or.inl rfl
      · rw [hmore]
        obtain ⟨h', free', b, hres, hbsize, hlive, hgood⟩ := hfound [] hg1 hlarge1
        refine Or.inr ⟨h', _, free', _, hres, hgood, Or.inr ⟨b, rfl, hbsize, rfl, ?_⟩⟩
        rw [hlive, hlive1]

/-! ### Every history -/

/-- The heap before its first use, or with the blocks of the program among those that
    tile the memory. -/
def Sound (base : Nat) (h : Heap) : Prop :=
  (h.freep = 0 ∧ h.got = [] ∧ h.live = []) ∨
    ∃ free used, Good base h free used ∧ (used.map Blk.addr).Perm h.live

/-- The first call makes a ring of the static header. -/
theorem good_base (hgot : h.got = []) :
    Good base { h.set base ⟨base, 0⟩ with freep := base } [] [] := by
  have hself : (h.set base ⟨base, 0⟩).mem base = ⟨base, 0⟩ := Function.update_self _ _ _
  refine ⟨⟨?_, trivial⟩, ⟨⟨base, 0⟩, List.mem_cons_self, rfl⟩, ?_, List.pairwise_singleton _ _, ?_, ?_⟩
  · change ((h.set base ⟨base, 0⟩).mem base).ptr = base
    rw [hself]
  · intro b hb
    obtain rfl : b = ⟨base, 0⟩ := by simpa [nodes] using hb
    change ((h.set base ⟨base, 0⟩).mem base).size = 0
    rw [hself]
  · change Tiles [] h.got
    rw [hgot]
    exact ⟨by simp, List.Pairwise.nil, by simp⟩
  · change ∀ g ∈ h.got, _
    rw [hgot]
    simp

theorem Good.perm {used' : List Blk} (hg : Good base h free used) (hp : used.Perm used') :
    Good base h free used' := by
  refine ⟨hg.ring, hg.freep, ?_, hg.gaps, hg.tiles.perm (hp.append_left free), hg.low⟩
  intro b hb
  exact hg.size b ((hp.append_left (nodes base free)).mem_iff.mpr hb)

/-- `freep` is not null once it is set. -/
theorem Good.freep_ne (h0 : base ≠ 0) (hg : Good base h free used) : h.freep ≠ 0 := by
  obtain ⟨b, hb, hfreep⟩ := hg.freep
  rw [hfreep]
  rcases List.mem_cons.mp hb with rfl | hb
  · exact h0
  · have hlow := (hg.inside (List.mem_append_left used hb)).1
    unfold HEADERSIZE at hlow
    omega

theorem Sound.malloc {nbytes : Nat} (h0 : base ≠ 0) (hs : Sound base h) (hn : nbytes ≤ 2 ^ 30)
    (answer : Option Nat) :
    h.malloc base nbytes [answer] = .error .notCalled ∨
      ∃ h' r, h.malloc base nbytes [answer] = .ok (h', r) ∧ Sound base h' := by
  obtain ⟨nunits, hunits⟩ : ∃ n, n = (nbytes + HEADERSIZE - 1) % 2 ^ 32 / HEADERSIZE + 1 := ⟨_, rfl⟩
  have hpos : 1 ≤ nunits := by
    rw [hunits]
    exact Nat.le_add_left 1 _
  have hmax : nunits ≤ 2 ^ 27 + 1 := by
    unfold HEADERSIZE at hunits
    omega
  -- from a heap that is set up
  have hready : ∀ {h : Heap} {free used : List Blk}, Good base h free used →
      (used.map Blk.addr).Perm h.live →
      h.search base nunits [answer] = .error .notCalled ∨
        ∃ h' r, h.search base nunits [answer] = .ok (h', r) ∧ Sound base h' := by
    intro h free used hg hlive
    rcases hg.search h0 hpos hmax answer with hbad | ⟨h', r, free', used', hres, hgood, hor⟩
    · exact Or.inl hbad
    · refine Or.inr ⟨h', r, hres, Or.inr ⟨free', used', hgood, ?_⟩⟩
      rcases hor with ⟨-, rfl, hlive'⟩ | ⟨b, -, -, rfl, hlive'⟩
      · rw [hlive']
        exact hlive
      · rw [hlive']
        exact hlive.cons b.addr
  unfold Heap.malloc
  dsimp only
  rw [← hunits]
  rcases hs with ⟨hfreep, hgot, hlive⟩ | ⟨free, used, hg, hlive⟩
  · rw [if_pos hfreep]
    refine hready (good_base hgot) ?_
    change List.Perm [] h.live
    rw [hlive]
  · rw [if_neg (hg.freep_ne h0)]
    exact hready hg hlive

theorem Sound.freed {bp : Nat} (h0 : base ≠ 0) (hs : Sound base h) (hbp : bp ∈ h.live) :
    ∃ h', h.free bp = .ok h' ∧ Sound base { h' with live := h'.live.erase bp } := by
  rcases hs with ⟨-, -, hlive⟩ | ⟨free, used, hg, hlive⟩
  · rw [hlive] at hbp
    cases hbp
  · obtain ⟨b, hb, rfl⟩ := List.mem_map.mp (hlive.mem_iff.mpr hbp)
    obtain ⟨l, r, rfl⟩ := List.append_of_mem hb
    obtain ⟨h', free', hfree, hgood, -, hlive', -⟩ := (hg.perm List.perm_middle).put h0
    refine ⟨h', hfree, Or.inr ⟨free', l ++ r, hgood.with_live _, ?_⟩⟩
    change ((l ++ r).map Blk.addr).Perm (h'.live.erase b.addr)
    rw [hlive']
    have hperm : (b.addr :: (l ++ r).map Blk.addr).Perm h.live :=
      (List.perm_middle.symm.map Blk.addr).trans hlive
    have := hperm.erase b.addr
    rwa [List.erase_cons_head] at this

theorem Sound.exec (h0 : base ≠ 0) (hs : Sound base h) (a : Act) :
    h.exec base a = .error .notCalled ∨ ∃ h', h.exec base a = .ok h' ∧ Sound base h' := by
  cases a with
  | malloc nbytes answer =>
    unfold Heap.exec
    dsimp only
    split
    · rename_i hn
      rcases hs.malloc h0 hn answer with hbad | ⟨h', r, hres, hs'⟩
      · rw [hbad]
        exact Or.inl rfl
      · rw [hres]
        exact Or.inr ⟨h', rfl, hs'⟩
    · exact Or.inl rfl
  | free bp =>
    unfold Heap.exec
    dsimp only
    split
    · rename_i hbp
      obtain ⟨h', hfree, hs'⟩ := hs.freed h0 hbp
      rw [hfree]
      exact Or.inr ⟨_, rfl, hs'⟩
    · exact Or.inl rfl

/-- After every history of calls the free list is in order and tiles the memory with the
    blocks of the program, and the next call returns: it is neither out of turns nor asks
    `sbrk` twice. -/
theorem heap_sound {mem : Nat → Header} {as : List Act} (h0 : base ≠ 0)
    (hr : Run (fun h a h' => h.exec base a = .ok h') (start mem) as h) :
    Sound base h ∧ ∀ a, h.exec base a = .error .notCalled ∨ ∃ h', h.exec base a = .ok h' := by
  have hs : Sound base h := by
    refine hr.invariant (Sound base) (Or.inl ⟨rfl, rfl, rfl⟩) ?_
    intro h1 a h2 hs hstep
    rcases hs.exec h0 a with hbad | ⟨h', hok, hs'⟩
    · rw [hbad] at hstep
      cases hstep
    · rw [hok] at hstep
      cases hstep
      exact hs'
  refine ⟨hs, fun a => ?_⟩
  rcases hs.exec h0 a with hbad | ⟨h', hok, -⟩
  · exact Or.inl hbad
  · exact Or.inr ⟨h', hok⟩

/-- Two parts of memory, of which the second is joined with a block that was put back. -/
theorem heap_sound_joined : ∃ h, h.live = [36864, 36688] ∧ h.got = [⟨36864, 5001⟩, ⟨4096, 4096⟩] ∧
    Sound 16 h ∧ ∀ a, h.exec 16 a = .error .notCalled ∨ ∃ h', h.exec 16 a = .ok h' := by
  have hrun : okWith (fun h : Heap => decide (h.live = [36864, 36688] ∧ h.got = [⟨36864, 5001⟩, ⟨4096, 4096⟩]))
      ([Act.malloc 100 (some 4096), .malloc 50 none, .free 36752, .malloc 40000 (some 36864)].foldlM
        (Heap.exec 16) (start fun _ => ⟨0, 0⟩)) = true := by
    decide +kernel
  obtain ⟨h, hok, htest⟩ := okWith_eq_true.mp hrun
  obtain ⟨hlive, hgot⟩ := of_decide_eq_true htest
  exact ⟨h, hlive, hgot, heap_sound (by decide) (Run.of_foldlM hok)⟩

end Yonix.Umalloc
