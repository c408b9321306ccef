/-
  Yonix/Mkfs/Kernel.lean
  ======================
  **What the kernel does with an image of `mkfs`.**

  The kernel has the image on its disk, and no block of it is held (`Boots`).  The two
  programs have the format of the disk in common: the superblock, the inode blocks, and
  the blocks that an inode refers to.  So whatever the kernel reads of a file has a block,
  if the image is well formed, which depends on the number of files only
  (`image_wellFormed`); and it finds every file under its name, with the bytes that the
  file had (`mkfs_read_back`).
-/
import Yonix.Mkfs.Image

namespace Yonix.Mkfs

open Yonix.Fs

variable {files : List Input} {nd : Nat → Dinode} {s : State} {K t : Fs.State} {m n i k ip dp : Nat}

/-- `mkfs` was run. -/
theorem exists_written (hmain : main files start = .ok ((), s)) (hle : files.length + 1 ≤ NINODES) :
    ∃ nd, Written files nd s := by
  have hwp : wp (fun _ => True) (main files) (fun _ t => ∃ nd, Written files nd t) start :=
    wp_main hle (Or.inl fun _ => trivial)
  exact hwp.ok hmain

/-- The kernel has the image. -/
structure Boots (s : State) (K : Fs.State) : Prop where
  block : K.block = s.img
  super : K.sb = superOf (s.img 1)
  held : K.held = []

section Boots

variable (h : Written files nd s) (hK : Boots s K)
include h hK

theorem Boots.disk (hm : m < NINO) : K.disk m = nd m := by
  rw [← h.table m hm, State.disk, hK.block, hK.super, h.super, superOf_superBlock]
  rfl

theorem Boots.iblock_lt (hm : m < NINO) : K.sb.iblock m < FSSIZE := by
  rw [hK.super, h.super, superOf_superBlock]
  exact Nat.lt_trans (Mkfs.iblock_lt hm) nmeta_lt

theorem Boots.onDisk (hi : K.din i = nd m) : OnDisk K i := by
  intro j hj
  rw [hi, hK.block] at hj ⊢
  exact Nat.lt_of_lt_of_le (h.apart.data m j hj).2 h.free

omit h in
theorem Boots.contents (hi : K.din i = nd m) : K.contents i = content nd s m := by
  unfold State.contents content
  rw [hi, hK.block]

/-- Of an inode with all its blocks everything is read, and nothing is allocated. -/
theorem Boots.readi {o : Nat} (hi : K.din i = nd m) (hslots : ∀ bn, bn * BSIZE < (nd m).size →
    bn < MAXFILE ∧ (nd m).slot s.img bn ≠ 0) (ho : o ≤ (nd m).size) (hn : o + n < 2 ^ 32) :
    Fs.readi i o n K = .ok (some (((content nd s m).drop o).take n), K) := by
  rw [← hK.contents hi]
  have hsize : (nd m).size ≤ MAXFILE * BSIZE := by
    by_contra hlt
    exact absurd (hslots MAXFILE (Nat.lt_of_not_le hlt)).1 (Nat.lt_irrefl _)
  refine readi_piece (hK.onDisk h hi) hK.held (hi ▸ h.notDev m) ?_ hn ?_ fun bn hbn => ?_
  · rwa [hi]
  · rw [hi]
    omega
  · rw [hi] at hbn ⊢
    rw [hK.block]
    rcases mem_blocksOf.mp hbn with ⟨k, -, hk, rfl⟩
    have hdiv := Nat.div_mul_le_self k BSIZE
    exact (hslots (k / BSIZE) (by omega)).2

/-- `readi` with any arguments. -/
theorem Boots.readi_returns {o : Nat} (hi : K.din i = nd m) (hslots : ∀ bn, bn * BSIZE < (nd m).size →
    bn < MAXFILE ∧ (nd m).slot s.img bn ≠ 0) (ho : o < 2 ^ 32) (hn : n < 2 ^ 32) :
    ∃ r, Fs.readi i o n K = .ok (r, K) := by
  by_cases hrange : o ≤ (nd m).size ∧ o + n < 2 ^ 32
  · exact ⟨_, hK.readi h hi hslots hrange.1 hrange.2⟩
  · refine ⟨none, ?_⟩
    unfold Fs.readi
    rw [get_bind]
    dsimp only
    rw [if_neg (show (K.din i).type ≠ T_DEV from hi ▸ h.notDev m), if_pos]
    · rfl
    · change (K.din i).size < o ∨ _
      rw [hi]
      omega

end Boots

/-! ### Well-formed images -/

/-- `readi` on the inodes of the image never allocates a block: it returns in the state that it was called in. -/
def NeverAllocates (s : State) : Prop :=
  ∀ K, Boots s K → ∀ i m, m < NINO → K.din i = s.node m → ∀ o n, o < 2 ^ 32 → n < 2 ^ 32 →
    ∃ r, readi i o n K = .ok (r, K)

/-- The image is well formed, unless the entries of the root fill its last block: then the size that `mkfs` gives
    the root has one block more than the root. -/
theorem image_wellFormed (hmain : main files start = .ok ((), s)) (hle : files.length + 1 ≤ NINODES) :
    WellFormed s ∧ NeverAllocates s ↔ ¬ 32 ∣ files.length + 2 := by
  rcases exists_written hmain hle with ⟨nd, h⟩
  rw [← h.wellFormed_iff hle]
  constructor
  · exact fun hwf => hwf.1
  · intro hwf
    refine ⟨hwf, fun K hK i m hm hi o n ho hn => ?_⟩
    have hslots := hwf.slots m hm
    rw [h.table m hm] at hi hslots
    exact hK.readi_returns h hi hslots ho hn

/-- A file of three bytes. -/
def init : Input := ⟨[95, 105, 110, 105, 116], [[97, 98, 99]]⟩

theorem enough_init : Enough [init] := ⟨by decide, by decide⟩

theorem image_wellFormed_init : ∃ s, main [init] start = .ok ((), s) ∧ WellFormed s ∧ NeverAllocates s := by
  rcases main_returns (by decide) enough_init with ⟨s, hmain⟩
  exact ⟨s, hmain, (image_wellFormed hmain (by decide)).mpr (by decide)⟩

/-- Thirty empty files. -/
def thirty : List Input := (List.range 30).map fun k => ⟨[UInt8.ofNat (97 + k)], []⟩

/-- With thirty files the root has a block fewer than its size says. -/
theorem thirty_not_wellFormed : ∃ s, main thirty start = .ok ((), s) ∧ ¬ (WellFormed s ∧ NeverAllocates s) := by
  rcases main_returns (by decide) (show Enough thirty from ⟨by decide, by decide⟩) with ⟨s, hmain⟩
  rcases exists_written hmain (by decide) with ⟨nd, h⟩
  refine ⟨s, hmain, fun hwf => ?_⟩
  exact (h.wellFormed_iff (by decide)).mp hwf.1 (by decide)

/-! ### Reading back -/

/-- A string is read as a name. -/
theorem nameOf_strOf_take {l : List UInt8} (hnul : 0 ∉ l) : nameOf (strOf l) = l.take DIRSIZ := by
  refine cstr_eq DIRSIZ (fun j hj => ?_) (fun h0 => hnul (List.mem_of_mem_take h0)) (List.length_take_le _ _) fun hlt => ?_
  · rw [List.length_take] at hj
    rw [Nat.zero_add, List.getD_eq_getElem?_getD, List.getElem?_take, if_pos (by omega)]
    exact List.getD_eq_getElem?_getD
  · rw [List.length_take] at hlt
    change l.getD (0 + (l.take DIRSIZ).length) 0 = 0
    rw [List.getD_eq_default _ _ (by rw [List.length_take]; omega)]

theorem nul_not_mem_stem {f : Input} (hok : f.Ok) : 0 ∉ f.stem := by
  have hname := hok.name
  unfold Input.stem
  split
  · exact List.not_mem_nil
  · rename_i c l heq
    rw [heq] at hname
    split
    · exact fun h0 => hname (List.mem_cons_of_mem _ h0)
    · exact hname

/-- A kernel that has the image and has the root locked in slot `dp`, and no other inode; it has changed no inode,
    and has a slot for one more. -/
structure Mounted (s : State) (dp : Nat) (K : Fs.State) : Prop extends Boots s K where
  live : 0 < (K.icache dp).ref
  root : K.inum dp = ROOTINO
  valid : (K.icache dp).valid = true
  unlocked : ∀ j, j ≠ dp → (K.icache j).locked = false
  copies : ∀ j, 0 < (K.icache j).ref → K.copy j = K.disk (K.inum j)
  free : FreeSlot K

/-- `dirlookup`, `ilock` and `readi` find inode `n`, which is a file with these bytes. -/
def Finds (K : Fs.State) (dp : Nat) (f : Input) (n : Nat) : Prop :=
  ∃ ip off t u, dirlookup dp (strOf f.stem) K = .ok (some (ip, off), t) ∧ t.inum ip = n ∧
    ilock ip t = .ok ((), u) ∧ (u.din ip).type = T_FILE ∧ (u.din ip).size = f.bytes.length ∧
    ∀ o c, o ≤ f.bytes.length → o + c < 2 ^ 32 →
      readi ip o c u = .ok (some ((f.bytes.drop o).take c), u)

theorem Mounted.din (h : Written files nd s) (hK : Mounted s dp K) : K.din dp = nd 1 := by
  have hcopy := hK.copies dp hK.live
  unfold State.copy at hcopy
  rw [if_pos hK.valid, hK.root] at hcopy
  exact hcopy.trans (hK.toBoots.disk h (by decide))

/-- The offsets at which `dirlookup` looks: the first `k` entries, and what is behind them. -/
theorem direntOffs_rootSize (hk : k ≤ files.length + 2) : ∃ l, direntOffs (rootSize files) =
    (List.range' 0 k).map (DIRENTSIZE * ·) ++ l := by
  have hroot := length_le_rootSize files
  obtain ⟨c, hc⟩ : ∃ c, (rootSize files + (DIRENTSIZE - 1)) / DIRENTSIZE = k + c := by
    refine Nat.exists_eq_add_of_le ?_
    unfold DIRENTSIZE at *
    omega
  refine ⟨(List.range' (0 + k) c).map (DIRENTSIZE * ·), ?_⟩
  unfold direntOffs
  rw [hc, List.range_eq_range', ← List.map_append, List.range'_append_1]

/-- An entry that was written is read. -/
theorem Mounted.readDirent (h : Written files nd s) (hK : Mounted s dp K) (hle : files.length + 1 ≤ NINODES)
    {c : List UInt8} (hc : (rootList files)[k]? = some c) (p : Panic) :
    readDirent p dp (DIRENTSIZE * k) K = .ok (Fs.direntOf c, K) := by
  have hdin := hK.din h
  rcases List.getElem?_eq_some_iff.mp hc with ⟨hk, -⟩
  rw [length_rootList] at hk
  refine readDirent_piece (hK.toBoots.onDisk h hdin) hK.held (hdin ▸ h.notDev 1) ?_ ?_ ?_
  · rw [hdin, h.rootSize]
    exact rootSize_le hle
  · have hlt : DIRENTSIZE * k / BSIZE * BSIZE < DIRENTSIZE * (files.length + 2) := by
      refine Nat.lt_of_le_of_lt (Nat.div_mul_le_self _ _) ?_
      exact Nat.mul_lt_mul_of_pos_left hk (by decide)
    have hmax := h.rootSolid.size
    have hbn : DIRENTSIZE * k / BSIZE < MAXFILE := Nat.lt_of_mul_lt_mul_right (Nat.lt_of_lt_of_le hlt hmax)
    rw [hdin, hK.block]
    exact (h.rootSolid.slots _ hbn).mpr hlt
  · rw [hK.toBoots.contents hdin]
    exact h.dirent hle hc

/-- `dirlookup` with the first `k` entries, if one of them has the name, and all that have it are for inode `n`. -/
theorem Mounted.dirlookup (h : Written files nd s) (hK : Mounted s dp K) (hle : files.length + 1 ≤ NINODES) (name : Str)
    (hk : k ≤ files.length + 2)
    (hfound : ∃ j c, j < k ∧ (rootList files)[j]? = some c ∧ (Fs.direntOf c).inum ≠ 0 ∧
      nameOf (Fs.direntOf c).fname = nameOf name)
    (honly : ∀ j c, j < k → (rootList files)[j]? = some c → nameOf (Fs.direntOf c).fname = nameOf name →
      (Fs.direntOf c).inum = n) :
    ∃ ip off t, Fs.dirlookup dp name K = .ok (some (ip, off), t) ∧ Got n ip K t := by
  have hdin := hK.din h
  have htype : (K.din dp).type = T_DIR := by rw [hdin, h.rootType]
  have hsize : (K.din dp).size = rootSize files := by rw [hdin, h.rootSize]
  obtain ⟨es, hes⟩ : ∃ es, es = ((rootList files).take k).map Fs.direntOf := ⟨_, rfl⟩
  have hget : ∀ (j : Nat) (e : Dirent), es[j]? = some e →
      ∃ c, j < k ∧ (rootList files)[j]? = some c ∧ e = Fs.direntOf c := by
    intro j e he
    rw [hes, List.getElem?_map, Option.map_eq_some_iff, List.getElem?_take] at he
    rcases he with ⟨c, hc, rfl⟩
    split at hc
    · rename_i hj
      exact ⟨c, hj, hc, rfl⟩
    · cases hc
  have hlen : es.length = 0 + k := by
    rw [hes, List.length_map, List.length_take, length_rootList, Nat.zero_add]
    exact Nat.min_eq_left hk
  rcases direntOffs_rootSize hk with ⟨l, hl⟩
  have hlookup : wp (fun _ => False) (Fs.dirlookup dp name)
      (fun r t => ∃ ip off, r = some (ip, off) ∧ Got n ip K t) K := by
    unfold State.din at htype hsize
    unfold Fs.dirlookup
    apply wp_get_bind
    rw [if_neg (not_not.mpr htype), hsize, hl]
    refine wp_dirlookupLoop (fun j e he p => ?_) (Or.inr hK.free) (fun hmiss => ?_) (fun j e ip t he _ hname hgot => ?_)
      k 0 hlen fun j e hj => absurd hj (Nat.not_lt_zero j)
    · rcases hget j e he with ⟨c, -, hc, rfl⟩
      exact hK.readDirent h hle hc p
    · rcases hfound with ⟨j, c, hj, hc, hlive, hname⟩
      refine absurd hname (hmiss j _ ?_ hlive)
      rw [hes, List.getElem?_map, List.getElem?_take, if_pos hj, hc]
      rfl
    · rcases hget j e he with ⟨c, hj, hc, rfl⟩
      rw [honly j c hj hc hname] at hgot
      exact ⟨ip, _, rfl, hgot⟩
  rcases wp_total hlookup with ⟨r, t, hrun, ip, off, rfl, hgot⟩
  exact ⟨ip, off, t, hrun, hgot⟩

/-- The only entry with the name of a file is the one of the file. -/
theorem entry_unique (hok : ∀ f ∈ files, f.Ok)
    (hnames : files.Pairwise fun f g => f.stem.take DIRSIZ ≠ g.stem.take DIRSIZ)
    (hdots : ∀ f ∈ files, f.stem.take DIRSIZ ≠ DOT ∧ f.stem.take DIRSIZ ≠ DOTDOT) {f : Input} (hf : files[i]? = some f)
    {c : List UInt8} (hc : (rootList files)[k]? = some c)
    (hname : nameOf (Fs.direntOf c).fname = nameOf (strOf f.stem)) : c = Mkfs.direntOf (2 + i) f.stem := by
  have hmem := List.mem_of_getElem? hf
  rw [nameOf_strOf_take (nul_not_mem_stem (hok f hmem))] at hname
  have hentry : ∀ m l, 0 ∉ l → nameOf (Fs.direntOf (Mkfs.direntOf m l)).fname = l.take DIRSIZ := fun m l hl =>
    (nameOf_direntBytes (xshort m) (strOf l)).trans (nameOf_strOf_take hl)
  rcases getElem?_rootList files k c hc with ⟨-, rfl⟩ | ⟨-, rfl⟩ | ⟨j, g, -, hg, rfl⟩
  · rw [hentry 1 DOT (by decide)] at hname
    exact absurd hname.symm (hdots f hmem).1
  · rw [hentry 1 DOTDOT (by decide)] at hname
    exact absurd hname.symm (hdots f hmem).2
  · rw [hentry _ _ (nul_not_mem_stem (hok g (List.mem_of_getElem? hg)))] at hname
    rcases List.getElem?_eq_some_iff.mp hf with ⟨hi, hfi⟩
    rcases List.getElem?_eq_some_iff.mp hg with ⟨hj, hgj⟩
    have hpair := List.pairwise_iff_getElem.mp hnames
    rcases Nat.lt_trichotomy i j with hlt | heq | hgt
    · refine absurd hname.symm ?_
      rw [← hfi, ← hgj]
      exact hpair i j hi hj hlt
    · subst heq
      rw [hf, Option.some.injEq] at hg
      rw [hg]
    · refine absurd hname ?_
      rw [← hfi, ← hgj]
      exact hpair j i hj hi hgt

/-- `ilock` gets the copy of the inode that the slot stands for. -/
theorem ilock_copy {i : Nat} (href : 0 < (K.icache i).ref) (hlocked : (K.icache i).locked = false) (hheld : K.held = [])
    (hb : K.sb.iblock (K.inum i) < FSSIZE) (htype : (K.copy i).type ≠ 0) :
    ∃ u, ilock i K = .ok ((), u) ∧ u.din i = K.copy i ∧ u.block = K.block ∧ u.sb = K.sb ∧ u.held = [] := by
  unfold State.copy at htype ⊢
  unfold ilock
  rw [get_bind, if_neg (by omega), if_neg (by rw [hlocked]; decide), modify_bind]
  by_cases hvalid : (K.icache i).valid = true
  · rw [if_pos hvalid, if_pos hvalid]
    refine ⟨_, rfl, ?_, rfl, rfl, hheld⟩
    unfold State.din
    rw [setInode_self]
  · rw [if_neg hvalid] at htype ⊢
    rw [if_neg hvalid]
    obtain ⟨v, hv⟩ : ∃ v, v = K.setInode i { K.icache i with locked := true } := ⟨_, rfl⟩
    have hinum : (v.icache i).inum = K.inum i := by rw [hv, setInode_self, State.inum]
    have hdisk : v.disk (v.icache i).inum = K.disk (K.inum i) := by
      rw [hinum, hv]
      rfl
    have hsb : v.sb = K.sb := by rw [hv]; rfl
    have hvheld : v.held = [] := by
      rw [hv]
      exact hheld
    rw [← hv, ifetch_ok hvheld (by rw [hinum, hsb]; exact hb) (by rw [hdisk]; exact htype)]
    refine ⟨_, rfl, ?_, ?_, ?_, hvheld⟩
    · unfold State.din
      rw [setInode_self]
      exact hdisk
    · change v.block = _
      rw [hv]
      rfl
    · exact hsb

/-- After `iget`, the slot is for an inode of the image, and its lock is free. -/
theorem Mounted.got (hK : Mounted s dp K) (hn : n ≠ ROOTINO) (hgot : Got n ip K t) :
    0 < (t.icache ip).ref ∧ (t.icache ip).locked = false ∧ t.copy ip = K.disk n := by
  have hne : ∀ x : Inode, (K.setInode ip x).icache ip = x := fun x => setInode_self K ip x
  have hdisk : ∀ m x, (K.setInode ip x).disk m = K.disk m := fun _ _ => rfl
  cases hgot with
  | cached hip href hinum =>
    have hslot : ip ≠ dp := by
      rintro rfl
      exact hn (hinum.symm.trans hK.root)
    have hcopy := hK.copies ip href
    unfold State.copy State.inum at *
    rw [hne, hdisk]
    rw [hinum] at hcopy ⊢
    refine ⟨?_, hK.unlocked ip hslot, hcopy⟩
    change 0 < (K.icache ip).ref + 1
    omega
  | fresh hip href hnone =>
    have hslot : ip ≠ dp := by
      rintro rfl
      have := hK.live
      omega
    unfold State.copy
    rw [hne, hdisk]
    exact ⟨Int.one_pos, hK.unlocked ip hslot, if_neg Bool.false_ne_true⟩

/-- The kernel finds every file under its name, with its bytes. -/
theorem mkfs_read_back (hmain : main files start = .ok ((), s)) (hle : files.length + 1 ≤ NINODES)
    (hok : ∀ f ∈ files, f.Ok) (hnames : files.Pairwise fun f g => f.stem.take DIRSIZ ≠ g.stem.take DIRSIZ)
    (hdots : ∀ f ∈ files, f.stem.take DIRSIZ ≠ DOT ∧ f.stem.take DIRSIZ ≠ DOTDOT) (hK : Mounted s dp K)
    {f : Input} (hf : files[i]? = some f) : Finds K dp f (2 + i) := by
  rcases exists_written hmain hle with ⟨nd, h⟩
  rcases List.getElem?_eq_some_iff.mp hf with ⟨hi, -⟩
  have hm : 2 + i < NINO := by
    have : NINODES + 1 ≤ NINO := by decide
    omega
  have hfile := h.file i f hf
  have hsolid := h.solid (2 + i) (by omega)
  have hin : (rootList files)[2 + i]? = some (Mkfs.direntOf (2 + i) f.stem) := by
    unfold rootList
    rw [Nat.add_comm, List.getElem?_cons_succ, List.getElem?_cons_succ, getElem?_entryList, hf, Nat.add_comm]
    rfl
  have hinum := inum_entry hle hf
  have hlookup := hK.dirlookup (n := 2 + i) h hle (strOf f.stem) (Nat.le_refl _)
    ⟨2 + i, _, by omega, hin, by omega, nameOf_direntBytes _ _⟩ fun j c _ hc hname => by
      rw [entry_unique hok hnames hdots hf hc hname, hinum]
  rcases hlookup with ⟨ip, off, t, hrun, hgot⟩
  rcases hK.got (by unfold ROOTINO; omega) hgot with ⟨href, hlocked, hcopy⟩
  have halike := hgot.alike
  rw [hK.toBoots.disk h hm] at hcopy
  rcases ilock_copy href hlocked (halike.held.trans hK.held) (by rw [halike.sb, hgot.inum]; exact hK.toBoots.iblock_lt h hm)
    (by rw [hcopy, hfile.1]; decide) with ⟨u, hlock, hdin, hblock, hsb, hheld⟩
  rw [hcopy] at hdin
  have hu : Boots s u := by
    constructor
    · rw [hblock, halike.block, hK.block]
    · rw [hsb, halike.sb, hK.super]
    · exact hheld
  have hsize : (nd (2 + i)).size = f.bytes.length := by rw [← hfile.2, length_content]
  refine ⟨ip, off, t, u, hrun, hgot.inum, hlock, ?_, ?_, fun o c ho hc => ?_⟩
  · rw [hdin]
    exact hfile.1
  · rw [hdin]
    exact hsize
  · rw [← hfile.2]
    refine hu.readi h hdin (fun bn hbn => ?_) (by rw [hsize]; exact ho) hc
    have hbn' : bn < MAXFILE := Nat.lt_of_mul_lt_mul_right (Nat.lt_of_lt_of_le hbn hsolid.size)
    exact ⟨hbn', (hsolid.slots bn hbn').mpr hbn⟩

/-! ### Mounting -/

/-- The kernel after it has locked the root. -/
def mount (s : State) : Fs.State where
  block := s.img
  held := []
  logged := []
  outstanding := 0
  logSize := LOGSIZE
  sb := superOf (s.img 1)
  icache := fun i => if i = 0 then ⟨ROOTINO, 1, true, true, s.node ROOTINO⟩ else ⟨0, 0, false, false, Dinode.zero⟩
  ftable := fun _ => ⟨.none, 0, false, false, 0⟩
  pipe := fun _ => ⟨[], false, false⟩
  procs := fun _ => ⟨none, fun _ => none, false⟩
  proc := 0
  input := []
  taken := []
  freed := []

theorem mount_mounted (h : Written files nd s) : Mounted s 0 (mount s) := by
  have hK : Boots s (mount s) := ⟨rfl, rfl, rfl⟩
  have h1 : ROOTINO < NINO := by decide
  refine ⟨hK, Int.one_pos, rfl, rfl, fun j hj => ?_, fun j hj => ?_, ⟨1, by decide, rfl⟩⟩
  · change (ite _ _ _ : Inode).locked = false
    rw [if_neg hj]
  · change 0 < (ite _ _ _ : Inode).ref at hj
    by_cases h0 : j = 0
    · rw [h0]
      change s.node ROOTINO = (mount s).disk ROOTINO
      rw [hK.disk h h1, h.table _ h1]
    · rw [if_neg h0] at hj
      exact absurd hj (Int.lt_irrefl 0)

theorem mkfs_read_back_init : ∃ s, main [init] start = .ok ((), s) ∧ Finds (mount s) 0 init 2 := by
  rcases main_returns (by decide) enough_init with ⟨s, hmain⟩
  rcases exists_written hmain (by decide) with ⟨nd, h⟩
  refine ⟨s, hmain, mkfs_read_back (i := 0) hmain (by decide) ?_ (List.pairwise_singleton _ _) (by decide)
    (mount_mounted h) rfl⟩
  intro f hf
  rw [List.mem_singleton] at hf
  rw [hf]
  exact ⟨by decide, by decide⟩

/-- An empty file with the name of the root's own entry, after the underscore. -/
def dot : Input := ⟨[95, 46], []⟩

theorem dot_not_found : ∃ s, main [dot] start = .ok ((), s) ∧ dot.Ok ∧ Mounted s 0 (mount s) ∧
    ¬ Finds (mount s) 0 dot 2 := by
  rcases main_returns (by decide) (show Enough [dot] from ⟨by decide, by decide⟩) with ⟨s, hmain⟩
  rcases exists_written hmain (by decide) with ⟨nd, h⟩
  have hK := mount_mounted h
  refine ⟨s, hmain, ⟨by decide, by decide⟩, hK, ?_⟩
  rintro ⟨ip, off, t, u, hrun, hinum, -⟩
  have hfirst : ∀ (j : Nat) (c : List UInt8), j < 1 → (rootList [dot])[j]? = some c → c = Mkfs.direntOf 1 DOT := by
    intro j c hj hc
    obtain rfl : j = 0 := by omega
    exact (Option.some.inj hc).symm
  have hone : (Fs.direntOf (Mkfs.direntOf 1 DOT)).inum = 1 := inum_direntBytes _ (by decide)
  have hlookup := hK.dirlookup (k := 1) (n := 1) h (by decide) (strOf DOT) (by decide)
    ⟨0, _, by decide, rfl, by rw [hone]; decide, nameOf_direntBytes _ _⟩ fun j c hj hc _ => by
      rw [hfirst j c hj hc, hone]
  rcases hlookup with ⟨ip', off', t', hrun', hgot⟩
  have hsame := hrun.symm.trans hrun'
  rw [Except.ok.injEq, Prod.mk.injEq, Option.some.injEq, Prod.mk.injEq] at hsame
  rcases hsame with ⟨⟨rfl, -⟩, rfl⟩
  rw [hgot.inum] at hinum
  exact absurd hinum (by decide)

end Yonix.Mkfs
