/-
  Yonix/Vm/Integrity.lean
  =======================
  **The page queue in every state between system calls.**

  A process owns its page directory from `fork` until its parent reaps it.  `Inv` is
  that the queue is sound for these owners.  Every action keeps it, under a condition
  on the state before it: process identifiers fit in the low bits of an identifier,
  faults are on pages that are not present, and `exec` either brings no page under an
  identifier that is in the queue, or loads with frames to spare.
-/
import Yonix.Vm.Exec

namespace Yonix.Vm

variable {s t : Core}

/-! ### Owners -/

def owns (s : Core) (pid d : Nat) : Prop := ∃ P, s.procs pid = some P ∧ P.page = d

theorem owns_uniq {pid d : Nat} {P : Proc} (hP : s.procs pid = some P) (h : owns s pid d) :
    d = P.page := by
  obtain ⟨Q, hQ, rfl⟩ := h
  rw [hP] at hQ
  cases hQ
  rfl

theorem owns_congr (h : t.procs = s.procs) : owns t = owns s := by
  unfold owns
  rw [h]

theorem procs_setProc (s : Core) (pid : Nat) (P : Option Proc) (pid' : Nat) :
    (s.setProc pid P).procs pid' = if pid' = pid then P else s.procs pid' :=
  Function.update_apply _ _ _ _

/-- A process record with the same directory. -/
theorem owns_setProc {pid : Nat} {P Q : Proc} (hP : s.procs pid = some P) (h : t.procs = s.procs)
    (hQ : Q.page = P.page) : owns (t.setProc pid (some Q)) = owns s := by
  funext pid' d
  simp only [owns, procs_setProc, h]
  by_cases hpid : pid' = pid
  · simp [hpid, hP, hQ]
  · simp [hpid]

theorem owns_setProc_new {pid : Nat} {Q : Proc} (hnone : s.procs pid = none)
    (h : t.procs = s.procs) : owns (t.setProc pid (some Q)) = adopt (owns s) pid Q.page := by
  funext pid' d
  simp only [owns, adopt, procs_setProc, h]
  by_cases hpid : pid' = pid
  · simp [hpid, hnone, eq_comm]
  · simp [hpid]

structure Inv (s : Core) : Prop where
  sound : Sound (owns s) s
  size : ∀ pid P, s.procs pid = some P → P.size < KERNBASE
  pids : ∀ pid P, s.procs pid = some P → pid < s.nextpid

theorem Inv.congr (h : Inv s) (hs : Sound (owns s) t) (hp : t.procs = s.procs)
    (hn : t.nextpid = s.nextpid) : Inv t := by
  refine ⟨?_, ?_, ?_⟩
  · rw [owns_congr hp]
    exact hs
  · rw [hp]
    exact h.size
  · rw [hp, hn]
    exact h.pids

/-- The process records after one of them was written. -/
theorem Inv.setProc_procs {pid : Nat} {Q : Proc} (h : Inv s) (hp : t.procs = s.procs)
    (hn : s.nextpid ≤ t.nextpid) (hpid : pid < t.nextpid) (hsz : Q.size < KERNBASE) :
    ∀ pid' R, (t.setProc pid (some Q)).procs pid' = some R → R.size < KERNBASE ∧ pid' < t.nextpid := by
  intro pid' R hR
  rw [procs_setProc] at hR
  split at hR
  · rename_i hc
    cases hR
    rw [hc]
    exact ⟨hsz, hpid⟩
  · rw [hp] at hR
    exact ⟨h.size pid' R hR, (h.pids pid' R hR).trans_le hn⟩

theorem Inv.setProc {pid : Nat} {P Q : Proc} (h : Inv s) (hP : s.procs pid = some P)
    (hs : Sound (owns s) t) (hp : t.procs = s.procs) (hn : t.nextpid = s.nextpid)
    (hQ : Q.page = P.page) (hsz : Q.size < KERNBASE) : Inv (t.setProc pid (some Q)) := by
  have hall := h.setProc_procs hp hn.ge (hn ▸ h.pids pid P hP) hsz
  refine ⟨?_, fun pid' R hR => (hall pid' R hR).1, fun pid' R hR => (hall pid' R hR).2⟩
  rw [owns_setProc hP hp hQ]
  exact hs.congr rfl rfl rfl hs.count

/-! ### The calls -/

theorem Inv.keysIn {pid : Nat} {P : Proc} {l : List Nat} (h : Inv s) (hP : s.procs pid = some P)
    (hl : ∀ va ∈ l, PGSIZE ∣ va) : KeysIn P.page pid s.pgqueue l := by
  intro va hva e he hkey
  have hown : owns s pid P.page := ⟨P, hP, rfl⟩
  obtain ⟨-, hown', -⟩ := (h.sound.entry e he).of_key h.sound.toBase (hl va hva)
    (h.sound.small pid _ hown) hkey
  exact owns_uniq hP hown'

theorem mem_queuedOf_allocPages {a b va : Nat} (h : va ∈ queuedOf (allocPages a b)) :
    PGSIZE ∣ va := by
  unfold queuedOf allocPages at h
  obtain ⟨p, hp, rfl⟩ := List.mem_map.mp h
  split at hp
  · simp at hp
  · obtain ⟨va, hva, rfl⟩ := List.mem_map.mp (List.mem_filter.mp hp).1
    exact (mem_pages hva).1

theorem allocSize_lt {a b : Nat} (ha : a < KERNBASE) : allocSize a b < KERNBASE := by
  unfold allocSize
  split
  · exact Nat.zero_lt_of_lt ha
  · split <;> omega

theorem Inv.procgrow {pid : Nat} {P : Proc} {n : Int} (h : Inv s) (hP : s.procs pid = some P)
    (ht : procgrow s pid P n = .ok t) : Inv t := by
  have hown : owns s pid P.page := ⟨P, hP, rfl⟩
  have hsize := h.size pid P hP
  unfold Vm.procgrow at ht
  dsimp only at ht
  split at ht
  · obtain ⟨⟨u, sz⟩, hu, ht⟩ := bind_eq_ok.mp ht
    obtain ⟨hs, he, hsz⟩ := allocuvm_spec hown h.sound
      (h.keysIn hP fun va hva => mem_queuedOf_allocPages hva) hu
    dsimp only at ht
    split at ht
    · cases ht
      exact h.congr hs he.procs he.nextpid
    · cases ht
      refine h.setProc hP hs he.procs he.nextpid rfl ?_
      rw [hsz]
      exact allocSize_lt hsize
  · split at ht
    · obtain ⟨⟨u, sz⟩, hu, ht⟩ := bind_eq_ok.mp ht
      obtain ⟨q₁, q₂, -, hsub, hsp, hun, hle, -⟩ :=
        deallocuvm_spec hown (h.sound.split P.page) hu
      have hnil : q₂ = [] := List.sublist_nil.mp hsub
      subst hnil
      have hs : Sound (owns s) u := hsp.sound (by simp)
      dsimp only at ht
      split at ht
      · cases ht
        exact h.congr hs hun.procs hun.nextpid
      · cases ht
        exact h.setProc hP hs hun.procs hun.nextpid rfl (by change sz < _; omega)
    · cases ht
      exact h

theorem Inv.pgfltHandle {pid va : Nat} {P : Proc} (h : Inv s) (hP : s.procs pid = some P)
    (hnp : ¬ Present s P.page (pgrounddown va)) (ht : pgfltHandle s pid P va = .ok t) : Inv t := by
  unfold Vm.pgfltHandle at ht
  dsimp only at ht
  split at ht
  · rename_i hlt
    have hsize := h.size pid P hP
    obtain ⟨hs, he⟩ := pageIn_of_not_present h.sound ⟨P, hP, rfl⟩ (fun d hd => owns_uniq hP hd)
      hnp (Dvd.intro_left _ rfl) (by omega) ht
    exact h.congr hs he.procs he.nextpid
  · cases ht

theorem Inv.store {va : Nat} {P : Proc} {b : UInt8} (h : Inv s)
    (ht : store s P va b = .ok t) : Inv t := by
  unfold Vm.store at ht
  dsimp only at ht
  split at ht
  · cases ht
  · rename_i x hx
    split at ht
    · rename_i hxp
      cases ht
      obtain ⟨hs, -⟩ := h.sound.setPte (x := { x with a := true }) hx hxp.1
      exact h.congr (hs.congr rfl rfl rfl hs.count) rfl rfl
    · cases ht

theorem Inv.fork {ppid : Nat} {P : Proc} (h : Inv s) (hP : s.procs ppid = some P)
    (hpid : s.nextpid ≤ MAX_PID) (ht : fork s ppid P = .ok t) : Inv t := by
  have hnone : s.procs s.nextpid = none := by
    cases hQ : s.procs s.nextpid with
    | none => rfl
    | some Q => exact absurd (h.pids _ Q hQ) (Nat.lt_irrefl _)
  have hs0 : Sound (owns s) { s with nextpid := s.nextpid + 1 } :=
    h.sound.congr rfl rfl rfl h.sound.count
  unfold Vm.fork at ht
  dsimp only at ht
  obtain ⟨⟨u, o⟩, hu, ht⟩ := bind_eq_ok.mp ht
  obtain ⟨hsu, heu, k, rfl⟩ := kalloc_spec hs0 hu
  obtain ⟨⟨v, o'⟩, hv, ht⟩ := bind_eq_ok.mp ht
  unfold copyuvm at hv
  obtain ⟨⟨w, o''⟩, hw, hv⟩ := bind_eq_ok.mp hv
  obtain ⟨rfl, hsw, hpw, hnw, -⟩ := setupkvm_spec hsu hpid hw
  dsimp only at hv
  obtain ⟨⟨z, r⟩, hz, hv⟩ := bind_eq_ok.mp hv
  have hne : ppid ≠ s.nextpid := (h.pids ppid P hP).ne
  have hfresh : ∀ d, owns s s.nextpid d → d = u.nextDir := by
    rintro d ⟨Q, hQ, -⟩
    rw [hnone] at hQ
    cases hQ
  have hsd : ∀ d, adopt (owns s) s.nextpid u.nextDir ppid d → d = P.page := by
    rintro d (hd | ⟨hd, -⟩)
    · exact owns_uniq hP hd
    · exact absurd hd hne
  have htd : ∀ d, adopt (owns s) s.nextpid u.nextDir s.nextpid d → d = u.nextDir := by
    rintro d (hd | ⟨-, hd⟩)
    · exact hfresh d hd
    · exact hd
  have hpages : ∀ va ∈ pages 0 P.size, PGSIZE ∣ va ∧ va < KERNBASE := by
    intro va hva
    obtain ⟨h1, h2⟩ := mem_pages hva
    exact ⟨h1, h2.trans (h.size ppid P hP)⟩
  obtain ⟨hsz, hpz, hnz, rfl⟩ :=
    copyLoop_spec (Or.inl ⟨P, hP, rfl⟩) (Or.inr ⟨rfl, rfl⟩) hsd htd _ hsw hpages hz
  cases hv
  cases ht
  have hprocs : v.procs = s.procs := hpz.trans (hpw.trans heu.procs)
  have hnext : v.nextpid = s.nextpid + 1 := hnz.trans (hnw.trans heu.nextpid)
  have hall := h.setProc_procs (Q := ⟨u.nextDir, P.size, k, false⟩) hprocs (by omega)
    (by omega : s.nextpid < v.nextpid) (h.size ppid P hP)
  refine ⟨?_, fun pid' R hR => (hall pid' R hR).1, fun pid' R hR => (hall pid' R hR).2⟩
  rw [owns_setProc_new hnone hprocs]
  exact hsz.congr rfl rfl rfl hsz.count

theorem Inv.wait {pid : Nat} {P : Proc} (h : Inv s) (hP : s.procs pid = some P)
    (ht : wait s pid P = .ok t) : Inv t := by
  have hown : owns s pid P.page := ⟨P, hP, rfl⟩
  unfold Vm.wait at ht
  obtain ⟨u, hu, ht⟩ := bind_eq_ok.mp ht
  cases ht
  have hk : Sound (owns s) (kfree s P.kstack) :=
    h.sound.congr rfl rfl rfl (congrArg (· + 1) h.sound.count)
  obtain ⟨q₁, q₂, -, hsub, hsp, hprocs, hnext⟩ := freeuvm_spec hown (hk.split P.page) hu
  have hnil : q₂ = [] := List.sublist_nil.mp hsub
  subst hnil
  have hs : Sound (disown (owns s) P.page) u := hsp.sound (by simp)
  replace hprocs : u.procs = s.procs := hprocs
  replace hnext : u.nextpid = s.nextpid := hnext
  have hsub : ∀ pid' R, (u.setProc pid none).procs pid' = some R →
      pid' ≠ pid ∧ s.procs pid' = some R := by
    intro pid' R hR
    rw [procs_setProc] at hR
    split at hR
    · cases hR
    · rename_i hpid
      rw [hprocs] at hR
      exact ⟨hpid, hR⟩
  refine ⟨?_, fun pid' R hR => h.size pid' R (hsub pid' R hR).2, ?_⟩
  · have heq : owns (u.setProc pid none) = disown (owns s) P.page := by
      funext pid' d
      apply propext
      constructor
      · rintro ⟨R, hR, rfl⟩
        obtain ⟨hne, hR⟩ := hsub pid' R hR
        refine ⟨⟨R, hR, rfl⟩, fun hd => hne ?_⟩
        exact h.sound.owner pid' pid _ ⟨R, hR, rfl⟩ (hd ▸ hown)
      · rintro ⟨⟨R, hR, rfl⟩, hne⟩
        refine ⟨R, ?_, rfl⟩
        have hpid : pid' ≠ pid := by
          rintro rfl
          rw [hP] at hR
          cases hR
          exact hne rfl
        rw [procs_setProc, if_neg hpid, hprocs]
        exact hR
    rw [heq]
    exact hs.congr rfl rfl rfl hs.count
  · intro pid' R hR
    change pid' < u.nextpid
    rw [hnext]
    exact h.pids pid' R (hsub pid' R hR).2

/-! ### `exec` -/

/-- No page of the new image comes under an identifier that is in the queue. -/
def NoClash (s : Core) (pid : Nat) (img : Image) : Prop :=
  ∀ va ∈ queuedOf (plan img).1, ∀ e ∈ s.pgqueue, e.key ≠ va ||| pid

/-- The new image loads, and the free frames are enough for it. -/
def Spare (s : Core) (img : Image) : Prop :=
  (plan img).2 = true ∧ setupFrames + framesFor [] s.slabs (plan img).1 ≤ s.nfreeblock

/-- The process has moved to the new directory and the old one is gone. -/
theorem owns_exec {pid d : Nat} {P Q : Proc} (h : Inv s) (hP : s.procs pid = some P)
    (hQ : Q.page = d) (hne : d ≠ P.page) (ht : t.procs = s.procs) :
    owns (t.setProc pid (some Q)) = disown (adopt (owns s) pid d) P.page := by
  funext pid' d'
  apply propext
  constructor
  · rintro ⟨R, hR, rfl⟩
    rw [procs_setProc] at hR
    split at hR
    · rename_i hpid
      cases hR
      exact ⟨Or.inr ⟨hpid, hQ⟩, fun hc => hne (hQ.symm.trans hc)⟩
    · rename_i hpid
      rw [ht] at hR
      refine ⟨Or.inl ⟨R, hR, rfl⟩, fun hc => hpid ?_⟩
      exact h.sound.owner pid' pid R.page ⟨R, hR, rfl⟩ ⟨P, hP, hc.symm⟩
  · rintro ⟨⟨R, hR, rfl⟩ | ⟨rfl, rfl⟩, hne'⟩
    · refine ⟨R, ?_, rfl⟩
      have hpid : pid' ≠ pid := by
        rintro rfl
        rw [hP] at hR
        cases hR
        exact hne' rfl
      rw [procs_setProc, if_neg hpid, ht]
      exact hR
    · refine ⟨Q, ?_, hQ⟩
      rw [procs_setProc, if_pos rfl]

/-- The end of an `exec` that loaded its image into directory `d`. -/
theorem Inv.exec_commit {pid d sz : Nat} {P : Proc} {q₁ q₂ : List Entry} {u : Core} (h : Inv s)
    (hP : s.procs pid = some P) (hne : d ≠ P.page)
    (hsp : Split (adopt (owns s) pid d) P.page q₁ q₂ u) (hpu : u.procs = s.procs)
    (hnu : u.nextpid = s.nextpid) (hsz : sz < KERNBASE)
    (hdisj : ∀ e ∈ q₁, ∀ e' ∈ q₂, e.key = e'.key → e.dir = P.page)
    (ht : freeuvm (u.setProc pid (some { P with page := d, size := sz })) P.page pid = .ok t) :
    Inv t := by
  have hown : adopt (owns s) pid d pid P.page := Or.inl ⟨P, hP, rfl⟩
  have hsp0 : Split (adopt (owns s) pid d) P.page q₁ q₂
      (u.setProc pid (some { P with page := d, size := sz })) := hsp.congr rfl rfl rfl hsp.count
  obtain ⟨q₁', q₂', hsub₁, hsub₂, hsp', hprocs, hnext⟩ := freeuvm_spec hown hsp0 ht
  have hs : Sound (disown (adopt (owns s) pid d) P.page) t := by
    refine hsp'.sound fun e he e' he' hkey => ?_
    have hmem : e ∈ t.pgqueue := by
      rw [hsp'.queue]
      exact List.mem_append_left _ he
    obtain ⟨_, h1, -⟩ := hsp'.entry e hmem
    exact h1.2 (hdisj e (hsub₁.mem he) e' (hsub₂.mem he') hkey)
  have hall := h.setProc_procs (Q := { P with page := d, size := sz }) hpu hnu.ge
    (hnu ▸ h.pids pid P hP) hsz
  rw [← hprocs] at hall
  refine ⟨?_, fun pid' R hR => (hall pid' R hR).1, ?_⟩
  · rw [owns_congr hprocs, owns_exec h hP rfl hne hpu]
    exact hs
  · intro pid' R hR
    rw [hnext]
    exact (hall pid' R hR).2

/-- The end of an `exec` that did not. -/
theorem Inv.exec_bad {pid d : Nat} {u : Core} (h : Inv s)
    (hfresh : ∀ pid' d', owns s pid' d' → d' ≠ d) (hs : Sound (adopt (owns s) pid d) u)
    (hpu : u.procs = s.procs) (hnu : u.nextpid = s.nextpid) (ht : freeuvm u d pid = .ok t) :
    Inv t := by
  obtain ⟨q₁, q₂, -, hsub, hsp, hprocs, hnext⟩ :=
    freeuvm_spec (Or.inr ⟨rfl, rfl⟩) (hs.split d) ht
  have hnil : q₂ = [] := List.sublist_nil.mp hsub
  subst hnil
  have heq : disown (adopt (owns s) pid d) d = owns s := by
    funext pid' d'
    apply propext
    constructor
    · rintro ⟨hd | ⟨-, hd⟩, hne⟩
      · exact hd
      · exact absurd hd hne
    · exact fun hd => ⟨Or.inl hd, hfresh pid' d' hd⟩
  have hs' := hsp.sound (by simp)
  rw [heq] at hs'
  exact h.congr hs' (hprocs.trans hpu) (hnext.trans hnu)

theorem Inv.exec {pid : Nat} {P : Proc} {img : Image} (h : Inv s) (hP : s.procs pid = some P)
    (hc : NoClash s pid img ∨ Spare s img) (ht : exec s pid P img = .ok t) : Inv t := by
  have hown : owns s pid P.page := ⟨P, hP, rfl⟩
  have hsmall := h.sound.small pid _ hown
  unfold Vm.exec at ht
  split at ht
  · cases ht
    exact h
  · obtain ⟨⟨u, o⟩, hu, ht⟩ := bind_eq_ok.mp ht
    obtain ⟨rfl, hsu, hpu, hnu, hqu⟩ := setupkvm_spec h.sound hsmall hu
    have hfresh : ∀ pid' d', owns s pid' d' → d' ≠ s.nextDir := by
      rintro pid' d' hd rfl
      exact h.sound.live pid' _ hd (h.sound.fresh _ (Nat.le_refl _))
    have hne : s.nextDir ≠ P.page := fun hc => hfresh pid P.page hown hc.symm
    have hnew : adopt (owns s) pid s.nextDir pid s.nextDir := Or.inr ⟨rfl, rfl⟩
    dsimp only at ht
    obtain ⟨⟨v, o'⟩, hv, ht⟩ := bind_eq_ok.mp ht
    rcases hc with hc | ⟨hplan, hroom⟩
    · have hk : KeysIn s.nextDir pid u.pgqueue (queuedOf (plan img).1) := by
        intro va hva e he hkey
        obtain ⟨e', he', -, -, hkey'⟩ := hqu e he
        exact absurd (hkey'.symm.trans hkey) (hc va hva e' he')
      obtain ⟨hsv, hev, hlt⟩ := buildImage_spec hnew hsu hk hv
      cases o' with
      | none => exact h.exec_bad hfresh hsv (hev.procs.trans hpu) (hev.nextpid.trans hnu) ht
      | some sz =>
        exact h.exec_commit hP hne (hsv.split P.page) (hev.procs.trans hpu)
          (hev.nextpid.trans hnu) (hlt sz rfl) (by simp) ht
    · obtain ⟨hq, hsl, hfree⟩ := setupkvm_quiet h.sound.count (by omega) hu
      have hcalm : Calm (adopt (owns s) pid s.nextDir) P.page s.nextDir u.pgqueue u :=
        ⟨[], hsu.split P.page, by simp⟩
      have haff : Affords s.nextDir u (plan img).1 := ⟨[], by simp, by rw [hsl]; omega⟩
      obtain ⟨⟨q', hsp, hd⟩, hpv, hnv, sz, rfl, hlt⟩ := buildImage_calm hne hnew hcalm haff hplan hv
      refine h.exec_commit hP hne hsp (hpv.trans hpu) (hnv.trans hnu) hlt ?_ ht
      -- an old entry under an identifier of the new image is one of the old directory
      intro e he e' he' hkey
      rw [hq] at he
      have hmem' : e' ∈ v.pgqueue := by
        rw [hsp.queue]
        exact List.mem_append_right _ he'
      obtain ⟨pid', h1, h2, -, h4, -⟩ := hsp.entry e' hmem'
      rw [hd e' he'] at h1
      have hpid : pid' = pid := hsp.owner pid' pid _ h1 hnew
      subst hpid
      obtain ⟨-, h5, -⟩ := (h.sound.entry e he).of_key h.sound.toBase h4 hsmall (hkey.trans h2)
      exact owns_uniq hP h5

/-! ### Runs -/

/-- When an action keeps the queue right. -/
def Sane (s : Core) : Act → Prop
  | .call _ .fork => s.nextpid ≤ MAX_PID
  | .call pid (.exec img) => img.header = true → NoClash s pid img ∨ Spare s img
  | .call pid (.fault va) =>
    ∀ P, s.procs pid = some P → ¬ Present s P.page (pgrounddown va)
  | _ => True

theorem Inv.call {pid : Nat} {P : Proc} {c : Call} (h : Inv s) (hP : s.procs pid = some P)
    (hc : Sane s (.call pid c)) (ht : call s pid P c = .ok t) : Inv t := by
  cases c with
  | fork => exact h.fork hP hc ht
  | sbrk n => exact h.procgrow hP ht
  | exec img =>
    cases hh : img.header with
    | false =>
      simp only [Vm.call, Vm.exec, hh, if_true] at ht
      cases ht
      exact h
    | true => exact h.exec hP (hc hh) ht
  | exit =>
    cases ht
    exact h.setProc hP h.sound rfl rfl rfl (h.size pid P hP)
  | fault va =>
    have ht' : Vm.pgfltHandle s pid P va = .ok t := by
      unfold Vm.call at ht
      dsimp only at ht
      split at ht
      · split at ht
        · cases ht
        · exact ht
      · exact ht
    exact h.pgfltHandle hP (hc P hP) ht'
  | store va b => exact h.store ht

/-- Reading the reference bits from the page tables. -/
theorem Inv.readRef {pid : Nat} {ref : Nat → Bool} (h : Inv s) :
    Inv { s with
      pgqueue := s.pgqueue.map fun e =>
        if pteFlags e.key = pid then { e with ref := ref e.va } else e } := by
  have hsame : ∀ e : Entry,
      SamePage (if pteFlags e.key = pid then { e with ref := ref e.va } else e) e := by
    intro e
    split <;> exact ⟨rfl, rfl, rfl⟩
  have hall : List.Forall₂ SamePage (s.pgqueue.map fun e =>
      if pteFlags e.key = pid then { e with ref := ref e.va } else e) s.pgqueue := by
    rw [List.forall₂_map_left_iff]
    exact List.forall₂_same.mpr fun e _ => hsame e
  refine h.congr ⟨⟨h.sound.count, h.sound.owner, h.sound.small, h.sound.live, h.sound.fresh⟩,
    ?_, ?_⟩ rfl rfl
  · intro e he
    obtain ⟨e', he', h1, h2, h3⟩ := mem_of_samePage hall he
    obtain ⟨pid', h4⟩ := h.sound.entry e' he'
    refine ⟨pid', ?_⟩
    rw [h1, h2, h3]
    exact h4
  · rw [map_key_of_samePage hall]
    exact h.sound.nodup

theorem Inv.act {a : Act} (h : Inv s) (hc : Sane s a) (ht : act s a = .ok t) : Inv t := by
  cases a with
  | call pid c =>
    unfold Vm.act at ht
    dsimp only at ht
    split at ht
    · rename_i P hP
      split at ht
      · cases ht
      · exact h.call hP hc ht
    · cases ht
  | wait pid =>
    unfold Vm.act at ht
    dsimp only at ht
    split at ht
    · rename_i P hP
      split at ht
      · exact h.wait hP ht
      · cases ht
    · cases ht
  | readRef pid ref =>
    cases ht
    exact h.readRef
  | kalloc =>
    obtain ⟨⟨u, o⟩, hu, ht⟩ := bind_eq_ok.mp ht
    obtain ⟨hs, he, f, rfl⟩ := kalloc_spec h.sound hu
    cases ht
    exact h.congr (hs.congr rfl rfl rfl hs.count) he.procs he.nextpid
  | kfree f =>
    unfold Vm.act at ht
    dsimp only at ht
    split at ht
    · cases ht
      exact h.congr (h.sound.congr rfl rfl rfl (congrArg (· + 1) h.sound.count)) rfl rfl
    · cases ht
  | allocSlab =>
    obtain ⟨hs, he⟩ := allocSlab_spec h.sound ht
    exact h.congr hs he.procs he.nextpid
  | freeSlab =>
    cases ht
    exact h.congr (h.sound.congr rfl rfl rfl h.sound.count) rfl rfl

theorem Inv.boot {l : List Nat} {m : Nat} {init : List UInt8} (ht : boot l m init = .ok t) :
    Inv t := by
  unfold Vm.boot at ht
  have hempty : Sound (fun _ _ => False) { empty l m with nextpid := 2 } :=
    ⟨⟨rfl, by simp, by simp, by simp, fun _ _ => rfl⟩, by simp [empty], List.nodup_nil⟩
  obtain ⟨⟨u, o⟩, hu, ht⟩ := bind_eq_ok.mp ht
  obtain ⟨hsu, heu, k, rfl⟩ := kalloc_spec hempty hu
  obtain ⟨⟨v, o'⟩, hv, ht⟩ := bind_eq_ok.mp ht
  obtain ⟨rfl, hsv, hpv, hnv, -⟩ := setupkvm_spec hsu (by decide : 1 ≤ MAX_PID) hv
  dsimp only at ht
  obtain ⟨w, hw, ht⟩ := bind_eq_ok.mp ht
  unfold inituvm at hw
  obtain ⟨⟨x, o''⟩, hx, hw⟩ := bind_eq_ok.mp hw
  obtain ⟨hsx, hex, f, rfl⟩ := kalloc_spec hsv hx
  dsimp only at hw
  obtain ⟨⟨y, r⟩, hy, hw⟩ := bind_eq_ok.mp hw
  have hsx' : Sound (adopt (fun _ _ => False) 1 u.nextDir)
      (x.setMem f (Bytes.zero.patch 0 (fun k => init.getD k 0) init.length)) :=
    hsx.congr rfl rfl rfl hsx.count
  obtain ⟨hsy, hey, -⟩ := mapPage_spec hsx' hy
  obtain rfl : y = w := Except.ok.inj hw
  obtain rfl := Except.ok.inj ht
  have hprocs : y.procs = fun _ => none := hey.procs.trans (hex.procs.trans (hpv.trans heu.procs))
  have hnext : y.nextpid = 2 := hey.nextpid.trans (hex.nextpid.trans (hnv.trans heu.nextpid))
  have hall : ∀ pid P, (y.setProc 1 (some ⟨u.nextDir, PGSIZE, k, false⟩)).procs pid = some P →
      P.size < KERNBASE ∧ pid < 2 := by
    intro pid P hP
    rw [procs_setProc] at hP
    split at hP
    · rename_i hpid
      cases hP
      exact ⟨(by decide : PGSIZE < KERNBASE), by omega⟩
    · rw [hprocs] at hP
      cases hP
  refine ⟨?_, fun pid P hP => (hall pid P hP).1, ?_⟩
  · have heq : owns (y.setProc 1 (some ⟨u.nextDir, PGSIZE, k, false⟩)) =
        adopt (fun _ _ => False) 1 u.nextDir := by
      funext pid d
      simp only [owns, adopt, procs_setProc, hprocs]
      by_cases hpid : pid = 1
      · simp [hpid, eq_comm]
      · simp [hpid]
    rw [heq]
    exact hsy.congr rfl rfl rfl hsy.count
  · intro pid P hP
    change pid < y.nextpid
    rw [hnext]
    exact (hall pid P hP).2

theorem eraseP_key_eq_erase {q : List Entry} {e : Entry} (hnd : (q.map Entry.key).Nodup)
    (he : e ∈ q) : (q.eraseP fun e' => e'.key = e.key) = q.erase e := by
  rw [List.erase_eq_eraseP]
  induction q with
  | nil => rfl
  | cons a l ih =>
    rw [List.map_cons, List.nodup_cons] at hnd
    by_cases hk : a.key = e.key
    · have hae : a = e := by
        rcases List.mem_cons.mp he with rfl | he
        · rfl
        · exact absurd (hk ▸ List.mem_map_of_mem he) hnd.1
      subst hae
      simp
    · have hae : e ≠ a := fun hc => hk (by rw [hc])
      have hmem : e ∈ l := (List.mem_cons.mp he).resolve_left hae
      rw [List.eraseP_cons_of_neg (by simpa using hk), ih hnd.2 hmem,
        List.eraseP_cons_of_neg (by simpa using hae)]

/-- Walking a directory, `deallocuvm` uses each identifier once.  Of two entries under
    one identifier the later stays. -/
theorem deallocLoop_keeps (d startva : Nat) {pid va : Nat} {e₁ e : Entry} (hva : PGSIZE ∣ va)
    (hpid : pid ≤ MAX_PID) (he₁ : e₁.key = va ||| pid) (he : e.key = va ||| pid) (k : Nat) :
    ∀ {i : Nat} {s : Core}, PGSIZE ∣ i →
      ([e₁, e].Sublist s.pgqueue ∨ (va < i ∧ e ∈ s.pgqueue)) →
      e ∈ (deallocLoop d startva pid k i s).pgqueue := by
  induction k with
  | zero =>
    intro i s _ h
    rcases h with h | h
    · exact h.mem (by simp)
    · exact h.2
  | succ k ih =>
    intro i s hi h
    have hnext : PGSIZE ∣ i + PGSIZE := Dvd.dvd.add hi (dvd_refl _)
    have hfar : ∀ j, i ≤ j → [e₁, e].Sublist s.pgqueue ∨ (va < j ∧ e ∈ s.pgqueue) := by
      intro j hj
      rcases h with h | ⟨h1, h2⟩
      · exact Or.inl h
      · exact Or.inr ⟨by omega, h2⟩
    unfold deallocLoop
    split
    · rcases h with h | h
      · exact h.mem (by simp)
      · exact h.2
    · split
      · exact ih (Dvd.dvd.add (Dvd.dvd.add hi (Dvd.intro_left _ rfl)) (dvd_refl _)) (hfar _ (by omega))
      · rename_i x hx
        split
        · refine ih hnext ?_
          have hq : (unmap s d i x pid).pgqueue = s.pgqueue.eraseP fun e => e.key = i ||| pid := by
            unfold unmap
            obtain ⟨m, hm⟩ := freePage_eq s (i ||| pid) true
            rw [hm]
            rfl
          rw [hq]
          by_cases hiva : i = va
          · subst hiva
            have hpos : i < i + PGSIZE := by
              unfold PGSIZE
              omega
            rcases h with h | ⟨h1, -⟩
            · have hsub := h.eraseP (p := fun e => e.key = i ||| pid)
              rw [List.eraseP_cons_of_pos (by simpa using he₁)] at hsub
              exact Or.inr ⟨hpos, hsub.mem (by simp)⟩
            · exact absurd h1 (Nat.lt_irrefl _)
          · have hkey : va ||| pid ≠ i ||| pid :=
              fun hc => hiva (key_inj hva hi hpid hpid hc).1.symm
            rcases h with h | ⟨h1, h2⟩
            · left
              have hsub := h.eraseP (p := fun e => e.key = i ||| pid)
              rwa [List.eraseP_of_forall_not (by simp [he₁, he, hkey])] at hsub
            · right
              refine ⟨by omega, ?_⟩
              rw [List.mem_eraseP_of_neg (by simpa [he] using hkey)]
              exact h2
        · exact ih hnext (hfar _ (by omega))

/-- `freeuvm` of a directory leaves the entry of a page for which the queue has an
    older entry under the same identifier. -/
theorem freeuvm_keeps {d pid va : Nat} {e₁ e : Entry} (hd : s.dirs d ≠ none) (hva : PGSIZE ∣ va)
    (hpid : pid ≤ MAX_PID) (he₁ : e₁.key = va ||| pid) (he : e.key = va ||| pid)
    (h : [e₁, e].Sublist s.pgqueue) :
    ∃ t, freeuvm s d pid = .ok t ∧ e ∈ t.pgqueue ∧ t.dirs d = none := by
  have hloop : deallocuvm s d KERNBASE 0 pid =
      .ok (deallocLoop d KERNBASE pid (KERNBASE / PGSIZE + 1) (pgroundup 0) s, 0) := by
    obtain ⟨D, hD⟩ := Option.ne_none_iff_exists'.mp hd
    unfold deallocuvm
    rw [if_neg (by decide), hD]
  have hun := deallocLoop_unmaps d KERNBASE pid (KERNBASE / PGSIZE + 1) (pgroundup 0) s
  have hmem := deallocLoop_keeps d KERNBASE hva hpid he₁ he
    (KERNBASE / PGSIZE + 1) (pgroundup_dvd 0) (Or.inl h)
  revert hloop hun hmem
  generalize deallocLoop d KERNBASE pid (KERNBASE / PGSIZE + 1) (pgroundup 0) s = u
  intro hloop hun hmem
  obtain ⟨D, hD⟩ := Option.ne_none_iff_exists'.mp fun hn => hd ((hun.dirs d).mp hn)
  obtain ⟨hfr, -⟩ := (freeTables_frees D u).kfree D.frame
  obtain ⟨w, hw⟩ : ∃ w, kfree (freeTables D u) D.frame = w := ⟨_, rfl⟩
  rw [hw] at hfr
  refine ⟨w.dropDir d, ?_, ?_, ?_⟩
  · unfold freeuvm
    refine bind_eq_ok.mpr ⟨(u, 0), hloop, ?_⟩
    dsimp only
    split
    · rename_i hn
      rw [hD] at hn
      cases hn
    · rename_i E hE
      rw [hD] at hE
      cases hE
      rw [hw]
      rfl
  · rw [hfr]
    exact hmem
  · exact Function.update_self _ _ _

/-- A file with one segment of four pages that is cut off after the first program
    header. -/
def cutImage : Image := ⟨true, [some ⟨ELF_PROG_LOAD, 0, 0, 0, 16384⟩, none], fun _ => 0, 0, []⟩

end Yonix.Vm
