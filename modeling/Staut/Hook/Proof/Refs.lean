import Staut.Hook.Proof.Spec
import Mathlib.Data.List.Perm.Basic

/-!
# Reference counts and deferred unlinks

`ref_count` is exact as long as every I/O call starts on a slot whose flags are `MYFS_FILE_OPENED`
and nothing else, with fewer than `2 ^ 16 - 1` calls in progress there (`refs_exact`): otherwise
`myfs_increment_ref` fails, its callers go on, and `myfs_decrement_ref` counts down all the same
(`ref_count_underflow`). While the counts are exact no block of a slot in use is released.

A deferred unlink is left to the last I/O, but `myfs_decrement_ref` compares the count before the
subtraction with 0, not with 1: no slot is left marked and idle exactly as long as no last I/O ends
on a marked slot (`unlink_not_stranded`, `unlink_stranded`).

`FsStep` says once what a step does to the file store and the calls in progress.
-/

set_option autoImplicit false

namespace Hook

open CSem Run Myfs Nvme

/-! ## Steps on the file store -/

/-- The number of I/O calls in progress on slot `i`. -/
def Sys.inProgress (s : Sys) (i : Nat) : Nat := s.calls.countP fun a => a.call.hookfd = i

/-- The slot on which a step starts an I/O call. -/
def starts (s : Sys) : Label → Option Nat
  | .io true _ fd _ _ _ _ =>
    match s.hookfd fd with
    | .ok h => if 0 ≤ h then some h.toNat else none
    | .error _ => none
  | _ => none

/-- The slot on which a step ends an I/O call. -/
def ends (cfg : Cfg) (s : Sys) : Label → Option Nat
  | .resume k _ _ =>
    match s.calls[k]? with
    | some a =>
      match a.call.next cfg with
      | .ret => some a.call.hookfd
      | _ => none
    | none => none
  | _ => none

inductive FsStep (cfg : Cfg) (s : Sys) (a : Label) (s' : Sys) : Prop
  | keep : starts s a = none → ends cfg s a = none → s'.fs = s.fs → s'.calls = s.calls →
      FsStep cfg s a s'
  | open {f : CStr} {i : Nat} : starts s a = none → ends cfg s a = none →
      myfsOpen s.fs f = .ok (i, s'.fs) → s'.calls = s.calls → FsStep cfg s a s'
  | close {i : Nat} : starts s a = none → ends cfg s a = none → s'.fs = myfsClose s.fs i →
      s'.calls = s.calls → FsStep cfg s a s'
  | unlink {f : CStr} : starts s a = none → ends cfg s a = none → s'.fs = myfsUnlink s.fs f →
      s'.calls = s.calls → FsStep cfg s a s'
  | start {i : Nat} {x : Active} : starts s a = some i → ends cfg s a = none →
      s'.fs = (myfsIncrementRef s.fs i).1 → x.call.hookfd = i → s'.calls = s.calls ++ [x] →
      FsStep cfg s a s'
  | go {k : Nat} {x y : Active} : starts s a = none → ends cfg s a = none →
      s.calls[k]? = some x → y.call.hookfd = x.call.hookfd → s'.calls = s.calls.set k y →
      (s'.fs = s.fs ∨ ∃ offset write lba,
        myfsGetLba s.fs x.call.hookfd offset write = .ok (lba, s'.fs)) → FsStep cfg s a s'
  | finish {k : Nat} {x : Active} : starts s a = none → ends cfg s a = some x.call.hookfd →
      s.calls[k]? = some x → s'.calls = s.calls.eraseIdx k →
      s'.fs = myfsDecrementRef s.fs x.call.hookfd → FsStep cfg s a s'

@[simp] theorem kopen_fs (s : Sys) (f : CStr) (ret : Int) (slot : Option Nat) :
    (s.kopen f ret slot).fs = s.fs := by
  unfold Sys.kopen
  split <;> rfl
@[simp] theorem kopen_calls (s : Sys) (f : CStr) (ret : Int) (slot : Option Nat) :
    (s.kopen f ret slot).calls = s.calls := by
  unfold Sys.kopen
  split <;> rfl

theorem fsStep {env : Env} {cfg : Cfg} {s s' : Sys} {a : Label} (h : Step env cfg s a s') :
    FsStep cfg s a s' := by
  cases h with
  | openat _ ho =>
    rcases hookOpenat_ok ho with ⟨-, rfl⟩ | ⟨-, -, -, i, fs, hopen, rfl⟩
    · exact .keep rfl rfl (kopen_fs ..) (kopen_calls ..)
    · exact .open rfl rfl hopen (kopen_calls ..)
  | kopenat _ => exact .keep rfl rfl (kopen_fs ..) (kopen_calls ..)
  | close hc =>
    obtain ⟨-, -, ⟨-, rfl⟩ | ⟨i, -, rfl⟩⟩ := hookClose_ok hc
    · exact .keep rfl rfl rfl rfl
    · exact .close rfl rfl rfl rfl
  | kclose => exact .keep rfl rfl rfl rfl
  | io hi =>
    obtain ⟨h1, h2, ⟨hneg, rfl⟩ | ⟨i, fs, c, hfd, hio, rfl⟩⟩ := hookIo_ok hi
    · refine .keep ?_ rfl rfl rfl
      simp only [starts, hookfd_of_range h1 h2]
      exact if_neg (by omega)
    · obtain ⟨rfl, hci, -, -⟩ := ioImpl_ok hio
      refine .start ?_ rfl rfl hci rfl
      simp only [starts, hookfd_of_range h1 h2, hfd, Int.toNat_natCast]
      exact if_pos (Int.natCast_nonneg i)
  | kio => exact .keep rfl rfl rfl rfl
  | newfstatat _ => exact .keep rfl rfl rfl rfl
  | knewfstatat => exact .keep rfl rfl rfl rfl
  | unlink => exact .unlink rfl rfl rfl rfl
  | kunlink => exact .keep rfl rfl rfl rfl
  | resume hk hr =>
    rcases resume_ok hr with ⟨hret, c, hc, fs, hfs, rfl⟩ | ⟨hret, rfl⟩
    · refine .go rfl ?_ hk hc rfl hfs
      simp only [ends, hk]
    · refine .finish rfl ?_ hk rfl rfl
      simp only [ends, hk, hret]
  | other => exact .keep rfl rfl rfl rfl

/-! ## Exact counts -/

/-- `ref_count` is the number of I/O calls in progress. -/
def Exact (s : Sys) : Prop := ∀ i, (s.fs.fileStates i).refCount.toNat = s.inProgress i

/-- An I/O call starts only on a slot that is open and not marked, with fewer than `2 ^ 16 - 1`
calls in progress on it. -/
def StartsOpen (s : Sys) (a : Label) : Prop := ∀ i, starts s a = some i →
  (s.fs.fileStates i).flags = MYFS_FILE_OPENED ∧ s.inProgress i + 1 < 2 ^ 16

theorem StartsOpen.of_none {s : Sys} {a : Label} (h : starts s a = none) : StartsOpen s a := by
  intro i hi
  rw [h] at hi
  cases hi

section
variable {s s' : Sys}

theorem inProgress_append {x : Active} (h : s'.calls = s.calls ++ [x]) (i : Nat) :
    s'.inProgress i = s.inProgress i + if x.call.hookfd = i then 1 else 0 := by
  unfold Sys.inProgress
  rw [h, List.countP_append, List.countP_singleton]
  by_cases hx : x.call.hookfd = i <;> simp [hx]

theorem inProgress_set {k : Nat} {x y : Active} (hk : s.calls[k]? = some x)
    (hxy : y.call.hookfd = x.call.hookfd) (h : s'.calls = s.calls.set k y) (i : Nat) :
    s'.inProgress i = s.inProgress i := by
  obtain ⟨hlt, hx⟩ := List.getElem?_eq_some_iff.1 hk
  unfold Sys.inProgress
  rw [h]
  have h1 := List.countP_set (p := fun a : Active => decide (a.call.hookfd = i)) (a := y) hlt
  have h2 : (s.calls[k]).call.hookfd = i → 0 < s.calls.countP fun a => a.call.hookfd = i :=
    fun he => List.countP_pos_iff.2 ⟨_, List.getElem_mem hlt, by simpa using he⟩
  rw [hx] at h1 h2
  rw [h1, hxy]
  by_cases he : x.call.hookfd = i
  · have := h2 he
    simp only [he, decide_true, ↓reduceIte]
    omega
  · simp [he]

theorem inProgress_erase {k : Nat} {x : Active} (hk : s.calls[k]? = some x)
    (h : s'.calls = s.calls.eraseIdx k) (i : Nat) :
    s.inProgress i = s'.inProgress i + if x.call.hookfd = i then 1 else 0 := by
  unfold Sys.inProgress
  rw [h, ← (perm_eraseIdx hk).countP_eq, List.countP_cons]
  by_cases he : x.call.hookfd = i <;> simp [he]

theorem inProgress_congr (h : s'.calls = s.calls) (i : Nat) : s'.inProgress i = s.inProgress i := by
  unfold Sys.inProgress
  rw [h]

end

theorem open_refCount {s s' : State} {f : CStr} {i : Nat} (h : myfsOpen s f = .ok (i, s'))
    (k : Nat) : (s'.fileStates k).refCount = (s.fileStates k).refCount := by
  obtain ⟨-, ⟨-, -, rfl⟩ | ⟨-, -, -, rfl⟩⟩ := myfsOpen_ok h <;>
    by_cases hk : k = i <;> simp [hk]

theorem unlink_refCount (s : State) (f : CStr) (k : Nat) :
    ((myfsUnlink s f).fileStates k).refCount = (s.fileStates k).refCount := by
  rw [fileStates_unlink]
  unfold FileState.tryUnlinked
  split
  · split
    · rename_i h0
      exact h0.symm
    · rfl
  · rfl

/-- From exact counts a step keeps them if and only if it starts no I/O call that is not counted. -/
theorem Exact.step {cfg : Cfg} {s s' : Sys} {a : Label} (h : Exact s) (hs : FsStep cfg s a s') :
    Exact s' ↔ StartsOpen s a := by
  cases hs with
  | keep hn _ hfs hc =>
    refine iff_of_true (fun i => ?_) (.of_none hn)
    rw [hfs, inProgress_congr hc]
    exact h i
  | «open» hn _ ho hc =>
    refine iff_of_true (fun i => ?_) (.of_none hn)
    rw [open_refCount ho, inProgress_congr hc]
    exact h i
  | @close k hn _ hfs hc =>
    refine iff_of_true (fun i => ?_) (.of_none hn)
    rw [hfs, inProgress_congr hc, ← h i]
    by_cases hi : i = k <;> simp [myfsClose, hi]
  | unlink hn _ hfs hc =>
    refine iff_of_true (fun i => ?_) (.of_none hn)
    rw [hfs, unlink_refCount, inProgress_congr hc]
    exact h i
  | @go k x y hn _ hk hxy hc hfs =>
    have hst : s'.fs.fileStates = s.fs.fileStates := by
      rcases hfs with hfs | ⟨offset, write, lba, hg⟩
      · rw [hfs]
      · exact (myfsGetLba_frame hg).1
    refine iff_of_true (fun i => ?_) (.of_none hn)
    rw [hst, inProgress_set hk hxy hc]
    exact h i
  | @finish k x hn _ hk hc hfs =>
    refine iff_of_true (fun i => ?_) (.of_none hn)
    have hi := h i
    rw [inProgress_erase hk hc i] at hi
    rw [hfs, decrementRef_fileStates]
    by_cases he : i = x.call.hookfd
    · subst he
      simp only [↓reduceIte] at hi ⊢
      rw [UInt16.toNat_sub_of_le _ _ (UInt16.le_iff_toNat_le.2 (by rw [hi]; simp))]
      rw [hi]
      simp
    · rw [if_neg he]
      rw [if_neg (fun h' => he h'.symm)] at hi
      exact hi
  | @start k x hst _ hfs hx hc =>
    have hk := h k
    constructor
    · intro he i hi
      rw [hst] at hi
      obtain rfl := Option.some.inj hi
      have hek := he k
      rw [inProgress_append hc, hfs, incrementRef_fileStates, if_pos hx] at hek
      by_cases hf : (s.fs.fileStates k).flags = MYFS_FILE_OPENED
      · refine ⟨hf, ?_⟩
        have := (s'.fs.fileStates k).refCount.toNat_lt
        rw [hfs, incrementRef_fileStates] at this
        simp only [hf, and_self, ↓reduceIte] at hek this
        omega
      · simp only [hf, and_false, ↓reduceIte] at hek
        omega
    · intro hso i
      obtain ⟨hf, hlt⟩ := hso k hst
      rw [hfs, incrementRef_fileStates, inProgress_append hc, hx]
      by_cases hi : i = k
      · subst hi
        simp only [hf, and_self, ↓reduceIte]
        rw [UInt16.toNat_add, hk]
        show (_ + 1) % _ = _
        omega
      · rw [if_neg (fun h' => hi h'.1), if_neg (fun h' => hi h'.symm)]
        exact h i

/-- While the counts are exact no step takes a block from a slot with I/O in progress. -/
theorem Exact.block_kept {cfg : Cfg} {s s' : Sys} {a : Label} (h : Exact s) (hs : FsStep cfg s a s')
    {i : Nat} (hi : 0 < s.inProgress i) {j : Nat}
    (hb : (s.fs.sb.file i).block j ≠ INACTIVE_BLOCK) :
    (s'.fs.sb.file i).block j = (s.fs.sb.file i).block j := by
  cases hs with
  | keep _ _ hfs _ => rw [hfs]
  | «open» _ _ ho _ =>
    obtain ⟨-, ⟨-, -, hfs⟩ | ⟨-, -, -, hfs⟩⟩ := myfsOpen_ok ho
    · rw [hfs]
      rfl
    · rw [hfs, setFlags_sb, setFile_file]
      split
      · rename_i he
        rw [he]
      · rfl
  | close _ _ hfs _ => rw [hfs, close_sb]
  | unlink _ _ hfs _ =>
    rw [hfs, file_unlink, if_neg]
    intro hm
    have := h i
    rw [hm.2.2] at this
    exact absurd this (by simp; omega)
  | start _ _ hfs _ _ => rw [hfs, incrementRef_sb]
  | @go k x y _ _ hk hxy _ hfs =>
    rcases hfs with hfs | ⟨offset, write, lba, hg⟩
    · rw [hfs]
    · obtain ⟨m, -, -, -, -, ⟨-, hfs⟩ | ⟨-, hm, hfs⟩⟩ := myfsGetLba_ok hg
      · rw [hfs]
      · rw [hfs]
        show ((allocBlock s.fs.sb x.call.hookfd m).file i).block j = _
        rw [allocBlock_file]
        split
        · rename_i he
          subst he
          have hj : j ≠ m := fun hj => hb (hj ▸ hm)
          simp [hj]
        · rfl
  | finish _ _ _ _ hfs => rw [hfs, decrementRef_sb]

theorem Exact.init {env : Env} {cfg : Cfg} {s : Sys} (hi : (sys env cfg).init s) : Exact s := by
  obtain ⟨⟨sb, hfs⟩, -, -, hc, -⟩ := hi
  intro i
  rw [hfs, Sys.inProgress, hc]
  rfl

/-- **Reference counts.** In every run whose I/O calls all start on an open, unmarked slot the
counts are exact; a step keeps them exact if and only if it meets this condition too, and no step
takes a block from a slot with I/O in progress. -/
theorem refs_exact {env : Env} {cfg : Cfg} {s : Sys} (h : (sys env cfg).ReachIf StartsOpen s) :
    Exact s ∧ ∀ a s', (sys env cfg).step s a s' → (Exact s' ↔ StartsOpen s a) ∧
      ∀ i, 0 < s.inProgress i → ∀ j, (s.fs.sb.file i).block j ≠ INACTIVE_BLOCK →
        (s'.fs.sb.file i).block j = (s.fs.sb.file i).block j := by
  have he : Exact s := by
    induction h with
    | init hi => exact .init hi
    | step _ hc hs ih => exact (ih.step (fsStep hs)).2 hc
  exact ⟨he, fun a s' hs => ⟨he.step (fsStep hs), fun i hi j => he.block_kept (fsStep hs) hi⟩⟩

/-- Two opens of one file and a close leave the flags at 0: the read through the other descriptor
is not counted when it starts, but when it ends. -/
theorem ref_count_underflow : ∃ s, (sys ⟨[⟨[102], by decide⟩], none⟩ ⟨1, 1, 8, 8⟩).Reach s ∧
    s.inProgress 0 = 0 ∧ (s.fs.fileStates 0).refCount = 65535 := by
  let env : Env := ⟨[⟨[102], by decide⟩], none⟩
  let cfg : Cfg := ⟨1, 1, 8, 8⟩
  let f : CStr := ⟨[102], by decide⟩
  have hh : isHookedFilename env f = .ok true := by decide
  have hmax : (4 : Int) < MAX_HOOKFD := by rw [MAX_HOOKFD_eq]; decide
  have h1 : (sys env cfg).Reach (Sys.opened f 3) := reach_opened trivial (by decide)
    (by rw [MYFS_MAX_NAMELEN_eq]; decide) hh (by omega)
  have hm : nameMatches f ((Sys.opened f 3).fs.sb.file 0) = true := by
    simp only [Sys.opened, opened_file MYFS_MAX_FILES_pos]
    decide
  obtain ⟨s2, h2, hfs2, hhk2, hc2, -⟩ := reach_openat h1 4 trivial rfl hh (by decide) hmax
    (myfsOpen_old MYFS_MAX_FILES_pos hm fun k hk => absurd hk (Nat.not_lt_zero k))
  obtain ⟨s3, h3, hfs3, hhk3, hc3, -⟩ := reach_close (i := 0) h2 3 trivial (by decide)
    (by omega) (by rw [hhk2]; rfl)
  have hsb : s3.fs.sb = (openedFs f).sb := by rw [hfs3, hfs2]; rfl
  have hst : s3.fs.fileStates 0 = ⟨0, 0⟩ := by
    rw [hfs3, hfs2]
    simp only [myfsClose, setFlags_fileStates, Sys.opened, opened_fileStates, ↓reduceIte]
    rfl
  have hsz : myfsGetSize s3.fs 0 = 0 := by
    unfold myfsGetSize
    rw [hsb]
    exact opened_size f
  obtain ⟨c, hio, hci, hpc, hj, hlen⟩ := readImpl_past_end (i := 0) 512 0 0 0
    (fun _ => 0) rfl (by decide) (by decide) (by decide) (by rw [hsz]; decide)
  obtain ⟨s4, h4, hfs4, -, hc4, -⟩ := reach_io (i := 0) h3 (.pread 0) 4 512 0 0 (fun _ => 0) trivial
    (by decide) hmax (by rw [hhk3, hhk2]; rfl) hio
  rw [hc3, hc2] at hc4
  obtain ⟨s5, h5, hfs5, -, hc5, -⟩ := reach_finish h4 trivial hc4
    (by simp only [IoCall.next, hpc, hj]; exact if_neg (by omega))
  refine ⟨s5, h5, by rw [Sys.inProgress, hc5]; rfl, ?_⟩
  rw [hfs5, hci, decrementRef_fileStates, hfs4, incrementRef_fileStates, hst]
  decide

/-- A read in progress on a file opened once. -/
theorem refs_exact_read :
    ∃ s, (sys ⟨[⟨[102], by decide⟩], none⟩ ⟨1, 1, 8, 8⟩).ReachIf StartsOpen s ∧
      s.inProgress 0 = 1 ∧ (s.fs.fileStates 0).refCount.toNat = s.inProgress 0 := by
  let f : CStr := ⟨[102], by decide⟩
  have hmax : (3 : Int) < MAX_HOOKFD := by rw [MAX_HOOKFD_eq]; decide
  have h1 : (sys ⟨[f], none⟩ ⟨1, 1, 8, 8⟩).ReachIf StartsOpen (Sys.opened f 3) :=
    reach_opened (.of_none rfl) (by decide) (by rw [MYFS_MAX_NAMELEN_eq]; decide) (by decide)
      (by omega)
  have hopen : StartsOpen (Sys.opened f 3) (.io true (.pread 0) 3 512 0 0 fun _ => 0) := by
    intro i hi
    simp only [starts, hookfd_of_range (show (0 : Int) ≤ 3 by decide) hmax] at hi
    obtain rfl : 0 = i := Option.some.inj hi
    simp only [Sys.opened, opened_fileStates]
    decide
  obtain ⟨c, hio, hci, -⟩ := readImpl_past_end (i := 0) 512 0 0 0
    (fun _ => 0) rfl (by decide) (by decide) (by decide) (Int.ofNat_le.2 (opened_size f).le)
  obtain ⟨s2, h2, -, -, hc2, -⟩ := reach_io (i := 0) h1 (.pread 0) 3 512 0 0
    (fun _ => 0) hopen (by decide) hmax rfl hio
  refine ⟨s2, h2, ?_, (refs_exact h2).1 0⟩
  rw [inProgress_append hc2, hci]
  rfl

/-! ## Deferred unlinks -/

/-- Slot `i` is marked for an unlink that nobody is left to carry out. -/
def Stranded (s : Sys) (i : Nat) : Prop :=
  (s.fs.fileStates i).flags &&& MYFS_FILE_UNLINKED ≠ 0 ∧ s.inProgress i = 0

/-- An I/O call that ends on a marked slot leaves another one in progress. -/
def EndsUnmarked (cfg : Cfg) (s : Sys) (a : Label) : Prop := ∀ i, ends cfg s a = some i →
  (s.fs.fileStates i).flags &&& MYFS_FILE_UNLINKED ≠ 0 → 1 < s.inProgress i

theorem EndsUnmarked.of_none {cfg : Cfg} {s : Sys} {a : Label} (h : ends cfg s a = none) :
    EndsUnmarked cfg s a := by
  intro i hi
  rw [h] at hi
  cases hi

/-- Closing does not touch the mark. -/
theorem close_unlinked (x : UInt16) :
    (x ^^^ MYFS_FILE_OPENED) &&& MYFS_FILE_UNLINKED = x &&& MYFS_FILE_UNLINKED := by
  have hdisj : ∀ (i : Nat) (hi : i < 16),
      MYFS_FILE_UNLINKED.toBitVec[i] = true → MYFS_FILE_OPENED.toBitVec[i] = false := by decide
  refine UInt16.eq_of_toBitVec_eq (BitVec.eq_of_getElem_eq fun i hi => ?_)
  simp only [UInt16.toBitVec_and, UInt16.toBitVec_xor, BitVec.getElem_and, BitVec.getElem_xor]
  cases hu : MYFS_FILE_UNLINKED.toBitVec[i] with
  | false => simp
  | true => simp [hdisj i hi hu]

theorem open_flags {s s' : State} {f : CStr} {i : Nat} (h : myfsOpen s f = .ok (i, s')) (k : Nat) :
    (s'.fileStates k).flags = if k = i then MYFS_FILE_OPENED else (s.fileStates k).flags := by
  obtain ⟨-, ⟨-, -, rfl⟩ | ⟨-, -, -, rfl⟩⟩ := myfsOpen_ok h <;>
    by_cases hk : k = i <;> simp [hk]

/-- With exact counts a step strands a slot if and only if it ends the last I/O call on a marked
slot. -/
theorem Exact.strands {cfg : Cfg} {s s' : Sys} {a : Label} (h : Exact s) (hs : FsStep cfg s a s')
    (h0 : ∀ i, ¬ Stranded s i) : (∀ i, ¬ Stranded s' i) ↔ EndsUnmarked cfg s a := by
  cases hs with
  | keep _ hn hfs hc =>
    refine iff_of_true (fun i hi => h0 i ?_) (.of_none hn)
    rwa [Stranded, hfs, inProgress_congr hc] at hi
  | @«open» f k _ hn ho hc =>
    refine iff_of_true (fun i hi => ?_) (.of_none hn)
    rw [Stranded, open_flags ho, inProgress_congr hc] at hi
    split at hi
    · exact hi.1 (by decide)
    · exact h0 i hi
  | @close k _ hn hfs hc =>
    refine iff_of_true (fun i hi => h0 i ?_) (.of_none hn)
    rw [Stranded, hfs, inProgress_congr hc] at hi
    by_cases hk : i = k
    · subst hk
      simp only [myfsClose, setFlags_fileStates, ↓reduceIte, close_unlinked] at hi
      exact hi
    · simp only [myfsClose, setFlags_fileStates, hk, ↓reduceIte] at hi
      exact hi
  | @unlink f _ hn hfs hc =>
    refine iff_of_true (fun i hi => ?_) (.of_none hn)
    rw [Stranded, hfs, inProgress_congr hc, fileStates_unlink, FileState.tryUnlinked] at hi
    split at hi
    · split at hi
      · exact hi.1 (by decide)
      · rename_i hr
        have hx := h i
        rw [hi.2] at hx
        exact hr (UInt16.toNat_inj.1 (by simpa using hx))
    · exact h0 i hi
  | @start k x _ hn hfs hx hc =>
    refine iff_of_true (fun i hi => h0 i ⟨?_, ?_⟩) (.of_none hn)
    · have := hi.1
      rw [hfs, incrementRef_fileStates] at this
      split at this
      · rename_i he
        rw [he.1]
        exact this
      · exact this
    · have := hi.2
      rw [inProgress_append hc] at this
      omega
  | go _ hn hk hxy hc hfs =>
    have hst : s'.fs.fileStates = s.fs.fileStates := by
      rcases hfs with hfs | ⟨offset, write, lba, hg⟩
      · rw [hfs]
      · exact (myfsGetLba_frame hg).1
    refine iff_of_true (fun i hi => h0 i ?_) (.of_none hn)
    rwa [Stranded, hst, inProgress_set hk hxy hc] at hi
  | @finish k x _ he hk hc hfs =>
    have hcount := inProgress_erase hk hc
    have hpos : (s.fs.fileStates x.call.hookfd).refCount ≠ 0 := by
      intro hr
      have hx := h x.call.hookfd
      rw [hr, hcount, if_pos rfl] at hx
      simp at hx
    -- the flags stay: the count is not 0 before the subtraction
    have hflags : ∀ i, (s'.fs.fileStates i).flags = (s.fs.fileStates i).flags := by
      intro i
      rw [hfs, decrementRef_fileStates]
      split
      · rename_i hi
        simp [hi, hpos]
      · rfl
    constructor
    · intro hns i hi hm
      rw [he] at hi
      obtain rfl := Option.some.inj hi
      have hx := hns x.call.hookfd
      rw [Stranded, hflags] at hx
      have := hcount x.call.hookfd
      rw [if_pos rfl] at this
      apply Classical.byContradiction
      intro hlt
      exact hx ⟨hm, by omega⟩
    · intro hu i hi
      rw [Stranded, hflags] at hi
      have := hcount i
      by_cases hx : x.call.hookfd = i
      · have hlt := hu i (hx ▸ he) hi.1
        rw [if_pos hx] at this
        omega
      · rw [if_neg hx] at this
        exact h0 i ⟨hi.1, by omega⟩

/-- **Deferred unlinks.** In every run whose I/O calls start on open, unmarked slots and in which no
last I/O call ends on a marked slot, no slot is left marked and idle; and with the counts still
exact a step leaves none so if and only if it meets the second condition. -/
theorem unlink_not_stranded {env : Env} {cfg : Cfg} {s : Sys}
    (h : (sys env cfg).ReachIf (fun s a => StartsOpen s a ∧ EndsUnmarked cfg s a) s) :
    (∀ i, ¬ Stranded s i) ∧ ∀ a s', (sys env cfg).step s a s' →
      ((∀ i, ¬ Stranded s' i) ↔ EndsUnmarked cfg s a) := by
  have hi : Exact s ∧ ∀ i, ¬ Stranded s i := by
    induction h with
    | init hi =>
      refine ⟨.init hi, fun i hs => ?_⟩
      obtain ⟨⟨sb, hfs⟩, -⟩ := hi
      rw [Stranded, hfs] at hs
      exact hs.1 (show (0 : UInt16) &&& MYFS_FILE_UNLINKED = 0 by decide)
    | step _ hc hs ih =>
      exact ⟨(ih.1.step (fsStep hs)).2 hc.1, (ih.1.strands (fsStep hs) ih.2).2 hc.2⟩
  exact ⟨hi.2, fun a s' hs => hi.1.strands (fsStep hs) hi.2⟩

/-- A write of two sectors is waiting for its first request when its file is unlinked. -/
theorem reach_marked {C : Sys → Label → Prop}
    (hC : ∀ s a, StartsOpen s a → EndsUnmarked ⟨1, 1, 8, 8⟩ s a → C s a) :
    ∃ s x, (sys ⟨[⟨[102], by decide⟩], none⟩ ⟨1, 1, 8, 8⟩).ReachIf C s ∧ s.calls = [x] ∧
      x.call.hookfd = 0 ∧ x.call.pc = .wait 1 0 ∧ x.call.len ≤ x.call.j ∧
      s.fs.fileStates 0 = ⟨3, 1⟩ ∧ (s.fs.sb.file 0).name = ⟨[102], by decide⟩ ∧
      (s.fs.sb.file 0).nBlock = 1 := by
  let f : CStr := ⟨[102], by decide⟩
  have hmax : (3 : Int) < MAX_HOOKFD := by rw [MAX_HOOKFD_eq]; decide
  have h1 : (sys ⟨[f], none⟩ ⟨1, 1, 8, 8⟩).ReachIf C (Sys.opened f 3) :=
    reach_opened (hC _ _ (.of_none rfl) (.of_none rfl)) (by decide)
      (by rw [MYFS_MAX_NAMELEN_eq]; decide) (by decide) (by omega)
  have hopen : StartsOpen (Sys.opened f 3) (.io true (.pwrite 0) 3 1024 0 0 fun _ => 0) := by
    intro i hi
    simp only [starts, hookfd_of_range (show (0 : Int) ≤ 3 by decide) hmax] at hi
    obtain rfl : 0 = i := Option.some.inj hi
    simp only [Sys.opened, opened_fileStates]
    decide
  have hgo : ∀ s n, ends ⟨1, 1, 8, 8⟩ s (.resume 0 n true) = none → C s (.resume 0 n true) :=
    fun s n hn => hC _ _ (.of_none rfl) (.of_none hn)
  let c : IoPc → Int → (Nat → Int) → IoCall :=
    fun pc j rid => ⟨.write, 0, 1024, 0, 0, 0, 512, j, rid, pc⟩
  have hio : ioImpl .write (Sys.opened f 3).fs 0 1024 0 0 0 (fun _ => 0) =
      .ok ((myfsIncrementRef (openedFs f) 0).1, c .outer 0 fun _ => 0) := rfl
  obtain ⟨s2, h2, hfs2, -, hc2, -⟩ := reach_io (i := 0) h1 (.pwrite 0) 3 1024 0 0
    (fun _ => 0) (hC _ _ hopen (.of_none rfl)) (by decide) hmax rfl hio
  obtain ⟨s3, h3, hfs3, -, hc3, -⟩ := reach_tau (c := c (.inner 0) 0 fun _ => 0) h2
    (hgo _ _ (by simp only [ends, hc2]; rfl)) hc2 rfl
  have hsb3 : s3.fs.sb = (openedFs f).sb := by rw [hfs3, hfs2, incrementRef_sb]
  have hst3 : s3.fs.fileStates 0 = ⟨1, 1⟩ := by
    rw [hfs3, hfs2, incrementRef_fileStates, opened_fileStates]
    rfl
  obtain ⟨lba, fs, hg3, hst, hname, hnb, hblk⟩ := opened_getLba hsb3
  obtain ⟨s4, h4, hfs4, -, hc4, -⟩ :=
    reach_req (n := 0) h3 (hgo _ _ (by simp only [ends, hc3]; rfl))
    hc3 rfl hg3
  have hB : 512 / MYFS_BLOCK_SIZE = 0 := by rw [MYFS_BLOCK_SIZE_eq]
  have hg4 : myfsGetLba s4.fs 0 512 1 = .ok (_, s4.fs) := myfsGetLba_active 1
    (by rw [hB, MYFS_MAX_BLOCKS_PER_FILE_eq]; decide) (by rw [hB, hfs4]; exact hblk)
  obtain ⟨s5, h5, hfs5, -, hc5, -⟩ :=
    reach_req (n := 1) h4 (hgo _ _ (by simp only [ends, hc4]; rfl))
    hc4 rfl hg4
  obtain ⟨s6, h6, hfs6, -, hc6, -⟩ := reach_unlink (f := f) h5
    (hC _ _ (.of_none rfl) (.of_none rfl))
  have hst5 : s5.fs.fileStates 0 = ⟨1, 1⟩ := by rw [hfs5, hfs4, hst, hst3]
  have hfile6 : s6.fs.sb.file 0 = fs.sb.file 0 := by
    rw [hfs6, file_unlink, if_neg, hfs5, hfs4]
    rw [hst5]
    exact fun hm => absurd hm.2.2 (by decide)
  refine ⟨s6, _, h6, hc6.trans hc5, rfl, rfl, ?_, ?_, by rw [hfile6, hname],
    by rw [hfile6, hnb]⟩
  · show (1024 : Int) ≤ wrap32 (wrap32 (0 + 512) + 512)
    decide
  rw [hfs6, fileStates_unlink, hst5, if_pos]
  · rfl
  · refine ⟨MYFS_MAX_FILES_pos, nameMatches_iff.2 ?_⟩
    rw [hfs5, hfs4, hname]

/-- The write ends as the last one: its slot stays marked, with its name and its block. -/
theorem unlink_stranded : ∃ s, (sys ⟨[⟨[102], by decide⟩], none⟩ ⟨1, 1, 8, 8⟩).Reach s ∧
    Stranded s 0 ∧ (s.fs.sb.file 0).name = ⟨[102], by decide⟩ ∧ (s.fs.sb.file 0).nBlock = 1 := by
  obtain ⟨s, x, h, hc, hi, hpc, hj, hst, hname, hnb⟩ :=
    reach_marked (C := fun _ _ => True) fun _ _ _ _ => trivial
  obtain ⟨s1, h1, hfs1, -, hc1, -⟩ :=
    reach_check h trivial hc (by simp only [IoCall.next, hpc]; rfl)
  obtain ⟨s2, h2, hfs2, -, hc2, -⟩ := reach_tau h1 trivial hc1 rfl
  obtain ⟨s3, h3, hfs3, -, hc3, -⟩ := reach_finish h2 trivial hc2
    (by simp only [IoCall.next, ↓reduceIte]; exact if_neg (by omega))
  have hfile : s3.fs.sb.file 0 = s.fs.sb.file 0 := by rw [hfs3, decrementRef_sb, hfs2, hfs1]
  refine ⟨s3, h3, ⟨?_, by rw [Sys.inProgress, hc3]; rfl⟩, by rw [hfile, hname], by rw [hfile, hnb]⟩
  rw [hfs3, hfs2, hfs1, decrementRef_fileStates]
  simp only [↓reduceIte, hi, hst]
  decide

/-- While the write is in progress its slot is marked, and not stranded. -/
theorem unlink_not_stranded_marked : ∃ s,
    (sys ⟨[⟨[102], by decide⟩], none⟩ ⟨1, 1, 8, 8⟩).ReachIf
      (fun s a => StartsOpen s a ∧ EndsUnmarked ⟨1, 1, 8, 8⟩ s a) s ∧
    (s.fs.fileStates 0).flags = 3 ∧ ¬ Stranded s 0 := by
  obtain ⟨s, x, h, -, -, -, -, hst, -, -⟩ := reach_marked fun _ _ h1 h2 => And.intro h1 h2
  exact ⟨s, h, by rw [hst], (unlink_not_stranded h).1 0⟩

end Hook
