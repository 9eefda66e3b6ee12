import Staut.Hook.Flags
import Staut.Hook.Proof.Open
import Staut.Hook.Proof.Refs

/-!
# The opened flag

`myfs_open` assigns the flag and `myfs_close` toggles it, so it is right as long as a close is of
the only descriptor of its file (`opened_flag_right`), and wrong after any other close
(`opened_flag_lost`: the file is open and its flag is not set).
-/

set_option autoImplicit false

namespace Hook

open CSem Run Myfs

/-- The table has an entry for open descriptors only, and the flags tell which slots have one. -/
structure FlagsInv (s : Sys) : Prop where
  live : ∀ fd < MAX_HOOKFD, 0 ≤ s.hookfds fd → s.kfds fd ≠ none
  set : ∀ i fd, s.Maps fd i → (s.fs.fileStates i).flags = MYFS_FILE_OPENED
  clear : ∀ i, (∀ fd, ¬ s.Maps fd i) → (s.fs.fileStates i).flags = 0

theorem FlagsInv.right {s : Sys} (h : FlagsInv s) : FlagsRight s := by
  intro i
  constructor
  · intro hf
    apply Classical.byContradiction
    intro hno
    rw [h.clear i fun fd hm => hno ⟨fd, hm⟩] at hf
    exact hf (by decide)
  · rintro ⟨fd, hm⟩
    rw [h.set i fd hm]
    decide

/-- The slot that a successful `myfs_open` returns. -/
theorem names_of_open {s s' : State} {filename : CStr} {i : Nat}
    (h : myfsOpen s filename = .ok (i, s')) :
    Names s.sb filename i := by
  obtain ⟨hi, ⟨hm, hlow, -⟩ | ⟨hno, hn, hl, -⟩⟩ := myfsOpen_ok h
  · exact ⟨hi, .inl ⟨hm, hlow⟩⟩
  · exact ⟨hi, .inr ⟨hno, hn, myfsOpen_first h hl hno⟩⟩

/-- No slot before the one that is named. -/
theorem names_le {sb : Superblock} {filename : CStr} {i j : Nat} (hi : Names sb filename i)
    (hj : Names sb filename j) : j ≤ i := by
  apply Nat.le_of_not_lt
  intro hlt
  obtain ⟨hib, ⟨hm, -⟩ | ⟨hno, hn, -⟩⟩ := hi
  · obtain ⟨-, ⟨-, hlow⟩ | ⟨hno, -⟩⟩ := hj
    · rw [hlow i hlt] at hm
      cases hm
    · rw [hno i hib] at hm
      cases hm
  · obtain ⟨hjb, ⟨hm, -⟩ | ⟨-, -, hlow⟩⟩ := hj
    · rw [hno j hjb] at hm
      cases hm
    · exact absurd hn (hlow i hlt)

theorem names_unique {sb : Superblock} {filename : CStr} {i j : Nat} (hi : Names sb filename i)
    (hj : Names sb filename j) : i = j := Nat.le_antisymm (names_le hj hi) (names_le hi hj)

theorem close_flags (fs : State) (i k : Nat) : ((myfsClose fs i).fileStates k).flags =
    if k = i then (fs.fileStates i).flags ^^^ MYFS_FILE_OPENED else (fs.fileStates k).flags := by
  unfold myfsClose
  by_cases hk : k = i <;> simp [hk]

section
variable {env : Env} {s s' : Sys}

theorem FlagsInv.init (h : (fdOps env).init s) : FlagsInv s := by
  obtain ⟨⟨sb, hfs⟩, hu⟩ := h
  have hneg : ∀ fd < MAX_HOOKFD, ¬ 0 ≤ s.hookfds fd := fun fd hfd => by
    rw [hu fd hfd]
    decide
  refine ⟨fun fd hfd h0 => absurd h0 (hneg fd hfd), fun i fd hm => ?_, fun i _ => by rw [hfs]; rfl⟩
  exact absurd (by rw [hm.2.2]; exact Int.natCast_nonneg i) (hneg fd hm.1)

/-- An open of a file that is not redirected. -/
theorem FlagsInv.kopen (h : FlagsInv s) {filename : CStr} {ret : Int} (h0 : 0 ≤ ret) :
    FlagsInv (s.kopen filename ret none) := by
  simp only [Sys.kopen, h0, ↓reduceIte]
  have hmaps : ∀ fd i, Sys.Maps { s with
      kfds := Function.update s.kfds ret (some ⟨s.opens, some filename, none⟩)
      opens := s.opens + 1 } fd i ↔ s.Maps fd i := by
    intro fd i
    unfold Sys.Maps
    simp only [Function.update_apply]
    constructor
    · rintro ⟨h1, -, h3⟩
      exact ⟨h1, h.live fd h1 (by rw [h3]; exact Int.natCast_nonneg i), h3⟩
    · rintro ⟨h1, h2, h3⟩
      refine ⟨h1, ?_, h3⟩
      split
      · exact Option.some_ne_none _
      · exact h2
  refine ⟨fun fd hfd hge => ?_, fun i fd hm => h.set i fd ((hmaps fd i).1 hm),
    fun i hno => h.clear i fun fd hm => hno fd ((hmaps fd i).2 hm)⟩
  simp only [Function.update_apply]
  split
  · exact Option.some_ne_none _
  · exact h.live fd hfd hge

/-- After an open of a redirected file. -/
theorem maps_open {s : Sys} {r : Nat} (hk : s.kfds r = none) (filename : CStr) (i : Nat)
    (fs : State) (fd j : Nat) : Sys.Maps { s with
      fs := fs
      hookfds := Function.update s.hookfds r i
      curPos := Function.update s.curPos r 0
      kfds := Function.update s.kfds r (some ⟨s.opens, some filename, some i⟩)
      opens := s.opens + 1 } fd j ↔
    ((fd = r ∧ r < MAX_HOOKFD) ∧ j = i) ∨ s.Maps fd j := by
  unfold Sys.Maps
  simp only [Function.update_apply, Int.ofNat_inj]
  by_cases hfd : fd = r
  · subst hfd
    simp only [↓reduceIte, ne_eq, reduceCtorEq, not_false_eq_true, true_and, Int.ofNat_inj, hk,
      not_true_eq_false, false_and, and_false, or_false]
    exact ⟨fun hx => ⟨hx.1, hx.2.symm⟩, fun hx => ⟨hx.1, hx.2.symm⟩⟩
  · simp only [hfd, ↓reduceIte, false_and, false_or]

/-- An open of a redirected file. -/
theorem FlagsInv.openat (h : FlagsInv s) {filename : CStr} {ret : Int} {i : Nat} {fs : State}
    (h0 : 0 ≤ ret) (hk : s.kfds ret = none) (ho : myfsOpen s.fs filename = .ok (i, fs))
    (h1 : ret < MAX_HOOKFD) :
    FlagsInv { s.kopen filename ret (some i) with
      fs := fs
      hookfds := Function.update s.hookfds ret.toNat i
      curPos := Function.update s.curPos ret.toNat 0 } := by
  obtain ⟨r, rfl⟩ := Int.eq_ofNat_of_zero_le h0
  simp only [Sys.kopen, h0, ↓reduceIte, Int.toNat_natCast]
  refine ⟨fun fd hfd hge => ?_, fun j fd hm => ?_, fun j hno => ?_⟩
  · simp only [Function.update_apply, Int.ofNat_inj] at hge ⊢
    split
    · exact Option.some_ne_none _
    · rename_i hne
      rw [if_neg hne] at hge
      exact h.live fd hfd hge
  · show (fs.fileStates j).flags = _
    rw [open_flags ho j]
    split
    · rfl
    · rename_i hne
      exact h.set j fd (((maps_open hk filename i fs fd j).1 hm).resolve_left fun hx => hne hx.2)
  · have hr : r < MAX_HOOKFD := Int.ofNat_lt.1 h1
    have hji : j ≠ i := fun hx => hno r ((maps_open hk filename i fs r j).2 (.inl ⟨⟨rfl, hr⟩, hx⟩))
    show (fs.fileStates j).flags = _
    rw [open_flags ho j, if_neg hji]
    exact h.clear j fun fd hm => hno fd ((maps_open hk filename i fs fd j).2 (.inr hm))

/-- A failed open of a file that is open. -/
theorem FlagsInv.failed (h : FlagsInv s) {filename : CStr} {i fd : Nat} {fs : State}
    (ho : myfsOpen s.fs filename = .ok (i, fs)) (hm : s.Maps fd i) :
    FlagsInv { s with fs := fs } := by
  refine ⟨h.live, fun j k hk => ?_, fun j hno => ?_⟩
  · show (fs.fileStates j).flags = _
    rw [open_flags ho j]
    split
    · rfl
    · exact h.set j k hk
  · have hji : j ≠ i := fun hx => hno fd (hx ▸ hm)
    show (fs.fileStates j).flags = _
    rw [open_flags ho j, if_neg hji]
    exact h.clear j hno

/-- After a close of a redirected descriptor. -/
theorem maps_close (s : Sys) (fd i k j : Nat) : Sys.Maps (Sys.kclose { s with
      fs := myfsClose s.fs i
      hookfds := Function.update s.hookfds fd NOT_USED_FD } fd) k j ↔ k ≠ fd ∧ s.Maps k j := by
  unfold Sys.Maps Sys.kclose
  simp only [Function.update_apply, Int.ofNat_inj]
  by_cases hk : k = fd
  · simp [hk]
  · simp [hk]

theorem FlagsInv.close (h : FlagsInv s) {fd i : Nat} (hfd : fd < MAX_HOOKFD) (hi : s.hookfds fd = i)
    (hone : ∀ other, s.Maps other i → other = fd) : FlagsInv (Sys.kclose { s with
      fs := myfsClose s.fs i
      hookfds := Function.update s.hookfds fd NOT_USED_FD } fd) := by
  have hm : s.Maps fd i := ⟨hfd, h.live fd hfd (by rw [hi]; exact Int.natCast_nonneg i), hi⟩
  refine ⟨fun k hk hge => ?_, fun j k hkj => ?_, fun j hno => ?_⟩
  · simp only [Sys.kclose, Function.update_apply, Int.ofNat_inj] at hge ⊢
    by_cases hkf : k = fd
    · rw [if_pos hkf] at hge
      exact absurd hge (by decide)
    · rw [if_neg hkf] at hge
      rw [if_neg hkf]
      exact h.live k hk hge
  · obtain ⟨hne, hkj⟩ := (maps_close s fd i k j).1 hkj
    show ((myfsClose s.fs i).fileStates j).flags = _
    rw [close_flags, if_neg fun hj : j = i => hne (hone k (hj ▸ hkj))]
    exact h.set j k hkj
  · show ((myfsClose s.fs i).fileStates j).flags = _
    rw [close_flags]
    split
    · rw [h.set i fd hm]
      decide
    · rename_i hj
      refine h.clear j fun k hkj => ?_
      refine hno k ((maps_close s fd i k j).2 ⟨fun hk => hj ?_, hkj⟩)
      have := hkj.2.2
      rw [hk, hi] at this
      omega

/-- A close of a descriptor that is not redirected. -/
theorem FlagsInv.kclose (h : FlagsInv s) {fd : Int} (hneg : s.hookfds fd.toNat < 0) :
    FlagsInv (s.kclose fd) := by
  have hne : ∀ k : Nat, 0 ≤ s.hookfds k → (k : Int) ≠ fd := fun k hk he => by
    rw [← he, Int.toNat_natCast] at hneg
    omega
  have hmaps : ∀ k j, (s.kclose fd).Maps k j ↔ s.Maps k j := by
    intro k j
    unfold Sys.Maps Sys.kclose
    simp only [Function.update_apply]
    constructor
    · rintro ⟨h1, h2, h3⟩
      rw [if_neg (hne k (by rw [h3]; exact Int.natCast_nonneg j))] at h2
      exact ⟨h1, h2, h3⟩
    · rintro ⟨h1, h2, h3⟩
      rw [if_neg (hne k (by rw [h3]; exact Int.natCast_nonneg j))]
      exact ⟨h1, h2, h3⟩
  refine ⟨fun k hk hge => ?_, fun j k hm => h.set j k ((hmaps k j).1 hm),
    fun j hno => h.clear j fun k hm => hno k ((hmaps k j).2 hm)⟩
  simp only [Sys.kclose, Function.update_apply, if_neg (hne k hge)]
  exact h.live k hk hge

theorem FlagsInv.step {op : FdOp} (h : FlagsInv s) (hc : KeepsFlags env s op)
    (hs : FdStep env s op s') :
    FlagsInv s' := by
  cases hs with
  | openat h0 hk ho =>
    rcases hookOpenat_ok ho with ⟨-, rfl⟩ | ⟨-, -, h1, i, fs, hopen, rfl⟩
    · exact h.kopen h0
    · exact h.openat h0 hk hopen h1
  | @failed filename ret o hneg ho =>
    cases hh : isHookedFilename env filename with
    | error e =>
      rw [hookOpenatStores, hh] at ho
      cases ho
    | ok b =>
      cases b with
      | false =>
        rw [hookOpenatStores, hh] at ho
        cases ho
        exact h
      | true =>
        obtain ⟨i, fs, hopen, rfl⟩ := stores_hooked hh ho
        obtain ⟨j, hn, fd, hm⟩ := hc hh hneg
        obtain rfl := names_unique hn (names_of_open hopen)
        exact h.failed hopen hm
  | @close _ fd hcl =>
    obtain ⟨h0, h1, ⟨hneg, rfl⟩ | ⟨i, hi, rfl⟩⟩ := hookClose_ok hcl
    · exact h.kclose hneg
    · obtain ⟨n, rfl⟩ := Int.eq_ofNat_of_zero_le h0
      exact h.close (Int.ofNat_lt.1 h1) hi fun other hm => Int.ofNat_inj.1 (hc i hi other hm)

theorem flagsInv_of_reach (h : (fdOps env).ReachIf (KeepsFlags env) s) : FlagsInv s := by
  refine LTS.ReachIf.induct (P := FlagsInv) (fun s hi => FlagsInv.init hi) ?_ h
  intro s op s' hi hc hs
  exact hi.step hc hs

/-- A step that does not meet the condition makes a flag wrong. -/
theorem FlagsInv.spoiled {op : FdOp} (h : FlagsInv s) (hc : ¬ KeepsFlags env s op)
    (hs : FdStep env s op s') : ¬ FlagsRight s' := by
  intro hr
  cases hs with
  | openat h0 hk ho => exact hc fun _ hneg => absurd h0 (by omega)
  | @failed filename ret o hneg ho =>
    refine hc fun hh _ => ?_
    obtain ⟨i, fs, hopen, rfl⟩ := stores_hooked hh ho
    have hset : (fs.fileStates i).flags &&& MYFS_FILE_OPENED ≠ 0 := by
      rw [open_flags hopen i, if_pos rfl]
      decide
    exact ⟨i, names_of_open hopen, (hr i).1 hset⟩
  | @close _ fd hcl =>
    refine hc fun i hi other hm => ?_
    obtain ⟨h0, h1, ⟨hneg, -⟩ | ⟨j, hj, rfl⟩⟩ := hookClose_ok hcl
    · rw [hi] at hneg
      omega
    · obtain rfl := Int.ofNat_inj.1 (hi.symm.trans hj)
      obtain ⟨n, rfl⟩ := Int.eq_ofNat_of_zero_le h0
      apply Classical.byContradiction
      intro hne
      -- the other descriptor is still there, but the flag was set before
      refine (hr i).2 ⟨other, (maps_close s n i other i).2 ⟨fun he => hne (by rw [he]), hm⟩⟩ ?_
      show ((myfsClose s.fs i).fileStates i).flags &&& MYFS_FILE_OPENED = 0
      rw [close_flags, if_pos rfl, h.set i other hm]
      decide

/-- **The opened flag** is right in every run in which no refused open is of a redirected file that
is not open, and every close is of the only descriptor of its file; and a step that is not so makes
it wrong. -/
theorem opened_flag_right (h : (fdOps env).ReachIf (KeepsFlags env) s) : FlagsRight s ∧
    ∀ op s', FdStep env s op s' → (FlagsRight s' ↔ KeepsFlags env s op) := by
  have hi := flagsInv_of_reach h
  refine ⟨hi.right, fun op s' hs => ⟨fun hr => ?_, fun hc => (hi.step hc hs).right⟩⟩
  apply Classical.byContradiction
  intro hc
  exact hi.spoiled hc hs hr

end

/-! ## Two descriptors -/

/-- "f" is redirected. -/
def hooksF : Env := ⟨[⟨[102], by decide⟩], none⟩

theorem fdOps_openat {C : Sys → FdOp → Prop} {s : Sys} {i : Nat} {fs : State}
    (hr : (fdOps hooksF).ReachIf C s) (ret : Nat) (hC : C s (.openat ⟨[102], by decide⟩ ret))
    (hk : s.kfds ret = none) (h1 : ret < MAX_HOOKFD)
    (ho : myfsOpen s.fs ⟨[102], by decide⟩ = .ok (i, fs)) :
    ∃ s', (fdOps hooksF).ReachIf C s' ∧ s'.fs = fs ∧ s'.hookfds = Function.update s.hookfds ret i ∧
      s'.kfds = Function.update s.kfds ret (some ⟨s.opens, some ⟨[102], by decide⟩, some i⟩) := by
  refine ⟨_, hr.step hC (.openat (Int.natCast_nonneg ret) hk
    (hookOpenat_hooked (by decide) (Int.natCast_nonneg ret) (Int.ofNat_lt.2 h1) ho)), rfl, rfl, ?_⟩
  simp only [Sys.kopen, Int.natCast_nonneg, ↓reduceIte]

/-- The first open of "f", as descriptor 3. -/
theorem first_fd {C : Sys → FdOp → Prop} (hC : C Sys.start (.openat ⟨[102], by decide⟩ (3 : Nat))) :
    ∃ s, (fdOps hooksF).ReachIf C s ∧ s.fs = openedFs ⟨[102], by decide⟩ ∧ s.Maps 3 0 ∧
      s.kfds 4 = none := by
  have hM := MAX_HOOKFD_eq
  have ho : myfsOpen Sys.start.fs ⟨[102], by decide⟩ = .ok (0, openedFs ⟨[102], by decide⟩) :=
    open_fresh (by decide) (by rw [MYFS_MAX_NAMELEN_eq]; decide)
  obtain ⟨s, hs, hfs, hh, hk⟩ := fdOps_openat (.init ⟨⟨_, rfl⟩, fun _ _ => rfl⟩) 3 hC rfl
    (by omega) ho
  refine ⟨s, hs, hfs, ⟨by omega, ?_, ?_⟩, ?_⟩
  · rw [hk]
    exact Option.some_ne_none _
  · rw [hh]
    rfl
  · rw [hk]
    rfl

/-- The second open, as descriptor 4. -/
theorem second_fd {C : Sys → FdOp → Prop} {s : Sys} (hr : (fdOps hooksF).ReachIf C s)
    (hC : C s (.openat ⟨[102], by decide⟩ (4 : Nat))) (hfs : s.fs = openedFs ⟨[102], by decide⟩)
    (hm : s.Maps 3 0) (hk : s.kfds 4 = none) :
    ∃ s', (fdOps hooksF).ReachIf C s' ∧ s'.Maps 3 0 ∧ s'.Maps 4 0 ∧
      (s'.fs.fileStates 0).flags = MYFS_FILE_OPENED := by
  have hM := MAX_HOOKFD_eq
  have hname : (s.fs.sb.file 0).name = ⟨[102], by decide⟩ := by
    rw [hfs, opened_file MYFS_MAX_FILES_pos]
    rfl
  have ho : myfsOpen s.fs ⟨[102], by decide⟩ = .ok (0, s.fs.setFlags 0 MYFS_FILE_OPENED) :=
    myfsOpen_old MYFS_MAX_FILES_pos (nameMatches_iff.2 (by rw [hname])) fun k hk =>
      absurd hk (Nat.not_lt_zero k)
  obtain ⟨s', hs, hfs', hh, hkf⟩ := fdOps_openat hr 4 hC hk (by omega) ho
  refine ⟨s', hs, ⟨by omega, ?_, ?_⟩, ⟨by omega, ?_, ?_⟩, ?_⟩
  · rw [hkf, Function.update_of_ne (by decide)]
    exact hm.2.1
  · rw [hh, Function.update_of_ne (by decide)]
    exact hm.2.2
  · rw [hkf]
    exact Option.some_ne_none _
  · rw [hh]
    rfl
  · rw [hfs', setFlags_fileStates]
    rfl

theorem opened_flag_right_second : ∃ s, (fdOps hooksF).Reach s ∧ s.Maps 3 0 ∧ s.Maps 4 0 ∧
    FlagsRight s := by
  obtain ⟨s1, h1, hfs, hm, hk⟩ := first_fd (C := KeepsFlags hooksF) fun _ hneg =>
    absurd hneg (by decide)
  obtain ⟨s2, h2, h3, h4, -⟩ := second_fd h1 (fun _ hneg => absurd hneg (by decide)) hfs hm hk
  exact ⟨s2, h2.reach, h3, h4, (opened_flag_right h2).1⟩

/-- "f" is opened twice, as 3 and 4, and 4 is closed: the flag of slot 0 is cleared while 3 is open,
and references on the slot are not counted any more. -/
theorem opened_flag_lost : ∃ s, (fdOps hooksF).Reach s ∧ s.Maps 3 0 ∧
    (s.fs.fileStates 0).flags = 0 ∧ (myfsIncrementRef s.fs 0).2 = -1 ∧ ¬ FlagsRight s := by
  have hM := MAX_HOOKFD_eq
  obtain ⟨s1, h1, hfs1, hm1, hk1⟩ := first_fd (C := fun _ _ => True) trivial
  obtain ⟨s2, h2, h3, h4, hflag⟩ := second_fd h1 trivial hfs1 hm1 hk1
  have hcl : hookClose s2 4 = .ok (Sys.kclose { s2 with
      fs := myfsClose s2.fs 0
      hookfds := Function.update s2.hookfds (4 : Int).toNat NOT_USED_FD } 4) :=
    hookClose_hooked (by decide) (by rw [hM]; decide) h4.2.2
  refine ⟨_, h2.step trivial (.close hcl), ?_⟩
  have hm : Sys.Maps (Sys.kclose { s2 with
      fs := myfsClose s2.fs 0
      hookfds := Function.update s2.hookfds (4 : Int).toNat NOT_USED_FD } 4) 3 0 :=
    (maps_close s2 4 0 3 0).2 ⟨by decide, h3⟩
  have h0 : ((myfsClose s2.fs 0).fileStates 0).flags = 0 := by
    rw [close_flags, if_pos rfl, hflag]
    decide
  refine ⟨hm, h0, ?_, fun hr => ?_⟩
  · show (myfsIncrementRef (myfsClose s2.fs 0) 0).2 = -1
    unfold myfsIncrementRef
    rw [h0, if_neg (by decide)]
  · refine (hr 0).2 ⟨3, hm⟩ ?_
    show ((myfsClose s2.fs 0).fileStates 0).flags &&& MYFS_FILE_OPENED = 0
    rw [h0]
    decide

end Hook
