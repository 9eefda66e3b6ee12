import Staut.Hook.Sys
import Staut.Myfs.Proof.Fresh

/-!
# What the hooked calls do

One lemma for each call of `Staut.Hook.Sys`: if it returns, which branch was taken and what the new
state is. The results about runs use only these.
-/

set_option autoImplicit false

namespace Hook

open CSem Run Myfs Nvme

theorem hookfd_ok {s : Sys} {fd h : Int} (hf : s.hookfd fd = .ok h) :
    0 ≤ fd ∧ fd < MAX_HOOKFD ∧ h = s.hookfds fd.toNat := by
  unfold Sys.hookfd at hf
  split at hf
  · rename_i hb
    cases hf
    exact ⟨hb.1, hb.2, rfl⟩
  · cases hf

theorem hookfd_of_range {s : Sys} {fd : Int} (h1 : 0 ≤ fd) (h2 : fd < MAX_HOOKFD) :
    s.hookfd fd = .ok (s.hookfds fd.toNat) := if_pos ⟨h1, h2⟩

theorem hookOpenat_ok {env : Env} {s s' : Sys} {filename : CStr} {ret : Int}
    (h : hookOpenat env s filename ret = .ok s') :
    (isHookedFilename env filename = .ok false ∧ s' = s.kopen filename ret none) ∨
    (isHookedFilename env filename = .ok true ∧ 0 ≤ ret ∧ ret < MAX_HOOKFD ∧
      ∃ i fs, myfsOpen s.fs filename = .ok (i, fs) ∧
        s' = { s.kopen filename ret (some i) with
          fs := fs
          hookfds := Function.update s.hookfds ret.toNat i
          curPos := Function.update s.curPos ret.toNat 0 }) := by
  unfold hookOpenat at h
  cases hh : isHookedFilename env filename with
  | error e =>
    rw [hh] at h
    cases h
  | ok b =>
    rw [hh] at h
    cases b with
    | false =>
      cases h
      exact .inl ⟨rfl, rfl⟩
    | true =>
      refine .inr ⟨rfl, ?_⟩
      by_cases hr : ret < MAX_HOOKFD
      · cases ho : myfsOpen s.fs filename with
        | error e => simp [bind, Except.bind, hr, ho] at h
        | ok p =>
          by_cases h0 : ret < 0
          · simp [bind, Except.bind, hr, ho, h0, throw, throwThe, MonadExceptOf.throw] at h
          · simp only [bind, Except.bind, hr, ho, h0, ↓reduceIte, pure, Except.pure,
              Except.ok.injEq] at h
            exact ⟨by omega, hr, p.1, p.2, rfl, h.symm⟩
      · simp [bind, Except.bind, hr, throw, throwThe, MonadExceptOf.throw] at h

theorem hookOpenat_hooked {env : Env} {s : Sys} {filename : CStr} {ret : Int} {i : Nat} {fs : State}
    (hh : isHookedFilename env filename = .ok true) (h0 : 0 ≤ ret) (h1 : ret < MAX_HOOKFD)
    (ho : myfsOpen s.fs filename = .ok (i, fs)) :
    hookOpenat env s filename ret = .ok { s.kopen filename ret (some i) with
      fs := fs
      hookfds := Function.update s.hookfds ret.toNat i
      curPos := Function.update s.curPos ret.toNat 0 } := by
  unfold hookOpenat
  rw [hh]
  have h2 : ¬ ret < 0 := by omega
  simp only [bind, Except.bind, h1, ho, h2, ↓reduceIte, pure, Except.pure]

theorem hookClose_ok {s s' : Sys} {fd : Int} (h : hookClose s fd = .ok s') :
    0 ≤ fd ∧ fd < MAX_HOOKFD ∧
      ((s.hookfds fd.toNat < 0 ∧ s' = s.kclose fd) ∨
        ∃ i : Nat, s.hookfds fd.toNat = i ∧
          s' = Sys.kclose { s with
            fs := myfsClose s.fs i
            hookfds := Function.update s.hookfds fd.toNat NOT_USED_FD } fd) := by
  unfold hookClose at h
  cases hf : s.hookfd fd with
  | error e =>
    rw [hf] at h
    cases h
  | ok x =>
    rw [hf] at h
    obtain ⟨h1, h2, rfl⟩ := hookfd_ok hf
    refine ⟨h1, h2, ?_⟩
    by_cases h0 : 0 ≤ s.hookfds fd.toNat
    · simp only [bind, Except.bind, h0, ↓reduceIte, pure, Except.pure, Except.ok.injEq] at h
      exact .inr ⟨(s.hookfds fd.toNat).toNat, (Int.toNat_of_nonneg h0).symm, h.symm⟩
    · simp only [bind, Except.bind, h0, ↓reduceIte, pure, Except.pure, Except.ok.injEq] at h
      exact .inl ⟨by omega, h.symm⟩

theorem hookClose_hooked {s : Sys} {fd : Int} {i : Nat} (h1 : 0 ≤ fd) (h2 : fd < MAX_HOOKFD)
    (hi : s.hookfds fd.toNat = i) : hookClose s fd = .ok (Sys.kclose { s with
      fs := myfsClose s.fs i
      hookfds := Function.update s.hookfds fd.toNat NOT_USED_FD } fd) := by
  unfold hookClose
  rw [hookfd_of_range h1 h2, hi]
  simp only [bind, Except.bind, Int.natCast_nonneg, ↓reduceIte, Int.toNat_natCast, pure,
    Except.pure]

theorem hookIo_ok {s s' : Sys} {op : Io} {fd count : Int} {buf coreId : Nat} {rid : Nat → Int}
    (h : hookIo s op fd count buf coreId rid = .ok s') :
    0 ≤ fd ∧ fd < MAX_HOOKFD ∧
      ((s.hookfds fd.toNat < 0 ∧ s' = s) ∨
        ∃ (i : Nat) (fs : State) (c : IoCall), s.hookfds fd.toNat = i ∧
          ioImpl op.kind s.fs i count (op.pos (s.curPos fd.toNat)) buf coreId rid = .ok (fs, c) ∧
          s' = { s with fs := fs, calls := s.calls ++ [⟨c, fd, s.kfds fd, op.adv count⟩] }) := by
  unfold hookIo at h
  cases hf : s.hookfd fd with
  | error e =>
    rw [hf] at h
    cases h
  | ok x =>
    rw [hf] at h
    obtain ⟨h1, h2, rfl⟩ := hookfd_ok hf
    refine ⟨h1, h2, ?_⟩
    by_cases h0 : 0 ≤ s.hookfds fd.toNat
    · cases hi : ioImpl op.kind s.fs (s.hookfds fd.toNat).toNat count
        (op.pos (s.curPos fd.toNat)) buf coreId rid with
      | error e => simp [bind, Except.bind, h0, hi] at h
      | ok p =>
        simp only [bind, Except.bind, h0, hi, ↓reduceIte, pure, Except.pure, Except.ok.injEq] at h
        exact .inr ⟨_, p.1, p.2, (Int.toNat_of_nonneg h0).symm, hi, h.symm⟩
    · simp only [bind, Except.bind, h0, ↓reduceIte, pure, Except.pure, Except.ok.injEq] at h
      exact .inl ⟨by omega, h.symm⟩

theorem hookIo_hooked {s : Sys} {op : Io} {fd count : Int} {buf coreId : Nat} {rid : Nat → Int}
    {i : Nat} {fs : State} {c : IoCall} (h1 : 0 ≤ fd) (h2 : fd < MAX_HOOKFD)
    (hi : s.hookfds fd.toNat = i)
    (hc : ioImpl op.kind s.fs i count (op.pos (s.curPos fd.toNat)) buf coreId rid = .ok (fs, c)) :
    hookIo s op fd count buf coreId rid =
      .ok { s with fs := fs, calls := s.calls ++ [⟨c, fd, s.kfds fd, op.adv count⟩] } := by
  unfold hookIo
  rw [hookfd_of_range h1 h2, hi]
  simp only [bind, Except.bind, Int.natCast_nonneg, ↓reduceIte, Int.toNat_natCast, hc, pure,
    Except.pure]

/-- The start of an I/O call: a reference is taken, if the slot's flags allow it. -/
theorem ioImpl_ok {kind : Kind} {s fs : State} {i : Nat} {len pos : Int} {buf coreId : Nat}
    {rid : Nat → Int} {c : IoCall} (h : ioImpl kind s i len pos buf coreId rid = .ok (fs, c)) :
    fs = (myfsIncrementRef s i).1 ∧ c.hookfd = i ∧ c.kind = kind ∧ c.pc = .outer := by
  cases kind with
  | read =>
    unfold ioImpl readImpl at h
    dsimp only at h
    split at h
    · cases h
    · cases h
      exact ⟨rfl, rfl, rfl, rfl⟩
  | write =>
    unfold ioImpl writeImpl at h
    dsimp only at h
    split at h
    · cases h
    · cases h
      exact ⟨rfl, rfl, rfl, rfl⟩

/-- `write_impl` of one sector, up to its loops. -/
theorem writeImpl_sector (fs : State) {pos : Nat} (buf : Nat) (rid : Nat → Int)
    (hpos : pos % 512 = 0) :
    writeImpl fs 0 512 pos buf 0 rid = .ok ((myfsIncrementRef fs 0).1,
      ⟨.write, 0, 512, pos, buf, 0, 512, 0, rid, .outer⟩) := by
  have htmod : (pos : Int).tmod 512 = 0 := by
    show (pos : Int).tmod ((512 : Nat) : Int) = 0
    rw [← Int.ofNat_tmod, hpos]
    rfl
  have hblk : blkszOf 512 pos = 512 := if_pos (.inl (by decide))
  unfold writeImpl
  rw [if_neg (not_not.2 htmod), hblk]

/-- Its offset in `myfs_get_lba`. -/
theorem u64_offset {pos : Nat} (hk : pos / MYFS_BLOCK_SIZE < MYFS_MAX_BLOCKS_PER_FILE) :
    u64 ((pos : Int) + 0) = pos := by
  rw [MYFS_BLOCK_SIZE_eq, MYFS_MAX_BLOCKS_PER_FILE_eq] at hk
  unfold u64
  omega

/-- A read at or past the end of the file makes no request. -/
theorem readImpl_past_end {s : State} {i : Nat} (len pos : Int) (buf coreId : Nat) (rid : Nat → Int)
    (hp : pos.tmod 512 = 0) (h1 : 0 ≤ pos) (h2 : 0 ≤ len) (h3 : pos + len < 2 ^ 63)
    (hsz : myfsGetSize s i ≤ pos) : ∃ c, readImpl s i len pos buf coreId rid =
      .ok ((myfsIncrementRef s i).1, c) ∧ c.hookfd = i ∧ c.pc = .outer ∧ c.j = 0 ∧ c.len ≤ 0 := by
  have hu : (u64 (pos + len) : Int) = pos + len := u64_of_range (by omega) (by omega)
  unfold readImpl
  dsimp only
  rw [if_neg (by simpa using hp), incrementRef_size]
  refine ⟨_, rfl, rfl, rfl, rfl, ?_⟩
  dsimp only
  split
  · rw [wrap64_of_range (by omega) (by omega)]
    omega
  · omega

/-- A step of a call stays on its slot. -/
def Eff.On (i : Nat) : Eff → Prop
  | .tau c => c.hookfd = i
  | .req _ _ _ cont => ∀ rid, (cont rid).hookfd = i
  | .check _ cont => ∀ b, (cont b).hookfd = i
  | .ret => True

@[simp] theorem issued_hookfd (c : IoCall) (rqK : Nat) (rid : Int) :
    (c.issued rqK rid).hookfd = c.hookfd := by
  simp only [IoCall.issued]

theorem next_on (cfg : Cfg) (c : IoCall) : (c.next cfg).On c.hookfd := by
  unfold IoCall.next
  cases c.pc with
  | outer =>
    dsimp only
    split <;> simp only [Eff.On]
  | inner rqK =>
    cases c.kind with
    | read =>
      dsimp only
      split
      · split <;> simp only [Eff.On, issued_hookfd, implies_true]
      · simp only [Eff.On]
    | write =>
      dsimp only
      split <;> simp only [Eff.On, issued_hookfd, implies_true]
  | wait rqK k =>
    dsimp only
    split
    · intro b
      cases b <;> simp only [Bool.false_eq_true, ↓reduceIte]
    · simp only [Eff.On]

/-- One step of a call in progress: it goes on, on the same slot, with the file store unchanged or
after `myfs_get_lba`; or it ends. -/
theorem resume_ok {cfg : Cfg} {s s' : Sys} {k : Nat} {a : Active} {rid : Int} {done : Bool}
    (h : s.resume cfg k a rid done = .ok s') :
    (a.call.next cfg ≠ .ret ∧ ∃ c : IoCall, c.hookfd = a.call.hookfd ∧ ∃ fs : State,
      (fs = s.fs ∨ ∃ offset write lba,
        myfsGetLba s.fs a.call.hookfd offset write = .ok (lba, fs)) ∧
      s' = { s with fs := fs, calls := s.calls.set k { a with call := c } }) ∨
    (a.call.next cfg = .ret ∧ s' = s.finish k a) := by
  have hon := next_on cfg a.call
  unfold Sys.resume at h
  cases he : a.call.next cfg with
  | tau c =>
    rw [he] at hon
    simp only [he, Except.ok.injEq] at h
    exact .inl ⟨nofun, c, hon, s.fs, .inl rfl, h.symm⟩
  | req offset write r cont =>
    rw [he] at hon
    simp only [he] at h
    obtain ⟨⟨lba, fs⟩, hg, hs⟩ := except_bind_ok h
    exact .inl ⟨nofun, cont rid, hon rid, fs, .inr ⟨offset, write, lba, hg⟩,
      (Except.ok.inj hs).symm⟩
  | check r cont =>
    rw [he] at hon
    simp only [he, Except.ok.injEq] at h
    exact .inl ⟨nofun, cont done, hon done, s.fs, .inl rfl, h.symm⟩
  | ret =>
    simp only [he, Except.ok.injEq] at h
    exact .inr ⟨rfl, h.symm⟩

section
variable {cfg : Cfg} {s : Sys} {k : Nat} {a : Active} {rid : Int} {done : Bool}

theorem resume_tau {c : IoCall} (h : a.call.next cfg = .tau c) :
    s.resume cfg k a rid done = .ok { s with calls := s.calls.set k { a with call := c } } := by
  unfold Sys.resume
  rw [h]

theorem resume_req {offset : Nat} {write lba : Int} {r : Int → Req} {cont : Int → IoCall}
    {fs : State} (h : a.call.next cfg = .req offset write r cont)
    (hg : myfsGetLba s.fs a.call.hookfd offset write = .ok (lba, fs)) :
    s.resume cfg k a rid done =
      .ok { s with fs := fs, calls := s.calls.set k { a with call := cont rid } } := by
  unfold Sys.resume
  rw [h]
  exact except_bind_eq hg _

theorem resume_check {n : Int} {cont : Bool → IoCall} (h : a.call.next cfg = .check n cont) :
    s.resume cfg k a rid done =
      .ok { s with calls := s.calls.set k { a with call := cont done } } := by
  unfold Sys.resume
  rw [h]

theorem resume_ret (h : a.call.next cfg = .ret) :
    s.resume cfg k a rid done = .ok (s.finish k a) := by
  unfold Sys.resume
  rw [h]

end

/-! ## The first open

A process that mounts a superblock with no magic number, so that it is set up, and opens one file.
-/

def Sys.start : Sys := ⟨freshFs, fun _ => NOT_USED_FD, fun _ => 0, [], fun _ => none, 0⟩

/-- After `openat` of the hooked name `f` returned `ret`. -/
def Sys.opened (f : CStr) (ret : Nat) : Sys :=
  ⟨openedFs f, Function.update (fun _ => NOT_USED_FD) ret 0, fun _ => 0, [],
    Function.update (fun _ => none) (ret : Int) (some ⟨0, some f, some 0⟩), 1⟩

theorem start_init (env : Env) (cfg : Cfg) : (sys env cfg).init Sys.start :=
  ⟨⟨_, rfl⟩, fun _ _ => rfl, (fun _ _ h => by cases h), rfl, rfl⟩

theorem reach_opened {env : Env} {cfg : Cfg} {C : Sys → Label → Prop} {f : CStr} {ret : Nat}
    (hC : C Sys.start (.openat true f ret)) (hf : f ≠ .empty) (hl : f.strlen < MYFS_MAX_NAMELEN)
    (hh : isHookedFilename env f = .ok true) (hret : ret < MAX_HOOKFD) :
    (sys env cfg).ReachIf C (Sys.opened f ret) := by
  have ho : myfsOpen Sys.start.fs f = .ok (0, openedFs f) := open_fresh hf hl
  have hs := hookOpenat_hooked hh (Int.natCast_nonneg ret) (Int.ofNat_lt.2 hret) ho
  refine .step (.init (start_init env cfg)) hC (Step.openat (fun _ => rfl) (hs.trans ?_))
  have hcur : Function.update (fun _ : Nat => 0) ret 0 = fun _ => 0 := Function.update_eq_self _ _
  simp only [Sys.kopen, Sys.start, Int.natCast_nonneg, ↓reduceIte, Int.toNat_natCast, hcur]
  rfl

/-! ## Building runs -/

section
variable {env : Env} {cfg : Cfg} {C : Sys → Label → Prop} {s : Sys} {i : Nat} {fs : State}
  (hr : (sys env cfg).ReachIf C s)
include hr

theorem reach_openat {f : CStr} (ret : Int) (hC : C s (.openat true f ret))
    (hk : s.kfds ret = none) (hh : isHookedFilename env f = .ok true) (h0 : 0 ≤ ret)
    (h1 : ret < MAX_HOOKFD) (ho : myfsOpen s.fs f = .ok (i, fs)) :
    ∃ s', (sys env cfg).ReachIf C s' ∧ s'.fs = fs ∧
      s'.hookfds = Function.update s.hookfds ret.toNat i ∧ s'.calls = s.calls ∧
      s'.kfds = Function.update s.kfds ret (some ⟨s.opens, some f, some i⟩) := by
  refine ⟨_, hr.step hC (Step.openat (fun _ => hk) (hookOpenat_hooked hh h0 h1 ho)), rfl,
    rfl, ?_, ?_⟩
  · simp only [Sys.kopen, h0, ↓reduceIte]
  · simp only [Sys.kopen, h0, ↓reduceIte]

theorem reach_close (fd : Int) (hC : C s (.close true fd)) (h0 : 0 ≤ fd) (h1 : fd < MAX_HOOKFD)
    (hi : s.hookfds fd.toNat = i) :
    ∃ s', (sys env cfg).ReachIf C s' ∧ s'.fs = myfsClose s.fs i ∧
      s'.hookfds = Function.update s.hookfds fd.toNat NOT_USED_FD ∧ s'.calls = s.calls ∧
      s'.kfds = Function.update s.kfds fd none :=
  ⟨_, hr.step hC (Step.close (hookClose_hooked h0 h1 hi)), rfl, rfl, rfl, rfl⟩

theorem reach_io (op : Io) (fd count : Int) (buf coreId : Nat) (rid : Nat → Int) {c : IoCall}
    (hC : C s (.io true op fd count buf coreId rid)) (h0 : 0 ≤ fd) (h1 : fd < MAX_HOOKFD)
    (hi : s.hookfds fd.toNat = i)
    (hc : ioImpl op.kind s.fs i count (op.pos (s.curPos fd.toNat)) buf coreId rid = .ok (fs, c)) :
    ∃ s', (sys env cfg).ReachIf C s' ∧ s'.fs = fs ∧ s'.hookfds = s.hookfds ∧
      s'.calls = s.calls ++ [⟨c, fd, s.kfds fd, op.adv count⟩] ∧ s'.kfds = s.kfds :=
  ⟨_, hr.step hC (Step.io (hookIo_hooked h0 h1 hi hc)), rfl, rfl, rfl, rfl⟩

theorem reach_unlink {f : CStr} (hC : C s (.unlink true f)) :
    ∃ s', (sys env cfg).ReachIf C s' ∧ s'.fs = myfsUnlink s.fs f ∧ s'.hookfds = s.hookfds ∧
      s'.calls = s.calls ∧ s'.kfds = s.kfds :=
  ⟨_, hr.step hC Step.unlink, rfl, rfl, rfl, rfl⟩

/-- The only call in progress goes on by itself. -/
theorem reach_tau {x : Active} {c : IoCall} (hC : C s (.resume 0 0 true)) (hx : s.calls = [x])
    (hn : x.call.next cfg = .tau c) :
    ∃ s', (sys env cfg).ReachIf C s' ∧ s'.fs = s.fs ∧ s'.hookfds = s.hookfds ∧
      s'.calls = [{ x with call := c }] ∧ s'.kfds = s.kfds := by
  refine ⟨{ s with calls := s.calls.set 0 { x with call := c } },
    hr.step hC (Step.resume (by rw [hx]; rfl) (resume_tau hn)), rfl, rfl, by rw [hx]; rfl, rfl⟩

/-- The only call in progress makes a request, whose id is `n`. -/
theorem reach_req {x : Active} {offset : Nat} {write lba n : Int} {r : Int → Req}
    {cont : Int → IoCall} (hC : C s (.resume 0 n true)) (hx : s.calls = [x])
    (hn : x.call.next cfg = .req offset write r cont)
    (hg : myfsGetLba s.fs x.call.hookfd offset write = .ok (lba, fs)) :
    ∃ s', (sys env cfg).ReachIf C s' ∧ s'.fs = fs ∧ s'.hookfds = s.hookfds ∧
      s'.calls = [{ x with call := cont n }] ∧ s'.kfds = s.kfds := by
  refine ⟨{ s with fs := fs, calls := s.calls.set 0 { x with call := cont n } },
    hr.step hC (Step.resume (by rw [hx]; rfl) (resume_req hn hg)), rfl, rfl, by rw [hx]; rfl, rfl⟩

/-- A check of the only call in progress answers 1. -/
theorem reach_check {x : Active} {n : Int} {cont : Bool → IoCall}
    (hC : C s (.resume 0 0 true)) (hx : s.calls = [x]) (hn : x.call.next cfg = .check n cont) :
    ∃ s', (sys env cfg).ReachIf C s' ∧ s'.fs = s.fs ∧ s'.hookfds = s.hookfds ∧
      s'.calls = [{ x with call := cont true }] ∧ s'.kfds = s.kfds := by
  refine ⟨{ s with calls := s.calls.set 0 { x with call := cont true } },
    hr.step hC (Step.resume (by rw [hx]; rfl) (resume_check hn)), rfl, rfl, by rw [hx]; rfl, rfl⟩

/-- The only call in progress ends. -/
theorem reach_finish {x : Active} (hC : C s (.resume 0 0 true)) (hx : s.calls = [x])
    (hret : x.call.next cfg = .ret) :
    ∃ s', (sys env cfg).ReachIf C s' ∧ s'.fs = myfsDecrementRef s.fs x.call.hookfd ∧
      s'.hookfds = s.hookfds ∧ s'.calls = [] ∧ s'.kfds = s.kfds := by
  refine ⟨s.finish 0 x, hr.step hC (Step.resume (by rw [hx]; rfl) (resume_ret hret)), rfl,
    rfl, ?_, rfl⟩
  simp only [Sys.finish, hx]
  rfl

end

end Hook
