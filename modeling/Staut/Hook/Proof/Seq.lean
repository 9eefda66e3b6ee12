import Staut.Hook.Seq
import Staut.Hook.Proof.Batch
import Staut.Hook.Proof.Refs
import Mathlib.Algebra.BigOperators.Group.List.Basic

/-!
# Sequential I/O on one descriptor

`cur_pos[fd]` is behind by what the calls in progress will add to it (`SeqInv.pos`). A call that
starts alone finds it up to date and gets the range after all earlier ones; one that starts while
another is in progress gets a range that begins inside theirs (`sequential_ranges`). In the end the
position is right in either case.

`PosStep` says once what a step does to `cur_pos[fd]` and the calls in progress.
-/

set_option autoImplicit false

namespace Hook

open CSem Run Myfs Nvme Tile

/-! ## Steps -/

inductive PosStep (fd : Nat) (s : Sys) (l : Label) (s' : Sys) : Prop
  | keep : l.range s fd = [] → s'.curPos fd = s.curPos fd → s'.calls = s.calls → PosStep fd s l s'
  | start {x : Active} {n : Int} : l.range s fd = [⟨wrap64 (s.curPos fd), n⟩] → x.fd.toNat = fd →
      x.adv = some n → s'.curPos fd = s.curPos fd → s'.calls = s.calls ++ [x] → PosStep fd s l s'
  | other {x : Active} : l.range s fd = [] → (x.fd.toNat = fd → x.adv = none) →
      s'.curPos fd = s.curPos fd → s'.calls = s.calls ++ [x] → PosStep fd s l s'
  | go {k : Nat} {x y : Active} : l.range s fd = [] → s.calls[k]? = some x → y.fd = x.fd →
      y.adv = x.adv → s'.curPos fd = s.curPos fd → s'.calls = s.calls.set k y → PosStep fd s l s'
  | finish {k : Nat} {x : Active} : l.range s fd = [] → s.calls[k]? = some x →
      s'.calls = s.calls.eraseIdx k →
      (∀ n, x.fd.toNat = fd → x.adv = some n → s'.curPos fd = u64 (s.curPos fd + n)) →
      ((x.fd.toNat = fd → x.adv = none) → s'.curPos fd = s.curPos fd) → PosStep fd s l s'

@[simp] theorem kopen_curPos (s : Sys) (f : CStr) (ret : Int) (slot : Option Nat) :
    (s.kopen f ret slot).curPos = s.curPos := by
  unfold Sys.kopen
  split <;> rfl

theorem PosStep.ofIo {s s' : Sys} {op : Io} {fd : Nat} {fd' count : Int} {buf coreId : Nat}
    {rid : Nat → Int} (h : hookIo s op fd' count buf coreId rid = .ok s') :
    PosStep fd s (.io true op fd' count buf coreId rid) s' := by
  obtain ⟨h0, -, ⟨hneg, rfl⟩ | ⟨i, fs, c, hi, -, rfl⟩⟩ := hookIo_ok h
  · refine .keep (if_neg fun hc => ?_) rfl rfl
    rw [hc.1, Int.toNat_natCast] at hneg
    omega
  · by_cases hfd : fd' = fd
    · subst hfd
      rw [Int.toNat_natCast] at hi
      have hr : ∀ x : List Range, (if (fd : Int) = fd ∧ 0 ≤ s.hookfds fd then x else []) = x :=
        fun x => if_pos ⟨rfl, by omega⟩
      cases op with
      | read => exact .start (hr _) (Int.toNat_natCast fd) rfl rfl rfl
      | write => exact .start (hr _) (Int.toNat_natCast fd) rfl rfl rfl
      | pread pos => exact .other (hr _) (fun _ => rfl) rfl rfl
      | pwrite pos => exact .other (hr _) (fun _ => rfl) rfl rfl
    · refine .other (if_neg fun hc => hfd hc.1) (fun he => absurd ?_ hfd) rfl rfl
      rw [← he, Int.toNat_of_nonneg h0]

theorem PosStep.ofResume {cfg : Cfg} {s s' : Sys} {fd k : Nat} {a : Active} {rid : Int}
    {done : Bool} (hk : s.calls[k]? = some a) (h : s.resume cfg k a rid done = .ok s') :
    PosStep fd s (.resume k rid done) s' := by
  obtain ⟨-, c, -, fs, -, rfl⟩ | ⟨-, rfl⟩ := resume_ok h
  · exact .go (y := { a with call := c }) rfl hk rfl rfl rfl rfl
  · refine .finish rfl hk rfl (fun n hfd ha => ?_) fun hnone => ?_
    · simp only [Sys.finish, ha, hfd, Function.update_self]
    · cases ha : a.adv with
      | none => simp only [Sys.finish, ha]
      | some n =>
        have hne : fd ≠ a.fd.toNat := fun he => by
          rw [hnone he.symm] at ha
          cases ha
        simp only [Sys.finish, ha, Function.update_of_ne hne]

theorem posStep {env : Env} {cfg : Cfg} {s s' : Sys} {fd : Nat} {l : Label}
    (h : Step env cfg s l s') (ho : ∀ ult f ret, l = .openat ult f ret → ret ≠ fd) :
    PosStep fd s l s' := by
  cases h with
  | @openat _ filename ret _ hop =>
    obtain ⟨-, rfl⟩ | ⟨-, h0, -, i, fs, -, rfl⟩ := hookOpenat_ok hop
    · exact .keep rfl (by simp) (by simp)
    · have hne : fd ≠ ret.toNat := fun he => ho _ _ _ rfl (by rw [he, Int.toNat_of_nonneg h0])
      exact .keep rfl (by simp [hne]) (by simp)
  | kopenat _ => exact .keep rfl (by simp) (by simp)
  | close hc =>
    obtain ⟨-, -, ⟨-, rfl⟩ | ⟨i, -, rfl⟩⟩ := hookClose_ok hc
    · exact .keep rfl rfl rfl
    · exact .keep rfl rfl rfl
  | kclose => exact .keep rfl rfl rfl
  | io hio => exact .ofIo hio
  | kio => exact .keep rfl rfl rfl
  | newfstatat _ => exact .keep rfl rfl rfl
  | knewfstatat => exact .keep rfl rfl rfl
  | unlink => exact .keep rfl rfl rfl
  | kunlink => exact .keep rfl rfl rfl
  | resume hk hr => exact .ofResume hk hr
  | other => exact .keep rfl rfl rfl

/-! ## Ranges -/

/-- The offsets from `cur_pos` on. -/
theorem offsets_curPos (c : Nat) (n : Int) :
    Range.offsets ⟨wrap64 c, n⟩ = arc (2 ^ 64) c n.toNat := by
  have hu : ∀ x : Int, 0 ≤ x → u64 (wrap64 c + x) = (c + x.toNat) % 2 ^ 64 := by
    intro x hx
    have hmod : (wrap64 c + x) % 2 ^ 64 = ((c : Int) + x) % 2 ^ 64 := by
      unfold wrap64
      rw [← Int.emod_add_emod]
      have hb : (c : Int).bmod (2 ^ 64) % 2 ^ 64 = (c : Int) % 2 ^ 64 := Int.bmod_emod
      rw [hb, Int.emod_add_emod]
    unfold u64
    rw [hmod]
    omega
  ext o
  constructor
  · rintro ⟨x, h0, hx, ho⟩
    dsimp only at hx ho
    exact ⟨x.toNat, by omega, ho.trans (hu x h0)⟩
  · rintro ⟨x, hx, ho⟩
    rw [ho]
    refine ⟨x, Int.natCast_nonneg x, show (x : Int) < n by omega, ?_⟩
    dsimp only
    rw [hu x (Int.natCast_nonneg x), Int.toNat_natCast]

@[simp] theorem total_nil : total [] = 0 := rfl

@[simp] theorem total_snoc (rs : List Range) (r : Range) :
    total (rs ++ [r]) = total rs + r.len.toNat := by
  simp [total]

theorem arc_congr {N p q : Nat} (h : p % N = q % N) (n : Nat) : arc N p n = arc N q n := by
  ext o
  have hx : ∀ x, (p + x) % N = (q + x) % N := fun x => Nat.ModEq.add_right x h
  simp [arc, hx]

/-! ## The position -/

theorem pending_go {fd k : Nat} {calls : List Active} {x y : Active} (hk : calls[k]? = some x)
    (hf : y.fd = x.fd) (ha : y.adv = x.adv) :
    (calls.set k y).map (Active.pending fd) = calls.map (Active.pending fd) := by
  have hy : Active.pending fd y = Active.pending fd x := by simp [Active.pending, hf, ha]
  rw [List.map_set, hy]
  refine List.ext_getElem? fun m => ?_
  rw [List.getElem?_set]
  split
  · rename_i hm
    subst hm
    split
    · simp [hk]
    · rename_i hlt
      simp only [List.length_map] at hlt
      simp [List.getElem?_eq_none (Nat.le_of_not_lt hlt)]
  · rfl

theorem pending_erase (fd : Nat) {k : Nat} {calls : List Active} {x : Active}
    (hk : calls[k]? = some x) :
    ((calls.eraseIdx k).map (Active.pending fd)).sum + x.pending fd =
      (calls.map (Active.pending fd)).sum := by
  have hperm := (perm_eraseIdx hk).map (Active.pending fd)
  rw [← hperm.sum_eq, List.map_cons, List.sum_cons, Nat.add_comm]

/-- `cur_pos[fd]` is behind by what is pending. -/
structure SeqInv (fd : Nat) (s : Seq) : Prop where
  start : s.start < 2 ^ 64
  pos : ∃ f, s.sys.curPos fd = (s.start + f) % 2 ^ 64 ∧ f + s.sys.pending fd = total s.ranges
  adv : ∀ a ∈ s.sys.calls, a.fd.toNat = fd → ∀ n, a.adv = some n → 0 ≤ n
  tiled : Consecutive s.start s.ranges

section
variable {env : Env} {cfg : Cfg} {fd : Nat} {s s' : Seq} {l : Label}

/-- A call that starts alone gets the next range. -/
theorem SeqInv.next (h : SeqInv fd s) {n : Int} (hle : total s.ranges + n.toNat ≤ 2 ^ 64)
    (ha : 0 < n → s.sys.pending fd = 0) :
    Consecutive s.start (s.ranges ++ [⟨wrap64 (s.sys.curPos fd), n⟩]) := by
  obtain ⟨f, hpos, hsum⟩ := h.pos
  unfold Consecutive
  rw [List.map_append, total_snoc, List.map_singleton, offsets_curPos]
  show Tiled _ _ (total s.ranges + n.toNat) _
  rcases Int.lt_or_le 0 n with hn | hn
  · have hf : f = total s.ranges := by
      have := ha hn
      omega
    have harc : arc (2 ^ 64) (s.sys.curPos fd) n.toNat =
        arc (2 ^ 64) (s.start + total s.ranges) n.toNat :=
      arc_congr (by rw [hpos, hf, Nat.mod_mod]) _
    rw [harc]
    exact h.tiled.snoc hle
  · rw [Int.toNat_of_nonpos hn]
    have hempty : arc (2 ^ 64) (s.sys.curPos fd) 0 = ∅ := by simp [arc]
    rw [hempty]
    exact h.tiled.snoc_empty

/-- A call that starts while another is in progress gets a range inside theirs. -/
theorem SeqInv.overlap (h : SeqInv fd s) {n : Int} (hn : 0 < n) (hp : s.sys.pending fd ≠ 0) :
    ¬ Consecutive s.start (s.ranges ++ [⟨wrap64 (s.sys.curPos fd), n⟩]) := by
  obtain ⟨f, hpos, hsum⟩ := h.pos
  unfold Consecutive
  rw [List.map_append, List.map_singleton, offsets_curPos]
  have hmem : (s.start + f) % 2 ^ 64 ∈ arc (2 ^ 64) (s.sys.curPos fd) n.toNat := by
    refine ⟨0, by omega, ?_⟩
    rw [hpos, Nat.add_zero, Nat.mod_mod]
  exact h.tiled.not_snoc (by omega) hmem _

/-- The steps that add no range. -/
theorem SeqInv.same (h : SeqInv fd s) (hs : (seqIo env cfg fd).step s l s')
    (hr : l.range s.sys fd = []) {f : Nat} (hpos : s'.sys.curPos fd = (s.start + f) % 2 ^ 64)
    (hsum : f + s'.sys.pending fd = total s.ranges)
    (hadv : ∀ a ∈ s'.sys.calls, a ∈ s.sys.calls ∨ ∃ b ∈ s.sys.calls, b.fd = a.fd ∧ b.adv = a.adv) :
    SeqInv fd s' := by
  obtain ⟨-, hstart, hranges⟩ := hs
  rw [hr, List.append_nil] at hranges
  refine ⟨hstart ▸ h.start, ⟨f, by rw [hstart, hpos], by rw [hranges, hsum]⟩,
    fun a ha hfd n hn => ?_, ?_⟩
  · rcases hadv a ha with ha | ⟨b, hb, hbf, hba⟩
    · exact h.adv a ha hfd n hn
    · exact h.adv b hb (by rw [hbf]; exact hfd) n (by rw [hba]; exact hn)
  · rw [hstart, hranges]
    exact h.tiled

theorem SeqInv.step (h : SeqInv fd s) (hst : Steady fd s l) (ha : Alone fd s l)
    (hs : (seqIo env cfg fd).step s l s') : SeqInv fd s' := by
  obtain ⟨f, hpos, hsum⟩ := h.pos
  cases posStep hs.1 hst.1 with
  | keep hr hc hcalls =>
    refine h.same hs hr (by rw [hc, hpos]) ?_ fun a ha => .inl (hcalls ▸ ha)
    rw [← hsum, Sys.pending, hcalls]
    rfl
  | @start x n hr hfd hadv hc hcalls =>
    obtain ⟨-, hstart, hranges⟩ := hs
    rw [hr] at hranges
    obtain ⟨h0, hle⟩ := hst.2 ⟨_, n⟩ (by rw [hr]; exact List.mem_singleton.2 rfl)
    have h0 : 0 ≤ n := h0
    have halone : 0 < n → s.sys.pending fd = 0 :=
      ha ⟨_, n⟩ (by rw [hr]; exact List.mem_singleton.2 rfl)
    refine ⟨hstart ▸ h.start, ⟨f, by rw [hstart, hc, hpos], ?_⟩, fun a hm hf m hm' => ?_, ?_⟩
    · rw [hranges, total_snoc, ← hsum, Sys.pending, hcalls]
      simp [Active.pending, hfd, hadv, Sys.pending]
      omega
    · rw [hcalls, List.mem_append, List.mem_singleton] at hm
      rcases hm with hm | rfl
      · exact h.adv a hm hf m hm'
      · rw [hadv] at hm'
        cases hm'
        exact h0
    · rw [hstart, hranges]
      exact h.next hle halone
  | @other x hr hfd hc hcalls =>
    obtain ⟨-, hstart, hranges⟩ := hs
    rw [hr, List.append_nil] at hranges
    refine ⟨hstart ▸ h.start, ⟨f, by rw [hstart, hc, hpos], ?_⟩, fun a hm hf m hm' => ?_, ?_⟩
    · have hx : x.pending fd = 0 := by
        unfold Active.pending
        split
        · rename_i he
          rw [hfd he]
          rfl
        · rfl
      rw [hranges, ← hsum, Sys.pending, hcalls]
      simp [hx, Sys.pending]
    · rw [hcalls, List.mem_append, List.mem_singleton] at hm
      rcases hm with hm | rfl
      · exact h.adv a hm hf m hm'
      · rw [hfd hf] at hm'
        cases hm'
    · rw [hstart, hranges]
      exact h.tiled
  | @go k x y hr hk hf hadv hc hcalls =>
    refine h.same hs hr (by rw [hc, hpos]) ?_ fun a ha => ?_
    · rw [← hsum, Sys.pending, hcalls, pending_go hk hf hadv]
      rfl
    · rw [hcalls] at ha
      rcases List.mem_or_eq_of_mem_set ha with hm | rfl
      · exact .inl hm
      · exact .inr ⟨x, List.mem_of_getElem? hk, hf.symm, hadv.symm⟩
  | @finish k x hr hk hcalls hsome hnone =>
    have herase := pending_erase fd hk
    have hsub : ∀ a ∈ s'.sys.calls, a ∈ s.sys.calls := fun a ha => by
      rw [hcalls] at ha
      exact List.mem_of_mem_eraseIdx ha
    by_cases hx : x.fd.toNat = fd → x.adv = none
    · have hzero : x.pending fd = 0 := by
        unfold Active.pending
        split
        · rename_i he
          rw [hx he]
          rfl
        · rfl
      refine h.same hs hr (by rw [hnone hx, hpos]) ?_ fun a ha => .inl (hsub a ha)
      rw [← hsum, Sys.pending, hcalls, Sys.pending]
      omega
    · obtain ⟨hfd, hne⟩ := Classical.not_imp.1 hx
      obtain ⟨n, hn⟩ := Option.ne_none_iff_exists'.1 hne
      have h0 := h.adv x (List.mem_of_getElem? hk) hfd n hn
      have hpend : x.pending fd = n.toNat := by simp [Active.pending, hfd, hn]
      have hnew : s'.sys.curPos fd = (s.start + (f + n.toNat)) % 2 ^ 64 := by
        rw [hsome n hfd hn, hpos]
        unfold u64
        omega
      refine h.same hs hr hnew ?_ fun a ha => .inl (hsub a ha)
      rw [← hsum, Sys.pending, hcalls, Sys.pending]
      omega

theorem seqInv_of_reach
    (h : (seqIo env cfg fd).ReachIf (fun s l => Steady fd s l ∧ Alone fd s l) s) :
    SeqInv fd s := by
  refine LTS.ReachIf.induct (P := SeqInv fd) ?_ ?_ h
  · rintro s ⟨hstart, hlt, hr, hnone⟩
    refine ⟨hlt, ⟨0, ?_, ?_⟩, fun a ha hfd n hn => ?_, ?_⟩
    · rw [Nat.add_zero, Nat.mod_eq_of_lt hlt, hstart]
    · rw [hr, total_nil, Nat.zero_add, Sys.pending, List.sum_eq_zero_iff_forall_eq_nat]
      intro m hm
      obtain ⟨a, ha, rfl⟩ := List.mem_map.1 hm
      unfold Active.pending
      split
      · rename_i he
        rw [hnone a ha he]
        rfl
      · rfl
    · rw [hnone a ha hfd] at hn
      cases hn
    · rw [hr]
      exact Tiled.nil
  · exact fun s l s' hi hc hs => hi.step hc.1 hc.2 hs

/-- **Sequential calls that do not overlap in time do not overlap in the file**: as long as each one
starts alone, their ranges are disjoint and follow each other from the initial position on, and with
none in progress `cur_pos` is behind the last. For the next call this goes on exactly when it starts
alone as well. -/
theorem sequential_ranges
    (h : (seqIo env cfg fd).ReachIf (fun s l => Steady fd s l ∧ Alone fd s l) s) :
    Consecutive s.start s.ranges ∧
    (s.sys.pending fd = 0 → s.sys.curPos fd = (s.start + total s.ranges) % 2 ^ 64) ∧
    ∀ l s', (seqIo env cfg fd).step s l s' → Steady fd s l →
      (Consecutive s'.start s'.ranges ↔ Alone fd s l) := by
  have hi := seqInv_of_reach h
  obtain ⟨f, hpos, hsum⟩ := hi.pos
  refine ⟨hi.tiled, fun h0 => ?_, fun l s' hs hst =>
    ⟨fun hc => ?_, fun ha => (hi.step hst ha hs).tiled⟩⟩
  · rw [hpos, ← hsum, h0, Nat.add_zero]
  · intro r hr hlen
    cases posStep hs.1 hst.1 with
    | @start x n hrange hfd hadv hc' hcalls =>
      rw [hrange, List.mem_singleton] at hr
      subst hr
      apply Classical.byContradiction
      intro hp
      rw [hs.2.1, hs.2.2, hrange] at hc
      exact hi.overlap hlen hp hc
    | keep hrange => rw [hrange] at hr; cases hr
    | other hrange => rw [hrange] at hr; cases hr
    | go hrange => rw [hrange] at hr; cases hr
    | finish hrange => rw [hrange] at hr; cases hr

/-! ## Two writes -/

/-- The name of the file is hooked. -/
def seqEnv : Env := ⟨[⟨[97], by decide⟩], none⟩

def seqCfg : Cfg := ⟨1, 1, 1, 1⟩

/-- A write of one sector by `SYS_write`, before its loops. -/
def sectorWrite (pos : Int) (pc : IoPc) : IoCall :=
  ⟨.write, 0, 512, pos, 0, 0, 512, 0, fun _ => 0, pc⟩

/-- The process after the first open, with descriptor 3. -/
def Seq.opened : Seq := ⟨Sys.opened ⟨[97], by decide⟩ 3, 0, []⟩

theorem opened_init : (seqIo seqEnv seqCfg 3).init Seq.opened :=
  ⟨rfl, by decide, rfl, fun _ ha => nomatch ha⟩

/-- `SYS_write` of one sector on descriptor 3, at the position `p`. -/
theorem reach_sys_write {C : Seq → Label → Prop} (hr : (seqIo seqEnv seqCfg 3).ReachIf C s)
    (hC : C s (.io true .write 3 512 0 0 fun _ => 0)) (hh : s.sys.hookfds 3 = 0) {p : Nat}
    (hp : s.sys.curPos 3 = p) (h512 : p % 512 = 0)
    (hk : p / MYFS_BLOCK_SIZE < MYFS_MAX_BLOCKS_PER_FILE) :
    ∃ s', (seqIo seqEnv seqCfg 3).ReachIf C s' ∧ s'.start = s.start ∧
      s'.ranges = s.ranges ++ [⟨p, 512⟩] ∧ s'.sys.hookfds = s.sys.hookfds ∧
      s'.sys.curPos = s.sys.curPos ∧ s'.sys.fs = (myfsIncrementRef s.sys.fs 0).1 ∧
      s'.sys.calls = s.sys.calls ++ [⟨sectorWrite p .outer, 3, s.sys.kfds 3, some 512⟩] := by
  have hw : wrap64 (p : Int) = p := by
    rw [MYFS_BLOCK_SIZE_eq, MYFS_MAX_BLOCKS_PER_FILE_eq] at hk
    exact wrap64_of_range (by omega) (by omega)
  have hc : ioImpl (Io.kind .write) s.sys.fs 0 512 (Io.pos (s.sys.curPos (Int.toNat 3)) .write) 0 0
      (fun _ => 0) = .ok ((myfsIncrementRef s.sys.fs 0).1, sectorWrite p .outer) := by
    have hpos : s.sys.curPos (Int.toNat 3) = p := hp
    show writeImpl s.sys.fs 0 512 (wrap64 (s.sys.curPos (Int.toNat 3))) 0 0 (fun _ => 0) = _
    rw [hpos, hw]
    exact writeImpl_sector s.sys.fs 0 (fun _ => 0) h512
  have hmax : (3 : Int) < MAX_HOOKFD := by
    rw [MAX_HOOKFD_eq]
    decide
  have hstep := hookIo_hooked (show (0 : Int) ≤ 3 by decide) hmax hh hc
  have hrange : Label.range s.sys 3 (.io true .write 3 512 0 0 fun _ => 0) = [⟨p, 512⟩] := by
    have : Label.range s.sys 3 (.io true .write 3 512 0 0 fun _ => 0) =
        if ((3 : Int) = (3 : Nat)) ∧ 0 ≤ s.sys.hookfds 3 then [⟨wrap64 (s.sys.curPos 3), 512⟩]
          else [] := rfl
    rw [this, if_pos ⟨rfl, by rw [hh]⟩, hp, hw]
  refine ⟨⟨_, s.start, s.ranges ++ [⟨p, 512⟩]⟩, hr.step hC ⟨.io hstep, rfl, by rw [hrange]⟩,
    rfl, rfl, rfl, rfl, rfl, rfl⟩

/-- One step of the first call in progress. -/
theorem reach_first {C : Seq → Label → Prop} (hr : (seqIo seqEnv seqCfg 3).ReachIf C s) (x : Active)
    (rest : List Active) (hx : s.sys.calls = x :: rest) (hC : C s (.resume 0 0 true)) {sys : Sys}
    (hs : s.sys.resume seqCfg 0 x 0 true = .ok sys) :
    (seqIo seqEnv seqCfg 3).ReachIf C ⟨sys, s.start, s.ranges⟩ :=
  hr.step hC ⟨.resume (by rw [hx]; rfl) hs, rfl, (List.append_nil _).symm⟩

/-- The first call in progress runs to its end. -/
theorem reach_sector_done {C : Seq → Label → Prop} (hC : ∀ s, C s (.resume 0 0 true))
    (hr : (seqIo seqEnv seqCfg 3).ReachIf C s) {p : Nat} {d : Option Desc} {rest : List Active}
    (hx : s.sys.calls = ⟨sectorWrite p .outer, 3, d, some 512⟩ :: rest)
    (hk : p / MYFS_BLOCK_SIZE < MYFS_MAX_BLOCKS_PER_FILE) {lba : Int} {fs : State}
    (hg : myfsGetLba s.sys.fs 0 p 1 = .ok (lba, fs)) :
    ∃ s', (seqIo seqEnv seqCfg 3).ReachIf C s' ∧ s'.start = s.start ∧ s'.ranges = s.ranges ∧
      s'.sys.hookfds = s.sys.hookfds ∧ s'.sys.calls = rest ∧ s'.sys.fs = myfsDecrementRef fs 0 ∧
      s'.sys.curPos 3 = u64 (s.sys.curPos 3 + 512) := by
  let c1 := sectorWrite p (.inner 0)
  let c2 := c1.after 0 0
  let c3 : IoCall := { c2 with pc := .outer }
  have hn0 : (sectorWrite p .outer).next seqCfg = .tau c1 := rfl
  have hn1 : c1.next seqCfg = .req p 1 (c1.request .write) (c1.after 0) := by
    show Eff.req (u64 ((p : Int) + 0)) 1 (c1.request .write) (c1.after 0) = _
    rw [u64_offset hk]
  have hn2 : c2.next seqCfg = .tau c3 := by rfl
  have hn3 : c3.next seqCfg = .ret :=
    next_ret.2 ⟨rfl, show (512 : Int) ≤ wrap32 (0 + 512) by decide⟩
  have h1 := reach_first hr _ _ hx (hC _) (resume_tau hn0)
  have h2 := reach_first h1 ⟨c1, 3, d, some 512⟩ rest (by simp [hx]) (hC _) (resume_req hn1 hg)
  have h3 := reach_first h2 ⟨c2, 3, d, some 512⟩ rest (by simp [hx, c2]) (hC _) (resume_tau hn2)
  have h4 := reach_first h3 ⟨c3, 3, d, some 512⟩ rest (by simp [hx]) (hC _) (resume_ret hn3)
  refine ⟨_, h4, rfl, rfl, rfl, ?_, rfl, ?_⟩
  · simp [Sys.finish, hx]
  · simp [Sys.finish]

/-- The first write of the file, to its end: block 0 is there from then on. -/
theorem first_write {C : Seq → Label → Prop} (hC : ∀ s, C s (.resume 0 0 true))
    (hr : (seqIo seqEnv seqCfg 3).ReachIf C s)
    (hsb : s.sys.fs.sb = (openedFs ⟨[97], by decide⟩).sb) {d : Option Desc} {rest : List Active}
    (hx : s.sys.calls = ⟨sectorWrite 0 .outer, 3, d, some 512⟩ :: rest) :
    ∃ s', (seqIo seqEnv seqCfg 3).ReachIf C s' ∧ s'.start = s.start ∧ s'.ranges = s.ranges ∧
      s'.sys.hookfds = s.sys.hookfds ∧ s'.sys.calls = rest ∧
      (s'.sys.fs.sb.file 0).block 0 ≠ INACTIVE_BLOCK ∧
      s'.sys.curPos 3 = u64 (s.sys.curPos 3 + 512) := by
  have hM := MYFS_MAX_BLOCKS_PER_FILE_eq
  have hz : 0 / MYFS_BLOCK_SIZE = 0 := Nat.zero_div _
  obtain ⟨fs, hg, -, -, hfile⟩ := opened_alloc hsb 0 (by rw [hz]; omega)
  obtain ⟨s', h', hs, hr', hh, hc, hf, hp⟩ :=
    reach_sector_done hC hr (p := 0) hx (by rw [hz]; omega) hg
  refine ⟨s', h', hs, hr', hh, hc, ?_, hp⟩
  rw [hf, decrementRef_sb, hfile, hz]
  exact fun h => by cases h

/-- Two writes, one after the other. -/
theorem sequential_ranges_writes : ∃ s, (seqIo seqEnv seqCfg 3).ReachIf
    (fun s l => Steady 3 s l ∧ Alone 3 s l) s ∧ s.ranges = [⟨0, 512⟩, ⟨512, 512⟩] ∧
    Consecutive s.start s.ranges := by
  have hM := MYFS_MAX_BLOCKS_PER_FILE_eq
  have hB := MYFS_BLOCK_SIZE_eq
  have hcond : ∀ s : Seq, s.sys.calls = [] → total s.ranges ≤ 512 →
      Steady 3 s (.io true .write 3 512 0 0 fun _ => 0) ∧
        Alone 3 s (.io true .write 3 512 0 0 fun _ => 0) := by
    intro s hc ht
    refine ⟨⟨(fun _ _ _ h => by cases h), fun r hr => ?_⟩, fun r _ _ => by
      simp [Sys.pending, hc]⟩
    obtain ⟨-, rfl⟩ : _ ∧ r = ⟨wrap64 (s.sys.curPos 3), 512⟩ := by
      simpa [Label.range, Io.adv, Io.pos] using hr
    exact ⟨show (0 : Int) ≤ 512 by decide, by dsimp only; omega⟩
  have hres : ∀ s : Seq, Steady 3 s (.resume 0 0 true) ∧ Alone 3 s (.resume 0 0 true) := fun s =>
    ⟨⟨(fun _ _ _ h => by cases h), fun r hr => by cases hr⟩, fun r hr => by cases hr⟩
  obtain ⟨s1, h1, -, hr1, hh1, hp1, hf1, hc1⟩ :=
    reach_sys_write (C := fun s l => Steady 3 s l ∧ Alone 3 s l) (.init opened_init)
      (hcond _ rfl (by decide)) rfl (p := 0) rfl rfl (by rw [Nat.zero_div]; omega)
  obtain ⟨s2, h2, -, hr2, hh2, hc2, -, hp2⟩ :=
    first_write hres h1 (by rw [hf1, incrementRef_sb]; rfl) hc1
  have hranges : s2.ranges = [⟨0, 512⟩] := by
    rw [hr2, hr1]
    rfl
  obtain ⟨s3, h3, -, hr3, -⟩ := reach_sys_write h2 (hcond _ hc2 (by rw [hranges]; decide))
    (by rw [hh2, hh1]; rfl) (p := 512) (by rw [hp2, hp1]; rfl) rfl
    (by rw [Nat.div_eq_of_lt (by omega)]; omega)
  rw [hranges] at hr3
  exact ⟨s3, h3, hr3, (sequential_ranges h3).1⟩

/-- Two writes of a sector, the second begun before the first has ended: both write the first sector
of the file, and the position ends behind the second. -/
theorem writes_overlap : ∃ s, (seqIo seqEnv seqCfg 3).Reach s ∧ s.sys.calls = [] ∧ s.start = 0 ∧
    s.ranges = [⟨0, 512⟩, ⟨0, 512⟩] ∧ s.sys.curPos 3 = 1024 ∧ ¬ Consecutive s.start s.ranges := by
  have hM := MYFS_MAX_BLOCKS_PER_FILE_eq
  have hz : 0 / MYFS_BLOCK_SIZE = 0 := Nat.zero_div _
  have hk : 0 / MYFS_BLOCK_SIZE < MYFS_MAX_BLOCKS_PER_FILE := by rw [hz]; omega
  obtain ⟨s1, h1, hs1, hr1, hh1, hp1, hf1, hc1⟩ :=
    reach_sys_write (C := fun _ _ => True) (.init opened_init) trivial rfl (p := 0) rfl rfl hk
  obtain ⟨s2, h2, hs2, hr2, hh2, hp2, hf2, hc2⟩ :=
    reach_sys_write h1 trivial (by rw [hh1]; rfl) (p := 0) (by rw [hp1]; rfl) rfl hk
  have hsb : s2.sys.fs.sb = (openedFs ⟨[97], by decide⟩).sb := by
    rw [hf2, incrementRef_sb, hf1, incrementRef_sb]
    rfl
  rw [hc1] at hc2
  obtain ⟨s3, h3, hs3, hr3, hh3, hc3, hact, hp3⟩ := first_write (fun _ => trivial) h2 hsb hc2
  have hg := @myfsGetLba_active s3.sys.fs 0 0 1 hk (by rw [hz]; exact hact)
  obtain ⟨s4, h4, hs4, hr4, -, hc4, -, hp4⟩ :=
    reach_sector_done (fun _ => trivial) h3 (p := 0) hc3 hk hg
  have hranges : s4.ranges = [⟨0, 512⟩, ⟨0, 512⟩] := by
    rw [hr4, hr3, hr2, hr1]
    rfl
  refine ⟨s4, h4, hc4, by rw [hs4, hs3, hs2, hs1]; rfl, hranges, ?_, fun hcons => ?_⟩
  · rw [hp4, hp3, hp2, hp1]
    decide
  · rw [hranges] at hcons
    have hd := hcons.disjoint
    simp only [List.map_cons, List.map_nil, List.pairwise_cons] at hd
    have hdd := hd.1 _ (List.mem_singleton.2 rfl)
    have hmem : 0 ∈ Range.offsets ⟨0, 512⟩ := ⟨0, by decide⟩
    exact Set.disjoint_left.1 hdd hmem hmem

end

end Hook
