import Staut.Hook.Loops
import Staut.Hook.Proof.Store

/-!
# The chunks of a transfer

* `Sized`: the chunk size of a call, from `ioImpl_sized`: the whole range, a sector, or a page of an
  aligned range.
* `plainLoop_total`: the disabled loop ends, and its requests follow each other over the range.
* `Runs`: what the batched loops still have to issue is what the disabled loop issues from there on;
  so at the end both have issued the same list (`runs_of_reach`), for every batch degree. They do
  come to the end (`polled_ends`).
* `issue_sizes`: every request stays in its aligned unit, if the call does not straddle.
-/

set_option autoImplicit false

namespace Hook

open CSem Run Myfs Nvme

/-! ## Chunk sizes -/

/-- The chunk size of a call and what it rests on. -/
def Sized (c : IoCall) : Prop :=
  (c.kind = .read ∧ c.blksz = c.len ∧ c.pos.tmod BLKSZ + c.len ≤ BLKSZ) ∨ c.blksz = 512 ∨
    (c.blksz = BLKSZ ∧ (BLKSZ : Int) ∣ c.len ∧ (BLKSZ : Int) ∣ c.pos)

theorem blkszOf_sized (len pos : Int) : blkszOf len pos = 512 ∨
    (blkszOf len pos = BLKSZ ∧ (BLKSZ : Int) ∣ len ∧ (BLKSZ : Int) ∣ pos) := by
  unfold blkszOf
  split
  · exact .inl rfl
  · rename_i h
    rw [not_or, not_not, not_not] at h
    exact .inr ⟨rfl, Int.dvd_of_tmod_eq_zero h.1, Int.dvd_of_tmod_eq_zero h.2⟩

section
variable {kind : Kind} {s fs : State} {i : Nat} {len pos : Int} {buf coreId : Nat} {rid : Nat → Int}
  {c : IoCall}

theorem ioImpl_sized (h : ioImpl kind s i len pos buf coreId rid = .ok (fs, c)) (h0 : 0 < c.len)
    (hlen : c.len ≤ 2 ^ 31 - 512) : Sized c ∧ (512 : Int) ∣ c.pos ∧ c.pos = pos ∧ c.kind = kind ∧
      c.j = 0 ∧ c.pc = .outer := by
  cases kind with
  | read =>
    unfold ioImpl readImpl at h
    dsimp only at h
    split at h
    · cases h
    · rename_i hp
      cases h
      dsimp only at h0 hlen
      refine ⟨?_, Int.dvd_of_tmod_eq_zero (not_not.1 hp), rfl, rfl, rfl, rfl⟩
      generalize (if u64 (pos + len) > _ then _ else len : Int) = n at h0 hlen ⊢
      unfold Sized
      dsimp only
      split
      · rename_i hb
        exact .inl ⟨rfl, wrap32_of_range (by omega) (by omega), hb⟩
      · exact .inr (blkszOf_sized _ _)
  | write =>
    unfold ioImpl writeImpl at h
    dsimp only at h
    split at h
    · cases h
    · rename_i hp
      cases h
      exact ⟨.inr (blkszOf_sized _ _), Int.dvd_of_tmod_eq_zero (not_not.1 hp), rfl, rfl, rfl, rfl⟩

end

section
variable {c : IoCall} (hs : Sized c) (h0 : 0 < c.len) (hlen : c.len ≤ 2 ^ 31 - 512)
include hs h0

theorem Sized.pos : 0 < c.blksz := by
  have hB : BLKSZ = 4096 := rfl
  obtain ⟨-, hb, -⟩ | hb | ⟨hb, -, -⟩ := hs <;> rw [hb] <;> omega

include hlen

/-- `j` does not overflow. -/
theorem Sized.advance {j : Int} (hj : 0 ≤ j) (hd : c.blksz ∣ j) (hlt : j < c.len) :
    wrap32 (j + c.blksz) = j + c.blksz := by
  have hB : BLKSZ = 4096 := rfl
  have hb := hs.pos h0
  obtain ⟨k, hk⟩ := hd
  refine wrap32_of_range (by omega) ?_
  obtain ⟨-, hb, -⟩ | hb | ⟨hb, ⟨l, hl⟩, -⟩ := hs
  · have hz : j = 0 := Int.eq_zero_of_dvd_of_nonneg_of_lt hj (hb ▸ hlt) ⟨k, hk⟩
    omega
  · rw [hb] at hk ⊢
    omega
  · rw [hb] at hk ⊢
    rw [hB] at hk hl ⊢
    omega

end

/-! ## The disabled loop -/

theorem plainLoop_step {c : IoCall} {n : Nat} {j : Int} (hlt : j < c.len) : plainLoop c (n + 1) j =
    (plainLoop c n (wrap32 (j + c.blksz))).map (c.issue j :: ·) := by
  conv_lhs => unfold plainLoop
  rw [if_pos hlt]

theorem plainLoop_end {c : IoCall} {j : Int} (hge : c.len ≤ j) (n : Nat) :
    plainLoop c n j = some [] := by
  unfold plainLoop
  rw [if_neg (by omega)]

section
variable {c : IoCall} (hs : Sized c) (h0 : 0 < c.len) (hlen : c.len ≤ 2 ^ 31 - 512)
include hs h0 hlen

/-- The loop from a multiple of the chunk size on: it ends, and its requests go from there to the
end of the range. -/
theorem plainLoop_total (n : Nat) {j : Int} (hj : 0 ≤ j) (hd : c.blksz ∣ j) (hn : c.len - j ≤ n) :
    ∃ l, plainLoop c n j = some l ∧ Follow (min j c.len) c.len l ∧
      ∀ r ∈ l, ∃ k, 0 ≤ k ∧ c.blksz ∣ k ∧ k < c.len ∧ r = c.issue k := by
  have hb := hs.pos h0
  induction n generalizing j with
  | zero =>
    refine ⟨[], plainLoop_end (by omega) 0, ?_, by simp⟩
    show min j c.len = c.len
    omega
  | succ n ih =>
    by_cases hlt : j < c.len
    · have hadv := hs.advance h0 hlen hj hd hlt
      obtain ⟨l, hl, hf, hr⟩ :=
        ih (j := j + c.blksz) (by omega) (Int.dvd_add hd (Int.dvd_refl _)) (by omega)
      refine ⟨c.issue j :: l, ?_, ⟨?_, ?_⟩, ?_⟩
      · rw [plainLoop_step hlt, hadv, hl]
        rfl
      · show j = min j c.len
        omega
      · have he : min j c.len + ((c.issue j).len : Int) = min (j + c.blksz) c.len := by
          show min j c.len + ((min c.blksz (c.len - j)).toNat : Int) = _
          omega
        rw [he]
        exact hf
      · intro r hm
        rcases List.mem_cons.1 hm with rfl | hm
        · exact ⟨j, hj, hd, hlt, rfl⟩
        · exact hr r hm
    · refine ⟨[], plainLoop_end (by omega) _, ?_, by simp⟩
      show min j c.len = c.len
      omega

end

/-! ## Requests -/

theorem u64_mod (x : Int) : ((u64 x % BLKSZ : Nat) : Int) = x % BLKSZ := by
  have hB : BLKSZ = 4096 := rfl
  unfold u64
  rw [hB]
  omega

/-- A request's bytes fit its sectors, which are within one aligned unit. -/
theorem issue_sizes {c : IoCall} (hs : Sized c) (h0 : 0 < c.len) (hpos : (512 : Int) ∣ c.pos)
    (hx : ¬ Straddles c.kind c.pos c.len) {j : Int} (hj : 0 ≤ j) (hd : c.blksz ∣ j)
    (hlt : j < c.len) :
    1 ≤ (c.issue j).len ∧ (c.issue j).len ≤ 512 * (c.issue j).numBlk ∧ (c.issue j).len ≤ BLKSZ ∧
      (c.issue j).offset % BLKSZ + 512 * (c.issue j).numBlk ≤ BLKSZ := by
  have hB : BLKSZ = 4096 := rfl
  have hb := hs.pos h0
  have hmod := u64_mod (c.pos + j)
  have hdiv : divCeil c.blksz 512 = (c.blksz + 511) / 512 := by
    unfold divCeil
    rw [show c.blksz + 512 - 1 = c.blksz + 511 by omega, Int.tdiv_eq_ediv_of_nonneg (by omega)]
  simp only [IoCall.issue, hdiv]
  generalize u64 (c.pos + j) = o at hmod ⊢
  rw [hB] at hmod ⊢
  obtain ⟨hk, hbl, hsum⟩ | hbl | ⟨hbl, ⟨l, hl⟩, ⟨p, hp⟩⟩ := hs
  · -- the whole range in one request
    have hz : j = 0 := Int.eq_zero_of_dvd_of_nonneg_of_lt hj (hbl ▸ hlt) hd
    have hno : ¬ (c.pos.tmod BLKSZ < 0 ∧ -c.pos.tmod BLKSZ < c.len) :=
      fun h => hx ⟨hk, h.1, h.2, hsum⟩
    have htm := Int.mul_tdiv_add_tmod c.pos BLKSZ
    have hlow := Int.lt_tmod_of_pos c.pos (show (0 : Int) < BLKSZ by omega)
    rw [hB] at hsum hno htm hlow
    obtain ⟨p, hp⟩ := hpos
    rw [hbl, hz, Int.sub_zero, min_self]
    rw [hz, Int.add_zero] at hmod
    generalize c.pos.tmod _ = t at *
    generalize c.pos.tdiv _ = q at *
    omega
  · obtain ⟨p, hp⟩ := hpos
    obtain ⟨k, hk⟩ := hd
    rw [hbl] at hk ⊢
    omega
  · obtain ⟨k, hk⟩ := hd
    rw [hbl] at hk ⊢
    rw [hB] at hk hl hp ⊢
    omega

/-! ## The batched loops -/

/-- The batched loops have issued a part of `total`, and the disabled loop would issue the rest. -/
structure Runs (c0 : IoCall) (total : List Issue) (s : IoCall × List Issue) : Prop where
  args : SameArgs c0 s.1
  nonneg : 0 ≤ s.1.j
  mult : c0.blksz ∣ s.1.j
  rest : ∃ n l, plainLoop c0 n s.1.j = some l ∧ total = s.2 ++ l
  going : ∀ n, s.1.pc = .inner n → s.1.kind = .write ∨ n = 0 → s.1.j < s.1.len

section
variable {cfg : Cfg} {c0 : IoCall} {total : List Issue} {s s' : IoCall × List Issue}
  (hs : Sized c0) (h0 : 0 < c0.len) (hlen : c0.len ≤ 2 ^ 31 - 512) (h : Runs c0 total s)
include h

theorem Runs.setPc {pc : IoPc}
    (hg : ∀ n, pc = .inner n → s.1.kind = .write ∨ n = 0 → s.1.j < s.1.len) :
    Runs c0 total ({ s.1 with pc := pc }, s.2) :=
  ⟨⟨h.args.kind, h.args.hookfd, h.args.len, h.args.pos, h.args.buf, h.args.coreId, h.args.blksz⟩,
    h.nonneg, h.mult, h.rest, hg⟩

theorem Runs.tau {c : IoCall} (hn : s.1.next cfg = .tau c) : Runs c0 total (c, s.2) := by
  obtain ⟨-, hj, rfl⟩ | ⟨n, -, -, rfl⟩ | ⟨n, k, -, -, rfl⟩ := next_tau hn
  · exact h.setPc fun _ _ _ => hj
  · exact h.setPc nofun
  · exact h.setPc nofun

theorem Runs.check {rid : Int} {cont : Bool → IoCall} (hn : s.1.next cfg = .check rid cont)
    (b : Bool) : Runs c0 total (cont b, s.2) := by
  obtain ⟨n, k, -, -, -, rfl⟩ := next_check hn
  cases b with
  | true => exact h.setPc nofun
  | false => exact h

include hs h0 hlen

/-- A request is the next one of the disabled loop. -/
theorem Runs.req {offset : Nat} {write : Int} {r : Int → Req} {cont : Int → IoCall}
    (hn : s.1.next cfg = .req offset write r cont) (lba rid : Int) : s.1.j < s.1.len ∧
      s.1.j < (cont rid).j ∧ Runs c0 total (cont rid,
        s.2 ++ [⟨offset, (r lba).numBlk, (r lba).len, (r lba).buf - s.1.buf⟩]) := by
  obtain ⟨n, hpc, -, hread, rfl, hr, rfl⟩ := next_req hn
  have hlt : s.1.j < s.1.len := by
    cases hk : s.1.kind with
    | read => exact hread hk
    | write => exact h.going n hpc (.inl hk)
  have hadv := hs.advance h0 hlen h.nonneg h.mult (by rw [← h.args.len]; exact hlt)
  have hj : (s.1.after n rid).j = s.1.j + c0.blksz := by
    show wrap32 (s.1.j + s.1.blksz) = _
    rw [h.args.blksz, hadv]
  have hissue : (⟨u64 (s.1.pos + s.1.j), (r lba).numBlk, (r lba).len, (r lba).buf - s.1.buf⟩ :
    Issue) =
      c0.issue s.1.j := by
    have hb : (((s.1.buf + s.1.j).toNat : Nat) : Int) - s.1.buf = s.1.j := by
      have := h.nonneg
      omega
    obtain ⟨-, -, rfl⟩ | ⟨-, -, rfl⟩ := hr <;>
      simp only [IoCall.request, IoCall.issue, h.args.blksz, h.args.len, h.args.pos, hb]
  have hb := hs.pos h0
  have hj0 := h.nonneg
  refine ⟨hlt, by rw [hj]; omega, ⟨?_, by rw [hj]; omega, ?_, ?_, ?_⟩⟩
  · exact ⟨h.args.kind, h.args.hookfd, h.args.len, h.args.pos, h.args.buf, h.args.coreId,
      h.args.blksz⟩
  · rw [hj]
    exact Int.dvd_add h.mult (Int.dvd_refl _)
  · obtain ⟨k, l, hl, ht⟩ := h.rest
    have hlt0 : s.1.j < c0.len := by rw [← h.args.len]; exact hlt
    cases k with
    | zero =>
      unfold plainLoop at hl
      rw [if_pos hlt0] at hl
      cases hl
    | succ k =>
      rw [plainLoop_step hlt0, hadv] at hl
      obtain ⟨l', hl', rfl⟩ := Option.map_eq_some_iff.1 hl
      refine ⟨k, l', by rw [hj]; exact hl', ?_⟩
      rw [hissue, ht, List.append_assoc]
      rfl
  · intro m hm hk
    unfold IoCall.after at hm hk ⊢
    dsimp only at hm hk ⊢
    split at hm
    · cases hm
    · rename_i hno
      rcases hk with hk | rfl
      · exact Int.lt_of_not_ge fun hge => hno ⟨hk, hge⟩
      · cases hm

theorem Runs.step {a : Answer} (hstep : (loops cfg c0).step s a s') : Runs c0 total s' := by
  unfold loops at hstep
  dsimp only at hstep
  split at hstep
  · rename_i hn
    rw [hstep]
    exact h.tau hn
  · rename_i hn
    rw [hstep]
    exact (h.req hs h0 hlen hn _ _).2.2
  · rename_i hn
    rw [hstep]
    exact h.check hn _
  · cases hstep

end

section
variable {cfg : Cfg} {c0 : IoCall} (hs : Sized c0) (h0 : 0 < c0.len) (hlen : c0.len ≤ 2 ^ 31 - 512)
  (hj : c0.j = 0) (hpc : c0.pc = .outer) {total : List Issue}
  (ht : plainLoop c0 c0.len.toNat 0 = some total)
include hs h0 hlen hj hpc ht

omit hs h0 hlen in
theorem Runs.start : Runs c0 total (c0, []) := by
  refine ⟨⟨rfl, rfl, rfl, rfl, rfl, rfl, rfl⟩, by rw [hj], by rw [hj]; exact Int.dvd_zero _,
    ⟨c0.len.toNat, total, by rw [hj]; exact ht, rfl⟩, fun n hn => ?_⟩
  rw [hpc] at hn
  cases hn

theorem runs_of_reach {s : IoCall × List Issue} (h : (loops cfg c0).Reach s) : Runs c0 total s := by
  refine LTS.ReachIf.induct (P := Runs c0 total) ?_ ?_ h
  · intro s hi
    rw [hi]
    exact Runs.start hj hpc ht
  · intro s a s' hr _ hstep
    exact hr.step hs h0 hlen hstep

/-- At the end the batched loops have issued what the disabled loop issues. -/
theorem issued_at_end {c : IoCall} {l : List Issue} (h : (loops cfg c0).Reach (c, l))
    (hret : c.next cfg = .ret) : l = total := by
  have hr := runs_of_reach hs h0 hlen hj hpc ht h
  obtain ⟨n, l', hl', rfl⟩ := hr.rest
  have hge : c.len ≤ c.j := (next_ret.1 hret).2
  rw [plainLoop_end (by rw [← hr.args.len]; exact hge)] at hl'
  cases hl'
  simp

/-- With every check answered by 1 the batched loops come to their end. -/
theorem polled_ends (hr : 1 ≤ cfg.READ_DEG) (hw : 1 ≤ cfg.WRITE_DEG) :
    Evt (IoCall.polled cfg) (fun c => c.next cfg = .ret) c0 := by
  have hwf : WellFounded (InvImage (Prod.Lex (· < ·) (· < ·)) fun c : IoCall =>
      ((c.len - c.j).toNat, c.pc.rank)) :=
    InvImage.wf _ (WellFounded.prod_lex Nat.lt_wfRel.wf Nat.lt_wfRel.wf)
  refine Evt.of_wf hwf (I := fun c => ∃ l, Runs c0 total (c, l)) ?_
    ⟨[], Runs.start hj hpc ht⟩
  rintro c ⟨l, h⟩
  cases hn : c.next cfg with
  | ret => exact .inl rfl
  | tau c' =>
    refine .inr ⟨c', by simp only [IoCall.polled, hn], ⟨l, h.tau hn⟩, ?_⟩
    obtain ⟨hpc, -, rfl⟩ | ⟨n, hpc, hend, rfl⟩ | ⟨n, k, hpc, hk, rfl⟩ := next_tau hn
    · exact .right _ (by rw [hpc]; exact Nat.one_pos)
    · refine .right _ ?_
      rw [hpc]
      cases n with
      | succ n =>
        show n + 1 - 0 + 2 < n + 4
        omega
      | zero =>
        -- there is a request in every batch
        have hlt : c.j < c.len := h.going 0 hpc (.inr rfl)
        have hdeg : 0 < deg cfg c.kind := by cases c.kind <;> assumption
        rcases hend with hend | ⟨-, hend⟩ <;> omega
    · refine .right _ ?_
      rw [hpc]
      show 1 < n - k + 2
      omega
  | req offset write r cont =>
    obtain ⟨hlt, hadv, hr'⟩ := h.req hs h0 hlen hn 0 0
    refine .inr ⟨cont 0, by simp only [IoCall.polled, hn], ⟨_, hr'⟩, .left _ _ ?_⟩
    have hl : (cont 0).len = c.len := hr'.args.len.trans h.args.len.symm
    dsimp only at hlt hadv
    show ((cont 0).len - (cont 0).j).toNat < (c.len - c.j).toNat
    rw [hl]
    omega
  | check rid cont =>
    refine .inr ⟨cont true, by simp only [IoCall.polled, hn], ⟨l, h.check hn true⟩, ?_⟩
    obtain ⟨n, k, hpc, hk, -, rfl⟩ := next_check hn
    refine .right _ ?_
    rw [hpc]
    show n - (k + 1) + 2 < n - k + 2
    omega

end

/-! ## Whole calls -/

/-- A unit of `BLKSZ` bytes is within one block. -/
theorem unit_in_block {o n : Nat} (h1 : 1 ≤ n) (h : o % BLKSZ + n ≤ BLKSZ) :
    (o + n - 1) / MYFS_BLOCK_SIZE = o / MYFS_BLOCK_SIZE := by
  have hB : BLKSZ = 4096 := rfl
  rw [hB] at h
  rw [MYFS_BLOCK_SIZE_eq]
  omega

theorem coversRange {c : IoCall} (hs : Sized c) (h0 : 0 < c.len) (hpos : (512 : Int) ∣ c.pos)
    (hx : ¬ Straddles c.kind c.pos c.len) {l : List Issue} (hf : Follow 0 c.len l)
    (hl : ∀ r ∈ l, ∃ k, 0 ≤ k ∧ c.blksz ∣ k ∧ k < c.len ∧ r = c.issue k) : CoversRange c l := by
  have hsz : ∀ r ∈ l, 1 ≤ r.len ∧ r.len ≤ 512 * r.numBlk ∧ r.len ≤ BLKSZ ∧
      r.offset % BLKSZ + 512 * r.numBlk ≤ BLKSZ := by
    intro r hr
    obtain ⟨k, hk, hd, hlt, rfl⟩ := hl r hr
    exact issue_sizes hs h0 hpos hx hk hd hlt
  refine ⟨hf, fun r hr => ?_, fun r hr => ?_, fun r hr => (hsz r hr).2.2.2, fun r hr => ?_⟩
  · obtain ⟨k, -, -, -, rfl⟩ := hl r hr
    rfl
  · obtain ⟨h1, h2, h3, -⟩ := hsz r hr
    exact ⟨h1, h2, h3⟩
  · obtain ⟨h1, h2, -, h4⟩ := hsz r hr
    exact unit_in_block (by omega) h4

/-- **The chunks of a transfer**: the batched loops issue the list of the disabled loop, for every
batch degree, and it partitions the range in requests that each stay in one unit. -/
theorem chunking_exact {cfg : Cfg} (hr : 1 ≤ cfg.READ_DEG) (hw : 1 ≤ cfg.WRITE_DEG) {kind : Kind}
    {s fs : State} {i : Nat} {len pos : Int} {buf coreId : Nat} {rid : Nat → Int} {c : IoCall}
    (h : ioImpl kind s i len pos buf coreId rid = .ok (fs, c)) (h0 : 0 < c.len)
    (hlen : c.len ≤ 0x7ffff000) (hx : ¬ Straddles kind pos c.len) :
    ∃ l, plainLoop c c.len.toNat 0 = some l ∧
      (∀ c' l', (loops cfg c).Reach (c', l') → c'.next cfg = .ret → l' = l) ∧
      Evt (IoCall.polled cfg) (fun c => c.next cfg = .ret) c ∧ CoversRange c l := by
  have hlen : c.len ≤ 2 ^ 31 - 512 := by omega
  obtain ⟨hs, hpos, rfl, rfl, hj, hpc⟩ := ioImpl_sized h h0 hlen
  obtain ⟨l, ht, hf, hl⟩ := plainLoop_total hs h0 hlen c.len.toNat (Int.le_refl 0) (Int.dvd_zero _)
    (by omega)
  rw [min_eq_left (Int.le_of_lt h0)] at hf
  exact ⟨l, ht, fun c' l' hreach hret => issued_at_end hs h0 hlen hj hpc ht hreach hret,
    polled_ends hs h0 hlen hj hpc ht hr hw, coversRange hs h0 hpos hx hf hl⟩

/-- A store in which file 0 has one block. -/
def oneBlockFile : State :=
  ⟨⟨0, fun _ => 0, 0, 0, fun _ => ⟨.empty, fun _ => 0, 1⟩⟩, fun _ => ⟨MYFS_FILE_OPENED, 0⟩⟩

theorem oneBlockFile_size (i : Nat) : myfsGetSize (myfsIncrementRef oneBlockFile i).1 i =
    2097152 := by
  have hB := MYFS_BLOCK_SIZE_eq
  have hn : ((myfsIncrementRef oneBlockFile i).1.sb.file i).nBlock = 1 := by
    unfold myfsIncrementRef
    split <;> rfl
  unfold myfsGetSize
  rw [hn, hB, Nat.one_mul, Nat.mod_eq_of_lt (by decide)]

/-- A read of the file that is not cut at its end. -/
theorem read_oneBlockFile (len pos : Int) (hp : pos.tmod 512 = 0) (h1 : u64 (pos + len) ≤ 2097152)
    (rid : Nat → Int) :
    ioImpl .read oneBlockFile 0 len pos 0 0 rid = .ok ((myfsIncrementRef oneBlockFile 0).1,
      ⟨.read, 0, len, pos, 0, 0,
        if pos.tmod BLKSZ + len ≤ BLKSZ then wrap32 len else blkszOf len pos, 0, rid, .outer⟩) := by
  unfold ioImpl readImpl
  simp only [oneBlockFile_size, hp, ne_eq, not_true_eq_false, ↓reduceIte, Nat.not_lt.2 h1]

/-- The read of five pages at the second one. -/
theorem chunking_exact_pages : ∃ c l, c.len = 20480 ∧ c.blksz = 4096 ∧
    plainLoop c 20480 0 = some l ∧ CoversRange c l := by
  have h := read_oneBlockFile 20480 4096 (by decide) (by decide) fun _ => 0
  have hdeg : 1 ≤ (⟨1, 1, 2, 2⟩ : Cfg).READ_DEG ∧ 1 ≤ (⟨1, 1, 2, 2⟩ : Cfg).WRITE_DEG := by decide
  obtain ⟨l, hl, -, -, hc⟩ := chunking_exact hdeg.1 hdeg.2 h (by decide) (by decide)
    (by unfold Straddles; decide)
  exact ⟨_, l, rfl, rfl, hl, hc⟩

/-- The read of 4608 bytes at -512 is one request of 9 sectors. -/
theorem negative_read_straddles : ∃ fs c c' l,
    ioImpl .read oneBlockFile 0 4608 (-512) 0 0 (fun _ => 0) = .ok (fs, c) ∧ c.len = 4608 ∧
    (loops ⟨1, 1, 1, 1⟩ c).Reach (c', l) ∧ c'.next ⟨1, 1, 1, 1⟩ = .ret ∧
    (∃ r ∈ l, r.numBlk = 9 ∧ r.len = 4608) ∧ ¬ CoversRange c l := by
  have h := read_oneBlockFile 4608 (-512) (by decide) (by decide) fun _ => 0
  let c : IoCall := ⟨.read, 0, 4608, -512, 0, 0, 4608, 0, fun _ => 0, .outer⟩
  let r : Issue := ⟨u64 (-512), 9, 4608, 0⟩
  let T := loops ⟨1, 1, 1, 1⟩ c
  let c1 : IoCall := { c with pc := .inner 0 }
  let c2 : IoCall := { c1.issued 0 0 with pc := .inner 1 }
  have h0 : T.Reach (c, []) := .init rfl
  have h1 : T.Reach (c1, []) := h0.step (a := .none) trivial rfl
  have h2 : T.Reach (c2, [r]) := h1.step (a := .req 0 0) trivial rfl
  have h3 : T.Reach ({ c2 with pc := .wait 1 0 }, [r]) := h2.step (a := .none) trivial rfl
  have h4 : T.Reach ({ c2 with pc := .wait 1 1 }, [r]) := h3.step (a := .check true) trivial rfl
  have h5 : T.Reach ({ c2 with pc := .outer }, [r]) := h4.step (a := .none) trivial rfl
  refine ⟨_, _, _, _, h, rfl, h5, rfl, ⟨r, List.mem_singleton_self r, rfl, rfl⟩, fun hc => ?_⟩
  have hle := (hc.size r (List.mem_singleton_self r)).2.2
  exact absurd hle (by decide)

end Hook
