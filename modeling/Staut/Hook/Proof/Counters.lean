import Staut.Hook.Proof.Loops

/-!
# The counters of the loops

`counters_iff`: `j` and `blksz` stay in the range of `int` exactly for the lengths of `CountersFit`.
Beyond it, `j` is a multiple of 512 and at most 2^31 - 512 in every round (it wraps there), so it
does not get to the end of the range and the loops do not end (`loops_never_end`).
-/

set_option autoImplicit false

namespace Hook

open CSem Run Myfs Nvme

section
variable {kind : Kind} {s fs : State} {i : Nat} {len pos : Int} {buf coreId : Nat} {rid : Nat → Int}
  {c : IoCall} {cfg : Cfg}

/-- The call that the two functions start their loops with. -/
theorem ioImpl_call (h : ioImpl kind s i len pos buf coreId rid = .ok (fs, c)) : c.kind = kind ∧
    c.len = transferLen kind (myfsGetSize s i) len pos ∧ c.pos = pos ∧
    c.blksz = (if kind = .read ∧ pos.tmod BLKSZ + c.len ≤ BLKSZ then wrap32 c.len
      else blkszOf c.len pos) ∧ c.j = 0 ∧ c.pc = .outer := by
  cases kind with
  | read =>
    unfold ioImpl readImpl at h
    dsimp only at h
    split at h
    · cases h
    · cases h
      simp only [transferLen, incrementRef_size, true_and, and_self]
  | write =>
    unfold ioImpl writeImpl at h
    dsimp only at h
    split at h
    · cases h
    · cases h
      simp [transferLen]

theorem blkszOf_cases (len pos : Int) : blkszOf len pos = 512 ∨ blkszOf len pos = 4096 := by
  unfold blkszOf
  split
  · exact .inl rfl
  · exact .inr rfl

/-! ## Lengths that do not fit -/

/-- What every round keeps, whatever wraps. -/
structure Multiple (c0 c : IoCall) : Prop where
  len : c.len = c0.len
  blksz : (512 : Int) ∣ c.blksz
  j : (512 : Int) ∣ c.j ∧ c.j < 2 ^ 31

theorem wrap32_multiple {x : Int} (h : (512 : Int) ∣ x) :
    (512 : Int) ∣ wrap32 x ∧ wrap32 x < 2 ^ 31 := by
  unfold wrap32
  rw [Int.bmod_def]
  split <;> omega

theorem Multiple.polled {c0 c c' : IoCall} (h : Multiple c0 c) (hp : c.polled cfg = some c') :
    Multiple c0 c' := by
  unfold IoCall.polled at hp
  split at hp
  · rename_i hn
    cases hp
    obtain ⟨-, -, rfl⟩ | ⟨n, -, -, rfl⟩ | ⟨n, k, -, -, rfl⟩ := next_tau hn
    · exact ⟨h.len, h.blksz, h.j⟩
    · exact ⟨h.len, h.blksz, h.j⟩
    · exact ⟨h.len, h.blksz, h.j⟩
  · rename_i hn
    cases hp
    obtain ⟨n, -, -, -, -, -, rfl⟩ := next_req hn
    exact ⟨h.len, h.blksz, wrap32_multiple (Int.dvd_add h.j.1 h.blksz)⟩
  · rename_i hn
    cases hp
    obtain ⟨n, k, -, -, -, rfl⟩ := next_check hn
    exact ⟨h.len, h.blksz, h.j⟩
  · cases hp

/-- The loops of a longer transfer do not end. -/
theorem loops_never_end {c0 : IoCall} (h : Multiple c0 c0) (hlen : 2 ^ 31 - 512 < c0.len) :
    ¬ Evt (IoCall.polled cfg) (fun c => c.next cfg = .ret) c0 := by
  apply Evt.never (I := Multiple c0) (fun _ _ hm hp => hm.polled hp) ?_ h
  intro c hm hret
  have hle := (next_ret.1 hret).2
  have hl := hm.len
  have hj := hm.j
  omega

/-! ## Lengths that fit -/

theorem wrap32_isInt (x : Int) : IsInt (wrap32 x) := by
  unfold IsInt wrap32
  rw [Int.bmod_def]
  constructor
  · split <;> omega
  · split <;> omega

/-- One chunk more. -/
theorem requestCount_succ {n b : Int} (hn : 0 < n) (hb : 0 < b) :
    requestCount n b = requestCount (n - b) b + 1 := by
  have hdiv : ∀ x : Int, 0 < x → divCeil x b = (x - 1) / b + 1 := by
    intro x hx
    unfold divCeil
    rw [Int.tdiv_eq_ediv_of_nonneg (by omega), show x + b - 1 = (x - 1) + b by omega,
      Int.add_ediv_of_dvd_right (Int.dvd_refl b), Int.ediv_self (by omega)]
  unfold requestCount
  rw [if_neg (by omega), hdiv n hn]
  split
  · rw [Int.ediv_eq_zero_of_lt (by omega) (by omega)]
    rfl
  · have hsub : (n - 1) / b = (n - b - 1) / b + 1 := by
      rw [show n - 1 = (n - b - 1) + b by omega, Int.add_ediv_of_dvd_right (Int.dvd_refl b),
        Int.ediv_self (by omega)]
    have hpos : 0 ≤ (n - b - 1) / b := Int.ediv_nonneg (by omega) (by omega)
    rw [hdiv (n - b) (by omega), hsub]
    omega

/-- The buffer offsets of the disabled loop from chunk `m` on. -/
theorem plainLoop_offsets (hb : 0 < c.blksz)
    (hadv : ∀ j, 0 ≤ j → c.blksz ∣ j → j < c.len → wrap32 (j + c.blksz) = j + c.blksz) (n m : Nat)
    {l : List Issue} (h : plainLoop c n (m * c.blksz) = some l) : l.map (·.bufOffset) =
      (List.range (requestCount (c.len - m * c.blksz) c.blksz)).map fun k =>
        ((m + k : Nat) : Int) * c.blksz := by
  induction n generalizing m l with
  | zero =>
    unfold plainLoop at h
    split at h
    · cases h
    · cases h
      rw [requestCount, if_pos (by omega)]
      rfl
  | succ n ih =>
    by_cases hlt : m * c.blksz < c.len
    · have hj : ((m + 1 : Nat) : Int) * c.blksz = m * c.blksz + c.blksz := by
        rw [Int.natCast_add, Int.add_mul]
        omega
      rw [plainLoop_step hlt, hadv _ (Int.mul_nonneg (by omega) hb.le) (Int.dvd_mul_left _ _) hlt,
        ← hj] at h
      obtain ⟨l', hl', rfl⟩ := Option.map_eq_some_iff.1 h
      rw [List.map_cons, ih (m + 1) hl', requestCount_succ (n := c.len - m * c.blksz) (by omega) hb,
        hj, ← Int.sub_sub, List.range_succ_eq_map, List.map_cons, List.map_map]
      refine congrArg₂ _ rfl (List.map_congr_left fun k _ => ?_)
      show ((m + 1 + k : Nat) : Int) * c.blksz = ((m + (k + 1) : Nat) : Int) * c.blksz
      rw [show m + 1 + k = m + (k + 1) by omega]
    · rw [plainLoop_end (by omega)] at h
      cases h
      rw [requestCount, if_pos (by omega)]
      rfl

/-- Nothing is left to do. -/
theorem counters_empty (h0 : c.len ≤ 0) (hj : c.j = 0) (hpc : c.pc = .outer)
    (hb : IsInt (chunkSize c.kind c.len c.pos) ∧ c.blksz = chunkSize c.kind c.len c.pos) :
    CountersRight cfg c := by
  have hret : c.next cfg = .ret := next_ret.2 ⟨hpc, by omega⟩
  have hreach : ∀ s, (loops cfg c).Reach s → s = (c, []) := by
    intro s hs
    refine LTS.ReachIf.induct (P := fun s => s = (c, [])) (fun _ hi => hi)
      (fun s a s' hp _ hstep => ?_) hs
    rw [hp] at hstep
    simp [loops, hret] at hstep
  refine ⟨hb, fun c' l hr => ?_, .here hret, fun c' l hr _ => ?_⟩
  · obtain ⟨rfl, -⟩ := Prod.mk.inj (hreach _ hr)
    intro offset write r cont hreq
    rw [hret] at hreq
    cases hreq
  · obtain ⟨rfl, rfl⟩ := Prod.mk.inj (hreach _ hr)
    rw [requestCount, if_pos h0]
    rfl

theorem counters_positive (hr : 1 ≤ cfg.READ_DEG) (hw : 1 ≤ cfg.WRITE_DEG) (hs : Sized c)
    (h0 : 0 < c.len) (hlen : c.len ≤ 2 ^ 31 - 512) (hj : c.j = 0) (hpc : c.pc = .outer)
    (hb : IsInt (chunkSize c.kind c.len c.pos) ∧ c.blksz = chunkSize c.kind c.len c.pos) :
    CountersRight cfg c := by
  have hpos := hs.pos h0
  have hadv := fun j (hj : 0 ≤ j) hd hlt => hs.advance (j := j) h0 hlen hj hd hlt
  obtain ⟨total, ht, -, -⟩ := plainLoop_total hs h0 hlen c.len.toNat (Int.le_refl 0)
    (Int.dvd_zero _)
    (by omega)
  refine ⟨hb, fun c' l hreach offset write r cont hreq => ?_,
    polled_ends hs h0 hlen hj hpc ht hr hw, fun c' l hreach hret => ?_⟩
  · have hruns := runs_of_reach hs h0 hlen hj hpc ht hreach
    have hlt := (hruns.req hs h0 hlen hreq 0 0).1
    have hwrap := hadv c'.j hruns.nonneg hruns.mult (by rw [← hruns.args.len]; exact hlt)
    show IsInt (c'.j + c'.blksz)
    rw [hruns.args.blksz, ← hwrap]
    exact wrap32_isInt _
  · rw [issued_at_end hs h0 hlen hj hpc ht hreach hret]
    have hoff := plainLoop_offsets hpos hadv c.len.toNat 0
      (by rw [Int.natCast_zero, Int.zero_mul]; exact ht)
    simpa using hoff

/-- A length beyond the bound is cut into chunks of 512 or 4096 bytes. -/
theorem ioImpl_multiple (h : ioImpl kind s i len pos buf coreId rid = .ok (fs, c))
    (hlong : 2 ^ 31 - 512 < c.len) : Multiple c c := by
  obtain ⟨-, -, -, hb, hj, -⟩ := ioImpl_call h
  have hB : BLKSZ = 4096 := rfl
  have hshort : ¬ (kind = .read ∧ pos.tmod BLKSZ + c.len ≤ BLKSZ) := by
    intro hshort
    have hlow := Int.lt_tmod_of_pos pos (show (0 : Int) < BLKSZ by omega)
    have hle := hshort.2
    rw [hB] at hlow hle
    omega
  refine ⟨rfl, ?_, by rw [hj]; omega⟩
  rw [hb, if_neg hshort]
  rcases blkszOf_cases c.len pos with h512 | h4096 <;> omega

/-- A length that fits has a chunk size that does. -/
theorem ioImpl_chunk (h : ioImpl kind s i len pos buf coreId rid = .ok (fs, c))
    (hfit : CountersFit kind c.len) :
    IsInt (chunkSize c.kind c.len c.pos) ∧ c.blksz = chunkSize c.kind c.len c.pos := by
  obtain ⟨hk, -, hp, hb, -, -⟩ := ioImpl_call h
  obtain ⟨hmax, hmin⟩ := hfit
  rw [hb, hk, hp]
  unfold chunkSize
  split
  · rename_i hshort
    have := hmin hshort.1
    exact ⟨⟨this, by omega⟩, wrap32_of_range this (by omega)⟩
  · refine ⟨?_, rfl⟩
    unfold IsInt
    rcases blkszOf_cases c.len pos with h512 | h4096 <;> omega

/-- **The counters are wide enough** exactly for lengths up to 2^31 - 512; a read may not start more
than 2^31 bytes behind the end of the file. -/
theorem counters_iff (hr : 1 ≤ cfg.READ_DEG) (hw : 1 ≤ cfg.WRITE_DEG)
    (h : ioImpl kind s i len pos buf coreId rid = .ok (fs, c)) :
    CountersRight cfg c ↔ CountersFit kind (transferLen kind (myfsGetSize s i) len pos) := by
  obtain ⟨hk, hlen, hp, -, hj, hpc⟩ := ioImpl_call h
  have hB : BLKSZ = 4096 := rfl
  rw [← hlen]
  constructor
  · intro hc
    refine ⟨?_, fun hread => ?_⟩
    · by_contra hlong
      exact loops_never_end (ioImpl_multiple h (by omega)) (by omega) hc.ends
    · by_contra hneg
      have hint := hc.blksz.1
      have hlow := Int.tmod_lt_of_pos pos (show (0 : Int) < BLKSZ by omega)
      rw [chunkSize, hk, hp, if_pos ⟨hread, by omega⟩] at hint
      exact hneg hint.1
  · intro hfit
    have hchunk := ioImpl_chunk h hfit
    by_cases h0 : 0 < c.len
    · exact counters_positive hr hw (ioImpl_sized h h0 hfit.1).1 h0 hfit.1 hj hpc hchunk
    · exact counters_empty (by omega) hj hpc hchunk

end

/-- A read of one sector in a file of one block. -/
theorem counters_iff_sector : ∃ fs c, ioImpl .read oneBlockFile 0 512 512 0 0 (fun _ => 0) =
    .ok (fs, c) ∧ CountersRight ⟨1, 1, 1, 1⟩ c := by
  have h := read_oneBlockFile 512 512 (by decide) (by decide) fun _ => 0
  have hdeg : 1 ≤ (⟨1, 1, 1, 1⟩ : Cfg).READ_DEG ∧ 1 ≤ (⟨1, 1, 1, 1⟩ : Cfg).WRITE_DEG := by decide
  have hlen := (ioImpl_call h).2.1
  refine ⟨_, _, h, (counters_iff hdeg.1 hdeg.2 h).2 ?_⟩
  rw [← hlen]
  exact ⟨by decide, fun _ => by decide⟩

/-- The write of 2^31 bytes at 0: its loops do not end. -/
theorem counters_overflow : ∃ c, ioImpl .write oneBlockFile 0 (2 ^ 31) 0 0 0 (fun _ => 0) =
    .ok ((myfsIncrementRef oneBlockFile 0).1, c) ∧ ¬ CountersRight ⟨1, 1, 1, 1⟩ c ∧
    ¬ Evt (IoCall.polled ⟨1, 1, 1, 1⟩) (fun c => c.next ⟨1, 1, 1, 1⟩ = .ret) c := by
  let c : IoCall := ⟨.write, 0, 2 ^ 31, 0, 0, 0, 4096, 0, fun _ => 0, .outer⟩
  have hnever : ¬ Evt (IoCall.polled ⟨1, 1, 1, 1⟩) (fun c => c.next ⟨1, 1, 1, 1⟩ = .ret) c :=
    loops_never_end ⟨rfl, by decide, by decide⟩ (by decide)
  exact ⟨c, rfl, fun hc => hnever hc.ends, hnever⟩

end Hook
