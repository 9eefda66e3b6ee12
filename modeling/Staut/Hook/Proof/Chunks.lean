import Staut.Hook.Proof.Batch
import Staut.Hook.Proof.Layout

/-!
# The chunks of a call

How a call of `read_impl` or `write_impl` cuts its range: `Shape a c` says which parameters the
running call `c` of `a` has, that it has come to a multiple of its chunk size, and that no chunk
crosses a 4 KB page (`ioImpl_shape`, `Shape.step`). So each request moves one whole chunk
(`Shape.request`) at the offset it is for (`Shape.offset`).
-/

set_option autoImplicit false

namespace Hook

open CSem Run Myfs Nvme

/-- The chunk size `b` divides the range, and no chunk crosses a page. -/
structure Cut (pos len b : Nat) : Prop where
  sector : b % 512 = 0
  b_pos : 0 < b
  le : b ≤ BLKSZ
  dvd : b ∣ len
  page : ∀ j, b ∣ j → j < len → (pos + j) % BLKSZ + b ≤ BLKSZ

theorem cut_512 {pos len : Nat} (hp : pos % 512 = 0) (hl : len % 512 = 0) : Cut pos len 512 := by
  refine ⟨by decide, by decide, by decide, Nat.dvd_of_mod_eq_zero hl, fun j hj _ => ?_⟩
  obtain ⟨k, rfl⟩ := hj
  unfold BLKSZ
  omega

theorem cut_page {pos len : Nat} (hp : pos % BLKSZ = 0) (hl : len % BLKSZ = 0) :
    Cut pos len BLKSZ := by
  refine ⟨by decide, by decide, Nat.le_refl _, Nat.dvd_of_mod_eq_zero hl, fun j hj _ => ?_⟩
  obtain ⟨k, rfl⟩ := hj
  unfold BLKSZ at *
  omega

/-- One chunk. -/
theorem cut_whole {pos len : Nat} (hl : len % 512 = 0) (h0 : 0 < len)
    (h : pos % BLKSZ + len ≤ BLKSZ) : Cut pos len len := by
  refine ⟨hl, h0, by omega, Nat.dvd_refl _, fun j hj hlt => ?_⟩
  rw [Nat.eq_zero_of_dvd_of_lt hj hlt]
  exact h

theorem blkszOf_cut {pos len : Nat} (hp : pos % 512 = 0) (hl : len % 512 = 0) :
    0 ≤ blkszOf len pos ∧ Cut pos len (blkszOf len pos).toNat := by
  unfold blkszOf
  split
  · exact ⟨by decide, cut_512 hp hl⟩
  · rename_i h
    rw [not_or, not_not, not_not] at h
    have h1 : len % BLKSZ = 0 := by
      have := h.1
      rw [← Int.ofNat_tmod] at this
      exact Int.ofNat_eq_zero.1 this
    have h2 : pos % BLKSZ = 0 := by
      have := h.2
      rw [← Int.ofNat_tmod] at this
      exact Int.ofNat_eq_zero.1 this
    exact ⟨by decide, cut_page h2 h1⟩

/-- The running call `c` of `a`. -/
structure Shape (a : Args) (c : IoCall) : Prop where
  kind : c.kind = a.kind
  hookfd : c.hookfd = a.file
  pos : c.pos = a.pos
  buf : c.buf = a.buf
  coreId : c.coreId = a.coreId
  len_le : c.len ≤ a.len
  len_write : a.kind = .write → c.len = a.len
  j_nonneg : 0 ≤ c.j
  j_le : c.j.toNat ≤ c.len.toNat
  j_dvd : c.blksz.toNat ∣ c.j.toNat
  cut : 0 < c.len → 0 ≤ c.blksz ∧ Cut a.pos c.len.toNat c.blksz.toNat
  inner : ∀ n, c.pc = .inner n → n = 0 ∨ c.kind = .write → c.j < c.len

theorem ioImpl_shape {cfg : Cfg} {a : Args} (ha : a.Ok cfg) {s fs : State} {c : IoCall}
    (h : ioImpl a.kind s a.file a.len a.pos a.buf a.coreId a.rid = .ok (fs, c)) :
    Shape a c ∧ (a.kind = .read → a.pos + a.len ≤ myfsGetSize s a.file → c.len = a.len) := by
  have hpos : (a.pos : Int).tmod 512 = 0 := by
    show (a.pos : Int).tmod ((512 : Nat) : Int) = 0
    rw [← Int.ofNat_tmod, ha.pos]
    rfl
  have hM := MYFS_MAX_BLOCKS_PER_FILE_eq
  have hB := MYFS_BLOCK_SIZE_eq
  have hfits := ha.fits
  rw [hM, hB] at hfits
  have hlen := ha.len_le
  cases hk : a.kind with
  | write =>
    rw [hk] at h
    simp only [ioImpl, writeImpl, hpos, ne_eq, not_true_eq_false, ↓reduceIte] at h
    cases h
    refine ⟨⟨hk.symm, rfl, rfl, rfl, rfl, Int.le_refl _, fun _ => rfl, Int.le_refl _, Nat.zero_le _,
      Nat.dvd_zero _, fun _ => ?_, nofun⟩, nofun⟩
    exact blkszOf_cut ha.pos ha.len
  | read =>
    rw [hk] at h
    simp only [ioImpl, readImpl, hpos, ne_eq, not_true_eq_false, ↓reduceIte] at h
    cases h
    have hu : u64 ((a.pos : Int) + a.len) = a.pos + a.len := by
      have := u64_of_range (x := (a.pos : Int) + a.len) (by omega) (by omega)
      omega
    -- the end of the file is a multiple of the block size
    have hmul : myfsGetSize s a.file % 512 = 0 := by
      unfold myfsGetSize
      rw [hB]
      omega
    rw [incrementRef_size, hu]
    generalize hL : (if a.pos + a.len > myfsGetSize s a.file then
      wrap64 ((myfsGetSize s a.file : Int) - a.pos) else (a.len : Int)) = len
    have hlen' : len ≤ a.len ∧ (0 < len → ∃ l : Nat, len = l ∧ l % 512 = 0) ∧
        (a.pos + a.len ≤ myfsGetSize s a.file → len = a.len) := by
      have h1 := ha.pos
      have h2 := ha.len
      split at hL
      · rename_i hgt
        rw [wrap64_of_range (by omega) (by omega)] at hL
        exact ⟨by omega, fun h0 => ⟨len.toNat, by omega, by omega⟩, fun hle => by omega⟩
      · exact ⟨by omega, fun _ => ⟨a.len, hL.symm, h2⟩, fun _ => hL.symm⟩
    obtain ⟨hle, hl512, heq⟩ := hlen'
    refine ⟨⟨hk.symm, rfl, rfl, rfl, rfl, hle, (fun hw => by rw [hk] at hw; cases hw),
      Int.le_refl _, Nat.zero_le _, Nat.dvd_zero _, fun h0 => ?_, nofun⟩, fun _ => heq⟩
    obtain ⟨l, rfl, hl⟩ := hl512 h0
    have hl0 : 0 < l := Int.ofNat_lt.1 h0
    dsimp only
    rw [Int.toNat_natCast]
    split
    · rename_i hb
      have hpm : (a.pos : Int).tmod BLKSZ = (a.pos % BLKSZ : Nat) := rfl
      rw [hpm] at hb
      have hBl : BLKSZ = 4096 := rfl
      rw [wrap32_of_range (by omega) (by omega), Int.toNat_natCast]
      exact ⟨by omega, cut_whole hl hl0 (by omega)⟩
    · exact blkszOf_cut ha.pos hl

section
variable {cfg : Cfg} {a : Args} {c : IoCall} (h : Shape a c)
include h

/-- The next multiple of the chunk size is still in the range. -/
theorem Shape.advance (hlen : a.len ≤ 0x7ffff000) (hlt : c.j < c.len) :
    wrap32 (c.j + c.blksz) = c.j + c.blksz ∧ (c.j + c.blksz).toNat = c.j.toNat + c.blksz.toNat ∧
      c.j.toNat + c.blksz.toNat ≤ c.len.toNat := by
  have h0 := h.j_nonneg
  have hle := h.len_le
  obtain ⟨hb, hc⟩ := h.cut (by omega)
  have hcle := hc.le
  have hBl : BLKSZ = 4096 := rfl
  have hnext : c.j.toNat + c.blksz.toNat ≤ c.len.toNat :=
    Nat.le_of_lt_add_of_dvd (by omega) (Nat.dvd_add h.j_dvd (Nat.dvd_refl _)) hc.dvd
  exact ⟨wrap32_of_range (by omega) (by omega), Int.toNat_add h0 hb, hnext⟩

/-- Where a step leads: `j` stays, or a chunk inside the range is requested. -/
theorem Shape.moves {c' : IoCall} {rqs rqs' : List Rq} (ht : Track cfg c rqs c' rqs') :
    (c'.j = c.j ∧ ∀ n, c'.pc = .inner n → (n = 0 ∧ c.j < c.len) ∨ c.pc = .inner n) ∨
    (c.j < c.len ∧ c'.j = wrap32 (c.j + c.blksz) ∧
      ∀ n, c'.pc = .inner n → 0 < n ∧ (c.kind = .write → c'.j < c.len)) := by
  cases ht with
  | stay => exact .inl ⟨rfl, fun n hn => .inr hn⟩
  | tau hn =>
    obtain ⟨-, hlt, rfl⟩ | ⟨n, -, -, rfl⟩ | ⟨n, k, -, -, rfl⟩ := next_tau hn
    · refine .inl ⟨rfl, fun n hn => .inl ⟨?_, hlt⟩⟩
      cases hn
      rfl
    · exact .inl ⟨rfl, nofun⟩
    · exact .inl ⟨rfl, nofun⟩
  | @issue n did seq rid hpc hr =>
    refine .inr ⟨?_, rfl, fun k hk => ?_⟩
    · cases hkd : c.kind with
      | read => exact hr hkd
      | write => exact h.inner n hpc (.inr hkd)
    · unfold IoCall.after at hk
      dsimp only at hk
      split at hk
      · cases hk
      · rename_i hno
        cases hk
        exact ⟨Nat.succ_pos n, fun hw => Int.lt_of_not_ge fun hle => hno ⟨hw, hle⟩⟩
  | check => exact .inl ⟨rfl, nofun⟩

theorem Shape.step (hlen : a.len ≤ 0x7ffff000) {c' : IoCall} {rqs rqs' : List Rq}
    (ht : Track cfg c rqs c' rqs') : Shape a c' := by
  have hs := ht.args
  have hj : 0 ≤ c'.j ∧ c'.j.toNat ≤ c.len.toNat ∧ c.blksz.toNat ∣ c'.j.toNat ∧
      ∀ n, c'.pc = .inner n → n = 0 ∨ c.kind = .write → c'.j < c.len := by
    rcases h.moves ht with ⟨hj, hin⟩ | ⟨hlt, hj, hin⟩
    · rw [hj]
      refine ⟨h.j_nonneg, h.j_le, h.j_dvd, fun n hn hor => ?_⟩
      rcases hin n hn with ⟨-, hlt⟩ | hpc
      · exact hlt
      · exact h.inner n hpc hor
    · obtain ⟨hw, hadd, hle⟩ := h.advance hlen hlt
      have h0 := h.j_nonneg
      have hb := (h.cut (by omega)).1
      rw [hj, hw] at hin ⊢
      refine ⟨by omega, by omega, ?_, fun n hn hor => ?_⟩
      · rw [hadd]
        exact Nat.dvd_add h.j_dvd (Nat.dvd_refl _)
      · obtain ⟨hn0, hlt'⟩ := hin n hn
        exact hlt' (hor.resolve_left (Nat.ne_of_gt hn0))
  obtain ⟨h1, h2, h3, h4⟩ := hj
  refine ⟨hs.kind.trans h.kind, hs.hookfd.trans h.hookfd, hs.pos.trans h.pos, hs.buf.trans h.buf,
    hs.coreId.trans h.coreId, hs.len ▸ h.len_le, fun hw => hs.len.trans (h.len_write hw), h1, ?_,
    ?_, ?_, ?_⟩
  · rw [hs.len]
    exact h2
  · rw [hs.blksz]
    exact h3
  · rw [hs.len, hs.blksz]
    exact h.cut
  · rw [hs.len, hs.kind]
    exact h4

/-- The offset of the next request. -/
theorem Shape.offset (ha : a.Ok cfg) (hlt : c.j < c.len) :
    u64 (c.pos + c.j) = a.pos + c.j.toNat ∧
      (a.pos + c.j.toNat) / MYFS_BLOCK_SIZE < MYFS_MAX_BLOCKS_PER_FILE ∧
      (a.pos + c.j.toNat) / MYFS_BLOCK_SIZE ∈ blocksOf a.pos a.len := by
  have h0 := h.j_nonneg
  have hle := h.len_le
  have hfits := ha.fits
  have hM := MYFS_MAX_BLOCKS_PER_FILE_eq
  have hB := MYFS_BLOCK_SIZE_eq
  have hp := h.pos
  have hlt' : a.pos + c.j.toNat < MYFS_MAX_BLOCKS_PER_FILE * MYFS_BLOCK_SIZE := by omega
  refine ⟨?_, ?_, ?_⟩
  · rw [hM, hB] at hlt'
    have := u64_of_range (x := c.pos + c.j) (by omega) (by omega)
    omega
  · exact Nat.div_lt_of_lt_mul (by rw [Nat.mul_comm]; exact hlt')
  · exact Finset.mem_image.2 ⟨c.j.toNat, Finset.mem_range.2 (by omega), rfl⟩

/-- The next request moves one chunk. -/
theorem Shape.request (hlt : c.j < c.len) (opc : Opc) (lba : Int) :
    c.request opc lba = ⟨opc, lba, c.blksz.toNat / 512, c.blksz.toNat, a.buf + c.j.toNat⟩ := by
  have h0 := h.j_nonneg
  obtain ⟨hb, hc⟩ := h.cut (by omega)
  have hsec := hc.sector
  have hnext : c.j.toNat + c.blksz.toNat ≤ c.len.toNat :=
    Nat.le_of_lt_add_of_dvd (by omega) (Nat.dvd_add h.j_dvd (Nat.dvd_refl _)) hc.dvd
  have hdiv : (divCeil c.blksz 512).toNat = c.blksz.toNat / 512 := by
    obtain ⟨b, hb'⟩ : ∃ b : Nat, c.blksz = b := ⟨c.blksz.toNat, by omega⟩
    rw [hb', Int.toNat_natCast] at hsec
    unfold divCeil
    rw [hb', show ((b : Int) + 512 - 1) = ((b + 511 : Nat) : Int) by omega]
    show (b + 511) / 512 = b / 512
    omega
  have hbuf := h.buf
  unfold IoCall.request
  rw [hdiv, Int.min_eq_left (by omega)]
  congr 1
  omega

/-- Its chunk is inside a page. -/
theorem Shape.chunk (ha : a.Ok cfg) (hlt : c.j < c.len) :
    Chunk (a.pos + c.j.toNat) c.blksz.toNat := by
  have h0 := h.j_nonneg
  obtain ⟨hb, hc⟩ := h.cut (by omega)
  have hsec := hc.sector
  have hp := ha.pos
  refine ⟨?_, hc.page _ h.j_dvd (by omega)⟩
  obtain ⟨k, hk⟩ := h.j_dvd
  have hj : c.j.toNat % 512 = 0 := by
    rw [hk, Nat.mul_mod, hsec, Nat.zero_mul, Nat.zero_mod]
  omega

end

end Hook
