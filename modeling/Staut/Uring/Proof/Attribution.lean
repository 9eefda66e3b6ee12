import Staut.Uring.Defs
import Staut.Lib.PhaseRing
import Mathlib.Data.List.Perm.Basic

/-!
# Completions reach the operation they belong to

An operation is known to `iouring_check` only by the index of its submission entry. `iouring_op`
takes the entry at the tail without looking at `done_flag`, so two operations can share an index
(`leaves_before_completion`). In every run in which an entry is taken only when the operation that
had it last has been reaped, a ULT leaves the polling loop only after the completion of its own
operation was posted (`completion_attributed`).

The invariant `RInv s r`, with `r` completions consumed up to the published head:

* the operations not yet reaped (`Live`) have distinct entries and `done_flag` 0;
* an entry that the kernel has not taken is the one its operation wrote;
* the completion ring holds the unreaped completions, each with its operation's index.
-/

set_option autoImplicit false

namespace Uring

open Run PhaseRing

theorem IOURING_DEPTH_pos : 0 < IOURING_DEPTH := by rw [IOURING_DEPTH_eq]; decide

theorem and_ringMask (n : Nat) : n &&& ringMask = n % IOURING_DEPTH := by
  unfold ringMask
  rw [IOURING_DEPTH_eq]
  exact Nat.and_two_pow_sub_one_eq_mod n 10

/-- A counter's index does not depend on its wrap-around. -/
theorem wrapped_index (n : Nat) : n % 2 ^ 32 &&& ringMask = n % IOURING_DEPTH := by
  rw [and_ringMask, IOURING_DEPTH_eq]
  omega

theorem wrapped_succ (n : Nat) : (n % 2 ^ 32 + 1) % 2 ^ 32 = (n + 1) % 2 ^ 32 := by omega

/-- `iouring_op` of operation `n` takes the next entry. -/
theorem op_eq {s : State} (hfull : (s.sub.sqTail + 1) % 2 ^ 32 ≠ s.sub.sqHead)
    (htail : s.sub.sqTail = s.ops % 2 ^ 32) (u : Nat) (a : Args) : s.op u a = { s with
      sub := { s.sub with
        sqTail := (s.ops + 1) % 2 ^ 32
        sqes := Function.update s.sub.sqes (s.ops % IOURING_DEPTH) (a.sqe (s.ops % IOURING_DEPTH))
        doneFlag := Function.update s.sub.doneFlag (s.ops % IOURING_DEPTH) 0 }
      ults := Function.update s.ults u (.submit (some (s.ops % IOURING_DEPTH)) (some s.ops))
      ops := s.ops + 1
      entryOp := Function.update s.entryOp (s.ops % IOURING_DEPTH) s.ops } := by
  have hget : iouringGetSqe s.sub =
      (some (s.ops % IOURING_DEPTH), { s.sub with sqTail := (s.ops + 1) % 2 ^ 32 }) := by
    unfold iouringGetSqe
    rw [if_neg hfull, htail, wrapped_index, wrapped_succ]
  unfold State.op iouringOp
  rw [hget]

/-- An operation takes an entry only when the operation that had it last has been reaped. -/
def SlotReaped (s : State) : Label → Prop
  | .op _ _ => s.sub.doneFlag (s.sub.sqTail &&& ringMask) ≠ 0
  | _ => True

/-! ## The invariant -/

/-- The number of entries the kernel has taken. -/
def State.taken (s : State) : Nat := s.inflight.length + s.posted.length

/-- The number of completions reaped beyond the published head. -/
def State.ahead (s : State) : Nat :=
  match s.checking with
  | some (_, _, k) => k
  | none => 0

theorem ahead_eq {s : State} {u h k : Nat} (hc : s.checking = some (u, h, k)) : s.ahead = k := by
  unfold State.ahead
  rw [hc]

/-- Operation `m` has an entry, and is not among the first `d` completions. -/
def State.Live (s : State) (d m : Nat) : Prop := m < s.ops ∧ m ∉ s.posted.take d

/-- A ULT past `iouring_op` has an operation and the index of its entry. -/
def Pc.Has (n : Nat) : Pc → Prop
  | .idle => True
  | .submit sqeId op | .poll sqeId op => ∃ m < n, op = some m ∧ sqeId = some (m % IOURING_DEPTH)

theorem Pc.Has.mono {n k : Nat} {p : Pc} (h : p.Has n) (hk : n ≤ k) : p.Has k := by
  cases p with
  | idle => trivial
  | submit sqeId op =>
    obtain ⟨m, hm, hop, hid⟩ := h
    exact ⟨m, Nat.lt_of_lt_of_le hm hk, hop, hid⟩
  | poll sqeId op =>
    obtain ⟨m, hm, hop, hid⟩ := h
    exact ⟨m, Nat.lt_of_lt_of_le hm hk, hop, hid⟩

structure RInv (s : State) (r : Nat) : Prop where
  sqTail : s.sub.sqTail = s.ops % 2 ^ 32
  sqHead : s.sub.sqHead = s.taken % 2 ^ 32
  taken_le : s.taken ≤ s.ops
  array : ∀ i < IOURING_DEPTH, s.sub.array i = i
  entry : ∀ m, s.taken ≤ m → m < s.ops → s.entryOp (m % IOURING_DEPTH) = m ∧
    (s.sub.sqes (m % IOURING_DEPTH)).userData = m % IOURING_DEPTH
  data : ∀ e ∈ s.inflight, e.2.userData = e.1 % IOURING_DEPTH
  nodup : (s.inflight.map Prod.fst ++ s.posted).Nodup
  lt : ∀ m ∈ s.inflight.map Prod.fst ++ s.posted, m < s.taken
  cqTail : s.sub.cqTail = s.posted.length % 2 ^ 32
  cqHead : s.sub.cqHead = r % 2 ^ 32
  ahead_le : r + s.ahead ≤ s.posted.length
  room : s.posted.length ≤ r + IOURING_DEPTH
  cq : ∀ (p m : Nat), s.posted[p]? = some m → s.posted.length ≤ p + IOURING_DEPTH →
    (s.sub.cqes (p % IOURING_DEPTH)).userData = m % IOURING_DEPTH ∧
      0 ≤ (s.sub.cqes (p % IOURING_DEPTH)).res
  inj : ∀ m n, s.Live (r + s.ahead) m → s.Live (r + s.ahead) n →
    m % IOURING_DEPTH = n % IOURING_DEPTH → m = n
  flag : ∀ m, s.Live (r + s.ahead) m → s.sub.doneFlag (m % IOURING_DEPTH) = 0
  head : ∀ u h k, s.checking = some (u, h, k) → h = (r + k) % 2 ^ 32
  ults : ∀ u, (s.ults u).Has s.ops
  left : ∀ o ∈ s.left, ∃ m ∈ s.posted, o = some m

section
variable {s : State} {r : Nat} (h : RInv s r)
include h

/-- An entry the kernel has not taken belongs to a live operation. -/
theorem RInv.live_of_taken_le {m : Nat} (h1 : s.taken ≤ m) (h2 : m < s.ops) :
    s.Live (r + s.ahead) m := by
  refine ⟨h2, fun hm => ?_⟩
  have := h.lt m (List.mem_append_right _ (List.mem_of_mem_take hm))
  omega

/-- Live operations have distinct indices, so the submission ring is never overrun. -/
theorem RInv.ops_le : s.ops ≤ s.taken + IOURING_DEPTH := by
  apply Classical.byContradiction
  intro hgt
  have hd := IOURING_DEPTH_pos
  have := h.inj s.taken (s.taken + IOURING_DEPTH) (h.live_of_taken_le (by omega) (by omega))
    (h.live_of_taken_le (by omega) (by omega)) (by rw [Nat.add_mod_right])
  omega

theorem RInv.not_full : (s.sub.sqTail + 1) % 2 ^ 32 ≠ s.sub.sqHead := by
  have h1 := h.taken_le
  have h2 := h.ops_le
  rw [IOURING_DEPTH_eq] at h2
  rw [h.sqTail, h.sqHead]
  omega

theorem RInv.op {u : Nat} {a : Args} (hc : SlotReaped s (.op u a)) : RInv (s.op u a) r := by
  have hdone : s.sub.doneFlag (s.ops % IOURING_DEPTH) ≠ 0 := by
    have := hc
    rwa [SlotReaped, h.sqTail, wrapped_index] at this
  -- the index taken is no live operation's
  have hfree : ∀ m, s.Live (r + s.ahead) m → m % IOURING_DEPTH ≠ s.ops % IOURING_DEPTH :=
    fun m hm hi => hdone (hi ▸ h.flag m hm)
  rw [op_eq h.not_full h.sqTail]
  have hlive : ∀ m, m < s.ops + 1 ∧ m ∉ s.posted.take (r + s.ahead) →
      m = s.ops ∨ s.Live (r + s.ahead) m := by
    intro m hm
    rcases Nat.lt_or_ge m s.ops with h1 | h1
    · exact .inr ⟨h1, hm.2⟩
    · exact .inl (by omega)
  refine
    { sqTail := rfl
      sqHead := h.sqHead
      taken_le := Nat.le_succ_of_le h.taken_le
      array := h.array
      entry := fun m h1 h2 => ?_
      data := h.data
      nodup := h.nodup
      lt := h.lt
      cqTail := h.cqTail
      cqHead := h.cqHead
      ahead_le := h.ahead_le
      room := h.room
      cq := h.cq
      inj := fun m n hm hn hi => ?_
      flag := fun m hm => ?_
      head := h.head
      ults := fun v => ?_
      left := h.left }
  · rcases Nat.lt_or_ge m s.ops with h3 | h3
    · have hne := hfree m (h.live_of_taken_le h1 h3)
      simp only [Function.update_of_ne hne]
      exact h.entry m h1 h3
    · obtain rfl : m = s.ops := Nat.le_antisymm (Nat.le_of_lt_succ h2) h3
      simp only [Function.update_self]
      exact ⟨trivial, rfl⟩
  · rcases hlive m hm with rfl | hm
    · rcases hlive n hn with rfl | hn
      · rfl
      · exact absurd hi.symm (hfree n hn)
    · rcases hlive n hn with rfl | hn
      · exact absurd hi (hfree m hm)
      · exact h.inj m n hm hn hi
  · rcases hlive m hm with rfl | hm
    · exact Function.update_self ..
    · exact (Function.update_of_ne (hfree m hm) _ _).trans (h.flag m hm)
  · by_cases hv : v = u
    · subst hv
      simp only [Function.update_self]
      exact ⟨s.ops, Nat.lt_succ_self _, rfl, rfl⟩
    · simp only [Function.update_of_ne hv]
      exact (h.ults v).mono (Nat.le_succ _)

/-- A ULT goes on to poll. -/
theorem RInv.setPoll {u : Nat} {sqeId op : Option Nat} (hu : s.ults u = .submit sqeId op) :
    RInv { s with ults := Function.update s.ults u (.poll sqeId op) } r := by
  refine ⟨h.sqTail, h.sqHead, h.taken_le, h.array, h.entry, h.data, h.nodup, h.lt, h.cqTail,
    h.cqHead, h.ahead_le, h.room, h.cq, h.inj, h.flag, h.head, fun v => ?_, h.left⟩
  by_cases hv : v = u
  · subst hv
    have hp := h.ults v
    rw [hu] at hp
    simp only [Function.update_self]
    exact hp
  · simp only [Function.update_of_ne hv]
    exact h.ults v

/-- The entry the kernel takes is that of the next operation in order. -/
theorem RInv.take (hne : s.sub.sqHead ≠ s.sub.sqTail) : RInv s.take r := by
  have hlt : s.taken < s.ops := by
    have := h.taken_le
    rw [h.sqHead, h.sqTail] at hne
    omega
  have hidx : s.sub.array (s.sub.sqHead &&& ringMask) = s.taken % IOURING_DEPTH := by
    rw [h.sqHead, wrapped_index]
    exact h.array _ (Nat.mod_lt _ IOURING_DEPTH_pos)
  obtain ⟨hop, hdata⟩ := h.entry s.taken (Nat.le_refl _) hlt
  have hfly : s.take.inflight =
      s.inflight ++ [(s.taken, s.sub.sqes (s.taken % IOURING_DEPTH))] := by
    simp only [State.take, hidx, hop]
  have htaken : s.take.taken = s.taken + 1 := by
    unfold State.taken
    rw [hfly, List.length_append, List.length_singleton]
    show _ + 1 + s.posted.length = _
    omega
  have hperm : (s.take.inflight.map Prod.fst ++ s.posted).Perm
      (s.taken :: (s.inflight.map Prod.fst ++ s.posted)) := by
    rw [hfly, List.map_append, List.append_assoc]
    exact List.perm_middle
  refine
    { sqTail := h.sqTail
      sqHead := ?_
      taken_le := by rw [htaken]; exact hlt
      array := h.array
      entry := fun m h1 h2 => h.entry m (by rw [htaken] at h1; omega) h2
      data := fun e he => ?_
      nodup := ?_
      lt := fun m hm => ?_
      cqTail := h.cqTail
      cqHead := h.cqHead
      ahead_le := h.ahead_le
      room := h.room
      cq := h.cq
      inj := h.inj
      flag := h.flag
      head := h.head
      ults := h.ults
      left := h.left }
  · rw [htaken, ← wrapped_succ, ← h.sqHead]
    rfl
  · rw [hfly, List.mem_append, List.mem_singleton] at he
    rcases he with he | rfl
    · exact h.data e he
    · exact hdata
  · refine hperm.nodup_iff.2 (List.nodup_cons.2 ⟨fun hm => ?_, h.nodup⟩)
    exact Nat.lt_irrefl _ (h.lt _ hm)
  · rw [htaken]
    rcases List.mem_cons.1 (hperm.mem_iff.1 hm) with rfl | hm
    · exact Nat.lt_succ_self _
    · exact Nat.lt_succ_of_lt (h.lt m hm)

/-- The kernel posts a completion. -/
theorem RInv.complete {i : Nat} {e : Nat × Sqe} {res : Int} (he : s.inflight[i]? = some e)
    (hroom : (s.sub.cqTail + 2 ^ 32 - s.sub.cqHead) % 2 ^ 32 < IOURING_DEPTH) (hres : 0 ≤ res) :
    RInv (s.complete i e res) r := by
  obtain ⟨hi, hei⟩ := List.getElem?_eq_some_iff.1 he
  have hmem : e ∈ s.inflight := hei ▸ List.getElem_mem hi
  have hlen : s.posted.length < r + IOURING_DEPTH := by
    have h1 := h.ahead_le
    have h2 := h.room
    rw [IOURING_DEPTH_eq] at *
    rw [h.cqTail, h.cqHead] at hroom
    omega
  have hperm : ((s.inflight.eraseIdx i).map Prod.fst ++ (s.posted ++ [e.1])).Perm
      (s.inflight.map Prod.fst ++ s.posted) := by
    rw [← List.append_assoc]
    refine (List.perm_append_singleton _ _).trans ?_
    rw [← List.cons_append]
    exact ((perm_eraseIdx he).map Prod.fst).append_right _
  have htaken : (s.complete i e res).taken = s.taken := by
    show (s.inflight.eraseIdx i).length + (s.posted ++ [e.1]).length = _
    rw [List.length_eraseIdx_of_lt hi, List.length_append, List.length_singleton]
    unfold State.taken
    omega
  have htake : (s.posted ++ [e.1]).take (r + s.ahead) = s.posted.take (r + s.ahead) :=
    List.take_append_of_le_length h.ahead_le
  have hlive : ∀ m, (s.complete i e res).Live (r + s.ahead) m ↔ s.Live (r + s.ahead) m := by
    intro m
    show _ ∧ m ∉ (s.posted ++ [e.1]).take _ ↔ _
    rw [htake]
    rfl
  refine
    { sqTail := h.sqTail
      sqHead := by rw [htaken]; exact h.sqHead
      taken_le := by rw [htaken]; exact h.taken_le
      array := h.array
      entry := fun m h1 h2 => h.entry m (by rwa [htaken] at h1) h2
      data := fun x hx => h.data x (List.mem_of_mem_eraseIdx hx)
      nodup := hperm.nodup_iff.2 h.nodup
      lt := fun m hm => by rw [htaken]; exact h.lt m (hperm.mem_iff.1 hm)
      cqTail := ?_
      cqHead := h.cqHead
      ahead_le := ?_
      room := ?_
      cq := fun p m hp hb => ?_
      inj := fun m n hm hn => h.inj m n ((hlive m).1 hm) ((hlive n).1 hn)
      flag := fun m hm => h.flag m ((hlive m).1 hm)
      head := h.head
      ults := h.ults
      left := fun o ho => ?_ }
  · show (s.sub.cqTail + 1) % 2 ^ 32 = (s.posted ++ [e.1]).length % 2 ^ 32
    rw [h.cqTail, wrapped_succ, List.length_append, List.length_singleton]
  · show r + s.ahead ≤ (s.posted ++ [e.1]).length
    have := h.ahead_le
    rw [List.length_append]
    omega
  · show (s.posted ++ [e.1]).length ≤ _
    rw [List.length_append, List.length_singleton]
    omega
  · have hp' : (s.posted ++ [e.1])[p]? = some m := hp
    have hb' : (s.posted ++ [e.1]).length ≤ p + IOURING_DEPTH := hb
    rw [List.length_append, List.length_singleton] at hb'
    simp only [State.complete, h.cqTail, wrapped_index]
    rcases Nat.lt_or_ge p s.posted.length with hlt | hge
    · -- an older completion: its slot is not the one written
      have hne : p % IOURING_DEPTH ≠ s.posted.length % IOURING_DEPTH := fun heq => by
        have := Cyclic.eq_of_mod_eq heq (by omega) (by omega)
        omega
      rw [Function.update_of_ne hne]
      exact h.cq p m (by rwa [List.getElem?_append_left hlt] at hp') (by omega)
    · have hpl := (List.getElem?_eq_some_iff.1 hp').1
      rw [List.length_append, List.length_singleton] at hpl
      obtain rfl : p = s.posted.length := by omega
      rw [List.getElem?_append_right (Nat.le_refl _), Nat.sub_self] at hp'
      obtain rfl : e.1 = m := Option.some.inj hp'
      rw [Function.update_self]
      exact ⟨h.data e hmem, hres⟩
  · obtain ⟨m, hm, hom⟩ := h.left o ho
    exact ⟨m, List.mem_append_left _ hm, hom⟩

/-- A flag that is set is no live operation's. -/
theorem RInv.posted_of_flag {m : Nat} (hm : m < s.ops)
    (hf : s.sub.doneFlag (m % IOURING_DEPTH) ≠ 0) : m ∈ s.posted := by
  apply Classical.byContradiction
  intro hn
  exact hf (h.flag m ⟨hm, fun ht => hn (List.mem_of_mem_take ht)⟩)

section
variable {u head k : Nat} (hc : s.checking = some (u, head, k))
include hc

/-- The loop takes the next completion and marks its operation, which is live no more. -/
theorem RInv.reap (hne : head ≠ s.sub.cqTail) : ∃ i, iouringCheck s.sub head k =
      ({ s.sub with doneFlag := Function.update s.sub.doneFlag i 1 },
        some ((head + 1) % 2 ^ 32, k + 1)) ∧
    RInv { s with
      sub := { s.sub with doneFlag := Function.update s.sub.doneFlag i 1 }
      checking := some (u, (head + 1) % 2 ^ 32, k + 1) } r := by
  have hk := ahead_eq hc
  have hhead := h.head u head k hc
  have hle := h.ahead_le
  rw [hk] at hle
  have hlt : r + k < s.posted.length := by
    rw [hhead, h.cqTail] at hne
    omega
  obtain ⟨n, hn⟩ : ∃ n, s.posted[r + k]? = some n := ⟨_, List.getElem?_eq_getElem hlt⟩
  obtain ⟨hdata, hres⟩ := h.cq (r + k) n hn (by have := h.room; omega)
  have htake : s.posted.take (r + (k + 1)) = s.posted.take (r + k) ++ [n] := by
    rw [← Nat.add_assoc, List.take_add_one, hn]
    rfl
  have hnlive : s.Live (r + s.ahead) n := by
    rw [hk]
    have hmem : n ∈ s.posted := List.mem_of_getElem? hn
    refine ⟨Nat.lt_of_lt_of_le (h.lt n (List.mem_append_right _ hmem)) h.taken_le, fun ht => ?_⟩
    have hnd := (List.nodup_append.1 h.nodup).2.1
    rw [← List.take_append_drop (r + k + 1) s.posted] at hnd
    rw [Nat.add_assoc, htake] at hnd
    exact (List.nodup_append.1 (List.nodup_append.1 hnd).1).2.2 n ht n
      (List.mem_singleton.2 rfl) rfl
  have hlive : ∀ m, m < s.ops ∧ m ∉ s.posted.take (r + (k + 1)) →
      s.Live (r + s.ahead) m ∧ m ≠ n := by
    intro m hm
    rw [htake, List.mem_append, List.mem_singleton, not_or] at hm
    rw [hk]
    exact ⟨⟨hm.1, hm.2.1⟩, hm.2.2⟩
  refine ⟨n % IOURING_DEPTH, ?_, ?_⟩
  · unfold iouringCheck
    rw [if_neg hne, hhead, wrapped_index, if_neg (by omega), hdata]
  · refine
      { sqTail := h.sqTail
        sqHead := h.sqHead
        taken_le := h.taken_le
        array := h.array
        entry := h.entry
        data := h.data
        nodup := h.nodup
        lt := h.lt
        cqTail := h.cqTail
        cqHead := h.cqHead
        ahead_le := hlt
        room := h.room
        cq := h.cq
        inj := fun m m' hm hm' => h.inj m m' (hlive m hm).1 (hlive m' hm').1
        flag := fun m hm => ?_
        head := fun v x y hx => ?_
        ults := h.ults
        left := h.left }
    · obtain ⟨hm, hmn⟩ := hlive m hm
      have hi : m % IOURING_DEPTH ≠ n % IOURING_DEPTH := fun hi => hmn (h.inj m n hm hnlive hi)
      exact (Function.update_of_ne hi _ _).trans (h.flag m hm)
    · simp only [Option.some.injEq, Prod.mk.injEq] at hx
      obtain ⟨-, rfl, rfl⟩ := hx
      rw [hhead, wrapped_succ, Nat.add_assoc]

/-- The loop ends and publishes its head. -/
theorem RInv.publish (heq : head = s.sub.cqTail) (us : Nat → Pc) (ls : List (Option Nat))
    (hus : ∀ v, (us v).Has s.ops) (hls : ∀ o ∈ ls, ∃ m ∈ s.posted, o = some m) :
    RInv { s with
      sub := (iouringCheck s.sub head k).1
      checking := none
      ults := us
      left := ls } (r + k) := by
  have hk := ahead_eq hc
  have hhead := h.head u head k hc
  have hsub : (iouringCheck s.sub head k).1 = { s.sub with cqHead := (r + k) % 2 ^ 32 } := by
    unfold iouringCheck
    rw [if_pos heq]
    by_cases h0 : k = 0
    · subst h0
      rw [if_pos rfl, Nat.add_zero, ← h.cqHead]
    · rw [if_neg h0, hhead]
  have hlive := h.inj
  have hflag := h.flag
  have hle := h.ahead_le
  rw [hk] at hlive hflag hle
  rw [hsub]
  exact ⟨h.sqTail, h.sqHead, h.taken_le, h.array, h.entry, h.data, h.nodup, h.lt, h.cqTail, rfl,
    hle, Nat.le_trans h.room (by omega), h.cq, hlive, hflag,
    (fun v x y hx => by cases hx), hus, hls⟩

theorem RInv.check {sqeId op : Option Nat} (hu : s.ults u = .poll sqeId op) :
    ∃ r', RInv (s.check u head k sqeId op) r' := by
  by_cases heq : head = s.sub.cqTail
  · have hsub : iouringCheck s.sub head k = ((iouringCheck s.sub head k).1, none) := by
      unfold iouringCheck
      rw [if_pos heq]
    refine ⟨r + k, ?_⟩
    unfold State.check
    rw [hsub]
    dsimp only
    split
    · rename_i hf
      -- the ULT leaves: its flag is set, so its operation is not live
      obtain ⟨m, hm, rfl, rfl⟩ : ∃ m < s.ops, op = some m ∧ sqeId = some (m % IOURING_DEPTH) := by
        have := h.ults u
        rwa [hu] at this
      refine h.publish hc heq _ _ (fun v => ?_) (fun o ho => ?_)
      · by_cases hv : v = u
        · subst hv
          simp only [Function.update_self]
          trivial
        · simp only [Function.update_of_ne hv]
          exact h.ults v
      · rcases List.mem_append.1 ho with ho | ho
        · exact h.left o ho
        · obtain rfl := List.mem_singleton.1 ho
          refine ⟨m, h.posted_of_flag hm ?_, rfl⟩
          have hd : (iouringCheck s.sub head k).1.doneFlag = s.sub.doneFlag := by
            unfold iouringCheck
            rw [if_pos heq]
            split <;> rfl
          rw [← hd]
          exact hf
    · exact h.publish hc heq _ _ h.ults h.left
  · obtain ⟨i, hi, hr⟩ := h.reap hc heq
    refine ⟨r, ?_⟩
    unfold State.check
    rw [hi]
    exact hr

end

end

/-! ## Runs -/

theorem RInv.init {s : State} (h : ring.init s) : RInv s 0 := by
  obtain ⟨m, f, rfl⟩ := h
  refine ⟨rfl, rfl, Nat.le_refl _, fun i hi => if_pos hi, fun n _ hn =>
    absurd hn (Nat.not_lt_zero n), fun e he => absurd he List.not_mem_nil, List.nodup_nil,
      fun n hn => absurd hn List.not_mem_nil,
    rfl, rfl, Nat.le_refl _, Nat.zero_le _, (fun p n hp => by simp at hp),
    fun n _ hn => absurd hn.1 (Nat.not_lt_zero n), fun n hn => absurd hn.1 (Nat.not_lt_zero n),
    (fun u h k hc => by cases hc), fun u => trivial, fun o ho => absurd ho List.not_mem_nil⟩

theorem RInv.step {s s' : State} {a : Label} {r : Nat} (h : RInv s r) (hc : SlotReaped s a)
    (hs : Step s a s') : ∃ r', RInv s' r' := by
  cases hs with
  | op a _ _ => exact ⟨r, h.op hc⟩
  | submit _ hu hne => exact ⟨r, (h.take hne).setPoll hu⟩
  | refused _ hu => exact ⟨r, h.setPoll hu⟩
  | getevents hn hu =>
    have hk : s.ahead = 0 := by
      unfold State.ahead
      rw [hn]
    have hle := h.ahead_le
    have hinj := h.inj
    have hflag := h.flag
    rw [hk] at hle hinj hflag
    refine ⟨r, h.sqTail, h.sqHead, h.taken_le, h.array, h.entry, h.data, h.nodup, h.lt, h.cqTail,
      h.cqHead, hle, h.room, h.cq, hinj, hflag, fun v x y hx => ?_, h.ults, h.left⟩
    simp only [Option.some.injEq, Prod.mk.injEq] at hx
    obtain ⟨-, rfl, rfl⟩ := hx
    exact h.cqHead
  | check hk hu => exact h.check hk hu
  | complete he hroom hres => exact ⟨r, h.complete he hroom hres⟩

/-- A ULT leaves the polling loop only after the completion of its own operation was posted, in
every run in which no entry is taken before its last operation has been reaped. -/
theorem completion_attributed {s : State} (h : ring.ReachIf SlotReaped s) :
    ∀ o ∈ s.left, ∃ m ∈ s.posted, o = some m := by
  have hinv : ∃ r, RInv s r := by
    induction h with
    | init hi => exact ⟨0, .init hi⟩
    | step _ hc hs ih =>
      obtain ⟨r, hr⟩ := ih
      exact hr.step hc hs
  obtain ⟨r, hr⟩ := hinv
  exact hr.left

/-! ## Two runs -/

/-- All `n` entries are taken, all `p` completions reaped. -/
structure Quiet (s : State) (n p : Nat) : Prop where
  checking : s.checking = none
  ops : s.ops = n
  sqTail : s.sub.sqTail = n % 2 ^ 32
  sqHead : s.sub.sqHead = n % 2 ^ 32
  cqTail : s.sub.cqTail = p % 2 ^ 32
  cqHead : s.sub.cqHead = p % 2 ^ 32
  array : ∀ i < IOURING_DEPTH, s.sub.array i = i

theorem Quiet.init {s : State} (h : ring.init s) : Quiet s 0 0 := by
  obtain ⟨m, f, rfl⟩ := h
  exact ⟨rfl, rfl, rfl, rfl, rfl, rfl, fun i hi => if_pos hi⟩

theorem check_reap {s : State} {u head k : Nat} {sqeId op : Option Nat} {c : Cqe}
    (hne : head ≠ s.sub.cqTail) (hcqe : s.sub.cqes (head &&& ringMask) = c) (hres : 0 ≤ c.res) :
    s.check u head k sqeId op = { s with
      sub := { s.sub with doneFlag := Function.update s.sub.doneFlag c.userData 1 }
      checking := some (u, (head + 1) % 2 ^ 32, k + 1) } := by
  unfold State.check iouringCheck
  rw [if_neg hne, hcqe, if_neg (by omega)]

theorem check_leave {s : State} {u head k : Nat} {sqeId op : Option Nat} (heq : head = s.sub.cqTail)
    (hk : k ≠ 0) (hf : s.sub.flag sqeId ≠ 0) : s.check u head k sqeId op = { s with
      sub := { s.sub with cqHead := head }
      checking := none
      ults := Function.update s.ults u .idle
      left := s.left ++ [op] } := by
  have hflag : ({ s.sub with cqHead := head } : Submitter).flag sqeId ≠ 0 := by
    cases sqeId <;> exact hf
  unfold State.check iouringCheck
  rw [if_pos heq, if_neg hk]
  exact if_pos hflag

section
variable {C : State → Label → Prop} (hC : ∀ s l, SlotReaped s l → C s l)
include hC

/-- An idle ULT submits its operation. -/
theorem reach_submitted {s : State} {n p u : Nat} (hr : ring.ReachIf C s) (hq : Quiet s n p)
    (hu : s.ults u = .idle) {a : Args} (hop : C s (.op u a)) :
    ∃ s', ring.ReachIf C s' ∧ Quiet s' (n + 1) p ∧
      s'.inflight = s.inflight ++ [(n, a.sqe (n % IOURING_DEPTH))] ∧
      s'.ults = Function.update s.ults u (.poll (some (n % IOURING_DEPTH)) (some n)) ∧
      s'.posted = s.posted ∧ s'.left = s.left ∧
      s'.sub.doneFlag = Function.update s.sub.doneFlag (n % IOURING_DEPTH) 0 := by
  obtain ⟨hck, rfl, htail, hhead, hcqt, hcqh, harr⟩ := hq
  have hfull : (s.sub.sqTail + 1) % 2 ^ 32 ≠ s.sub.sqHead := by
    rw [htail, hhead]
    omega
  have h1 : ring.ReachIf C (s.op u a) := .step hr hop (Step.op a hck hu)
  have hsub : (s.op u a).ults u = .submit (some (s.ops % IOURING_DEPTH)) (some s.ops) := by
    rw [op_eq hfull htail]
    exact Function.update_self ..
  have h2 := h1.step (hC _ (.submit u true) trivial)
    (Step.submit (by rw [op_eq hfull htail]; exact hck) hsub
    (by rw [op_eq hfull htail]; simp only [hhead]; omega))
  have hidx : s.sub.array (s.sub.sqHead &&& ringMask) = s.ops % IOURING_DEPTH := by
    rw [hhead, wrapped_index]
    exact harr _ (Nat.mod_lt _ IOURING_DEPTH_pos)
  refine ⟨_, h2, ⟨?_, ?_, ?_, ?_, ?_, ?_, ?_⟩, ?_, ?_, ?_, ?_, ?_⟩
  all_goals simp only [State.take, op_eq hfull htail, hidx, Function.update_self,
    Function.update_idem]
  · exact hck
  · rw [hhead, wrapped_succ]
  · exact hcqt
  · exact hcqh
  · exact harr

/-- One operation in flight completes and a polling ULT leaves on its index. -/
theorem reach_left {s : State} {n p u i : Nat} {e : Nat × Sqe} {o : Option Nat}
    (hr : ring.ReachIf C s) (hq : Quiet s n p) (he : s.inflight[i]? = some e)
    (hu : s.ults u = .poll (some e.2.userData) o) :
    ∃ s', ring.ReachIf C s' ∧ Quiet s' n (p + 1) ∧ s'.inflight = s.inflight.eraseIdx i ∧
      s'.ults = Function.update s.ults u .idle ∧ s'.posted = s.posted ++ [e.1] ∧
      s'.left = s.left ++ [o] ∧
      s'.sub.doneFlag = Function.update s.sub.doneFlag e.2.userData 1 := by
  obtain ⟨hck, rfl, htail, hhead, hcqt, hcqh, harr⟩ := hq
  have hroom : (s.sub.cqTail + 2 ^ 32 - s.sub.cqHead) % 2 ^ 32 < IOURING_DEPTH := by
    rw [hcqt, hcqh, IOURING_DEPTH_eq]
    omega
  have h1 : ring.ReachIf C (s.complete i e 0) :=
    .step hr (hC _ (.complete i 0) trivial) (Step.complete he hroom (Int.le_refl 0))
  let s2 : State := { s.complete i e 0 with checking := some (u, s.sub.cqHead, 0) }
  have h2 : ring.ReachIf C s2 := .step h1 (hC _ (.getevents u) trivial) (Step.getevents hck hu)
  have hcqe : s2.sub.cqes (s.sub.cqHead &&& ringMask) = ⟨e.2.userData, 0⟩ := by
    simp only [s2, State.complete, hcqt, hcqh, Function.update_self]
  have hne : s.sub.cqHead ≠ s2.sub.cqTail := by
    simp only [s2, State.complete, hcqt, hcqh]
    omega
  have h3 : ring.ReachIf C (s2.check u s.sub.cqHead 0 (some e.2.userData) o) :=
    .step h2 (hC _ .check trivial) (Step.check rfl hu)
  rw [check_reap hne hcqe (Int.le_refl 0)] at h3
  have h4 := h3.step (hC _ .check trivial) (Step.check rfl hu)
  rw [check_leave (by simp only [s2, State.complete, hcqt, hcqh]) (Nat.succ_ne_zero _)
    (by simp only [Submitter.flag, Function.update_self]; decide)] at h4
  refine ⟨_, h4, ⟨rfl, rfl, htail, hhead, ?_, ?_, harr⟩, rfl, rfl, rfl, rfl, rfl⟩
  · simp only [s2, State.complete, hcqt, wrapped_succ]
  · simp only [hcqh, wrapped_succ]

end

/-- Two operations of two ULTs, the second of which completes first. -/
theorem completion_attributed_swapped : ∃ s, ring.ReachIf SlotReaped s ∧ s.left = [some 1, some 0] ∧
    ∀ o ∈ s.left, ∃ m ∈ s.posted, o = some m := by
  let a : Args := ⟨.IORING_OP_READ, 3, 4096, 512, 0⟩
  have hid : ∀ s l, SlotReaped s l → SlotReaped s l := fun _ _ h => h
  let s0 : State := ⟨iouringSetup default 0, fun _ => .idle, none, [], 0, fun _ => 0, [], []⟩
  have hi : ring.init s0 := ⟨_, _, rfl⟩
  have hop : (iouringSetup default 0).doneFlag (0 &&& ringMask) ≠ 0 := by
    simp only [Nat.zero_and, iouringSetup, if_pos IOURING_DEPTH_pos]
    decide
  obtain ⟨s1, h1, hq1, hfly1, hus1, -, hl1, hd1⟩ :=
    reach_submitted hid (.init hi) (.init hi) (u := 0) (a := a) rfl hop
  -- the entry after the first one is free as well
  have hD := IOURING_DEPTH_eq
  have hop1 : SlotReaped s1 (.op 1 a) := by
    show s1.sub.doneFlag (s1.sub.sqTail &&& ringMask) ≠ 0
    rw [hq1.sqTail, wrapped_index, hd1, Function.update_of_ne (by rw [hD]; decide)]
    simp only [s0, iouringSetup, if_pos (Nat.mod_lt _ IOURING_DEPTH_pos)]
    decide
  obtain ⟨s2, h2, hq2, hfly2, hus2, -, hl2, -⟩ := reach_submitted hid h1 hq1 (u := 1) (a := a)
    (by rw [hus1]; rfl) hop1
  obtain ⟨s3, h3, hq3, hfly3, hus3, -, hl3, -⟩ := reach_left hid h2 hq2 (u := 1) (i := 1)
    (by rw [hfly2, hfly1]; rfl) (by rw [hus2]; exact Function.update_self ..)
  obtain ⟨s4, h4, -, -, -, -, hl4, -⟩ := reach_left hid h3 hq3 (u := 0) (i := 0)
    (by rw [hfly3, hfly2, hfly1]; rfl) (by rw [hus3, hus2, hus1]; rfl)
  rw [hl3, hl2, hl1] at hl4
  exact ⟨s4, h4, hl4, fun o ho => completion_attributed h4 o ho⟩

/-- One slow operation of ULT 0, `k` fast ones of ULT 1. -/
theorem reach_fast (k : Nat) (hk : k < IOURING_DEPTH) : ∃ s, ring.Reach s ∧ Quiet s (k + 1) k ∧
    s.inflight.map Prod.fst = [0] ∧ s.ults 0 = .poll (some 0) (some 0) ∧ s.ults 1 = .idle ∧
    0 ∉ s.posted := by
  let a : Args := ⟨.IORING_OP_READ, 3, 4096, 512, 0⟩
  have htrue : ∀ s l, SlotReaped s l → True := fun _ _ _ => trivial
  induction k with
  | zero =>
    let s0 : State := ⟨iouringSetup default 0, fun _ => .idle, none, [], 0, fun _ => 0, [], []⟩
    have hi : ring.init s0 := ⟨_, _, rfl⟩
    obtain ⟨s, h, hq, hfly, hus, hp, -, -⟩ :=
      reach_submitted htrue (.init hi) (.init hi) (u := 0) (a := a) rfl trivial
    rw [Nat.zero_mod] at hfly hus
    refine ⟨s, h, hq, by rw [hfly]; rfl, by rw [hus]; rfl, by rw [hus]; rfl, ?_⟩
    rw [hp]
    exact List.not_mem_nil
  | succ k ih =>
    obtain ⟨s, h, hq, hfly, hu0, hu1, hp⟩ := ih (Nat.lt_of_succ_lt hk)
    obtain ⟨s1, h1, hq1, hfly1, hus1, hp1, -, -⟩ :=
      reach_submitted htrue h hq (a := a) hu1 trivial
    have hlen : s.inflight.length = 1 := by simpa using congrArg List.length hfly
    obtain ⟨s2, h2, hq2, hfly2, hus2, hp2, -, -⟩ := reach_left htrue h1 hq1 (u := 1) (i := 1)
      (by rw [hfly1, List.getElem?_append_right (by omega), hlen]; rfl)
      (by rw [hus1]; exact Function.update_self ..)
    refine ⟨s2, h2, hq2, ?_, ?_, ?_, ?_⟩
    · rw [hfly2, hfly1, List.eraseIdx_append_of_length_le (by omega), hlen]
      simpa using hfly
    · rw [hus2, hus1, Function.update_of_ne (by decide), Function.update_of_ne (by decide)]
      exact hu0
    · rw [hus2]
      exact Function.update_self ..
    · rw [hp2, hp1, List.mem_append, List.mem_singleton, not_or]
      exact ⟨hp, by simp⟩

/-- After a ring of fast operations the next one gets the index of the slow one, and its
completion lets the slow one's ULT go. -/
theorem leaves_before_completion : ∃ s, ring.Reach s ∧ some 0 ∈ s.left ∧ 0 ∉ s.posted := by
  let a : Args := ⟨.IORING_OP_READ, 3, 4096, 512, 0⟩
  have htrue : ∀ s l, SlotReaped s l → True := fun _ _ _ => trivial
  obtain ⟨s, h, hq, hfly, hu0, hu1, hp⟩ := reach_fast (IOURING_DEPTH - 1)
    (Nat.sub_lt IOURING_DEPTH_pos Nat.one_pos)
  obtain ⟨s1, h1, hq1, hfly1, hus1, hp1, -, -⟩ := reach_submitted htrue h hq (a := a) hu1 trivial
  rw [Nat.sub_add_cancel IOURING_DEPTH_pos, Nat.mod_self] at hfly1 hus1
  have hlen : s.inflight.length = 1 := by simpa using congrArg List.length hfly
  obtain ⟨s2, h2, -, -, -, hp2, hl2, -⟩ := reach_left htrue h1 hq1 (u := 0) (i := 1)
    (by rw [hfly1, List.getElem?_append_right (by omega), hlen]; rfl)
    (by rw [hus1, Function.update_of_ne (by decide)]; exact hu0)
  refine ⟨s2, h2, by rw [hl2]; exact List.mem_append_right _ (List.mem_singleton.2 rfl), ?_⟩
  rw [hp2, hp1, List.mem_append, List.mem_singleton, not_or]
  exact ⟨hp, (Nat.ne_of_lt IOURING_DEPTH_pos)⟩

end Uring
