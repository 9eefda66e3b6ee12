import Staut.Uring.Completions
import Staut.Uring.Proof.Attribution
import Mathlib.Data.List.Induction

/-!
# A negative result blocks the ring

`iouring_check` returns in the middle of a batch when it meets a negative result, before it
publishes the head. The next call starts again at the old head, processes the entries before the
failing one once more and comes to it again, so neither that entry nor a later one is ever processed
(`Blocked`). As long as no result is negative every entry is processed once (`Clean`,
`consumed_iff`).
-/

set_option autoImplicit false

namespace Uring

open Run PhaseRing

/-! ## The ring -/

structure CInv (s : Cq) : Prop where
  cqTail : s.sub.cqTail = s.posted.length % 2 ^ 32
  cqHead : s.sub.cqHead = s.published % 2 ^ 32
  le : s.published ≤ s.posted.length
  room : s.posted.length ≤ s.published + IOURING_DEPTH
  ring : ∀ (m : Nat) (e : Cqe), s.posted[m]? = some e → s.posted.length ≤ m + IOURING_DEPTH →
    s.sub.cqes (m % IOURING_DEPTH) = e
  lt : ∀ m ∈ s.processed, m < s.posted.length
  checking : ∀ head k, s.checking = some (head, k) →
    head = (s.published + k) % 2 ^ 32 ∧ s.published + k ≤ s.posted.length

/-- What one round does: the head is at the tail, or at an entry. -/
inductive CheckStep (s : Cq) (k : Nat) : Cq → Prop
  | finish (sub : Submitter) : s.published + k = s.posted.length → sub.cqTail = s.sub.cqTail →
      sub.cqHead = (s.published + k) % 2 ^ 32 → sub.cqes = s.sub.cqes →
      CheckStep s k { s with sub := sub, checking := none, published := s.published + k }
  | error {e : Cqe} : s.posted[s.published + k]? = some e → e.res < 0 →
      CheckStep s k { s with checking := none }
  | take {e : Cqe} : s.posted[s.published + k]? = some e → 0 ≤ e.res →
      CheckStep s k { s with
        sub := { s.sub with doneFlag := Function.update s.sub.doneFlag e.userData 1 }
        checking := some ((s.published + (k + 1)) % 2 ^ 32, k + 1)
        processed := s.processed ++ [s.published + k] }

section
variable {s : Cq} (h : CInv s) {head k : Nat} (hc : s.checking = some (head, k))
include h hc

theorem CInv.head_iff : head = s.sub.cqTail ↔ s.published + k = s.posted.length := by
  have hD := IOURING_DEPTH_eq
  obtain ⟨hh, hle⟩ := h.checking _ _ hc
  have hroom := h.room
  rw [hh, h.cqTail]
  constructor
  · intro he
    exact Cyclic.eq_of_mod_eq he (by omega) (by omega)
  · intro he
    rw [he]

theorem CInv.head_entry (hlt : s.published + k < s.posted.length) :
    s.posted[s.published + k]? = some (s.sub.cqes (head &&& ringMask)) := by
  have hroom := h.room
  have hget := List.getElem?_eq_getElem hlt
  rw [(h.checking _ _ hc).1, wrapped_index, h.ring _ _ hget (by omega)]
  exact hget

theorem CInv.check_step : CheckStep s k (s.check head k) := by
  obtain ⟨hh, hle⟩ := h.checking _ _ hc
  have hiff := h.head_iff hc
  unfold Cq.check iouringCheck
  by_cases ht : head = s.sub.cqTail
  · rw [if_pos ht]
    simp only [if_pos ht]
    by_cases hk : k = 0
    · subst hk
      rw [if_pos rfl]
      exact .finish s.sub (hiff.1 ht) rfl (by rw [h.cqHead, Nat.add_zero]) rfl
    · rw [if_neg hk]
      exact .finish _ (hiff.1 ht) rfl hh rfl
  · have hlt : s.published + k < s.posted.length := Nat.lt_of_le_of_ne hle fun he => ht (hiff.2 he)
    have he := h.head_entry hc hlt
    rw [if_neg ht]
    dsimp only
    by_cases hr : (s.sub.cqes (head &&& ringMask)).res < 0
    · rw [if_pos hr]
      simp only [if_neg ht]
      exact .error he hr
    · rw [if_neg hr]
      dsimp only
      rw [hh, wrapped_succ, ← hh]
      exact .take he (by omega)

end

theorem CInv.init {s : Cq} (hi : completions.init s) : CInv s := by
  obtain ⟨m, polled, rfl⟩ := hi
  exact ⟨rfl, rfl, Nat.le_refl _, Nat.zero_le _, (fun m e he => by simp at he),
    (fun m hm => by cases hm), nofun⟩

theorem CInv.post {s : Cq} (h : CInv s) (e : Cqe)
    (hfree : (s.sub.cqTail + 2 ^ 32 - s.sub.cqHead) % 2 ^ 32 < IOURING_DEPTH) :
    CInv { s with sub := s.sub.post e, posted := s.posted ++ [e] } := by
  have hD := IOURING_DEPTH_eq
  have hle := h.le
  have hroom := h.room
  have hlen : (s.posted ++ [e]).length = s.posted.length + 1 := by simp
  rw [h.cqTail, h.cqHead] at hfree
  refine ⟨?_, h.cqHead, ?_, ?_, fun m x hx hm => ?_, fun m hm => ?_, fun head k hc => ?_⟩
  · show (s.sub.cqTail + 1) % 2 ^ 32 = (s.posted ++ [e]).length % 2 ^ 32
    rw [hlen, h.cqTail, wrapped_succ]
  · dsimp only
    omega
  · dsimp only
    omega
  · dsimp only at hx hm ⊢
    rw [hlen] at hm
    simp only [Submitter.post, h.cqTail, wrapped_index, Function.update_apply]
    rcases Nat.lt_trichotomy m s.posted.length with hlt | rfl | hgt
    · rw [if_neg, h.ring m x (by rwa [List.getElem?_append_left hlt] at hx) (by omega)]
      intro he
      have := Cyclic.eq_of_mod_eq he (by omega) (by omega)
      omega
    · rw [if_pos rfl]
      simpa using hx
    · rw [List.getElem?_eq_none (by omega)] at hx
      cases hx
  · have := h.lt m hm
    dsimp only
    omega
  · obtain ⟨h1, h2⟩ := h.checking head k hc
    exact ⟨h1, by dsimp only; omega⟩

theorem CInv.checkStep {s s' : Cq} (h : CInv s) {head k : Nat} (hc : s.checking = some (head, k))
    (hs : CheckStep s k s') : CInv s' := by
  obtain ⟨hh, hle⟩ := h.checking _ _ hc
  have hroom := h.room
  cases hs with
  | finish sub he h1 h2 h3 =>
    refine ⟨h1.trans h.cqTail, h2, hle, ?_, fun m e hm hb => ?_, h.lt, nofun⟩
    · dsimp only
      omega
    · dsimp only
      rw [h3]
      exact h.ring m e hm hb
  | error => exact ⟨h.cqTail, h.cqHead, h.le, h.room, h.ring, h.lt, nofun⟩
  | take he =>
    have hlt := (List.getElem?_eq_some_iff.1 he).1
    refine ⟨h.cqTail, h.cqHead, h.le, h.room, h.ring, fun m hm => ?_, fun head' k' hc' => ?_⟩
    · rcases List.mem_append.1 hm with hm | hm
      · exact h.lt m hm
      · rw [List.mem_singleton.1 hm]
        exact hlt
    · obtain ⟨rfl, rfl⟩ : (s.published + (k + 1)) % 2 ^ 32 = head' ∧ k + 1 = k' := by
        simpa using hc'
      exact ⟨rfl, hlt⟩

theorem CInv.step {s s' : Cq} {l : CqLabel} (h : CInv s)
    (hs : completions.step s l s') : CInv s' := by
  cases hs with
  | call hc =>
    refine ⟨h.cqTail, h.cqHead, h.le, h.room, h.ring, h.lt, fun head k hk => ?_⟩
    obtain ⟨rfl, rfl⟩ : s.sub.cqHead = head ∧ 0 = k := by simpa using hk
    exact ⟨h.cqHead, h.le⟩
  | check hc => exact h.checkStep hc (h.check_step hc)
  | post e hfree => exact h.post e hfree
  | other h1 h2 h3 =>
    exact ⟨h2.trans h.cqTail, h1.trans h.cqHead, h.le, h.room, fun m e hm hb => by
      dsimp only
      rw [h3]
      exact h.ring m e hm hb, h.lt, h.checking⟩

theorem CInv.reach {s : Cq} (hr : completions.Reach s) : CInv s :=
  LTS.ReachIf.induct (fun _ hi => CInv.init hi) (fun _ _ _ h _ hs => h.step hs) hr

/-! ## An entry with a negative result -/

/-- The head never gets past entry `p`, and no entry from `p` on is processed. -/
structure Blocked (s : Cq) (p : Nat) : Prop where
  published : s.published ≤ p
  checking : ∀ head k, s.checking = some (head, k) → s.published + k ≤ p
  processed : ∀ q ∈ s.processed, q < p

theorem Blocked.checkStep {s s' : Cq} {p k head : Nat} {e : Cqe} (h : Blocked s p)
    (hp : s.posted[p]? = some e) (he : e.res < 0) (hc : s.checking = some (head, k))
    (hs : CheckStep s k s') : Blocked s' p := by
  have hlt := (List.getElem?_eq_some_iff.1 hp).1
  have hle := h.checking _ _ hc
  cases hs with
  | finish sub hend => omega
  | error => exact ⟨h.published, nofun, h.processed⟩
  | take hx hpos =>
    -- the entry at the head has a result that is not negative, so it is not entry `p`
    have hne : s.published + k ≠ p := by
      intro heq
      rw [heq, hp] at hx
      cases hx
      omega
    refine ⟨h.published, fun head' k' hc' => ?_, fun q hq => ?_⟩
    · obtain ⟨-, rfl⟩ : _ ∧ k + 1 = k' := by simpa using hc'
      dsimp only
      omega
    · rcases List.mem_append.1 hq with hq | hq
      · exact h.processed q hq
      · rw [List.mem_singleton.1 hq]
        omega

theorem Blocked.step {s s' : Cq} {l : CqLabel} {p : Nat} {e : Cqe} (hi : CInv s) (h : Blocked s p)
    (hp : s.posted[p]? = some e) (he : e.res < 0)
    (hs : completions.step s l s') : Blocked s' p := by
  cases hs with
  | call hc =>
    refine ⟨h.published, fun head k hk => ?_, h.processed⟩
    obtain ⟨-, rfl⟩ : s.sub.cqHead = head ∧ 0 = k := by simpa using hk
    exact h.published
  | check hc => exact h.checkStep hp he hc (hi.check_step hc)
  | post x hfree => exact ⟨h.published, h.checking, h.processed⟩
  | other => exact ⟨h.published, h.checking, h.processed⟩

/-- Steps change what has been posted only at its end. -/
theorem posted_step {s s' : Cq} {l : CqLabel} (hs : completions.step s l s') :
    s'.posted = s.posted ∨ ∃ e, l = .post e ∧ s'.posted = s.posted ++ [e] := by
  cases hs with
  | call => exact .inl rfl
  | @check head reaped hc =>
    left
    unfold Cq.check
    split <;> rfl
  | post e => exact .inr ⟨e, rfl, rfl⟩
  | other => exact .inl rfl

theorem posted_steps {s t : Cq} (h : completions.Steps s t) : ∃ es, t.posted = s.posted ++ es := by
  induction h with
  | refl => exact ⟨[], (List.append_nil _).symm⟩
  | tail _ hs ih =>
    obtain ⟨l, hs⟩ := hs
    obtain ⟨es, hes⟩ := ih
    rcases posted_step hs with hsame | ⟨e, -, hnew⟩
    · exact ⟨es, hsame.trans hes⟩
    · exact ⟨es ++ [e], by rw [hnew, hes, List.append_assoc]⟩

theorem blocked {s : Cq} (hr : completions.Reach s) :
    ∀ p e, s.posted[p]? = some e → e.res < 0 → Blocked s p := by
  induction hr with
  | init hi =>
    obtain ⟨m, polled, rfl⟩ := hi
    intro p e hp
    cases hp
  | @step s s' l hr _ hs ih =>
    intro p e hp he
    have hi := CInv.reach hr
    rcases posted_step hs with hsame | ⟨x, rfl, hnew⟩
    · rw [hsame] at hp
      exact (ih p e hp he).step hi hp he hs
    · rw [hnew] at hp
      rcases Nat.lt_or_ge p s.posted.length with hlt | hge
      · rw [List.getElem?_append_left hlt] at hp
        exact (ih p e hp he).step hi hp he hs
      · -- entry `p` is the one just posted
        have hlt := (List.getElem?_eq_some_iff.1 hp).1
        cases hs with
        | post x hfree =>
          exact ⟨Nat.le_trans hi.le hge, fun head k hc => Nat.le_trans (hi.checking _ _ hc).2 hge,
            fun q hq => Nat.lt_of_lt_of_le (hi.lt q hq) hge⟩

/-! ## No negative result -/

/-- Every processed entry was processed once, and the calls that returned published the head past
theirs. -/
structure Clean (s : Cq) : Prop where
  once : s.processed = List.range s.processed.length
  idle : s.checking = none → s.processed.length = s.published
  checking : ∀ head k, s.checking = some (head, k) → s.processed.length = s.published + k

theorem Clean.checkStep {s s' : Cq} {head k : Nat} (h : Clean s) (hok : ∀ e ∈ s.posted, 0 ≤ e.res)
    (hc : s.checking = some (head, k)) (hs : CheckStep s k s') : Clean s' := by
  have hlen := h.checking _ _ hc
  cases hs with
  | finish sub => exact ⟨h.once, fun _ => hlen, nofun⟩
  | error hx hneg =>
    have := hok _ (List.mem_of_getElem? hx)
    omega
  | take =>
    refine ⟨?_, nofun, fun head' k' hc' => ?_⟩
    · dsimp only
      rw [List.length_append, List.length_singleton, List.range_succ, ← h.once, hlen]
    · obtain ⟨-, rfl⟩ : _ ∧ k + 1 = k' := by simpa using hc'
      simp [hlen, Nat.add_assoc]

theorem Clean.step {s s' : Cq} {l : CqLabel} (hi : CInv s) (h : Clean s)
    (hok : ∀ e ∈ s.posted, 0 ≤ e.res) (hs : completions.step s l s') : Clean s' := by
  cases hs with
  | call hc =>
    refine ⟨h.once, nofun, fun head k hk => ?_⟩
    obtain ⟨-, rfl⟩ : s.sub.cqHead = head ∧ 0 = k := by simpa using hk
    exact h.idle hc
  | check hc => exact h.checkStep hok hc (hi.check_step hc)
  | post e hfree => exact ⟨h.once, h.idle, h.checking⟩
  | other => exact ⟨h.once, h.idle, h.checking⟩

theorem clean {s : Cq} (hr : completions.Reach s) : (∀ e ∈ s.posted, 0 ≤ e.res) → Clean s := by
  induction hr with
  | init hi =>
    obtain ⟨m, polled, rfl⟩ := hi
    exact fun _ => ⟨rfl, fun _ => rfl, nofun⟩
  | @step s s' l hr _ hs ih =>
    intro hok
    have hprev : ∀ e ∈ s.posted, 0 ≤ e.res := by
      rcases posted_step hs with hsame | ⟨x, -, hnew⟩
      · rwa [hsame] at hok
      · intro e he
        exact hok e (by rw [hnew]; exact List.mem_append_left _ he)
    exact (ih hprev).step (CInv.reach hr) hprev hs

/-- A call in progress processes the `n` entries in front of its head and publishes. -/
theorem drain (n : Nat) : ∀ {s : Cq} {head k : Nat}, CInv s → Clean s →
    (∀ e ∈ s.posted, 0 ≤ e.res) →
    s.checking = some (head, k) → s.published + k + n = s.posted.length →
    ∃ s', checksOnly.Steps s s' ∧ s'.checking = none ∧ s'.posted = s.posted ∧
      s'.processed = List.range s.posted.length := by
  induction n with
  | zero =>
    intro s head k hi h hok hc hn
    obtain ⟨s', hs, hk⟩ : ∃ s', CqStep s .check s' ∧ CheckStep s k s' :=
      ⟨_, .check hc, hi.check_step hc⟩
    refine ⟨s', .single ⟨_, hs, .inr rfl⟩, ?_⟩
    have hlen := h.checking _ _ hc
    cases hk with
    | finish sub =>
      refine ⟨rfl, rfl, ?_⟩
      dsimp only
      rw [h.once, hlen, ← hn, Nat.add_zero]
    | error hx =>
      have := (List.getElem?_eq_some_iff.1 hx).1
      omega
    | take hx =>
      have := (List.getElem?_eq_some_iff.1 hx).1
      omega
  | succ n ih =>
    intro s head k hi h hok hc hn
    obtain ⟨s', hs, hk⟩ : ∃ s', CqStep s .check s' ∧ CheckStep s k s' :=
      ⟨_, .check hc, hi.check_step hc⟩
    have hi' := hi.step hs
    have h' := h.step hi hok hs
    cases hk with
    | finish sub hend => omega
    | error hx hneg =>
      have := hok _ (List.mem_of_getElem? hx)
      omega
    | take hx hpos =>
      obtain ⟨t, ht, hdone⟩ := ih hi' h' hok rfl (by dsimp only; omega)
      exact ⟨t, .head ⟨_, hs, .inr rfl⟩ ht, hdone⟩

theorem Clean.unblocked {s : Cq} (hi : CInv s) (h : Clean s) (hok : ∀ e ∈ s.posted, 0 ≤ e.res) :
    ∃ s', checksOnly.Steps s s' ∧ s'.checking = none ∧ s'.posted = s.posted ∧
      s'.processed = List.range s.posted.length := by
  cases hc : s.checking with
  | some p =>
    obtain ⟨head, k⟩ := p
    have hle := (hi.checking _ _ hc).2
    exact drain (s.posted.length - (s.published + k)) hi h hok hc (by omega)
  | none =>
    have hs : CqStep s .call { s with checking := some (s.sub.cqHead, 0) } := .call hc
    have hle := hi.le
    obtain ⟨t, ht, hdone⟩ := drain (s.posted.length - s.published) (hi.step hs)
      (h.step hi hok hs) hok
      rfl (by dsimp only; omega)
    exact ⟨t, .head ⟨_, hs, .inl rfl⟩ ht, hdone⟩

/-! ## Exactly when the entries are consumed -/

theorem CInv.consumed {s : Cq} (hi : CInv s) (h : Clean s) (hok : ∀ e ∈ s.posted, 0 ≤ e.res) :
    s.Consumed where
  once := h.once
  entry head reaped hc hne := by
    have hle := (hi.checking _ _ hc).2
    rw [h.checking _ _ hc]
    exact hi.head_entry hc (Nat.lt_of_le_of_ne hle fun he => hne ((hi.head_iff hc).2 he))
  published hc := ⟨(h.idle hc).symm, by rw [h.idle hc, hi.cqHead]⟩
  unblocked := h.unblocked hi hok

theorem checksOnly_reach {s s' : Cq} (hr : completions.Reach s) (hs : checksOnly.Steps s s') :
    completions.Reach s' := by
  refine hr.steps (Relation.ReflTransGen.mono (fun t t' ht => ?_) _ _ hs)
  obtain ⟨l, hl, -⟩ := ht
  exact ⟨l, hl⟩

/-- An entry with a negative result blocks the ring, so no run of calls gets to the end. -/
theorem no_errors {s : Cq} (hr : completions.Reach s) (h : s.Consumed) :
    ∀ e ∈ s.posted, 0 ≤ e.res := by
  intro e he
  by_contra hneg
  obtain ⟨p, hp⟩ := List.getElem?_of_mem he
  obtain ⟨t, hst, -, hposted, hproc⟩ := h.unblocked
  rw [← hposted] at hp hproc
  have hb := blocked (checksOnly_reach hr hst) p e hp (by omega)
  have hlt := (List.getElem?_eq_some_iff.1 hp).1
  have := hb.processed p (by rw [hproc]; exact List.mem_range.2 hlt)
  omega

/-- **Every entry is consumed once**, exactly when no result is negative. -/
theorem consumed_iff {s : Cq} (hr : completions.Reach s) :
    s.Consumed ↔ ∀ e ∈ s.posted, 0 ≤ e.res :=
  ⟨no_errors hr, fun hok => (CInv.reach hr).consumed (clean hr hok) hok⟩

/-! ## Runs -/

/-- Whatever fits into the ring can be posted before the first call. -/
theorem reach_posted (es : List Cqe) (hlen : es.length ≤ IOURING_DEPTH) :
    ∃ s, completions.Reach s ∧ s.posted = es ∧ s.checking = none ∧ s.published = 0 ∧
      s.processed = [] := by
  induction es using List.reverseRecOn with
  | nil => exact ⟨_, .init ⟨default, 0, rfl⟩, rfl, rfl, rfl, rfl⟩
  | append_singleton es e ih =>
    rw [List.length_append, List.length_singleton] at hlen
    obtain ⟨s, hr, hposted, hck, hpub, hproc⟩ := ih (by omega)
    have hi := CInv.reach hr
    have hroom : (s.sub.cqTail + 2 ^ 32 - s.sub.cqHead) % 2 ^ 32 < IOURING_DEPTH := by
      have hD := IOURING_DEPTH_eq
      rw [hi.cqTail, hi.cqHead, hpub, hposted]
      omega
    exact ⟨_, .step hr trivial (.post e hroom), by rw [hposted], hck, hpub, hproc⟩

theorem reach_called {s : Cq} (hr : completions.Reach s) (hc : s.checking = none) :
    completions.Reach { s with checking := some (s.sub.cqHead, 0) } :=
  .step hr (a := .call) trivial (.call hc)

/-- The entry at the head of a call is processed, or ends the call. -/
theorem reach_round {s : Cq} {head k : Nat} {e : Cqe} (hr : completions.Reach s)
    (hc : s.checking = some (head, k)) (he : s.posted[s.published + k]? = some e) :
    ∃ s', completions.Reach s' ∧ s'.posted = s.posted ∧ s'.published = s.published ∧
      if e.res < 0 then s'.checking = none ∧ s'.processed = s.processed
      else (∃ head', s'.checking = some (head', k + 1)) ∧
        s'.processed = s.processed ++ [s.published + k] := by
  obtain ⟨s', hs, hk⟩ : ∃ s', CqStep s .check s' ∧ CheckStep s k s' :=
    ⟨_, .check hc, (CInv.reach hr).check_step hc⟩
  refine ⟨s', .step hr trivial hs, ?_⟩
  cases hk with
  | finish sub hend =>
    have := (List.getElem?_eq_some_iff.1 he).1
    omega
  | error hx hneg =>
    rw [he] at hx
    cases hx
    exact ⟨rfl, rfl, by rw [if_pos hneg]; exact ⟨rfl, rfl⟩⟩
  | take hx hpos =>
    rw [he] at hx
    cases hx
    exact ⟨rfl, rfl, by rw [if_neg (by omega)]; exact ⟨⟨_, rfl⟩, rfl⟩⟩

/-- Three entries, of which the call in progress has processed the first. -/
theorem consumed_iff_posted : ∃ s, completions.Reach s ∧
    s.posted = [⟨0, 512⟩, ⟨1, 4096⟩, ⟨2, 0⟩] ∧ s.processed = [0] ∧ s.Consumed := by
  obtain ⟨s0, h0, hposted, hck, hpub, hproc⟩ := reach_posted [⟨0, 512⟩, ⟨1, 4096⟩, ⟨2, 0⟩]
    (by rw [IOURING_DEPTH_eq]; decide)
  obtain ⟨s, h, hsame, -, hround⟩ := reach_round (reach_called h0 hck) rfl (e := ⟨0, 512⟩)
    (by simp only [hposted, hpub]; rfl)
  rw [if_neg (by decide)] at hround
  have hs : s.posted = [⟨0, 512⟩, ⟨1, 4096⟩, ⟨2, 0⟩] := hsame.trans hposted
  refine ⟨s, h, hs, ?_, (consumed_iff h).2 ?_⟩
  · rw [hround.2]
    simp only [hproc, hpub]
    rfl
  · rw [hs]
    decide

/-- The second of three entries has a negative result: two calls process the first entry twice, and
no later call processes the third. -/
theorem error_blocks : ∃ s, completions.Reach s ∧ s.posted = [⟨0, 512⟩, ⟨1, -5⟩, ⟨2, 512⟩] ∧
    s.processed = [0, 0] ∧ ¬ s.Consumed ∧ ∀ t, completions.Steps s t → 1 ∉ t.processed ∧
    2 ∉ t.processed := by
  obtain ⟨s, hr, hposted, hc, hpub, hproc⟩ :=
    reach_posted [⟨0, 512⟩, ⟨1, -5⟩, ⟨2, 512⟩] (by rw [IOURING_DEPTH_eq]; decide)
  -- the first call
  obtain ⟨s1, hr1, hposted1, hpub1, ⟨head1, hc1⟩, hproc1⟩ := reach_round (reach_called hr hc)
    rfl (by rw [hposted, hpub]; rfl)
  obtain ⟨s2, hr2, hposted2, hpub2, hc2, hproc2⟩ := reach_round hr1 hc1
    (by rw [hposted1, hposted, hpub1, hpub]; rfl)
  -- the second call
  obtain ⟨s3, hr3, hposted3, hpub3, -, hproc3⟩ := reach_round (reach_called hr2 hc2)
    rfl (by rw [hposted2, hposted1, hposted, hpub2, hpub1, hpub]; rfl)
  have hall : s3.posted = [⟨0, 512⟩, ⟨1, -5⟩, ⟨2, 512⟩] := by
    rw [hposted3, hposted2, hposted1, hposted]
  refine ⟨s3, hr3, hall, ?_, fun h => ?_, fun t ht => ?_⟩
  · rw [hproc3, hproc2, hproc1, hproc, hpub2, hpub1, hpub]
    rfl
  · have := no_errors hr3 h ⟨1, -5⟩ (by rw [hall]; exact .tail _ (.head _))
    exact absurd this (by decide)
  · obtain ⟨es, hes⟩ := posted_steps ht
    have hb := blocked (hr3.steps ht) 1 ⟨1, -5⟩ (by rw [hes, hall]; rfl) (by decide)
    exact ⟨fun h => Nat.lt_irrefl _ (hb.processed 1 h), fun h => absurd (hb.processed 2 h)
      (by decide)⟩

end Uring
