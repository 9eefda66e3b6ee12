import Staut.Uring.Defs

/-!
# The completion side of a ring (`mylib/iouringlib.c`)

`Uring.completions`: calls of `iouring_check`, one after the other, with a kernel that posts entries
with any results, at any time while the completion ring has room (the `printf` at an error is taken
not to yield). The entries are numbered in the order in which they were posted; the history is the
numbers of the entries processed (`processed`) and how many entries the published head is past
(`published`).
-/

set_option autoImplicit false

namespace Uring

open Run

/-- `checking`: the local `head` and `reaped` of an `iouring_check` in progress. -/
structure Cq where
  sub : Submitter
  checking : Option (Nat × Nat)
  posted : List Cqe
  published : Nat
  processed : List Nat

/-- One round of `iouring_check`. -/
def Cq.check (s : Cq) (head reaped : Nat) : Cq :=
  match iouringCheck s.sub head reaped with
  | (sub, some next) => { s with
      sub := sub
      checking := some next
      processed := s.processed ++ [s.published + reaped] }
  | (sub, none) => { s with
      sub := sub
      checking := none
      published := if head = s.sub.cqTail then s.published + reaped else s.published }

/-- The kernel posts the next entry. -/
def Submitter.post (s : Submitter) (e : Cqe) : Submitter :=
  { s with
    cqes := Function.update s.cqes (s.cqTail &&& ringMask) e
    cqTail := (s.cqTail + 1) % 2 ^ 32 }

inductive CqLabel
  | call
  | check
  | post (e : Cqe)
  | other (sub : Submitter)

/-- `other`: submissions, which leave the completion ring alone. -/
inductive CqStep : Cq → CqLabel → Cq → Prop
  | call {s : Cq} : s.checking = none →
      CqStep s .call { s with checking := some (s.sub.cqHead, 0) }
  | check {s : Cq} {head reaped : Nat} : s.checking = some (head, reaped) →
      CqStep s .check (s.check head reaped)
  | post {s : Cq} (e : Cqe) : (s.sub.cqTail + 2 ^ 32 - s.sub.cqHead) % 2 ^ 32 < IOURING_DEPTH →
      CqStep s (.post e) { s with sub := s.sub.post e, posted := s.posted ++ [e] }
  | other {s : Cq} {sub : Submitter} : sub.cqHead = s.sub.cqHead → sub.cqTail = s.sub.cqTail →
      sub.cqes = s.sub.cqes → CqStep s (.other sub) { s with sub := sub }

/-- The ring after `iouring_setup`. -/
def completions : LTS Cq CqLabel where
  init s := ∃ m polled, s = ⟨iouringSetup m polled, none, [], 0, []⟩
  step := CqStep

/-- `iouring_check` alone, with nothing posted meanwhile. -/
def checksOnly : LTS Cq CqLabel where
  init _ := False
  step s l s' := CqStep s l s' ∧ (l = .call ∨ l = .check)

/-- Every entry is processed once and in order, the head is published past the processed entries,
and `iouring_check` can process all that was posted. -/
structure Cq.Consumed (s : Cq) : Prop where
  once : s.processed = List.range s.processed.length
  entry : ∀ head reaped, s.checking = some (head, reaped) → head ≠ s.sub.cqTail →
    s.posted[s.processed.length]? = some (s.sub.cqes (head &&& ringMask))
  published : s.checking = none → s.published = s.processed.length ∧
    s.sub.cqHead = s.processed.length % 2 ^ 32
  unblocked : ∃ s', checksOnly.Steps s s' ∧ s'.checking = none ∧ s'.posted = s.posted ∧
    s'.processed = List.range s.posted.length

end Uring
