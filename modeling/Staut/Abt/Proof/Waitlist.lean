import Staut.Abt.Waitlist
import Staut.Lib.Linked

/-!
# The list of waiters as a queue

`w.Holds T l`: the list holds the waiters `l`. The back links are kept only where they are used:
`p_prev` of a timed waiter (`T`) that is not at the head. `Waitlist.wait_spec`, `signal_spec`,
`broadcast_spec` and `timeout_spec` say that the operations are those of a queue, and that none of
them meets a `NULL`.
-/

set_option autoImplicit false

namespace Abt

open Linked

namespace Waitlist

section
variable {w : Waitlist} {T T' : Nat → Prop} {l : List Nat} {a b : Nat}

@[simp] theorem set_head (f : Thread → Thread) : (w.set a f).head = w.head := rfl
@[simp] theorem set_tail (f : Thread → Thread) : (w.set a f).tail = w.tail := rfl
@[simp] theorem set_mem (f : Thread → Thread) :
    (w.set a f).mem b = if b = a then f (w.mem a) else w.mem b := Function.update_apply _ _ _ _

structure Holds (w : Waitlist) (T : Nat → Prop) (l : List Nat) : Prop where
  nodup : l.Nodup
  chain : Seg (fun a => (w.mem a).next) w.head l none
  tail : w.tail = l.getLast?
  back : l.IsChain fun u v => T v → (w.mem v).prev = some u

/-- The links of the waiters in the list are all that matters. -/
theorem Holds.congr {w' : Waitlist} (h : w.Holds T l) (hh : w'.head = w.head)
    (ht : w'.tail = w.tail)
    (hm : ∀ b ∈ l, (w'.mem b).next = (w.mem b).next ∧ (w'.mem b).prev = (w.mem b).prev)
    (hT : ∀ b ∈ l, T' b → T b) : w'.Holds T' l where
  nodup := h.nodup
  chain := by
    rw [hh]
    exact h.chain.congr fun b hb => (hm b hb).1
  tail := ht.trans h.tail
  back := h.back.imp_of_mem_imp fun u v _ hv huv hTv => by
    rw [(hm v hv).2]
    exact huv (hT v hv hTv)

theorem holds_nil (T : Nat → Prop) (mem : Nat → Thread) : Holds ⟨none, none, mem⟩ T [] :=
  ⟨List.nodup_nil, rfl, rfl, .nil⟩

/-- A new waiter behind the others. -/
theorem Holds.push {w' : Waitlist} (h : w.Holds T l) (ha : a ∉ l)
    (hh : w'.head = if l = [] then some a else w.head) (ht : w'.tail = some a)
    (hn : (w'.mem a).next = none) (hp : T' a → (w'.mem a).prev = l.getLast?)
    (hm : ∀ b ∈ l, (w'.mem b).next = (if l.getLast? = some b then some a else (w.mem b).next) ∧
      (w'.mem b).prev = (w.mem b).prev)
    (hT : ∀ b ∈ l, T' b → T b) : w'.Holds T' (l ++ [a]) := by
  rcases l.eq_nil_or_concat with rfl | ⟨l, u, rfl⟩
  · exact ⟨by simp, by simpa [hn] using hh, by simpa using ht, by simp⟩
  · have hnd := h.nodup
    simp only [List.concat_eq_append, List.getLast?_append, List.getLast?_singleton, Option.some_or,
      Option.some.injEq, List.mem_append, List.mem_singleton] at *
    refine ⟨?_, ?_, by simpa using ht, ?_⟩
    · refine List.nodup_append.2 ⟨hnd, List.nodup_singleton a, fun b hb c hc => ?_⟩
      rw [List.mem_singleton.1 hc]
      rintro rfl
      exact ha (by simpa using hb)
    · rw [hh, if_neg (by simp)]
      refine h.chain.push (by simp [(hm u (.inr rfl)).1]) hn fun b hb => ?_
      rw [(hm b (.inl hb)).1, if_neg]
      rintro rfl
      exact (List.nodup_append.1 hnd).2.2 u hb u (by simp) rfl
    · refine List.isChain_append.2 ⟨?_, List.isChain_singleton a, ?_⟩
      · exact h.back.imp_of_mem_imp fun u v _ hv huv hTv => by
          rw [(hm v (by simpa using hv)).2]
          exact huv (hT v (by simpa using hv) hTv)
      · simpa using hp

/-! ## The operations -/

/-- The two ends of the list, as the operations look at them. -/
theorem Holds.ends (h : w.Holds T l) :
    l = [] ∧ w.head = none ∧ w.tail = none ∨
    ∃ l' u v, l = l' ++ [u] ∧ w.head = some v ∧ w.tail = some u := by
  have hh := h.chain.head
  have ht := h.tail
  rcases l.eq_nil_or_concat with rfl | ⟨l, u, rfl⟩
  · exact .inl ⟨rfl, hh, ht⟩
  · rw [List.concat_eq_append] at *
    cases l with
    | nil => exact .inr ⟨[], u, u, rfl, hh, by simpa using ht⟩
    | cons v l => exact .inr ⟨v :: l, u, v, rfl, hh, by rw [ht, List.getLast?_concat]⟩

/-- The links after `a` is put behind the others. -/
structure Pushed (w : Waitlist) (l : List Nat) (a : Nat) (w' : Waitlist) : Prop where
  head : w'.head = if l = [] then some a else w.head
  tail : w'.tail = some a
  next : (w'.mem a).next = none
  links : ∀ b ∈ l, (w'.mem b).next = (if l.getLast? = some b then some a else (w.mem b).next) ∧
    (w'.mem b).prev = (w.mem b).prev
  ready : ∀ b, (w'.mem b).ready = if b = a then false else (w.mem b).ready

theorem wait_pushed (h : w.Holds T l) (ha : a ∉ l) :
    ∃ w', w.wait a = some w' ∧ Pushed w l a w' := by
  rcases h.ends with ⟨rfl, hh, -⟩ | ⟨l, u, v, rfl, hh, ht⟩
  · refine ⟨_, by simp [wait, hh]; rfl, ⟨by simp, by simp, by simp, by simp, fun b => ?_⟩⟩
    by_cases hb : b = a <;> simp [hb]
  · have hua : u ≠ a := by
      rintro rfl
      exact ha (by simp)
    refine ⟨_, by simp [wait, linkTail, hh, ht]; rfl, ⟨by simp [hh], rfl, by simp [hua.symm],
      fun b hb => ?_, fun b => ?_⟩⟩
    · have hba : b ≠ a := fun hba => ha (hba ▸ hb)
      by_cases hbu : b = u
      · simp [hbu, hua]
      · simp [hba, hbu, Ne.symm hbu]
    · by_cases hb : b = a
      · simp [hb, hua.symm]
      · by_cases hbu : b = u <;> simp [hb, hbu, hua]

/-- A timed waiter also sets its back link. -/
theorem waitTimedout_eq (h : w.Holds T l) : w.waitTimedout a =
    (w.wait a).map fun w' => w'.set a fun n => { n with prev := w.tail } := by
  rcases h.ends with ⟨-, hh, ht⟩ | ⟨-, u, v, -, hh, ht⟩
  · simp [waitTimedout, wait, set, hh, ht]
  · simp [waitTimedout, wait, linkTail, set, hh, ht]

theorem wait_spec (h : w.Holds T l) (ha : a ∉ l) :
    ∃ w', w.wait a = some w' ∧
      (∀ T', (∀ b ∈ l, T' b → T b) → ¬ T' a → w'.Holds T' (l ++ [a])) ∧
      ∀ b, (w'.mem b).ready = if b = a then false else (w.mem b).ready := by
  obtain ⟨w', he, hp⟩ := wait_pushed h ha
  exact ⟨w', he, fun T' hT hTa =>
    h.push ha hp.head hp.tail hp.next (fun ht => absurd ht hTa) hp.links hT, hp.ready⟩

theorem waitTimedout_spec (h : w.Holds T l) (ha : a ∉ l) :
    ∃ w', w.waitTimedout a = some w' ∧ (∀ T', (∀ b ∈ l, T' b → T b) → w'.Holds T' (l ++ [a])) ∧
      ∀ b, (w'.mem b).ready = if b = a then false else (w.mem b).ready := by
  obtain ⟨w', he, hp⟩ := wait_pushed h ha
  refine ⟨_, by rw [waitTimedout_eq h, he]; rfl, fun T' hT => ?_, fun b => ?_⟩
  · refine h.push ha hp.head hp.tail (by simp [hp.next]) (fun _ => by simp [h.tail])
      (fun b hb => ?_) hT
    have hba : b ≠ a := fun hba => ha (hba ▸ hb)
    simpa [hba] using hp.links b hb
  · rw [← hp.ready b]
    by_cases hb : b = a <;> simp [hb]

/-- The head is gone: the back link of the next waiter is stale, and not looked at. -/
theorem Holds.pop {w' : Waitlist} (h : w.Holds T (a :: l)) (hh : w'.head = (w.mem a).next)
    (ht : w'.tail = if (w.mem a).next = none then none else w.tail)
    (hm : ∀ b ∈ l, (w'.mem b).next = (w.mem b).next ∧ (w'.mem b).prev = (w.mem b).prev) :
    w'.Holds T l := by
  obtain ⟨ha, hnd⟩ := List.nodup_cons.1 h.nodup
  have hl : Seg (fun a => (w.mem a).next) (w.mem a).next l none := h.chain.2
  refine ⟨hnd, ?_, ?_, ?_⟩
  · rw [hh]
    exact hl.congr fun b hb => (hm b hb).1
  · rw [ht, h.tail, hl.head]
    cases l <;> simp
  · exact h.back.tail.imp_of_mem_imp fun u v _ hv huv hTv => by
      rw [(hm v hv).2]
      exact huv hTv

theorem signal_nil (h : w.Holds T []) : w.signal = (w, []) := by
  have hh : w.head = none := h.chain
  simp [signal, hh]

theorem signal_cons (h : w.Holds T (a :: l)) :
    ∃ w', w.signal = (w', [a]) ∧ w'.Holds T l ∧
      ∀ b, (w'.mem b).ready = if b = a then true else (w.mem b).ready := by
  have hh : w.head = some a := h.chain.1
  have ha := (List.nodup_cons.1 h.nodup).1
  refine ⟨_, by simp [signal, hh]; rfl, h.pop rfl rfl fun b hb => ?_, fun b => ?_⟩
  · have hba : b ≠ a := fun hba => ha (hba ▸ hb)
    simp [wake, hba]
  · by_cases hb : b = a <;> simp [wake, hb]

theorem broadcastLoop_spec (hl : Seg (fun a => (w.mem a).next) (some a) l none) (hnd : l.Nodup) :
    ∃ w', (∀ fuel, w.broadcastLoop fuel a = if l.length ≤ fuel then some (w', l) else none) ∧
      ∀ b, (w'.mem b).ready = if b ∈ l then true else (w.mem b).ready := by
  induction l generalizing w a with
  | nil => simp at hl
  | cons c l ih =>
    obtain ⟨hc, hl⟩ := hl
    obtain rfl : c = a := (Option.some.inj hc).symm
    obtain ⟨ha, hnd⟩ := List.nodup_cons.1 hnd
    cases l with
    | nil =>
      have hn : (w.mem c).next = none := hl
      refine ⟨w.wake c, fun fuel => ?_, fun b => ?_⟩
      · cases fuel <;> simp [broadcastLoop, hn]
      · by_cases hb : b = c <;> simp [wake, hb]
    | cons d l =>
      have hn : (w.mem c).next = some d := hl.1
      have hl' : Seg (fun b => ((w.wake c).mem b).next) (some d) (d :: l) none := by
        have hd : Seg (fun b => (w.mem b).next) (some d) (d :: l) none := ⟨rfl, hl.2⟩
        refine hd.congr fun b hb => ?_
        have hba : b ≠ c := fun hba => ha (hba ▸ hb)
        simp [wake, hba]
      obtain ⟨w', heq, hr⟩ := ih hl' hnd
      refine ⟨w', fun fuel => ?_, fun b => ?_⟩
      · cases fuel with
        | zero => simp [broadcastLoop]
        | succ fuel =>
          simp only [broadcastLoop, hn, heq, List.length_cons]
          by_cases hf : l.length + 1 ≤ fuel <;> simp [hf]
      · rw [hr]
        by_cases hb : b = c
        · simp [wake, hb]
        · simp [wake, hb]

theorem broadcast_spec (h : w.Holds T l) :
    ∃ w', (∀ fuel, w.broadcast fuel = if l.length ≤ fuel then some (w', l) else none) ∧
    w'.Holds T [] ∧ ∀ b, (w'.mem b).ready = if b ∈ l then true else (w.mem b).ready := by
  cases l with
  | nil =>
    have hh : w.head = none := h.chain
    exact ⟨w, fun fuel => by simp [broadcast, hh], h, fun b => by simp⟩
  | cons a l =>
    have hh : w.head = some a := h.chain.1
    obtain ⟨w', heq, hr⟩ := broadcastLoop_spec (hh ▸ h.chain) h.nodup
    refine ⟨{ w' with head := none, tail := none }, fun fuel => ?_, holds_nil T _, hr⟩
    simp only [broadcast, hh, heq]
    split <;> simp

/-- A waiter is taken out from behind `u`: `u` and its new successor are linked. -/
theorem Holds.unlink {w' : Waitlist} {l₁ l₂ : List Nat} {u : Nat}
    (h : w.Holds T (l₁ ++ u :: a :: l₂)) (hh : w'.head = w.head)
    (ht : w'.tail = (l₁ ++ u :: l₂).getLast?)
    (hn : ∀ b, (w'.mem b).next = if b = u then (w.mem a).next else (w.mem b).next)
    (hp : ∀ b, (w'.mem b).prev = if l₂.head? = some b then some u else (w.mem b).prev) :
    w'.Holds T (l₁ ++ u :: l₂) := by
  have hnd : (l₁ ++ u :: l₂).Nodup := h.nodup.sublist (by simp)
  refine ⟨hnd, ?_, ht, ?_⟩
  · rw [hh]
    refine h.chain.unlink (by simp [hn]) (fun b hb => ?_) fun b hb => ?_
    · rw [hn, if_neg]
      rintro rfl
      exact (List.nodup_append.1 hnd).2.2 b hb b (by simp) rfl
    · rw [hn, if_neg]
      rintro rfl
      exact (List.nodup_cons.1 (List.nodup_append.1 hnd).2.1).1 hb
  · have hback := (List.isChain_append_cons_cons.1 h.back).1
    have h₁ : (l₁ ++ [u]).IsChain fun u v => T v → (w'.mem v).prev = some u := by
      refine hback.imp_of_mem_imp fun x v _ hv huv hTv => ?_
      rw [hp, if_neg]
      · exact huv hTv
      · intro hv'
        have hv2 := List.mem_of_mem_head? hv'
        rcases List.mem_append.1 hv with hv1 | hv1
        · exact (List.nodup_append.1 hnd).2.2 v hv1 v (by simp [hv2]) rfl
        · rw [List.mem_singleton.1 hv1] at hv2
          exact (List.nodup_cons.1 (List.nodup_append.1 hnd).2.1).1 hv2
    cases l₂ with
    | nil => exact h₁
    | cons b l₂ =>
      refine List.isChain_append_cons_cons.2 ⟨h₁, fun _ => by simp [hp], ?_⟩
      have h₂ := (List.isChain_append_cons_cons.1 h.back).2.2.tail
      have hb : b ∉ l₂ := (List.nodup_cons.1 (List.nodup_cons.1 (List.nodup_append.1 hnd).2.1).2).1
      refine List.IsChain.imp_of_mem_tail_imp ?_ h₂
      intro x v _ hv huv hTv
      have hvb : b ≠ v := fun hvb => hb (hvb ▸ hv)
      rw [hp, if_neg (by simpa using hvb)]
      exact huv hTv

/-- A waiter that is in the list and not ready leaves it. -/
theorem timeout_spec (h : w.Holds T l) (ha : a ∈ l) (hT : T a) (hr : (w.mem a).ready = false) :
    ∃ w', w.timeout a = some (w', true) ∧ w'.Holds T (l.erase a) ∧
      ∀ b, (w'.mem b).ready = (w.mem b).ready := by
  obtain ⟨l₁, l₂, rfl⟩ := List.append_of_mem ha
  rcases l₁.eq_nil_or_concat with rfl | ⟨l₁, u, rfl⟩
  · have hh : w.head = some a := h.chain.1
    have hn : (w.mem a).next = l₂.head? := h.chain.2.head
    have ht := h.tail
    rw [List.nil_append, List.erase_cons_head] at *
    cases l₂ with
    | nil =>
      refine ⟨{ w with head := none, tail := none }, ?_, holds_nil T _, fun b => rfl⟩
      simp [timeout, hr, hh, hn, ht]
    | cons b l₂ =>
      refine ⟨{ w with head := some b }, by simp [timeout, hr, hh, hn], ?_, fun b => rfl⟩
      exact h.pop hn.symm (by simp [hn]) fun b _ => ⟨rfl, rfl⟩
  · rw [List.concat_eq_append, List.append_assoc, List.singleton_append] at *
    have hnd := h.nodup
    have hau : a ≠ u := by
      rintro rfl
      simp [List.nodup_append] at hnd
    have hal : a ∉ l₁ := fun hal => (List.nodup_append.1 hnd).2.2 a hal a (by simp) rfl
    have hh : w.head ≠ some a := by
      rw [h.chain.head]
      intro hha
      cases l₁ with
      | nil => exact hau (by simpa using hha.symm)
      | cons v l₁ => exact hal (by simp [Option.some.inj hha])
    have hp : (w.mem a).prev = some u := (List.isChain_append_cons_cons.1 h.back).2.1 hT
    have hn : (w.mem a).next = l₂.head? := by
      obtain ⟨m, -, -, -, hl⟩ := seg_append.1 h.chain
      exact hl.head
    have ht := h.tail
    rw [List.erase_append_right _ hal, List.erase_cons_tail (by simpa using hau.symm),
      List.erase_cons_head]
    cases l₂ with
    | nil =>
      refine ⟨{ w.set u fun n => { n with next := none } with tail := some u }, ?_, ?_, fun b => ?_⟩
      · simp [timeout, hr, hh, hn, hp, ht]
      · refine h.unlink rfl (by simp) (fun b => ?_) fun b => ?_
        · by_cases hb : b = u <;> simp [hb, hn]
        · by_cases hb : b = u <;> simp [hb]
      · by_cases hb : b = u <;> simp [hb]
    | cons c l₂ =>
      have hcu : c ≠ u := by
        rintro rfl
        simp [List.nodup_append] at hnd
      refine ⟨(w.set u fun n => { n with next := some c }).set c fun n => { n with prev := some u },
        by simp [timeout, hr, hh, hn, hp], ?_, fun b => ?_⟩
      · refine h.unlink rfl (by simp [ht, List.getLast?_append]) (fun b => ?_) fun b => ?_
        · by_cases hb : b = c
          · simp [hb, hcu]
          · by_cases hbu : b = u <;> simp [hb, hbu, hn, hcu.symm]
        · by_cases hb : b = c
          · simp [hb]
          · by_cases hbu : b = u <;> simp [hb, hbu, Ne.symm hb, hcu, hcu.symm]
      · by_cases hb : b = c
        · simp [hb, hcu]
        · by_cases hbu : b = u <;> simp [hb, hbu, hcu.symm]

theorem timeout_ready (hr : (w.mem a).ready = true) : w.timeout a = some (w, false) := by
  simp [timeout, hr]

end

end Waitlist

end Abt
