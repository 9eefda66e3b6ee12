import Mathlib.Data.Finset.Lattice.Fold
import Staut.Abt.Key

/-!
# The values of keys are linearizable

`Inv s`: the lists are the elements of the history in their order, each key is in one element at
most, and the value in it is the one that was stored last. A thread that walks a list has met no
element of its key so far, and the one with the lock that has come to the end stays there, so that
it never adds a key twice.
-/

set_option autoImplicit false

namespace Abt.Key

open Run

/-- The `n`-th place of the list `l` of `i`. -/
def slotAt (l : List Nat) (i : Nat) : Nat → Option Slot
  | 0 => some (.elems i)
  | n + 1 => l[n]?.map .next

namespace Pc

/-- With the lock of the table. -/
def locked : Pc → Bool
  | search .. | alloc .. | link .. | unlock | found .. => true
  | _ => false

def creates : Pc → Bool
  | create .. => true
  | _ => false

end Pc

namespace State

/-- The list of a key. -/
def list (s : State) (id : Nat) : List Nat := s.chain (s.idx id)

/-- `p` is a place in the list of `id`, and no element before it is of `id`. -/
def At (s : State) (id : Nat) (p : Slot) : Prop :=
  ∃ n, slotAt (s.list id) (s.idx id) n = some p ∧ ∀ m < n, ∀ a, (s.list id)[m]? = some a →
    (s.elem a).keyId ≠ id

/-- `p` is the end of the list of `id`, which has no element of `id`. -/
def End (s : State) (id : Nat) (p : Slot) : Prop :=
  slotAt (s.list id) (s.idx id) (s.list id).length = some p ∧ ∀ a ∈ s.list id, (s.elem a).keyId ≠ id

def Has (s : State) (id a : Nat) : Prop := a ∈ s.list id ∧ (s.elem a).keyId = id

/-- What holds of a thread at a place. -/
def OkAt (destr : Nat → Nat) (s : State) : Pc → Prop
  | .look id p | .find id _ p | .acquire id _ p | .search id _ p => s.ktable = .table ∧ s.At id p
  | .alloc id _ p => s.ktable = .table ∧ s.End id p
  | .link id v p a => s.ktable = .table ∧ s.End id p ∧ s.used a = true ∧ (∀ i, a ∉ s.chain i) ∧
      s.elem a = ⟨destr id, id, v, none⟩
  | .read id a | .found id _ a | .write id _ a => s.Has id a
  | _ => True

end State

/-- The table and the history. -/
structure Data (destr : Nat → Nat) (s : State) : Prop where
  size : 0 < s.size
  legal : Legal s.hist
  elems : s.ktable = .table → ∀ i, s.elems i = (s.chain i)[0]?
  empty : s.ktable ≠ .table → ∀ i, s.chain i = []
  next : ∀ i n a, (s.chain i)[n]? = some a → (s.elem a).next = (s.chain i)[n + 1]?
  used : ∀ i, ∀ a ∈ s.chain i, s.used a = true
  home : ∀ i, ∀ a ∈ s.chain i, s.idx (s.elem a).keyId = i
  stored : ∀ i, ∀ a ∈ s.chain i, (s.elem a).value = value s.hist (s.elem a).keyId
  destr : ∀ i, ∀ a ∈ s.chain i, (s.elem a).destructor = destr (s.elem a).keyId
  single : ∀ i, ((s.chain i).map fun a => (s.elem a).keyId).Nodup
  absent : ∀ id, (∀ a ∈ s.list id, (s.elem a).keyId ≠ id) → value s.hist id = 0

structure Inv (destr : Nat → Nat) (s : State) : Prop where
  data : Data destr s
  pcs : ∀ t, s.OkAt destr (s.pc t)
  held : ∀ t, s.lock = some t ↔ (s.pc t).locked = true
  creator : ∀ t, (s.pc t).creates = true → s.ktable = .locked ∧ ∀ u, (s.pc u).creates = true → u = t

/-- What no step undoes. -/
structure Grows (s s' : State) : Prop where
  size : s'.size = s.size
  table : s.ktable = .table → s'.ktable = .table
  chain : ∀ i, s.chain i <+: s'.chain i
  key : ∀ a, s.used a = true → (s'.elem a).keyId = (s.elem a).keyId
  used : ∀ a, s.used a = true → s'.used a = true

variable {destr : Nat → Nat} {s s' : State} {t id v a : Nat} {p : Slot} {q : Pc} {ok : Bool}

/-! ## Places in a list -/

theorem slotAt_le {l : List Nat} {i n : Nat} (h : slotAt l i n = some p) : n ≤ l.length := by
  cases n with
  | zero => exact Nat.zero_le _
  | succ n =>
    obtain ⟨a, ha, -⟩ := Option.map_eq_some_iff.1 h
    obtain ⟨hn, -⟩ := List.getElem?_eq_some_iff.1 ha
    exact hn

theorem getElem?_extend {l l' : List Nat} (hl : l <+: l') {n : Nat} (h : l[n]? = some a) : l'[n]? =
    some a := by
  obtain ⟨hn, rfl⟩ := List.getElem?_eq_some_iff.1 h
  exact List.prefix_iff_getElem?.1 hl n hn

theorem slotAt_extend {l l' : List Nat} {i n : Nat} (hl : l <+: l') (h : slotAt l i n = some p) :
    slotAt l' i n = some p := by
  cases n with
  | zero => exact h
  | succ n =>
    obtain ⟨a, ha, rfl⟩ := Option.map_eq_some_iff.1 h
    exact Option.map_eq_some_iff.2 ⟨a, getElem?_extend hl ha, rfl⟩

theorem Data.load (h : Data destr s) (hk : s.ktable = .table) {i n : Nat}
    (hp : slotAt (s.chain i) i n = some p) :
    s.load p = (s.chain i)[n]? := by
  cases n with
  | zero =>
    obtain rfl : Slot.elems i = p := Option.some.inj hp
    exact h.elems hk i
  | succ n =>
    obtain ⟨a, ha, rfl⟩ := Option.map_eq_some_iff.1 hp
    exact h.next i n a ha

theorem State.At.start (s : State) (id : Nat) : s.At id (.elems (s.idx id)) :=
  ⟨0, rfl, fun m hm => absurd hm (Nat.not_lt_zero m)⟩

theorem State.At.has (hd : Data destr s) (hk : s.ktable = .table) (h : s.At id p)
    (hl : s.load p = some a) (ha : (s.elem a).keyId = id) : s.Has id a := by
  obtain ⟨n, hn, -⟩ := h
  exact ⟨List.mem_of_getElem? ((hd.load hk hn).symm.trans hl), ha⟩

theorem State.At.next (hd : Data destr s) (hk : s.ktable = .table) (h : s.At id p)
    (hl : s.load p = some a) (ha : (s.elem a).keyId ≠ id) : s.At id (.next a) := by
  obtain ⟨n, hn, hb⟩ := h
  have hn' : (s.list id)[n]? = some a := (hd.load hk hn).symm.trans hl
  refine ⟨n + 1, Option.map_eq_some_iff.2 ⟨a, hn', rfl⟩, fun m hm b hmb => ?_⟩
  rcases Nat.lt_succ_iff_lt_or_eq.1 hm with hm | rfl
  · exact hb m hm b hmb
  · obtain rfl := Option.some.inj (hn'.symm.trans hmb)
    exact ha

theorem State.At.end (hd : Data destr s) (hk : s.ktable = .table) (h : s.At id p)
    (hl : s.load p = none) :
    s.End id p := by
  obtain ⟨n, hn, hb⟩ := h
  have hlen : (s.list id).length ≤ n := List.getElem?_eq_none_iff.1 ((hd.load hk hn).symm.trans hl)
  obtain rfl := Nat.le_antisymm (slotAt_le hn) hlen
  refine ⟨hn, fun a ha => ?_⟩
  obtain ⟨m, hm⟩ := List.mem_iff_getElem?.1 ha
  exact hb m (List.getElem?_eq_some_iff.1 hm).1 a hm

/-- A step of a walk: to the element of `id`, or to the place behind one that is not of `id`. -/
theorem State.At.walk {b : Nat} (hd : Data destr s) (hk : s.ktable = .table) (h : s.At id p)
    (hl : s.load p = some b) {f : Nat → Pc} {g : Slot → Pc}
    (hf : ∀ a, s.Has id a → s.OkAt destr (f a)) (hg : ∀ q, s.At id q → s.OkAt destr (g q)) :
    s.OkAt destr (if (s.elem b).keyId = id then f b else g (.next b)) := by
  split
  · exact hf b (h.has hd hk hl ‹_›)
  · exact hg _ (h.next hd hk hl ‹_›)

/-! ## What the steps of others keep -/

theorem Grows.list (g : Grows s s') (id : Nat) :
    s'.idx id = s.idx id ∧ s.list id <+: s'.list id := by
  have hi : s'.idx id = s.idx id := by
    unfold State.idx
    rw [g.size]
  refine ⟨hi, ?_⟩
  unfold State.list
  rw [hi]
  exact g.chain _

theorem State.At.grow (hd : Data destr s) (g : Grows s s') (h : s.At id p) : s'.At id p := by
  obtain ⟨n, hn, hb⟩ := h
  obtain ⟨hi, hl⟩ := g.list id
  refine ⟨n, by rw [hi]; exact slotAt_extend hl hn, fun m hm a hma => ?_⟩
  have hlt : m < (s.list id).length := Nat.lt_of_lt_of_le hm (slotAt_le hn)
  have hm' := List.getElem?_eq_getElem hlt
  obtain rfl := Option.some.inj ((getElem?_extend hl hm').symm.trans hma)
  rw [g.key _ (hd.used _ _ (List.getElem_mem hlt))]
  exact hb m hm _ hm'

theorem State.Has.grow (hd : Data destr s) (g : Grows s s') (h : s.Has id a) : s'.Has id a :=
  ⟨(g.list id).2.subset h.1, (g.key a (hd.used _ a h.1)).trans h.2⟩

theorem State.End.grow (hd : Data destr s) (g : Grows s s') (hc : s'.chain = s.chain)
    (h : s.End id p) :
    s'.End id p := by
  have hl : s'.list id = s.list id := by
    unfold State.list
    rw [hc, (g.list id).1]
  unfold State.End
  rw [hl, (g.list id).1]
  exact ⟨h.1, fun a ha => by
    rw [g.key a (hd.used _ a ha)]
    exact h.2 a ha⟩

/-- As long as a thread has the lock, the others add nothing to the lists. -/
theorem State.OkAt.grow (hd : Data destr s) (g : Grows s s')
    (hl : q.locked = true → s'.chain = s.chain ∧
    ∀ a, s.used a = true → (∀ i, a ∉ s.chain i) → s'.elem a = s.elem a)
      (h : s.OkAt destr q) : s'.OkAt destr q := by
  cases q with
  | look | find | acquire | search => exact ⟨g.table h.1, h.2.grow hd g⟩
  | alloc => exact ⟨g.table h.1, h.2.grow hd g (hl rfl).1⟩
  | link id v p a =>
    obtain ⟨hk, he, hu, hn, ha⟩ := h
    obtain ⟨hc, hkeep⟩ := hl rfl
    exact ⟨g.table hk, he.grow hd g hc, g.used a hu, by rw [hc]; exact hn, (hkeep a hu hn).trans ha⟩
  | read | found | write => exact State.Has.grow hd g h
  | _ => trivial

theorem Inv.of_step (h : Inv destr s) (hd : Data destr s') (g : Grows s s')
    (hpc : s'.pc = Function.update s.pc t q) (hp : s'.OkAt destr q)
    (hl : ∀ u ≠ t, (s.pc u).locked = true → s'.chain = s.chain ∧
      ∀ a, s.used a = true → (∀ i, a ∉ s.chain i) → s'.elem a = s.elem a)
    (hheld : ∀ u, s'.lock = some u ↔ (Function.update s.pc t q u).locked = true)
    (hcr : ∀ u, (Function.update s.pc t q u).creates = true → s'.ktable = .locked ∧
      ∀ u', (Function.update s.pc t q u').creates = true → u' = u) : Inv destr s' where
  data := hd
  pcs u := by
    rw [hpc]
    by_cases hu : u = t
    · rw [hu, Function.update_self]
      exact hp
    · rw [Function.update_of_ne hu]
      exact State.OkAt.grow h.data g (hl u hu) (h.pcs u)
  held u := by
    rw [hpc]
    exact hheld u
  creator := by
    rw [hpc]
    exact hcr

theorem Inv.held_same (h : Inv destr s) (hp : q.locked = (s.pc t).locked) (u : Nat) :
    s.lock = some u ↔ (Function.update s.pc t q u).locked = true := by
  rw [h.held]
  by_cases hu : u = t
  · rw [hu, Function.update_self, hp]
  · rw [Function.update_of_ne hu]

theorem Inv.held_release (h : Inv destr s) (ht : (s.pc t).locked = true) (hp : q.locked = false)
    (u : Nat) : none = some u ↔ (Function.update s.pc t q u).locked = true := by
  refine ⟨fun hn => (by cases hn), fun hu => ?_⟩
  by_cases hut : u = t
  · rw [hut, Function.update_self, hp] at hu
    cases hu
  · rw [Function.update_of_ne hut] at hu
    exact absurd (Option.some.inj (((h.held u).2 hu).symm.trans ((h.held t).2 ht))) hut

theorem Inv.held_acquire (h : Inv destr s) (hn : s.lock = none) (hp : q.locked = true) (u : Nat) :
    some t = some u ↔ (Function.update s.pc t q u).locked = true := by
  by_cases hut : u = t
  · rw [hut, Function.update_self]
    exact ⟨fun _ => hp, fun _ => rfl⟩
  · rw [Function.update_of_ne hut, ← h.held, hn]
    exact ⟨fun he => absurd (Option.some.inj he).symm hut, fun he => by cases he⟩

theorem Inv.creator_same (h : Inv destr s) (hp : q.creates = false) (u : Nat)
    (hu : (Function.update s.pc t q u).creates = true) : s.ktable = .locked ∧
      ∀ u', (Function.update s.pc t q u').creates = true → u' = u := by
  have hne : ∀ u, (Function.update s.pc t q u).creates = true → (s.pc u).creates = true :=
    fun u hu => by
    by_cases hut : u = t
    · rw [hut, Function.update_self, hp] at hu
      cases hu
    · rwa [Function.update_of_ne hut] at hu
  obtain ⟨h1, h2⟩ := h.creator u (hne u hu)
  exact ⟨h1, fun u' hu' => h2 u' (hne u' hu')⟩

theorem Inv.creator_left (h : Inv destr s) (ht : (s.pc t).creates = true) (hp : q.creates = false)
    (u : Nat) : (Function.update s.pc t q u).creates = false := by
  by_cases hut : u = t
  · rw [hut, Function.update_self, hp]
  · rw [Function.update_of_ne hut, Bool.eq_false_iff]
    exact fun hu => hut ((h.creator t ht).2 u hu)

/-! ## What a step keeps -/

theorem Data.goto {l : Option Nat} (h : Data destr s) :
    Data destr ({ s with lock := l }.goto t q) :=
  ⟨h.size, h.legal, h.elems, h.empty, h.next, h.used, h.home, h.stored, h.destr, h.single, h.absent⟩

theorem Data.get (h : Data destr s) (hv : v = value s.hist id) :
    Data destr ((s.log (.get id v)).goto t q) :=
  ⟨h.size, ⟨hv, h.legal⟩, h.elems, h.empty, h.next, h.used, h.home, h.stored, h.destr,
    h.single, h.absent⟩

theorem Data.no_table (h : Data destr s) (hne : s.ktable ≠ .table) {k : Ptr} (hk : k ≠ .table) :
    Data destr ({ s with ktable := k }.goto t q) ∧ Grows s ({ s with ktable := k }.goto t q) :=
  ⟨⟨h.size, h.legal, fun hk' => absurd hk' hk, fun _ => h.empty hne, h.next, h.used, h.home,
    h.stored, h.destr, h.single, h.absent⟩,
      ⟨rfl, fun hk' => absurd hk' hne, fun _ => List.prefix_rfl, fun _ _ => rfl, fun _ ha => ha⟩⟩

/-- A step to `q` that leaves the table as it is. -/
theorem Inv.keep (h : Inv destr s) {l : Option Nat} (hp : s.OkAt destr q) (hcr : q.creates = false)
    (hheld : ∀ u, l = some u ↔ (Function.update s.pc t q u).locked = true) :
    Inv destr ({ s with lock := l }.goto t q) := by
  have g : Grows s ({ s with lock := l }.goto t q) :=
    ⟨rfl, id, fun _ => List.prefix_rfl, fun _ _ => rfl, fun _ => id⟩
  exact h.of_step h.data.goto g rfl (State.OkAt.grow h.data g (fun _ => ⟨rfl, fun _ _ _ => rfl⟩) hp)
    (fun _ _ _ => ⟨rfl, fun _ _ _ => rfl⟩) hheld (h.creator_same hcr)

theorem Inv.goto (h : Inv destr s) (hp : s.OkAt destr q) (hcr : q.creates = false)
    (hl : q.locked = (s.pc t).locked) : Inv destr (s.goto t q) :=
  h.keep (l := s.lock) hp hcr (h.held_same hl)

theorem Inv.impl (h : Inv destr s) (hk : s.ktable = .table) (hl : (s.pc t).locked = false) :
    Inv destr (s.impl t id v) :=
  h.goto ⟨hk, .start s id⟩ rfl hl.symm

theorem Inv.got (h : Inv destr s) (hv : v = value s.hist id) (hl : (s.pc t).locked = false) :
    Inv destr ((s.log (.get id v)).goto t .idle) :=
  h.of_step (h.data.get hv) ⟨rfl, fun hk => hk, fun _ => List.prefix_rfl, fun _ _ => rfl,
    fun _ ha => ha⟩ rfl trivial
    (fun _ _ _ => ⟨rfl, fun _ _ _ => rfl⟩) (h.held_same hl.symm) (h.creator_same rfl)

theorem Inv.alone (h : Inv destr s) (ht : (s.pc t).locked = true) {u : Nat} (hu : u ≠ t)
    (hl : (s.pc u).locked = true) : False :=
  hu (Option.some.inj (((h.held u).2 hl).symm.trans ((h.held t).2 ht)))

theorem Inv.cas (h : Inv destr s) (hk : s.ktable = .null) (hl : (s.pc t).locked = false) :
    Inv destr ({ s with ktable := .locked }.goto t (.create id v)) := by
  have hne : s.ktable ≠ .table := by rw [hk]; decide
  have hc : ∀ u, (Function.update s.pc t (.create id v) u).creates = true → u = t := fun u hu => by
    by_contra hut
    rw [Function.update_of_ne hut] at hu
    cases hk.symm.trans (h.creator u hu).1
  obtain ⟨hd, hg⟩ := h.data.no_table hne (k := .locked) (by decide) (t := t) (q := .create id v)
  exact h.of_step hd hg rfl trivial (fun _ _ _ => ⟨rfl, fun _ _ _ => rfl⟩)
    (h.held_same hl.symm) fun u hu =>
    ⟨rfl, fun u' hu' => (hc u' hu').trans (hc u hu).symm⟩

theorem Inv.created (h : Inv destr s) (hpc : s.pc t = .create id v) :
    Inv destr ({ s with ktable := .table, elems := fun _ => none }.impl t id v) := by
  have hcr : (s.pc t).creates = true := by rw [hpc]; rfl
  have hne : s.ktable ≠ .table := by rw [(h.creator t hcr).1]; decide
  refine h.of_step ⟨h.data.size, h.data.legal, fun _ i => ?_, fun hk => absurd rfl hk, h.data.next,
    h.data.used, h.data.home, h.data.stored, h.data.destr, h.data.single, h.data.absent⟩
    ⟨rfl, fun _ => rfl, fun _ => List.prefix_rfl, fun _ _ => rfl, fun _ ha => ha⟩ rfl
      ⟨rfl, .start _ id⟩
    (fun _ _ _ => ⟨rfl, fun _ _ _ => rfl⟩)
    (h.held_same (by rw [hpc]; rfl)) fun u hu => ?_
  · show none = (s.chain i)[0]?
    rw [h.data.empty hne i]
    rfl
  · rw [h.creator_left hcr rfl] at hu
    cases hu

theorem Inv.not_created (h : Inv destr s) (hpc : s.pc t = .create id v) :
    Inv destr ({ s with ktable := .null }.goto t .idle) := by
  have hcr : (s.pc t).creates = true := by rw [hpc]; rfl
  have hne : s.ktable ≠ .table := by rw [(h.creator t hcr).1]; decide
  obtain ⟨hd, hg⟩ := h.data.no_table hne (k := .null) (by decide) (t := t) (q := .idle)
  refine h.of_step hd hg rfl trivial (fun _ _ _ => ⟨rfl, fun _ _ _ => rfl⟩)
    (h.held_same (by rw [hpc]; rfl))
    fun u hu => ?_
  rw [h.creator_left hcr rfl] at hu
  cases hu

theorem Inv.alloc (h : Inv destr s) (hpc : s.pc t = .alloc id v p) (hu : s.used a = false) :
    Inv destr ({ s with
      used := Function.update s.used a true
      elem := Function.update s.elem a ⟨destr id, id, v, none⟩ }.goto t (.link id v p a)) := by
  have ht : (s.pc t).locked = true := by rw [hpc]; rfl
  have hne : ∀ b, s.used b = true → b ≠ a := fun b hb hba => by
    rw [hba, hu] at hb
    cases hb
  have hsame : ∀ b, s.used b = true →
      Function.update s.elem a ⟨destr id, id, v, none⟩ b = s.elem b := fun b hb =>
    Function.update_of_ne (hne b hb) _ _
  have hmem : ∀ i, ∀ b ∈ s.chain i, Function.update s.elem a ⟨destr id, id, v, none⟩ b = s.elem b :=
    fun i b hb => hsame b (h.data.used i b hb)
  have hgrow : Grows s ({ s with
      used := Function.update s.used a true
      elem := Function.update s.elem a ⟨destr id, id, v, none⟩ }.goto t (.link id v p a)) :=
    ⟨rfl, fun hk => hk, fun _ => List.prefix_rfl, fun b hb => congrArg Elem.keyId (hsame b hb),
      fun b hb => (Function.update_of_ne (hne b hb) _ _).trans hb⟩
  have hat := h.pcs t
  rw [hpc] at hat
  refine h.of_step ⟨h.data.size, h.data.legal, h.data.elems, h.data.empty, fun i n b hb => ?_,
    fun i b hb => ?_, fun i b hb => ?_, fun i b hb => ?_, fun i b hb => ?_, fun i => ?_,
    fun id' hid => ?_⟩ hgrow rfl
    ⟨hat.1, hat.2.grow h.data hgrow rfl, Function.update_self _ _ _, fun i ha =>
      hne a (h.data.used i a ha) rfl, Function.update_self _ _ _⟩
        (fun u hu hl => (h.alone ht hu hl).elim) (h.held_same ht.symm) (h.creator_same rfl)
  · exact (congrArg Elem.next (hmem i b (List.mem_of_getElem? hb))).trans (h.data.next i n b hb)
  · exact (Function.update_of_ne (hne b (h.data.used i b hb)) _ _).trans (h.data.used i b hb)
  · exact (congrArg (fun e => s.idx (Elem.keyId e)) (hmem i b hb)).trans (h.data.home i b hb)
  · show (Function.update s.elem a _ b).value = value s.hist (Function.update s.elem a _ b).keyId
    rw [hmem i b hb]
    exact h.data.stored i b hb
  · show (Function.update s.elem a _ b).destructor = destr (Function.update s.elem a _ b).keyId
    rw [hmem i b hb]
    exact h.data.destr i b hb
  · show ((s.chain i).map fun b => (Function.update s.elem a _ b).keyId).Nodup
    rw [List.map_congr_left fun b hb => congrArg Elem.keyId (hmem i b hb)]
    exact h.data.single i
  · exact h.data.absent id' fun b hb hk => hid b hb ((congrArg Elem.keyId (hmem _ b hb)).trans hk)

/-- An element of the key of `a` is `a`. -/
theorem Data.eq_of_key (h : Data destr s) (ha : s.Has id a) {i b : Nat} (hb : b ∈ s.chain i)
    (hk : (s.elem b).keyId = id) : b = a := by
  obtain rfl : s.idx id = i := hk ▸ h.home i b hb
  exact List.inj_on_of_nodup_map (h.single _) hb ha.1 (hk.trans ha.2.symm)

theorem Inv.write (h : Inv destr s) (hpc : s.pc t = .write id v a) :
    Inv destr (({ s with elem := Function.update s.elem a { s.elem a with value := v } }.log
      (.set id v)).goto t .idle) := by
  have hat : s.Has id a := by
    have := h.pcs t
    rwa [hpc] at this
  have hkey : ∀ b, (Function.update s.elem a { s.elem a with value := v } b).keyId =
    (s.elem b).keyId ∧
      (Function.update s.elem a { s.elem a with value := v } b).next = (s.elem b).next ∧
      (Function.update s.elem a { s.elem a with value := v } b).destructor =
        (s.elem b).destructor := fun b => by
    by_cases hb : b = a
    · rw [hb, Function.update_self]
      exact ⟨rfl, rfl, rfl⟩
    · rw [Function.update_of_ne hb]
      exact ⟨rfl, rfl, rfl⟩
  refine h.of_step ⟨h.data.size, h.data.legal, h.data.elems, h.data.empty, fun i n b hb => ?_,
    h.data.used, fun i b hb => ?_, fun i b hb => ?_, fun i b hb => ?_, fun i => ?_,
    fun id' hid => ?_⟩
    ⟨rfl, fun hk => hk, fun _ => List.prefix_rfl, fun b _ => (hkey b).1, fun _ hb => hb⟩ rfl trivial
    (fun u _ _ => ⟨rfl, fun b _ hb => Function.update_of_ne (fun hba => hb _ (hba ▸ hat.1)) _ _⟩)
    (h.held_same (by rw [hpc]; rfl)) (h.creator_same rfl)
  · exact (hkey b).2.1.trans (h.data.next i n b hb)
  · exact (congrArg s.idx (hkey b).1).trans (h.data.home i b hb)
  · show _ = value (.set id v :: s.hist) (Elem.keyId (Function.update s.elem a _ b))
    rw [(hkey b).1]
    unfold value
    by_cases hba : b = a
    · rw [hba, if_pos hat.2]
      show (Function.update s.elem a _ a).value = v
      rw [Function.update_self]
    · rw [if_neg fun hk => hba (h.data.eq_of_key hat hb hk)]
      exact (congrArg Elem.value (Function.update_of_ne hba _ _)).trans (h.data.stored i b hb)
  · exact (hkey b).2.2.trans ((h.data.destr i b hb).trans (congrArg destr (hkey b).1.symm))
  · show ((s.chain i).map fun b => (Function.update s.elem a _ b).keyId).Nodup
    rw [List.map_congr_left fun b _ => (hkey b).1]
    exact h.data.single i
  · show value (.set id v :: s.hist) id' = 0
    have hne : id' ≠ id := fun hi => by
      subst hi
      exact hid a hat.1 ((hkey a).1.trans hat.2)
    unfold value
    rw [if_neg hne]
    exact h.data.absent id' fun b hb hk => hid b hb ((hkey b).1.trans hk)

/-- What is in an element besides its link does not change when one is put behind it. -/
theorem store_elem (s : State) (a : Nat) (p : Slot) (b : Nat) :
    ((s.store a p).elem b).keyId = (s.elem b).keyId ∧
    ((s.store a p).elem b).value = (s.elem b).value ∧
    ((s.store a p).elem b).destructor = (s.elem b).destructor := by
  cases p with
  | elems i => exact ⟨rfl, rfl, rfl⟩
  | next c =>
    show (Function.update s.elem c _ b).keyId = _ ∧ (Function.update s.elem c _ b).value = _ ∧
      (Function.update s.elem c _ b).destructor = _
    by_cases hb : b = c
    · rw [hb, Function.update_self]
      exact ⟨rfl, rfl, rfl⟩
    · rw [Function.update_of_ne hb]
      exact ⟨rfl, rfl, rfl⟩

/-- The lists after `a` has been put behind the end of the list of `id`. -/
theorem Data.store_links (h : Data destr s) (hk : s.ktable = .table) (he : s.End id p)
    (hn : ∀ i, a ∉ s.chain i) (ha : (s.elem a).next = none) :
    (∀ i, (s.store a p).elems i = (Function.update s.chain (s.idx id) (s.list id ++ [a]) i)[0]?) ∧
      ∀ i n b, (Function.update s.chain (s.idx id) (s.list id ++ [a]) i)[n]? = some b →
        ((s.store a p).elem b).next =
          (Function.update s.chain (s.idx id) (s.list id ++ [a]) i)[n + 1]? := by
  have hslot := he.1
  have hne : ∀ {i n b}, (s.chain i)[n]? = some b → b ≠ a := fun hb hba =>
    hn _ (hba ▸ List.mem_of_getElem? hb)
  cases hc : (s.list id).length with
  | zero =>
    -- the list is empty, and its head is written
    rw [hc] at hslot
    obtain rfl : Slot.elems (s.idx id) = p := Option.some.inj hslot
    have hnil : s.list id = [] := List.length_eq_zero_iff.1 hc
    refine ⟨fun i => ?_, fun i n b hb => ?_⟩
    · show Function.update s.elems (s.idx id) (some a) i = _
      by_cases hi : i = s.idx id
      · rw [hi, Function.update_self, Function.update_self, hnil]
        rfl
      · rw [Function.update_of_ne hi, Function.update_of_ne hi, h.elems hk]
    · show (s.elem b).next = _
      by_cases hi : i = s.idx id
      · rw [hi, Function.update_self, hnil] at hb ⊢
        cases n with
        | zero =>
          obtain rfl : a = b := Option.some.inj hb
          exact ha
        | succ n => cases hb
      · rw [Function.update_of_ne hi] at hb ⊢
        exact h.next i n b hb
  | succ m =>
    -- the link of the last element is written
    rw [hc] at hslot
    obtain ⟨c, hcm, rfl⟩ := Option.map_eq_some_iff.1 hslot
    refine ⟨fun i => ?_, fun i n b hb => ?_⟩
    · show s.elems i = _
      by_cases hi : i = s.idx id
      · rw [hi, Function.update_self, h.elems hk, List.getElem?_append_left (by omega)]
        rfl
      · rw [Function.update_of_ne hi, h.elems hk]
    · show (Function.update s.elem c { s.elem c with next := some a } b).next = _
      by_cases hi : i = s.idx id
      swap
      · rw [Function.update_of_ne hi] at hb ⊢
        have hbc : b ≠ c := fun hbc => hi ((h.home i b (List.mem_of_getElem? hb)).symm.trans
          (hbc ▸ h.home _ c (List.mem_of_getElem? hcm)))
        rw [Function.update_of_ne hbc]
        exact h.next i n b hb
      rw [hi, Function.update_self] at hb ⊢
      rcases Nat.lt_trichotomy n m with hnm | rfl | hnm
      · rw [List.getElem?_append_left (by omega)] at hb
        have hbc : b ≠ c := fun hbc => by
          have hnd : (s.list id).Nodup := List.Nodup.of_map _ (h.single _)
          obtain ⟨h1, h2⟩ := List.getElem?_eq_some_iff.1 hb
          obtain ⟨h3, h4⟩ := List.getElem?_eq_some_iff.1 hcm
          exact absurd ((List.Nodup.getElem_inj_iff hnd).1 (h2.trans (hbc.trans h4.symm)))
            (Nat.ne_of_lt hnm)
        rw [Function.update_of_ne hbc, List.getElem?_append_left (by omega)]
        exact h.next _ n b hb
      · rw [List.getElem?_append_left (by omega)] at hb
        obtain rfl : c = b := Option.some.inj (hcm.symm.trans hb)
        rw [Function.update_self, List.getElem?_append_right (by omega), hc, Nat.sub_self]
        rfl
      · rw [List.getElem?_append_right (by omega), hc] at hb
        obtain ⟨hlt, hba⟩ := List.getElem?_eq_some_iff.1 hb
        obtain rfl : n = m + 1 := by
          have : n - (m + 1) < 1 := hlt
          omega
        obtain rfl : a = b := by simpa using hba
        have hac : a ≠ c := (hne hcm).symm
        rw [Function.update_of_ne hac, ha, eq_comm, List.getElem?_eq_none_iff, List.length_append,
          hc]
        exact Nat.le_refl _

theorem Inv.link (h : Inv destr s) (hpc : s.pc t = .link id v p a) :
    Inv destr (({ s with
      chain := Function.update s.chain (s.idx id) (s.chain (s.idx id) ++ [a]) }.store a p |>.log
        (.set id v)).goto t .unlock) := by
  have ht : (s.pc t).locked = true := by rw [hpc]; rfl
  obtain ⟨hk, he, hu, hn, ha⟩ : s.OkAt destr (.link id v p a) := hpc ▸ h.pcs t
  generalize hs0 : ({ s with
    chain := Function.update s.chain (s.idx id) (s.chain (s.idx id) ++ [a]) } : State) = s0
  obtain ⟨helems, hnext⟩ := h.data.store_links hk he hn (by rw [ha])
  have hstore := store_elem s a p
  -- what the store leaves as it is
  have hsame : (s0.store a p).size = s.size ∧ (s0.store a p).ktable = s.ktable ∧
      (s0.store a p).used = s.used ∧ (s0.store a p).lock = s.lock ∧ (s0.store a p).pc = s.pc ∧
      (s0.store a p).hist = s.hist ∧
      (s0.store a p).chain = Function.update s.chain (s.idx id) (s.list id ++ [a]) ∧
      (s0.store a p).elems = (s.store a p).elems ∧ (s0.store a p).elem = (s.store a p).elem := by
    subst hs0
    cases p <;> exact ⟨rfl, rfl, rfl, rfl, rfl, rfl, rfl, rfl, rfl⟩
  clear hs0
  generalize s0.store a p = s1 at hsame
  obtain ⟨size, ktable, elems, elem, used, lock, q, hist, chain⟩ := s1
  obtain ⟨rfl, rfl, rfl, rfl, rfl, rfl, rfl, rfl, rfl⟩ := hsame
  have hmem : ∀ {i b}, b ∈ Function.update s.chain (s.idx id) (s.list id ++ [a]) i →
      b ∈ s.chain i ∨ i = s.idx id ∧ b = a := fun {i b} hb => by
    by_cases hi : i = s.idx id
    · rw [hi, Function.update_self, List.mem_append, List.mem_singleton] at hb
      exact hb.imp (fun hb => hi ▸ hb) fun hb => ⟨hi, hb⟩
    · rw [Function.update_of_ne hi] at hb
      exact .inl hb
  have hold : ∀ {i b}, b ∈ s.chain i → (s.elem b).keyId ≠ id := fun {i b} hb hkb => by
    obtain rfl : s.idx id = i := hkb ▸ h.data.home i b hb
    exact he.2 b hb hkb
  refine h.of_step (t := t) (q := .unlock) ⟨h.data.size, h.data.legal, fun _ => helems,
    fun hk' => absurd hk hk', hnext, fun i b hb => ?_, fun i b hb => ?_, fun i b hb => ?_,
    fun i b hb => ?_, fun i => ?_, fun id' hid => ?_⟩
    ⟨rfl, fun hk => hk, fun i => ?_, fun b _ => (hstore b).1, fun _ hb => hb⟩ rfl trivial
    (fun u hu hl => (h.alone ht hu hl).elim) (h.held_same ht.symm) (h.creator_same rfl)
  · rcases hmem hb with hb | ⟨-, rfl⟩
    · exact h.data.used i b hb
    · exact hu
  · show s.idx ((s.store a p).elem b).keyId = i
    rw [(hstore b).1]
    rcases hmem hb with hb | ⟨rfl, rfl⟩
    · exact h.data.home i b hb
    · rw [ha]
  · show ((s.store a p).elem b).value = value (.set id v :: s.hist) ((s.store a p).elem b).keyId
    rw [(hstore b).1, (hstore b).2.1]
    unfold value
    rcases hmem hb with hb | ⟨rfl, rfl⟩
    · rw [if_neg (hold hb)]
      exact h.data.stored i b hb
    · rw [ha, if_pos rfl]
  · show ((s.store a p).elem b).destructor = destr ((s.store a p).elem b).keyId
    rw [(hstore b).1, (hstore b).2.2]
    rcases hmem hb with hb | ⟨rfl, rfl⟩
    · exact h.data.destr i b hb
    · rw [ha]
  · show ((Function.update s.chain (s.idx id) (s.list id ++ [a]) i).map fun b =>
      ((s.store a p).elem b).keyId).Nodup
    rw [List.map_congr_left fun b _ => (hstore b).1]
    by_cases hi : i = s.idx id
    · rw [hi, Function.update_self, List.map_append, List.nodup_append]
      refine ⟨h.data.single _, List.nodup_singleton _, fun k hk k' hk' hkk => ?_⟩
      obtain ⟨b, hb, rfl⟩ := List.mem_map.1 hk
      obtain rfl : k' = (s.elem a).keyId := List.mem_singleton.1 hk'
      exact hold hb (hkk.trans (by rw [ha]))
    · rw [Function.update_of_ne hi]
      exact h.data.single i
  · show value (.set id v :: s.hist) id' = 0
    have hid : ∀ b ∈ Function.update s.chain (s.idx id) (s.list id ++ [a]) (s.idx id'),
      (s.elem b).keyId ≠ id' :=
      fun b hb hkb => hid b hb ((hstore b).1.trans hkb)
    have hne : id' ≠ id := fun hi => by
      subst hi
      refine hid a ?_ (by rw [ha])
      rw [Function.update_self]
      exact List.mem_append_right _ (List.mem_singleton_self a)
    unfold value
    rw [if_neg hne]
    refine h.data.absent id' fun b hb => hid b ?_
    by_cases hi : s.idx id' = s.idx id
    · rw [hi, Function.update_self]
      exact List.mem_append_left _ (show b ∈ s.chain (s.idx id) from hi ▸ hb)
    · rw [Function.update_of_ne hi]
      exact hb
  · show s.chain i <+: Function.update s.chain (s.idx id) (s.list id ++ [a]) i
    by_cases hi : i = s.idx id
    · rw [hi, Function.update_self]
      exact List.prefix_append _ _
    · rw [Function.update_of_ne hi]

theorem Inv.run {m : Nat} (h : Inv destr s) (hr : s.run destr ok m t = some s') : Inv destr s' := by
  have hat := h.pcs t
  cases hpc : s.pc t with
  | idle =>
    simp only [State.run, hpc, reduceCtorEq] at hr
  | get id =>
    simp only [State.run, hpc, Option.some.injEq] at hr
    subst hr
    by_cases hk : s.ktable = .table
    · rw [if_pos hk]
      exact h.goto ⟨hk, .start s id⟩ rfl (by rw [hpc]; rfl)
    · rw [if_neg hk]
      refine h.got (h.data.absent id fun a ha => ?_).symm (by rw [hpc]; rfl)
      unfold State.list at ha
      rw [h.data.empty hk] at ha
      cases ha
  | look id p =>
    rw [hpc] at hat
    obtain ⟨hk, hp⟩ := hat
    simp only [State.run, hpc, Option.some.injEq] at hr
    subst hr
    cases hl : s.load p with
    | none => exact h.got (h.data.absent id (hp.end h.data hk hl).2).symm (by rw [hpc]; rfl)
    | some b =>
      refine h.goto (hp.walk h.data hk hl (fun _ hb => hb) fun _ hq => ⟨hk, hq⟩) ?_ ?_
      · split <;> rfl
      · rw [hpc]
        split <;> rfl
  | read id b =>
    rw [hpc] at hat
    have hat : s.Has id b := hat
    simp only [State.run, hpc, Option.some.injEq] at hr
    subst hr
    exact h.got ((h.data.stored _ b hat.1).trans (congrArg _ hat.2)) (by rw [hpc]; rfl)
  | set id v =>
    simp only [State.run, hpc, Option.some.injEq] at hr
    subst hr
    by_cases hk : s.ktable = .table
    · rw [if_pos hk]
      exact h.impl hk (by rw [hpc]; rfl)
    · rw [if_neg hk]
      exact h.goto trivial rfl (by rw [hpc]; rfl)
  | cas id v =>
    simp only [State.run, hpc, Option.some.injEq] at hr
    subst hr
    split
    · exact h.cas (‹_ ∧ _›).2 (by rw [hpc]; rfl)
    · exact h.goto trivial rfl (by rw [hpc]; rfl)
  | create id v =>
    simp only [State.run, hpc, Option.some.injEq] at hr
    subst hr
    split
    · exact h.created hpc
    · exact h.not_created hpc
  | check id v =>
    simp only [State.run, hpc, Option.some.injEq] at hr
    subst hr
    cases hk : s.ktable with
    | null => exact h.goto trivial rfl (by rw [hpc]; rfl)
    | locked => exact h.goto trivial rfl (by rw [hpc]; rfl)
    | table => exact h.impl hk (by rw [hpc]; rfl)
  | pause id v =>
    cases hk : s.ktable with
    | null => simp only [State.run, hpc, hk, reduceCtorEq] at hr
    | locked =>
      simp only [State.run, hpc, hk, Option.some.injEq] at hr
      exact hr ▸ h
    | table =>
      simp only [State.run, hpc, hk, Option.some.injEq] at hr
      exact hr ▸ h.impl hk (by rw [hpc]; rfl)
  | find id v p =>
    rw [hpc] at hat
    obtain ⟨hk, hp⟩ := hat
    simp only [State.run, hpc, Option.some.injEq] at hr
    subst hr
    cases hl : s.load p with
    | none => exact h.goto ⟨hk, hp⟩ rfl (by rw [hpc]; rfl)
    | some b =>
      refine h.goto (hp.walk h.data hk hl (fun _ hb => hb) fun _ hq => ⟨hk, hq⟩) ?_ ?_
      · split <;> rfl
      · rw [hpc]
        split <;> rfl
  | acquire id v p =>
    rw [hpc] at hat
    simp only [State.run, hpc, Option.some.injEq] at hr
    subst hr
    by_cases hl : s.lock = none
    · rw [if_pos hl]
      exact h.keep hat rfl (h.held_acquire hl rfl)
    · rw [if_neg hl]
      exact h
  | search id v p =>
    rw [hpc] at hat
    obtain ⟨hk, hp⟩ := hat
    simp only [State.run, hpc, Option.some.injEq] at hr
    subst hr
    cases hl : s.load p with
    | none => exact h.goto ⟨hk, hp.end h.data hk hl⟩ rfl (by rw [hpc]; rfl)
    | some b =>
      refine h.goto (hp.walk h.data hk hl (fun _ hb => hb) fun _ hq => ⟨hk, hq⟩) ?_ ?_
      · split <;> rfl
      · rw [hpc]
        split <;> rfl
  | alloc id v p =>
    simp only [State.run, hpc, Option.some.injEq] at hr
    subst hr
    split
    · exact h.alloc hpc (‹_ ∧ _›).2
    · exact h.goto trivial rfl (by rw [hpc]; rfl)
  | link id v p b =>
    simp only [State.run, hpc, Option.some.injEq] at hr
    exact hr ▸ h.link hpc
  | unlock =>
    simp only [State.run, hpc, Option.some.injEq] at hr
    exact hr ▸ h.keep trivial rfl (h.held_release (by rw [hpc]; rfl) rfl)
  | found id v b =>
    rw [hpc] at hat
    simp only [State.run, hpc, Option.some.injEq] at hr
    exact hr ▸ h.keep (show s.OkAt destr (.write id v b) from hat) rfl
      (h.held_release (by rw [hpc]; rfl) rfl)
  | write id v b =>
    simp only [State.run, hpc, Option.some.injEq] at hr
    exact hr ▸ h.write hpc

theorem Inv.init (h : (sys destr).init s) : Inv destr s := by
  obtain ⟨⟨hsize, -⟩, hk, hu, hl, hpc, hh, hc⟩ := h
  have hmem : ∀ i, ∀ a, a ∉ s.chain i := fun i a ha => by
    rw [hc] at ha
    cases ha
  refine ⟨⟨hsize, ?_, fun h => ?_, fun _ => hc, fun i n a ha =>
    (hmem i a (List.mem_of_getElem? ha)).elim, fun i a ha => (hmem i a ha).elim, fun i a ha =>
      (hmem i a ha).elim, fun i a ha => (hmem i a ha).elim,
    fun i a ha => (hmem i a ha).elim, fun i => ?_, fun id _ => ?_⟩, fun t => ?_, fun t => ?_,
      fun t ht => ?_⟩
  · rw [hh]
    trivial
  · cases hk.symm.trans h
  · rw [hc]
    exact List.nodup_nil
  · rw [hh]
    rfl
  · rw [hpc]
    trivial
  · rw [hpc, hl]
    exact ⟨fun hn => (by cases hn), fun hn => (by cases hn)⟩
  · rw [hpc] at ht
    cases ht

theorem Inv.step {l : Label} (h : Inv destr s) (hs : (sys destr).step s l s') : Inv destr s' := by
  cases l with
  | run t ok a => exact h.run hs
  | get t id =>
    obtain ⟨hpc, rfl⟩ := hs
    exact h.goto trivial rfl (by rw [hpc]; rfl)
  | set t id v =>
    obtain ⟨hpc, rfl⟩ := hs
    exact h.goto trivial rfl (by rw [hpc]; rfl)

theorem inv_of_reach (h : (sys destr).Reach s) : Inv destr s :=
  LTS.ReachIf.induct (fun _ => Inv.init) (fun _ _ _ h _ hs => h.step hs) h

/-! ## A run -/

def start : State where
  size := 4
  ktable := .null
  elems _ := none
  elem _ := ⟨0, 0, 0, none⟩
  used _ := false
  lock := none
  pc _ := .idle
  hist := []
  chain _ := []

/-- The next step of a thread, with an allocation that does not fail. -/
def next : State → Nat → Option State := State.run (fun _ => 1) true 0

theorem next_step {C : State → Label → Prop} (hC : ∀ s t, C s (.run t true 0)) (s : State) (t : Nat)
    (s' : State) (h : next s t = some s') :
    C s (.run t true 0) ∧ (sys fun _ => 1).step s (.run t true 0) s' :=
  ⟨hC s t, h⟩

theorem start_init : (sys fun _ => 1).init start :=
  ⟨⟨by decide, rfl⟩, rfl, fun _ => rfl, rfl, fun _ => rfl, rfl, fun _ => rfl⟩

/-- A thread has stored 5 for the key 2, and another one has returned it. -/
def sample : State :=
  runs next ((runs next (start.goto 0 (.set 2 5)) (List.replicate 9 0)).goto 1 (.get 2)) [1, 1, 1]

theorem reach_sample : (sys fun _ => 1).Reach sample := by
  have h0 : (sys fun _ => 1).Reach (start.goto 0 (.set 2 5)) :=
    .step (.init start_init) (a := .set 0 2 5) trivial ⟨rfl, rfl⟩
  have h1 := h0.runs (next_step fun _ _ => trivial) (List.replicate 9 0)
  have h2 : (sys fun _ => 1).Reach
    ((runs next (start.goto 0 (.set 2 5)) (List.replicate 9 0)).goto 1 (.get 2)) :=
    h1.step (a := .get 1 2) trivial ⟨rfl, rfl⟩
  exact h2.runs (next_step fun _ _ => trivial) [1, 1, 1]

/-- A thread is about to allocate the table, and another one waits for it. -/
def waiting : State :=
  runs next ((runs next (start.goto 0 (.set 2 5)) [0, 0]).goto 1 (.set 3 7)) [1, 1, 1]

theorem reachIf_waiting {C : State → Label → Prop} (hrun : ∀ s t, C s (.run t true 0))
    (hset : ∀ s t id v, C s (.set t id v)) : (sys fun _ => 1).ReachIf C waiting := by
  have h0 : (sys fun _ => 1).ReachIf C (start.goto 0 (.set 2 5)) :=
    .step (.init start_init) (a := .set 0 2 5) (hset ..) ⟨rfl, rfl⟩
  have h1 := h0.runs (next_step hrun) [0, 0]
  have h2 : (sys fun _ => 1).ReachIf C
    ((runs next (start.goto 0 (.set 2 5)) [0, 0]).goto 1 (.set 3 7)) :=
    h1.step (a := .set 1 3 7) (hset ..) ⟨rfl, rfl⟩
  exact h2.runs (next_step hrun) [1, 1, 1]

/-! ## The results -/

inductive Call
  | get (id : Nat)
  | set (id v : Nat)

/-- The call that a thread has still to enter in the history. -/
def Pc.call : Pc → Option Call
  | .idle | .unlock => none
  | .get id | .look id _ | .read id _ => some (.get id)
  | .set id v | .cas id v | .create id v | .check id v | .pause id v | .find id v _ | .acquire id v
      _ | .search id v _
  | .alloc id v _ | .link id v _ _ | .found id v _ | .write id v _ => some (.set id v)

/-- The thread allocates the table or an element, and gets no memory (none that is not in use). -/
def NoMemory (s : State) (t : Nat) (ok : Bool) (a : Nat) : Prop :=
  match s.pc t with
  | .create _ _ => ok = false
  | .alloc _ _ _ => ¬ (ok = true ∧ s.used a = false)
  | _ => False

/-- A call makes one entry in the history, in one of its steps; `ABTI_ktable_set` makes none when it
gets no memory. -/
inductive CallStep (noMemory : Prop) : Option Call → List Event → Option Call → List Event → Prop
  | other (c : Option Call) (h : List Event) : CallStep noMemory c h c h
  | get (id v : Nat) (h : List Event) : CallStep noMemory (some (.get id)) h none (.get id v :: h)
  | set (id v : Nat) (h : List Event) : CallStep noMemory (some (.set id v)) h none (.set id v :: h)
  | failed (id v : Nat) (h : List Event) : noMemory → CallStep noMemory (some (.set id v)) h none h

theorem CallStep.goto {P : Prop} {c : Option Call} {l : List Event}
    (h : CallStep P c l q.call s.hist) :
    CallStep P c l ((s.goto t q).pc t).call (s.goto t q).hist := by
  have hpc : (s.goto t q).pc t = q := Function.update_self _ _ _
  rw [hpc]
  exact h

theorem run_callStep {b : Nat} (hr : s.run destr ok b t = some s') :
    CallStep (NoMemory s t ok b) (s.pc t).call s.hist (s'.pc t).call s'.hist := by
  cases hpc : s.pc t with
  | idle => simp only [State.run, hpc, reduceCtorEq] at hr
  | get | set | cas | check =>
    simp only [State.run, hpc, Option.some.injEq] at hr
    subst hr
    split <;> exact .goto (by constructor)
  | create id v =>
    simp only [State.run, hpc, Option.some.injEq] at hr
    subst hr
    split
    · exact .goto (.other _ _)
    · rename_i hok
      refine .goto (.failed id v _ ?_)
      unfold NoMemory
      rw [hpc]
      simpa using hok
  | alloc id v p =>
    simp only [State.run, hpc, Option.some.injEq] at hr
    subst hr
    split
    · exact .goto (.other _ _)
    · rename_i hok
      refine .goto (.failed id v _ ?_)
      unfold NoMemory
      rw [hpc]
      exact hok
  | look | find | search =>
    simp only [State.run, hpc, Option.some.injEq] at hr
    subst hr
    split
    · exact .goto (by constructor)
    · refine .goto ?_
      split <;> constructor
  | pause id v =>
    cases hk : s.ktable with
    | null => simp only [State.run, hpc, hk, reduceCtorEq] at hr
    | locked =>
      simp only [State.run, hpc, hk, Option.some.injEq] at hr
      subst hr
      rw [hpc]
      exact .other _ _
    | table =>
      simp only [State.run, hpc, hk, Option.some.injEq] at hr
      subst hr
      exact .goto (by constructor)
  | acquire =>
    simp only [State.run, hpc, Option.some.injEq] at hr
    subst hr
    split
    · exact .goto (by constructor)
    · rw [hpc]
      exact .other _ _
  | link id v p =>
    simp only [State.run, hpc, Option.some.injEq] at hr
    subst hr
    cases p <;> exact .goto (by constructor)
  | read | unlock | found | write =>
    simp only [State.run, hpc, Option.some.injEq] at hr
    subst hr
    exact .goto (by constructor)

/-- Whatever any number of threads do with the table of a work unit at the same time, their calls
are those of a map from keys to values, one after the other: `ABTI_ktable_get` returns the value
that was stored last, or `NULL` if there is none. A call makes its entry in that order in one of its
steps, unless it gets no memory. -/
theorem ktable_linearizable (h : (sys destr).Reach s) : Legal s.hist ∧
    ∀ t ok b s', s.run destr ok b t = some s' →
      CallStep (NoMemory s t ok b) (s.pc t).call s.hist (s'.pc t).call s'.hist :=
  ⟨(inv_of_reach h).data.legal, fun _ _ _ _ hr => run_callStep hr⟩

theorem ktable_linearizable_sample : sample.hist = [.get 2 5, .set 2 5] ∧ Legal sample.hist :=
  ⟨rfl, (ktable_linearizable reach_sample).1⟩

/-- A step to which the allocation of the table does not fail. -/
def Created (s : State) : Label → Prop
  | .run t ok _ => (s.pc t).creates = true → ok = true
  | _ => True

/-- A thread that waits for the table of another one waits for something. -/
def Waits (s : State) : Prop := ∀ u id v, s.pc u = .pause id v → s.ktable ≠ .null

theorem Waits.of_step (h : Waits s) (hk : s.ktable ≠ .null → s'.ktable ≠ .null)
    (hpc : s'.pc = Function.update s.pc t q) (hp : ∀ id v, q = .pause id v → s'.ktable ≠ .null) :
    Waits s' := fun u id v hu => by
  rw [hpc] at hu
  by_cases hut : u = t
  · rw [hut, Function.update_self] at hu
    exact hp id v hu
  · rw [Function.update_of_ne hut] at hu
    exact hk (h u id v hu)

theorem Waits.goto (h : Waits s) (hp : ∀ id v, q ≠ .pause id v) : Waits (s.goto t q) :=
  h.of_step id rfl fun id v h => absurd h (hp id v)

theorem Waits.run {b : Nat} (h : Waits s) (hr : s.run destr ok b t = some s')
    (hc : Created s (.run t ok b)) :
    Waits s' := by
  cases hpc : s.pc t with
  | idle => simp only [State.run, hpc, reduceCtorEq] at hr
  | cas id v =>
    simp only [State.run, hpc, Option.some.injEq] at hr
    subst hr
    split
    · exact h.of_step (t := t) (q := .create id v) (fun _ h => by cases h) rfl
        fun _ _ h => by cases h
    · exact h.goto fun _ _ h => by cases h
  | create id v =>
    simp only [State.run, hpc, hc (by rw [hpc]; rfl), if_true, Option.some.injEq] at hr
    subst hr
    exact h.of_step (t := t) (q := .find id v (.elems (s.idx id))) (fun _ h => by cases h) rfl
      fun _ _ h => by cases h
  | check id v =>
    simp only [State.run, hpc, Option.some.injEq] at hr
    subst hr
    cases hk : s.ktable with
    | locked =>
      exact h.of_step (t := t) (q := .pause id v) (fun hn => hn) rfl
        fun _ _ _ h => by cases hk.symm.trans h
    | _ => exact h.goto fun _ _ h => by cases h
  | pause id v =>
    cases hk : s.ktable with
    | null => exact absurd hk (h t id v hpc)
    | locked =>
      simp only [State.run, hpc, hk, Option.some.injEq] at hr
      exact hr ▸ h
    | table =>
      simp only [State.run, hpc, hk, Option.some.injEq] at hr
      exact hr ▸ h.goto fun _ _ h => by cases h
  | acquire id v p =>
    simp only [State.run, hpc, Option.some.injEq] at hr
    subst hr
    split
    · exact h.of_step (t := t) (q := .search id v p) (fun hn => hn) rfl fun _ _ h => by cases h
    · exact h
  | link id v p c =>
    simp only [State.run, hpc, Option.some.injEq] at hr
    subst hr
    refine h.of_step (t := t) (q := .unlock) ?_ ?_ fun _ _ h => by cases h
    all_goals cases p
    all_goals first | exact fun hn => hn | rfl
  | get | set | alloc =>
    simp only [State.run, hpc, Option.some.injEq] at hr
    subst hr
    split <;> exact h.of_step (t := t) (fun hn => hn) rfl fun _ _ h => by cases h
  | look | find | search =>
    simp only [State.run, hpc, Option.some.injEq] at hr
    subst hr
    split
    · exact h.of_step (t := t) (fun hn => hn) rfl fun _ _ h => by cases h
    · exact h.goto fun _ _ h => by split at h <;> cases h
  | read | unlock | found | write =>
    simp only [State.run, hpc, Option.some.injEq] at hr
    subst hr
    exact h.of_step (t := t) (fun hn => hn) rfl fun _ _ h => by cases h

theorem waits_of_reach (h : (sys destr).ReachIf Created s) : Waits s := by
  refine LTS.ReachIf.induct (fun s hi u id v hu => ?_) (fun s l s' h hc hs => ?_) h
  · obtain ⟨-, -, -, -, hpc, -⟩ := hi
    cases (hpc u).symm.trans hu
  · cases l with
    | run t ok a => exact h.run hs hc
    | get t id =>
      obtain ⟨-, rfl⟩ := hs
      exact h.goto fun _ _ h => by cases h
    | set t id v =>
      obtain ⟨-, rfl⟩ := hs
      exact h.goto fun _ _ h => by cases h

/-- As long as the table of a work unit can be allocated, every call on it can go on, and no thread
takes `NULL` for a table. -/
theorem ktable_defined {b : Nat} (h : (sys destr).ReachIf Created s) (hpc : s.pc t ≠ .idle) :
    s.run destr ok b t ≠ none := by
  cases hp : s.pc t with
  | idle => exact absurd hp hpc
  | pause id v =>
    have hw := waits_of_reach h t id v hp
    cases hk : s.ktable with
    | null => exact absurd hk hw
    | locked => simp only [State.run, hp, hk, ne_eq, reduceCtorEq, not_false_eq_true]
    | table => simp only [State.run, hp, hk, ne_eq, reduceCtorEq, not_false_eq_true]
  | _ => simp only [State.run, hp, ne_eq, reduceCtorEq, not_false_eq_true]

theorem ktable_defined_waiting :
    waiting.pc 1 = .pause 3 7 ∧ waiting.run (fun _ => 1) true 0 1 ≠ none :=
  ⟨rfl, ktable_defined (reachIf_waiting (fun _ _ _ => rfl) fun _ _ _ _ => trivial) fun h => by
    cases h⟩

/-- A thread that has waited while another one failed to allocate the table goes on with `NULL`. -/
theorem null_table :
    ∃ s, (sys fun _ => 1).Reach s ∧ s.pc 1 = .pause 3 7 ∧ ∀ ok b,
    s.run (fun _ => 1) ok b 1 = none := by
  have h : (sys fun _ => 1).Reach waiting :=
    reachIf_waiting (fun _ _ => trivial) fun _ _ _ _ => trivial
  exact ⟨_, h.step (a := .run 0 false 0) trivial rfl, rfl, fun _ _ => rfl⟩

/-! ## The end of a work unit -/

/-- What `ABTI_ktable_free` calls a destructor for. -/
def destroyed (e : Elem) : Bool := e.destructor ≠ 0 ∧ e.value ≠ 0

theorem Data.freeElems (h : Data destr s) (i : Nat) {fuel n : Nat}
    (hf : (s.chain i).length - n < fuel) :
    s.freeElems fuel (s.chain i)[n]? = some
      ((((s.chain i).drop n).map s.elem).filter destroyed) := by
  induction fuel generalizing n with
  | zero => cases hf
  | succ fuel ih =>
    cases hn : (s.chain i)[n]? with
    | none =>
      rw [List.drop_eq_nil_of_le (List.getElem?_eq_none_iff.1 hn)]
      rfl
    | some a =>
      obtain ⟨hlt, ha⟩ := List.getElem?_eq_some_iff.1 hn
      have hnext := ih (n := n + 1) (by omega)
      rw [← h.next i n a hn] at hnext
      rw [State.freeElems, hnext, List.drop_eq_getElem_cons hlt, ha, List.map_cons,
        List.filter_cons]
      simp [destroyed]

theorem Data.freeFrom (h : Data destr s) (hk : s.ktable = .table) {fuel : Nat} {l : List Nat}
    (hf : ∀ i ∈ l, (s.chain i).length < fuel) :
    s.freeFrom fuel l = some (l.flatMap fun i => ((s.chain i).map s.elem).filter destroyed) := by
  induction l with
  | nil => rfl
  | cons i l ih =>
    have h0 := h.freeElems i (n := 0) (by have := hf i (List.mem_cons_self ..); omega)
    rw [State.freeFrom, h.elems hk, h0, ih fun j hj => hf j (List.mem_cons_of_mem _ hj)]
    rfl

theorem Data.idx_lt (h : Data destr s) (id : Nat) : s.idx id < s.size :=
  Nat.lt_of_le_of_lt Nat.and_le_right (Nat.sub_lt h.size Nat.one_pos)

theorem Data.idx_of_mem (h : Data destr s) {i k : Nat} {q : Elem → Bool}
    (hk : k ∈ (((s.chain i).map s.elem).filter q).map Elem.keyId) : s.idx k = i := by
  obtain ⟨e, he, rfl⟩ := List.mem_map.1 hk
  obtain ⟨a, ha, rfl⟩ := List.mem_map.1 (List.mem_of_mem_filter he)
  exact h.home i a ha

/-- A key with a value is in an element. -/
theorem Data.exists_elem (h : Data destr s) (hv : value s.hist id ≠ 0) : ∃ a, s.Has id a := by
  by_contra hn
  exact hv (h.absent id fun a ha hk => hn ⟨a, ha, hk⟩)

/-- The walk of `ABTI_ktable_free` through the lists comes to an end, and calls the destructor of
each key that has one and has a value other than `NULL`, once and with that value. -/
theorem ktable_free_calls (h : (sys destr).Reach s) (hk : s.ktable = .table) : ∃ n l,
    (∀ fuel, n ≤ fuel → s.ABTI_ktable_free fuel = some l) ∧ (l.map Elem.keyId).Nodup ∧
      (∀ e ∈ l, e.destructor = destr e.keyId) ∧
      ∀ id v, (∃ e ∈ l, e.keyId = id ∧ e.value = v) ↔ destr id ≠ 0 ∧ v ≠ 0 ∧
      value s.hist id = v := by
  have hd := (inv_of_reach h).data
  have hmem : ∀ e, e ∈
    ((List.range s.size).flatMap fun i => ((s.chain i).map s.elem).filter destroyed) ↔
      ∃ i, ∃ a ∈ s.chain i, s.elem a = e ∧ e.destructor ≠ 0 ∧ e.value ≠ 0 := fun e => by
    simp only [List.mem_flatMap, List.mem_range, List.mem_filter, List.mem_map, destroyed,
      decide_eq_true_eq]
    constructor
    · rintro ⟨i, -, ⟨a, ha, rfl⟩, he⟩
      exact ⟨i, a, ha, rfl, he⟩
    · rintro ⟨i, a, ha, rfl, he⟩
      exact ⟨i, hd.home i a ha ▸ hd.idx_lt _, ⟨a, ha, rfl⟩, he⟩
  refine ⟨(Finset.range s.size).sup (fun i => (s.chain i).length) + 1, _,
    fun fuel hf => hd.freeFrom hk fun i hi => ?_, ?_, fun e he => ?_, fun id v => ?_⟩
  · have := Finset.le_sup (f := fun i => (s.chain i).length)
      (Finset.mem_range.2 (List.mem_range.1 hi))
    omega
  · rw [List.map_flatMap, List.nodup_flatMap]
    refine ⟨fun i _ => ?_, List.nodup_range.imp fun {i j} hij k hi hj => hij ?_⟩
    · refine List.Nodup.sublist (List.filter_sublist.map _) ?_
      rw [List.map_map]
      exact hd.single i
    · exact (hd.idx_of_mem hi).symm.trans (hd.idx_of_mem hj)
  · obtain ⟨i, a, ha, rfl, -⟩ := (hmem e).1 he
    exact hd.destr i a ha
  · constructor
    · rintro ⟨e, he, rfl, rfl⟩
      obtain ⟨i, a, ha, rfl, h1, h2⟩ := (hmem e).1 he
      exact ⟨hd.destr i a ha ▸ h1, h2, (hd.stored i a ha).symm⟩
    · rintro ⟨h1, h2, rfl⟩
      obtain ⟨a, ha, rfl⟩ := hd.exists_elem h2
      have hs := hd.stored _ a ha
      exact ⟨s.elem a, (hmem _).2 ⟨_, a, ha, rfl, hd.destr _ a ha ▸ h1, hs ▸ h2⟩, rfl, hs⟩

theorem ktable_free_calls_sample :
    ∃ n l, (∀ fuel, n ≤ fuel → sample.ABTI_ktable_free fuel = some l) ∧
    (l.map Elem.keyId).Nodup ∧ (∀ e ∈ l, e.destructor = 1) ∧
      ∀ id v, (∃ e ∈ l, e.keyId = id ∧ e.value = v) ↔ 1 ≠ 0 ∧ v ≠ 0 ∧ value sample.hist id = v :=
  ktable_free_calls reach_sample rfl

end Abt.Key
