import Staut.Lib.Run
import Staut.Myfs.Proof.Fresh

/-!
# The slot table as a map from names to slots

`Dir` is what the table is for: the live names (opened and not unlinked since), each with the slot
that `myfs_open` returned for it. A run of opens and unlinks (`names`, with completed I/O and
closes between them and no I/O in progress) carries the `Dir` of its history along;
`OpenRight` and `UnlinkRight` say that a call treats the table as that map.

The name test is a prefix test, so a call can hit the slot of a longer name. `Whole` is the exact
condition under which it does not: for an unlink, no live name properly extends the path; for an
open, every live name that does lies in a slot above the path's own. In runs of such calls
the table and the `Dir` agree (`Agree`, kept by every step), and in their states
`OpenRight` and `UnlinkRight` hold of a call exactly when it is `Whole` (`slot_table_is_map`).
-/

set_option autoImplicit false

namespace Myfs

open CSem Run

/-- The live names and their slots. -/
abbrev Dir := CStr → Option Nat

structure NameState where
  fs : State
  live : Dir

inductive NameOp
  | open (f : CStr)
  | unlink (f : CStr)
  | getLba (i offset : Nat) (write : Int)
  | close (fd : Nat)

/-- Opens and unlinks of nonempty names after a fresh mount, with no I/O in progress. -/
def names : LTS NameState NameOp where
  init s := (∃ sb, s.fs = ⟨myfsSuperblockInit sb, fun _ => ⟨0, 0⟩⟩) ∧ s.live = fun _ => none
  step s a s' :=
    match a with
    | .open f => f ≠ .empty ∧ ∃ i fs', myfsOpen s.fs f = .ok (i, fs') ∧
        s' = ⟨fs', Function.update s.live f (some i)⟩
    | .unlink f => f ≠ .empty ∧ s' = ⟨myfsUnlink s.fs f, Function.update s.live f none⟩
    | .getLba i offset write => ∃ lba fs', myfsGetLba s.fs i offset write = .ok (lba, fs') ∧
        s' = { s with fs := fs' }
    | .close fd => s' = { s with fs := myfsClose s.fs fd }

/-- `myfs_open(f)` returns the slot of `f` when `f` is live, and otherwise a slot of no live
name; the slot then carries the name `f`. -/
def OpenRight (s : NameState) (f : CStr) : Prop :=
  ∀ i fs', myfsOpen s.fs f = .ok (i, fs') →
    (∀ j, s.live f = some j → i = j) ∧ (s.live f = none → ∀ g, s.live g ≠ some i) ∧
      (fs'.sb.file i).name = f

/-- `myfs_unlink(f)` releases the slot of `f`, if any, and changes no other slot. -/
def UnlinkRight (s : NameState) (f : CStr) : Prop :=
  ∀ k, (s.live f = some k → (myfsUnlink s.fs f).sb.file k = (s.fs.sb.file k).released ∧
      (myfsUnlink s.fs f).fileStates k = ⟨0, 0⟩) ∧
    (s.live f ≠ some k → (myfsUnlink s.fs f).sb.file k = s.fs.sb.file k ∧
      (myfsUnlink s.fs f).fileStates k = s.fs.fileStates k)

/-- No longer name gets in the way of the call. -/
def Whole (s : NameState) : NameOp → Prop
  | .open f => ∀ g i, s.live g = some i → f.bytes <+: g.bytes → g ≠ f →
      ∃ j < i, s.live f = some j
  | .unlink f => ∀ g i, s.live g = some i → f.bytes <+: g.bytes → g = f
  | .getLba _ _ _ | .close _ => True

/-- The table's names are the live names, each in its slot. -/
structure Agree (s : NameState) : Prop where
  idle : ∀ k, (s.fs.fileStates k).refCount = 0
  live : ∀ f i, s.live f = some i ↔ i < MYFS_MAX_FILES ∧ f ≠ .empty ∧ (s.fs.sb.file i).name = f

section
variable {s : NameState} (h : Agree s)
include h

theorem Agree.inj {f g : CStr} {i : Nat} (hf : s.live f = some i) (hg : s.live g = some i) :
    f = g := ((h.live f i).1 hf).2.2.symm.trans ((h.live g i).1 hg).2.2

/-- A slot whose name starts with `f` holds a live name. -/
theorem Agree.live_of_match {f : CStr} (hf : f ≠ .empty) {i : Nat} (hi : i < MYFS_MAX_FILES)
    (hm : nameMatches f (s.fs.sb.file i) = true) :
    s.live (s.fs.sb.file i).name = some i ∧ f.bytes <+: (s.fs.sb.file i).name.bytes :=
  ⟨(h.live _ i).2 ⟨hi, named_of_nameMatches hf hm, rfl⟩, nameMatches_iff.1 hm⟩

theorem Agree.match_of_live {f g : CStr} {i : Nat} (hg : s.live g = some i)
    (hp : f.bytes <+: g.bytes) : i < MYFS_MAX_FILES ∧ nameMatches f (s.fs.sb.file i) = true := by
  obtain ⟨hi, -, hn⟩ := (h.live g i).1 hg
  exact ⟨hi, nameMatches_iff.2 (hn ▸ hp)⟩

/-- In a whole open the matching slot is the path's own. -/
theorem Agree.open_found {f : CStr} (hf : f ≠ .empty) (hw : Whole s (.open f)) {i : Nat}
    (hi : i < MYFS_MAX_FILES) (hm : nameMatches f (s.fs.sb.file i) = true)
    (hlow : ∀ k < i, nameMatches f (s.fs.sb.file k) = false) : s.live f = some i := by
  obtain ⟨hl, hp⟩ := h.live_of_match hf hi hm
  by_cases he : (s.fs.sb.file i).name = f
  · rwa [he] at hl
  · obtain ⟨j, hj, hlj⟩ := hw _ i hl hp he
    have := (h.match_of_live hlj (List.prefix_refl _)).2
    rw [hlow j hj] at this
    cases this

theorem Agree.openRight_iff {f : CStr} (hf : f ≠ .empty) : OpenRight s f ↔ Whole s (.open f) := by
  constructor
  · intro hr g i hg hp hne
    obtain ⟨hi, hm⟩ := h.match_of_live hg hp
    -- the open finds some slot, at the latest this one
    cases ho : myfsOpen s.fs f with
    | error e =>
      have hfind : (List.range MYFS_MAX_FILES).find?
          (fun k => nameMatches f (s.fs.sb.file k)) ≠ none := fun hnone =>
        List.find?_eq_none.1 hnone i (List.mem_range.2 hi) hm
      obtain ⟨k, hk⟩ := Option.ne_none_iff_exists'.1 hfind
      rw [myfsOpen, openLoop_eq, hk] at ho
      cases ho
    | ok r =>
      obtain ⟨k, fs'⟩ := r
      obtain ⟨hlive, hdead, -⟩ := hr k fs' ho
      obtain ⟨hk, ⟨hmk, hlow, -⟩ | ⟨hno, -⟩⟩ := myfsOpen_ok ho
      · obtain ⟨hlk, -⟩ := h.live_of_match hf hk hmk
        cases hfl : s.live f with
        | none => exact absurd hlk (hdead hfl _)
        | some j =>
          obtain rfl := hlive j hfl
          refine ⟨k, ?_, rfl⟩
          have hle : ¬ i < k := fun hlt => by rw [hlow i hlt] at hm; cases hm
          have hik : i ≠ k := fun he => hne (h.inj (he ▸ hg) hfl)
          omega
      · rw [hno i hi] at hm
        cases hm
  · intro hw i fs' ho
    obtain ⟨hi, ⟨hm, hlow, rfl⟩ | ⟨hno, hn, -, rfl⟩⟩ := myfsOpen_ok ho
    · have hl := h.open_found hf hw hi hm hlow
      refine ⟨fun j hj => Option.some.inj (hl.symm.trans hj), fun hnone => ?_, ?_⟩
      · rw [hl] at hnone
        cases hnone
      · exact ((h.live f i).1 hl).2.2
    · refine ⟨fun j hj => ?_, fun _ g hg => ?_, by simp⟩
      · obtain ⟨hj', hmj⟩ := h.match_of_live hj (List.prefix_refl _)
        rw [hno j hj'] at hmj
        cases hmj
      · obtain ⟨-, hne, hg'⟩ := (h.live g i).1 hg
        exact hne (hg'.symm.trans hn)

theorem Agree.unlinkRight_iff {f : CStr} (hf : f ≠ .empty) :
    UnlinkRight s f ↔ Whole s (.unlink f) := by
  constructor
  · intro hr g i hg hp
    obtain ⟨hi, hm⟩ := h.match_of_live hg hp
    apply Classical.byContradiction
    intro hne
    -- the longer name's slot loses its name
    obtain ⟨-, hkeep⟩ := hr i
    have hsame := (hkeep fun he => hne (h.inj hg he)).1
    rw [file_unlink, if_pos ⟨hi, hm, h.idle i⟩] at hsame
    exact named_of_nameMatches hf hm (by rw [← hsame]; rfl)
  · intro hw k
    rw [file_unlink, fileStates_unlink]
    refine ⟨fun hl => ?_, fun hl => ?_⟩
    · obtain ⟨hk, hm⟩ := h.match_of_live hl (List.prefix_refl _)
      rw [if_pos ⟨hk, hm, h.idle k⟩, if_pos ⟨hk, hm⟩, FileState.tryUnlinked, if_pos (h.idle k)]
      exact ⟨rfl, rfl⟩
    · have hno : ¬ (k < MYFS_MAX_FILES ∧ nameMatches f (s.fs.sb.file k) = true) := by
        rintro ⟨hk, hm⟩
        obtain ⟨hlk, hp⟩ := h.live_of_match hf hk hm
        rw [hw _ k hlk hp] at hlk
        exact hl hlk
      rw [if_neg fun hc => hno ⟨hc.1, hc.2.1⟩, if_neg hno]
      exact ⟨rfl, rfl⟩

theorem Agree.open {f : CStr} (hf : f ≠ .empty) (hw : Whole s (.open f)) {i : Nat} {fs' : State}
    (ho : myfsOpen s.fs f = .ok (i, fs')) : Agree ⟨fs', Function.update s.live f (some i)⟩ := by
  obtain ⟨hi, ⟨hm, hlow, rfl⟩ | ⟨hno, hn, -, rfl⟩⟩ := myfsOpen_ok ho
  · have hl := h.open_found hf hw hi hm hlow
    rw [← hl, Function.update_eq_self]
    refine ⟨fun k => ?_, h.live⟩
    by_cases hk : k = i <;> simp [hk, h.idle]
  · have hdead : s.live f = none := by
      cases hl : s.live f with
      | none => rfl
      | some j =>
        obtain ⟨hj, hmj⟩ := h.match_of_live hl (List.prefix_refl _)
        rw [hno j hj] at hmj
        cases hmj
    refine ⟨fun k => ?_, fun g k => ?_⟩
    · by_cases hk : k = i <;> simp [hk, h.idle]
    · simp only [Function.update_apply, setFlags_sb, setFile_file]
      by_cases hg : g = f
      · subst hg
        rw [if_pos rfl, Option.some.injEq]
        constructor
        · rintro rfl
          exact ⟨hi, hf, by simp⟩
        · rintro ⟨hk, -, hname⟩
          apply Classical.byContradiction
          intro hki
          rw [if_neg (fun he => hki he.symm)] at hname
          have := (h.live g k).2 ⟨hk, hf, hname⟩
          rw [hdead] at this
          cases this
      · rw [if_neg hg, h.live g k]
        by_cases hk : k = i
        · subst hk
          rw [if_pos rfl, hn]
          constructor
          · rintro ⟨-, hne, he⟩
            exact absurd he.symm hne
          · rintro ⟨-, -, he⟩
            exact absurd he.symm hg
        · rw [if_neg hk]

theorem Agree.unlink {f : CStr} (hf : f ≠ .empty) (hw : Whole s (.unlink f)) :
    Agree ⟨myfsUnlink s.fs f, Function.update s.live f none⟩ := by
  have hr := (h.unlinkRight_iff hf).2 hw
  refine ⟨fun k => ?_, fun g k => ?_⟩
  · by_cases hl : s.live f = some k
    · rw [((hr k).1 hl).2]
    · rw [((hr k).2 hl).2]
      exact h.idle k
  · simp only [Function.update_apply]
    by_cases hl : s.live f = some k
    · rw [((hr k).1 hl).1]
      by_cases hg : g = f
      · subst hg
        simp only [↓reduceIte, reduceCtorEq, false_iff]
        rintro ⟨-, hne, hname⟩
        exact hne hname.symm
      · rw [if_neg hg]
        constructor
        · intro hgk
          exact absurd (h.inj hgk hl) hg
        · rintro ⟨-, hne, hname⟩
          exact absurd hname.symm hne
    · rw [((hr k).2 hl).1]
      by_cases hg : g = f
      · subst hg
        rw [← h.live g k]
        simp [hl]
      · rw [if_neg hg]
        exact h.live g k

end

theorem Agree.step {s s' : NameState} {a : NameOp} (h : Agree s) (hw : Whole s a)
    (hs : names.step s a s') : Agree s' := by
  cases a with
  | «open» f =>
    obtain ⟨hf, i, fs', ho, rfl⟩ := hs
    exact h.open hf hw ho
  | unlink f =>
    obtain ⟨hf, rfl⟩ := hs
    exact h.unlink hf hw
  | getLba i offset write =>
    obtain ⟨lba, fs', hg, rfl⟩ := hs
    obtain ⟨hst, hname, -⟩ := myfsGetLba_frame hg
    exact ⟨fun k => by rw [hst]; exact h.idle k, fun f k => by rw [hname]; exact h.live f k⟩
  | close fd =>
    obtain rfl := hs
    refine ⟨fun k => ?_, h.live⟩
    by_cases hk : k = fd <;> simp [myfsClose, hk, h.idle]

theorem Agree.of_init {s : NameState} (h : names.init s) : Agree s := by
  obtain ⟨⟨sb, hfs⟩, hl⟩ := h
  refine ⟨fun k => by rw [hfs], fun f i => ?_⟩
  rw [hl, hfs]
  simp only [reduceCtorEq, false_iff]
  rintro ⟨hi, hne, hn⟩
  simp only [myfsSuperblockInit, if_pos hi] at hn
  exact hne hn.symm

theorem agree_of_reach {s : NameState} (h : names.ReachIf Whole s) : Agree s :=
  LTS.ReachIf.induct (fun _ hi => .of_init hi) (fun _ _ _ ha hw hs => ha.step hw hs) h

/-- **In every run whose calls are `Whole`, the slot table is a map keyed by whole names**: no two
live names share a slot, and a further open or unlink treats the table as the map exactly when it
is `Whole` itself. -/
theorem slot_table_is_map {s : NameState} (h : names.ReachIf Whole s) :
    (∀ f g i, s.live f = some i → s.live g = some i → f = g) ∧
    ∀ f, f ≠ .empty →
      (OpenRight s f ↔ Whole s (.open f)) ∧ (UnlinkRight s f ↔ Whole s (.unlink f)) := by
  have ha := agree_of_reach h
  exact ⟨fun f g i => ha.inj, fun f hf => ⟨ha.openRight_iff hf, ha.unlinkRight_iff hf⟩⟩

/-- A first open after a fresh mount makes its name the only live one. -/
theorem reach_first_open {f : CStr} (hf : f ≠ .empty) (hl : f.strlen < MYFS_MAX_NAMELEN) :
    ∃ s i, names.ReachIf Whole s ∧ s.live = Function.update (fun _ => none) f (some i) := by
  refine ⟨_, 0, .step (s := ⟨freshFs, fun _ => none⟩) (a := .open f) (.init ⟨⟨_, rfl⟩, rfl⟩) ?_
    ⟨hf, 0, _, open_fresh hf hl, rfl⟩, rfl⟩
  intro g j hg
  cases hg

/-- With `"ab"` live the opens and unlinks of `"ab"` are right, those of `"a"` are not. -/
theorem slot_table_with_ab : ∃ s, names.ReachIf Whole s ∧
    OpenRight s ⟨[97, 98], by decide⟩ ∧ UnlinkRight s ⟨[97, 98], by decide⟩ ∧
    ¬ OpenRight s ⟨[97], by decide⟩ ∧ ¬ UnlinkRight s ⟨[97], by decide⟩ := by
  obtain ⟨s, i, hr, hl⟩ := reach_first_open (f := ⟨[97, 98], by decide⟩) (by decide)
    (by rw [MYFS_MAX_NAMELEN_eq]; decide)
  have hab : s.live ⟨[97, 98], by decide⟩ = some i := by rw [hl]; simp
  have honly : ∀ g j, s.live g = some j → g = ⟨[97, 98], by decide⟩ := by
    intro g j hg
    rw [hl, Function.update_apply] at hg
    split at hg
    · assumption
    · cases hg
  have hmap := (slot_table_is_map hr).2
  refine ⟨s, hr, (hmap _ (by decide)).1.2 fun g j hg _ hne => absurd (honly g j hg) hne,
    (hmap _ (by decide)).2.2 fun g j hg _ => honly g j hg, fun ho => ?_, fun hu => ?_⟩
  · obtain ⟨j, -, hj⟩ := (hmap _ (by decide)).1.1 ho _ i hab (by decide) (by decide)
    exact absurd (honly _ j hj) (by decide)
  · exact absurd ((hmap _ (by decide)).2.1 hu _ i hab (by decide)) (by decide)

/-- Opening `"a"` after `"ab"` gives both names one slot. -/
theorem live_names_share_slot : ∃ s, names.Reach s ∧
    ∃ f g i, f ≠ g ∧ s.live f = some i ∧ s.live g = some i := by
  obtain ⟨s, i, hr, hl⟩ := reach_first_open (f := ⟨[97, 98], by decide⟩) (by decide)
    (by rw [MYFS_MAX_NAMELEN_eq]; decide)
  have ha := agree_of_reach hr
  have hab : s.live ⟨[97, 98], by decide⟩ = some i := by rw [hl]; simp
  have ha1 : (⟨[97], by decide⟩ : CStr) ≠ .empty := by decide
  obtain ⟨hi, hm⟩ := ha.match_of_live (f := ⟨[97], by decide⟩) hab (by decide)
  obtain ⟨k, fs', ho⟩ := myfsOpen_isOk (s := s.fs) ⟨[97], by decide⟩
    (by rw [MYFS_MAX_NAMELEN_eq]; decide) ⟨i, hi, .inl hm⟩
  have hki : k = i := by
    obtain ⟨hk, ⟨hmk, -, -⟩ | ⟨hno, -⟩⟩ := myfsOpen_ok ho
    · have hlk := (ha.live_of_match ha1 hk hmk).1
      rw [hl, Function.update_apply] at hlk
      split at hlk
      · exact (Option.some.inj hlk).symm
      · cases hlk
    · rw [hno i hi] at hm
      cases hm
  subst hki
  refine ⟨_, .step hr.reach (a := .open ⟨[97], by decide⟩) trivial ⟨ha1, k, fs', ho, rfl⟩,
    ⟨[97], by decide⟩, ⟨[97, 98], by decide⟩, k, by decide, by simp, ?_⟩
  have hne : (⟨[97, 98], by decide⟩ : CStr) ≠ ⟨[97], by decide⟩ := by decide
  simp only [Function.update_of_ne hne, hab]

end Myfs
