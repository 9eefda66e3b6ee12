import Staut.Hook.Proof.Spec

/-!
# Descriptors

Two things `hookfds` is relied on for.

*Redirection* (`redirected_right`). `hookfds` is kept up to date only by `openat` and `close` from a
ULT. It agrees with the kernel's table in every run in which hooked files are opened, used and
closed only by ULTs through these calls, with descriptors below `MAX_HOOKFD` (`Tidy`); a stale entry
redirects an ordinary file (`stale_entry`).

*Files* (`descriptor_keeps_file`). An entry is a bare slot index, and a slot is reused as soon as
its file is unlinked. A descriptor stays on the file it was opened for in every run of hooked calls
in which each `openat` finds its own file's slot, or a free slot that no descriptor of another file
still has (`OpensOwn`); otherwise it reaches another file's slot (`descriptor_on_other_file`).
-/

set_option autoImplicit false

namespace Hook

open CSem Run Myfs Nvme

/-! ## Redirection -/

/-- The descriptor was opened through a hooked name. -/
def Desc.Hooked (env : Env) (d : Desc) : Prop :=
  ∃ f, d.path = some f ∧ isHookedFilename env f = .ok true

/-- The context and the descriptor of a read, pread, write, pwrite, close or newfstatat. -/
def Label.access : Label → Option (Bool × Int)
  | .close ult fd | .io ult _ fd _ _ _ _ | .newfstatat ult fd => some (ult, fd)
  | _ => none

/-- The tables are indexed in their range only: an `openat` indexes them with what the kernel
returned, `newfstatat` not with a negative descriptor. -/
def Label.InRange (env : Env) : Label → Prop
  | .openat true f ret => isHookedFilename env f = .ok true → ret < MAX_HOOKFD → 0 ≤ ret
  | .close true fd | .io true _ fd _ _ _ _ => 0 ≤ fd ∧ fd < MAX_HOOKFD
  | .newfstatat true fd => 0 ≤ fd → fd < MAX_HOOKFD
  | _ => True

/-- A call on `fd` goes to `myfs`, to slot `i`. -/
def Redirected (s : Sys) (ult : Bool) (fd : Int) (i : Nat) : Prop :=
  ult = true ∧ 0 ≤ fd ∧ fd < MAX_HOOKFD ∧ s.hookfds fd.toNat = i

/-- The call stays in the tables' range, and is redirected if and only if its descriptor was opened
through a hooked name, then to that open's slot. -/
def Right (env : Env) (s : Sys) (a : Label) : Prop :=
  a.InRange env ∧ ∀ ult fd d, a.access = some (ult, fd) → s.kfds fd = some d →
    ((∃ i, Redirected s ult fd i) ↔ d.Hooked env) ∧
      ∀ i, Redirected s ult fd i → d.slot = some i

/-- Hooked files are opened by ULTs, successfully, and used and closed by ULTs only; ULTs use
descriptors in the tables' range; nothing else creates, replaces or closes a hooked descriptor. -/
def Tidy (env : Env) (s : Sys) : Label → Prop
  | .openat ult f ret => isHookedFilename env f = .ok true → ult = true ∧ 0 ≤ ret
  | .close ult fd | .io ult _ fd _ _ _ _ =>
    (ult = true → 0 ≤ fd ∧ fd < MAX_HOOKFD) ∧
      (ult = false → ∀ d, s.kfds fd = some d → ¬ d.Hooked env)
  | .newfstatat ult fd =>
    (ult = true → 0 ≤ fd → fd < MAX_HOOKFD) ∧
      (ult = false → ∀ d, s.kfds fd = some d → ¬ d.Hooked env)
  | .other kfds => ∀ fd d, d.Hooked env → (kfds fd = some d ↔ s.kfds fd = some d)
  | _ => True

/-- The library's table agrees with the kernel's. -/
structure TableOk (env : Env) (s : Sys) : Prop where
  hooked : ∀ fd d, s.kfds fd = some d → d.Hooked env →
    0 ≤ fd ∧ fd < MAX_HOOKFD ∧ ∃ i : Nat, d.slot = some i ∧ s.hookfds fd.toNat = i
  used : ∀ n < MAX_HOOKFD, 0 ≤ s.hookfds n → ∃ d, s.kfds n = some d ∧ d.Hooked env

section
variable {env : Env} {s s' : Sys}

theorem TableOk.congr (h : TableOk env s) (h1 : s'.hookfds = s.hookfds) (h2 : s'.kfds = s.kfds) :
    TableOk env s' := by
  refine ⟨fun fd d hd hh => ?_, fun n hn h0 => ?_⟩
  · rw [h1]
    exact h.hooked fd d (by rw [← h2]; exact hd) hh
  · rw [h2]
    exact h.used n hn (by rw [← h1]; exact h0)

/-- A descriptor number with no hooked file behind it has no entry. -/
theorem TableOk.unused (h : TableOk env s) {fd : Int} (h0 : 0 ≤ fd) (h1 : fd < MAX_HOOKFD)
    (hn : ∀ d, s.kfds fd = some d → ¬ d.Hooked env) : s.hookfds fd.toNat < 0 := by
  apply Classical.byContradiction
  intro hge
  obtain ⟨d, hd, hh⟩ := h.used fd.toNat (by omega) (by omega)
  rw [Int.toNat_of_nonneg h0] at hd
  exact hn d hd hh

/-- The kernel's table changes only where no hooked file is, before and after. -/
theorem TableOk.kernel (h : TableOk env s) (h1 : s'.hookfds = s.hookfds)
    (h2 : ∀ fd d, d.Hooked env → (s'.kfds fd = some d ↔ s.kfds fd = some d)) : TableOk env s' := by
  refine ⟨fun fd d hd hh => ?_, fun n hn h0 => ?_⟩
  · rw [h1]
    exact h.hooked fd d ((h2 fd d hh).1 hd) hh
  · rw [h1] at h0
    obtain ⟨d, hd, hh⟩ := h.used n hn h0
    exact ⟨d, (h2 n d hh).2 hd, hh⟩

/-- The kernel closes a descriptor that is not hooked. -/
theorem TableOk.kclose (h : TableOk env s) {fd : Int}
    (hn : ∀ d, s.kfds fd = some d → ¬ d.Hooked env) : TableOk env (s.kclose fd) := by
  refine h.kernel rfl fun x d hd => ?_
  simp only [Sys.kclose, Function.update_apply]
  split
  · rename_i hx
    subst hx
    exact ⟨(fun hc => by cases hc), fun hc => absurd hd (hn d hc)⟩
  · rfl

/-- The kernel opens a file that is not hooked. -/
theorem TableOk.kopen (h : TableOk env s) {f : CStr} {ret : Int} (hk : 0 ≤ ret → s.kfds ret = none)
    (hf : ¬ isHookedFilename env f = .ok true) : TableOk env (s.kopen f ret none) := by
  unfold Sys.kopen
  split
  · rename_i h0
    refine h.kernel rfl fun x d hd => ?_
    simp only [Function.update_apply]
    split
    · rename_i hx
      subst hx
      constructor
      · intro hc
        obtain rfl := Option.some.inj hc
        obtain ⟨g, hg, hgh⟩ := hd
        obtain rfl := Option.some.inj hg
        exact absurd hgh hf
      · intro hc
        rw [hk h0] at hc
        cases hc
    · rfl
  · exact h

theorem TableOk.openat (h : TableOk env s) {f : CStr} {ret : Int} {i : Nat} {fs : State}
    (h0 : 0 ≤ ret) (h1 : ret < MAX_HOOKFD) (hf : isHookedFilename env f = .ok true) :
    TableOk env { s.kopen f ret (some i) with
      fs := fs
      hookfds := Function.update s.hookfds ret.toNat i
      curPos := Function.update s.curPos ret.toNat 0 } := by
  simp only [Sys.kopen, h0, ↓reduceIte]
  refine ⟨fun fd d hd hh => ?_, fun n hn hge => ?_⟩
  · simp only [Function.update_apply] at hd ⊢
    by_cases hfd : fd = ret
    · subst hfd
      simp only [↓reduceIte, Option.some.injEq] at hd ⊢
      exact ⟨h0, h1, i, by rw [← hd], rfl⟩
    · rw [if_neg hfd] at hd
      obtain ⟨h2, h3, k, hk, hkf⟩ := h.hooked fd d hd hh
      exact ⟨h2, h3, k, hk, by rw [if_neg (by omega)]; exact hkf⟩
  · simp only [Function.update_apply] at hge ⊢
    by_cases hx : (n : Int) = ret
    · rw [if_pos hx]
      exact ⟨_, rfl, f, rfl, hf⟩
    · rw [if_neg (by omega)] at hge
      rw [if_neg hx]
      exact h.used n hn hge

theorem TableOk.close (h : TableOk env s) {fd : Int} {fs : State} (h0 : 0 ≤ fd) :
    TableOk env (Sys.kclose { s with
      fs := fs
      hookfds := Function.update s.hookfds fd.toNat NOT_USED_FD } fd) := by
  refine ⟨fun x d hd hh => ?_, fun n hn hge => ?_⟩
  · simp only [Sys.kclose, Function.update_apply] at hd ⊢
    by_cases hx : x = fd
    · rw [if_pos hx] at hd
      cases hd
    · rw [if_neg hx] at hd
      obtain ⟨h2, h3, k, hk, hkf⟩ := h.hooked x d hd hh
      exact ⟨h2, h3, k, hk, by rw [if_neg (by omega)]; exact hkf⟩
  · simp only [Sys.kclose, Function.update_apply] at hge ⊢
    by_cases hx : (n : Int) = fd
    · rw [if_pos (by omega)] at hge
      exact absurd hge (by decide)
    · rw [if_neg (by omega)] at hge
      rw [if_neg hx]
      exact h.used n hn hge

theorem TableOk.step {cfg : Cfg} {a : Label} (h : TableOk env s) (hc : Tidy env s a)
    (hs : Step env cfg s a s') : TableOk env s' := by
  cases hs with
  | openat hk ho =>
    rcases hookOpenat_ok ho with ⟨hf, rfl⟩ | ⟨hf, h0, h1, i, fs, -, rfl⟩
    · exact h.kopen hk (by rw [hf]; simp)
    · exact h.openat h0 h1 hf
  | kopenat hk => exact h.kopen hk fun hf => absurd (hc hf).1 Bool.false_ne_true
  | @close _ fd hcl =>
    obtain ⟨h0, h1, ⟨hneg, rfl⟩ | ⟨i, -, rfl⟩⟩ := hookClose_ok hcl
    · refine h.kclose fun d hd hh => ?_
      obtain ⟨-, -, k, -, hk⟩ := h.hooked fd d hd hh
      omega
    · exact h.close h0
  | kclose => exact h.kclose (hc.2 rfl)
  | io hi =>
    obtain ⟨-, -, ⟨-, rfl⟩ | ⟨i, fs, c, -, -, rfl⟩⟩ := hookIo_ok hi
    · exact h
    · exact h.congr rfl rfl
  | kio => exact h
  | newfstatat _ => exact h
  | knewfstatat => exact h
  | unlink => exact h.congr rfl rfl
  | kunlink => exact h
  | resume _ hr =>
    rcases resume_ok hr with ⟨-, c, -, fs, -, rfl⟩ | ⟨-, rfl⟩
    · exact h.congr rfl rfl
    · exact h.congr rfl rfl
  | other => exact h.kernel rfl hc

theorem TableOk.init {cfg : Cfg} (h : (sys env cfg).init s) : TableOk env s := by
  obtain ⟨-, hfds, hk, -, -⟩ := h
  refine ⟨fun fd d hd hh => ?_, fun n hn h0 => ?_⟩
  · obtain ⟨f, hf, -⟩ := hh
    rw [hk fd d hd] at hf
    cases hf
  · rw [hfds n hn] at h0
    exact absurd h0 (by decide)

/-- With agreeing tables a call by a ULT is redirected as it should be. -/
theorem TableOk.redirected (h : TableOk env s) {ult : Bool} {fd : Int} {d : Desc}
    (hd : s.kfds fd = some d) (hu : ult = false → ¬ d.Hooked env) :
    ((∃ i, Redirected s ult fd i) ↔ d.Hooked env) ∧ ∀ i, Redirected s ult fd i →
      d.slot = some i := by
  have hslot : ∀ i, Redirected s ult fd i → d.Hooked env ∧ d.slot = some i := by
    intro i hr
    obtain ⟨-, h0, h1, hi⟩ := hr
    obtain ⟨d', hd', hh⟩ := h.used fd.toNat (by omega) (by omega)
    rw [Int.toNat_of_nonneg h0, hd] at hd'
    obtain rfl := Option.some.inj hd'
    obtain ⟨-, -, k, hk, hkf⟩ := h.hooked fd d hd hh
    rw [hi] at hkf
    exact ⟨hh, by rw [hk, Int.ofNat_inj.1 hkf]⟩
  refine ⟨⟨fun hr => ?_, fun hh => ?_⟩, fun i hr => (hslot i hr).2⟩
  · obtain ⟨i, hr⟩ := hr
    exact (hslot i hr).1
  · obtain ⟨h0, h1, i, -, hi⟩ := h.hooked fd d hd hh
    cases ult with
    | false => exact absurd hh (hu rfl)
    | true => exact ⟨i, rfl, h0, h1, hi⟩

/-- A call that is right comes from a ULT, if its descriptor is hooked. -/
theorem Right.not_hooked {a : Label} {ult : Bool} {fd : Int} (h : Right env s a)
    (ha : a.access = some (ult, fd)) (hu : ult = false) (d : Desc) (hd : s.kfds fd = some d) :
    ¬ d.Hooked env := by
  intro hh
  obtain ⟨i, hr, -⟩ := (h.2 ult fd d ha hd).1.2 hh
  rw [hu] at hr
  cases hr

theorem TableOk.right_iff (h : TableOk env s) {a : Label} {ult : Bool} {fd : Int}
    (ha : a.access = some (ult, fd)) : Right env s a ↔ Tidy env s a := by
  have hright : a.InRange env → (ult = false → ∀ d, s.kfds fd = some d → ¬ d.Hooked env) →
      Right env s a := by
    refine fun hin hu => ⟨hin, fun ult' fd' d ha' hd => ?_⟩
    rw [ha] at ha'
    obtain ⟨rfl, rfl⟩ := Prod.mk.inj (Option.some.inj ha')
    exact h.redirected hd fun h' => hu h' d hd
  cases a with
  | openat u f ret => cases ha
  | unlink u f => cases ha
  | resume k rid done => cases ha
  | other kfds => cases ha
  | close u x | io u op x count buf coreId rid | newfstatat u x =>
    obtain ⟨rfl, rfl⟩ := Prod.mk.inj (Option.some.inj ha)
    refine ⟨fun hr => ⟨fun hu => ?_, hr.not_hooked rfl⟩, fun ht => hright ?_ ht.2⟩
    · subst hu
      exact hr.1
    · cases u with
      | true => exact ht.1 rfl
      | false => trivial

/-- **Redirection.** In every run whose steps are all tidy every tidy call is right; a read, write,
close or newfstatat is right if and only if it is tidy. -/
theorem redirected_right {cfg : Cfg} (h : (sys env cfg).ReachIf (Tidy env) s) :
    (∀ a, Tidy env s a → Right env s a) ∧
      ∀ a, a.access ≠ none → (Right env s a ↔ Tidy env s a) := by
  have ht : TableOk env s := h.induct (fun _ => TableOk.init) fun _ _ _ ih hc hs => ih.step hc hs
  refine ⟨fun a hc => ?_, fun a ha => ?_⟩
  · cases ha : a.access with
    | some p => exact (ht.right_iff ha).2 hc
    | none =>
      refine ⟨?_, fun ult fd d ha' => by rw [ha] at ha'; cases ha'⟩
      cases a with
      | openat u f ret =>
        cases u with
        | true => exact fun hf _ => (hc hf).2
        | false => trivial
      | close u x => cases ha
      | io u op x count buf coreId rid => cases ha
      | newfstatat u x => cases ha
      | unlink u f => trivial
      | resume k rid done => trivial
      | other kfds => trivial
  · cases hp : a.access with
    | some p => exact ht.right_iff hp
    | none => exact absurd hp ha

end

/-- Reads through the descriptors of a hooked file and of an ordinary one. -/
theorem redirected_right_read : ∃ s,
    (sys ⟨[⟨[102], by decide⟩], none⟩ ⟨1, 1, 8, 8⟩).ReachIf (Tidy ⟨[⟨[102], by decide⟩], none⟩) s ∧
    s.kfds 3 = some ⟨0, some ⟨[102], by decide⟩, some 0⟩ ∧
    s.kfds 4 = some ⟨1, some ⟨[111], by decide⟩, none⟩ ∧
    Right ⟨[⟨[102], by decide⟩], none⟩ s (.io true (.pread 0) 3 512 0 0 fun _ => 0) ∧
    Right ⟨[⟨[102], by decide⟩], none⟩ s (.io true (.pread 0) 4 512 0 0 fun _ => 0) := by
  have hM := MAX_HOOKFD_eq
  have h1 : (sys ⟨[⟨[102], by decide⟩], none⟩ ⟨1, 1, 8, 8⟩).ReachIf
      (Tidy ⟨[⟨[102], by decide⟩], none⟩) (Sys.opened ⟨[102], by decide⟩ 3) :=
    reach_opened (fun _ => ⟨rfl, by decide⟩) (by decide) (by rw [MYFS_MAX_NAMELEN_eq]; decide)
      (by decide) (by omega)
  let s2 : Sys := (Sys.opened ⟨[102], by decide⟩ 3).kopen ⟨[111], by decide⟩ 4 none
  have h2 : (sys ⟨[⟨[102], by decide⟩], none⟩ ⟨1, 1, 8, 8⟩).ReachIf
      (Tidy ⟨[⟨[102], by decide⟩], none⟩) s2 :=
    .step (a := .openat true ⟨[111], by decide⟩ 4) h1 (fun hf => absurd hf (by decide))
      (Step.openat (fun _ => rfl) rfl)
  have htidy : ∀ fd : Int, 0 ≤ fd → fd < MAX_HOOKFD → ∀ s, Tidy ⟨[⟨[102], by decide⟩], none⟩ s
      (.io true (.pread 0) fd 512 0 0 fun _ => 0) := fun fd h0 hlt s =>
    ⟨fun _ => ⟨h0, hlt⟩, fun hu => by cases hu⟩
  exact ⟨_, h2, rfl, rfl, (redirected_right h2).1 _ (htidy 3 (by decide) (by omega) _),
    (redirected_right h2).1 _ (htidy 4 (by decide) (by omega) _)⟩

/-- A hooked descriptor closed outside the ULTs leaves its entry behind, and the ordinary file that
gets the number is redirected to the slot. -/
theorem stale_entry : ∃ s, (sys ⟨[⟨[102], by decide⟩], none⟩ ⟨1, 1, 8, 8⟩).Reach s ∧
    s.kfds 3 = some ⟨1, some ⟨[111], by decide⟩, none⟩ ∧ Redirected s true 3 0 ∧
    ¬ Right ⟨[⟨[102], by decide⟩], none⟩ s (.io true (.pwrite 0) 3 512 0 0 fun _ => 0) := by
  have hmax : (3 : Int) < MAX_HOOKFD := by rw [MAX_HOOKFD_eq]; decide
  have h1 : (sys ⟨[⟨[102], by decide⟩], none⟩ ⟨1, 1, 8, 8⟩).Reach
    (Sys.opened ⟨[102], by decide⟩ 3) :=
    reach_opened trivial (by decide) (by rw [MYFS_MAX_NAMELEN_eq]; decide) (by decide) (by omega)
  let s2 : Sys := (Sys.opened ⟨[102], by decide⟩ 3).kclose 3
  let s3 : Sys := s2.kopen ⟨[111], by decide⟩ 3 none
  have h2 : (sys ⟨[⟨[102], by decide⟩], none⟩ ⟨1, 1, 8, 8⟩).Reach s2 :=
    .step (a := .close false 3) h1 trivial Step.kclose
  have h3 : (sys ⟨[⟨[102], by decide⟩], none⟩ ⟨1, 1, 8, 8⟩).Reach s3 :=
    .step (a := .openat true ⟨[111], by decide⟩ 3) h2 trivial (Step.openat (fun _ => rfl) rfl)
  have hk : s3.kfds 3 = some ⟨1, some ⟨[111], by decide⟩, none⟩ := rfl
  have hr : Redirected s3 true 3 0 := ⟨rfl, by decide, hmax, rfl⟩
  refine ⟨s3, h3, hk, hr, fun hright => ?_⟩
  obtain ⟨f, hf, hh⟩ := (hright.2 true 3 _ rfl hk).1.1 ⟨0, hr⟩
  obtain rfl := Option.some.inj hf
  exact absurd hh (by decide)

/-! ## Files -/

/-- An I/O call through the descriptor `d` at `fd` works on slot `i`: one that starts now, or one in
progress. -/
def Reaches (s : Sys) (fd : Int) (d : Desc) (i : Nat) : Prop :=
  (0 ≤ fd ∧ fd < MAX_HOOKFD ∧ s.hookfds fd.toNat = i) ∨
    ∃ x ∈ s.calls, x.fd = fd ∧ x.desc = some d ∧ x.call.hookfd = i

/-- No I/O call through an open descriptor works on a slot of a file created under another name. -/
def OnOwnFile (s : Sys) : Prop := ∀ fd d f i, s.kfds fd = some d → d.path = some f →
  Reaches s fd d i → (s.fs.sb.file i).name = f ∨ (s.fs.sb.file i).name = .empty

/-- The hooked calls, from ULTs. -/
def HookedCall (env : Env) : Label → Prop
  | .openat ult f _ => ult = true ∧ isHookedFilename env f = .ok true
  | .close ult _ | .io ult _ _ _ _ _ _ | .newfstatat ult _ | .unlink ult _ => ult = true
  | .resume _ _ _ => True
  | .other _ => False

/-- An `openat` finds the slot of its own name, or takes a free slot that no open descriptor of
another name reaches. -/
def OpensOwn (s : Sys) : Label → Prop
  | .openat _ g _ => ∀ i fs, myfsOpen s.fs g = .ok (i, fs) → (s.fs.sb.file i).name = g ∨
      ((s.fs.sb.file i).name = .empty ∧
        ∀ fd d f, s.kfds fd = some d → d.path = some f → Reaches s fd d i → f = g)
  | _ => True

/-- The invariant: the descriptors of one number are told apart by the number of their open. -/
structure FileInv (s : Sys) : Prop where
  own : OnOwnFile s
  ids : ∀ fd d, s.kfds fd = some d → d.path ≠ none → d.id < s.opens
  callIds : ∀ x ∈ s.calls, ∀ d, x.desc = some d → d.path ≠ none → d.id < s.opens

section
variable {env : Env} {cfg : Cfg} {s s' : Sys}

/-- Steps that add no way to a slot and give no slot a new name. -/
theorem FileInv.mono (h : FileInv s)
    (hk : ∀ fd d, s'.kfds fd = some d → s.kfds fd = some d)
    (hr : ∀ fd d i, s'.kfds fd = some d → Reaches s' fd d i → Reaches s fd d i)
    (hc : ∀ x ∈ s'.calls, ∀ d, x.desc = some d → d.path ≠ none → d.id < s.opens)
    (hn : ∀ i, (s'.fs.sb.file i).name = (s.fs.sb.file i).name ∨ (s'.fs.sb.file i).name = .empty)
    (ho : s'.opens = s.opens) : FileInv s' := by
  refine ⟨fun fd d f i hd hf hi => ?_, fun fd d hd => ?_, fun x hx d hd hp => ?_⟩
  · rcases hn i with hni | hni
    · rw [hni]
      exact h.own fd d f i (hk fd d hd) hf (hr fd d i hd hi)
    · exact .inr hni
  · rw [ho]
    exact h.ids fd d (hk fd d hd)
  · rw [ho]
    exact hc x hx d hd hp

theorem FileInv.close {fd : Int} {fs : State} {h' : Nat → Int} (h : FileInv s)
    (hsb : fs.sb = s.fs.sb) (hh : ∀ n, n ≠ fd.toNat → h' n = s.hookfds n) (h0 : 0 ≤ fd) :
    FileInv (Sys.kclose { s with fs := fs, hookfds := h' } fd) := by
  have hne : ∀ x d, (Sys.kclose { s with fs := fs, hookfds := h' } fd).kfds x = some d →
      x ≠ fd ∧ s.kfds x = some d := by
    intro x d hd
    simp only [Sys.kclose, Function.update_apply] at hd
    split at hd
    · cases hd
    · rename_i hx
      exact ⟨hx, hd⟩
  refine h.mono (fun x d hd => (hne x d hd).2) (fun x d i hd hi => ?_) h.callIds
    (fun i => .inl (by simp only [Sys.kclose, hsb])) rfl
  rcases hi with ⟨hx0, hx1, hxi⟩ | hi
  · have hx := (hne x d hd).1
    exact .inl ⟨hx0, hx1, by rw [← hh x.toNat (by omega)]; exact hxi⟩
  · exact .inr hi

theorem FileInv.io {fd : Int} {fs : State} {c : IoCall} {i : Nat} {adv : Option Int}
    (h : FileInv s) (hsb : fs.sb = s.fs.sb) (h0 : 0 ≤ fd) (h1 : fd < MAX_HOOKFD)
    (hi : s.hookfds fd.toNat = i) (hc : c.hookfd = i) :
    FileInv { s with fs := fs, calls := s.calls ++ [⟨c, fd, s.kfds fd, adv⟩] } := by
  refine h.mono (fun x d hd => hd) (fun x d k hd hk => ?_) (fun x hx d hd hp => ?_)
    (fun i => .inl (by simp only [hsb])) rfl
  · rcases hk with hk | ⟨y, hy, hyfd, hyd, hyi⟩
    · exact .inl hk
    · rcases List.mem_append.1 hy with hy | hy
      · exact .inr ⟨y, hy, hyfd, hyd, hyi⟩
      · obtain rfl := List.mem_singleton.1 hy
        subst hyfd
        exact .inl ⟨h0, h1, by rw [hi, ← hyi, ← hc]⟩
  · rcases List.mem_append.1 hx with hx | hx
    · exact h.callIds x hx d hd hp
    · obtain rfl := List.mem_singleton.1 hx
      exact h.ids fd d hd hp

theorem FileInv.unlink (h : FileInv s) (f : CStr) : FileInv { s with fs := myfsUnlink s.fs f } := by
  refine h.mono (fun x d hd => hd) (fun x d i _ hi => hi) h.callIds (fun i => ?_) rfl
  show ((myfsUnlink s.fs f).sb.file i).name = _ ∨ ((myfsUnlink s.fs f).sb.file i).name = _
  rw [file_unlink]
  split
  · exact .inr rfl
  · exact .inl rfl

theorem FileInv.resume {k : Nat} {a : Active} {rid : Int} {done : Bool} (h : FileInv s)
    (hk : s.calls[k]? = some a) (hr : s.resume cfg k a rid done = .ok s') : FileInv s' := by
  have ha : a ∈ s.calls := List.mem_of_getElem? hk
  rcases resume_ok hr with ⟨-, c, hc, fs, hfs, rfl⟩ | ⟨-, rfl⟩
  · have hmem : ∀ x ∈ s.calls.set k { a with call := c }, ∃ y ∈ s.calls,
        x.fd = y.fd ∧ x.desc = y.desc ∧ x.call.hookfd = y.call.hookfd := by
      intro x hx
      rcases List.mem_or_eq_of_mem_set hx with hx | rfl
      · exact ⟨x, hx, rfl, rfl, rfl⟩
      · exact ⟨a, ha, rfl, rfl, hc⟩
    refine h.mono (fun x d hd => hd) (fun x d i _ hi => ?_) (fun x hx d hd => ?_) (fun i => ?_) rfl
    · rcases hi with hi | ⟨y, hy, hyfd, hyd, hyi⟩
      · exact .inl hi
      · obtain ⟨z, hz, h1, h2, h3⟩ := hmem y hy
        exact .inr ⟨z, hz, by rw [← h1, hyfd], by rw [← h2, hyd], by rw [← h3, hyi]⟩
    · obtain ⟨z, hz, -, h2, -⟩ := hmem x hx
      exact h.callIds z hz d (by rw [← h2]; exact hd)
    · left
      rcases hfs with rfl | ⟨offset, write, lba, hg⟩
      · rfl
      · exact (myfsGetLba_frame hg).2.1 i
  · refine h.mono (fun x d hd => hd) (fun x d i _ hi => ?_) (fun x hx => ?_)
      (fun i => .inl (by simp only [Sys.finish, decrementRef_sb])) rfl
    · rcases hi with hi | ⟨y, hy, hyi⟩
      · exact .inl hi
      · exact .inr ⟨y, List.mem_of_mem_eraseIdx hy, hyi⟩
    · exact h.callIds x (List.mem_of_mem_eraseIdx hx)

/-- A hooked `openat`: the ways to slots afterwards. -/
theorem reaches_openat {f : CStr} {ret : Int} {i : Nat} {fs : State} (h0 : 0 ≤ ret) {fd : Int}
    {d : Desc} {j : Nat} (hfd : fd ≠ ret) :
    Reaches { s.kopen f ret (some i) with
      fs := fs
      hookfds := Function.update s.hookfds ret.toNat i
      curPos := Function.update s.curPos ret.toNat 0 } fd d j ↔ Reaches s fd d j := by
  have hcalls : (s.kopen f ret (some i)).calls = s.calls := by
    unfold Sys.kopen
    split <;> rfl
  unfold Reaches
  simp only [hcalls]
  refine or_congr ⟨fun hr => ?_, fun hr => ?_⟩ Iff.rfl
  · obtain ⟨h1, h2, h3⟩ := hr
    rw [Function.update_of_ne (by omega)] at h3
    exact ⟨h1, h2, h3⟩
  · obtain ⟨h1, h2, h3⟩ := hr
    exact ⟨h1, h2, by rw [Function.update_of_ne (by omega)]; exact h3⟩

/-- What a hooked `openat` of `g` leaves that gets the slot `i`: the slot's name stays, or a free
slot gets the new one. -/
structure OpenedOn (s s' : Sys) (g : CStr) (ret : Int) (i : Nat) : Prop where
  unused : s.kfds ret = none
  new : s'.kfds ret = some ⟨s.opens, some g, some i⟩
  old : ∀ fd d, fd ≠ ret → (s'.kfds fd = some d ↔ s.kfds fd = some d)
  opens : s'.opens = s.opens + 1
  calls : s'.calls = s.calls
  reaches : ∀ fd d j, fd ≠ ret → (Reaches s' fd d j ↔ Reaches s fd d j)
  reachesNew : ∀ j, Reaches s' ret ⟨s.opens, some g, some i⟩ j ↔ j = i
  names : (nameMatches g (s.fs.sb.file i) = true ∧
        ∀ j, (s'.fs.sb.file j).name = (s.fs.sb.file j).name) ∨
      ((s.fs.sb.file i).name = .empty ∧ g ≠ .empty ∧ (s'.fs.sb.file i).name = g ∧
        ∀ j ≠ i, (s'.fs.sb.file j).name = (s.fs.sb.file j).name)

theorem FileInv.openedOn {g : CStr} {ret : Int} {i : Nat} {fs : State} (h : FileInv s)
    (hk : s.kfds ret = none) (h0 : 0 ≤ ret) (h1 : ret < MAX_HOOKFD)
    (ho : myfsOpen s.fs g = .ok (i, fs))
    (hs : s' = { s.kopen g ret (some i) with
      fs := fs
      hookfds := Function.update s.hookfds ret.toNat i
      curPos := Function.update s.curPos ret.toNat 0 }) : OpenedOn s s' g ret i := by
  have hkfds : s'.kfds = Function.update s.kfds ret (some ⟨s.opens, some g, some i⟩) := by
    rw [hs]
    simp only [Sys.kopen, h0, ↓reduceIte]
  have hcalls : s'.calls = s.calls := by
    rw [hs]
    simp only [Sys.kopen, h0, ↓reduceIte]
  have hfs : s'.fs = fs := by rw [hs]
  refine ⟨hk, by rw [hkfds,
    Function.update_self], fun fd d hfd => ?_, ?_, hcalls, fun fd d j hfd => ?_, fun j =>
      ⟨fun hj => ?_, fun hj => ?_⟩, ?_⟩
  · rw [hkfds, Function.update_of_ne hfd]
  · rw [hs]
    simp only [Sys.kopen, h0, ↓reduceIte]
  · rw [hs]
    exact reaches_openat h0 hfd
  · -- the new descriptor is in no call yet, so it reaches only its own slot
    rcases hj with ⟨-, -, hj⟩ | ⟨x, hx, -, hd, -⟩
    · rw [hs] at hj
      simp only [Function.update_self] at hj
      exact (Int.ofNat_inj.1 hj).symm
    · rw [hcalls] at hx
      exact absurd (h.callIds x hx _ hd (by simp)) (Nat.lt_irrefl _)
  · rw [hj]
    refine .inl ⟨h0, h1, ?_⟩
    rw [hs]
    exact Function.update_self ..
  · rw [hfs]
    obtain ⟨hi, ⟨hm, -, rfl⟩ | ⟨hno, he, -, rfl⟩⟩ := myfsOpen_ok ho
    · exact .inl ⟨hm, fun j => rfl⟩
    · refine .inr ⟨he, fun hg => ?_, ?_, fun j hj => ?_⟩
      · have := hno i hi
        rw [← Bool.not_eq_true, nameMatches_iff, hg] at this
        exact this List.nil_prefix
      · simp
      · simp [hj]

section
variable {g : CStr} {ret : Int} {i : Nat} {fs : State} (hn : OpenedOn s s' g ret i)
include hn

theorem OpenedOn.opensOwn (ho : myfsOpen s.fs g = .ok (i, fs)) (hown : OnOwnFile s') :
    OpensOwn s (.openat true g ret) := by
  intro k fs' hk'
  rw [ho] at hk'
  obtain ⟨rfl, rfl⟩ := Prod.mk.inj (Except.ok.inj hk')
  rcases hn.names with ⟨hm, hsame⟩ | ⟨he, hg, hi, -⟩
  · rcases hown ret _ g i hn.new rfl ((hn.reachesNew i).2 rfl) with hni | hni
    · exact .inl (by rw [← hsame, hni])
    · -- only the empty string matches an unnamed slot
      rw [hsame] at hni
      left
      apply Classical.byContradiction
      intro hne
      exact named_of_nameMatches (fun hge => hne (by rw [hni, hge])) hm hni
  · refine .inr ⟨he, fun fd d f hd hf hj => ?_⟩
    have hfd : fd ≠ ret := by
      rintro rfl
      rw [hn.unused] at hd
      cases hd
    rcases hown fd d f i ((hn.old fd d hfd).2 hd) hf ((hn.reaches fd d i hfd).2 hj) with hni | hni
    · rw [← hni, hi]
    · exact absurd (hi.symm.trans hni) hg

variable (h : FileInv s)
include h

theorem OpenedOn.onOwnFile (ho : myfsOpen s.fs g = .ok (i, fs))
    (hop : OpensOwn s (.openat true g ret)) :
    OnOwnFile s' := by
  intro fd d f j hd hf hj
  have hopi := hop i fs ho
  by_cases hfd : fd = ret
  · subst hfd
    rw [hn.new] at hd
    obtain rfl := Option.some.inj hd
    obtain rfl := Option.some.inj hf
    obtain rfl := (hn.reachesNew j).1 hj
    rcases hn.names with ⟨-, hsame⟩ | ⟨-, -, hi, -⟩
    · rw [hsame]
      exact hopi.imp id fun hr => hr.1
    · exact .inl hi
  · have hd' := (hn.old fd d hfd).1 hd
    have hj' := (hn.reaches fd d j hfd).1 hj
    rcases hn.names with ⟨-, hsame⟩ | ⟨he, hg, hi, hsame⟩
    · rw [hsame]
      exact h.own fd d f j hd' hf hj'
    · by_cases hji : j = i
      · subst hji
        rcases hopi with hopi | ⟨-, hopi⟩
        · exact absurd (hopi.symm.trans he) hg
        · exact .inl (by rw [hi, hopi fd d f hd' hf hj'])
      · rw [hsame j hji]
        exact h.own fd d f j hd' hf hj'

theorem OpenedOn.fileInv (hown : OnOwnFile s') : FileInv s' := by
  refine ⟨hown, fun fd d hd hp => ?_, fun x hx d hd hp => ?_⟩
  · rw [hn.opens]
    by_cases hfd : fd = ret
    · subst hfd
      rw [hn.new] at hd
      obtain rfl := Option.some.inj hd
      exact Nat.lt_succ_self _
    · exact Nat.lt_succ_of_lt (h.ids fd d ((hn.old fd d hfd).1 hd) hp)
  · rw [hn.opens]
    rw [hn.calls] at hx
    exact Nat.lt_succ_of_lt (h.callIds x hx d hd hp)

end

/-- An `openat` keeps every descriptor on its own file if and only if it opens its own. -/
theorem FileInv.openat {g : CStr} {ret : Int} {i : Nat} {fs : State} (h : FileInv s)
    (hk : s.kfds ret = none) (h0 : 0 ≤ ret) (h1 : ret < MAX_HOOKFD)
    (ho : myfsOpen s.fs g = .ok (i, fs))
    (hs : s' = { s.kopen g ret (some i) with
      fs := fs
      hookfds := Function.update s.hookfds ret.toNat i
      curPos := Function.update s.curPos ret.toNat 0 }) :
    (OnOwnFile s' ↔ OpensOwn s (.openat true g ret)) ∧ (OnOwnFile s' → FileInv s') := by
  have hn := h.openedOn hk h0 h1 ho hs
  exact ⟨⟨hn.opensOwn ho, hn.onOwnFile h ho⟩, hn.fileInv h⟩

/-- What one hooked call keeps. -/
theorem FileInv.step {a : Label} (h : FileInv s) (hh : HookedCall env a)
    (hs : Step env cfg s a s') :
    (OnOwnFile s' ↔ OpensOwn s a) ∧ (OnOwnFile s' → FileInv s') := by
  have hkeep : FileInv s' → OpensOwn s a →
      (OnOwnFile s' ↔ OpensOwn s a) ∧ (OnOwnFile s' → FileInv s') :=
    fun h1 h2 => ⟨iff_of_true h1.own h2, fun _ => h1⟩
  cases hs with
  | openat hk ho =>
    rcases hookOpenat_ok ho with ⟨hf, rfl⟩ | ⟨hf, h0, h1, i, fs, hopen, hs'⟩
    · rw [hh.2] at hf
      cases hf
    · exact h.openat (hk h0) h0 h1 hopen hs'
  | kopenat hk => exact absurd hh.1 Bool.false_ne_true
  | close hc =>
    obtain ⟨h0, h1, ⟨-, rfl⟩ | ⟨i, -, rfl⟩⟩ := hookClose_ok hc
    · exact hkeep (h.close rfl (fun _ _ => rfl) h0) trivial
    · exact hkeep (h.close rfl (fun n hn => Function.update_of_ne hn _ _) h0) trivial
  | kclose => exact absurd hh Bool.false_ne_true
  | io hi =>
    obtain ⟨h0, h1, ⟨-, rfl⟩ | ⟨i, fs, c, hfd, hio, rfl⟩⟩ := hookIo_ok hi
    · exact hkeep h trivial
    · obtain ⟨rfl, hci, -, -⟩ := ioImpl_ok hio
      exact hkeep (h.io (incrementRef_sb ..) h0 h1 hfd hci) trivial
  | kio => exact absurd hh Bool.false_ne_true
  | newfstatat _ => exact hkeep h trivial
  | knewfstatat => exact hkeep h trivial
  | unlink => exact hkeep (h.unlink _) trivial
  | kunlink => exact hkeep h trivial
  | resume hk hr => exact hkeep (h.resume hk hr) trivial
  | other => exact absurd hh id

/-- **Files.** In every run of hooked calls whose opens all meet the condition no I/O call through
an open descriptor works on a slot of another file, and a further hooked call keeps it so if and
only if it meets the condition. -/
theorem descriptor_keeps_file
    (h : (sys env cfg).ReachIf (fun s a => HookedCall env a ∧ OpensOwn s a) s) :
    OnOwnFile s ∧ ∀ a s', HookedCall env a → (sys env cfg).step s a s' →
      (OnOwnFile s' ↔ OpensOwn s a) := by
  have hi : FileInv s := by
    induction h with
    | init hi =>
      obtain ⟨-, -, hk, hc, -⟩ := hi
      refine ⟨fun fd d f i hd hf => ?_, fun fd d hd hp => absurd (hk fd d hd) hp, fun x hx => ?_⟩
      · rw [hk fd d hd] at hf
        cases hf
      · rw [hc] at hx
        cases hx
    | step _ hc hs ih =>
      obtain ⟨hiff, hinv⟩ := ih.step hc.1 hs
      exact hinv (hiff.2 hc.2)
  exact ⟨hi.own, fun a s' hh hs => (hi.step hh hs).1⟩

end

/-- A second file is opened while a write through the descriptor of the first one is in progress. -/
theorem descriptor_keeps_file_two : ∃ s n,
    (sys ⟨[⟨[102], by decide⟩, ⟨[103], by decide⟩], none⟩ ⟨1, 1, 8, 8⟩).ReachIf
      (fun s a => HookedCall ⟨[⟨[102], by decide⟩, ⟨[103], by decide⟩], none⟩ a ∧ OpensOwn s a) s ∧
    s.kfds 3 = some ⟨0, some ⟨[102], by decide⟩, some 0⟩ ∧
    Reaches s 3 ⟨0, some ⟨[102], by decide⟩, some 0⟩ 0 ∧
    s.kfds 4 = some ⟨n, some ⟨[103], by decide⟩, some 1⟩ ∧
    Reaches s 4 ⟨n, some ⟨[103], by decide⟩, some 1⟩ 1 ∧ OnOwnFile s := by
  let f : CStr := ⟨[102], by decide⟩
  let g : CStr := ⟨[103], by decide⟩
  let env : Env := ⟨[f, g], none⟩
  have hM := MAX_HOOKFD_eq
  have hF : 1 < MYFS_MAX_FILES := by rw [MYFS_MAX_FILES_eq]; decide
  have hlen : ∀ x : CStr, x.strlen = 1 → x.strlen < MYFS_MAX_NAMELEN := fun x hx => by
    rw [hx, MYFS_MAX_NAMELEN_eq]
    decide
  have hopen : OpensOwn Sys.start (.openat true f (3 : Nat)) := by
    intro i fs ho
    obtain ⟨hi, -⟩ := myfsOpen_ok ho
    exact .inr ⟨by simp only [Sys.start, fresh_file hi], fun fd d f' hd => by cases hd⟩
  have h1 : (sys env ⟨1, 1, 8, 8⟩).ReachIf (fun s a => HookedCall env a ∧ OpensOwn s a)
      (Sys.opened f 3) :=
    reach_opened ⟨⟨rfl, by decide⟩, hopen⟩ (by decide) (hlen f rfl) (by decide) (by omega)
  obtain ⟨s2, h2, hfs2, hhk2, hc2, hk2⟩ := reach_io (i := 0) h1 (.pwrite 0) 3 512 0 0 (fun _ => 0)
    ⟨rfl, trivial⟩ (by decide) (by omega) rfl rfl
  have hsb : s2.fs.sb = (openedFs f).sb := by
    rw [hfs2, incrementRef_sb]
    rfl
  have hslot : (s2.fs.sb.file 1).name = .empty := by
    rw [hsb, opened_file hF]
    rfl
  have hno : ∀ k < MYFS_MAX_FILES, nameMatches g (s2.fs.sb.file k) = false := by
    intro k hk
    rw [hsb, opened_file hk]
    by_cases h0 : k = 0
    · rw [if_pos h0]
      decide
    · exact nameMatches_empty (by decide) (if_neg h0)
  have ho := myfsOpen_new (s := s2.fs) g hF (hlen g rfl) hno hslot fun k hk => by
    rw [hsb, opened_file (by omega), if_pos (by omega)]
    decide
  -- no descriptor reaches slot 1
  have hown : OpensOwn s2 (.openat true g 4) := by
    intro i fs hi
    obtain ⟨rfl, -⟩ := Prod.mk.inj (Except.ok.inj (ho.symm.trans hi))
    refine .inr ⟨hslot, fun fd d f' hd hf' hr => ?_⟩
    have hfd : fd = 3 := by
      apply Classical.byContradiction
      intro hne
      rw [hk2] at hd
      simp [Sys.opened, hne] at hd
    rcases hr with ⟨-, -, h⟩ | ⟨x, hx, -, -, h⟩
    · rw [hfd, hhk2] at h
      cases h
    · rw [hc2] at hx
      obtain rfl := List.mem_singleton.1 hx
      cases h
  obtain ⟨s3, h3, -, hhk3, hc3, hk3⟩ := reach_openat h2 4 ⟨⟨rfl, by decide⟩, hown⟩
    (by rw [hk2]; rfl) (by decide) (by decide) (by omega) ho
  refine ⟨s3, s2.opens, h3, ?_,
    .inr ⟨_, by rw [hc3, hc2]; exact List.mem_cons_self, rfl, rfl, rfl⟩, by rw [hk3]; rfl,
    .inl ⟨by decide, by omega, by rw [hhk3]; rfl⟩, (descriptor_keeps_file h3).1⟩
  rw [hk3, hk2]
  rfl

/-- After `unlink` of its file and the open of another one a descriptor writes to the other file's
slot. -/
theorem descriptor_on_other_file : ∃ s x,
    (sys ⟨[⟨[102], by decide⟩, ⟨[103], by decide⟩], none⟩ ⟨1, 1, 8, 8⟩).ReachIf
      (fun _ a => HookedCall ⟨[⟨[102], by decide⟩, ⟨[103], by decide⟩], none⟩ a) s ∧
    s.kfds 3 = some ⟨0, some ⟨[102], by decide⟩, some 0⟩ ∧ s.calls = [x] ∧ x.fd = 3 ∧
    x.desc = s.kfds 3 ∧ x.call.kind = .write ∧ x.call.hookfd = 0 ∧
    (s.fs.sb.file 0).name = ⟨[103], by decide⟩ := by
  let f : CStr := ⟨[102], by decide⟩
  let g : CStr := ⟨[103], by decide⟩
  have hmax : (4 : Int) < MAX_HOOKFD := by rw [MAX_HOOKFD_eq]; decide
  have h1 : (sys ⟨[f, g], none⟩ ⟨1, 1, 8, 8⟩).ReachIf (fun _ a => HookedCall ⟨[f, g], none⟩ a)
      (Sys.opened f 3) := reach_opened ⟨rfl, by decide⟩ (by decide)
        (by rw [MYFS_MAX_NAMELEN_eq]; decide) (by decide) (by omega)
  obtain ⟨s2, h2, hfs2, hhk2, hc2, hk2⟩ := reach_unlink (f := f) h1 rfl
  have hempty : ∀ k < MYFS_MAX_FILES, (s2.fs.sb.file k).name = .empty := by
    intro k hk
    rw [hfs2, file_unlink]
    simp only [Sys.opened, opened_file hk, opened_fileStates]
    by_cases h0 : k = 0
    · subst h0
      rw [if_pos ⟨hk, by decide, trivial⟩]
      rfl
    · rw [if_neg, if_neg h0]
      rw [if_neg h0]
      exact fun hm => absurd hm.2.1 (by decide)
  have ho := myfsOpen_new (s := s2.fs) g MYFS_MAX_FILES_pos
    (by rw [MYFS_MAX_NAMELEN_eq]; decide) (fun k hk => nameMatches_empty (by decide) (hempty k hk))
    (hempty 0 MYFS_MAX_FILES_pos) (fun k hk => absurd hk (Nat.not_lt_zero k))
  obtain ⟨s3, h3, hfs3, hhk3, hc3, hk3⟩ := reach_openat h2 4 ⟨rfl, by decide⟩
    (by rw [hk2]; rfl) (by decide) (by decide) hmax ho
  obtain ⟨s4, h4, hfs4, -, hc4, hk4⟩ := reach_io (i := 0) h3 (.pwrite 0) 3 512 0 0 (fun _ => 0) rfl
    (by decide) (by omega)
    (by rw [hhk3, hhk2]; rfl) rfl
  have hd : s4.kfds 3 = some ⟨0, some f, some 0⟩ := by
    rw [hk4, hk3, hk2]
    rfl
  rw [hc3, hc2] at hc4
  refine ⟨s4, _, h4, hd, hc4, rfl, by rw [hk4], rfl, rfl, ?_⟩
  rw [hfs4, incrementRef_sb, hfs3, setFlags_sb, setFile_file, if_pos rfl]

end Hook
