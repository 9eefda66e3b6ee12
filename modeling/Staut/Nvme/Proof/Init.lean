import Staut.Nvme.Init

/-!
# Complete initialisation

`initLoop_eq`: a run of `nvme_init` that returns has called `__nvme_init` for the windows at which
its scan stands (`seen`), one after the other, so the table can be read off them (`foldl_qps`). A
window is the field of its drive when that has 12 characters, and then the string in `pci_addr` is
the field when the byte behind happens to be 0 (`terminated_iff`).
-/

set_option autoImplicit false

namespace Nvme

open CSem Fields

/-- The suffixes at which rounds of the loop start, with `j` drives done. -/
def seen (ND j : Nat) (s : List UInt8) : List (List UInt8) :=
  if ND ≤ j then starts isSep s else (starts isSep s).take (ND - j)

/-- What a round that does not end the process does. -/
def InitState.round (cfg : Cfg) (after : Nat → UInt8) (env : Nat → DriveEnv) (st : InitState)
    (w : List UInt8) : InitState where
  qps d q :=
    if (env st.j).resource = true ∧ (env st.j).mapped = true ∧ d = st.j ∧ q < cfg.NQ then
      some (pciAddr after w (env st.j))
    else st.qps d q
  j := st.j + 1
  past := st.past || decide (w.length + 1 < 12)

section
variable {cfg : Cfg} {after : Nat → UInt8} {env : Nat → DriveEnv} {s : CStr} {st st' : InitState}
  {w f : List UInt8} {e : DriveEnv}

@[simp] theorem seen_nil (ND j : Nat) : seen ND j [] = [] := by simp [seen]

theorem seen_cons (ND j : Nat) (c : UInt8) (cs : List UInt8) : seen ND j (c :: cs) =
    (c :: cs) :: if j + 1 = ND then [] else seen ND (j + 1) (behind isSep (c :: cs)) := by
  unfold seen
  rw [starts_cons]
  rcases Nat.lt_or_ge j ND with hlt | hge
  · rw [if_neg (by omega), show ND - j = (ND - (j + 1)) + 1 by omega, List.take_succ_cons]
    split
    · rename_i heq
      rw [heq, Nat.sub_self, List.take_zero]
    · rw [if_neg (by omega)]
  · rw [if_pos hge, if_neg (by omega), if_pos (by omega)]

/-- `__nvme_init` makes all queue pairs or none. -/
theorem nvmeInitDrive_eq {qps qps' : Nat → Nat → Option (List UInt8)} {did : Nat}
    {addr : List UInt8} {r : Int} (h : nvmeInitDrive cfg qps did addr e = some (r, qps'))
    (d q : Nat) : qps' d q =
      if e.resource = true ∧ e.mapped = true ∧ d = did ∧ q < cfg.NQ then some addr
        else qps d q := by
  unfold nvmeInitDrive at h
  split at h
  · rename_i hr
    simp only [Option.some.injEq, Prod.mk.injEq] at h
    rw [← h.2, if_neg (fun hc => by simp [hc.1] at hr)]
  · rename_i hr
    split at h
    · rename_i hm
      simp only [Option.some.injEq, Prod.mk.injEq] at h
      rw [← h.2, if_neg (fun hc => by simp [hc.2.1] at hm)]
    · rename_i hm
      split at h
      · cases h
      · split at h
        · cases h
        · simp only [Option.some.injEq, Prod.mk.injEq] at h
          rw [← h.2]
          simp only [Bool.not_eq_true, Bool.not_eq_false'] at hr hm
          simp [hr, hm]

/-- `nvme_init` returns when the driver has every drive, and every controller that can be reached
answers. -/
theorem initLoop_returns (henv : ∀ j, (env j).uio = true ∧ (env j).csts = 0 ∧ (env j).ready = true)
    (l : List UInt8) (st : InitState) : ∃ st', initLoop cfg after env l st = some st' := by
  induction hn : l.length using Nat.strong_induction_on generalizing l st with
  | h n ih =>
    cases l with
    | nil => exact ⟨st, by rw [initLoop]⟩
    | cons c cs =>
      obtain ⟨huio, hcsts, hready⟩ := henv st.j
      rw [initLoop, if_pos huio]
      have hinit : ∃ r, nvmeInitDrive cfg st.qps st.j (pciAddr after (c :: cs) (env st.j))
        (env st.j) =
          some r := by
        unfold nvmeInitDrive
        split
        · exact ⟨_, rfl⟩
        · split
          · exact ⟨_, rfl⟩
          · simp [hcsts, hready]
      obtain ⟨r, hr⟩ := hinit
      rw [hr]
      dsimp only
      split
      · exact ⟨_, rfl⟩
      · exact ih _ (hn ▸ behind_lt c cs) _ _ rfl

theorem initLoop_eq {l : List UInt8} (h : initLoop cfg after env l st = some st') :
    st' = (seen cfg.ND st.j l).foldl (InitState.round cfg after env) st := by
  induction hn : l.length using Nat.strong_induction_on generalizing l st with
  | h n ih =>
    cases l with
    | nil =>
      rw [initLoop] at h
      rw [seen_nil, List.foldl_nil, Option.some.inj h]
    | cons c cs =>
      rw [initLoop] at h
      split at h
      · split at h
        · cases h
        · rename_i r qps hd
          have hround : InitState.mk qps (st.j + 1)
            (st.past || decide ((c :: cs).length + 1 < 12)) =
              st.round cfg after env (c :: cs) := by
            have hqps := nvmeInitDrive_eq hd
            simp only [InitState.round, InitState.mk.injEq, and_true]
            funext d q
            exact hqps d q
          rw [seen_cons, List.foldl_cons]
          dsimp only at h
          split at h
          · rename_i hj
            rw [if_pos hj, List.foldl_nil, ← hround, Option.some.inj h]
          · rename_i hj
            rw [hround] at h
            rw [if_neg hj]
            exact ih _ (hn ▸ behind_lt c cs) h rfl
      · cases h

/-! ## The windows -/

theorem foldl_qps (ws : List (List UInt8)) (st : InitState) (d q : Nat) :
    (ws.foldl (InitState.round cfg after env) st).qps d q =
      (if st.j ≤ d then ws[d - st.j]? else none).elim (st.qps d q) fun w =>
        if (env d).resource = true ∧ (env d).mapped = true ∧ q < cfg.NQ then
          some (pciAddr after w (env d))
        else st.qps d q := by
  induction ws generalizing st with
  | nil => simp
  | cons w ws ih =>
    rw [List.foldl_cons, ih]
    rcases Nat.lt_trichotomy d st.j with hlt | heq | hgt
    · have h1 : ¬ st.j ≤ d := by omega
      have h2 : ¬ st.j + 1 ≤ d := by omega
      have h3 : d ≠ st.j := by omega
      simp [InitState.round, h1, h2, h3]
    · subst heq
      have h2 : ¬ st.j + 1 ≤ st.j := Nat.not_succ_le_self _
      simp [InitState.round, h2]
    · have h1 : st.j ≤ d := by omega
      have h2 : st.j + 1 ≤ d := by omega
      have h3 : d ≠ st.j := by omega
      have h4 : d - st.j = (d - (st.j + 1)) + 1 := by omega
      simp [InitState.round, h1, h2, h3, h4]

theorem foldl_past (ws : List (List UInt8)) (st : InitState) :
    (ws.foldl (InitState.round cfg after env) st).past = false ↔
      st.past = false ∧ ∀ w ∈ ws, 11 ≤ w.length := by
  induction ws generalizing st with
  | nil => simp
  | cons w ws ih =>
    rw [List.foldl_cons, ih]
    simp only [InitState.round, Bool.or_eq_false_iff, decide_eq_false_iff_not, List.forall_mem_cons]
    constructor
    · intro ⟨⟨hp, hw⟩, hws⟩
      exact ⟨hp, by omega, hws⟩
    · intro ⟨hp, hw, hws⟩
      exact ⟨⟨hp, by omega⟩, hws⟩

theorem terminated_append {u : List UInt8} (hu : 0 ∉ u) (v : List UInt8) :
    terminated (u ++ 0 :: v) = some u := by
  have hpos : ∀ b ∈ u, decide (b ≠ 0) = true := fun b hb => by
    simpa using fun h0 : b = 0 => hu (h0 ▸ hb)
  rw [terminated, if_pos (by simp), List.takeWhile_append_of_pos hpos,
    List.takeWhile_cons_of_neg (by simp), List.append_nil]

/-- The string in `pci_addr` has 12 characters when the window is inside the string and the last
byte is 0. -/
theorem terminated_iff (hw : 0 ∉ w) : (terminated (pciAddr after w e) = some f ∧ f.length = 12) ↔
    12 ≤ w.length ∧ e.last = 0 ∧ f = w.take 12 := by
  have htake : 0 ∉ w.take 12 := fun h => hw (List.mem_of_mem_take h)
  unfold pciAddr
  rw [List.take_append]
  rcases Nat.lt_or_ge w.length 12 with hlt | hge
  · -- the NUL of the string is in the window
    rw [List.take_of_length_le hlt.le, show 12 - w.length = (11 - w.length) + 1 by
      omega, List.take_succ_cons, List.append_assoc, List.cons_append, terminated_append hw]
    constructor
    · intro ⟨hf, h12⟩
      rw [← Option.some.inj hf] at h12
      omega
    · intro ⟨h12, _⟩
      omega
  · rw [Nat.sub_eq_zero_of_le hge, List.take_zero, List.append_nil]
    have hlen : (w.take 12).length = 12 := by rw [List.length_take, Nat.min_eq_left hge]
    by_cases hl : e.last = 0
    · rw [hl, terminated_append htake]
      constructor
      · intro ⟨hf, _⟩
        exact ⟨hge, rfl, (Option.some.inj hf).symm⟩
      · intro ⟨_, _, hf⟩
        rw [hf]
        exact ⟨rfl, hlen⟩
    · have hnone : terminated (w.take 12 ++ [e.last]) = none := by
        rw [terminated, if_neg]
        intro hm
        rcases List.mem_append.1 hm with hm | hm
        · exact htake hm
        · exact hl (List.mem_singleton.1 hm).symm
      rw [hnone]
      constructor
      · intro ⟨hf, _⟩
        cases hf
      · intro ⟨_, h0, _⟩
        exact absurd h0 hl

/-! ## The table and the condition -/

theorem nul_not_mem {l : List UInt8} (h : l ∈ starts isSep s.bytes) : 0 ∉ l := fun h0 =>
  s.nul_free ((starts_suffix h).subset h0)

/-- What the table holds at the end. -/
theorem nvmeInit_qps (h : nvmeInit cfg after env s = some st) (did q : Nat) (a : List UInt8) :
    st.qps did q = some a ↔ ∃ w, (seen cfg.ND 0 s.bytes)[did]? = some w ∧
    (env did).resource = true ∧
      (env did).mapped = true ∧ q < cfg.NQ ∧ a = pciAddr after w (env did) := by
  rw [initLoop_eq h, foldl_qps, if_pos (Nat.zero_le did), Nat.sub_zero]
  cases (seen cfg.ND 0 s.bytes)[did]? with
  | none => simp
  | some w =>
    simp only [Option.some.injEq, exists_eq_left']
    split
    · rename_i hc
      constructor
      · intro ha
        exact ⟨hc.1, hc.2.1, hc.2.2, (Option.some.inj ha).symm⟩
      · intro ha
        rw [ha.2.2.2]
        rfl
    · rename_i hc
      constructor
      · intro ha
        cases ha
      · intro ha
        exact absurd ⟨ha.1, ha.2.1, ha.2.2.1⟩ hc

theorem nvmeInit_past (h : nvmeInit cfg after env s = some st) :
    st.past = false ↔ ∀ w ∈ seen cfg.ND 0 s.bytes, 11 ≤ w.length := by
  rw [initLoop_eq h, foldl_past]
  simp

/-- The window of a drive is the start of its field. -/
theorem starts_getElem (hs : ∀ c ∈ s.bytes.head?, isSep c = false) {did : Nat} :
    (fields isSep s.bytes)[did]? = some f ↔
      ∃ w, (starts isSep s.bytes)[did]? = some w ∧ w.takeWhile (fun b => !isSep b) = f := by
  rw [← starts_takeWhile hs, List.getElem?_map, Option.map_eq_some_iff]

theorem take_takeWhile {p : UInt8 → Bool} (h : (w.takeWhile p).length = 12) :
    12 ≤ w.length ∧ w.take 12 = w.takeWhile p := by
  have hpre := List.takeWhile_prefix p (l := w)
  have hle := hpre.length_le
  refine ⟨by omega, ?_⟩
  rw [← h]
  exact (List.prefix_iff_eq_take.1 hpre).symm

theorem seen_getElem {did : Nat} (hd : did < cfg.ND) :
    (seen cfg.ND 0 s.bytes)[did]? = some w ↔ (starts isSep s.bytes)[did]? = some w := by
  have hseen : seen cfg.ND 0 s.bytes = (starts isSep s.bytes).take cfg.ND := if_neg (by omega)
  rw [hseen, List.getElem?_take_of_lt hd]

/-- A drive that is ready was found by its own field. -/
theorem DrivesReady.drive (h : nvmeInit cfg after env s = some st)
    (hr : DrivesReady cfg s st) {did : Nat} (hd : did < cfg.ND) :
    ∃ w f, (starts isSep s.bytes)[did]? = some w ∧
      (fields isSep s.bytes)[did]? = some f ∧ f.length = 12 ∧ f = w.take 12 ∧ (env did).last = 0 ∧
      (env did).resource = true ∧ (env did).mapped = true := by
  obtain ⟨f, hf, hlen, hq⟩ := hr.drives did hd
  obtain ⟨a, ha, hterm⟩ := hq 0 (Nat.zero_le _)
  obtain ⟨w, hw, hres, hmap, -, rfl⟩ := (nvmeInit_qps h did 0 a).1 ha
  rw [seen_getElem hd] at hw
  obtain ⟨-, hlast, hfw⟩ := (terminated_iff (nul_not_mem (List.mem_of_getElem? hw))).1 ⟨hterm, hlen⟩
  exact ⟨w, f, hw, hf, hlen, hfw, hlast, hres, hmap⟩

/-- The first window starts the string, and is a field. -/
theorem DrivesReady.head (h : nvmeInit cfg after env s = some st) (hr : DrivesReady cfg s st)
    (hND : 0 < cfg.ND) : ∀ c ∈ s.bytes.head?, isSep c = false := by
  intro c hc
  obtain ⟨w, f, hw, hf, hlen, hfw, -⟩ := hr.drive h hND
  cases hb : s.bytes with
  | nil => simp [hb] at hc
  | cons b bs =>
    rw [hb, starts_cons, List.getElem?_cons_zero] at hw
    rw [hb] at hc
    refine sep_not_mem (List.mem_of_getElem? hf) c ?_
    rw [hfw, ← Option.some.inj hw, ← Option.some.inj hc]
    simp

/-- The window of a field of 12 characters. -/
theorem window_of_field (hs : ∀ c ∈ s.bytes.head?, isSep c = false) {did : Nat}
    (hf : (fields isSep s.bytes)[did]? = some f) (hlen : f.length = 12) :
    ∃ w, (starts isSep s.bytes)[did]? = some w ∧ 12 ≤ w.length ∧ f = w.take 12 := by
  obtain ⟨w, hw, hwf⟩ := (starts_getElem hs).1 hf
  obtain ⟨h12, htake⟩ := take_takeWhile (by rw [hwf, hlen])
  exact ⟨w, hw, h12, by rw [htake, hwf]⟩

/-- **Initialisation is complete**: when `nvme_init` returns, every drive has its queue pairs, made
with its own field, exactly when the fields are there, `pci_addr` was terminated by chance, and no
drive failed. -/
theorem drivesReady_iff (h : nvmeInit cfg after env s = some st) :
    DrivesReady cfg s st ↔ DriveIdsOk cfg env s := by
  have hpast := nvmeInit_past h
  unfold DriveIdsOk
  split
  · rename_i hND
    have hseen : seen cfg.ND 0 s.bytes = starts isSep s.bytes := if_pos (by omega)
    rw [hseen] at hpast
    constructor
    · intro hr
      exact hpast.1 hr.inside
    · intro hw
      exact ⟨fun did hd => by omega, hpast.2 hw⟩
  · rename_i hND
    constructor
    · intro hr
      refine ⟨hr.head h (Nat.pos_of_ne_zero hND), fun did hd => ?_⟩
      obtain ⟨w, f, -, hf, hlen, -, hrest⟩ := hr.drive h hd
      exact ⟨⟨f, hf, hlen⟩, hrest⟩
    · intro ⟨hs, hok⟩
      refine ⟨fun did hd => ?_, hpast.2 fun w hw => ?_⟩
      · obtain ⟨⟨f, hf, hlen⟩, hlast, hres, hmap⟩ := hok did hd
        obtain ⟨w, hw, h12, hfw⟩ := window_of_field hs hf hlen
        refine ⟨f, hf, hlen, fun q hq => ⟨pciAddr after w (env did), ?_, ?_⟩⟩
        · exact (nvmeInit_qps h did q _).2
            ⟨w, (seen_getElem hd).2 hw, hres, hmap, Nat.lt_succ_of_le hq, rfl⟩
        · exact ((terminated_iff (nul_not_mem (List.mem_of_getElem? hw))).2 ⟨h12, hlast, hfw⟩).1
      · obtain ⟨did, hd⟩ := List.getElem?_of_mem hw
        have hlt : did < cfg.ND := by
          have hlen := (List.getElem?_eq_some_iff.1 hd).1
          rw [seen, if_neg (by omega), List.length_take] at hlen
          omega
        obtain ⟨⟨f, hf, hlen⟩, -⟩ := hok did hlt
        obtain ⟨w', hw', h12, -⟩ := window_of_field hs hf hlen
        rw [(seen_getElem hlt).1 hd] at hw'
        rw [Option.some.inj hw']
        omega

end

/-! ## One drive in `DRIVE_IDS` -/

/-- "0000:01:00.0". -/
def oneDrive : CStr := ⟨[48, 48, 48, 48, 58, 48, 49, 58, 48, 48, 46, 48], by decide⟩

/-- The drive answers, if its registers can be opened; `last` is left in `pci_addr[12]`. -/
def driveEnv (last : UInt8) (resource : Bool) : Nat → DriveEnv :=
  fun _ => ⟨last, true, resource, true, 0, true⟩

/-- One core. -/
def initCfg (ND : Nat) : Cfg where
  N_CORE := 1
  ND := ND
  READ_DEG := 1
  WRITE_DEG := 1

theorem nvmeInit_oneDrive (ND : Nat) (last : UInt8) (resource : Bool) :
    ∃ st, nvmeInit (initCfg ND) (fun _ => 0) (driveEnv last resource) oneDrive = some st :=
  initLoop_returns (fun _ => ⟨rfl, rfl, rfl⟩) _ _

theorem drivesReady_iff_one : ∃ st,
    nvmeInit (initCfg 1) (fun _ => 0) (driveEnv 0 true) oneDrive = some st ∧
    DrivesReady (initCfg 1) oneDrive st := by
  obtain ⟨st, h⟩ := nvmeInit_oneDrive 1 0 true
  refine ⟨st, h, (drivesReady_iff h).2 ?_⟩
  refine (if_neg (by decide)).mpr ⟨fun c hc => ?_, fun did hd => ?_⟩
  · rw [← Option.some.inj hc]
    rfl
  have h0 : did = 0 := Nat.lt_one_iff.1 hd
  rw [h0]
  exact ⟨⟨oneDrive.bytes, by decide, rfl⟩, rfl, rfl, rfl⟩

/-- `nvme_init` returns in each of these cases, and the only drive named, or the second one, is not
ready: `resource0` cannot be opened; there are two drives and one field; something is left in
`pci_addr[12]`. -/
theorem nvmeInit_not_ready :
    (∃ st, nvmeInit (initCfg 1) (fun _ => 0) (driveEnv 0 false) oneDrive = some st ∧
      st.qps 0 0 = none ∧ ¬ DrivesReady (initCfg 1) oneDrive st) ∧
    (∃ st, nvmeInit (initCfg 2) (fun _ => 0) (driveEnv 0 true) oneDrive = some st ∧
      st.qps 1 0 = none ∧ ¬ DrivesReady (initCfg 2) oneDrive st) ∧
    ∃ st, nvmeInit (initCfg 1) (fun _ => 0) (driveEnv 49 true) oneDrive = some st ∧
      ¬ DrivesReady (initCfg 1) oneDrive st := by
  have hnone : ∀ {ND last resource st did}, nvmeInit (initCfg ND) (fun _ => 0)
    (driveEnv last resource)
      oneDrive = some st → did < ND → st.qps did 0 = none →
        ¬ DrivesReady (initCfg ND) oneDrive st := by
    intro ND last resource st did _ hd hq hr
    obtain ⟨f, -, -, hall⟩ := hr.drives did hd
    obtain ⟨a, ha, -⟩ := hall 0 (Nat.zero_le _)
    rw [hq] at ha
    cases ha
  refine ⟨?_, ?_, ?_⟩
  · obtain ⟨st, h⟩ := nvmeInit_oneDrive 1 0 false
    have hq : st.qps 0 0 = none := by
      refine Option.eq_none_iff_forall_ne_some.2 fun a ha => ?_
      obtain ⟨w, -, hres, -⟩ := (nvmeInit_qps h _ _ _).1 ha
      cases hres
    exact ⟨st, h, hq, hnone h (by decide) hq⟩
  · obtain ⟨st, h⟩ := nvmeInit_oneDrive 2 0 true
    have hq : st.qps 1 0 = none := by
      refine Option.eq_none_iff_forall_ne_some.2 fun a ha => ?_
      obtain ⟨w, hw, -⟩ := (nvmeInit_qps h _ _ _).1 ha
      have hseen : seen (initCfg 2).ND 0 oneDrive.bytes = [oneDrive.bytes] := by
        rw [show oneDrive.bytes = 48 :: oneDrive.bytes.tail from rfl, seen_cons,
          show behind isSep (48 :: oneDrive.bytes.tail) = [] by decide, seen_nil]
        rfl
      rw [hseen] at hw
      cases hw
    exact ⟨st, h, hq, hnone h (by decide) hq⟩
  · obtain ⟨st, h⟩ := nvmeInit_oneDrive 1 49 true
    refine ⟨st, h, fun hr => ?_⟩
    obtain ⟨f, -, hlen, hall⟩ := hr.drives 0 (by decide)
    obtain ⟨a, ha, hterm⟩ := hall 0 (Nat.zero_le _)
    obtain ⟨w, hw, -, -, -, rfl⟩ := (nvmeInit_qps h _ _ _).1 ha
    have hwm : w ∈ starts isSep oneDrive.bytes := List.mem_of_mem_take (List.mem_of_getElem? hw)
    obtain ⟨-, hlast, -⟩ := (terminated_iff (nul_not_mem hwm)).1 ⟨hterm, hlen⟩
    cases hlast

end Nvme
