import Staut.Hook.Open
import Staut.Hook.Proof.Spec

/-!
# Which opens are redirected, and what a failed one leaves

* `parse_hooked_filenames` finds the fields (`names_length`) but never leaves the last name
  terminated (`names_unterminated`). With zeroed memory behind the names one or two fields are read
  right, and from three on the second one is not (`names_zeroed_iff`): its length is taken from the
  start of the string.
* `is_hooked_filename` decides by the name (`hooked_by_name_iff`), except that for a name that ends
  too early behind the directory it compares bytes behind the terminator.
* `hook_openat` of a hooked name spoils something at every error the kernel returns
  (`failed_open_spoils`).
-/

set_option autoImplicit false

namespace Hook

open CSem Myfs

/-! ## Blocks -/

theorem strncpy_length (bs : List UInt8) : strncpy bs bs.length = bs := by
  simp [strncpy]

theorem fill_malloc {n k : Nat} {bs : List UInt8} (h : n = bs.length + k) :
    (malloc n).fill bs = bs.map some ++ malloc k := by
  unfold Block.fill malloc
  rw [List.drop_replicate, h, Nat.add_sub_cancel_left]

/-- Reading over bytes none of which is a NUL. -/
theorem str_append {bs : List UInt8} (h : 0 ∉ bs) (b : Block) :
    Block.str (bs.map some ++ b) = b.str.map (bs ++ ·) := by
  induction bs with
  | nil => simp
  | cons c cs ih =>
    obtain ⟨hc, hcs⟩ := not_or.1 (fun hm => h (List.mem_cons.2 hm))
    simp only [List.map_cons, List.cons_append, Block.str]
    rw [if_neg (Ne.symm hc), ih hcs, Option.map_map]
    rfl

theorem zeroed_append (bs : List UInt8) (b : Block) :
    Block.zeroed (bs.map some ++ b) = bs.map some ++ b.zeroed := by
  simp [Block.zeroed]

theorem nul_free_drop (s : CStr) (n : Nat) : 0 ∉ s.bytes.drop n := fun h =>
  s.nul_free (List.mem_of_mem_drop h)

/-! ## `parse_hooked_filenames` -/

/-- The last name: all that is left of the string, and a byte that nobody wrote. -/
theorem names_last (s : CStr) : ∃ bs : List UInt8, 0 ∉ bs ∧
    (parseHookedFilenames s).getLast? = some (bs.map some ++ malloc 1) := by
  refine ⟨s.bytes.drop (parseLoop s s.bytes 0 ⟨0, []⟩).start, nul_free_drop s _, ?_⟩
  have hn : s.strlen - (parseLoop s s.bytes 0 ⟨0, []⟩).start =
      (s.bytes.drop (parseLoop s s.bytes 0 ⟨0, []⟩).start).length := by
    rw [List.length_drop]
    rfl
  unfold parseHookedFilenames
  simp only [List.getLast?_concat]
  rw [hn, strncpy_length, fill_malloc rfl]

/-- **The names are never parsed as written**: the last one has no terminator. -/
theorem names_unterminated (s : CStr) : ¬ ParsedAsWritten s := by
  intro h
  obtain ⟨bs, hbs, hl⟩ := names_last s
  have hlast := congrArg List.getLast? h
  rw [List.getLast?_map, List.getLast?_map, hl, Option.map_some, str_append hbs] at hlast
  cases hf : (fields s).getLast? with
  | none => rw [hf] at hlast; cases hlast
  | some f => rw [hf] at hlast; cases hlast

/-- "a:b:c": no name has a terminator, and the second one is "b:c". -/
theorem second_name_runs_on : ¬ ParsedAsWritten ⟨[97, 58, 98, 58, 99], by decide⟩ ∧
    parseHookedFilenames ⟨[97, 58, 98, 58, 99], by decide⟩ = [[some 97, none],
      [some 98, some 58, some 99, none], [some 99, none]] := by
  unfold ParsedAsWritten
  decide

theorem parseLoop_append {s : CStr} {f : List UInt8} (hf : colon ∉ f) (r : List UInt8) (i : Nat)
    (p : Parse) : parseLoop s (f ++ r) i p = parseLoop s r (i + f.length) p := by
  induction f generalizing i with
  | nil => rfl
  | cons c cs ih =>
    obtain ⟨hc, hcs⟩ := not_or.1 (fun hm => hf (List.mem_cons.2 hm))
    simp only [List.cons_append, parseLoop, parseRound, if_neg (Ne.symm hc), ih hcs,
      List.length_cons]
    rw [Nat.add_assoc, Nat.add_comm 1]

theorem parseLoop_colon (s : CStr) (r : List UInt8) (i : Nat) (p : Parse) :
    parseLoop s (colon :: r) i p = parseLoop s r (i + 1)
      ⟨i + 1, p.names ++ [(malloc (i + 1)).fill (strncpy (s.bytes.drop p.start) i)]⟩ := by
  simp only [parseLoop, parseRound, ↓reduceIte]

/-- The names found so far stay. -/
theorem parseLoop_names (s : CStr) (cs : List UInt8) (i : Nat) (p : Parse) :
    ∃ bs, (parseLoop s cs i p).names = p.names ++ bs ∧ bs.length = cs.count colon := by
  induction cs generalizing i p with
  | nil => exact ⟨[], by simp [parseLoop]⟩
  | cons c cs ih =>
    obtain ⟨bs, hbs, hlen⟩ := ih (i + 1) (parseRound s i c p)
    simp only [parseLoop, hbs]
    unfold parseRound
    by_cases hc : c = colon
    · rw [if_pos hc]
      exact ⟨_ :: bs, by rw [List.append_assoc]; rfl, by
        rw [List.length_cons, hlen, hc, List.count_cons_self]⟩
    · rw [if_neg hc]
      exact ⟨bs, rfl, by rw [hlen, List.count_cons_of_ne hc]⟩

theorem splitOn_length (cs : List UInt8) : (cs.splitOn colon).length = cs.count colon + 1 := by
  induction cs with
  | nil => rfl
  | cons c cs ih =>
    rw [List.splitOn_cons_eq_if_modifyHead]
    by_cases hc : c = colon
    · rw [if_pos (by simpa using hc), List.length_cons, ih, hc, List.count_cons_self]
    · rw [if_neg (by simpa using hc), List.length_modifyHead, ih, List.count_cons_of_ne hc]

/-- `n_hooked_filenames` is the number of fields. -/
theorem names_length (s : CStr) : (parseHookedFilenames s).length = (fields s).length := by
  obtain ⟨bs, hbs, hlen⟩ := parseLoop_names s s.bytes 0 ⟨0, []⟩
  unfold parseHookedFilenames fields
  simp only [hbs, List.length_append, List.length_singleton, splitOn_length, hlen, List.length_nil]
  omega

/-! ## Zeroed memory behind the names -/

/-- The string in a zeroed block that was filled with `bs` and more. -/
theorem zeroed_str {bs : List UInt8} (h : 0 ∉ bs) (k : Nat) :
    (Block.zeroed (bs.map some ++ malloc (k + 1))).str = some bs := by
  rw [zeroed_append, str_append h]
  simp [malloc, List.replicate_succ, Block.zeroed, Block.str]

theorem zeroed_longer {f t bs : List UInt8} (h : 0 ∉ f) (hbs : f ++ colon :: t = bs) (b : Block) :
    (Block.zeroed (bs.map some ++ b)).str ≠ some f := by
  intro he
  have hc : 0 ∉ f ++ [colon] := fun hm => by
    rcases List.mem_append.1 hm with hm | hm
    · exact h hm
    · exact absurd (List.mem_singleton.1 hm) (by decide)
  have hsplit : bs.map some ++ b = (f ++ [colon]).map some ++ (t.map some ++ b) := by
    rw [← hbs]
    simp
  rw [hsplit, zeroed_append, str_append hc] at he
  obtain ⟨x, -, hx⟩ := Option.map_eq_some_iff.1 he
  have hlen := congrArg List.length hx
  simp only [List.length_append, List.length_singleton] at hlen
  omega

/-- A string without a colon, and the first field of one with colons. -/
theorem fields_single {s : CStr} (h : colon ∉ s.bytes) : fields s = [s.bytes] :=
  List.splitOn_eq_singleton h

theorem fields_cons {s : CStr} {f r : List UInt8} (h : s.bytes = f ++ colon :: r) (hf : colon ∉ f) :
    fields s = f :: r.splitOn colon := by
  unfold fields
  rw [h, List.splitOn_append_cons_self_of_not_mem hf]

section
variable {s : CStr} {f r : List UInt8}

theorem names_single (h : colon ∉ s.bytes) :
    parseHookedFilenames s = [s.bytes.map some ++ malloc 1] := by
  have hl := parseLoop_append (s := s) h [] 0 ⟨0, []⟩
  rw [List.append_nil] at hl
  unfold parseHookedFilenames
  simp only [hl, parseLoop, Nat.sub_zero, List.drop_zero, List.nil_append, CStr.strlen,
    strncpy_length, fill_malloc rfl]

/-- The first name is as long as its field. -/
theorem names_cons (h : s.bytes = f ++ colon :: r) (hf : colon ∉ f) :
    parseLoop s s.bytes 0 ⟨0, []⟩ =
      parseLoop s r (f.length + 1) ⟨f.length + 1, [f.map some ++ malloc 1]⟩ := by
  have hcopy : strncpy s.bytes f.length = f := by
    unfold strncpy
    rw [h, List.take_left, Nat.sub_eq_zero_of_le (by simp)]
    simp
  rw [h, parseLoop_append hf, Nat.zero_add, parseLoop_colon]
  simp only [List.nil_append, List.drop_zero, hcopy, fill_malloc rfl]

theorem names_pair (h : s.bytes = f ++ colon :: r) (hf : colon ∉ f) (hr : colon ∉ r) :
    parseHookedFilenames s = [f.map some ++ malloc 1, r.map some ++ malloc 1] := by
  have hl := parseLoop_append (s := s) hr [] (f.length + 1) ⟨f.length + 1, [f.map some ++ malloc 1]⟩
  rw [List.append_nil] at hl
  have hd : s.bytes.drop (f.length + 1) = r := by
    rw [h, ← List.drop_drop]
    simp
  have hn : s.strlen - (f.length + 1) = r.length := by
    rw [← hd, List.length_drop]
    rfl
  unfold parseHookedFilenames
  simp only [names_cons h hf, hl, parseLoop, hn, hd, strncpy_length, fill_malloc rfl]
  rfl

/-- The second of three names: as many bytes as there are before its colon in the whole string. -/
theorem names_second {g : List UInt8} (h : s.bytes = f ++ colon :: (g ++ colon :: r))
    (hf : colon ∉ f) (hg : colon ∉ g) : ∃ t b, (parseHookedFilenames s)[1]? =
      some ((g ++ colon :: t).map some ++ b) := by
  have hd : s.bytes.drop (f.length + 1) = g ++ colon :: r := by
    rw [h, ← List.drop_drop]
    simp
  obtain ⟨n, hn⟩ : ∃ n, n = f.length + 1 + g.length := ⟨_, rfl⟩
  obtain ⟨bs, hbs, -⟩ := parseLoop_names s r (n + 1)
    ⟨n + 1, [f.map some ++ malloc 1, (malloc (n + 1)).fill (strncpy (g ++ colon :: r) n)]⟩
  have hloop : parseLoop s s.bytes 0 ⟨0, []⟩ = parseLoop s r (n + 1) ⟨n + 1,
      [f.map some ++ malloc 1, (malloc (n + 1)).fill (strncpy (g ++ colon :: r) n)]⟩ := by
    rw [names_cons h hf, parseLoop_append hg, parseLoop_colon, ← hn]
    simp only [hd, List.singleton_append]
  have hcut : strncpy (g ++ colon :: r) n =
      g ++ colon :: (r.take f.length ++ List.replicate (f.length - r.length) 0) := by
    unfold strncpy
    rw [List.take_append, List.take_of_length_le (by omega),
      show n - g.length = f.length + 1 by omega, List.take_succ_cons, List.append_assoc,
      List.cons_append]
    congr 4
    simp only [List.length_append, List.length_cons]
    omega
  refine ⟨r.take f.length ++ List.replicate (f.length - r.length) 0,
    (malloc (n + 1)).drop (strncpy (g ++ colon :: r) n).length, ?_⟩
  unfold parseHookedFilenames
  simp only [hloop, hbs, List.cons_append, List.getElem?_cons_succ, List.getElem?_cons_zero]
  unfold Block.fill
  rw [hcut]

end

/-- With zeroed memory behind the names, exactly one or two fields are read as written. -/
theorem names_zeroed_iff (s : CStr) :
    (parseHookedFilenames s).map (fun b => b.zeroed.str) = (fields s).map some ↔
      (fields s).length ≤ 2 := by
  by_cases h0 : colon ∈ s.bytes
  · obtain ⟨f, r, hs, hf⟩ := List.eq_append_cons_of_mem h0
    have hz : 0 ∉ f ∧ 0 ∉ r := by
      have := s.nul_free
      rw [hs] at this
      simp only [List.mem_append, List.mem_cons, not_or] at this
      exact ⟨this.1, this.2.2⟩
    by_cases h1 : colon ∈ r
    · obtain ⟨g, r', hr, hg⟩ := List.eq_append_cons_of_mem h1
      rw [hr] at hs hz
      have hfields : fields s = f :: g :: r'.splitOn colon := by
        rw [fields_cons hs hf, List.splitOn_append_cons_self_of_not_mem hg]
      constructor
      · intro he
        obtain ⟨t, b, hb⟩ := names_second hs hf hg
        have h1 := congrArg (·[1]?) he
        simp only [List.getElem?_map, hb, hfields, Option.map_some, List.getElem?_cons_succ,
          List.getElem?_cons_zero, Option.some.injEq] at h1
        exact absurd h1 (zeroed_longer (fun hm => hz.2 (List.mem_append_left _ hm)) rfl b)
      · intro hle
        rw [hfields] at hle
        have := List.length_pos_of_ne_nil (List.splitOn_ne_nil colon r')
        simp only [List.length_cons] at hle
        omega
    · have hfields : fields s = [f, r] := by
        rw [fields_cons hs hf, List.splitOn_eq_singleton h1]
      rw [names_pair hs hf h1, hfields]
      simp [zeroed_str hz.1, zeroed_str hz.2]
  · rw [names_single h0, fields_single h0]
    simp [zeroed_str s.nul_free]

/-! ## `is_hooked_filename` -/

theorem suffix_test (rest : List UInt8) :
    strncmp sstSuffix.length sstSuffix rest = 0 ↔ sstSuffix <+: rest :=
  strncmp_prefix rest (by decide)

/-- A name in the directory with the suffix in its place. -/
theorem table_file_iff (d filename : CStr) :
    (d.bytes <+: filename.bytes ∧ d.strlen + sstFilenameLen ≤ filename.strlen ∧
        sstSuffix <+: filename.bytes.drop (d.strlen + sstFilenameLen)) ↔
      ∃ x y, x.length = sstFilenameLen ∧ filename.bytes = d.bytes ++ x ++ sstSuffix ++ y := by
  constructor
  · rintro ⟨⟨r, hr⟩, hlen, y, hy⟩
    have hdrop : filename.bytes.drop (d.strlen + sstFilenameLen) = r.drop sstFilenameLen := by
      rw [← hr, ← List.drop_drop, CStr.strlen, List.drop_left]
    refine ⟨r.take sstFilenameLen, y, ?_, ?_⟩
    · have hl : filename.strlen = d.strlen + r.length := by
        rw [CStr.strlen, ← hr, List.length_append]
        rfl
      rw [List.length_take]
      omega
    · rw [hdrop] at hy
      rw [← hr, List.append_assoc, List.append_assoc, hy, List.take_append_drop]
  · rintro ⟨x, y, hx, he⟩
    refine ⟨⟨x ++ sstSuffix ++ y, by rw [he]; simp only [List.append_assoc]⟩, ?_, y, ?_⟩
    · simp only [CStr.strlen, he, List.length_append]
      omega
    · rw [he, List.append_assoc, List.append_assoc, ← List.drop_drop, CStr.strlen, List.drop_left,
        ← hx, List.drop_left]

/-- **The name alone decides**, without a look behind its terminator, exactly when it does not end
too early behind the directory. -/
theorem hooked_by_name_iff (env : Env) (filename : CStr) :
    (∃ b, isHookedFilename env filename = .ok b ∧ (b = true ↔ Selected env filename)) ↔
      ¬ TooShort env filename := by
  have hnames : (env.hookedFilenames.any fun h => decide (h.bytes <+: filename.bytes)) = true ↔
      ∃ h ∈ env.hookedFilenames, h.bytes <+: filename.bytes := by
    simp only [List.any_eq_true, decide_eq_true_eq]
  cases hd : env.hookedRocksdbDir with
  | none =>
    simp only [isHookedFilename, TooShort, Selected, hd, Option.mem_def, reduceCtorEq, false_and,
      exists_false, not_false_eq_true, or_false, Except.ok.injEq, exists_eq_left',
      strncmp_strlen, hnames]
  | some d =>
    simp only [isHookedFilename, TooShort, Selected, hd, Option.mem_def, Option.some.injEq,
      exists_eq_left', ← table_file_iff, strncmp_strlen]
    by_cases hp : d.bytes <+: filename.bytes
    · by_cases hl : filename.strlen < d.strlen + sstFilenameLen
      · simp [hp, hl]
      · simp only [hp, hl, ↓reduceIte, Except.ok.injEq, exists_eq_left', Bool.or_eq_true,
          decide_eq_true_eq, suffix_test, hnames, true_and, and_false, not_false_eq_true,
          Nat.le_of_not_lt hl]
    · simp only [hp, ↓reduceIte, Except.ok.injEq, exists_eq_left', hnames, false_and, or_false,
        not_false_eq_true]

/-- The file "d/C" in the directory "d": the suffix is looked for 5 bytes behind the terminator. -/
theorem short_name_overread :
    TooShort ⟨[], some ⟨[100], by decide⟩⟩ ⟨[100, 47, 67], by decide⟩ ∧
      isHookedFilename ⟨[], some ⟨[100], by decide⟩⟩ ⟨[100, 47, 67], by decide⟩ =
        .error .outOfBounds := by
  exact ⟨⟨⟨[100], by decide⟩, rfl, by decide, by decide⟩, by decide⟩

/-! ## A failed open -/

theorem stores_open {env : Env} {fs fs' : State} {filename : CStr} {ret : Int} {i : Nat}
    (hh : isHookedFilename env filename = .ok true) (h1 : ret < MAX_HOOKFD)
    (ho : myfsOpen fs filename = .ok (i, fs')) : hookOpenatStores env fs filename ret =
      .ok ⟨fs', [⟨.hookfds, ret, i⟩, ⟨.curPos, ret, 0⟩], ret⟩ := by
  unfold hookOpenatStores
  rw [hh]
  simp only [bind, Except.bind, h1, ho, ↓reduceIte, pure, Except.pure]

/-- `Hook.hookOpenat` is `hook_openat` as long as every write has an entry to go to. -/
theorem hookOpenat_stores {env : Env} {s : Sys} {filename : CStr} {ret : Int} :
    (∃ s', hookOpenat env s filename ret = .ok s') ↔
      ∃ o, hookOpenatStores env s.fs filename ret = .ok o ∧ ∀ st ∈ o.stores, st.Within := by
  constructor
  · rintro ⟨s', h⟩
    rcases hookOpenat_ok h with ⟨hh, -⟩ | ⟨hh, h0, h1, i, fs, ho, -⟩
    · exact ⟨⟨s.fs, [], ret⟩, by rw [hookOpenatStores, hh]; rfl, by simp⟩
    · exact ⟨_, stores_open hh h1 ho, by simp [TableStore.Within, h0, h1]⟩
  · rintro ⟨o, h, hw⟩
    unfold hookOpenatStores at h
    cases hh : isHookedFilename env filename with
    | error e =>
      rw [hh] at h
      cases h
    | ok b =>
      rw [hh] at h
      cases b with
      | false => exact ⟨_, by rw [hookOpenat, hh]; rfl⟩
      | true =>
        by_cases h1 : ret < MAX_HOOKFD
        · cases ho : myfsOpen s.fs filename with
          | error e => simp [bind, Except.bind, h1, ho] at h
          | ok p =>
            simp only [bind, Except.bind, h1, ho, ↓reduceIte, pure, Except.pure,
              Except.ok.injEq] at h
            have h0 : 0 ≤ ret := (hw ⟨.hookfds, ret, p.1⟩ (by rw [← h]; simp)).1
            exact ⟨_, hookOpenat_hooked hh h0 h1 ho⟩
        · simp [bind, Except.bind, h1, throw, throwThe, MonadExceptOf.throw] at h

/-- The writes for a hooked name, whatever the kernel returned. -/
theorem stores_hooked {env : Env} {fs : State} {filename : CStr} {ret : Int} {o : Opened}
    (hh : isHookedFilename env filename = .ok true)
    (h : hookOpenatStores env fs filename ret = .ok o) :
    ∃ i fs', myfsOpen fs filename = .ok (i, fs') ∧
      o = ⟨fs', [⟨.hookfds, ret, i⟩, ⟨.curPos, ret, 0⟩], ret⟩ := by
  unfold hookOpenatStores at h
  rw [hh] at h
  by_cases h1 : ret < MAX_HOOKFD
  · cases ho : myfsOpen fs filename with
    | error e => simp [bind, Except.bind, h1, ho] at h
    | ok p =>
      simp only [bind, Except.bind, h1, ho, ↓reduceIte, pure, Except.pure, Except.ok.injEq] at h
      exact ⟨p.1, p.2, rfl, h.symm⟩
  · simp [bind, Except.bind, h1, throw, throwThe, MonadExceptOf.throw] at h

/-- **A failed open of a hooked name always spoils something**: the result is taken for a
descriptor. -/
theorem failed_open_spoils {env : Env} {filename : CStr}
    (hh : isHookedFilename env filename = .ok true) (s : Sys) {errno : Nat} (he : 0 < errno) :
    ¬ OpenHarmless env s filename (-errno) := by
  rintro ⟨o, ho, -, -, hst⟩
  obtain ⟨i, fs, -, rfl⟩ := stores_hooked hh ho
  have hw := (hst ⟨.hookfds, -errno, i⟩ (by simp)).1.1
  dsimp only at hw
  omega

theorem failed_open_spoils_enoent : ¬ OpenHarmless ⟨[⟨[97], by decide⟩], none⟩ Sys.start
    ⟨[97], by decide⟩ (-(2 : Nat)) :=
  failed_open_spoils (by decide) Sys.start (by decide)

/-- A new process opens "a", a hooked name, and the kernel says ENOENT: the name is in the file
store now, and the two writes are for a descriptor -2. -/
theorem failed_open_creates : ∃ o, hookOpenatStores ⟨[⟨[97], by decide⟩], none⟩ Sys.start.fs
      ⟨[97], by decide⟩ (-2) = .ok o ∧ o.stores = [⟨.hookfds, -2, 0⟩, ⟨.curPos, -2, 0⟩] ∧
    (Sys.start.fs.sb.file 0).name = .empty ∧ (o.fs.sb.file 0).name = ⟨[97], by decide⟩ ∧
    (∀ cfg, (sys ⟨[⟨[97], by decide⟩], none⟩ cfg).Reach Sys.start) ∧
    ¬ OpenHarmless ⟨[⟨[97], by decide⟩], none⟩ Sys.start ⟨[97], by decide⟩ (-2) := by
  have hstart : Sys.start.fs = freshFs := rfl
  have ho : myfsOpen freshFs ⟨[97], by decide⟩ = .ok (0, openedFs ⟨[97], by decide⟩) :=
    open_fresh (by decide) (by rw [MYFS_MAX_NAMELEN_eq]; decide)
  have hs : hookOpenatStores ⟨[⟨[97], by decide⟩], none⟩ Sys.start.fs ⟨[97], by decide⟩ (-2) =
      .ok ⟨openedFs ⟨[97], by decide⟩, [⟨.hookfds, -2, 0⟩, ⟨.curPos, -2, 0⟩], -2⟩ := by
    rw [hstart]
    exact stores_open (by decide) (by rw [MAX_HOOKFD_eq]; decide) ho
  have hopen : ((openedFs ⟨[97], by decide⟩).sb.file 0).name = ⟨[97], by decide⟩ := by
    rw [opened_file MYFS_MAX_FILES_pos]
    rfl
  refine ⟨_, hs, rfl, ?_, hopen, fun cfg => .init (start_init _ cfg), ?_⟩
  · rw [hstart, fresh_file MYFS_MAX_FILES_pos]
  · rintro ⟨o, ho', -, hfs, -⟩
    obtain rfl := Except.ok.inj (hs.symm.trans ho')
    have hname := congrArg (fun fs : State => (fs.sb.file 0).name) hfs
    simp only [hopen, hstart, fresh_file MYFS_MAX_FILES_pos] at hname
    exact absurd hname (by decide)

end Hook
