import Staut.Zpoline.Maps
import Staut.Zpoline.Proof.Rewrite

/-!
# The program after `rewrite_code`

`rewrite_code_spec`: on the lines of `/proc/self/maps`, `rewrite_code` turns exactly the system call
instructions of the executable mappings into calls. The file is taken apart line by line
(`gets_line`), a line token by token (`strtok_text`), and what is left is a fold of
`disassemble_and_rewrite` over the mappings.
-/

set_option autoImplicit false

namespace Zpoline

open X86 CSem

/-! ## A line -/

theorem gets_line {n : Nat} {body rest : List UInt8} (h : ∀ c ∈ body, c ≠ 10)
    (hn : body.length < n) :
    gets n (body ++ 10 :: rest) = (body ++ [10], rest) := by
  induction body generalizing n with
  | nil =>
    obtain ⟨n, rfl⟩ := Nat.exists_eq_add_of_lt hn
    rfl
  | cons c body ih =>
    obtain ⟨n, rfl⟩ : ∃ m, n = m + 1 := ⟨n - 1, by simp only [List.length_cons] at hn; omega⟩
    have ih := ih (fun c hc => h c (List.mem_cons_of_mem _ hc)) (by simpa using hn)
    show (if c = 10 then _
      else (c :: (gets n (body ++ 10 :: rest)).1, (gets n (body ++ 10 :: rest)).2)) = _
    rw [if_neg (h c List.mem_cons_self), ih]
    rfl

theorem takeWhile_append_stop {p : UInt8 → Bool} {a : List UInt8} {c : UInt8} {b : List UInt8}
    (ha : ∀ x ∈ a, p x = true) (hc : p c = false) :
    (a ++ c :: b).takeWhile p = a ∧ (a ++ c :: b).dropWhile p = c :: b := by
  rw [List.takeWhile_append_of_pos ha, List.dropWhile_append_of_pos ha, List.takeWhile_cons_of_neg
    (by simp [hc]), List.dropWhile_cons_of_neg (by simp [hc]), List.append_nil]
  exact ⟨rfl, rfl⟩

/-- A token up to the next space. -/
theorem strtok_text {a b : List UInt8} (ha : ∀ c ∈ a, c ≠ 0x20) (hne : a ≠ []) :
    strtok (a ++ 0x20 :: b) = some (a, b) := by
  obtain ⟨c, a, rfl⟩ := List.exists_cons_of_ne_nil hne
  obtain ⟨h1, h2⟩ := takeWhile_append_stop (p := (· != 0x20)) (c := 0x20) (b := b)
    (fun x hx => bne_iff_ne.mpr (ha x hx)) (by decide)
  unfold strtok
  have hc : c ≠ 0x20 := ha c List.mem_cons_self
  rw [List.cons_append, List.dropWhile_cons_of_neg (by simpa using hc)]
  show (if c :: (a ++ 0x20 :: b) = [] then none else _) = _
  rw [if_neg (List.cons_ne_nil _ _), ← List.cons_append, h1, h2]
  rfl

namespace MapsLine

theorem addr_text (l : MapsLine) : ∀ c ∈ l.addr, c ≠ 0 ∧ c ≠ 10 ∧ c ≠ 0x20 := by
  have hx : ∀ c, Hex.isxdigit c = true → c ≠ 0 ∧ c ≠ 10 ∧ c ≠ 0x20 := fun c hc => by
    refine ⟨?_, ?_, ?_⟩ <;> rintro rfl <;> exact absurd hc (by decide)
  intro c hc
  rcases List.mem_append.mp hc with hc | hc
  · exact hx c (l.lo_hex c hc)
  rcases List.mem_cons.mp hc with rfl | hc
  · decide
  · exact hx c (l.hi_hex c hc)

/-- The line without its newline. -/
theorem text_eq (l : MapsLine) : ∃ body, l.text = body ++ [10] ∧ body.length < 4095 ∧ ∀ c ∈ body,
    c ≠ 0 ∧ c ≠ 10 := by
  refine ⟨l.addr ++ 0x20 :: (l.prot ++ 0x20 :: l.rest), ?_, ?_, fun c hc => ?_⟩
  · simp [text, lineText, addr]
  · have := l.len
    simp only [addr, List.length_append, List.length_cons]
    omega
  · simp only [List.mem_append, List.mem_cons] at hc
    rcases hc with hc | rfl | hc | rfl | hc
    · exact ⟨(l.addr_text c hc).1, (l.addr_text c hc).2.1⟩
    · decide
    · exact ⟨(l.prot_text c hc).1, (l.prot_text c hc).2.1⟩
    · decide
    · exact l.rest_text c hc

theorem range_addr (l : MapsLine) :
    range (l.addr.take 64) = (Hex.strtol l.lo, Hex.strtol l.hi) := by
  have hlen : l.addr.length ≤ 64 := by
    have := l.addr_len
    simp only [addr, List.length_append, List.length_cons]
    omega
  have hlo : ∀ c ∈ l.lo, (c != 0x2d) = true :=
    fun c hc => bne_iff_ne.mpr (Hex.xdigit_ne c (l.lo_hex c hc)).2.1
  obtain ⟨h1, h2⟩ := takeWhile_append_stop (c := 0x2d) (b := l.hi) hlo (by decide)
  unfold range
  rw [List.take_of_length_le hlen]
  unfold addr
  rw [h1, h2, List.tail_cons]

theorem target_eq (l : MapsLine) : l.target =
    (decide (0x78 ∈ l.prot) && Hex.value l.lo != 0 && !strstr l.text stackText && !strstr l.text
      vsyscallText) := rfl

end MapsLine

variable {D : Disassembler} {sc : Addr}

/-- One line is rewritten if it is a target. -/
theorem rewrite_line_text (l : MapsLine) (w : Rewriting) : rewrite_line D sc l.text w =
    if l.target then disassemble_and_rewrite D sc l.start l.size w else some w := by
  unfold rewrite_line
  rw [l.target_eq]
  by_cases hs : strstr l.text stackText = false ∧ strstr l.text vsyscallText = false
  swap
  · rw [if_neg hs, if_neg]
    intro h
    simp only [Bool.and_eq_true, Bool.not_eq_true'] at h
    exact hs ⟨h.1.2, h.2⟩
  have h1 : strtok l.text = some (l.addr, l.prot ++ 0x20 :: (l.rest ++ [10])) :=
    strtok_text (fun c hc => (l.addr_text c hc).2.2) (by simp)
  have h2 : strtok (l.prot ++ 0x20 :: (l.rest ++ [10])) = some (l.prot, l.rest ++ [10]) :=
    strtok_text (fun c hc => (l.prot_text c hc).2.2) l.prot_ne
  rw [if_pos hs, h1]
  simp only [h2, hs.1, hs.2]
  unfold rewrite_range
  simp only [l.range_addr]
  by_cases hx : (0x78 : UInt8) ∈ l.prot
  swap
  · rw [if_neg hx, if_neg (by simp [hx])]
  rw [if_pos hx]
  by_cases h0 : Hex.value l.lo = 0
  · rw [Hex.strtol_hex l.lo_hex (by omega), if_pos (by omega), if_neg (by simp [h0])]
  · have htarget : l.target = true := by
      rw [l.target_eq]
      simp [hx, h0, hs]
    have hle := l.le
    have hlt := l.hi_lt htarget
    have hsize : u64 ((Hex.value l.hi : Int) - Hex.value l.lo) = l.size := by
      unfold u64 MapsLine.size
      omega
    rw [Hex.strtol_hex l.lo_hex (by omega), Hex.strtol_hex l.hi_hex (by omega), if_neg (by omega),
      if_pos (by simp [hx, h0]), hsize]
    rfl

/-- The whole file. -/
theorem rewrite_lines_text (ls : List MapsLine) (fuel : Nat) (w : Rewriting)
    (hf : (mapsText ls).length ≤ fuel) :
    rewrite_lines D sc fuel (mapsText ls) w =
      (ls.filter MapsLine.target).foldlM (fun w l => disassemble_and_rewrite D sc l.start l.size w)
        w := by
  induction ls generalizing fuel w with
  | nil => cases fuel <;> rfl
  | cons l ls ih =>
    obtain ⟨body, htext, hlen, hbody⟩ := l.text_eq
    have hcons : mapsText (l :: ls) = body ++ 10 :: mapsText ls := by
      show l.text ++ mapsText ls = _
      rw [htext, List.append_assoc, List.singleton_append]
    rw [hcons, List.length_append, List.length_cons] at hf
    obtain ⟨fuel, rfl⟩ : ∃ n, fuel = n + 1 := ⟨fuel - 1, by omega⟩
    have hget : fgets 4096 (mapsText (l :: ls)) = some (l.text, mapsText ls) := by
      unfold fgets
      rw [hcons, if_neg (by simp), gets_line (fun c hc => (hbody c hc).2) hlen, htext]
    have hnul : l.text.takeWhile (· != 0) = l.text := by
      refine List.takeWhile_eq_self_iff.mpr fun c hc => bne_iff_ne.mpr ?_
      rw [htext] at hc
      rcases List.mem_append.mp hc with hc | hc
      · exact (hbody c hc).1
      · rw [List.mem_singleton.mp hc]
        decide
    unfold rewrite_lines
    simp only [hget, hnul, rewrite_line_text]
    rw [List.filter_cons]
    split
    · rw [List.foldlM_cons]
      exact congrArg _ (funext fun w => ih fuel w (by omega))
    · exact ih fuel w (by omega)

/-! ## All regions -/

theorem start_toNat {l : MapsLine} (ht : l.target = true) (k : Nat) (hk : k ≤ l.size) :
    (l.start + BitVec.ofNat 64 k).toNat = Hex.value l.lo + k := by
  have hle := l.le
  have hlt := l.hi_lt ht
  unfold MapsLine.size at hk
  unfold MapsLine.start
  bv_omega

theorem start_size {l : MapsLine} (ht : l.target = true) : l.start.toNat + l.size ≤ 2 ^ 48 := by
  have hle := l.le
  have hlt := l.hi_lt ht
  unfold MapsLine.size MapsLine.start
  bv_omega

variable {mem : Memory}

/-- The instructions stand inside of their mapping. -/
theorem sitesOf_within {l : MapsLine} (ht : l.target = true) {a : Addr}
    (h : a ∈ sitesOf D mem sc l) :
    Hex.value l.lo ≤ a.toNat ∧ a.toNat + 2 ≤ Hex.value l.hi := by
  obtain ⟨o, ho, rfl⟩ := List.mem_map.mp h
  have h2 := (sites_spaced D mem l.start l.size sc l.size 0).2 o ho
  have hle := l.le
  rw [start_toNat ht o (by omega)]
  unfold MapsLine.size at h2
  omega

/-- The lines as the kernel prints them: in order, and no two overlap. -/
def Sorted (ls : List MapsLine) : Prop := ls.Pairwise fun l l' => Hex.value l.hi ≤ Hex.value l'.lo

/-- `w'` is `w` with `call *%rax` at these addresses, recorded in the bitmap, and otherwise as it
was. -/
structure Rewritten (addrs : List Addr) (w w' : Rewriting) : Prop where
  site : ∀ a ∈ addrs, decode w'.code a = some (.callReg .rax, a + 2)
  other : ∀ x, (∀ a ∈ addrs, x ≠ a ∧ x ≠ a + 1) → w'.code x = w.code x
  bm : ∀ u, is_bitmap_set w'.bm u = true ↔ (∃ a ∈ addrs, u = a.toNat) ∨ is_bitmap_set w.bm u = true

theorem regions_exact {rs : List MapsLine} (ht : ∀ l ∈ rs, l.target = true) (hs : Sorted rs)
    (w : Rewriting) (hm : ∀ l ∈ rs, ∀ k < l.size, w.code (l.start + BitVec.ofNat 64 k) = mem
      (l.start + BitVec.ofNat 64 k)) :
    ∃ w', rs.foldlM (fun w l => disassemble_and_rewrite D sc l.start l.size w) w = some w' ∧
      (∀ a ∈ rs.flatMap (sitesOf D mem sc), w'.code a = 0xff ∧ w'.code (a + 1) = 0xd0) ∧
      (∀ x, (∀ a ∈ rs.flatMap (sitesOf D mem sc), x ≠ a ∧ x ≠ a + 1) → w'.code x = w.code x) ∧
      ∀ u, is_bitmap_set w'.bm u = true ↔
        (∃ a ∈ rs.flatMap (sitesOf D mem sc), u = a.toNat) ∨ is_bitmap_set w.bm u = true := by
  induction rs generalizing w with
  | nil => exact ⟨w, rfl, by simp, fun _ _ => rfl, by simp⟩
  | cons l rs ih =>
    obtain ⟨hl, hrs⟩ := List.pairwise_cons.mp hs
    have htl := ht l List.mem_cons_self
    have htrs : ∀ l' ∈ rs, l'.target = true := fun l' hl' => ht l' (List.mem_cons_of_mem _ hl')
    obtain ⟨hsp, hle⟩ := sites_spaced D mem l.start l.size sc l.size 0
    have hsweep : disassemble_and_rewrite D sc l.start l.size w =
        some (patches l.start w (sites D mem sc l.start l.size)) :=
      sweep_spec D mem l.start l.size sc (start_size htl) l.size 0 w (by omega) fun k _ hk =>
        hm l List.mem_cons_self k hk
    have hin : ∀ l' ∈ rs, ∀ a ∈ sitesOf D mem sc l', Hex.value l.hi ≤ a.toNat ∧
      a.toNat + 2 ≤ 2 ^ 48 :=
      fun l' hl' a ha => by
        have h1 := hl l' hl'
        have h2 := sitesOf_within (htrs l' hl') ha
        have h3 := l'.hi_lt (htrs l' hl')
        omega
    have hother : ∀ x, (∀ a ∈ sitesOf D mem sc l, x ≠ a ∧ x ≠ a + 1) →
        (patches l.start w (sites D mem sc l.start l.size)).code x = w.code x := fun x hx =>
      patches_of_ne l.start _ fun o ho => hx _ (List.mem_map_of_mem ho)
    obtain ⟨w', hw, h1, h2, h3⟩ := ih htrs hrs (patches l.start w (sites D mem sc l.start l.size))
      fun l' hl' k hk => by
      refine (hother _ fun a ha => ?_).trans (hm l' (List.mem_cons_of_mem _ hl') k hk)
      have h4 := sitesOf_within htl ha
      have h5 := hl l' hl'
      have h6 := start_toNat (htrs l' hl') k (by omega)
      have h7 := l'.hi_lt (htrs l' hl')
      have h8 := l'.le
      generalize l'.start + BitVec.ofNat 64 k = x at h6 ⊢
      constructor <;> bv_omega
    refine ⟨w', ?_, fun a ha => ?_, fun x hx => ?_, fun u => ?_⟩
    · rw [List.foldlM_cons, hsweep]
      exact hw
    · rw [List.flatMap_cons] at ha
      rcases List.mem_append.mp ha with ha | ha
      swap
      · exact h1 a ha
      have hwithin := sitesOf_within htl ha
      have hfar : ∀ b ∈ rs.flatMap (sitesOf D mem sc), (a ≠ b ∧ a ≠ b + 1) ∧ a + 1 ≠ b ∧
        a + 1 ≠ b + 1 :=
        fun b hb => by
          obtain ⟨l', hl', hb⟩ := List.mem_flatMap.mp hb
          have h4 := hin l' hl' b hb
          refine ⟨⟨?_, ?_⟩, ?_, ?_⟩ <;> bv_omega
      rw [h2 a fun b hb => (hfar b hb).1, h2 (a + 1) fun b hb => (hfar b hb).2]
      obtain ⟨o, ho, rfl⟩ := List.mem_map.mp ha
      exact patches_of_mem l.start l.size (start_size htl) hsp hle ho
    · rw [List.flatMap_cons] at hx
      refine (h2 x fun a ha => hx a (List.mem_append_right _ ha)).trans ?_
      exact hother x fun a ha => hx a (List.mem_append_left _ ha)
    · rw [h3, patches_bm, List.flatMap_cons]
      simp only [List.mem_append, or_and_right, exists_or, sitesOf, List.mem_map]
      constructor
      · rintro (h | ⟨o, ho, rfl⟩ | h)
        · exact .inl (.inr h)
        · exact .inl (.inl ⟨_, ⟨o, ho, rfl⟩, rfl⟩)
        · exact .inr h
      · rintro ((⟨_, ⟨o, ho, rfl⟩, rfl⟩ | h) | h)
        · exact .inr (.inl ⟨o, ho, rfl⟩)
        · exact .inl h
        · exact .inr (.inr h)

theorem rewrite_code_spec (D : Disassembler) (sc : Addr) {ls : List MapsLine} (hs : Sorted ls)
    (w : Rewriting) :
    ∃ w', rewrite_code D sc (mapsText ls) w = some w' ∧
    Rewritten (allSites D w.code sc ls) w w' := by
  obtain ⟨w', hw, h1, h2, h3⟩ := regions_exact (fun l hl => (List.mem_filter.mp hl).2)
    (List.Pairwise.filter _ hs) w fun _ _ _ _ => rfl
  exact ⟨w', (rewrite_lines_text ls _ w (Nat.le_refl _)).trans hw,
    fun a ha => decode_call_rax (h1 a ha).1 (h1 a ha).2, h2, h3⟩

end Zpoline
