import CallAtlas.Proofs.Ir.Records
import CallAtlas.Proofs.Ir.RoundTrip

/-!
# Written names, read back

A name is written bare, as a number or in quotes with escapes. Which names are found again depends
on the characters that the reader takes in numbers: `survives` says it, for references in a text and
for the global of a line (`names_read_back_iff`).
-/

namespace CallAtlas.Ir

open Text List

variable {c : Char} {s r : List Char} {name : String}

/-! ## Escapes -/

theorem unescape_escape (s : List Char) :
    unescape (escape s) = s.flatMap fun c => unescape (escapeChar c) := by
  induction s with
  | nil => rfl
  | cons c s ih =>
    rw [escape, flatMap_cons, unescape_escapeChar, flatMap_cons, ← ih]
    rfl

theorem unescape_code : ∀ n < 0x100, unescape ('\\' :: upperHexDigits 2 n) = [Char.ofNat n] := by
  decide +kernel

theorem length_unescape_code {n : Nat} (hn : 0x100 ≤ n) :
    1 < (unescape ('\\' :: upperHexDigits 2 n)).length := by
  have hlen : 2 < (upperHexDigits 2 n).length := by
    have h1 : (Nat.toDigits 16 (n / 16 / 16)).length ≠ 0 := by simp
    have h2 : (Nat.toDigits 16 n).length = (Nat.toDigits 16 (n / 16 / 16)).length + 2 := by
      rw [Nat.toDigits_eq_if (by omega), if_neg (by omega), Nat.toDigits_eq_if (by omega),
        if_neg (by omega)]
      simp
    simp only [upperHexDigits, hexDigits, length_map, length_append]
    omega
  obtain ⟨a, b, u, hu, hx⟩ := upperHexDigits_eq n
  obtain ⟨x, hx'⟩ := Option.isSome_iff_exists.1 (hexValue?_of_isUpperHex (hx a (by simp)))
  obtain ⟨y, hy⟩ := Option.isSome_iff_exists.1 (hexValue?_of_isUpperHex (hx b (by simp)))
  have hp := unescape_plain (u := u) (fun d hd => (isUpperHex_ne (hx d (by simp [hd]))).2.1) []
  rw [append_nil] at hp
  rw [hu] at hlen ⊢
  simp only [unescape, hx', hy, hp, length_cons, length_append] at hlen ⊢
  omega

/-- Whether a character is written as itself or by a number of two digits. -/
def isCoded (c : Char) : Bool := isPrintable c || codeOf c < 0x100

theorem unescape_escapeChar_of_isCoded (h : isCoded c) : unescape (escapeChar c) = [c] := by
  unfold escapeChar
  split_ifs with he
  · have hn : codeOf c < 0x100 := by
      rcases Bool.or_eq_true _ _ ▸ h with hp | hn
      · rcases he with rfl | rfl | he
        · decide
        · decide
        · exact absurd hp he
      · simpa using hn
    have hc : codeOf c = c.toNat := by
      unfold codeOf isUnpaired at hn ⊢
      split_ifs at hn ⊢ with hu
      · simp only [Bool.and_eq_true, decide_eq_true_eq] at hu
        omega
      · rfl
    rw [unescape_code _ hn, hc, Char.ofNat_toNat]
  · exact unescape_cons (fun h => he (.inr (.inl h))) []

theorem length_unescape_escapeChar (h : isCoded c = false) :
    1 < (unescape (escapeChar c)).length := by
  rw [isCoded, Bool.or_eq_false_iff, decide_eq_false_iff_not, Nat.not_lt] at h
  rw [escapeChar, if_pos (.inr (.inr (by simp [h.1])))]
  exact length_unescape_code h.2

/-- A name is legible if each of its characters is written as itself or by a number of two
digits. -/
theorem legible_iff : Legible s ↔ s.all isCoded := by
  have hlen (s : List Char) : s.length ≤ (unescape (escape s)).length := by
    rw [unescape_escape]
    induction s with
    | nil => exact Nat.le_refl 0
    | cons c s ih =>
      have hc : 1 ≤ (unescape (escapeChar c)).length := by
        cases h : isCoded c with
        | true => rw [unescape_escapeChar_of_isCoded h]; rfl
        | false => exact (length_unescape_escapeChar h).le
      rw [flatMap_cons, length_append, length_cons]
      omega
  unfold Legible
  induction s with
  | nil => exact iff_of_true rfl rfl
  | cons c s ih =>
    have hs := hlen s
    rw [unescape_escape] at ih hs ⊢
    rw [flatMap_cons, all_cons]
    cases h : isCoded c with
    | true =>
      rw [unescape_escapeChar_of_isCoded h, singleton_append, cons_inj_right, Bool.true_and]
      exact ih
    | false =>
      refine iff_of_false (fun he => ?_) (by simp)
      have hl := length_unescape_escapeChar h
      have := congrArg length he
      rw [length_append, length_cons] at this
      omega

/-! ## Names in texts -/

/-- Whether a name is found again in its written form, where numbers consist of the characters that
`digit` takes. A bare name may not end in a line feed. -/
def survives (digit : Char → Bool) (name : List Char) : Bool :=
  if isBareName name then name.getLast? ≠ some '\n'
  else if isNumberName name then name.all digit
  else name.all isCoded

/-- What a scan finds again of a name that stands without quotes. -/
theorem survives_of_unquoted {digit : Char → Bool}
    {bare : List Char → Option (List Char × List Char)}
    (hbare : ∀ {n r}, bareName? s = some (n, r) → bare s = some (n, r))
    (hnumber : isNumberName s → (bare s = some (s, []) ↔ s.all digit))
    (hw : (isBareName s || isNumberName s) = true) : bare s = some (s, []) ↔ survives digit s := by
  unfold survives
  split_ifs with hb hn
  · obtain ⟨n, r, h, hs, rfl | rfl⟩ := isBareName_split hb
    · rw [append_nil] at hs
      rw [hbare h, ← hs, decide_eq_true_eq]
      refine iff_of_true rfl fun hl => ?_
      exact absurd (bareName?_chars h _ (hs ▸ mem_of_getLast? hl)) (by decide)
    · rw [hbare h, Option.some.injEq, Prod.mk.injEq, decide_eq_true_eq]
      exact iff_of_false (fun h => nomatch h.2) fun hl => hl (by rw [hs, getLast?_concat])
  · exact hnumber hn
  · rw [Bool.not_eq_true] at hb hn
    rw [hb, hn] at hw
    cases hw

theorem run?_eq_self {p : Char → Bool} (hne : s ≠ []) : run? p s = some (s, []) ↔ s.all p := by
  rw [all_eq_true]
  constructor
  · exact fun h c hc => (run?_eq_some h).2.1 c hc
  · intro h
    have := run?_append (r := []) hne h rfl
    rwa [append_nil] at this

theorem survives_quoted {digit : Char → Bool} (hw : ¬ (isBareName s || isNumberName s) = true) :
    survives digit s ↔ Legible s := by
  rw [Bool.or_eq_true, not_or] at hw
  rw [legible_iff, survives, if_neg hw.1, if_neg hw.2]

theorem globalName?_number (h : isNumberName s) :
    globalName? s = some (s, []) ↔ s.all isDecimal := by
  obtain ⟨hne, hs⟩ := isNumberName_iff.1 h
  have hb : bareName? s = none := by
    rw [bareName?_eq_none]
    cases s with
    | nil => rfl
    | cons c s => exact isNameStart_of_isDigitSign (hs c mem_cons_self)
  rw [globalName?, hb, Option.orElse_none, run?_eq_self hne]

theorem globalRefs_quoteName (name : String) :
    globalRefs (quoteName name "@") = [name] ↔ survives isDecimal name.toList := by
  have hnames (w : Spelling) : [String.ofList w.name] = [name] ↔ w.name = name.toList := by
    rw [singleton_inj, ← String.toList_inj, String.toList_ofList]
  rw [globalRefs_eq, refNames, toList_quoteName "@" name (c := '@') rfl,
    references_writeName (show globalReader.read = _ from rfl) bareForm_globalName? (by decide)]
  by_cases hw : (isBareName name.toList || isNumberName name.toList) = true
  · rw [writeName_unquoted hw, spelling?_unquoted hw,
      ← survives_of_unquoted (fun h => by rw [globalName?, h]; rfl) globalName?_number hw]
    cases h : globalName? name.toList with
    | none => exact iff_of_false (by simp) (by simp)
    | some v =>
      refine (hnames (.bare v.1)).trans ⟨fun hn => ?_,
        fun hn => congrArg Prod.fst (Option.some.inj hn)⟩
      have hs := (globalName?_split h).1
      rw [show v.1 = _ from hn, self_eq_append_right] at hs
      exact congrArg some (Prod.ext hn hs)
  · rw [writeName_quoted hw, survives_quoted hw, spelling?_body (isBody_escape _)]
    exact hnames (.quoted (escape name.toList))

/-! ## Names of globals -/

theorem bareName?_run {n : List Char} (h : bareName? s = some (n, r)) :
    run? isNameChar s = some (n, r) := by
  obtain ⟨c, u, hn, -, -, hr⟩ := bareName?_eq_some h
  rw [(bareName?_split h).1]
  exact run?_append (hn ▸ cons_ne_nil c u) (bareName?_chars h) hr

theorem run?_number (h : isNumberName s) :
    run? isNameChar s = some (s, []) ↔ s.all isAsciiDigit := by
  obtain ⟨hne, hs⟩ := isNumberName_iff.1 h
  have hc : ∀ c ∈ s, isNameChar c = isAsciiDigit c := fun c hc => by
    rw [isNameChar, isNameStart_of_isDigitSign (hs c hc), Bool.false_or]
    rfl
  rw [run?_eq_self hne, all_eq_true, all_eq_true]
  exact forall₂_congr fun c h => by rw [hc c h]

theorem survives_of_entityName? {t u : List Char}
    (h : entityName? (writeName [] name.toList ++ t) = some (name, u)) :
    survives isAsciiDigit name.toList := by
  obtain ⟨v, hv, he⟩ := Option.map_eq_some_iff.1 h
  have hn : v.1.name = name.toList := by rw [← (Prod.mk.inj he).1, String.toList_ofList]
  by_cases hw : (isBareName name.toList || isNumberName name.toList) = true
  · rw [writeName_unquoted hw, spelling?_bare (unquoted_head hw t)] at hv
    obtain ⟨⟨n, r⟩, hr, rfl⟩ := Option.map_eq_some_iff.1 hv
    obtain rfl : n = name.toList := hn
    obtain ⟨hne, hc, -⟩ := run?_eq_some hr
    rw [← survives_of_unquoted bareName?_run run?_number hw, run?_eq_self hne]
    exact all_eq_true.2 hc
  · rw [writeName_quoted hw, append_assoc, singleton_append, spelling?_body (isBody_escape _)] at hv
    obtain rfl := Option.some.inj hv
    exact (survives_quoted hw).2 hn

theorem recovers_of_survives (h : survives isAsciiDigit name.toList) : Recovers name := by
  unfold Recovers entityName?
  by_cases hw : (isBareName name.toList || isNumberName name.toList) = true
  · rw [← survives_of_unquoted bareName?_run run?_number hw] at h
    rw [writeName_unquoted hw, spelling?_unquoted hw, h]
    show some (String.ofList name.toList, []) = _
    rw [String.ofList_toList]
  · have hl : unescape (escape name.toList) = name.toList := (survives_quoted hw).1 h
    rw [writeName_quoted hw, spelling?_body (isBody_escape _)]
    show some (String.ofList (unescape (escape name.toList)), []) = _
    rw [hl, String.ofList_toList]

theorem lines_breakless (h : Breakless s) (hne : s ≠ []) : lines s = [s] := by
  have hs : ∀ c ∈ s, (!Text.isBreak c) := fun c hc => by rw [h c hc]; rfl
  rw [lines_of_ne_nil hne, takeWhile_eq_self_iff.2 hs, dropWhile_eq_nil_iff.2 hs, dropBreak, lines]

theorem entity?_global (r : List Char) :
    entity? ('@' :: r) = (globalLine? ('@' :: r)).map .global := by
  unfold entity? Entity.readers
  rw [findSome?_cons]
  cases h : globalLine? ('@' :: r) with
  | some g => simp only [h, Option.map_some]
  | none =>
    simp only [h, Option.map_none]
    rfl

/-- What a line that starts as one of a global adds. -/
theorem topLine_global (s : ParseState) (r : List Char) :
    ∃ m, s.topLine ('@' :: r) = .ok { s with module := m } ∧
    m.globals = match globalLine? ('@' :: r) with
      | some g => s.module.globals.insert g.name g
      | none => s.module.globals := by
  refine ⟨_, topLine_entity ⟨by decide, by decide, by decide⟩ s r, ?_⟩
  rw [entity?_global]
  cases globalLine? ('@' :: r) <;> rfl

/-- A text of one line that starts as one of a global. -/
theorem parse_globalLine (hr : Breakless r) :
    ∃ m, IrModule.parse (String.ofList ('@' :: r)) "" = .ok m ∧
    m.globals.entries = ((globalLine? ('@' :: r)).map fun g => (g.name, g)).toList := by
  obtain ⟨m, hm, hg⟩ := topLine_global ⟨{}, none⟩ r
  refine ⟨m, ?_, ?_⟩
  · rw [parse_eq, String.toList_ofList,
      lines_breakless (breakless_cons.2 ⟨by decide, hr⟩) (by simp), foldlM_cons]
    show (ParseState.topLine _ _ >>= _).map _ = _
    rw [hm]
    rfl
  · rw [hg]
    cases globalLine? ('@' :: r) <;> rfl

/-- A text of two lines, of which none is the line of a global. -/
theorem parse_broken {n : List Char} (hne : n ≠ []) (hn : ∀ c ∈ n, isNameChar c) :
    ∃ m, IrModule.parse (String.ofList ('@' :: (n ++ '\n' :: " = global i32 0".toList))) "" =
      .ok m ∧ m.globals.entries = [] := by
  have hb : Breakless ('@' :: n) :=
    breakless_cons.2 ⟨by decide, fun c hc => isBreak_of_isNameChar (hn c hc)⟩
  have hq : n.head? ≠ some '"' := fun h => absurd (hn _ (mem_of_head? h)) (by decide)
  have hl : globalLine? ('@' :: n) = none := by
    show (entityName? n).bind _ = none
    rw [entityName?, spelling?_bare hq, (run?_eq_self hne).2 (all_eq_true.2 hn)]
    rfl
  obtain ⟨m, hm, hg⟩ := topLine_global ⟨{}, none⟩ n
  rw [hl] at hg
  refine ⟨{ m with extraLines := m.extraLines ++ [" = global i32 0"] }, ?_,
    congrArg Table.entries hg⟩
  rw [parse_eq, String.toList_ofList, ← cons_append, lines_cons_break hb,
    lines_breakless (by decide) (by decide), foldlM_cons]
  show (ParseState.topLine _ _ >>= _).map _ = _
  rw [hm]
  rfl

theorem globalLine?_name :
    (globalLine? ('@' :: (writeName [] name.toList ++ " = global i32 0".toList))).map (·.name) =
      some name ↔ survives isAsciiDigit name.toList := by
  constructor
  · intro h
    obtain ⟨g, hg, hn⟩ := Option.map_eq_some_iff.1 h
    obtain ⟨v, hv, hr⟩ :=
      Option.bind_eq_some_iff.1 (hg : (entityName? (writeName [] name.toList ++ _)).bind _ = _)
    obtain ⟨b, -, hb⟩ := Option.bind_eq_some_iff.1 hr
    obtain rfl : v.1 = name := by rw [← hn, ← Option.some.inj hb]
    exact survives_of_entityName? hv
  · intro h
    have hf : Flush "global i32 0" := ⟨by decide, by decide⟩
    have ht : " = global i32 0".toList = ' ' :: '=' :: ' ' :: "global i32 0".toList := by decide
    have hl := globalLine?_written (g := ⟨name, "global i32 0"⟩) (recovers_of_survives h) hf
    rw [ht]
    exact congrArg (Option.map (·.name)) hl

/-- What a text with one global of the name is read as. -/
theorem parse_quoteName (name : String) :
    ∃ m, IrModule.parse (quoteName name "@" ++ " = global i32 0") "" = .ok m ∧
      (m.globals.keys = [name] ↔ survives isAsciiDigit name.toList) := by
  have ht : quoteName name "@" ++ " = global i32 0" =
      String.ofList ('@' :: (writeName [] name.toList ++ " = global i32 0".toList)) := by
    rw [← String.toList_inj, String.toList_append, toList_quoteName "@" name (c := '@') rfl]
    simp
  rw [ht]
  by_cases hs : isBareName name.toList ∧ name.toList.getLast? = some '\n'
  · obtain ⟨n, r, h, hn, hr⟩ := isBareName_split hs.1
    obtain rfl : r = ['\n'] := by
      refine hr.resolve_left ?_
      rintro rfl
      rw [append_nil] at hn
      exact absurd (bareName?_chars h _ (hn ▸ mem_of_getLast? hs.2)) (by decide)
    obtain ⟨m, hm, hg⟩ := parse_broken (bareName?_split h).2 (bareName?_chars h)
    refine ⟨m, ?_, iff_of_false ?_ ?_⟩
    · rw [writeName_unquoted (by rw [hs.1, Bool.true_or]), hn, append_assoc]
      exact hm
    · rw [Table.keys, hg]
      simp
    · simp [survives, hs]
  · have hb : Breakless " = global i32 0".toList := by decide
    obtain ⟨m, hm, hg⟩ := parse_globalLine (breakless_append.2 ⟨breakless_writeName hs, hb⟩)
    refine ⟨m, hm, ?_⟩
    rw [← globalLine?_name, Table.keys, hg]
    cases globalLine? ('@' :: (writeName [] name.toList ++ " = global i32 0".toList)) with
    | none => simp
    | some g => simp

/-- A name is read back unless it is a bare name with a line feed at its end, has digits that the
reader does not take as such, or has a character that is written by a number of more than two
digits. -/
theorem names_read_back_iff (name : String) :
    (globalRefs (quoteName name "@") = [name] ↔ survives isDecimal name.toList) ∧
    ∃ m, IrModule.parse (quoteName name "@" ++ " = global i32 0") "" = .ok m ∧
      (m.globals.keys = [name] ↔ survives isAsciiDigit name.toList) :=
  ⟨globalRefs_quoteName name, parse_quoteName name⟩

/-- Names that cannot be found again. -/
theorem names_lost :
    globalRefs (quoteName "a\n" "@") = ["a"] ∧ globalRefs (quoteName "²" "@") = [] ∧
    globalRefs (quoteName "\u200b" "@") = [" 0B"] := by decide +kernel

end CallAtlas.Ir
