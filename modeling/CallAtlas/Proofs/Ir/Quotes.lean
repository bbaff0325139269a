import CallAtlas.Ir.Bracket
import CallAtlas.Ir.Name
import Mathlib

/-!
# What stands between quotes

`IsBody` says which texts a pair of quotes may enclose: `closeQuote_body` and `isBody_of_closeQuote`
tie it to the reading of a literal, and `isBody_escape` to the writing of a name. A text is
`terminated` if each of its quotes is closed; `terminated_induction` takes such a text apart into
characters and quoted strings. The marks of a text agree with that division, `mark_body`.
-/

namespace CallAtlas.Ir

open Text List

variable {b s : List Char} {c : Char}

/-- What a pair of quotes may enclose: no bare quote, and a backslash takes a character along that
is no line feed. -/
inductive IsBody : List Char → Prop where
  | nil : IsBody []
  | char {c : Char} {b : List Char} : c ≠ '"' → c ≠ '\\' → IsBody b → IsBody (c :: b)
  | escaped {c : Char} {b : List Char} : c ≠ '\n' → IsBody b → IsBody ('\\' :: c :: b)

theorem quoted_append (b s : List Char) : '"' :: b ++ ['"'] ++ s = '"' :: b ++ '"' :: s := by simp

theorem literal_append (b s t : List Char) :
    '"' :: b ++ '"' :: s ++ t = '"' :: b ++ '"' :: (s ++ t) := by simp

theorem closeQuote_char (hq : c ≠ '"') (hs : c ≠ '\\') (s : List Char) :
    closeQuote (c :: s) = (closeQuote s).map fun p => (c :: p.1, p.2) := by
  cases s <;> simp [closeQuote, hs]

theorem closeQuote_escaped (hc : c ≠ '\n') (s : List Char) :
    closeQuote ('\\' :: c :: s) = (closeQuote s).map fun p => ('\\' :: c :: p.1, p.2) := by
  simp [closeQuote]

theorem closeQuote_body (hb : IsBody b) (s : List Char) :
    closeQuote (b ++ '"' :: s) = some (b, s) := by
  induction hb with
  | nil => rfl
  | char hq hs _ ih => rw [cons_append, closeQuote_char hq hs, ih]; rfl
  | escaped hc _ ih => rw [cons_append, cons_append, closeQuote_escaped hc, ih]; rfl

theorem ne_backslash (hs : ∀ d r, c = '\\' → s = d :: r → False) (he : c = '\\' → s = [] → False) :
    c ≠ '\\' := by
  rintro rfl
  cases s with
  | nil => exact he rfl rfl
  | cons d r => exact hs d r rfl rfl

theorem isBody_of_closeQuote {r : List Char} (h : closeQuote s = some (b, r)) : IsBody b := by
  fun_induction closeQuote s generalizing b with
  | case1 => cases h
  | case2 s => rw [← (Prod.mk.inj (Option.some.inj h)).1]; exact .nil
  | case3 => cases h
  | case4 c s hc ih =>
    obtain ⟨p, hp, he⟩ := Option.map_eq_some_iff.1 h
    rw [← (Prod.mk.inj he).1]
    exact .escaped hc (ih (by rw [hp, ← (Prod.mk.inj he).2]))
  | case5 => cases h
  | case6 c s hq _ hs he' ih =>
    obtain ⟨p, hp, he⟩ := Option.map_eq_some_iff.1 h
    rw [← (Prod.mk.inj he).1]
    exact .char hq (ne_backslash hs he') (ih (by rw [hp, ← (Prod.mk.inj he).2]))

/-- A text behind a quote has one place where that quote is closed. -/
theorem IsBody.unique {b' s' : List Char} (hb : IsBody b) (hb' : IsBody b')
    (h : b ++ '"' :: s = b' ++ '"' :: s') :
    b = b' ∧ s = s' := by
  have he := closeQuote_body hb s
  rw [h, closeQuote_body hb' s'] at he
  obtain ⟨h1, h2⟩ := Prod.mk.inj (Option.some.inj he)
  exact ⟨h1.symm, h2.symm⟩

theorem IsBody.append {b' : List Char} (hb : IsBody b) (hb' : IsBody b') : IsBody (b ++ b') := by
  induction hb with
  | nil => exact hb'
  | char hq hs _ ih => exact .char hq hs ih
  | escaped hc _ ih => exact .escaped hc ih

/-! ## Written names -/

theorem mem_toDigits {b n : Nat} (hb : 1 < b) (h : c ∈ Nat.toDigits b n) :
    ∃ d < b, c = Nat.digitChar d := by
  induction n using Nat.strongRecOn with
  | ind n ih =>
    rw [Nat.toDigits_eq_if hb] at h
    split_ifs at h with hn
    · exact ⟨n, hn, mem_singleton.1 h⟩
    · rcases mem_append.1 h with h | h
      · exact ih (n / b) (Nat.div_lt_self (by omega) hb) h
      · exact ⟨n % b, Nat.mod_lt _ (by omega), mem_singleton.1 h⟩

/-- A digit of an escape. -/
def isUpperHex (c : Char) : Bool := ('0' ≤ c && c ≤ '9') || ('A' ≤ c && c ≤ 'F')

theorem isUpperHex_digitChar {d : Nat} (hd : d < 16) : isUpperHex (Nat.digitChar d).toUpper := by
  interval_cases d <;> decide

theorem hexValue?_of_isUpperHex (h : isUpperHex c) : (hexValue? c).isSome := by
  unfold hexValue?
  simp only [isUpperHex, Bool.or_eq_true, Bool.and_eq_true, decide_eq_true_eq] at h
  split_ifs with h1 h2 h3
  · rfl
  · rfl
  · rfl
  · exact absurd h (by rintro (h | h) <;> contradiction)

theorem upperHexDigits_eq (n : Nat) :
    ∃ a b u, upperHexDigits 2 n = a :: b :: u ∧ ∀ c ∈ a :: b :: u, isUpperHex c := by
  have hmem : ∀ c ∈ upperHexDigits 2 n, isUpperHex c := by
    intro c hc
    obtain ⟨d, hd, rfl⟩ := mem_map.1 hc
    rcases mem_append.1 hd with hd | hd
    · obtain rfl := eq_of_mem_replicate hd
      decide
    · obtain ⟨k, hk, rfl⟩ := mem_toDigits (by omega) hd
      exact isUpperHex_digitChar hk
  have hlen : 2 ≤ (upperHexDigits 2 n).length := by
    simp only [upperHexDigits, hexDigits, length_map, length_append, length_replicate]
    omega
  match hu : upperHexDigits 2 n with
  | [] => rw [hu] at hlen; simp at hlen
  | [a] => rw [hu] at hlen; simp at hlen
  | a :: b :: u => exact ⟨a, b, u, rfl, hu ▸ hmem⟩

theorem isUpperHex_ne (h : isUpperHex c) : c ≠ '"' ∧ c ≠ '\\' ∧ c ≠ '\n' := by
  refine ⟨?_, ?_, ?_⟩ <;> rintro rfl <;> revert h <;> decide

theorem isBody_of_plain (h : ∀ c ∈ b, c ≠ '"' ∧ c ≠ '\\') : IsBody b := by
  induction b with
  | nil => exact .nil
  | cons c b ih =>
    have hc := h c mem_cons_self
    exact .char hc.1 hc.2 (ih fun d hd => h d (mem_cons_of_mem _ hd))

/-- A character of a quoted name is written as itself or as a backslash with at least two digits
behind it. -/
theorem escapeChar_cases (c : Char) : (escapeChar c = [c] ∧ c ≠ '"' ∧ c ≠ '\\') ∨
      ∃ a b u, escapeChar c = '\\' :: a :: b :: u ∧ ∀ d ∈ a :: b :: u, isUpperHex d := by
  unfold escapeChar
  split_ifs with h
  · obtain ⟨a, b, u, he, hu⟩ := upperHexDigits_eq (codeOf c)
    exact .inr ⟨a, b, u, by rw [he], hu⟩
  · exact .inl ⟨rfl, fun hc => h (.inl hc), fun hc => h (.inr (.inl hc))⟩

theorem isBody_escape (name : List Char) : IsBody (escape name) := by
  induction name with
  | nil => exact .nil
  | cons c name ih =>
    refine IsBody.append ?_ ih
    rcases escapeChar_cases c with ⟨he, hq, hs⟩ | ⟨a, b, u, he, hu⟩
    · rw [he]
      exact .char hq hs .nil
    · rw [he]
      refine .escaped (isUpperHex_ne (hu a mem_cons_self)).2.2 (isBody_of_plain fun d hd => ?_)
      have hd := isUpperHex_ne (hu d (mem_cons_of_mem _ hd))
      exact ⟨hd.1, hd.2.1⟩

theorem unescape_cons (hc : c ≠ '\\') (s : List Char) : unescape (c :: s) = c :: unescape s := by
  match s with
  | [] => simp [unescape]
  | [a] => simp [unescape]
  | a :: b :: s => rw [unescape]; exact fun _ _ _ h => absurd h hc

theorem unescape_plain {u : List Char} (hu : ∀ c ∈ u, c ≠ '\\') (s : List Char) :
    unescape (u ++ s) = u ++ unescape s := by
  induction u with
  | nil => rfl
  | cons c u ih =>
    rw [cons_append, unescape_cons (hu c mem_cons_self), ih fun d hd => hu d (mem_cons_of_mem _ hd)]
    rfl

theorem unescape_escapeChar (c : Char) (s : List Char) :
    unescape (escapeChar c ++ s) = unescape (escapeChar c) ++ unescape s := by
  rcases escapeChar_cases c with ⟨he, -, hs⟩ | ⟨a, b, u, he, hu⟩
  · rw [he]
    show unescape (c :: s) = unescape [c] ++ unescape s
    rw [unescape_cons hs, unescape_cons hs]
    rfl
  · have hu' : ∀ d ∈ u, d ≠ '\\' := fun d hd => (isUpperHex_ne (hu d (by simp [hd]))).2.1
    obtain ⟨x, hx⟩ := Option.isSome_iff_exists.1 (hexValue?_of_isUpperHex (hu a (by simp)))
    obtain ⟨y, hy⟩ := Option.isSome_iff_exists.1 (hexValue?_of_isUpperHex (hu b (by simp)))
    have hr := unescape_plain hu' []
    rw [append_nil] at hr
    simp [he, unescape, hx, hy, unescape_plain hu' s, hr]

theorem unescape_escape_append (name s : List Char) :
    unescape (escape name ++ s) = unescape (escape name) ++ unescape s := by
  induction name with
  | nil => rfl
  | cons c name ih =>
    show unescape (escapeChar c ++ escape name ++ s) = unescape (escapeChar c ++ escape name) ++
        unescape s
    rw [append_assoc, unescape_escapeChar, unescape_escapeChar, ih, append_assoc]

/-! ## Terminated texts -/

/-- Whether every quote is closed; `inside` says whether the text starts behind an open one. -/
def terminated : Bool → List Char → Bool
  | inside, [] => !inside
  | false, c :: s => terminated (c = '"') s
  | true, '\\' :: '\n' :: _ => false
  | true, '\\' :: _ :: s => terminated true s
  | true, c :: s => terminated (c ≠ '"') s

theorem terminated_cons (hq : c ≠ '"') (s : List Char) :
    terminated false (c :: s) = terminated false s := by
  simp [terminated, hq]

theorem terminated_inside (s : List Char) :
    terminated true s = (closeQuote s).any fun p => terminated false p.2 := by
  fun_induction closeQuote s with
  | case1 => rfl
  | case2 s => simp [terminated]
  | case3 s => rfl
  | case4 c s hc ih =>
    have ht : terminated true ('\\' :: c :: s) = terminated true s := by
      rw [terminated]; exact fun h => hc h
    rw [ht, ih, Option.any_map]
  | case5 => rfl
  | case6 c s hq hn hs he ih =>
    have hq' : c ≠ '"' := hq
    have ht : terminated true (c :: s) = terminated true s := by
      cases s <;> simp [terminated, hq']
    rw [ht, ih, Option.any_map]

theorem terminated_quote :
    terminated false ('"' :: s) ↔ ∃ b r, IsBody b ∧ s = b ++ '"' :: r ∧ terminated false r := by
  have ht : terminated false ('"' :: s) = terminated true s := by simp [terminated]
  rw [ht, terminated_inside, Option.any_eq_true]
  constructor
  · rintro ⟨⟨b, r⟩, hc, hr⟩
    exact ⟨b, r, isBody_of_closeQuote hc, closeQuote_split hc, hr⟩
  · rintro ⟨b, r, hb, rfl, hr⟩
    exact ⟨(b, r), closeQuote_body hb r, hr⟩

theorem terminated_body (hb : IsBody b) (s : List Char) :
    terminated false ('"' :: b ++ '"' :: s) = terminated false s := by
  rw [Bool.eq_iff_iff, cons_append, terminated_quote]
  constructor
  · rintro ⟨b', r, hb', he, hr⟩
    rwa [(hb.unique hb' he).2]
  · intro hs
    exact ⟨b, s, hb, rfl, hs⟩

theorem terminated_induction {P : ∀ s, terminated false s → Prop} (nil : P [] rfl)
    (char : ∀ c s (hq : c ≠ '"') (hs : terminated false s),
      (∀ r (hr : terminated false r), r.length ≤ s.length → P r hr) →
      P (c :: s) ((terminated_cons hq s).trans hs))
    (quoted : ∀ b s (hb : IsBody b) (hs : terminated false s), P s hs →
      P ('"' :: b ++ '"' :: s) ((terminated_body hb s).trans hs)) (hs : terminated false s) :
      P s hs := by
  induction hn : s.length using Nat.strongRecOn generalizing s with
  | ind n ih =>
    subst hn
    cases s with
    | nil => exact nil
    | cons c s =>
      by_cases hq : c = '"'
      · subst hq
        obtain ⟨b, r, hb, rfl, hr⟩ := terminated_quote.1 hs
        exact quoted b r hb hr (ih r.length (by simp; omega) hr rfl)
      · have hr := (terminated_cons hq s).symm.trans hs
        exact char c s hq hr fun r hr hl => ih r.length (Nat.lt_succ_of_le hl) hr rfl

/-! ## Marks -/

theorem mark_cons (hq : c ≠ '"') (s : List Char) :
    mark false (c :: s) = (c, true) :: mark false s := by
  simp [mark, hq]

theorem mark_inside (hb : IsBody b) (s : List Char) :
    mark true (b ++ '"' :: s) = b.map (·, false) ++ ('"', false) :: mark false s := by
  induction hb with
  | nil => cases s <;> simp [mark]
  | @char c b hq hs _ ih =>
    have hm : mark true (c :: (b ++ '"' :: s)) = (c, false) :: mark true (b ++ '"' :: s) := by
      cases hb : b ++ '"' :: s <;> simp [mark, hq, hs]
    rw [cons_append, hm, ih]
    rfl
  | @escaped c b hc _ ih =>
    show mark true ('\\' :: c :: (b ++ '"' :: s)) = _
    rw [mark, ih]
    rfl

theorem mark_body (hb : IsBody b) (s : List Char) :
    mark false ('"' :: b ++ '"' :: s) = ('"' :: b ++ ['"']).map (·, false) ++ mark false s := by
  have hm : mark false ('"' :: (b ++ '"' :: s)) = ('"', false) :: mark true (b ++ '"' :: s) := by
    simp [mark]
  rw [cons_append, hm, mark_inside hb]
  simp

end CallAtlas.Ir
