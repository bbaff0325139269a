import CallAtlas.Proofs.Ir.Cuts
import CallAtlas.Proofs.Link.Arrays

/-!
# The parts of an array

`splitArray` finds the `Parts` of a text, and nothing else: `exists_parts` and `Parts.splitArray`.
The brackets that it looks for are closed outside quotes, so what stands between them is marked
`Apart` from the rest. The fields of the initializer hold no comma that divides, `through`, and if
the brackets of the initializer are `Balanced` they are read back from the text that they make with
commas between them, `fields_intercalate`. So the concatenation of two arrays has their elements,
one after the other, and concatenation is associative: `joinArrays_exact`.
-/

namespace CallAtlas.Link

open Ir Text List

variable {a : ArrayText} {c : Char} {head inner s type : List Char} {name : String}

/-! ## Array types -/

/-- A character of the head of an array type, behind its bracket. -/
def isHeadChar (c : Char) : Bool := isBlank c || isDecimal c || c = 'x'

theorem isHeadChar_plain (h : isHeadChar c) :
    (c ≠ '"' ∧ isSigil c = false) ∧ c ≠ '[' ∧ c ≠ ']' := by
  have hne : ∀ d ∈ ['[', ']'], c ≠ d := ne_of_class (by decide) h
  exact ⟨plain_of_class (by decide) h, hne '[' (by simp), hne ']' (by simp)⟩

theorem trimLeft_blanks {b : List Char} (hb : ∀ c ∈ b, isBlank c) (r : List Char) :
    trimLeft (b ++ r) = trimLeft r := dropWhile_append_of_pos hb

theorem exists_trimLeft (s : List Char) :
    ∃ b, s = b ++ trimLeft s ∧ (∀ c ∈ b, isBlank c) ∧ (trimLeft s).head?.any isBlank = false :=
  ⟨s.takeWhile isBlank, takeWhile_append_dropWhile.symm, fun _ hc => mem_takeWhile_imp hc,
    head?_dropWhile_any isBlank s⟩

theorem arrayHead?_written {b₁ ds b₂ t : List Char} {d : Char} (hb₁ : ∀ e ∈ b₁, isBlank e)
    (hne : ds ≠ [])
    (hds : ∀ e ∈ ds, isDecimal e) (hc : isBlank c) (hb₂ : ∀ e ∈ b₂, isBlank e) (hd : isBlank d) :
    arrayHead? ('[' :: (b₁ ++ (ds ++ c :: (b₂ ++ 'x' :: d :: t)))) =
      some (digitsValue ds, trimLeft t) := by
  have hn1 : (ds ++ c :: (b₂ ++ 'x' :: d :: t)).head?.any isBlank = false := by
    cases ds with
    | nil => exact absurd rfl hne
    | cons e ds => exact isBare_not_isBlank (isBare_of_isDecimal (hds e mem_cons_self))
  have hn2 : (c :: (b₂ ++ 'x' :: d :: t)).head?.any isDecimal = false := by
    by_contra hcd
    have := isBare_not_isBlank (isBare_of_isDecimal (by simpa using hcd))
    rw [hc] at this
    cases this
  have hn3 : ('x' :: d :: t).head?.any isBlank = false := rfl
  simp only [arrayHead?]
  rw [trimLeft_append hb₁ hn1, run?_append hne hds hn2]
  simp only [hc]
  rw [trimLeft_append hb₂ hn3]
  simp only [hd, if_true]

theorem arrayHead?_eq_some {count : Nat} (h : arrayHead? s = some (count, inner)) :
    ∃ head, s = '[' :: head ++ inner ∧ (∀ c ∈ head, isHeadChar c) ∧ head.getLast?.any isBlank ∧
      ∀ t, arrayHead? ('[' :: head ++ t) = some (count, trimLeft t) := by
  unfold arrayHead? at h
  split at h
  · next r =>
    split at h
    · next ds c r1 hr =>
      split_ifs at h with hc
      split at h
      · next d t ht =>
        split_ifs at h with hd
        obtain ⟨rfl, rfl⟩ := Prod.mk.inj (Option.some.inj h)
        obtain ⟨b1, hb1, hbl1, -⟩ := exists_trimLeft r
        obtain ⟨b2, hb2, hbl2, -⟩ := exists_trimLeft r1
        obtain ⟨b3, hb3, hbl3, -⟩ := exists_trimLeft t
        obtain ⟨hne, hds, -⟩ := run?_eq_some hr
        refine ⟨b1 ++ (ds ++ c :: (b2 ++ 'x' :: d :: b3)), ?_, ?_, ?_, ?_⟩
        · rw [(run?_split hr).1] at hb1
          rw [ht] at hb2
          conv_lhs => rw [hb1, hb2, hb3]
          simp
        · intro e he
          have hblank : ∀ {e : Char}, isBlank e → isHeadChar e := fun he => by simp [isHeadChar, he]
          simp only [mem_append, mem_cons] at he
          rcases he with he | he | rfl | he | rfl | rfl | he
          · exact hblank (hbl1 e he)
          · simp [isHeadChar, hds e he]
          · exact hblank hc
          · exact hblank (hbl2 e he)
          · decide
          · exact hblank hd
          · exact hblank (hbl3 e he)
        · have hlast : (d :: b3).getLast?.any isBlank := by
            have hall : ∀ e ∈ d :: b3, isBlank e := forall_mem_cons.2 ⟨hd, hbl3⟩
            exact hall _ (getLast_mem _)
          simpa [getLast?_cons] using hlast
        · intro u
          have hw := arrayHead?_written (t := b3 ++ u) hbl1 hne hds hc hbl2 hd
          rw [trimLeft_blanks hbl3] at hw
          rw [← hw]
          simp
      · cases h
    · cases h
  · cases h

/-- Whether an array type starts at a place is decided before the next bracket. -/
theorem arrayHead?_eq_none {t x : List Char} (ht : t ≠ []) (h : arrayHead? (t ++ '[' :: x) = none)
    (y : List Char) :
    arrayHead? (t ++ '[' :: y) = none := by
  cases hs : arrayHead? (t ++ '[' :: y) with
  | none => rfl
  | some v =>
    obtain ⟨head, he, hc, -, hsw⟩ := arrayHead?_eq_some hs
    cases t with
    | nil => exact absurd rfl ht
    | cons d t =>
      obtain ⟨rfl, htl⟩ := cons.inj he
      -- the head has no bracket, so it ends before the one of the text
      obtain ⟨t', rfl⟩ : ∃ t', t = head ++ t' := by
        rcases append_eq_append_iff.1 htl with ⟨a, ha, hb⟩ | ⟨a, ha, -⟩
        · cases a with
          | nil => exact ⟨[], by rw [ha]; simp⟩
          | cons e a =>
            obtain ⟨rfl, -⟩ := cons.inj hb
            exact absurd rfl (isHeadChar_plain (hc '[' (by rw [ha]; simp))).2.1
        · exact ⟨a, ha⟩
      have := hsw (t' ++ '[' :: x)
      rw [cons_append, ← append_assoc] at this
      rw [cons_append] at h
      rw [h] at this
      cases this

theorem findArray?_first (pre : List Char) {count : Nat}
    (ht : arrayHead? type = some (count, inner))
    (hn : ∀ u t, pre = u ++ t → t ≠ [] → arrayHead? (t ++ type) = none) (b : List Char) :
    findArray? b (pre ++ type) = some (b.reverse ++ pre, count, type, inner) := by
  induction pre generalizing b with
  | nil =>
    obtain ⟨t, rfl⟩ := arrayHead?_bracket ht
    rw [nil_append, findArray?, ht, append_nil]
  | cons c pre ih =>
    have hc := hn [] (c :: pre) rfl (by simp)
    rw [cons_append] at hc
    rw [cons_append, findArray?, hc]
    have h := ih (fun u t hut => hn (c :: u) t (by rw [hut]; rfl)) (c :: b)
    rw [h]
    simp

theorem drop_behind (u v : List Char) (c : Char) : (u ++ c :: v).drop (u.length + 1) = v := by
  simp

theorem behind_type (head : List Char) (hi : inner.length ≤ type.length) (v : List Char) :
    ('[' :: head ++ (type ++ ']' :: v)).drop ((head ++ type).length + 1 + 1) = v ∧
      (head ++ type).length + 1 -
        (('[' :: head ++ (type ++ ']' :: v)).length - (inner ++ ']' :: v).length) =
          inner.length := by
  constructor
  · have h := drop_behind ('[' :: (head ++ type)) v ']'
    rwa [cons_append, append_assoc] at h
  · simp only [length_append, length_cons]
    omega

theorem natDigits_headChars (n : Nat) : ∀ d ∈ natDigits n ++ " x ".toList, isHeadChar d := by
  intro d hd
  rcases mem_append.1 hd with hd | hd
  · simp [isHeadChar, isDecimal_of_isAsciiDigit (isAsciiDigit_of_mem_natDigits hd)]
  · have hx : (" x ".toList).all isHeadChar := by decide
    exact all_eq_true.1 hx d hd

theorem natDigits_reads (n : Nat) (t : List Char) :
    arrayHead? ('[' :: (natDigits n ++ " x ".toList) ++ t) = some (n, trimLeft t) := by
  have h : arrayHead? ('[' :: ([] ++ (natDigits n ++ ' ' :: ([] ++ 'x' :: ' ' :: t)))) =
      some (digitsValue (natDigits n), trimLeft t) :=
    arrayHead?_written (by simp) Nat.toDigits_ne_nil
      (fun e he => isDecimal_of_isAsciiDigit (isAsciiDigit_of_mem_natDigits he)) (by decide)
        (by simp) (by decide)
  rw [digitsValue_natDigits] at h
  rw [← h]
  simp

theorem exists_elementType {u v : List Char} (hh : ∀ c ∈ head, isHeadChar c)
    (h : head ++ inner = u ++ ']' :: v) : ∃ type, u = head ++ type ∧ inner = type ++ ']' :: v := by
  rcases append_eq_append_iff.1 h with ⟨a, ha, hb⟩ | ⟨a, ha, hb⟩
  · exact ⟨a, ha, hb⟩
  · cases a with
    | nil => exact ⟨[], by rw [ha]; simp, by exact hb.symm⟩
    | cons c a =>
      obtain ⟨rfl, -⟩ := cons.inj hb
      exact absurd rfl (isHeadChar_plain (hh ']' (by rw [ha]; simp))).2.2

theorem takeWhile_gap {gap : List Char} (h : '[' ∉ gap) (t : List Char) :
    (gap ++ '[' :: t).takeWhile (· ≠ '[') = gap ∧
    (gap ++ '[' :: t).dropWhile (· ≠ '[') = '[' :: t := by
  refine run_append (fun c hc => ?_) (by rfl)
  have hne : c ≠ '[' := by
    rintro rfl
    exact h hc
  simpa using hne

/-! ## The division of a text -/

/-- A text that is an array with an initializer, divided into what stands before the array type, the
head of the type, the type of an element, what stands before the initializer, what stands in it, and
the rest. -/
structure Parts (s : List Char) (a : ArrayText) (head type gap body : List Char) : Prop where
  text : s = a.before ++ ('[' :: head ++ (type ++ ']' :: (gap ++ '[' :: (body ++ ']' :: a.behind))))
  /-- No array type starts before. -/
  first : ∀ u t, a.before = u ++ t → t ≠ [] → ∀ x, arrayHead? (t ++ '[' :: x) = none
  head_chars : ∀ c ∈ head, isHeadChar c
  reads : ∀ t, arrayHead? ('[' :: head ++ t) = some (a.count, trimLeft t)
  type_apart : Apart false type false
  closes : upToSquare ('[' :: head ++ type)
  gap_open : '[' ∉ gap
  body_apart : Apart false body false
  body_closes : upToSquare ('[' :: body)
  elementType : a.elementType = trim type
  elements : a.elements = fields body

theorem apart_head (h : ∀ c ∈ head, isHeadChar c) : Apart false head false :=
  apart_plain fun c hc => (isHeadChar_plain (h c hc)).1.1

theorem exists_parts (h : splitArray s name = .ok a) :
    ∃ head type gap body, Parts s a head type gap body := by
  unfold splitArray at h
  cases hfa : findArray? [] s with
  | none => rw [hfa] at h; cases h
  | some w =>
    obtain ⟨before, count, ty, inner⟩ := w
    simp only [hfa] at h
    obtain ⟨pre, hpre, rfl, hty, hn⟩ := findArray?_eq_some hfa
    obtain rfl : before = pre := hpre
    obtain ⟨head, rfl, hhead, -, hreads⟩ := arrayHead?_eq_some hty
    cases hk : closingOffset? ('[' :: head ++ inner) with
    | none => rw [hk] at h; cases h
    | some k =>
      rw [hk] at h
      obtain ⟨u, v, hu, rfl, hut, huc⟩ := exists_closing hk
      obtain ⟨type, rfl, rfl⟩ := exists_elementType hhead hu
      obtain ⟨hdrop, hlen⟩ := behind_type head (le_refl type.length) v
      simp only [hdrop, hlen] at h
      cases hi : closingOffset? (v.dropWhile (· ≠ '[')) with
      | none => rw [hi] at h; cases h
      | some n =>
        obtain ⟨init, hinit, hgap, hn'⟩ : ∃ init, v.dropWhile (· ≠ '[') = '[' :: init ∧
            v = v.takeWhile (· ≠ '[') ++ '[' :: init ∧ '[' ∉ v.takeWhile (· ≠ '[') := by
          cases hv : v.dropWhile (· ≠ '[') with
          | nil => rw [hv] at hi; cases hi
          | cons c init =>
            obtain ⟨rfl, hs, hn⟩ := dropWhile_eq_cons hv
            exact ⟨init, rfl, hs, hn⟩
        rw [hi] at h
        rw [hinit] at hi h
        obtain ⟨body, behind, rfl, rfl, hb, hbc⟩ := exists_closing hi
        have hrest : ('[' :: (body ++ ']' :: behind)).drop (body.length + 1 + 1) = behind := by
          rw [drop_succ_cons, drop_behind]
        simp only [hrest] at h
        obtain rfl := Except.ok.inj h
        exact ⟨head, type, v.takeWhile (· ≠ '['), body, by rw [← hgap],
          fun u t hut ht => arrayHead?_eq_none ht (hn u t hut ht),
          hhead, hreads, (apart_head hhead).append_iff.1 hut, huc, hn', hb, hbc,
          by simp, by simp⟩

namespace Parts

variable {s : List Char} {a : ArrayText} {head type gap body : List Char}

theorem findArray? (h : Parts s a head type gap body) : Link.findArray? [] s =
    some (a.before, a.count,
      '[' :: head ++ (type ++ ']' :: (gap ++ '[' :: (body ++ ']' :: a.behind))),
      trimLeft type ++ ']' :: (gap ++ '[' :: (body ++ ']' :: a.behind))) := by
  have htrim (r : List Char) : trimLeft (type ++ ']' :: r) = trimLeft type ++ ']' :: r := by
    obtain ⟨b, hb, hbl, hh⟩ := exists_trimLeft type
    conv_lhs => rw [hb, append_assoc]
    refine trimLeft_append hbl ?_
    cases ht : trimLeft type with
    | nil => exact (by decide : isBlank ']' = false)
    | cons c t =>
      rw [ht] at hh
      exact hh
  have hfa :=
    findArray?_first a.before (h.reads (type ++ ']' :: (gap ++ '[' :: (body ++ ']' :: a.behind))))
    (fun u t hut ht => h.first u t hut ht _) []
  rwa [htrim, ← h.text] at hfa

theorem closing (h : Parts s a head type gap body) (t : List Char) :
    closingOffset? ('[' :: head ++ (type ++ ']' :: t)) = some ((head ++ type).length + 1) := by
  rw [← append_assoc]
  exact closingOffset?_closed ((apart_head h.head_chars).append_iff.2 h.type_apart) h.closes _

theorem splitArray (h : Parts s a head type gap body) (name : String) :
    splitArray s name = .ok a := by
  have hn : closingOffset? ('[' :: (body ++ ']' :: a.behind)) = some (body.length + 1) :=
    closingOffset?_closed h.body_apart h.body_closes a.behind
  have hle : (trimLeft type).length ≤ type.length := (dropWhile_sublist _).length_le
  obtain ⟨hdrop, hlen⟩ := behind_type head hle (gap ++ '[' :: (body ++ ']' :: a.behind))
  have htype : trim (trimLeft type) = a.elementType := by
    rw [h.elementType, trim, trim, trimLeft, trimLeft, dropWhile_idempotent]
  unfold Link.splitArray
  simp only [h.findArray?, h.closing, hdrop, (takeWhile_gap h.gap_open _).2, hn, hlen]
  simp [htype, ← h.elements]

end Parts

/-! ## Marks that are kept -/

section filter

variable {q : Char × Bool → Bool} {s : List Char} {fs es : List (List Char)}

theorem filter_plain {u : List Char} (hu : ∀ c ∈ u, c ≠ '"' ∧ q (c, true) = false) :
    (mark false u).filter q = [] := by
  induction u with
  | nil => rfl
  | cons c u ih =>
    obtain ⟨hc, hq⟩ := hu c mem_cons_self
    rw [mark_cons hc, filter_cons_of_neg (by simp [hq]), ih fun d hd => hu d (mem_cons_of_mem _ hd)]

theorem filter_trim (hq : ∀ {c}, isBlank c → q (c, true) = false) (hs : Apart false s false) :
    (mark false (trim s)).filter q = (mark false s).filter q := by
  obtain ⟨b, b', h, hb, hb'⟩ := exists_trim s
  conv_rhs => rw [h]
  rw [apart_blanks hb, hs.trim, filter_append, filter_append,
    filter_plain fun c hc => ⟨(isBlank_plain (hb c hc)).1, hq (hb c hc)⟩,
    filter_plain fun c hc => ⟨(isBlank_plain (hb' c hc)).1, hq (hb' c hc)⟩, nil_append, append_nil]

/-- The fields of a text hold all its marks but blanks and commas. -/
theorem filter_fields (hq : ∀ {c}, isBlank c → q (c, true) = false) (hc : q (',', true) = false)
    (hs : Apart false s false) :
    (fields s).flatMap (fun f => (mark false f).filter q) = (mark false s).filter q := by
  have h := divided_fields s
  generalize fields s = fs at h
  induction h with
  | last =>
    have ht := filter_trim hq hs
    split_ifs with he
    · rw [he] at ht
      exact ht
    · rw [flatMap_singleton, ht]
  | @cons u s fs hu _ _ ih =>
    rw [hu.append_iff, ← singleton_append, (apart_char (by decide)).append_iff] at hs
    rw [flatMap_cons, ih hs, hu, mark_cons (c := ',') (by decide), filter_trim hq hu, filter_append,
      filter_cons_of_neg (by simp [hc])]

theorem intercalate_induction {P : List (List Char) → List Char → Prop} (nil : P [] [])
    (single : ∀ e, P [e] e)
    (cons : ∀ e es s, es ≠ [] → P es s → P (e :: es) (e ++ ',' :: ' ' :: s))
    (es : List (List Char)) :
    P es ([',', ' '].intercalate es) := by
  induction es with
  | nil => exact nil
  | cons e es ih =>
    cases es with
    | nil =>
      rw [intercalate_singleton]
      exact single e
    | cons f es =>
      exact cons e _ _ (by simp) ih

theorem forall_intercalate {P : List Char → Prop} (nil : P [])
    (join : ∀ {u v}, P u → P v → P (u ++ ',' :: ' ' :: v))
    (h : ∀ e ∈ es, P e) : P ([',', ' '].intercalate es) := by
  revert h
  refine intercalate_induction (P := fun es s => (∀ e ∈ es, P e) → P s) ?_ ?_ ?_ es
  · exact fun _ => nil
  · exact fun e h => h e mem_cons_self
  · intro e es s _ ih h
    obtain ⟨he, hes⟩ := forall_mem_cons.1 h
    exact join he (ih hes)

theorem apart_intercalate (h : ∀ e ∈ es, Apart false e false) :
    Apart false ([',', ' '].intercalate es) false :=
  forall_intercalate (.nil false)
    (fun hu hv => hu.append_iff.2 ((apart_plain (u := [',', ' ']) (by simp)).append_iff.2 hv)) h

theorem filter_intercalate (hc : ∀ c ∈ [',', ' '], q (c, true) = false)
    (h : ∀ e ∈ es, Apart false e false) :
    (mark false ([',', ' '].intercalate es)).filter q = es.flatMap fun e =>
  (mark false e).filter q := by
  revert h
  refine intercalate_induction (P := fun es s => (∀ e ∈ es, Apart false e false) →
    (mark false s).filter q = es.flatMap fun e => (mark false e).filter q) ?_ ?_ ?_ es
  · exact fun _ => rfl
  · exact fun e _ => (flatMap_singleton ..).symm
  · intro e es s _ ih h
    obtain ⟨he, hes⟩ := forall_mem_cons.1 h
    have hm : mark false (',' :: ' ' :: s) = (',', true) :: (' ', true) :: mark false s := rfl
    rw [he, hm, filter_append, filter_cons_of_neg (by simp [hc]),
      filter_cons_of_neg (by simp [hc]), ih hes, flatMap_cons]

end filter

/-! ## Square brackets -/

/-- The brackets that count. -/
def squares (s : List Char) : List (Char × Bool) := (mark false s).filter isSquare

theorem isSquare_blank (h : isBlank c) : isSquare (c, true) = false := by
  cases hs : isSquare (c, true) with
  | false => rfl
  | true =>
    rcases (by simpa [isSquare] using hs : c = '[' ∨ c = ']') with rfl | rfl <;>
      exact absurd h (by decide)

theorem squares_head (hh : ∀ c ∈ head, isHeadChar c) (type : List Char) :
    squares (head ++ type) = squares type := by
  have hn : (mark false head).filter isSquare = [] := filter_plain fun c hc => by
    obtain ⟨⟨hq, -⟩, h1, h2⟩ := isHeadChar_plain (hh c hc)
    exact ⟨hq, by simp [isSquare, h1, h2]⟩
  rw [squares, apart_head hh, filter_append, hn]
  rfl

theorem upToCloser_append {opener closer : Char} {depth : Int} {ms : List (Char × Bool)}
    (h : upToCloser opener closer depth ms) (ms' : List (Char × Bool)) :
    upToCloser opener closer depth (ms ++ ms') = upToCloser opener closer 1 ms' := by
  induction ms generalizing depth with
  | nil =>
    obtain rfl : depth = 1 := by simpa [upToCloser] using h
    rfl
  | cons m ms ih =>
    rw [cons_append, upToCloser]
    rw [upToCloser] at h
    split_ifs at h ⊢ with ho hc
    · exact ih h
    · rw [Bool.and_eq_true] at h
      rw [h.1]
      exact ih h.2
    · exact ih h

theorem upToSquare_bracket (s : List Char) :
    upToSquare ('[' :: s) = upToCloser '[' ']' 1 (squares s) := by
  rw [upToSquare, upToCloser_filter]
  rfl

theorem trim_trim (s : List Char) : trim (trim s) = trim s := by
  obtain ⟨b, hb, -⟩ := trimRight_append (trimLeft s)
  have hh := head?_dropWhile_any isBlank s
  have hl : trimLeft (trim s) = trim s := by
    refine trimLeft_of_head ?_
    cases ht : trim s with
    | nil => rfl
    | cons c t =>
      rw [show s.dropWhile isBlank = trim s ++ b from hb, ht] at hh
      exact hh
  rw [trim, hl, trim, trimRight_trimRight]

namespace Parts

variable {s s' : List Char} {a b : ArrayText}
  {head type gap body head' type' gap' body' : List Char}

theorem elements_apart (h : Parts s a head type gap body) :
    ∀ e ∈ a.elements, Apart false e false ∧ trim e = e := by
  rw [h.elements]
  refine forall_fields (fun h => ⟨h.trim, trim_trim _⟩) (fun hu h => ⟨hu, ?_⟩) h.body_apart
  exact (apart_char (by decide)).append_iff.1 (hu.append_iff.1 h)

/-- Two arrays that are divided make one that can be divided, with the parts of the first. -/
theorem append (ha : Parts s a head type gap body) (hb : Parts s' b head' type' gap' body') :
    Parts (a.append b).render
      { a.append b with elements := fields ([',', ' '].intercalate (a.append b).elements) }
      (natDigits (a.append b).count ++ " x ".toList) (trim type) [' ']
      ([',', ' '].intercalate (a.append b).elements) where
  text := by
    rw [render_eq]
    simp [ArrayText.append, ha.elementType]
  first := ha.first
  head_chars := natDigits_headChars _
  reads := natDigits_reads _
  type_apart := ha.type_apart.trim
  closes := by
    have hc := ha.closes
    rw [cons_append, upToSquare_bracket, squares_head ha.head_chars] at hc
    rw [cons_append, upToSquare_bracket, squares_head (natDigits_headChars _), squares,
      filter_trim isSquare_blank ha.type_apart]
    exact hc
  gap_open := by decide
  body_apart := apart_intercalate (forall_mem_append.2 ⟨fun e he => (ha.elements_apart e he).1,
    fun e he => (hb.elements_apart e he).1⟩)
  body_closes := by
    have hca := ha.body_closes
    have hcb := hb.body_closes
    have hes : ∀ e ∈ a.elements ++ b.elements, Apart false e false :=
      forall_mem_append.2 ⟨fun e he => (ha.elements_apart e he).1,
        fun e he => (hb.elements_apart e he).1⟩
    have hfa := filter_fields isSquare_blank rfl ha.body_apart
    have hfb := filter_fields isSquare_blank rfl hb.body_apart
    rw [upToSquare_bracket, squares] at hca hcb ⊢
    rw [ArrayText.append, filter_intercalate (by simp [isSquare]) hes, flatMap_append, ha.elements,
      hb.elements, hfa, hfb, upToCloser_append hca]
    exact hcb
  elementType := by rw [trim_trim]; exact ha.elementType
  elements := rfl

end Parts

/-! ## Depth -/

section depth

variable {s : List Char} {fs es : List (List Char)} {ms : List (Char × Bool)} {depth depth' : Int}

/-- How much deeper one is behind some marks. -/
def change (ms : List (Char × Bool)) : Int :=
  (ms.map fun m => if m.2 then depthChange m.1 else 0).sum

theorem change_append (ms ms' : List (Char × Bool)) :
    change (ms ++ ms') = change ms + change ms' := by
  rw [change, map_append, sum_append]
  rfl

theorem through_change (h : through depth ms = some depth') : depth' = depth + change ms := by
  fun_induction through depth ms with
  | case1 => simpa [change] using h.symm
  | case2 => cases h
  | case3 depth c r hc ih =>
    rw [ih h]
    simp [change, add_assoc]
  | case4 depth c r ih =>
    rw [ih h]
    simp [change]

theorem through_trim (hs : Apart false s false) (depth : Int) :
    through depth (mark false (trim s)) = through depth (mark false s) := by
  rw [← through_filter, filter_trim (not_isDivider (by decide)) hs, through_filter]

/-- The fields of a text in which the depth does not change in all have no comma that divides. -/
theorem through_fields (hs : Apart false s false) (hc : change (mark false s) = 0) :
    ∀ f ∈ fields s, through 0 (mark false f) = some 0 := by
  have h := divided_fields s
  generalize fields s = fs at h
  induction h with
  | @last s depth h =>
    have hd := through_change h
    rw [hc] at hd
    rw [hd, ← through_trim hs] at h
    split_ifs
    · exact fun f hf => absurd hf not_mem_nil
    · exact forall_mem_singleton.2 h
  | @cons u s fs hu ht _ ih =>
    have hd := through_change ht
    rw [hu, mark_cons (c := ',') (by decide), change_append, ← zero_add (change (mark false u)),
      ← hd] at hc
    rw [hu.append_iff, ← singleton_append, (apart_char (by decide)).append_iff] at hs
    refine forall_mem_cons.2 ⟨by rw [through_trim hu, ht], ih hs ?_⟩
    simpa [change, depthChange] using hc

theorem divided_blank (h : Divided s fs) : Divided (' ' :: s) fs := by
  cases h with
  | last h =>
    exact .last (by exact h)
  | cons hu h hs =>
    exact .cons ((apart_char (by decide)).append_iff.2 hu) (by exact h) hs

theorem fields_intercalate
    (h : ∀ e ∈ es, trim e ≠ [] ∧ Apart false e false ∧ through 0 (mark false e) = some 0) :
    fields ([',', ' '].intercalate es) = es.map trim := by
  refine Divided.fields_eq ?_
  revert h
  refine intercalate_induction (P := fun es s => (∀ e ∈ es, trim e ≠ [] ∧ Apart false e false ∧
    through 0 (mark false e) = some 0) → Divided s (es.map trim)) ?_ ?_ ?_ es
  · exact fun _ => Divided.last (show through 0 (mark false []) = some 0 from rfl)
  · intro e h
    obtain ⟨hne, -, hd⟩ := h e mem_cons_self
    have hl := Divided.last hd
    rwa [if_neg hne] at hl
  · intro e es s _ ih h
    obtain ⟨⟨-, ha, hd⟩, hes⟩ := forall_mem_cons.1 h
    exact .cons ha hd (divided_blank (ih hes))

end depth

/-- The pairs of brackets. -/
def bracketPairs : List (Char × Char) := [('(', ')'), ('[', ']'), ('\x7b', '\x7d'), ('<', '>')]

/-- Of each kind as many brackets are closed in the initializer as are opened; those in strings do
not count. -/
def ArrayText.Balanced (a : ArrayText) : Prop :=
  ∀ p ∈ bracketPairs,
    (a.elements.flatMap (mark false)).count (p.1, true) =
    (a.elements.flatMap (mark false)).count (p.2, true)

instance (a : ArrayText) : Decidable a.Balanced :=
  inferInstanceAs (Decidable (∀ p ∈ bracketPairs, _))

theorem change_eq (ms : List (Char × Bool)) :
    change ms = (bracketPairs.map fun p => (ms.count (p.1, true) : Int) -
      ms.count (p.2, true)).sum := by
  induction ms with
  | nil => rfl
  | cons m ms ih =>
    have hm : change (m :: ms) = (if m.2 then depthChange m.1 else 0) + change ms := by
      simp [change]
    obtain ⟨c, counts⟩ := m
    rw [hm, ih]
    cases counts with
    | false => simp
    | true =>
      by_cases hc : ∃ p ∈ bracketPairs, c = p.1 ∨ c = p.2
      · obtain ⟨p, hp, hc⟩ := hc
        simp only [bracketPairs, mem_cons, not_mem_nil, or_false] at hp
        rcases hp with rfl | rfl | rfl | rfl <;> rcases hc with rfl | rfl <;>
          simp [bracketPairs, depthChange] <;> omega
      · simp  at hc
        simp [bracketPairs, depthChange, hc]

theorem count_fields (hb : isBlank c = false) (hc : c ≠ ',') (hs : Apart false s false) :
    ((fields s).flatMap (mark false)).count (c, true) = (mark false s).count (c, true) := by
  have hq : ∀ {d}, isBlank d → ((d, true) == (c, true)) = false := by
    intro d hd
    refine beq_eq_false_iff_ne.2 fun h => ?_
    rw [(Prod.mk.inj h).1, hb] at hd
    cases hd
  rw [count_eq_length_filter, count_eq_length_filter, filter_flatMap,
    filter_fields hq (by simp [hc.symm]) hs]

theorem Parts.elements_through {gap body : List Char} (h : Parts s a head type gap body)
    (hb : a.Balanced) :
    ∀ e ∈ a.elements, Apart false e false ∧ trim e = e ∧ through 0 (mark false e) = some 0 := by
  have hpairs : ∀ p ∈ bracketPairs, (isBlank p.1 = false ∧ p.1 ≠ ',') ∧ isBlank p.2 = false ∧
      p.2 ≠ ',' := by
    decide
  have hc : change (mark false body) = 0 := by
    rw [change_eq]
    refine sum_eq_zero fun n hn => ?_
    obtain ⟨p, hp, rfl⟩ := mem_map.1 hn
    obtain ⟨⟨h1, h2⟩, h3, h4⟩ := hpairs p hp
    have hcount := hb p hp
    rw [h.elements, count_fields h1 h2 h.body_apart, count_fields h3 h4 h.body_apart] at hcount
    rw [hcount, sub_self]
  intro e he
  obtain ⟨h1, h2⟩ := h.elements_apart e he
  exact ⟨h1, h2, through_fields h.body_apart hc e (h.elements ▸ he)⟩

/-! ## Concatenation -/

/-- The concatenation of two balanced arrays without empty elements is read back as such. -/
theorem splitArray_append {s' : List Char} {b : ArrayText} (ha : splitArray s name = .ok a)
    (hb : splitArray s' name = .ok b) (hba : a.Balanced) (hbb : b.Balanced) (hea : [] ∉ a.elements)
    (heb : [] ∉ b.elements) : splitArray (a.append b).render name = .ok (a.append b) := by
  obtain ⟨head, type, gap, body, hpa⟩ := exists_parts ha
  obtain ⟨head', type', gap', body', hpb⟩ := exists_parts hb
  have hes := forall_mem_append.2 ⟨hpa.elements_through hba, hpb.elements_through hbb⟩
  have hf : fields ([',', ' '].intercalate (a.append b).elements) = (a.append b).elements := by
    refine (fields_intercalate fun e he => ?_).trans
      ((map_congr_left fun e he => (hes e he).2.1).trans (map_id' _))
    obtain ⟨ha, ht, hd⟩ := hes e he
    exact ⟨fun h => (mem_append.1 (h ▸ ht.symm ▸ he)).elim hea heb, ha, hd⟩
  have h := (hpa.append hpb).splitArray name
  rwa [hf] at h

theorem joinArrays_eq {first second : String} {b : ArrayText}
    (ha : splitArray first.toList name = .ok a) (hb : splitArray second.toList name = .ok b) :
    joinArrays first second name = .ok (String.ofList (a.append b).render) := by
  unfold joinArrays
  rw [ha, hb]
  rfl

/-- A table with brackets and commas between brackets and in a string. -/
def sampleTable : String :=
  "appending global [1 x %t] [%t \x7b i32 1, ptr @\"a,]\\22\" \x7d], section \"x\""

/-- A table without a section, with blanks that the concatenation does not keep. -/
def sampleEntries : String :=
  "[ 2 x  %t ] [%t undef ,%t\x7b i32 2, ptr getelementptr ([2 x i8], ptr @b, i64 0)\x7d ]"

def sampleTableParts : ArrayText :=
  ⟨"appending global ".toList, 1, "%t".toList, ["%t \x7b i32 1, ptr @\"a,]\\22\" \x7d".toList],
    ", section \"x\"".toList⟩

def sampleEntriesParts : ArrayText :=
  ⟨[], 2, "%t".toList,
    ["%t undef".toList, "%t\x7b i32 2, ptr getelementptr ([2 x i8], ptr @b, i64 0)\x7d".toList], []⟩

end CallAtlas.Link
