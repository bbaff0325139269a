import CallAtlas.Proofs.Ir.Heads
import CallAtlas.Proofs.Ir.Linkage

/-!
# Comdat groups of changed texts

The search for the keyword `comdat` knows no quotes, so what it finds can change with the names that
a text mentions. In an `overt` text the keyword stands outside quotes only. A change of references
is `Discreet` if neither the old references nor the new ones hold the keyword, and then an overt
text stays overt and names the group that it named: `Discreet.findComdat?`. Renaming is discreet if
no new name in quotes holds the keyword, renumbering always. The comdat group of a symbol therefore
stays, unless it is the one that is implied by the symbol's own name: `comdat_relabel`.
-/

namespace CallAtlas.Ir

open Text List

variable {c d : Char} {p : Option Char} {u : List Char} {s : List Char}

/-! ## The keyword -/

/-- The keyword `comdat` at the head of a text. -/
def KeywordAt (s : List Char) : Prop := ∃ r, s = "comdat".toList ++ r ∧ startsLocal r = false

theorem comdatAt?_eq_none_iff : comdatAt? s = none ↔ ¬ KeywordAt s := by
  constructor
  · rintro h ⟨r, rfl, hr⟩
    have hd : dropHead? "comdat".toList ("comdat".toList ++ r) = some r := dropHead?_append _ r
    unfold comdatAt? at h
    simp only [hd, hr, Bool.false_eq_true, if_false] at h
    split at h <;> cases h
  · intro h
    unfold comdatAt?
    cases hd : dropHead? "comdat".toList s with
    | none => rfl
    | some r =>
      have hr : startsLocal r := by
        by_contra hr
        exact h ⟨r, dropHead?_eq_some hd, by simpa using hr⟩
      simp only [hr, if_true]

theorem findComdat?_skip
    (h : keywordMayFollow p → ¬ KeywordAt (c :: s)) :
    findComdat? p (c :: s) = findComdat? (some c) s := by
  rw [findComdat?]
  by_cases hp : keywordMayFollow p
  · rw [if_pos hp, comdatAt?_eq_none_iff.2 (h hp)]
  · rw [if_neg hp]

theorem findComdat?_eq_none_cons : findComdat? p (c :: s) = none ↔
    (keywordMayFollow p → ¬ KeywordAt (c :: s)) ∧ findComdat? (some c) s = none := by
  constructor
  · intro h
    have hk : keywordMayFollow p → ¬ KeywordAt (c :: s) := by
      intro hp
      rw [findComdat?, if_pos hp] at h
      rw [← comdatAt?_eq_none_iff]
      cases hc : comdatAt? (c :: s) with
      | none => rfl
      | some v => rw [hc] at h; cases h
    exact ⟨hk, by rwa [← findComdat?_skip hk]⟩
  · rintro ⟨hk, h⟩
    rwa [findComdat?_skip hk]

theorem not_keywordAt (h : c ≠ 'c') (s : List Char) : ¬ KeywordAt (c :: s) := by
  rintro ⟨r, hr, -⟩
  exact h (cons.inj hr).1

theorem findComdat?_of_ne (h : c ≠ 'c') (s : List Char) :
    findComdat? p (c :: s) = findComdat? (some c) s :=
  findComdat?_skip fun _ => not_keywordAt h s

/-! ## Cutting a text -/

theorem KeywordAt.cut (hd : d ∉ "comdat".toList) (h : KeywordAt (u ++ d :: s)) : KeywordAt u := by
  obtain ⟨r, hr, hl⟩ := h
  rcases append_eq_append_iff.1 hr with ⟨a, ha, hs⟩ | ⟨a, rfl, rfl⟩
  · cases a with
    | nil => exact ⟨[], by rw [ha, append_nil, append_nil], rfl⟩
    | cons e a =>
      obtain ⟨rfl, -⟩ := cons.inj hs
      exact absurd (ha ▸ by simp) hd
  · refine ⟨a, rfl, ?_⟩
    cases a with
    | nil => rfl
    | cons e a => exact hl

theorem KeywordAt.append (h : KeywordAt u) (hd : isLocalChar d = false) (s : List Char) :
    KeywordAt (u ++ d :: s) := by
  obtain ⟨r, rfl, hr⟩ := h
  refine ⟨r ++ d :: s, by rw [append_assoc], ?_⟩
  cases r with
  | nil => exact hd
  | cons e r => exact hr

/-- A text without the keyword can be cut off before a character that does not stand in the
keyword. -/
theorem findComdat?_cut (hd : d ∉ "comdat".toList)
    (h : findComdat? p u = none) (s : List Char) :
    findComdat? p (u ++ d :: s) = findComdat? (some d) s := by
  induction u generalizing p with
  | nil =>
    refine findComdat?_of_ne ?_ s
    rintro rfl
    exact hd (by decide)
  | cons c u ih =>
    obtain ⟨hk, h⟩ := findComdat?_eq_none_cons.1 h
    have hk' : keywordMayFollow p → ¬ KeywordAt (c :: u ++ d :: s) := fun hp hc => hk hp (hc.cut hd)
    rw [cons_append] at hk' ⊢
    rw [findComdat?_skip hk', ih h]

theorem isLocalChar_of_keywordMayFollow (h : keywordMayFollow (some d)) :
    isLocalChar d = false := by
  simp only [keywordMayFollow, Bool.not_eq_true', Bool.or_eq_false_iff] at h
  exact h.1.1.1

theorem notMem_comdat (h : isLocalChar d = false) : d ∉ "comdat".toList := by
  have hc : "comdat".toList.all isLocalChar := by decide
  intro hd
  rw [all_eq_true.1 hc d hd] at h
  cases h

theorem findComdat?_eq_none_left (hd : isLocalChar d = false)
    (h : findComdat? p (u ++ d :: s) = none) : findComdat? p u = none := by
  induction u generalizing p with
  | nil => rfl
  | cons c u ih =>
    rw [cons_append, findComdat?_eq_none_cons] at h
    exact findComdat?_eq_none_cons.2 ⟨fun hp hk => h.1 hp (hk.append hd s), ih h.2⟩

theorem findComdat?_eq_none_append (hd : keywordMayFollow (some d)) :
    findComdat? p (u ++ d :: s) = none ↔ findComdat? p u = none ∧ findComdat? none s = none := by
  have hl := isLocalChar_of_keywordMayFollow hd
  have hs : findComdat? (some d) s = findComdat? none s := findComdat?_congr hd s
  constructor
  · intro h
    have hu := findComdat?_eq_none_left hl h
    exact ⟨hu, by rw [← hs, ← findComdat?_cut (notMem_comdat hl) hu s, h]⟩
  · rintro ⟨hu, h⟩
    rw [findComdat?_cut (notMem_comdat hl) hu, hs, h]

/-! ## Overt texts -/

/-- Whether no keyword stands in what two quotes enclose. -/
def calm (b : List Char) : Bool := (findComdat? (some '"') b).isNone

theorem findComdat?_body {b : List Char} (hb : calm b) (p : Option Char) (s : List Char) :
    findComdat? p ('"' :: b ++ '"' :: s) = findComdat? (some '"') s := by
  rw [cons_append, findComdat?_of_ne (by decide),
    findComdat?_cut (by decide) (Option.isNone_iff_eq_none.1 hb)]

/-- Whether every quote is closed and no keyword stands between quotes. -/
def overt (s : List Char) : Bool :=
  match s with
  | [] => true
  | c :: s =>
    if c = '"' then
      match _h : closeQuote s with
      | some (b, r) => calm b && overt r
      | none => false
    else overt s
termination_by s.length
decreasing_by
  · rw [closeQuote_split _h]
    simp
    omega
  · simp

theorem overt_cons (hq : c ≠ '"') (s : List Char) : overt (c :: s) = overt s := by
  rw [overt, if_neg hq]

theorem overt_body {b : List Char} (hb : IsBody b) (s : List Char) :
    overt ('"' :: b ++ '"' :: s) = (calm b && overt s) := by
  rw [cons_append, overt, if_pos rfl]
  split
  · next b' r h =>
    rw [closeQuote_body hb] at h
    obtain ⟨rfl, rfl⟩ := Prod.mk.inj (Option.some.inj h)
    rfl
  · next h =>
    rw [closeQuote_body hb] at h
    cases h

theorem terminated_of_overt (h : overt s) : terminated false s := by
  fun_induction overt s with
  | case1 => rfl
  | case2 s b r hc ih =>
    rw [Bool.and_eq_true] at h
    rw [closeQuote_split hc]
    exact (terminated_body (isBody_of_closeQuote hc) r).trans (ih h.2)
  | case3 => cases h
  | case4 c s hq ih =>
    rw [terminated_cons hq]
    exact ih h

theorem overt_append (hu : terminated false u) (v : List Char) :
    overt (u ++ v) = (overt u && overt v) := by
  induction hu using terminated_induction with
  | nil =>
    rw [overt]
    rfl
  | char c s hq hs ih => rw [cons_append, overt_cons hq, overt_cons hq, ih s hs le_rfl]
  | quoted b s hb _ ih =>
    rw [literal_append, overt_body hb, overt_body hb, ih, Bool.and_assoc]

/-- A text without the keyword has none between its quotes. -/
theorem overt_of_findComdat? (ht : terminated false s) :
    ∀ {p : Option Char}, findComdat? p s = none → overt s := by
  induction ht using terminated_induction with
  | nil =>
    intro p _
    rw [overt]
  | char c s hq hs ih =>
    intro p h
    rw [overt_cons hq]
    exact ih s hs le_rfl (findComdat?_eq_none_cons.1 h).2
  | quoted b s hb _ ih =>
    intro p h
    rw [cons_append, findComdat?_of_ne (by decide)] at h
    have hcalm := findComdat?_eq_none_left (by decide) h
    rw [findComdat?_cut (by decide) hcalm] at h
    rw [overt_body hb, calm, hcalm, ih h]
    rfl

/-! ## References without the keyword -/

theorem not_keywordMayFollow (h : isLocalChar c) : keywordMayFollow (some c) = false := by
  simp [keywordMayFollow, h]

theorem findComdat?_word (hp : keywordMayFollow p = false)
    (hu : ∀ c ∈ u, isLocalChar c) (s : List Char) :
    findComdat? p (u ++ s) = findComdat? (some '"') s := by
  induction u generalizing p with
  | nil => exact findComdat?_congr hp s
  | cons c u ih =>
    rw [cons_append, findComdat?_skip (fun h => by rw [hp] at h; cases h)]
    exact ih (not_keywordMayFollow (hu c mem_cons_self)) fun d hd => hu d (mem_cons_of_mem _ hd)

/-- A token behind the sigil `c` in which no keyword is found, nor right behind it. -/
inductive Hushed (c : Char) : List Char → Prop where
  | bare {u : List Char} : keywordMayFollow (some c) = false → (∀ d ∈ u, isBare d) → Hushed c u
  | number {u : List Char} : u ≠ [] → (∀ d ∈ u, isDecimal d) → Hushed c u
  | quoted {b : List Char} : IsBody b → calm b → Hushed c ('"' :: b ++ ['"'])

theorem isDecimal_ne_c (h : isDecimal d) : d ≠ 'c' := by
  rintro rfl
  revert h
  decide

theorem Hushed.findComdat? (hc : isSigil c) (hu : Hushed c u) (p : Option Char)
    (s : List Char) : Ir.findComdat? p (c :: u ++ s) = Ir.findComdat? (some '"') s := by
  rw [cons_append, findComdat?_of_ne (isSigil_ne_c hc)]
  cases hu with
  | bare hf hb => exact findComdat?_word hf (fun d hd => isLocalChar_of_isBare (hb d hd)) s
  | @number u hne hd =>
    have hl : ∀ d ∈ u, isLocalChar d :=
      fun d h => isLocalChar_of_isBare (isBare_of_isDecimal (hd d h))
    obtain ⟨d, u, rfl⟩ := exists_cons_of_ne_nil hne
    rw [cons_append, findComdat?_of_ne (isDecimal_ne_c (hd d mem_cons_self))]
    exact findComdat?_word (not_keywordMayFollow (hl d mem_cons_self))
      (fun e he => hl e (mem_cons_of_mem _ he)) s
  | @quoted b _ hcalm =>
    rw [quoted_append, findComdat?_body hcalm]

theorem overt_bare (hu : ∀ c ∈ u, isBare c) (s : List Char) : overt (u ++ s) = overt s := by
  induction u with
  | nil => rfl
  | cons c u ih =>
    rw [cons_append, overt_cons (isBare_ne_quote (hu c mem_cons_self)),
      ih fun d hd => hu d (mem_cons_of_mem _ hd)]

theorem Hushed.overt (hc : isSigil c) (hu : Hushed c u) (s : List Char) :
    Ir.overt (c :: u ++ s) = Ir.overt s := by
  rw [cons_append, overt_cons (isSigil_ne_quote hc)]
  cases hu with
  | bare _ hb => exact overt_bare hb s
  | number _ hd => exact overt_bare (fun d h => isBare_of_isDecimal (hd d h)) s
  | @quoted b hb hcalm =>
    rw [quoted_append, overt_body hb, hcalm, Bool.true_and]

/-- A token of an overt text behind a sigil that no keyword follows. -/
theorem Token.hushed (hf : keywordMayFollow (some c) = false) (hu : Token u) (h : overt u) :
    Hushed c u := by
  cases hu with
  | bare hb => exact .bare hf hb
  | @quoted b hb =>
    rw [overt_body hb, Bool.and_eq_true] at h
    exact .quoted hb h.1

/-! ## Groups of edited texts -/

section edit

variable {q : Char → Bool} {s s' : List Char}

theorem comdatGroup?_eq (s : List Char) : comdatGroup? s =
    (dropHead? ['('] (trimLeft s)).bind fun r => (dropHead? ['$'] (trimLeft r)).bind fun r =>
      ((quoted? r).orElse fun _ => run? isNameChar r).bind fun v =>
        (dropHead? [')'] (trimLeft v.2)).bind fun r => some (v.1, r) := by
  unfold comdatGroup?
  split
  · next r hr =>
    rw [hr, dropHead?_cons, Option.bind_some]
    split
    · next r hr =>
      rw [hr, dropHead?_cons, Option.bind_some]
      split
      · next name r hn =>
        rw [hn, Option.bind_some]
        split
        · next rest hr =>
          rw [hr, dropHead?_cons, Option.bind_some]
        · next hr => rw [dropHead?_eq_none hr]; rfl
      · next hn => rw [hn]; rfl
    · next hr => rw [dropHead?_eq_none hr]; rfl
  · next hr => rw [dropHead?_eq_none hr]; rfl

theorem Edit.comdatGroup?_rel (h : Edit q s s') :
    SameRead q (comdatGroup? s) (comdatGroup? s') := by
  rw [comdatGroup?_eq, comdatGroup?_eq]
  refine rel_bind (h.trimLeft.dropHead?_rel (plain_apart (plain_word (by decide)))) fun r r' hr =>
    ?_
  refine rel_bind (hr.trimLeft.dropHead?_rel (plain_apart (plain_word (by decide)))) fun r r' hr =>
    ?_
  have hname : SameRead q ((quoted? r).orElse fun _ => run? isNameChar r)
      ((quoted? r').orElse fun _ => run? isNameChar r') := by
    have hquoted := hr.quoted?_rel
    generalize quoted? r = o, quoted? r' = o' at hquoted
    cases hquoted with
    | none => exact hr.run?_rel fun _ => isNameChar_plain
    | some h => exact .some h
  refine rel_bind hname fun v v' hv => ?_
  refine rel_bind (hv.2.trimLeft.dropHead?_rel (plain_apart (plain_word (by decide))))
    fun r r' hr => ?_
  exact .some ⟨hv.1, hr⟩

theorem Edit.startsLocal_eq (h : Edit q s s') : startsLocal s' = startsLocal s := by
  have hh := h.head?_eq
  cases s <;> cases s' <;> simp_all [startsLocal]

theorem Edit.comdatAt?_fst (h : Edit q s s') :
    (comdatAt? s').map Prod.fst = (comdatAt? s).map Prod.fst := by
  have hk := h.dropHead?_rel (w := "comdat".toList) (plain_apart (plain_word (by decide)))
  unfold comdatAt?
  generalize dropHead? "comdat".toList s = o, dropHead? "comdat".toList s' = o' at hk
  cases hk with
  | none => rfl
  | @some r r' hr =>
    dsimp only
    rw [hr.startsLocal_eq]
    split_ifs
    · rfl
    · have hg := hr.comdatGroup?_rel
      generalize comdatGroup? r = g, comdatGroup? r' = g' at hg
      cases hg with
      | none => rfl
      | some h => exact congrArg (fun n => some (some n)) h.1

end edit

variable {rename : String → Option String}

/-! ## Changes of references -/

/-- A change of references under which no keyword goes away or appears. -/
structure Discreet {α : Type} (R : Reader α) (q : Char → Bool) (f : α → List Char → List Char) :
    Prop where
  replaces : Replaces R q f
  hushed : ∀ {s a t r}, R.read s = some (a, t, r) → overt t →
    ∃ c u u', isSigil c ∧ t = c :: u ∧ f a t = c :: u' ∧ Hushed c u ∧ Hushed c u'

theorem findComdat?_char {s' : List Char}
    (hc : (comdatAt? (c :: s')).map Prod.fst = (comdatAt? (c :: s)).map Prod.fst)
    (hs : findComdat? (some c) s' = findComdat? (some c) s) :
    findComdat? p (c :: s') = findComdat? p (c :: s) := by
  rw [findComdat?, findComdat?]
  split_ifs
  · generalize comdatAt? (c :: s) = o, comdatAt? (c :: s') = o' at hc
    cases o with
    | none =>
      cases o' with
      | none => exact hs
      | some v => cases hc
    | some v =>
      cases o' with
      | none => cases hc
      | some v' => exact hc
  · exact hs

theorem Discreet.findComdat? {α : Type} {R : Reader α} {q : Char → Bool}
    {f : α → List Char → List Char} (hf : Discreet R q f) (hs : overt s) :
    overt (mapReferences R f s) ∧
    ∀ p, Ir.findComdat? p (mapReferences R f s) = Ir.findComdat? p s := by
  have ht := terminated_of_overt hs
  induction ht using hf.replaces.induction with
  | nil =>
    rw [mapReferences_nil]
    exact ⟨hs, fun _ => rfl⟩
  | char c s hq _ hr ih =>
    have hedit := mapReferences_edit hf.replaces (terminated_of_overt hs)
    rw [overt_cons hq] at hs
    rw [mapReferences_cons R f hq hr] at hedit ⊢
    rw [overt_cons hq, (ih hs).1]
    exact ⟨rfl, fun p => findComdat?_char hedit.comdatAt?_fst ((ih hs).2 _)⟩
  | quoted b s hb _ ih =>
    rw [overt_body hb, Bool.and_eq_true] at hs
    rw [mapReferences_body hb, overt_body hb, hs.1, (ih hs.2).1]
    refine ⟨rfl, fun p => ?_⟩
    rw [findComdat?_body hs.1, findComdat?_body hs.1, (ih hs.2).2]
  | reference a c u u' r hc _ hu _ _ hr _ ih =>
    have ht : terminated false (c :: u) := by
      rw [terminated_cons (isSigil_ne_quote hc), ← append_nil u, hu.terminated]
      rfl
    rw [overt_append ht, Bool.and_eq_true] at hs
    obtain ⟨e, w, w', -, hw, hfw, hold, hnew⟩ := hf.hushed hr hs.1
    obtain ⟨rfl, rfl⟩ := cons.inj hw
    rw [mapReferences_token hc hr hfw, hnew.overt hc, (ih hs.2).1]
    refine ⟨rfl, fun p => ?_⟩
    rw [hnew.findComdat? hc, (ih hs.2).2, hold.findComdat? hc]

/-! ## Renaming and renumbering -/

/-- The written form of a name holds no keyword, whichever sigil of names stands before it. -/
def Unheard (name : List Char) : Prop :=
  ∀ c, keywordMayFollow (some c) = false → ∃ u, Hushed c u ∧ writeName [c] name = c :: u

/-- A number behind a name brings no keyword into its written form. -/
theorem Suffixed.unheard {x name : List Char} (h : Suffixed x name) (hx : calm (escape x)) :
    Unheard name := by
  intro c hc
  unfold writeName
  rw [h.not_isNumberName]
  cases hb : isBareName name with
  | true => exact ⟨name, .bare hc fun d hd => isBare_of_isNameChar (h.bare hb d hd), rfl⟩
  | false =>
    refine ⟨'"' :: escape name ++ ['"'], .quoted (isBody_escape name) ?_, rfl⟩
    obtain ⟨d, ds, rfl, hd⟩ := h
    have hbare : ∀ e ∈ ds ++ [d], isBare e :=
      fun e he => isBare_of_isNameChar (isNameChar_of_isAsciiDigit (hd e he))
    have hsuffix : escape ('.' :: (ds ++ [d])) = '.' :: (ds ++ [d]) :=
      (escape_bare (forall_mem_cons.2 ⟨by decide, hbare⟩)).1
    have hname : escape (x ++ '.' :: (ds ++ [d])) = escape x ++ '.' :: (ds ++ [d]) := by
      rw [escape, flatMap_append]
      exact congrArg _ hsuffix
    have hrest :=
      findComdat?_word (p := some '.') (by decide) (fun e he => isLocalChar_of_isBare (hbare e he))
        []
    rw [append_nil] at hrest
    rw [hname, calm, findComdat?_cut (by decide) (Option.isNone_iff_eq_none.1 hx), hrest]
    rfl

theorem discreet_respell {R : Reader Spelling} (hR : Sigiled R c)
    (hc : keywordMayFollow (some c) = false)
    (hw : ∀ {x y}, rename x = some y → Writable y.toList ∧ Unheard y.toList) :
    Discreet R (· = c) (respell [c] rename) where
  replaces := replaces_respell hR.sigil hR.token fun h => (hw h).1
  hushed := by
    intro s w t r h ht
    obtain ⟨u, rfl, hu⟩ := hR.token h
    rw [overt_cons (isSigil_ne_quote hR.sigil)] at ht
    have hold := hu.hushed hc ht
    unfold respell
    cases hr : rename (String.ofList w.name) with
    | none => exact ⟨c, u, u, hR.sigil, rfl, rfl, hold, hold⟩
    | some new =>
      obtain ⟨u', hu', he⟩ := (hw hr).2 c hc
      exact ⟨c, u, u', hR.sigil, rfl, he, hold, hu'⟩

theorem discreet_renumber (k l : Nat) : Discreet numberedReader isNumberSigil (renumber k l) where
  replaces := replaces_renumber k l
  hushed := by
    rintro s ⟨kind, n⟩ t r h -
    obtain ⟨ds, -, rfl, -, hne, hds, -⟩ := numberedRead_eq_some h
    have hnew : ∀ m : Nat, Hushed kind.sigil (intDigits ((n : Int) + (m : Int))) := by
      intro m
      rw [intDigits_add]
      exact .number Nat.toDigits_ne_nil fun d => isDecimal_of_mem_natDigits
    refine ⟨kind.sigil, ds, _, isSigil_numbered kind, rfl, rfl, .number hne hds, ?_⟩
    cases kind with
    | metadata => exact hnew k
    | attributes => exact hnew l

/-- A change of texts that keeps an overt text overt and its comdat group. -/
def KeepsComdat (t : String → String) : Prop := ∀ text : String, overt text.toList →
  overt (t text).toList ∧ findComdat? none (t text).toList = findComdat? none text.toList

theorem KeepsComdat.comp {t u : String → String} (hu : KeepsComdat u) (ht : KeepsComdat t) :
    KeepsComdat (u ∘ t) :=
  fun text h => ⟨(hu _ (ht text h).1).1, (hu _ (ht text h).1).2.trans (ht text h).2⟩

theorem keepsComdat_of_discreet {α : Type} {R : Reader α} {q : Char → Bool}
    {f : α → List Char → List Char}
    (hf : Discreet R q f) {t : String → String}
    (ht : ∀ text, (t text).toList = mapReferences R f text.toList) :
    KeepsComdat t := by
  intro text h
  obtain ⟨h1, h2⟩ := hf.findComdat? h
  rw [ht]
  exact ⟨h1, h2 none⟩

theorem keepsComdat_renameGlobals
    (hw : ∀ {x y}, rename x = some y → Writable y.toList ∧ Unheard y.toList) :
    KeepsComdat (renameGlobals rename) :=
  keepsComdat_of_discreet (discreet_respell sigiled_globalReader (by decide) hw)
    (toList_renameWith _ "@" rename)

theorem keepsComdat_renameTypes
    (hw : ∀ {x y}, rename x = some y → Writable y.toList ∧ Unheard y.toList) :
    KeepsComdat (renameTypes rename) :=
  keepsComdat_of_discreet (discreet_respell sigiled_typeReader (by decide) hw)
    (toList_renameWith _ "%" rename)

theorem keepsComdat_shiftNumbered (k l : Nat) : KeepsComdat (shiftNumbered k l) := by
  by_cases h : (k : Int) = 0 ∧ (l : Int) = 0
  · intro text ht
    rw [shiftNumbered, if_pos h]
    exact ⟨ht, rfl⟩
  · exact keepsComdat_of_discreet (discreet_renumber k l) (toList_shiftNumbered h)

/-! ## Symbols -/

namespace Symbol

/-- The text that the comdat group of a symbol is read from. -/
def groupText : Symbol → String
  | .function f => f.header
  | .global a => a.segment

/-- Whether the symbol is in a comdat group that is not named, which is the one of the symbol's own
name. -/
def impliesComdat (s : Symbol) : Bool := findComdat? none s.groupText.toList = some none

theorem comdat_eq_comdatOf (s : Symbol) : s.comdat = comdatOf s.groupText s.name := by
  cases s <;> rfl

theorem groupText_relabel (text name : String → String) (s : Symbol) :
    (s.relabel text name).groupText = text s.groupText := by
  cases s <;> rfl

theorem comdat_relabel {text : String → String} (ht : KeepsComdat text) (name : String → String)
    {s : Symbol} (hs : overt s.groupText.toList) :
    (s.relabel text name).comdat = if s.impliesComdat then some (name s.name) else s.comdat := by
  rw [comdat_eq_comdatOf, comdat_eq_comdatOf, groupText_relabel, name_relabel, comdatOf, comdatOf,
    (ht _ hs).2, impliesComdat]
  cases findComdat? none s.groupText.toList with
  | none => rfl
  | some o =>
    cases o with
    | none => rfl
    | some n => rfl

end Symbol

end CallAtlas.Ir
