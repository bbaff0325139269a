import CallAtlas.Proofs.Ir.Heads
import CallAtlas.Proofs.Ir.Targets

/-!
# Labels and results

Types, local values and labels share the sigil `%`, so a change of type names can reach the label
operands of an instruction, `labelOperands`, and its result. Where types are renamed, a label
operand that is spelled as the name of a renamed type gets that type's new name,
`labelOperands_renameTypes`, and a result is renamed as a text of its own, `result_renameTypes`.
Changes of other references leave both.
-/

namespace CallAtlas.Ir

open Text List
open Option (bind_some map_eq_some_iff map_some toList_map)

/-! ## Label operands -/

/-- Whether a word may start behind the character `previous`. -/
def wordMayFollow (previous : Option Char) : Bool :=
  previous.all fun c => !(isLocalChar c || isSigil c || c = '"')

def labelTail? (s : List Char) : Option (List Char) :=
  (dropHead? "label".toList s).bind fun r =>
    if r.head?.any isBlank then dropHead? ['%'] (trimLeft r) else none

def labelAt? (s : List Char) : Option Spelling :=
  (labelTail? s).bind fun r => (spelling? (run? isNameChar) r).map Prod.fst

/-- The label operands of a text: the names behind `label %`, in order, outside of quotes. -/
def labelOperands (previous : Option Char) (s : List Char) : List Spelling :=
  match s with
  | [] => []
  | c :: r =>
    match _h : quoted? (c :: r) with
    | some (_, rest) => labelOperands (some '"') rest
    | none =>
      (if wordMayFollow previous then labelAt? (c :: r) else none).toList ++
        labelOperands (some c) r
termination_by s.length
decreasing_by
  · have hs := congrArg List.length (quoted?_split _h).1
    have hne := length_pos_iff.2 (quoted?_split _h).2
    rw [length_append] at hs
    omega
  · simp

variable {p : Option Char} {c : Char} {s s' u t : List Char}
variable {rename : String → Option String} {v : Spelling × List Char × List Char}

theorem labelOperands_nil (p : Option Char) : labelOperands p [] = [] := by
  rw [labelOperands]

theorem labelOperands_body {b : List Char} (hb : IsBody b) (p : Option Char) (s : List Char) :
    labelOperands p ('"' :: b ++ '"' :: s) = labelOperands (some '"') s := by
  have hq := quoted?_body hb s
  rw [cons_append] at hq ⊢
  rw [labelOperands]
  split
  · next h =>
    rw [hq] at h
    cases h
    rfl
  · next h =>
    rw [hq] at h
    cases h

theorem labelOperands_cons (hc : c ≠ '"') (p : Option Char) (s : List Char) :
    labelOperands p (c :: s) =
      (if wordMayFollow p then labelAt? (c :: s) else none).toList ++ labelOperands (some c) s := by
  rw [labelOperands]
  split
  · next h =>
    rw [quoted?_ne hc] at h
    cases h
  · rfl

theorem labelOperands_congr {p p' : Option Char} (h : wordMayFollow p = wordMayFollow p')
    (hs : terminated false s) : labelOperands p s = labelOperands p' s := by
  cases s with
  | nil => rw [labelOperands_nil, labelOperands_nil]
  | cons c s =>
    by_cases hq : c = '"'
    · subst hq
      obtain ⟨b, r, hb, rfl, -⟩ := terminated_quote.1 hs
      exact (labelOperands_body hb p r).trans (labelOperands_body hb p' r).symm
    · rw [labelOperands_cons hq, labelOperands_cons hq, h]

theorem labelAt?_ne (hc : c ≠ 'l') (s : List Char) : labelAt? (c :: s) = none := by
  have hd : dropHead? "label".toList (c :: s) = none := by
    cases hd : dropHead? "label".toList (c :: s) with
    | none => rfl
    | some r => exact absurd (cons.inj (dropHead?_eq_some hd)).1 hc
  rw [labelAt?, labelTail?, hd]
  rfl

theorem labelOperands_token (hp : wordMayFollow p = false) (hu : Token u)
    (hs : terminated false s) :
    labelOperands p (u ++ s) = labelOperands (some '"') s := by
  cases hu with
  | @bare u hu =>
    induction u generalizing p with
    | nil => exact labelOperands_congr hp hs
    | cons d u ih =>
      have hd := hu d mem_cons_self
      have hl : wordMayFollow (some d) = false := by
        simp [wordMayFollow, isLocalChar_of_isBare hd]
      rw [cons_append, labelOperands_cons (isBare_ne_quote hd), hp]
      exact ih hl fun e he => hu e (mem_cons_of_mem _ he)
  | @quoted b hb =>
    rw [quoted_append, labelOperands_body hb]

theorem labelOperands_reference (hc : isSigil c) (hu : Token u) (hs : terminated false s)
    (p : Option Char) : labelOperands p (c :: u ++ s) = labelOperands (some '"') s := by
  have hl : c ≠ 'l' := by
    rintro rfl
    revert hc
    decide
  have hp : wordMayFollow (some c) = false := by simp [wordMayFollow, hc]
  rw [cons_append, labelOperands_cons (isSigil_ne_quote hc), labelAt?_ne hl, ite_self,
    labelOperands_token hp hu hs]
  rfl

/-! ## Results -/

theorem readResult?_eq (s : List Char) : readResult? s =
    (dropHead? ['%'] (trimLeft s)).bind fun r => (spelling? (run? isLocalChar) r).bind fun v =>
      (afterEquals? v.2.2).map fun body => ('%' :: v.2.1, body) := by
  unfold readResult?
  split
  · next r hr =>
    rw [hr, dropHead?_cons, bind_some]
    split
    · next h => rw [h]; rfl
    · next h => rw [h]; rfl
  · next hr => rw [dropHead?_eq_none hr]; rfl

theorem afterEquals?_eq (s : List Char) :
    afterEquals? s = (dropHead? ['='] (trimLeft s)).map trimLeft := by
  unfold afterEquals?
  split
  · next r hr => rw [hr]; rfl
  · next hr => rw [dropHead?_eq_none hr]; rfl

/-! ## Changes of other references -/

section edit

variable {q : Char → Bool}

theorem Edit.percent_rel (hq : q '%' = false) (h : Edit q s s') :
    Option.Rel (Edit q) (dropHead? ['%'] s) (dropHead? ['%'] s') := by
  refine h.dropHead?_rel fun c hc => ?_
  rw [mem_singleton.1 hc]
  exact ⟨by decide, fun _ => hq⟩

theorem Edit.labelAt?_eq (hq : q '%' = false) (h : Edit q s s') : labelAt? s' = labelAt? s := by
  have ht : Option.Rel (Edit q) (labelTail? s) (labelTail? s') := by
    refine rel_bind (h.dropHead?_rel (plain_apart (plain_word (by decide)))) fun r r' hr => ?_
    rw [hr.head?_eq]
    split_ifs
    · exact hr.trimLeft.percent_rel hq
    · exact .none
  have hw : Option.Rel (fun w w' => w' = w) (labelAt? s) (labelAt? s') := by
    exact rel_bind ht fun r r' hr => rel_map (hr.spelling?_rel fun _ => isNameChar_plain) And.left
  generalize labelAt? s = o, labelAt? s' = o' at hw
  cases hw with
  | none => rfl
  | some h => rw [h]

theorem Edit.labelOperands_eq (hq : q '%' = false) (h : Edit q s s') (p : Option Char) :
    labelOperands p s' = labelOperands p s := by
  induction h generalizing p with
  | nil => rfl
  | char hc h ih =>
    rw [labelOperands_cons hc, labelOperands_cons hc, (char hc h).labelAt?_eq hq, ih]
  | literal hb _ ih => rw [labelOperands_body hb, labelOperands_body hb, ih]
  | token hc _ hu hu' h ih =>
    rw [labelOperands_reference hc hu' h.terminated.2, labelOperands_reference hc hu h.terminated.1,
      ih]

theorem Edit.afterEquals?_rel (h : Edit q s s') :
    Option.Rel (Edit q) (afterEquals? s) (afterEquals? s') := by
  rw [afterEquals?_eq, afterEquals?_eq]
  exact rel_map (h.trimLeft.dropHead?_rel (plain_apart (plain_word (by decide)))) Edit.trimLeft

/-- The same result is read of both texts. -/
theorem Edit.readResult?_rel (hq : q '%' = false) (h : Edit q s s') :
    SameRead q (readResult? s) (readResult? s') := by
  rw [readResult?_eq, readResult?_eq]
  refine rel_bind (h.trimLeft.percent_rel hq) fun r r' hr => ?_
  refine rel_bind (hr.spelling?_rel fun _ => isLocalChar_plain) fun v v' hv => ?_
  exact rel_map hv.2.2.afterEquals?_rel fun h => ⟨by rw [hv.2.1], h⟩

end edit

/-! ## Renaming types -/

/-- Whether a local name is spelled as the name of a type: numbers are not. -/
def Spelling.namesType : Spelling → Bool
  | .bare name => name.head?.any isNameStart
  | .quoted _ => true

/-- The name of a local value or a label after a renaming of types. -/
def Spelling.renamed (rename : String → Option String) (w : Spelling) : List Char :=
  if w.namesType then renewal rename w.name else w.name

/-- Every new name is the old one with a number behind it, and the old one is legible. -/
def Suffixes (rename : String → Option String) : Prop :=
  ∀ ⦃x y⦄, rename x = some y → Suffixed x.toList y.toList ∧ Legible x.toList

theorem Suffixes.reads (hw : Suffixes rename) {x y : String} (h : rename x = some y) :
    Writable y.toList ∧ ReadsBack typeReader '%' y.toList :=
  ⟨writable_suffixed (hw h).1, (hw h).1.readsBack rfl bareForm_bareName? id (hw h).2⟩

theorem Suffixes.ne (hw : Suffixes rename) {x y : String} (h : rename x = some y) : y ≠ x := by
  rintro rfl
  obtain ⟨d, ds, hs, -⟩ := (hw h).1
  have hlen := congrArg length hs
  simp at hlen

theorem Suffixes.replaces (hw : Suffixes rename) :
    Replaces typeReader (· = '%') (respell ['%'] rename) :=
  replaces_respell rfl sigiled_typeReader.token fun h => (hw.reads h).1

theorem spelling?_of_bareName? (h : spelling? bareName? s = some v) :
    spelling? (run? isNameChar) s = some v ∧ v.1.namesType := by
  by_cases hs : s.head? = some '"'
  · obtain ⟨r, rfl⟩ : ∃ r, s = '"' :: r := head?_eq_some_iff.1 hs
    refine ⟨h, ?_⟩
    obtain ⟨_, -, rfl⟩ := map_eq_some_iff.1 h
    rfl
  · rw [spelling?_bare hs] at h ⊢
    obtain ⟨⟨n, r⟩, hn, rfl⟩ := map_eq_some_iff.1 h
    obtain ⟨d, u, rfl, hd, hu, hr⟩ := bareName?_eq_some hn
    have hchars := bareName?_chars hn
    rw [(bareName?_split hn).1, run?_append (by simp) hchars hr]
    exact ⟨rfl, hd⟩

/-- A local name that is not read as the name of a type is not spelled as one. -/
theorem namesType_eq_false (h : spelling? bareName? s = none)
    (hs : terminated false s) (hv : spelling? (run? isNameChar) s = some v) :
    v.1.namesType = false := by
  by_cases hq : s.head? = some '"'
  · obtain ⟨r, rfl⟩ : ∃ r, s = '"' :: r := head?_eq_some_iff.1 hq
    obtain ⟨b, t, hb, rfl, -⟩ := terminated_quote.1 hs
    have hb' : spelling? bareName? ('"' :: b ++ '"' :: t) = _ := spelling?_body hb t
    rw [cons_append, h] at hb'
    cases hb'
  · rw [spelling?_bare hq] at h hv
    obtain ⟨⟨n, r⟩, hn, rfl⟩ := map_eq_some_iff.1 hv
    rw [Option.map_eq_none_iff, bareName?_eq_none, (run?_split hn).1] at h
    obtain ⟨d, n, rfl⟩ := exists_cons_of_ne_nil (run?_eq_some hn).1
    exact h

section rename

variable {rename : String → Option String}

theorem spelling?_renameTypes (hw : Suffixes rename) (ht : Tidy typeReader ('%' :: t)) :
    ∃ t', mapReferences typeReader (respell ['%'] rename) ('%' :: t) = '%' :: t' ∧
      (spelling? (run? isNameChar) t').map (fun v => v.1.name) =
        (spelling? (run? isNameChar) t).map fun v => v.1.renamed rename := by
  have hread := read_sigil (R := typeReader) rfl t
  cases hs : spelling? bareName? t with
  | none =>
    rw [hs] at hread
    have ht' := (tidy_cons (by decide) hread).1 ht
    refine ⟨_, mapReferences_cons typeReader _ (by decide) hread, ?_⟩
    have he :=
      (mapReferences_edit hw.replaces ht'.terminated).spelling?_rel fun _ => isNameChar_plain
    have hn : ∀ v, spelling? (run? isNameChar) t = some v → v.1.renamed rename = v.1.name := by
      intro v hv
      rw [Spelling.renamed, namesType_eq_false hs ht'.terminated hv]
      rfl
    generalize spelling? (run? isNameChar) t = o,
      spelling? (run? isNameChar) (mapReferences typeReader (respell ['%'] rename) t) = o' at he hn
    cases he with
    | none => rfl
    | some h => exact congrArg some ((congrArg Spelling.name h.1).trans (hn _ rfl).symm)
  | some v =>
    obtain ⟨w, u, r⟩ := v
    rw [hs] at hread
    obtain ⟨hw1, hw2⟩ := spelling?_of_bareName? hs
    obtain ⟨hu, hsplit⟩ : Token u ∧ t = u ++ r :=
      ⟨spelling?_token bareForm_bareName?.chars hs, (spelling?_split bareName?_split hs).1⟩
    subst hsplit
    obtain ⟨hsr, htr⟩ := (tidy_read rfl hu hread).1 ht
    have hh := (mapReferences_edit hw.replaces htr.terminated).head?_eq
    have hm := mapReferences_read typeReader (respell ['%'] rename) (by decide) (by decide) hread
    rw [hm, hw1]
    obtain ⟨w', hr', hn⟩ := sigiled_typeReader.read_respell (fun h => (hw.reads h).2) hread hsr hh
    obtain ⟨t', u', he, hu', hs'⟩ := sigilRead_eq_some hr'
    refine ⟨t', he, ?_⟩
    rw [(spelling?_of_bareName? hs').1, map_some, map_some, hn, Spelling.renamed, hw2]
    rfl

theorem percent_renameTypes (hw : Suffixes rename) (hs : Tidy typeReader s) :
    Option.Rel (fun t t' => Tidy typeReader ('%' :: t) ∧
      mapReferences typeReader (respell ['%'] rename) ('%' :: t) = '%' :: t') (dropHead? ['%'] s)
        (dropHead? ['%'] (mapReferences typeReader (respell ['%'] rename) s)) := by
  have hh := (mapReferences_edit hw.replaces hs.terminated).head?_eq
  cases hd : dropHead? ['%'] s with
  | some t =>
    obtain rfl := dropHead?_eq_some hd
    obtain ⟨t', ht⟩ := head?_eq_some_iff.1 hh
    rw [ht]
    exact .some ⟨hs, ht⟩
  | none =>
    rw [dropHead?_eq_none]
    · exact .none
    · intro t' ht
      rw [ht] at hh
      obtain ⟨t, rfl⟩ := head?_eq_some_iff.1 hh.symm
      cases hd

theorem labelAt?_renameTypes (hw : Suffixes rename) (hs : Tidy typeReader s) :
    (labelAt? (mapReferences typeReader (respell ['%'] rename) s)).map Spelling.name =
      (labelAt? s).map (Spelling.renamed rename) := by
  have hplain : ∀ d ∈ "label".toList, d ≠ '"' ∧ isSigil d = false := plain_word (by decide)
  have ht : Option.Rel (fun t t' => Tidy typeReader ('%' :: t) ∧
      mapReferences typeReader (respell ['%'] rename) ('%' :: t) = '%' :: t') (labelTail? s)
      (labelTail? (mapReferences typeReader (respell ['%'] rename) s)) := by
    have hd := (mapReferences_edit hw.replaces hs.terminated).dropHead?_rel (plain_apart hplain)
    unfold labelTail?
    cases hl : dropHead? "label".toList s with
    | none =>
      rw [hl] at hd
      generalize dropHead? "label".toList (mapReferences typeReader (respell ['%'] rename) s) =
        o at hd ⊢
      cases hd
      exact .none
    | some r =>
      obtain rfl := dropHead?_eq_some hl
      rw [mapReferences_plain_append hw.replaces (plain_apart hplain), dropHead?_append]
      have hr := (references_plain_append sigiled_typeReader.sighted hplain r).2.1 hs
      rw [bind_some, bind_some, (mapReferences_edit hw.replaces hr.terminated).head?_eq,
        ← mapReferences_trimLeft hw.replaces hr.terminated]
      split_ifs
      · exact percent_renameTypes hw ((references_trimLeft sigiled_typeReader.sighted r).2.2 hr)
      · exact .none
  unfold labelAt?
  generalize labelTail? s = o,
    labelTail? (mapReferences typeReader (respell ['%'] rename) s) = o' at ht
  cases ht with
  | none => rfl
  | @some t t' h =>
    obtain ⟨t'', he, hn⟩ := spelling?_renameTypes hw h.1
    obtain rfl : t'' = t' := (cons.inj (he.symm.trans h.2)).2
    rw [bind_some, bind_some, Option.map_map, Option.map_map]
    exact hn

theorem labelOperands_renameTypes (hw : Suffixes rename) (hs : Tidy typeReader s)
    (p : Option Char) :
    (labelOperands p (mapReferences typeReader (respell ['%'] rename) s)).map Spelling.name =
      (labelOperands p s).map (Spelling.renamed rename) := by
  have ht := hs.terminated
  induction ht using hw.replaces.induction generalizing p with
  | nil =>
    rw [mapReferences_nil, labelOperands_nil]
    rfl
  | char c s hq _ hr ih =>
    have hl := labelAt?_renameTypes hw hs
    rw [mapReferences_cons typeReader _ hq hr] at hl ⊢
    rw [labelOperands_cons hq, labelOperands_cons hq, map_append, map_append,
      ih ((tidy_cons hq hr).1 hs)]
    split_ifs
    · rw [← toList_map, ← toList_map, hl]
    · rfl
  | quoted b s hb _ ih =>
    rw [mapReferences_body hb, labelOperands_body hb, labelOperands_body hb,
      ih ((tidy_body hb).1 hs)]
  | reference w c u u' r hc _ hu hu' hfu hr ht ih =>
    have hm := (mapReferences_edit hw.replaces ht).terminated.2
    rw [mapReferences_token hc hr hfu, labelOperands_reference hc hu' hm,
      labelOperands_reference hc hu ht, ih ((tidy_read hc hu hr).1 hs).2]

/-! ## Results under a renaming of types -/

theorem Suffixed.writeName_bare {n r y : List Char} (hy : Suffixed n y)
    (hn : bareName? (n ++ r) = some (n, r)) :
    writeName ['%'] y = '%' :: y ∧ ∀ d ∈ y, isNameChar d := by
  have hb : isBareName y := by
    obtain ⟨c, u, rfl, hc, hu, -⟩ := bareName?_eq_some hn
    obtain ⟨d, ds, rfl, hd⟩ := hy
    have hchars : ∀ e ∈ u ++ '.' :: (ds ++ [d]), isNameChar e := by
      intro e he
      rcases mem_append.1 he with he | he
      · exact hu e he
      · rcases mem_cons.1 he with rfl | he
        · decide
        · exact isNameChar_of_isAsciiDigit (hd e he)
    have hs := bareName?_cons hc hchars (r := []) rfl
    rw [append_nil] at hs
    rw [isBareName, cons_append, hs]
    rfl
  exact ⟨by rw [writeName, hb]; rfl, hy.bare hb⟩

inductive LocalText : List Char → Prop where
  | bare {u : List Char} : u ≠ [] → (∀ c ∈ u, isLocalChar c) → LocalText u
  | quoted {b : List Char} : IsBody b → LocalText ('"' :: b ++ ['"'])

theorem localText_of_spelling? {w : Spelling} {r : List Char}
    (h : spelling? (run? isLocalChar) s = some (w, u, r)) :
    LocalText u := by
  unfold spelling? at h
  split at h
  · obtain ⟨⟨b, r⟩, hb, he⟩ := map_eq_some_iff.1 h
    cases he
    exact .quoted (isBody_of_closeQuote hb)
  · obtain ⟨⟨n, r⟩, hn, he⟩ := map_eq_some_iff.1 h
    cases he
    exact .bare (run?_eq_some hn).1 (run?_eq_some hn).2.1

namespace LocalText

theorem terminated (hu : LocalText u) : Ir.terminated false u := by
  cases hu with
  | bare _ hu => exact terminated_plain fun c hc => (isLocalChar_plain (hu c hc)).1
  | quoted hb => exact terminated_body hb []

theorem spelling? (hu : LocalText u) {r : List Char} (hr : r.head?.any isLocalChar = false) :
    ∃ w, Ir.spelling? (run? isLocalChar) (u ++ r) = some (w, u, r) := by
  cases hu with
  | @bare u hne hu =>
    have hq : (u ++ r).head? ≠ some '"' := by
      obtain ⟨d, u, rfl⟩ := exists_cons_of_ne_nil hne
      intro h
      exact (isLocalChar_plain (hu d mem_cons_self)).1 (Option.some.inj h)
    exact ⟨.bare u, by rw [spelling?_bare hq, run?_append hne hu hr]; rfl⟩
  | @quoted b hb =>
    exact ⟨.quoted b, by rw [quoted_append, spelling?_body hb]⟩

theorem of_token (hu : Token u) (hne : u ≠ []) : LocalText u := by
  cases hu with
  | bare hu => exact .bare hne fun c hc => isLocalChar_of_isBare (hu c hc)
  | quoted hb => exact .quoted hb

theorem renameTypes (hw : Suffixes rename) (hu : LocalText u) :
    ∃ u', mapReferences typeReader (respell ['%'] rename) ('%' :: u) = '%' :: u' ∧
    LocalText u' := by
  cases hu with
  | @quoted b hb =>
    have hr := read_quoted (R := typeReader) rfl hb []
    rw [append_nil] at hr
    have hm := mapReferences_read typeReader (respell ['%'] rename) (by decide) (by decide) hr
    rw [mapReferences_nil, append_nil] at hm
    obtain ⟨w', hr', -⟩ :=
      sigiled_typeReader.read_respell (fun {x y} (h : rename x = some y) => (hw.reads h).2)
        hr rfl rfl
    obtain ⟨t', u', -, hu', hs'⟩ := sigilRead_eq_some hr'
    exact ⟨u', hm.trans hu',
      of_token (spelling?_token bareForm_bareName?.chars hs')
      (spelling?_split bareName?_split hs').2⟩
  | @bare u hne hu =>
    have hplain : ∀ {v : List Char}, (∀ d ∈ v, isLocalChar d) →
        mapReferences typeReader (respell ['%'] rename) v = v := by
      intro v hv
      have hm :=
        mapReferences_plain_append hw.replaces (plain_apart fun d hd => isLocalChar_plain (hv d hd))
          []
      rwa [mapReferences_nil, append_nil] at hm
    have hread := read_sigil (R := typeReader) rfl u
    have hq : u.head? ≠ some '"' := by
      intro h
      exact (isLocalChar_plain (hu _ (mem_of_mem_head? h))).1 rfl
    rw [spelling?_bare hq] at hread
    cases hs : bareName? u with
    | none =>
      rw [hs] at hread
      exact ⟨u, by rw [mapReferences_cons typeReader _ (by decide) hread, hplain hu], .bare hne hu⟩
    | some v =>
      obtain ⟨n, r⟩ := v
      obtain rfl := (bareName?_split hs).1
      rw [hs] at hread
      have hr : ∀ d ∈ r, isLocalChar d := fun d hd => hu d (mem_append_right _ hd)
      rw [mapReferences_read typeReader _ (by decide) (by decide) hread]
      rw [hplain hr]
      unfold respell
      cases hx : rename (String.ofList (Spelling.bare n).name) with
      | none => exact ⟨n ++ r, rfl, .bare hne hu⟩
      | some y =>
        have hy := (hw hx).1
        rw [String.toList_ofList] at hy
        obtain ⟨he, hchars⟩ := hy.writeName_bare hs
        refine ⟨y.toList ++ r, congrArg (· ++ r) he, .bare ?_ fun d hd => ?_⟩
        · obtain ⟨d, ds, hy, -⟩ := hy
          simp [hy]
        · rcases mem_append.1 hd with hd | hd
          · exact isLocalChar_of_isBare (isBare_of_isNameChar (hchars d hd))
          · exact hr d hd

end LocalText

theorem afterEquals?_breaks {r body : List Char} (h : afterEquals? r = some body) : breaks r := by
  cases r with
  | nil => rfl
  | cons d r =>
    cases hd : isBlank d with
    | true => exact isBlank_isBreak hd
    | false =>
      have ht : trimLeft (d :: r) = d :: r := by simp [trimLeft, hd]
      rw [afterEquals?_eq, ht] at h
      obtain ⟨t, ht, -⟩ := map_eq_some_iff.1 h
      obtain ⟨rfl, -⟩ := cons.inj (dropHead?_eq_some ht)
      rfl

theorem isLocalChar_of_breaks {r : List Char} (h : breaks r) : r.head?.any isLocalChar = false := by
  cases r with
  | nil => rfl
  | cons d r =>
    by_contra hd
    have hl : isLocalChar d := by simpa using hd
    have hb : isBreak d := h
    simp only [isLocalChar, Bool.or_eq_true, decide_eq_true_eq] at hl
    rcases hl with ((hl | rfl) | rfl) | rfl
    · rw [isBreak, hl, Bool.not_true, Bool.and_false] at hb
      cases hb
    all_goals exact absurd hb (by decide)

theorem readResult?_renameTypes (hw : Suffixes rename) (hs : Tidy typeReader s) {r body : List Char}
    (h : readResult? s = some (r, body)) : ∃ body',
    readResult? (mapReferences typeReader (respell ['%'] rename) s) =
      some (mapReferences typeReader (respell ['%'] rename) r, body') := by
  rw [readResult?_eq] at h
  obtain ⟨m, hm, h⟩ := Option.bind_eq_some_iff.1 h
  obtain ⟨⟨w, u, v⟩, hv, h⟩ := Option.bind_eq_some_iff.1 h
  obtain ⟨body, he, heq⟩ := map_eq_some_iff.1 h
  cases heq
  have hu := localText_of_spelling? hv
  have hbr := afterEquals?_breaks he
  have hts := (references_trimLeft sigiled_typeReader.sighted s).2.2 hs
  rw [dropHead?_eq_some hm, (spelling?_split run?_split hv).1] at hts
  have hterm : terminated false ('%' :: u) := by
    exact hu.terminated
  have hv' : terminated false v := by
    have := hts.terminated
    rwa [singleton_append, ← cons_append, terminated_append hterm] at this
  have htrim : trimLeft (mapReferences typeReader (respell ['%'] rename) s) =
      mapReferences typeReader (respell ['%'] rename) ('%' :: u) ++
      mapReferences typeReader (respell ['%'] rename) v := by
    rw [← mapReferences_trimLeft hw.replaces hs.terminated, dropHead?_eq_some hm,
      (spelling?_split run?_split hv).1,
      singleton_append, ← cons_append,
      mapReferences_append sigiled_typeReader.sighted hw.replaces hterm hbr]
  obtain ⟨u', hu', hl⟩ := hu.renameTypes hw
  have hedit := mapReferences_edit hw.replaces hv'
  have hbr' : breaks (mapReferences typeReader (respell ['%'] rename) v) := by
    rw [breaks, hedit.head?_eq]
    exact hbr
  obtain ⟨w', hw'⟩ := hl.spelling? (isLocalChar_of_breaks hbr')
  have heq := hedit.afterEquals?_rel
  rw [he] at heq
  generalize hv'' : mapReferences typeReader (respell ['%'] rename) v = v' at *
  generalize he' : afterEquals? v' = o at heq
  cases heq with
  | @some _ body' _ =>
    refine ⟨body', ?_⟩
    rw [readResult?_eq, htrim, hu', cons_append, dropHead?_cons, bind_some, hw', bind_some, he']
    rfl

theorem result_renameTypes (hw : Suffixes rename) {text r : String}
    (ht : Tidy typeReader text.toList) (h : Instruction.result ⟨text⟩ = some r) :
    Instruction.result ⟨renameTypes rename text⟩ = some (renameTypes rename r) := by
  obtain ⟨⟨r, body⟩, hr, rfl⟩ := map_eq_some_iff.1 h
  obtain ⟨body', hr'⟩ := readResult?_renameTypes hw ht hr
  have he : (renameTypes rename text).toList = mapReferences typeReader (respell ['%'] rename)
      text.toList :=
    toList_renameWith _ _ _ _
  rw [Instruction.result, he, hr']
  refine congrArg some (String.toList_injective ?_)
  simp only [renameTypes, toList_renameWith, String.toList_ofList]
  rfl

end rename

end CallAtlas.Ir
