import CallAtlas.Ir.Symbol
import CallAtlas.Proofs.Ir.Scan

/-!
# What the head of a text decides

A text that has its references replaced keeps everything up to the sigil of the first one:
`SameLead`. The leading keywords of a symbol stand before that, so the linkage of a symbol
(`Function.linkage_mapText`, `Global.linkage_mapText`) and whether a function is declared outlast
every change of references. What a global value is lasts only if its kind word stands before any
reference, `Global.kindFirst`.
-/

namespace CallAtlas.Ir

open Text List String

variable {g : Global} {r s s' : List Char}

variable {p : Char → Bool} {bare : List Char → Option (List Char × List Char)} {s : List Char}

/-- The characters that announce a reference. -/
def isSigil (c : Char) : Bool := c = '@' || c = '%' || c = '!' || c = '#'

/-- Two texts that agree up to and including the first character of the class `p`. -/
inductive SameLead (p : Char → Bool) : List Char → List Char → Prop where
  | nil : SameLead p [] []
  | mark {c : Char} {s s' : List Char} : p c → SameLead p (c :: s) (c :: s')
  | cons {c : Char} {s s' : List Char} : SameLead p s s' → SameLead p (c :: s) (c :: s')

namespace SameLead

variable {p q : Char → Bool} {s s' s'' : List Char}

theorem refl (s : List Char) : SameLead p s s := by
  induction s with
  | nil => exact nil
  | cons c s ih => exact cons ih

theorem symm (h : SameLead p s s') : SameLead p s' s := by
  induction h with
  | nil => exact nil
  | mark hc => exact mark hc
  | cons _ ih => exact cons ih

theorem trans (h : SameLead p s s') (h' : SameLead p s' s'') : SameLead p s s'' := by
  induction h generalizing s'' with
  | nil => exact h'
  | mark hc => cases h' with
    | mark _ => exact mark hc
    | cons _ => exact mark hc
  | cons _ ih => cases h' with
    | mark hc => exact mark hc
    | cons h' => exact cons (ih h')

theorem append_left (u : List Char) (h : SameLead p s s') : SameLead p (u ++ s) (u ++ s') := by
  induction u with
  | nil => exact h
  | cons c u ih => exact cons ih

/-- A run without marked characters is the same in both texts, and so is the lead of what
follows. -/
theorem run (h : SameLead p s s') (hr : ∀ c ∈ s.takeWhile q, p c = false) :
    s'.takeWhile q = s.takeWhile q ∧ SameLead p (s.dropWhile q) (s'.dropWhile q) := by
  induction h with
  | nil => exact ⟨rfl, nil⟩
  | @mark c s s' hc =>
    have hq : q c = false := by
      cases hq : q c with
      | false => rfl
      | true =>
        have := hr c (by simp [hq])
        rw [hc] at this
        cases this
    simp [hq, mark hc]
  | @cons c s s' h ih =>
    cases hq : q c with
    | false => simp [hq, cons h]
    | true =>
      have ih := ih fun d hd => hr d (by simp [hq, hd])
      simp [hq, ih.1, ih.2]

theorem trimLeft (hb : ∀ c, p c → isBlank c = false) (h : SameLead p s s') :
    SameLead p (Text.trimLeft s) (Text.trimLeft s') := by
  refine (h.run fun c hc => ?_).2
  have hc : isBlank c := mem_takeWhile_imp hc
  by_contra hp
  rw [hb c (by simpa using hp)] at hc
  cases hc

theorem drop (h : SameLead p s s') {n : Nat} (hn : ∀ c ∈ s.take n, p c = false) :
    s'.take n = s.take n ∧ SameLead p (s.drop n) (s'.drop n) := by
  induction h generalizing n with
  | nil => simp [nil]
  | @mark c s s' hc =>
    cases n with
    | zero => simp [mark hc]
    | succ n =>
      have := hn c (by simp)
      rw [hc] at this
      cases this
  | @cons c s s' h ih =>
    cases n with
    | zero => simp [cons h]
    | succ n =>
      have ih := ih (n := n) fun d hd => hn d (by simp [hd])
      simp [ih.1, ih.2]

theorem startsWith (h : SameLead p s s') {u : List Char} (hu : ∀ c ∈ u, p c = false)
    (hs : u <+: s) : u <+: s' := by
  have hl := prefix_iff_eq_take.1 hs
  rw [prefix_iff_eq_take, (h.drop (by rw [← hl]; exact hu)).1]
  exact hl

end SameLead

/-- A transformation of texts that touches nothing before the first reference. -/
def KeepsLead (t : String → String) : Prop := ∀ s, SameLead isSigil s.toList (t s).toList

/-! ## Replacing references -/

theorem mapReferences_sameLead {α : Type} (R : Reader α) {f : α → List Char → List Char}
    (h : ∀ {s t rest a}, R.read s = some (a, t, rest) → ∃ c u u', p c ∧ t = c :: u ∧
      f a t = c :: u')
    (s : List Char) : SameLead p s (mapReferences R f s) := by
  unfold mapReferences
  fun_induction lexemes R s with
  | case1 => exact .nil
  | case2 c r text rest hl ih =>
    rw [(literal?_split hl).1]
    exact ih.append_left text
  | case3 c r _ a text rest hr ih =>
    obtain ⟨d, u, u', hd, rfl, hf⟩ := h hr
    rw [(R.split hr).1, flatMap_cons]
    simp only [hf]
    exact .mark hd
  | case4 c r _ _ ih => exact .cons ih

theorem sigilRead_eq_some {sigil : Char} {t : List Char} {w : Spelling}
    (h : sigilRead sigil bare s = some (w, t, r)) :
    ∃ s' u, s = sigil :: s' ∧ t = sigil :: u ∧ spelling? bare s' = some (w, u, r) := by
  cases s with
  | nil => cases h
  | cons c s =>
    by_cases hc : c = sigil
    · subst hc
      simp only [sigilRead] at h
      obtain ⟨⟨v, u, r'⟩, hp, he⟩ := Option.map_eq_some_iff.1 h
      obtain ⟨rfl, rfl, rfl⟩ := he
      exact ⟨s, u, rfl, rfl, hp⟩
    · simp [sigilRead, hc] at h

theorem writeName_cons (c : Char) (name : List Char) :
    writeName [c] name = c :: writeName [] name := by
  unfold writeName
  split_ifs <;> rfl

theorem keepsLead_renameWith {sigil : Char} {R : Reader Spelling}
    (hR : R.read = sigilRead sigil bare) {mark : String}
    (hm : mark.toList = [sigil]) (hs : isSigil sigil) (rename : String → Option String) :
    KeepsLead (renameWith R mark rename) := by
  intro text
  unfold renameWith
  rw [toList_ofList]
  refine mapReferences_sameLead R ?_ text.toList
  intro s t rest w hr
  rw [hR] at hr
  obtain ⟨-, u, -, rfl, -⟩ := sigilRead_eq_some hr
  rw [hm]
  cases rename (ofList w.name) with
  | none => exact ⟨sigil, u, u, hs, rfl, rfl⟩
  | some new => exact ⟨sigil, u, _, hs, rfl, writeName_cons sigil new.toList⟩

theorem keepsLead_renameGlobals (rename : String → Option String) :
    KeepsLead (renameGlobals rename) :=
  keepsLead_renameWith rfl rfl rfl rename

theorem keepsLead_renameTypes (rename : String → Option String) : KeepsLead (renameTypes rename) :=
  keepsLead_renameWith rfl rfl rfl rename

theorem head?_dropWhile_any (p : Char → Bool) (s : List Char) :
    (s.dropWhile p).head?.any p = false := by
  have h := head?_dropWhile_not p s
  cases hs : (s.dropWhile p).head? with
  | none => rfl
  | some c => rw [hs] at h; simpa using h

theorem dropWhile_eq_cons {a c : Char} (h : s.dropWhile (· ≠ a) = c :: r) :
    c = a ∧ s = s.takeWhile (· ≠ a) ++ a :: r ∧ a ∉ s.takeWhile (· ≠ a) := by
  have hh := head?_dropWhile_any (· ≠ a) s
  have hs := takeWhile_append_dropWhile (p := (· ≠ a)) (l := s)
  rw [h] at hh hs
  obtain rfl : c = a := by simpa using hh
  exact ⟨rfl, hs.symm, fun hm => by simpa using mem_takeWhile_imp hm⟩

theorem run?_eq_some {n : List Char} (h : run? p s = some (n, r)) :
    n ≠ [] ∧ (∀ c ∈ n, p c) ∧ r.head?.any p = false := by
  refine ⟨(run?_split h).2, ?_⟩
  unfold run? at h
  split at h
  · cases h
  · obtain ⟨rfl, rfl⟩ := Prod.mk.inj (Option.some.inj h)
    exact ⟨fun c hc => mem_takeWhile_imp hc, head?_dropWhile_any p s⟩

theorem numberedRead_eq_some {t : List Char} {a : Numbered × Nat}
    (h : numberedRead s = some (a, t, r)) :
    ∃ ds, s = a.1.sigil :: ds ++ r ∧ t = a.1.sigil :: ds ∧ a.2 = digitsValue ds ∧ ds ≠ [] ∧
      (∀ c ∈ ds, isDecimal c) ∧ continuesWord r = false := by
  cases s with
  | nil => cases h
  | cons c s =>
    simp only [numberedRead] at h
    split at h
    · next k ds v hk hr =>
      split_ifs at h with hw
      obtain ⟨rfl, rfl, rfl⟩ := h
      have hc : c = k.sigil := by
        unfold Numbered.ofSigil? at hk
        split_ifs at hk with h1 h2
        · rw [← Option.some.inj hk, h1]; rfl
        · rw [← Option.some.inj hk, h2]; rfl
      obtain ⟨hne, hds, -⟩ := run?_eq_some hr
      exact ⟨ds, by rw [hc, (run?_split hr).1]; rfl, by rw [hc], rfl, hne, hds, by simpa using hw⟩
    · cases h

theorem isSigil_numbered (k : Numbered) : isSigil k.sigil := by
  cases k <;> rfl

theorem keepsLead_shiftNumbered (metadataOffset attributeOffset : Int) :
    KeepsLead (shiftNumbered metadataOffset attributeOffset) := by
  intro text
  unfold shiftNumbered
  split_ifs
  · exact .refl _
  · rw [toList_ofList]
    refine mapReferences_sameLead numberedReader ?_ text.toList
    intro s t rest a hr
    obtain ⟨u, -, rfl, -⟩ := numberedRead_eq_some hr
    exact ⟨_, u, _, isSigil_numbered a.1, rfl, rfl⟩

/-! ## Keywords -/

/-- A class of characters that are no white space and stand in no leading keyword. -/
structure Marks (p : Char → Bool) : Prop where
  blank : ∀ c, p c → isBlank c = false
  keyword : ∀ w, isLeadingKeyword w → ∀ c ∈ w.toList, p c = false

theorem mem_of_isLeadingKeyword {w : String} (h : isLeadingKeyword w) :
    w ∈ Linkage.all.map Linkage.keyword ++ qualifierKeywords := by
  rw [mem_append]
  rcases Bool.or_eq_true _ _ ▸ h with h | h
  · obtain ⟨l, hl⟩ := Option.isSome_iff_exists.1 h
    have hk := find?_some hl
    exact .inl (mem_map.2 ⟨l, mem_of_find?_eq_some hl, by simpa using hk⟩)
  · exact .inr (contains_iff_mem.1 h)

theorem marks_of_letters (hb : ∀ c, p c → isBlank c = false)
    (hk : (Linkage.all.map Linkage.keyword ++ qualifierKeywords).all
      (fun w => w.toList.all (!p ·)) = true) :
    Marks p := by
  refine ⟨hb, fun w hw c hc => ?_⟩
  have h := all_eq_true.1 hk w (mem_of_isLeadingKeyword hw)
  simpa using all_eq_true.1 h c hc

theorem isSigil_cases {c : Char} (h : isSigil c) : c = '@' ∨ c = '%' ∨ c = '!' ∨ c = '#' := by
  simpa [isSigil, or_assoc] using h

def noSigil (s : List Char) : Bool := s.all (!isSigil ·)

theorem noSigil_iff : noSigil s ↔ ∀ c ∈ s, isSigil c = false := by
  simp [noSigil]

theorem marks_isSigil : Marks isSigil := by
  refine marks_of_letters ?_ (by decide)
  intro c hc
  rcases isSigil_cases hc with rfl | rfl | rfl | rfl <;> decide

theorem takeKeywords_keyword (h : isLeadingKeyword (String.ofList (headWord s))) :
    takeKeywords s = (String.ofList (headWord s) :: (takeKeywords (trimLeft (afterWord s))).1,
      (takeKeywords (trimLeft (afterWord s))).2) := by
  rw [takeKeywords, dif_pos h]

theorem takeKeywords_other (h : ¬ isLeadingKeyword (String.ofList (headWord s))) :
    takeKeywords s = ([], s) := by
  rw [takeKeywords, dif_neg h]

theorem SameLead.afterWord (hp : Marks p) (h : SameLead p s s')
    (hr : ∀ c ∈ headWord s, p c = false) : SameLead p (afterWord s) (afterWord s') := by
  refine ((h.run hr).2.drop fun c hc => ?_).2
  -- the character behind the word is a space, which is not marked
  have hsp : c = ' ' := by
    have hh := head?_dropWhile_not (fun d => decide (d ≠ ' ')) s
    cases hs : s.dropWhile (fun d => decide (d ≠ ' ')) with
    | nil => rw [hs] at hc; cases hc
    | cons d r =>
      rw [hs] at hc hh
      rw [mem_singleton.1 hc]
      simpa using hh
  rw [hsp]
  by_contra hm
  have := hp.blank ' ' (by simpa using hm)
  exact absurd this (by decide)

theorem Marks.headWord (hp : Marks p)
    (h : isLeadingKeyword (String.ofList (headWord s))) : ∀ c ∈ headWord s, p c = false := by
  have hk := hp.keyword _ h
  rwa [toList_ofList] at hk

/-- The leading keywords depend only on the lead of a text, and so does the lead of what follows
them. -/
theorem takeKeywords_sameLead (hp : Marks p) (h : SameLead p s s') :
    (takeKeywords s').1 = (takeKeywords s).1 ∧
    SameLead p (takeKeywords s).2 (takeKeywords s').2 := by
  induction s using takeKeywords.induct generalizing s' with
  | case1 s hk ih =>
    have hr := hp.headWord hk
    have hw : headWord s' = headWord s := (h.run hr).1
    obtain ⟨ih1, ih2⟩ := ih ((h.afterWord hp hr).trimLeft hp.blank)
    rw [takeKeywords_keyword hk, takeKeywords_keyword (hw ▸ hk)]
    exact ⟨by rw [hw, ih1], ih2⟩
  | case2 s hk =>
    have hk' : ¬ isLeadingKeyword (ofList (headWord s')) := by
      intro hk'
      have hw : headWord s = headWord s' := (h.symm.run (hp.headWord hk')).1
      exact hk (hw ▸ hk')
    rw [takeKeywords_other hk, takeKeywords_other hk']
    exact ⟨rfl, h⟩

theorem splitKeywords_sameLead (hp : Marks p) {text text' : String}
    (h : SameLead p text.toList text'.toList) :
    (splitKeywords text').1 = (splitKeywords text).1 ∧
      SameLead p (splitKeywords text).2.toList (splitKeywords text').2.toList := by
  have ht := takeKeywords_sameLead hp (h.trimLeft hp.blank)
  unfold splitKeywords
  rw [toList_ofList, toList_ofList]
  exact ht

/-! ## Symbols -/

theorem KeepsLead.comp {t u : String → String} (hu : KeepsLead u) (ht : KeepsLead t) :
    KeepsLead (u ∘ t) :=
  fun s => (ht s).trans (hu (t s))

namespace Function

/-- The header opens with its keyword. -/
def Headed (f : Function) : Prop := f.keyword.toList <+: f.header.toList

instance (f : Function) : Decidable f.Headed := inferInstanceAs (Decidable (_ <+: _))

variable {t : String → String}

theorem isDeclaration_mapText (ht : KeepsLead t) (f : Function) :
    (f.mapText t).isDeclaration = f.isDeclaration := by
  have hd : ∀ c ∈ "declare".toList, isSigil c = false := noSigil_iff.1 (by decide)
  have hl := ht f.header
  rw [Bool.eq_iff_iff]
  simp only [isDeclaration, startsWith_string_iff]
  exact ⟨hl.symm.startsWith hd, hl.startsWith hd⟩

theorem keyword_mapText (ht : KeepsLead t) (f : Function) : (f.mapText t).keyword = f.keyword := by
  unfold keyword
  rw [isDeclaration_mapText ht]

theorem keyword_plain (f : Function) : ∀ c ∈ f.keyword.toList, isSigil c = false := by
  unfold keyword
  split_ifs
  · exact noSigil_iff.1 (by decide)
  · exact noSigil_iff.1 (by decide)

theorem headed_mapText (ht : KeepsLead t) {f : Function} (hf : f.Headed) :
    (f.mapText t).Headed := by
  unfold Headed
  rw [keyword_mapText ht]
  exact (ht f.header).startsWith f.keyword_plain hf

theorem linkage_mapText (ht : KeepsLead t) {f : Function} (hf : f.Headed) :
    (f.mapText t).linkage = f.linkage := by
  have hk : ∀ c ∈ f.header.toList.take f.keyword.length, isSigil c = false := by
    rw [← length_toList, ← prefix_iff_eq_take.1 hf]
    exact f.keyword_plain
  have hs : SameLead isSigil f.segment.toList (f.mapText t).segment.toList := by
    unfold segment
    rw [keyword_mapText ht, toList_ofList, toList_ofList]
    exact ((ht f.header).drop hk).2.trimLeft marks_isSigil.blank
  unfold linkage
  rw [(splitKeywords_sameLead marks_isSigil hs).1]

end Function

namespace Global

variable {t : String → String} {p : Char → Bool}

theorem linkage_mapText (ht : KeepsLead t) (g : Global) : (g.mapText t).linkage = g.linkage := by
  have hk := (splitKeywords_sameLead marks_isSigil (ht g.segment)).1
  unfold linkage mapText
  rw [hk]

def isKindWord (w : List Char) : Bool := kindWords.contains (String.ofList w)

/-- No kind word holds a character of the class. -/
def KindUnmarked (p : Char → Bool) : Prop := ∀ k ∈ kindWords, k.toList.all (!p ·)

theorem KindUnmarked.word (hp : KindUnmarked p) {w : List Char} (h : isKindWord w) :
    w.all (!p ·) := by
  have hk := hp _ (contains_iff_mem.1 h)
  rwa [toList_ofList] at hk

theorem kindUnmarked_isSigil : KindUnmarked isSigil := by
  unfold KindUnmarked
  decide

/-- The words before the kind word. -/
def leadWords (g : Global) : List (List Char) :=
  (words (splitKeywords g.segment).2.toList).takeWhile (!isKindWord ·)

/-- Whether no character of the class stands before the kind word. -/
def kindBefore (p : Char → Bool) (g : Global) : Bool := g.leadWords.all fun w => w.all (!p ·)

/-- Whether no reference stands before the kind word. -/
def kindFirst (g : Global) : Bool :=
  ((words (splitKeywords g.segment).2.toList).takeWhile (!isKindWord ·)).all noSigil

theorem kindFirst_eq (g : Global) : g.kindFirst = g.kindBefore isSigil := rfl

/-- The words up to the kind word depend only on the lead of a text if no marked character stands
among them. -/
theorem words_sameLead (hp : Marks p) (hu : KindUnmarked p) (h : SameLead p s s')
    (hk : ((words s).takeWhile (!isKindWord ·)).all (fun w => w.all (!p ·)) = true) :
    (words s').takeWhile (!isKindWord ·) = (words s).takeWhile (!isKindWord ·) ∧
      (words s').find? isKindWord = (words s).find? isKindWord := by
  induction s using words.induct generalizing s' with
  | case1 => cases h; exact ⟨rfl, rfl⟩
  | case2 c r hb ih =>
    rw [words, if_pos hb] at hk
    cases h with
    | mark hc => rw [hp.blank c hc] at hb; cases hb
    | cons h =>
      rw [words, if_pos hb, words, if_pos hb]
      exact ih h hk
  | case3 c r hb ih =>
    rw [words, if_neg hb] at hk
    -- a kind word holds no marked character, and any other word here holds none by assumption
    have hw : (c :: r.takeWhile (!isBlank ·)).all (!p ·) := by
      by_cases hw : isKindWord (c :: r.takeWhile (!isBlank ·))
      · exact hu.word hw
      · rw [takeWhile_cons_of_pos (by simpa using hw), all_cons, Bool.and_eq_true] at hk
        exact hk.1
    have hc : ∀ d ∈ c :: r.takeWhile (!isBlank ·), p d = false := by
      intro d hd
      simpa using all_eq_true.1 hw d hd
    cases h with
    | mark h =>
      rw [hc c mem_cons_self] at h
      cases h
    | @cons _ _ r' h =>
      obtain ⟨ht, hd⟩ := h.run fun d hd => hc d (mem_cons_of_mem _ hd)
      rw [words, if_neg hb, words, if_neg hb, ht]
      by_cases hw : isKindWord (c :: r.takeWhile (!isBlank ·))
      · simp [hw]
      · rw [takeWhile_cons_of_pos (by simpa using hw), all_cons, Bool.and_eq_true] at hk
        obtain ⟨ih1, ih2⟩ := ih hd hk.2
        rw [takeWhile_cons_of_pos (by simpa using hw), takeWhile_cons_of_pos (by simpa using hw),
          find?_cons_of_neg hw, find?_cons_of_neg hw, ih1, ih2]
        exact ⟨rfl, rfl⟩

theorem kind_eq (g : Global) :
    g.kind = (((words (splitKeywords g.segment).2.toList).find? isKindWord).map String.ofList).getD
      "global" := by
  unfold kind
  rw [find?_map]
  rfl

/-- What a global value is and the words before its kind word outlast a change behind a marked
character that stands behind the kind word. -/
theorem kind_sameLead (hp : Marks p) (hu : KindUnmarked p) {g' : Global}
    (h : SameLead p g.segment.toList g'.segment.toList) (hk : g.kindBefore p) :
    g'.leadWords = g.leadWords ∧ g'.isDeclaration = g.isDeclaration := by
  obtain ⟨hkeys, hs⟩ := splitKeywords_sameLead hp h
  obtain ⟨hwords, hfind⟩ := words_sameLead hp hu hs hk
  refine ⟨hwords, ?_⟩
  have hkind : g'.kind = g.kind := by rw [kind_eq, kind_eq, hfind]
  unfold isDeclaration
  rw [hkind, hkeys]

theorem leadWords_mapText (ht : KeepsLead t) (hg : g.kindFirst) :
    (g.mapText t).leadWords = g.leadWords :=
  (kind_sameLead marks_isSigil kindUnmarked_isSigil (ht g.segment) hg).1

theorem kindFirst_mapText (ht : KeepsLead t) (hg : g.kindFirst) : (g.mapText t).kindFirst := by
  rw [kindFirst_eq, kindBefore, leadWords_mapText ht hg]
  exact hg

theorem isDeclaration_mapText (ht : KeepsLead t) (hg : g.kindFirst) :
    (g.mapText t).isDeclaration = g.isDeclaration :=
  (kind_sameLead marks_isSigil kindUnmarked_isSigil (ht g.segment) hg).2

end Global

end CallAtlas.Ir
