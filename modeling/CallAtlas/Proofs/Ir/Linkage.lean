import CallAtlas.Proofs.Ir.Cuts
import CallAtlas.Proofs.Ir.Symbols

/-!
# Changing the linkage of a symbol

A linkage is written over the leading keywords, so it changes nothing that is read from the text
behind them, the `Symbol.rest`: the symbols that a symbol mentions (`references_setLinkage`), its
comdat group (`comdat_setLinkage`) and, for a global value, its kind. The header of a function must
have a space behind its keyword, `Symbol.Spaced`; without it the text behind could be part of one
word with the keyword.
-/

namespace CallAtlas.Ir

open Text List

variable {s r w : List Char} {p : Option Char}

/-! ## The keyword run -/

theorem word_split (s : List Char) :
    s = headWord s ∧ afterWord s = [] ∨ s = headWord s ++ ' ' :: afterWord s := by
  have hsplit : s = headWord s ++ s.dropWhile (· ≠ ' ') := takeWhile_append_dropWhile.symm
  unfold afterWord
  cases hd : s.dropWhile (· ≠ ' ') with
  | nil =>
    rw [hd, append_nil] at hsplit
    exact .inl ⟨hsplit, rfl⟩
  | cons c r =>
    have hc := head?_dropWhile_not (fun d => decide (d ≠ ' ')) s
    rw [hd] at hc
    obtain rfl : c = ' ' := by simpa using hc
    rw [hd] at hsplit
    exact .inr hsplit

theorem takeKeywords_append {q : Char → Bool} (hq : Marks q) (s : List Char) :
    ∃ u, s = u ++ (takeKeywords s).2 ∧ ∀ c ∈ u, q c = false := by
  induction s using takeKeywords.induct with
  | case2 s hk => exact ⟨[], by rw [takeKeywords_other hk]; rfl, by simp⟩
  | case1 s hk ih =>
    obtain ⟨u, hu, hplain⟩ := ih
    have hblank : ∀ c, isBlank c → q c = false := by
      intro c hc
      by_contra h
      rw [hq.blank c (by simpa using h)] at hc
      cases hc
    have hword := hq.headWord hk
    rw [takeKeywords_keyword hk]
    rcases word_split s with ⟨hs, hafter⟩ | hs
    · refine ⟨headWord s, ?_, hword⟩
      rw [hafter] at hu ⊢
      have hnil : (takeKeywords (trimLeft [])).2 = [] := (append_eq_nil_iff.1 hu.symm).2
      rw [hnil, append_nil]
      exact hs
    · refine ⟨headWord s ++ ' ' :: (afterWord s).takeWhile isBlank ++ u, ?_, ?_⟩
      · rw [append_assoc, ← hu]
        conv_lhs => rw [hs]
        rw [append_assoc, cons_append, trimLeft, takeWhile_append_dropWhile]
      · intro c hc
        simp only [mem_append, mem_cons] at hc
        rcases hc with (hc | rfl | hc) | hc
        · exact hword c hc
        · exact hblank ' ' (by decide)
        · exact hblank c (mem_takeWhile_imp hc)
        · exact hplain c hc

theorem takeKeywords_rest (s : List Char) :
    takeKeywords (takeKeywords s).2 = ([], (takeKeywords s).2) := by
  induction s using takeKeywords.induct with
  | case1 s hk ih =>
    rw [takeKeywords_keyword hk]
    exact ih
  | case2 s hk => rw [takeKeywords_other hk, takeKeywords_other hk]

theorem trimLeft_trimLeft (s : List Char) : trimLeft (trimLeft s) = trimLeft s :=
  dropWhile_idempotent _ s

theorem trimLeft_takeKeywords (s : List Char) :
    trimLeft (takeKeywords (trimLeft s)).2 = (takeKeywords (trimLeft s)).2 := by
  generalize ht : trimLeft s = t
  induction t using takeKeywords.induct generalizing s with
  | case1 t hk ih =>
    rw [takeKeywords_keyword hk]
    exact ih _ rfl
  | case2 t hk =>
    rw [takeKeywords_other hk, ← ht]
    exact trimLeft_trimLeft s

theorem splitKeywords_withLinkage {segment keyword : String} (hk : isLeadingKeyword keyword)
    (hne : keyword ≠ Linkage.external.keyword) :
    splitKeywords (withLinkage segment keyword) = ([keyword], (splitKeywords segment).2) := by
  have hplain : ∀ c ∈ keyword.toList, c ≠ ' ' ∧ isBlank c = false := by
    have hall : (Linkage.all.map Linkage.keyword ++ qualifierKeywords).all
        (fun w => w.toList.all fun c => c ≠ ' ' && !isBlank c) = true := by decide
    have := all_eq_true.1 (all_eq_true.1 hall keyword (mem_of_isLeadingKeyword hk))
    intro c hc
    simpa using this c hc
  have hne' : keyword.toList ≠ [] := by
    intro h
    rw [String.toList_eq_nil_iff] at h
    rw [h] at hk
    cases hk
  obtain ⟨c, u, hcu⟩ := exists_cons_of_ne_nil hne'
  set rest := (takeKeywords (trimLeft segment.toList)).2 with hrest
  have htext : (withLinkage segment keyword).toList = keyword.toList ++ ' ' :: rest := by
    simp [withLinkage, if_neg hne, splitKeywords, hrest]
  have htrim : trimLeft (keyword.toList ++ ' ' :: rest) = keyword.toList ++ ' ' :: rest := by
    rw [hcu, cons_append, trimLeft, dropWhile_cons_of_neg]
    rw [(hplain c (by simp [hcu])).2]
    simp
  have hhead : headWord (keyword.toList ++ ' ' :: rest) = keyword.toList := by
    rw [headWord, takeWhile_append_of_pos fun c hc => by simpa using (hplain c hc).1,
      takeWhile_cons_of_neg (by simp), append_nil]
  have hafter : afterWord (keyword.toList ++ ' ' :: rest) = rest := by
    rw [afterWord, dropWhile_append_of_pos fun c hc => by simpa using (hplain c hc).1]
    rfl
  have hkey : isLeadingKeyword (String.ofList (headWord (keyword.toList ++ ' ' :: rest))) := by
    rw [hhead, String.ofList_toList]
    exact hk
  unfold splitKeywords
  rw [htext, htrim]
  rw [takeKeywords_keyword hkey, hhead, hafter, trimLeft_takeKeywords, takeKeywords_rest,
    String.ofList_toList]

/-! ## Comdat groups -/

theorem keywordMayFollow_blank {c : Char} (h : isBlank c) : keywordMayFollow (some c) := by
  have hne : ∀ d, isBlank d = false → c ≠ d := by
    rintro d hd rfl
    rw [h] at hd
    cases hd
  simp [keywordMayFollow, isLocalChar, isBlank_not_isWord h, hne '-' (by decide),
    hne '$' (by decide),
    hne '.' (by decide), hne '@' (by decide), hne '%' (by decide), hne '"' (by decide)]

theorem findComdat?_congr {p q : Option Char} (h : keywordMayFollow p = keywordMayFollow q)
    (s : List Char) :
    findComdat? p s = findComdat? q s := by
  cases s with
  | nil => rfl
  | cons c r => rw [findComdat?, findComdat?, h]

theorem comdatAt?_eq_none (h : ¬ "comdat".toList <+: s) : comdatAt? s = none := by
  unfold comdatAt?
  cases hd : dropHead? "comdat".toList s with
  | none => rfl
  | some r => exact absurd ⟨r, (dropHead?_eq_some hd).symm⟩ h

theorem findComdat?_cons {c : Char} (h : ¬ "comdat".toList <+: c :: r) :
    findComdat? p (c :: r) = findComdat? (some c) r := by
  rw [findComdat?, comdatAt?_eq_none h, ite_self]

theorem findComdat?_trimLeft (s : List Char) :
    findComdat? none (trimLeft s) = findComdat? none s := by
  induction s with
  | nil => rfl
  | cons c r ih =>
    cases hc : isBlank c with
    | false => rw [trimLeft, dropWhile_cons_of_neg (by simp [hc])]
    | true =>
      have hword : ¬ "comdat".toList <+: c :: r := by
        intro h
        obtain rfl : 'c' = c := (cons_prefix_cons.1 h).1
        exact absurd hc (by decide)
      have hfollow : keywordMayFollow (some c) = keywordMayFollow none := keywordMayFollow_blank hc
      rw [trimLeft, dropWhile_cons_of_pos hc, findComdat?_cons hword, findComdat?_congr hfollow]
      exact ih

theorem findComdat?_afterWord (h : ¬ "comdat".toList <:+: headWord s) :
    findComdat? p s = findComdat? none (afterWord s) := by
  induction s generalizing p with
  | nil => rfl
  | cons c r ih =>
    have hword : ¬ "comdat".toList <+: c :: r := by
      rintro ⟨t, ht⟩
      refine h ?_
      have hletters : ∀ d ∈ "comdat".toList, decide (d ≠ ' ') := by simp
      rw [← ht, headWord, takeWhile_append_of_pos hletters]
      exact (prefix_append _ _).isInfix
    rw [findComdat?_cons hword]
    by_cases hc : c = ' '
    · subst hc
      exact findComdat?_congr (by decide) r
    · have hhead : headWord (c :: r) = c :: headWord r := takeWhile_cons_of_pos (by simpa using hc)
      have hafter : afterWord (c :: r) = afterWord r := by
        unfold afterWord
        rw [dropWhile_cons_of_pos (by simpa using hc)]
      rw [hhead] at h
      rw [hafter]
      exact ih fun hi => h (hi.trans (suffix_cons c _).isInfix)

theorem findComdat?_takeKeywords (s : List Char) :
    findComdat? none s = findComdat? none (takeKeywords s).2 := by
  induction s using takeKeywords.induct with
  | case1 s hk ih =>
    have hword : ¬ "comdat".toList <:+: headWord s := by
      have hall : ∀ w ∈ Linkage.all.map Linkage.keyword ++ qualifierKeywords,
          ¬ "comdat".toList <:+: w.toList := by
        decide
      have hw := hall _ (mem_of_isLeadingKeyword hk)
      rw [String.toList_ofList (l := headWord s)] at hw
      exact hw
    rw [takeKeywords_keyword hk, findComdat?_afterWord hword, ← findComdat?_trimLeft]
    exact ih
  | case2 s hk => rw [takeKeywords_other hk]

theorem comdatOf_splitKeywords (segment name : String) :
    comdatOf segment name = comdatOf (splitKeywords segment).2 name := by
  unfold comdatOf splitKeywords
  rw [String.toList_ofList, ← findComdat?_takeKeywords, findComdat?_trimLeft]

/-! ## References -/

theorem references_append_plain {u : List Char} (hu : ∀ c ∈ u, c ≠ '"' ∧ c ≠ '@') (s : List Char) :
    references globalReader (u ++ s) = references globalReader s :=
  (references_skip (fun c hc => ⟨(hu c hc).1, sigiled_globalReader.read_none (hu c hc).2⟩) s).1

theorem blank_plain {c : Char} (h : isBlank c) : c ≠ '"' ∧ c ≠ '@' := by
  refine ⟨(isBlank_plain h).1, ?_⟩
  rintro rfl
  exact absurd h (by decide)

theorem globalRefs_splitKeywords (segment : String) :
    globalRefs segment = globalRefs (splitKeywords segment).2 := by
  have hmarks : Marks fun c => c = '"' || c = '@' := by
    refine marks_of_letters ?_ (by decide)
    intro c hc
    obtain rfl | rfl : c = '"' ∨ c = '@' := by simpa using hc
    · decide
    · decide
  have hplain : ∀ c : Char, (c = '"' || c = '@') = false → c ≠ '"' ∧ c ≠ '@' := by
    intro c hc
    simpa using hc
  obtain ⟨u, hu, hpu⟩ := takeKeywords_append hmarks (trimLeft segment.toList)
  unfold globalRefs splitKeywords
  rw [String.toList_ofList]
  have hblank : ∀ c ∈ segment.toList.takeWhile isBlank, c ≠ '"' ∧ c ≠ '@' :=
    fun c hc => blank_plain (mem_takeWhile_imp hc)
  have hsplit : segment.toList = segment.toList.takeWhile isBlank ++ trimLeft segment.toList :=
    takeWhile_append_dropWhile.symm
  rw [hsplit, references_append_plain hblank]
  conv_lhs => rw [hu]
  rw [references_append_plain fun c hc => hplain c (hpu c hc), ← hsplit]

/-! ## Symbols -/

theorem Linkage.keyword_inj {l l' : Linkage} : l.keyword = l'.keyword ↔ l = l' := by
  cases l <;> cases l' <;> decide

theorem Linkage.isLeadingKeyword_keyword (l : Linkage) : isLeadingKeyword l.keyword := by
  cases l <;> decide

namespace Function

variable {f : Function} {word : String}

/-- The header has a space behind its keyword. -/
def Spaced (f : Function) : Prop := f.keyword.toList ++ [' '] <+: f.header.toList

instance (f : Function) : Decidable f.Spaced := inferInstanceAs (Decidable (_ <+: _))

def rest (f : Function) : String := (splitKeywords f.segment).2

theorem keyword_cases (f : Function) : f.keyword = "declare" ∨ f.keyword = "define" := by
  unfold keyword
  split <;> simp

theorem Spaced.split (hf : f.Spaced) :
    ∃ r, f.header.toList = f.keyword.toList ++ ' ' :: r ∧ f.segment.toList = trimLeft r := by
  obtain ⟨r, hr⟩ := hf
  rw [append_assoc] at hr
  refine ⟨r, hr.symm, ?_⟩
  rw [segment, String.toList_ofList, ← hr, ← String.length_toList, drop_left]
  rfl

theorem comdat_eq (hf : f.Spaced) : f.comdat = comdatOf f.rest f.name := by
  obtain ⟨r, hh, hs⟩ := hf.split
  have hword : findComdat? none f.header.toList = findComdat? none r := by
    have hhead : headWord f.header.toList = f.keyword.toList ∧ afterWord f.header.toList = r := by
      rw [hh]
      rcases f.keyword_cases with h | h <;> rw [h] <;> exact ⟨rfl, rfl⟩
    have hfree : ¬ "comdat".toList <:+: headWord f.header.toList := by
      rw [hhead.1]
      rcases f.keyword_cases with h | h <;> rw [h] <;> decide
    rw [findComdat?_afterWord hfree, hhead.2]
  rw [rest, ← comdatOf_splitKeywords, comdat, comdatOf, comdatOf, hword, hs, findComdat?_trimLeft]

theorem Spaced.headed (hf : f.Spaced) : f.Headed := (prefix_append _ _).trans hf

theorem globalRefs_header (hf : f.Headed) : globalRefs f.header = globalRefs f.rest := by
  obtain ⟨r, hr⟩ := hf
  have hs : f.segment.toList = trimLeft r := by
    rw [segment, String.toList_ofList, ← hr, ← String.length_toList, drop_left]
  have hplain : ∀ c ∈ f.keyword.toList, c ≠ '"' ∧ c ≠ '@' := by
    rcases f.keyword_cases with h | h <;> rw [h] <;> simp
  have hblank : ∀ c ∈ r.takeWhile isBlank, c ≠ '"' ∧ c ≠ '@' :=
    fun c hc => blank_plain (mem_takeWhile_imp hc)
  have hsplit : f.header.toList = f.keyword.toList ++
      (r.takeWhile isBlank ++ f.segment.toList) := by
    rw [hs, trimLeft, takeWhile_append_dropWhile, hr]
  rw [rest, ← globalRefs_splitKeywords, globalRefs, globalRefs, hsplit,
    references_append_plain hplain, references_append_plain hblank]

theorem isDeclaration_setLinkage (f : Function) (word : String) :
    (f.setLinkage word).isDeclaration = f.isDeclaration := by
  have hheader : (f.setLinkage word).header = f.keyword ++ " " ++ withLinkage f.segment word := rfl
  rw [isDeclaration, Bool.eq_iff_iff, String.startsWith_string_iff, hheader, String.append_assoc,
    String.toList_append]
  cases hd : f.isDeclaration with
  | true =>
    have hk : f.keyword = "declare" := by rw [keyword, hd]; rfl
    rw [hk]
    exact iff_of_true (prefix_append _ _) rfl
  | false =>
    have hk : f.keyword = "define" := by rw [keyword, hd]; rfl
    rw [hk]
    refine iff_of_false ?_ Bool.false_ne_true
    intro h
    simp at h

theorem keyword_setLinkage (f : Function) (word : String) :
    (f.setLinkage word).keyword = f.keyword := by
  rw [keyword, isDeclaration_setLinkage]
  rfl

theorem spaced_setLinkage (f : Function) (word : String) : (f.setLinkage word).Spaced := by
  rw [Spaced, keyword_setLinkage]
  refine ⟨(withLinkage f.segment word).toList, ?_⟩
  rw [setLinkage, String.toList_append, String.toList_append]
  rfl

theorem splitKeywords_segment (hk : isLeadingKeyword word) (hne : word ≠ Linkage.external.keyword)
    (f : Function) : splitKeywords (f.setLinkage word).segment = ([word], f.rest) := by
  obtain ⟨r, hh, hs⟩ := (f.spaced_setLinkage word).split
  have hr : r = (withLinkage f.segment word).toList := by
    have hheader : (f.setLinkage word).header.toList =
        f.keyword.toList ++ ' ' :: (withLinkage f.segment word).toList := by
      rw [setLinkage, String.toList_append, String.toList_append, append_assoc]
      rfl
    rw [keyword_setLinkage, hheader] at hh
    exact (cons_inj_right ' ').1 (append_cancel_left hh) |>.symm
  rw [rest, ← splitKeywords_withLinkage hk hne, splitKeywords, splitKeywords, hs, hr,
    trimLeft_trimLeft]

end Function

def Symbol.rest : Symbol → String
  | .function f => f.rest
  | .global g => (splitKeywords g.segment).2

def Symbol.Spaced : Symbol → Prop
  | .function f => f.Spaced
  | .global _ => True

namespace Symbol

variable {s : Symbol} {word : String}

theorem name_setLinkage (s : Symbol) (word : String) : (s.setLinkage word).name = s.name := by
  cases s <;> rfl

theorem spaced_setLinkage (s : Symbol) (word : String) : (s.setLinkage word).Spaced := by
  cases s with
  | function f => exact f.spaced_setLinkage word
  | global g => trivial

theorem Spaced.headed (hs : s.Spaced) : s.Headed := by
  cases s with
  | function f => exact Function.Spaced.headed hs
  | global g => trivial

theorem rest_setLinkage (hk : isLeadingKeyword word) (hne : word ≠ Linkage.external.keyword)
    (s : Symbol) :
    (s.setLinkage word).rest = s.rest := by
  cases s with
  | function f =>
    show (splitKeywords (f.setLinkage word).segment).2 = f.rest
    rw [f.splitKeywords_segment hk hne]
  | global g =>
    show (splitKeywords (withLinkage g.segment word)).2 = (splitKeywords g.segment).2
    rw [splitKeywords_withLinkage hk hne]

theorem linkage_setLinkage {l : Linkage} (hl : l ≠ .external) (s : Symbol) :
    (s.setLinkage l.keyword).linkage = l := by
  have hk := l.isLeadingKeyword_keyword
  have hne : l.keyword ≠ Linkage.external.keyword := fun h => hl (Linkage.keyword_inj.1 h)
  have hread : Linkage.ofKeywords [l.keyword] = l := by cases l <;> decide
  cases s with
  | function f =>
    show Linkage.ofKeywords (splitKeywords (f.setLinkage l.keyword).segment).1 = l
    rw [f.splitKeywords_segment hk hne, hread]
  | global g =>
    show Linkage.ofKeywords (splitKeywords (withLinkage g.segment l.keyword)).1 = l
    rw [splitKeywords_withLinkage hk hne, hread]

theorem comdat_eq (hs : s.Spaced) : s.comdat = comdatOf s.rest s.name := by
  cases s with
  | function f => exact f.comdat_eq hs
  | global g => exact comdatOf_splitKeywords g.segment g.name

theorem comdat_setLinkage (hs : s.Spaced) (hk : isLeadingKeyword word)
    (hne : word ≠ Linkage.external.keyword) : (s.setLinkage word).comdat = s.comdat := by
  rw [comdat_eq hs, comdat_eq (spaced_setLinkage s word), rest_setLinkage hk hne, name_setLinkage]

theorem references_setLinkage (hs : s.Headed) (hk : isLeadingKeyword word)
    (hne : word ≠ Linkage.external.keyword) : (s.setLinkage word).references = s.references := by
  have hrest := rest_setLinkage hk hne s
  cases s with
  | function f =>
    have hheader : globalRefs (f.setLinkage word).header = globalRefs f.header := by
      rw [Function.globalRefs_header (f.spaced_setLinkage word).headed,
        Function.globalRefs_header hs]
      exact congrArg globalRefs hrest
    show Function.references _ = Function.references f
    unfold Function.references
    rw [hheader]
    rfl
  | global g =>
    show Global.references _ = Global.references g
    unfold Global.references
    rw [globalRefs_splitKeywords, globalRefs_splitKeywords g.segment]
    exact congrArg (fun t => (globalRefs t).filter (· ≠ g.name)) hrest

/-- A definition stays one under a linkage that declares nothing. -/
theorem isDeclaration_setLinkage {l : Linkage} (hl : l ≠ .external) (hw : l ≠ .externWeak)
    (hs : s.isDeclaration = false) : (s.setLinkage l.keyword).isDeclaration = false := by
  cases s with
  | function f => exact (f.isDeclaration_setLinkage l.keyword).trans hs
  | global g =>
    have hk := l.isLeadingKeyword_keyword
    have hne : l.keyword ≠ Linkage.external.keyword := fun h => hl (Linkage.keyword_inj.1 h)
    have hnw : l.keyword ≠ Linkage.externWeak.keyword := fun h => hw (Linkage.keyword_inj.1 h)
    show Global.isDeclaration _ = false
    unfold Global.isDeclaration Global.setLinkage
    rw [splitKeywords_withLinkage hk hne]
    simp [hne.symm, hnw.symm]

end Symbol

end CallAtlas.Ir
