import CallAtlas.Proofs.Ir.References

/-!
# Cutting texts outside quotes

A terminated text followed by a break can be cut off: the references of the whole are those of the
two pieces, and the whole is tidy exactly if both pieces are, `references_append`. Trimming and the
division into fields cut in this way, `references_trim` and `references_fields`. The place where a
bracket is closed is one too: `closingAt_eq_some` describes it by the marks before it. An edit of a
text is an edit of its pieces, `Edit.split`.
-/

namespace CallAtlas.Ir

open Text List

variable {α : Type} {R : Reader α} {c closer opener : Char} {depth : Int} {k : Nat}
  {p : Char → Bool}
variable {ms post pre : List (Char × Bool)} {s s' t u u' v w : List Char}

/-! ## Terminated pieces -/

theorem terminated_append (hu : terminated false u) (v : List Char) :
    terminated false (u ++ v) = terminated false v := by
  induction hu using terminated_induction with
  | nil => rfl
  | char c s hq hs ih => rw [cons_append, terminated_cons hq, ih s hs le_rfl]
  | quoted b s hb _ ih =>
    rw [literal_append, terminated_body hb, ih]

theorem mark_append (hu : terminated false u) (v : List Char) :
    mark false (u ++ v) = mark false u ++ mark false v := by
  induction hu using terminated_induction with
  | nil => rfl
  | char c s hq hs ih =>
    rw [cons_append, mark_cons hq, mark_cons hq, ih s hs le_rfl]
    rfl
  | quoted b s hb _ ih =>
    rw [literal_append, mark_body hb, mark_body hb, ih, append_assoc]

theorem terminated_plain (hs : ∀ c ∈ s, c ≠ '"') : terminated false s := by
  induction s with
  | nil => rfl
  | cons c s ih =>
    rw [terminated_cons (hs c mem_cons_self)]
    exact ih fun d hd => hs d (mem_cons_of_mem _ hd)

/-! ## Marks of pieces -/

/-- What follows a text is marked apart from it: behind the text, which begins inside quotes as `i`
says, one is inside quotes as `j` says. -/
def Apart (i : Bool) (u : List Char) (j : Bool) : Prop :=
  ∀ t, mark i (u ++ t) = mark i u ++ mark j t

section apart

variable {i j k : Bool} {u v s : List Char} {c : Char}

theorem Apart.nil (i : Bool) : Apart i [] i := fun t => by rfl

theorem Apart.append_iff (hu : Apart i u j) : Apart i (u ++ v) k ↔ Apart j v k :=
  forall_congr' fun t => by rw [append_assoc, hu, hu, append_assoc, append_cancel_left_eq]

theorem apart_char (hq : c ≠ '"') : Apart false [c] false := fun t => by
  rw [singleton_append, mark_cons hq, mark_cons hq]
  rfl

theorem apart_quote : Apart false ['"'] true := fun t => by simp [mark]

theorem apart_escape (c : Char) : Apart true ['\\', c] true := fun _ => rfl

theorem apart_inside (hs : c ≠ '\\') : Apart true [c] (c ≠ '"') := fun t => by
  cases t <;> simp [mark, hs]

theorem uncounted_cons {d : Char} (h : (d, false) :: ms = pre ++ (c, true) :: post) :
    ∃ pre', pre = (d, false) :: pre' ∧ ms = pre' ++ (c, true) :: post := by
  cases pre with
  | nil => cases h
  | cons m pre =>
    obtain ⟨hm, hms⟩ := cons.inj h
    exact ⟨pre, by rw [hm], hms⟩

/-- A mark that counts is a place outside quotes. -/
theorem mark_split (h : mark i s = pre ++ (c, true) :: post) :
    ∃ u v, s = u ++ c :: v ∧ mark i u = pre ∧ Apart i u false := by
  fun_induction mark i s generalizing pre with
  | case1 => cases pre <;> cases h
  | case2 d r ih =>
    obtain ⟨pre1, rfl, h1⟩ := uncounted_cons h
    obtain ⟨pre2, rfl, h2⟩ := uncounted_cons h1
    obtain ⟨u, v, rfl, rfl, hu⟩ := ih h2
    exact ⟨'\\' :: d :: u, v, rfl, rfl, (apart_escape d).append_iff.2 hu⟩
  | case3 d r hd ih =>
    obtain ⟨pre1, rfl, h1⟩ := uncounted_cons h
    have hne : d ≠ '\\' := by
      rintro rfl
      cases r with
      | nil => cases pre1 <;> cases h1
      | cons e r => exact hd e r rfl rfl
    obtain ⟨u, v, rfl, rfl, hu⟩ := ih h1
    exact ⟨d :: u, v, rfl, by cases u <;> simp [mark, hne], (apart_inside hne).append_iff.2 hu⟩
  | case4 r ih =>
    obtain ⟨pre1, rfl, h1⟩ := uncounted_cons h
    obtain ⟨u, v, rfl, rfl, hu⟩ := ih h1
    exact ⟨'"' :: u, v, rfl, apart_quote u, apart_quote.append_iff.2 hu⟩
  | case5 d r hd ih =>
    cases pre with
    | nil => exact ⟨[], r, by rw [(Prod.mk.inj (cons.inj h).1).1]; rfl, rfl, .nil false⟩
    | cons m pre =>
      obtain ⟨hm, hms⟩ := cons.inj h
      obtain ⟨u, v, rfl, rfl, hu⟩ := ih hms
      exact ⟨d :: u, v, rfl, by rw [mark_cons hd, hm], (apart_char hd).append_iff.2 hu⟩

theorem not_apart_true (hw : ∀ c ∈ w, c ≠ '"') : ¬ Apart true w false := by
  intro h
  have hall : ∀ (i : Bool) (w : List Char), (∀ c ∈ w, c ≠ '"') → i →
      ∀ m ∈ mark i w, m.2 = false := by
    intro i w hw hi
    fun_induction mark i w with
    | case1 => simp
    | case2 d r ih => simpa using ih (fun c hc => hw c (by simp [hc])) rfl
    | case3 d r _ ih => simpa using ih (fun c hc => hw c (by simp [hc])) (by simp [hw d])
    | case4 => cases hi
    | case5 => cases hi
  have :=
    hall true (w ++ ['a']) (by simpa [or_imp, forall_and] using hw) rfl ('a',
      true) (by rw [h]; simp [mark])
  cases this

theorem Apart.of_append (hw : ∀ c ∈ w, c ≠ '"') (h : Apart i (u ++ w) false) : Apart i u false := by
  fun_induction mark i u with
  | case1 i =>
    cases i with
    | false => exact .nil false
    | true => exact absurd h (not_apart_true hw)
  | case2 d r ih => exact (apart_escape d).append_iff.2 (ih ((apart_escape d).append_iff.1 h))
  | case3 d r hd ih =>
    by_cases hs : d = '\\'
    · subst hs
      cases r with
      | nil =>
        cases w with
        | nil => exact h
        | cons e w =>
          exact absurd ((apart_escape e).append_iff.1 h)
            (not_apart_true fun c hc => hw c (.tail _ hc))
      | cons e r => exact (hd e r rfl rfl).elim
    · exact (apart_inside hs).append_iff.2 (ih ((apart_inside hs).append_iff.1 h))
  | case4 r ih => exact apart_quote.append_iff.2 (ih (apart_quote.append_iff.1 h))
  | case5 d r hd ih => exact (apart_char hd).append_iff.2 (ih ((apart_char hd).append_iff.1 h))

/-- What stands before a place outside quotes is terminated if the whole is. -/
theorem Apart.terminated (hu : Apart i u false) (h : Ir.terminated i (u ++ v)) :
    Ir.terminated i u := by
  fun_induction mark i u with
  | case1 i =>
    cases i with
    | false => rfl
    | true => exact absurd hu (not_apart_true (by simp))
  | case2 d r ih =>
    by_cases hd : d = '\n'
    · simp [hd, Ir.terminated] at h
    · simp only [cons_append, Ir.terminated] at h ⊢
      exact ih ((apart_escape d).append_iff.1 hu) h
  | case3 d r hd ih =>
    have hne : d ≠ '\\' := by
      rintro rfl
      cases r with
      | nil => exact absurd (hu ['a']) (by decide)
      | cons e r => exact hd e r rfl rfl
    have hstep (t : List Char) : Ir.terminated true (d :: t) = Ir.terminated (d ≠ '"') t := by
      simp [Ir.terminated, hne]
    rw [cons_append, hstep] at h
    rw [hstep]
    exact ih ((apart_inside hne).append_iff.1 hu) h
  | case4 r ih => exact ih (apart_quote.append_iff.1 hu) h
  | case5 d r hd ih =>
    rw [cons_append, terminated_cons hd] at h
    rw [terminated_cons hd]
    exact ih ((apart_char hd).append_iff.1 hu) h

theorem apart_plain (hu : ∀ c ∈ u, c ≠ '"') : Apart false u false :=
  mark_append (terminated_plain hu)

theorem terminated_of_append (hv : ∀ c ∈ v, c ≠ '"') (h : terminated false (u ++ v)) :
    terminated false u :=
  (Apart.of_append hv (mark_append h)).terminated h

end apart

/-! ## References of the pieces -/

theorem Token.split (ht : Token t) (h : t ++ s = u ++ v) (hu : Ir.terminated false u)
    (hv : delimited v) : ∃ u', u = t ++ u' ∧ s = u' ++ v := by
  cases ht with
  | @bare t hb =>
    induction t generalizing u with
    | nil => exact ⟨u, rfl, h⟩
    | cons c t ih =>
      cases u with
      | nil =>
        have hc := (delimited_head hv (by rw [← nil_append v, ← h]; rfl)).1
        rw [hb c mem_cons_self] at hc
        cases hc
      | cons d u =>
        obtain ⟨rfl, htl⟩ := cons.inj h
        rw [terminated_cons (isBare_ne_quote (hb c mem_cons_self))] at hu
        obtain ⟨u', rfl, hs⟩ := ih htl hu fun e he => hb e (mem_cons_of_mem _ he)
        exact ⟨u', rfl, hs⟩
  | @quoted b hb =>
    cases u with
    | nil =>
      have hc := (delimited_head hv (by rw [← nil_append v, ← h]; rfl)).2.2
      exact absurd rfl hc
    | cons d u =>
      have h' : '"' :: (b ++ '"' :: s) = d :: (u ++ v) := by simpa using h
      obtain ⟨rfl, htl⟩ := cons.inj h'
      obtain ⟨b', r, hb', rfl, -⟩ := terminated_quote.1 hu
      rw [append_assoc] at htl
      obtain ⟨rfl, rfl⟩ := hb.unique hb' htl
      exact ⟨r, by simp, rfl⟩

theorem follows_append (hv : delimited v) (r : List Char) : Follows r (r ++ v) := by
  cases r with
  | nil => exact .inr (any_isBare_of_delimited hv)
  | cons c r => exact .inl rfl

theorem akin_append (hv : breaks v) (r : List Char) : Akin r (r ++ v) := by
  cases r with
  | nil => exact .inr ⟨rfl, hv⟩
  | cons c r => exact .inl rfl

theorem headOf_append (hv : breaks v) : HeadOf u (u ++ v) := by
  rintro t r - rfl
  exact ⟨r ++ v, append_assoc t r v, akin_append hv r⟩

theorem headOf_of_append (hu : terminated false u) (hv : breaks v) : HeadOf (u ++ v) u := by
  intro t r ht h
  obtain ⟨u', rfl, rfl⟩ := ht.split h.symm hu (delimited_of_breaks hv)
  exact ⟨u', rfl, (akin_append hv u').symm⟩

theorem isBreak_plain (h : isBreak c) : c ≠ '"' ∧ isSigil c = false :=
  (delimited_head (s := [c]) (delimited_of_breaks h) rfl).2.symm

section reader

variable {α : Type} {R : Reader α}

theorem references_append (hR : Sighted R) (hu : terminated false u) (hv : breaks v) :
    references R (u ++ v) = references R u ++ references R v ∧
    (Tidy R (u ++ v) ↔ Tidy R u ∧ Tidy R v) := by
  induction hu using terminated_induction with
  | nil => exact ⟨by rw [references_nil]; rfl, ⟨fun h => ⟨tidy_nil, h⟩, fun h => h.2⟩⟩
  | char c s hq hs ih =>
    obtain ⟨ws, h1, h2, P, h3, h4⟩ :=
      hR.references_congr hq (headOf_append hv) (headOf_of_append hs hv)
    obtain ⟨hr, ht⟩ := ih s hs le_rfl
    rw [cons_append, h1, h2, h3, h4, hr, ht, append_assoc, and_assoc]
    exact ⟨rfl, Iff.rfl⟩
  | quoted b s hb _ ih =>
    rwa [literal_append, references_body hb, references_body hb, tidy_body hb, tidy_body hb]

theorem references_cut (hR : Sighted R) (hu : terminated false u) (hc : isBreak c) (s : List Char) :
    references R (u ++ c :: s) = references R u ++ references R s ∧
    (Tidy R (u ++ c :: s) ↔ Tidy R u ∧ Tidy R s) := by
  have h := references_plain_append hR (u := [c]) (forall_mem_singleton.2 (isBreak_plain hc)) s
  rw [← h.1, ← h.2]
  exact references_append hR hu (v := c :: s) hc

end reader

variable {s : List Char}

/-! ## Trimming -/

theorem isBare_not_isBlank (h : isBare c) : isBlank c = false :=
  not_inRanges (by decide +kernel) (isBare_inRanges h)

theorem isBlank_plain (h : isBlank c) : c ≠ '"' ∧ isSigil c = false := plain_of_class (by decide) h

theorem isBlank_isDelimiter (h : isBlank c) : isDelimiter c := by
  obtain ⟨hq, hs⟩ := isBlank_plain h
  have hb : isBare c = false := by
    by_contra hb
    rw [isBare_not_isBlank (by simpa using hb)] at h
    cases h
  simp [isDelimiter, hb, hs, hq]

theorem isBlank_isBreak (h : isBlank c) : isBreak c := by
  rw [isBreak, isBlank_isDelimiter h, isBlank_not_isWord h]
  rfl

theorem breaks_blanks {t : List Char} (ht : ∀ c ∈ t, isBlank c) : breaks t := by
  cases t with
  | nil => rfl
  | cons c t => exact isBlank_isBreak (ht c mem_cons_self)

theorem trimRight_append (s : List Char) : ∃ t, s = trimRight s ++ t ∧ ∀ c ∈ t, isBlank c := by
  refine ⟨(s.reverse.takeWhile isBlank).reverse, ?_,
    fun c hc => mem_takeWhile_imp (mem_reverse.1 hc)⟩
  rw [trimRight, ← reverse_append, takeWhile_append_dropWhile, reverse_reverse]

theorem delimited_blanks (ht : ∀ c ∈ t, isBlank c) : delimited t :=
  delimited_of_breaks (breaks_blanks ht)

theorem terminated_trimLeft (hs : terminated false s) : terminated false (trimLeft s) := by
  rw [← takeWhile_append_dropWhile (l := s)] at hs
  rwa [terminated_append (terminated_plain fun c hc => (isBlank_plain (mem_takeWhile_imp hc)).1)]
    at hs

theorem terminated_trim (hs : terminated false s) : terminated false (trim s) := by
  have hl := terminated_trimLeft hs
  obtain ⟨t, ht, hb⟩ := trimRight_append (trimLeft s)
  rw [ht] at hl
  exact terminated_of_append (fun c hc => (isBlank_plain (hb c hc)).1) hl

theorem references_trimLeft (hR : Sighted R) (s : List Char) :
    references R (trimLeft s) = references R s ∧ (Tidy R (trimLeft s) ↔ Tidy R s) := by
  have hl := references_plain_append hR (u := s.takeWhile isBlank)
    (fun d hd => isBlank_plain (mem_takeWhile_imp hd)) (trimLeft s)
  rw [trimLeft, takeWhile_append_dropWhile] at hl
  exact ⟨hl.1.symm, hl.2.symm⟩

theorem references_trim (hR : Sighted R) (hs : terminated false s) :
    references R (trim s) = references R s ∧ (Tidy R (trim s) ↔ Tidy R s) := by
  have hl := references_trimLeft hR s
  obtain ⟨t, ht, hb⟩ := trimRight_append (trimLeft s)
  have hr := references_append hR (terminated_trim hs) (breaks_blanks hb)
  have hplain := references_plain_append hR (fun d hd => isBlank_plain (hb d hd)) []
  rw [append_nil, references_nil] at hplain
  rw [trim, ← ht, hplain.1, append_nil, hplain.2, and_iff_left tidy_nil] at hr
  exact ⟨hr.1.symm.trans hl.1, hr.2.symm.trans hl.2⟩

theorem exists_trim (s : List Char) :
    ∃ b b', s = b ++ (trim s ++ b') ∧ (∀ c ∈ b, isBlank c) ∧ ∀ c ∈ b', isBlank c := by
  obtain ⟨b', hb', hbl'⟩ := trimRight_append (trimLeft s)
  refine ⟨s.takeWhile isBlank, b', ?_, fun c hc => mem_takeWhile_imp hc, hbl'⟩
  rw [trim, ← hb', trimLeft, takeWhile_append_dropWhile]

theorem mem_of_mem_trim (h : c ∈ trim s) : c ∈ s := by
  obtain ⟨b, b', hs, -, -⟩ := exists_trim s
  rw [hs]
  simp [h]

/-- The characters of a text are blanks around it or stand in the trimmed text. -/
theorem mem_trim_or_isBlank (h : c ∈ s) : c ∈ trim s ∨ isBlank c := by
  obtain ⟨b, b', hs, hb, hb'⟩ := exists_trim s
  rw [hs] at h
  rcases mem_append.1 h with h | h
  · exact .inr (hb c h)
  · exact (mem_append.1 h).imp_right (hb' c)

theorem apart_blanks {b : List Char} (hb : ∀ c ∈ b, isBlank c) : Apart false b false :=
  apart_plain fun c hc => (isBlank_plain (hb c hc)).1

theorem Apart.trim (hs : Apart false s false) : Apart false (trim s) false := by
  obtain ⟨b, b', h, hb, hb'⟩ := exists_trim s
  rw [h, (apart_blanks hb).append_iff] at hs
  exact hs.of_append fun c hc => (isBlank_plain (hb' c hc)).1

/-! ## Fields -/

theorem map_fst_mark (inside : Bool) (s : List Char) : (mark inside s).map Prod.fst = s := by
  fun_induction mark inside s with
  | case1 => rfl
  | case2 c r ih => simp [ih]
  | case3 c r _ ih => rw [map_cons, ih]
  | case4 r ih => simp [ih]
  | case5 c r _ ih => simp [ih]

theorem length_mark (inside : Bool) (s : List Char) : (mark inside s).length = s.length := by
  rw [← length_map, map_fst_mark]

/-- The depth behind some marks, unless a comma of depth zero stands among them. -/
def through : Int → List (Char × Bool) → Option Int
  | depth, [] => some depth
  | depth, (c, true) :: r => if c = ',' ∧ depth = 0 then none else through (depth + depthChange c) r
  | depth, (_, false) :: r => through depth r

section through

variable {depth depth' : Int} {ms : List (Char × Bool)}

theorem fieldsFrom_through (h : through depth ms = some depth') (cur : List Char)
    (ms' : List (Char × Bool)) :
    fieldsFrom depth cur (ms ++ ms') = fieldsFrom depth' ((ms.map Prod.fst).reverse ++ cur)
      ms' := by
  fun_induction through depth ms generalizing cur with
  | case1 =>
    obtain rfl := Option.some.inj h
    rfl
  | case2 => cases h
  | case3 depth c r hc ih => rw [cons_append, fieldsFrom, if_neg hc, ih h]; simp
  | case4 depth c r ih => rw [cons_append, fieldsFrom, ih h]; simp

theorem through_eq_none (h : through depth ms = none) :
    ∃ pre post, ms = pre ++ (',', true) :: post ∧ through depth pre = some 0 := by
  fun_induction through depth ms with
  | case1 => cases h
  | case2 depth c r hc =>
    obtain ⟨rfl, rfl⟩ := hc
    exact ⟨[], r, rfl, rfl⟩
  | case3 depth c r hc ih =>
    obtain ⟨pre, post, rfl, hp⟩ := ih h
    exact ⟨(c, true) :: pre, post, rfl, by rw [through, if_neg hc]; exact hp⟩
  | case4 depth c r ih =>
    obtain ⟨pre, post, rfl, hp⟩ := ih h
    exact ⟨(c, false) :: pre, post, rfl, hp⟩

end through

/-- How a text is divided into fields: at the commas of depth zero that stand outside quotes. -/
inductive Divided : List Char → List (List Char) → Prop where
  | last {s : List Char} {depth : Int} (h : through 0 (mark false s) = some depth) :
    Divided s (if trim s = [] then [] else [trim s])
  | cons {u s : List Char} {fs : List (List Char)} (hu : Apart false u false)
    (ht : through 0 (mark false u) = some 0)
    (hs : Divided s fs) : Divided (u ++ ',' :: s) (trim u :: fs)

theorem Divided.fields_eq {fs : List (List Char)} (h : Divided s fs) : fields s = fs := by
  induction h with
  | @last s depth h =>
    have hf := fieldsFrom_through h [] []
    rw [append_nil, append_nil, map_fst_mark] at hf
    rw [fields, hf, fieldsFrom, reverse_reverse]
  | @cons u s fs hu ht _ ih =>
    rw [fields, hu, fieldsFrom_through ht, mark_cons (c := ',') (by decide), fieldsFrom, append_nil,
      map_fst_mark, reverse_reverse]
    exact congrArg _ ih

theorem divided_fields (s : List Char) : Divided s (fields s) := by
  suffices h : ∃ fs, Divided s fs by
    obtain ⟨fs, h⟩ := h
    rwa [h.fields_eq]
  induction hn : s.length using Nat.strongRecOn generalizing s with
  | ind n ih =>
    cases ht : through 0 (mark false s) with
    | some depth => exact ⟨_, .last ht⟩
    | none =>
      obtain ⟨pre, post, hm, hp⟩ := through_eq_none ht
      obtain ⟨u, v, rfl, rfl, hu⟩ := mark_split hm
      obtain ⟨fs, hv⟩ := ih v.length (by rw [← hn]; simp; omega) v rfl
      exact ⟨_, .cons hu hp hv⟩

/-- What holds of a trimmed text, if the text has a property that stays when it is cut at a comma,
holds of its fields. -/
theorem forall_fields {P Q : List Char → Prop} (trim : ∀ {s}, Q s → P (trim s))
    (split : ∀ {u s}, Apart false u false → Q (u ++ ',' :: s) → Q u ∧ Q s) (hs : Q s) :
    ∀ f ∈ fields s, P f := by
  have h := divided_fields s
  generalize fields s = fs at h
  induction h with
  | last =>
    split_ifs
    · exact fun f hf => absurd hf not_mem_nil
    · exact forall_mem_singleton.2 (trim hs)
  | cons hu _ _ ih =>
    obtain ⟨h1, h2⟩ := split hu hs
    exact forall_mem_cons.2 ⟨trim h1, ih h2⟩

theorem references_fields (hR : Sighted R) (hs : terminated false s) :
    ∀ f ∈ fields s, terminated false f ∧ (Tidy R s → Tidy R f) ∧ ∀ w ∈ references R f,
    w ∈ references R s := by
  refine forall_fields (Q := fun u => terminated false u ∧ (Tidy R s → Tidy R u) ∧
    ∀ w ∈ references R u, w ∈ references R s) ?_ ?_ ⟨hs, id, fun _ hw => hw⟩
  · rintro u ⟨hu, hr⟩
    rw [(references_trim hR hu).1, (references_trim hR hu).2]
    exact ⟨terminated_trim hu, hr⟩
  · rintro u v hu ⟨ht, htd, hr⟩
    have hu := hu.terminated ht
    obtain ⟨h1, h2⟩ := references_cut hR hu (c := ',') (by decide) v
    rw [terminated_append hu, terminated_cons (by decide)] at ht
    rw [h2] at htd
    rw [h1] at hr
    exact ⟨⟨hu, fun h => (htd h).1, fun w hw => hr w (mem_append_left _ hw)⟩,
      ht, fun h => (htd h).2, fun w hw => hr w (mem_append_right _ hw)⟩

/-! ## Closing brackets -/

/-- Whether the depth is one behind some marks and no bracket was closed at depth one before. -/
def upToCloser (opener closer : Char) : Int → List (Char × Bool) → Bool
  | depth, [] => depth = 1
  | depth, (c, counts) :: r =>
    if counts && c = opener then upToCloser opener closer (depth + 1) r
    else if counts && c = closer then depth ≠ 1 && upToCloser opener closer (depth - 1) r
    else upToCloser opener closer depth r

theorem closingAt_eq_some (h : closingAt opener closer depth ms = some k) :
    ∃ pre post, ms = pre ++ (closer, true) :: post ∧ pre.length = k ∧
    upToCloser opener closer depth pre := by
  induction ms generalizing depth k with
  | nil => cases h
  | cons m ms ih =>
    obtain ⟨c, counts⟩ := m
    have hstep {d : Int} (h : (closingAt opener closer d ms).map (· + 1) = some k)
        (hu : ∀ {pre}, upToCloser opener closer d pre →
          upToCloser opener closer depth ((c, counts) :: pre)) :
        ∃ pre post, (c, counts) :: ms = pre ++ (closer, true) :: post ∧ pre.length = k ∧
          upToCloser opener closer depth pre := by
      obtain ⟨k, hk, rfl⟩ := Option.map_eq_some_iff.1 h
      obtain ⟨pre, post, rfl, rfl, hp⟩ := ih hk
      exact ⟨(c, counts) :: pre, post, rfl, rfl, hu hp⟩
    simp only [closingAt] at h
    split_ifs at h with ho hc hd
    · exact hstep h fun hp => by rwa [upToCloser, if_pos ho]
    · obtain rfl := Option.some.inj h
      simp only [Bool.and_eq_true, decide_eq_true_eq] at hc
      obtain ⟨rfl, rfl⟩ := hc
      exact ⟨[], ms, rfl, rfl, by simp [upToCloser, hd]⟩
    · exact hstep h fun hp => by rw [upToCloser, if_neg ho, if_pos hc]; simp [hd, hp]
    · exact hstep h fun hp => by rwa [upToCloser, if_neg ho, if_neg hc]

theorem closingAt_append (hne : closer ≠ opener) (h : upToCloser opener closer depth pre)
    (post : List (Char × Bool)) :
    closingAt opener closer depth (pre ++ (closer, true) :: post) = some pre.length := by
  induction pre generalizing depth with
  | nil =>
    have hd : depth = 1 := by simpa [upToCloser] using h
    simp [closingAt, hne, hd]
  | cons m pre ih =>
    simp only [upToCloser] at h
    simp only [cons_append, closingAt]
    split_ifs at h ⊢ with ho hc hd
    · rw [ih h]
      rfl
    · simp [hd] at h
    · rw [ih (Bool.and_eq_true _ _ ▸ h).2]
      rfl
    · rw [ih h]
      rfl

/-- Whether a text is a square bracket up to the bracket that closes it. -/
def upToSquare (u : List Char) : Bool := upToCloser '[' ']' 0 (mark false u)

/-- The bracket that closes the one at the head of a text. -/
theorem exists_closing (h : closingOffset? ('[' :: s) = some k) :
    ∃ u v, s = u ++ ']' :: v ∧ k = u.length + 1 ∧ Apart false u false ∧ upToSquare ('[' :: u) := by
  obtain ⟨pre, post, hm, rfl, hp⟩ := closingAt_eq_some h
  obtain ⟨u, v, hu, rfl, ha⟩ := mark_split hm
  cases u with
  | nil => cases (cons.inj hu).1
  | cons c u =>
    obtain ⟨rfl, rfl⟩ := cons.inj hu
    exact ⟨u, v, rfl, length_mark false _, (apart_char (by decide)).append_iff.1 ha, hp⟩

theorem closingOffset?_closed (hu : Apart false u false) (hc : upToSquare ('[' :: u))
    (v : List Char) : closingOffset? ('[' :: u ++ ']' :: v) = some (u.length + 1) := by
  have ha : Apart false ('[' :: u) false := (apart_char (by decide)).append_iff.2 hu
  show closingAt '[' ']' 0 (mark false ('[' :: u ++ ']' :: v)) = _
  rw [ha, mark_cons (c := ']') (by decide), closingAt_append (by decide) hc, length_mark]
  rfl

/-! ## Pieces under edits -/

namespace Edit

variable {p : Char → Bool}

theorem split (h : Edit p (u ++ v) s') (hu : Ir.terminated false u)
    (hv : delimited v) : ∃ u' v', s' = u' ++ v' ∧ Edit p u u' ∧ Edit p v v' := by
  generalize hs : u ++ v = s at h
  induction h generalizing u with
  | nil =>
    obtain ⟨rfl, rfl⟩ := append_eq_nil_iff.1 hs
    exact ⟨[], [], rfl, .nil, .nil⟩
  | @char c s s' hq h ih =>
    cases u with
    | nil => exact ⟨[], c :: s', rfl, .nil, by rw [nil_append] at hs; rw [hs]; exact .char hq h⟩
    | cons d u =>
      obtain ⟨rfl, htl⟩ := cons.inj hs
      rw [terminated_cons hq] at hu
      obtain ⟨u', v', rfl, hu', hv'⟩ := ih hu htl
      exact ⟨d :: u', v', rfl, .char hq hu', hv'⟩
  | @literal b s s' hb h ih =>
    cases u with
    | nil =>
      exact ⟨[], '"' :: b ++ '"' :: s', rfl,
        .nil, by rw [nil_append] at hs; rw [hs]; exact .literal hb h⟩
    | cons d u =>
      obtain ⟨rfl, htl⟩ := cons.inj hs
      obtain ⟨b', r, hb', rfl, hr⟩ := terminated_quote.1 hu
      have htl' : b' ++ '"' :: (r ++ v) = b ++ '"' :: s := by
        rw [← cons_append, ← append_assoc]; exact htl
      obtain ⟨rfl, rfl⟩ := hb'.unique hb htl'
      obtain ⟨u', v', rfl, hu', hv'⟩ := ih hr rfl
      exact ⟨'"' :: b' ++ '"' :: u', v', by simp, .literal hb' hu', hv'⟩
  | @token c t t' s s' hc hp ht ht' h ih =>
    cases u with
    | nil =>
      exact ⟨[], c :: t' ++ s', rfl,
        .nil, by rw [nil_append] at hs; rw [hs]; exact .token hc hp ht ht' h⟩
    | cons d u =>
      obtain ⟨rfl, htl⟩ := cons.inj hs
      rw [terminated_cons (isSigil_ne_quote hc)] at hu
      obtain ⟨r, rfl, rfl⟩ := ht.split htl.symm hu hv
      rw [ht.terminated] at hu
      obtain ⟨u', v', rfl, hu', hv'⟩ := ih hu rfl
      exact ⟨d :: t' ++ u', v', by simp, .token hc hp ht ht' hu', hv'⟩

end Edit

variable {q : Char × Bool → Bool}

/-- Marks of a kind that stands in no reference. -/
structure Outward (q : Char × Bool → Bool) : Prop where
  counts : ∀ c, q (c, false) = false
  delimits : ∀ c, q (c, true) → isDelimiter c

theorem Outward.bare (hq : Outward q) (h : isDelimiter c = false) : q (c, true) = false := by
  by_contra hc
  rw [hq.delimits c (by simpa using hc)] at h
  cases h

theorem isDelimiter_of_isBare (h : isBare c) : isDelimiter c = false := by simp [isDelimiter, h]

theorem isDelimiter_of_isSigil (h : isSigil c) : isDelimiter c = false := by simp [isDelimiter, h]

theorem filter_uncounted (hq : Outward q) (u : List Char) : (u.map (·, false)).filter q = [] := by
  refine filter_eq_nil_iff.2 fun m hm => ?_
  obtain ⟨c, -, rfl⟩ := mem_map.1 hm
  simp [hq.counts]

theorem Token.filter_mark (hq : Outward q) (ht : Token t) (s : List Char) :
    (mark false (t ++ s)).filter q = (mark false s).filter q := by
  cases ht with
  | @bare t hb =>
    induction t with
    | nil => rfl
    | cons c t ih =>
      have hc := hb c mem_cons_self
      rw [cons_append, mark_cons (isBare_ne_quote hc),
        filter_cons_of_neg (by simp [hq.bare (isDelimiter_of_isBare hc)]),
        ih fun d hd => hb d (mem_cons_of_mem _ hd)]
  | @quoted b hb =>
    rw [quoted_append, mark_body hb, filter_append, filter_uncounted hq, nil_append]

/-- An edit leaves the delimiters outside quotes. -/
theorem Edit.filter_mark (hq : Outward q) (h : Edit p s s') :
    (mark false s').filter q = (mark false s).filter q := by
  induction h with
  | nil => rfl
  | char hc _ ih => rw [mark_cons hc, mark_cons hc, filter_cons, filter_cons, ih]
  | literal hb _ ih => rw [mark_body hb, mark_body hb, filter_append, filter_append, ih]
  | @token c u u' s s' hc _ hu hu' _ ih =>
    have hd : ¬ q (c, true) := by rw [hq.bare (isDelimiter_of_isSigil hc)]; simp
    rw [cons_append, cons_append, mark_cons (isSigil_ne_quote hc), mark_cons (isSigil_ne_quote hc),
      filter_cons_of_neg hd, filter_cons_of_neg hd, hu.filter_mark hq, hu'.filter_mark hq, ih]

/-- A square bracket outside quotes. -/
def isSquare (m : Char × Bool) : Bool := m.2 && (m.1 = '[' || m.1 = ']')

theorem outward_isSquare : Outward isSquare := by
  refine ⟨fun c => rfl, fun c hc => ?_⟩
  rcases (by simpa [isSquare] using hc : c = '[' ∨ c = ']') with rfl | rfl <;> decide

theorem upToCloser_filter (depth : Int) (ms : List (Char × Bool)) :
    upToCloser '[' ']' depth ms = upToCloser '[' ']' depth (ms.filter isSquare) := by
  induction ms generalizing depth with
  | nil => rfl
  | cons m ms ih =>
    obtain ⟨c, counts⟩ := m
    by_cases ho : (counts && c = '[') = true
    · have hs : isSquare (c, counts) := by simp_all [isSquare]
      rw [filter_cons_of_pos hs, upToCloser, upToCloser, if_pos ho, if_pos ho, ih]
    · by_cases hc : (counts && c = ']') = true
      · have hs : isSquare (c, counts) := by simp_all [isSquare]
        rw [filter_cons_of_pos hs, upToCloser, upToCloser, if_neg ho, if_neg ho, if_pos hc,
          if_pos hc, ih]
      · have hs : ¬ isSquare (c, counts) := by
          simp only [isSquare, Bool.and_eq_true, Bool.or_eq_true] at ho hc ⊢
          tauto
        rw [filter_cons_of_neg hs, upToCloser, if_neg ho, if_neg hc, ih]

/-- A mark at which the depth changes or a field may end. -/
def isDivider (m : Char × Bool) : Bool := m.2 && (m.1 = ',' || depthChange m.1 ≠ 0)

theorem not_isDivider {P : Char → Bool}
    (hP : [',', '(', '[', '\x7b', '<', ')', ']', '\x7d', '>'].all (!P ·))
    (hc : P c) : isDivider (c, true) = false := by
  have hne := ne_of_class hP hc
  simp only [forall_mem_cons] at hne
  simp [isDivider, depthChange, hne]

theorem outward_isDivider : Outward isDivider := by
  refine ⟨fun c => rfl, fun c hc => ?_⟩
  by_contra hd
  rw [not_isDivider (P := fun c => !isDelimiter c) (by decide) (by simpa using hd)] at hc
  cases hc

theorem through_filter (depth : Int) (ms : List (Char × Bool)) :
    through depth (ms.filter isDivider) = through depth ms := by
  fun_induction through depth ms with
  | case1 => rfl
  | case2 depth c r hc => rw [filter_cons_of_pos (by simp [isDivider, hc.1]), through, if_pos hc]
  | case3 depth c r hc ih =>
    by_cases hd : isDivider (c, true)
    · rw [filter_cons_of_pos hd, through, if_neg hc, ih]
    · have hz : depthChange c = 0 := by
        by_contra hz
        exact hd (by simp [isDivider, hz])
      rw [filter_cons_of_neg hd, ← ih, hz, add_zero]
  | case4 depth c r ih => rw [filter_cons_of_neg (by simp [isDivider]), ih]

/-- A token is part of one field. -/
theorem Token.through (ht : Token t) (depth : Int) : through depth (mark false t) = some depth := by
  have h := ht.filter_mark outward_isDivider []
  rw [append_nil] at h
  rw [← through_filter, h]
  rfl

theorem Edit.through_mark (h : Edit p u u') (depth : Int) :
    through depth (mark false u') = through depth (mark false u) := by
  rw [← through_filter, h.filter_mark outward_isDivider, through_filter]

theorem Edit.upToSquare_eq (h : Edit p u u') : upToSquare u' = upToSquare u := by
  unfold upToSquare
  rw [upToCloser_filter, h.filter_mark outward_isSquare, ← upToCloser_filter]

end CallAtlas.Ir
