import CallAtlas.Loader.Needs
import CallAtlas.Proofs.Container.Tags
import CallAtlas.Proofs.Path

/-!
# Search paths with the directory of the binary

An entry of a search path names the directory of its binary as `$ORIGIN` or with braces around the
word. By `expandOnce` both are filled in from left to right, and what is filled in is not looked at
again. The loader fills in the two spellings one after the other, so the second pass also looks at
the directories that the first has filled in. This changes nothing exactly for the directories in
which no place can begin the word, `Inert`: `splitSearchPath_eq_iff`.
-/

namespace CallAtlas.Loader

open Text List

/-! ## Replacing -/

section Replacing

variable {old new s u : List Char} {c : Char}

theorem replaceAll_append (h : old ≠ []) (s : List Char) :
    replaceAll old new (old ++ s) = new ++ replaceAll old new s := by
  obtain ⟨c, r, rfl⟩ := exists_cons_of_ne_nil h
  have hp : (c :: r).isPrefixOf (c :: (r ++ s)) :=
    isPrefixOf_iff_prefix.2 (prefix_append (c :: r) s)
  rw [cons_append, replaceAll, dif_pos ⟨hp, h⟩]
  have hdrop : ((c :: r) ++ s).drop (c :: r).length = s := drop_left
  congr 2

theorem replaceAll_cons (h : ¬old <+: c :: s) :
    replaceAll old new (c :: s) = c :: replaceAll old new s := by
  rw [replaceAll, dif_neg fun hp => h (List.isPrefixOf_iff_prefix.1 hp.1)]

/-- No place in `u` can begin `old`, whatever stands behind `u`. -/
def Inert (old u : List Char) : Prop := ∀ t ∈ u.tails, t ≠ [] → ¬t <+: old ∧ ¬old <+: t

instance (old u : List Char) : Decidable (Inert old u) :=
  inferInstanceAs (Decidable (∀ t ∈ u.tails, t ≠ [] → ¬t <+: old ∧ ¬old <+: t))

theorem Inert.tail (h : Inert old (c :: u)) : Inert old u := fun t ht =>
  h t (by exact mem_cons_of_mem _ ht)

theorem replaceAll_inert (h : Inert old u) (s : List Char) :
    replaceAll old new (u ++ s) = u ++ replaceAll old new s := by
  induction u with
  | nil => rfl
  | cons c u ih =>
    have hhead := h (c :: u) (by exact mem_cons_self) (cons_ne_nil c u)
    have hno : ¬old <+: c :: (u ++ s) := by
      intro hp
      rcases prefix_or_prefix_of_prefix hp (prefix_append (c :: u) s) with hp | hp
      · exact hhead.2 hp
      · exact hhead.1 hp
    rw [cons_append, replaceAll_cons hno, ih h.tail, cons_append]

theorem replaceAll_of_absent (h : ¬old <:+: s) : replaceAll old new s = s := by
  induction s with
  | nil => rw [replaceAll]
  | cons c s ih =>
    rw [infix_cons_iff, not_or] at h
    rw [replaceAll_cons h.1, ih h.2]

/-- Characters that no replacement begins with stand there from the start. -/
theorem prefix_of_prefix_replaceAll {w : List Char} (hold : old ≠ [])
    (hw : ∀ c ∈ w, new.head? ≠ some c)
    (hnew : new ≠ []) (h : w <+: replaceAll old new s) : w <+: s := by
  induction w generalizing s with
  | nil => exact nil_prefix
  | cons a w ih =>
    obtain ⟨ha, hw⟩ := forall_mem_cons.1 hw
    cases s with
    | nil =>
      rw [replaceAll] at h
      exact h
    | cons d s =>
      by_cases hp : old <+: d :: s
      · obtain ⟨r, hr⟩ := hp
        rw [← hr, replaceAll_append hold] at h
        obtain ⟨x, y, rfl⟩ := exists_cons_of_ne_nil hnew
        rw [cons_append, cons_prefix_cons] at h
        exact absurd (congrArg some h.1.symm) ha
      · rw [replaceAll_cons hp, cons_prefix_cons] at h
        rw [cons_prefix_cons]
        exact ⟨h.1, ih hw h.2⟩

theorem replaceAll_ne (hold : old ≠ []) (hnew : new ≠ []) (hhead : new.head? ≠ old.head?)
    (h : old <:+: s) :
    replaceAll old new s ≠ s := by
  induction s with
  | nil => exact absurd (infix_nil.1 h) hold
  | cons c s ih =>
    by_cases hp : old <+: c :: s
    · obtain ⟨r, hr⟩ := hp
      rw [← hr, replaceAll_append hold]
      intro he
      have := congrArg head? he
      rw [head?_append_of_ne_nil _ hnew, head?_append_of_ne_nil _ hold] at this
      exact hhead this
    · rw [replaceAll_cons hp]
      intro he
      exact ih ((infix_cons_iff.1 h).resolve_left hp) (cons.inj he).2

end Replacing

/-! ## One pass and two -/

/-- The directory of the binary, as it is named without braces. -/
def plain : List Char := "$ORIGIN".toList

/-- The directory of the binary, as it is named with braces. -/
def braced : List Char := "$\x7bORIGIN\x7d".toList

/-- An entry with both spellings filled in from left to right. -/
def expandOnce (origin : List Char) : List Char → List Char
  | [] => []
  | c :: r =>
    if braced.isPrefixOf (c :: r) then origin ++ expandOnce origin (r.drop 8)
    else if plain.isPrefixOf (c :: r) then origin ++ expandOnce origin (r.drop 6)
    else c :: expandOnce origin r
termination_by s => s.length
decreasing_by
  all_goals
    simp only [length_drop, length_cons]
    omega

theorem eq_append_drop {old s : List Char} (h : old.isPrefixOf s) :
    s = old ++ s.drop old.length := by
  obtain ⟨r, rfl⟩ := isPrefixOf_iff_prefix.1 h
  rw [drop_left]

variable {origin : List Char}

/-- Two passes are one if no place of the directory can begin the word. -/
theorem expand_inert (ho : origin.head? = some '/') (hi : Inert plain origin) (e : List Char) :
    replaceAll plain origin (replaceAll braced origin e) = expandOnce origin e := by
  have hne : origin ≠ [] := by
    rintro rfl
    cases ho
  fun_induction expandOnce origin e with
  | case1 => rw [replaceAll, replaceAll]
  | case2 c r h ih =>
    have hr : c :: r = braced ++ r.drop 8 := eq_append_drop h
    rw [hr, replaceAll_append (by decide), replaceAll_inert hi, ih]
  | case3 c r _ h ih =>
    have hr : c :: r = plain ++ r.drop 6 := eq_append_drop h
    rw [hr, replaceAll_inert (show Inert braced plain by decide), replaceAll_append (by decide), ih]
  | case4 c r hb hp ih =>
    rw [List.isPrefixOf_iff_prefix] at hb hp
    -- The rest of the word would have to stand in the entry: the directory begins with a slash.
    have hno : ¬plain <+: c :: replaceAll braced origin r := by
      intro h
      refine hp ?_
      rw [show plain = '$' :: "ORIGIN".toList from rfl, cons_prefix_cons] at h ⊢
      refine ⟨h.1, prefix_of_prefix_replaceAll (by decide) (fun a ha hsame => ?_) hne h.2⟩
      obtain rfl : '/' = a := Option.some.inj (ho.symm.trans hsame)
      exact absurd ha (by decide)
    rw [replaceAll_cons hb, replaceAll_cons hno, ih]

theorem expand_unbraced {e : List Char} (h : ¬braced <:+: e) :
    replaceAll plain origin (replaceAll braced origin e) = expandOnce origin e := by
  rw [replaceAll_of_absent h]
  fun_induction expandOnce origin e with
  | case1 => rw [replaceAll]
  | case2 c r hb ih => exact absurd (List.isPrefixOf_iff_prefix.1 hb).isInfix h
  | case3 c r _ hp ih =>
    have hr : c :: r = plain ++ r.drop 6 := eq_append_drop hp
    rw [hr] at h ⊢
    rw [replaceAll_append (by decide), ih fun hb => h (hb.trans (suffix_append ..).isInfix)]
  | case4 c r hb hp ih =>
    rw [List.isPrefixOf_iff_prefix] at hp
    rw [replaceAll_cons hp, ih fun hb => h (hb.trans (suffix_cons c r).isInfix)]

theorem expandOnce_of_not_mem {e : List Char} (h : '$' ∉ e) : expandOnce origin e = e := by
  have hplain : ¬plain <:+: e := fun hp => h (hp.subset mem_cons_self)
  have hbraced : ¬braced <:+: e := fun hp => h (hp.subset mem_cons_self)
  rw [← expand_unbraced hbraced, replaceAll_of_absent hbraced, replaceAll_of_absent hplain]

theorem expandOnce_braced (e : List Char) :
    expandOnce origin (braced ++ e) = origin ++ expandOnce origin e := by
  have hp : braced.isPrefixOf (braced ++ e) := isPrefixOf_iff_prefix.2 (prefix_append ..)
  rw [show braced ++ e = '$' :: ("\x7bORIGIN\x7d".toList ++ e) from rfl] at hp ⊢
  rw [expandOnce]
  rfl

theorem inert_of_expand (ho : origin.head? = some '/')
    (h : ∀ e, e ≠ [] → ':' ∉ e →
      replaceAll plain origin (replaceAll braced origin e) = expandOnce origin e) :
    Inert plain origin := by
  intro t ht hne
  have horigin : origin ≠ [] := by
    rintro rfl
    cases ho
  have hhead : origin.head? ≠ plain.head? := by
    rw [ho]
    decide
  -- The first pass fills in the directory before `w`, and the second one must leave it as it is.
  have hkept {w : List Char} (hw : w ⊆ "ORIGIN".toList) : replaceAll plain origin (origin ++ w) =
      origin ++ w := by
    have hdollar : '$' ∉ w := fun hmem => absurd (hw hmem) (by decide)
    have hbraced : ¬braced <:+: w := fun hp => hdollar (hp.subset mem_cons_self)
    have hcolon : ':' ∉ braced ++ w := by
      intro hmem
      rcases mem_append.1 hmem with hmem | hmem
      · exact absurd hmem (by decide)
      · exact absurd (hw hmem) (by decide)
    have he := h (braced ++ w) (append_ne_nil_of_left_ne_nil (by decide) w) hcolon
    rwa [replaceAll_append (by decide), replaceAll_of_absent hbraced, expandOnce_braced,
      expandOnce_of_not_mem hdollar] at he
  rw [mem_tails] at ht
  refine ⟨?_, fun hp => ?_⟩
  · rintro ⟨w, hw⟩
    obtain ⟨u, rfl⟩ := ht
    obtain ⟨x, t, rfl⟩ := exists_cons_of_ne_nil hne
    have hrest : t ++ w = "ORIGIN".toList := (cons.inj hw).2
    have hword : w ⊆ "ORIGIN".toList := hrest ▸ subset_append_right t w
    refine replaceAll_ne (by decide) horigin hhead ⟨u, [], ?_⟩ (hkept hword)
    rw [append_nil, append_assoc, hw]
  · have hwhole := hkept (nil_subset _)
    rw [append_nil] at hwhole
    exact replaceAll_ne (by decide) horigin hhead (hp.isInfix.trans ht.isInfix) hwhole

/-! ## Search paths -/

/-- The directories that a search path names: its entries between colons but the empty ones, each
filled in. -/
def namedDirectories (origin path : String) : List String :=
  ((path.toList.splitOn ':').filter (· ≠ [])).map fun e =>
    String.ofList (expandOnce origin.toList e)

theorem infix_intercalate {sep e : List Char} {l : List (List Char)} (h : e ∈ l) :
    e <:+: sep.intercalate l := by
  induction l with
  | nil => cases h
  | cons a l ih =>
    cases l with
    | nil =>
      rw [intercalate_singleton, mem_singleton.1 h]
    | cons b l =>
      rw [intercalate_cons_cons]
      rcases mem_cons.1 h with rfl | h
      · rw [append_assoc]
        exact (prefix_append ..).isInfix
      · exact (ih h).trans (suffix_append ..).isInfix

/-- The loader finds the named directories if the directory of the binary is inert or is not named
with braces. -/
theorem splitSearchPath_eq {origin path : String} (ho : origin.toList.head? = some '/')
    (h : Inert plain origin.toList ∨ ¬braced <:+: path.toList) :
    splitSearchPath origin path = namedDirectories origin path := by
  rw [splitSearchPath, Path.splitAt_eq_splitOn]
  refine map_congr_left fun e he => ?_
  have hexpand : replaceAll plain origin.toList (replaceAll braced origin.toList e) =
      expandOnce origin.toList e := by
    rcases h with h | h
    · exact expand_inert ho h e
    · refine expand_unbraced fun hb => h (hb.trans ?_)
      have hinfix : e <:+: [':'].intercalate (path.toList.splitOn ':') :=
        infix_intercalate (mem_filter.1 he).1
      rwa [intercalate_splitOn] at hinfix
  exact congrArg String.ofList hexpand

theorem splitSearchPath_eq_iff {origin : String} (ho : origin.toList.head? = some '/') :
    (∀ path, splitSearchPath origin path = namedDirectories origin path) ↔
    Inert plain origin.toList := by
  refine ⟨fun h => inert_of_expand ho fun e hne hcolon => ?_,
    fun hi path => splitSearchPath_eq ho (.inl hi)⟩
  have hsplit : ([':'].intercalate [e]).splitOn ':' = [e] :=
    splitOn_intercalate ':' (by simpa using hcolon) (cons_ne_nil e [])
  rw [intercalate_singleton] at hsplit
  have hentries : (e.splitOn ':').filter (· ≠ []) = [e] := by
    rw [hsplit]
    exact filter_cons_of_pos (decide_eq_true hne)
  have he := h (String.ofList e)
  rw [splitSearchPath, namedDirectories, Path.splitAt_eq_splitOn, String.toList_ofList,
    hentries] at he
  exact String.ofList_injective (cons.inj he).1

theorem head_directoryName {p : String} (h : Path.isAbsolute p) :
    (Path.directoryName p).toList.head? = some '/' := by
  rw [Path.isAbsolute, Path.startsWith_eq, isPrefixOf_iff_prefix] at h
  obtain ⟨r, hr⟩ := h
  have hr : p.toList = '/' :: r := hr.symm
  -- Everything up to the last slash, and then without the slashes at its end, is a beginning of the
  -- path.
  have hstart {a : Char → Bool} {l : List Char} (hl : l.head? = some '/')
      (hne : (l.reverse.dropWhile a) ≠ []) :
      (l.reverse.dropWhile a).reverse.head? = some '/' := by
    have hp : (l.reverse.dropWhile a).reverse <+: l := by
      have := reverse_prefix.2 (dropWhile_suffix a (l := l.reverse))
      rwa [reverse_reverse] at this
    obtain ⟨x, hx⟩ := hp
    rw [← hx, head?_append_of_ne_nil _ (by simpa using hne)] at hl
    exact hl
  have hhead : (p.toList.reverse.dropWhile (· ≠ '/')).reverse.head? = some '/' := by
    refine hstart (by rw [hr]; rfl) fun hnil => ?_
    have hall := dropWhile_eq_nil_iff.1 hnil '/' (by rw [mem_reverse, hr]; exact mem_cons_self)
    exact absurd rfl (of_decide_eq_true hall)
  unfold Path.directoryName
  dsimp only
  split_ifs with hall
  · rw [String.toList_ofList]
    exact hhead
  · rw [String.toList_ofList]
    refine hstart hhead fun hnil => hall (all_eq_true.2 fun c hc => ?_)
    exact dropWhile_eq_nil_iff.1 hnil c (mem_reverse.2 hc)

theorem isAbsolute_absolute (files : FileTree) (path : String) :
    Path.isAbsolute (files.absolute path) := by
  rw [FileTree.absolute, Path.isAbsolute_normalize]
  unfold Path.join
  have hslash (x : String) : Path.isAbsolute ("/" ++ x) := by
    rw [Path.isAbsolute, Path.startsWith_eq, String.toList_append]
    rfl
  split_ifs with h1 h2
  · exact h1
  · rw [String.append_assoc]
    exact hslash _
  · rw [String.append_assoc, String.append_assoc]
    exact hslash _

end CallAtlas.Loader
