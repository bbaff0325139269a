import CallAtlas.Path
import Mathlib

/-!
# Normal forms of paths

The components of a path put together give the path, `intercalate_components`, and a normal form is
read back as its components, `components_normalize`. So a normal form is its own normal form
(`normalize_normalize`), is tidy (`tidy_normalize`), and is not longer than the path it comes from
(`utf8ByteSize_normalize_le`).
-/

namespace CallAtlas.Path

open List

variable {absolute : Bool} {acc cs : List String} {c p s : String}

/-! ## Components -/

theorem splitAt_eq_splitOn (sep : Char) (s : List Char) : splitAt sep s = s.splitOn sep := by
  induction s with
  | nil => rfl
  | cons c r ih =>
    have hcons : (c :: r).splitOn sep =
        if (c == sep) = true then [] :: r.splitOn sep else (r.splitOn sep).modifyHead (cons c) :=
      splitOnP_cons_eq_if_modifyHead c r
    rw [splitAt, ih, hcons]
    cases h : r.splitOn sep with
    | nil => exact absurd h (splitOn_ne_nil sep r)
    | cons p ps => by_cases hc : c = sep <;> simp

theorem components_ne_nil (p : String) : components p ≠ [] := by
  simp [components, splitAt_eq_splitOn]

/-- A component that can stand between slashes. -/
def Slashless (c : String) : Prop := '/' ∉ c.toList

theorem intercalate_components (p : String) : "/".intercalate (components p) = p := by
  rw [← String.toList_inj, String.toList_intercalate, components, map_map]
  have hid : String.toList ∘ String.ofList = id := funext fun s => String.toList_ofList
  rw [hid, map_id, splitAt_eq_splitOn]
  exact intercalate_splitOn '/'

theorem components_intercalate (hne : cs ≠ []) (hcs : ∀ c ∈ cs, Slashless c) :
    components ("/".intercalate cs) = cs := by
  rw [components, splitAt_eq_splitOn, String.toList_intercalate]
  have hsplit : (['/'].intercalate (cs.map String.toList)).splitOn '/' = cs.map String.toList := by
    refine splitOn_intercalate '/' ?_ (by simpa using hne)
    intro l hl
    obtain ⟨c, hc, rfl⟩ := mem_map.1 hl
    exact hcs c hc
  show (splitOn '/' (['/'].intercalate (cs.map String.toList))).map String.ofList = cs
  rw [hsplit, map_map]
  have hid : String.ofList ∘ String.toList = id := funext fun s => String.ofList_toList
  rw [hid, map_id]

theorem not_mem_of_mem_splitAt {sep : Char} {s q : List Char} (h : q ∈ splitAt sep s) :
    sep ∉ q := by
  induction s generalizing q with
  | nil =>
    rw [splitAt, mem_singleton] at h
    simp [h]
  | cons c r ih =>
    rw [splitAt] at h
    cases hs : splitAt sep r with
    | nil => exact absurd hs (by simp [splitAt_eq_splitOn])
    | cons p ps =>
      simp only [hs] at h ih
      split at h
      · rcases mem_cons.1 h with rfl | h
        · simp
        · exact ih h
      · next hc =>
        rcases mem_cons.1 h with rfl | h
        · simp only [mem_cons, not_or]
          exact ⟨Ne.symm hc, ih (mem_cons_self ..)⟩
        · exact ih (mem_cons_of_mem _ h)

theorem slashless_of_mem_components (h : c ∈ components p) : Slashless c := by
  obtain ⟨q, hq, rfl⟩ := mem_map.1 h
  rw [Slashless, String.toList_ofList]
  exact not_mem_of_mem_splitAt hq

theorem components_append (p q : String) :
    components (p ++ "/" ++ q) = components p ++ components q := by
  have h : p ++ "/" ++ q = "/".intercalate (components p ++ components q) := by
    rw [String.intercalate_append_of_ne_nil (components_ne_nil p) (components_ne_nil q),
      intercalate_components, intercalate_components]
  rw [h, components_intercalate (by simp [components_ne_nil])]
  exact forall_mem_append.2 ⟨fun _ => slashless_of_mem_components,
    fun _ => slashless_of_mem_components⟩

theorem components_slash (p : String) : components ("/" ++ p) = "" :: components p := by
  rw [← String.empty_append (s := "/"), components_append]
  rfl

/-! ## Normal components -/

/-- A component that moves: neither empty nor a dot. -/
def isSolid (c : String) : Bool := c ≠ "" && c ≠ "."

theorem toList_ne_nil (h : isSolid c) : c.toList ≠ [] := by
  intro he
  rw [String.toList_eq_nil_iff] at he
  simp [he, isSolid] at h

theorem addComponent_of_not_solid (h : isSolid c = false) : addComponent absolute acc c = acc := by
  have : c = "" ∨ c = "." := by
    simp only [isSolid, Bool.and_eq_false_iff, decide_eq_false_iff_not, not_not] at h
    exact h
  unfold addComponent
  rw [if_pos this]

theorem addComponent_of_solid (h : isSolid c) (hd : c ≠ "..") :
    addComponent absolute acc c = c :: acc := by
  have : ¬ (c = "" ∨ c = ".") := by
    simp only [isSolid, Bool.and_eq_true, decide_eq_true_eq] at h
    tauto
  unfold addComponent
  rw [if_neg this, if_pos hd]

theorem addComponent_dots_nil (absolute : Bool) :
    addComponent absolute [] ".." = if absolute then [] else [".."] := rfl

theorem addComponent_dots_cons (absolute : Bool) (last : String) (r : List String) :
    addComponent absolute (last :: r) ".." = if last = ".." then ".." :: last :: r else r := rfl

theorem foldl_addComponent_filter (absolute : Bool) (acc cs : List String) :
    (cs.filter isSolid).foldl (addComponent absolute) acc =
      cs.foldl (addComponent absolute) acc := by
  induction cs generalizing acc with
  | nil => rfl
  | cons c cs ih =>
    cases hc : isSolid c with
    | true => rw [filter_cons_of_pos hc, foldl_cons, foldl_cons, ih]
    | false =>
      rw [filter_cons_of_neg (by simp [hc]), foldl_cons, addComponent_of_not_solid hc, ih]

/-- Normal components, kept backwards: all are solid, and two dots stand at the start of relative
paths only. -/
def IsNormal (absolute : Bool) : List String → Prop
  | [] => True
  | c :: r =>
    isSolid c = true ∧ (c = ".." → absolute = false ∧ ∀ d ∈ r, d = "..") ∧ IsNormal absolute r

theorem isNormal_nil : IsNormal absolute [] := trivial

theorem isNormal_addComponent (h : IsNormal absolute acc) :
    IsNormal absolute (addComponent absolute acc c) := by
  cases hc : isSolid c with
  | false => rwa [addComponent_of_not_solid hc]
  | true =>
    by_cases hdots : c = ".."
    · subst hdots
      cases acc with
      | nil =>
        cases absolute with
        | true => trivial
        | false => exact ⟨hc, fun _ => ⟨rfl, by simp⟩, trivial⟩
      | cons last r =>
        rw [addComponent_dots_cons]
        split_ifs with hlast
        · refine ⟨hc, fun _ => ⟨(h.2.1 hlast).1, ?_⟩, h⟩
          exact forall_mem_cons.2 ⟨hlast, (h.2.1 hlast).2⟩
        · exact h.2.2
    · rw [addComponent_of_solid hc hdots]
      exact ⟨hc, fun he => absurd he hdots, h⟩

theorem isNormal_foldl (cs : List String) (h : IsNormal absolute acc) :
    IsNormal absolute (cs.foldl (addComponent absolute) acc) := by
  induction cs generalizing acc with
  | nil => exact h
  | cons c cs ih => exact ih (isNormal_addComponent h)

/-- Normal components are not changed by adding them one after the other. -/
theorem foldl_addComponent_normal (h : IsNormal absolute acc) :
    acc.reverse.foldl (addComponent absolute) [] = acc := by
  induction acc with
  | nil => rfl
  | cons c r ih =>
    obtain ⟨hc, hdots, hr⟩ := h
    rw [reverse_cons, foldl_append, ih hr, foldl_cons, foldl_nil]
    by_cases h : c = ".."
    · obtain ⟨ha, hall⟩ := hdots h
      subst h
      cases r with
      | nil => rw [addComponent_dots_nil, ha, if_neg (by decide)]
      | cons last r => rw [addComponent_dots_cons, if_pos (hall last (mem_cons_self ..))]
    · exact addComponent_of_solid hc h

theorem isNormal_mem (h : IsNormal absolute acc) : ∀ c ∈ acc, isSolid c := by
  induction acc with
  | nil => simp
  | cons c r ih => exact forall_mem_cons.2 ⟨h.1, ih h.2.2⟩

theorem foldl_addComponent_sublist (absolute : Bool) (cs acc : List String) :
    (cs.foldl (addComponent absolute) acc).reverse.Sublist (acc.reverse ++ cs) := by
  induction cs generalizing acc with
  | nil => simp
  | cons c cs ih =>
    refine (ih _).trans ?_
    have hsub : (addComponent absolute acc c).reverse.Sublist (acc.reverse ++ [c]) := by
      cases hc : isSolid c with
      | false =>
        rw [addComponent_of_not_solid hc]
        exact sublist_append_left ..
      | true =>
        by_cases hdots : c = ".."
        · subst hdots
          cases acc with
          | nil => cases absolute <;> simp [addComponent_dots_nil]
          | cons last r =>
            rw [addComponent_dots_cons]
            split_ifs with hlast
            · simp
            · rw [reverse_cons, append_assoc]
              exact sublist_append_left ..
        · simp [addComponent_of_solid hc hdots]
    have := hsub.append (Sublist.refl cs)
    rwa [append_assoc] at this

theorem normalComponents_sublist (p : String) : (normalComponents p).Sublist (components p) := by
  simpa [normalComponents] using foldl_addComponent_sublist (isAbsolute p) (components p) []

theorem isSolid_of_mem_normalComponents (h : c ∈ normalComponents p) : isSolid c :=
  isNormal_mem (isNormal_foldl (components p) isNormal_nil) c (mem_reverse.1 h)

theorem slashless_of_mem_normalComponents (h : c ∈ normalComponents p) : Slashless c :=
  slashless_of_mem_components ((normalComponents_sublist p).subset h)

/-! ## Normal forms -/

theorem startsWith_eq (s u : String) : s.startsWith u = u.toList.isPrefixOf s.toList := by
  rw [Bool.eq_iff_iff, String.startsWith_string_iff, isPrefixOf_iff_prefix]

/-- Components behind the slashes that a path starts with; a dot if there is nothing. -/
def rooted (s : String) (cs : List String) : String :=
  if (s ++ "/".intercalate cs).isEmpty then "." else s ++ "/".intercalate cs

theorem mem_intercalate {c : Char} :
    c ∈ ("/".intercalate cs).toList ↔ (∃ d ∈ cs, c ∈ d.toList) ∨ (1 < cs.length ∧ c = '/') := by
  induction cs with
  | nil => simp
  | cons d cs ih =>
    cases cs with
    | nil => simp
    | cons e cs =>
      rw [String.intercalate_cons_cons, String.toList_append, String.toList_append]
      grind

theorem exists_char (hne : cs ≠ []) (hcs : ∀ c ∈ cs, isSolid c ∧ Slashless c) :
    ∃ c ∈ cs, ∃ d ∈ c.toList, d ≠ '/' := by
  obtain ⟨c, hc⟩ := exists_mem_of_ne_nil cs hne
  obtain ⟨hsolid, hslash⟩ := hcs c hc
  obtain ⟨d, hd⟩ := exists_mem_of_ne_nil _ (toList_ne_nil hsolid)
  exact ⟨c, hc, d, hd, fun h => hslash (h ▸ hd)⟩

theorem rooted_eq (hne : cs ≠ []) (hcs : ∀ c ∈ cs, isSolid c ∧ Slashless c) :
    rooted s cs = s ++ "/".intercalate cs := by
  obtain ⟨c, hc, d, hd, -⟩ := exists_char hne hcs
  refine if_neg fun he => ?_
  rw [String.isEmpty_iff, ← String.toList_eq_nil_iff, String.toList_append, append_eq_nil_iff] at he
  exact absurd (mem_intercalate.2 (.inl ⟨c, hc, hd⟩)) (by rw [he.2]; exact not_mem_nil)

theorem intercalate_head (hcs : ∀ c ∈ cs, isSolid c ∧ Slashless c) :
    ("/".intercalate cs).toList.head? ≠ some '/' := by
  cases cs with
  | nil => simp
  | cons c cs =>
    obtain ⟨hsolid, hslash⟩ := hcs c mem_cons_self
    obtain ⟨d, r, hd⟩ := exists_cons_of_ne_nil (toList_ne_nil hsolid)
    have hhead : ("/".intercalate (c :: cs)).toList.head? = some d := by
      rw [String.toList_intercalate, map_cons, hd]
      cases cs with
      | nil => simp
      | cons c' cs => simp
    rw [hhead]
    intro h
    rw [Slashless, hd, Option.some.inj h] at hslash
    exact hslash (mem_cons_self ..)

theorem root_cases (p : String) :
    (root p = "" ∧ isAbsolute p = false) ∨ (root p = "/" ∧ isAbsolute p) ∨
      (root p = "//" ∧ isAbsolute p) := by
  have h2 : p.startsWith "//" → p.startsWith "/" := by
    simp only [String.startsWith_string_iff]
    exact fun h => (show "/".toList <+: "//".toList by decide).trans h
  unfold root isAbsolute
  cases h : p.startsWith "/" with
  | false =>
    have : p.startsWith "//" = false := by
      by_contra hn
      rw [h2 (by simpa using hn)] at h
      cases h
    simp [this]
  | true =>
    cases p.startsWith "//" with
    | false => simp
    | true => cases p.startsWith "///" <;> simp

theorem root_append {x : String} (hs : s = "" ∨ s = "/" ∨ s = "//")
    (hx : x.toList.head? ≠ some '/') :
    root (s ++ x) = s := by
  have hslash : ∀ u : List Char, ('/' :: u).isPrefixOf x.toList = false := by
    intro u
    cases hl : x.toList with
    | nil => rfl
    | cons c r =>
      have : ('/' == c) = false := by
        rw [beq_eq_false_iff_ne]
        rintro rfl
        simp [hl] at hx
      rw [isPrefixOf, this, Bool.false_and]
  unfold root
  simp only [startsWith_eq]
  rcases hs with rfl | rfl | rfl
  · simp [hslash]
  · simp [hslash]
  · simp [hslash]

theorem root_rooted (hs : s = "" ∨ s = "/" ∨ s = "//")
    (hcs : ∀ c ∈ cs, isSolid c ∧ Slashless c) : root (rooted s cs) = s := by
  unfold rooted
  split_ifs with h
  · obtain rfl : s = "" := by
      rw [String.isEmpty_iff, ← String.toList_inj, String.toList_append] at h
      rw [← String.toList_inj]
      exact (append_eq_nil_iff.1 h).1
    exact root_append (s := "") (x := ".") (.inl rfl) (by decide)
  · exact root_append hs (intercalate_head hcs)

theorem components_slashes {x : String} (hs : s = "" ∨ s = "/" ∨ s = "//") :
    ∃ u, (∀ c ∈ u, isSolid c = false) ∧ components (s ++ x) = u ++ components x := by
  rcases hs with rfl | rfl | rfl
  · exact ⟨[], by simp, by rw [String.empty_append, nil_append]⟩
  · exact ⟨[""], by decide, components_slash x⟩
  · refine ⟨["", ""], by decide, ?_⟩
    rw [show ("//" : String) ++ x = "/" ++ ("/" ++ x) by rfl, components_slash,
      components_slash]
    rfl

/-- A path that is put together from components is read back as them, perhaps behind some that do
not move. -/
theorem components_rooted (hs : s = "" ∨ s = "/" ∨ s = "//")
    (hcs : ∀ c ∈ cs, isSolid c ∧ Slashless c) :
    ∃ u, (∀ c ∈ u, isSolid c = false) ∧ components (rooted s cs) = u ++ cs := by
  obtain ⟨u, hu, hslashes⟩ := components_slashes (x := "/".intercalate cs) hs
  cases cs with
  | nil =>
    unfold rooted
    split_ifs
    · exact ⟨["."], by decide, by decide⟩
    · refine ⟨u ++ [""], ?_, ?_⟩
      · rw [forall_mem_append]
        exact ⟨hu, by decide⟩
      · rw [hslashes, append_nil]
        congr 1
  | cons c cs =>
    have hne := cons_ne_nil c cs
    rw [rooted_eq hne hcs, hslashes, components_intercalate hne fun d hd => (hcs d hd).2]
    exact ⟨u, hu, rfl⟩

theorem filter_components_rooted (hs : s = "" ∨ s = "/" ∨ s = "//")
    (hcs : ∀ c ∈ cs, isSolid c ∧ Slashless c) : (components (rooted s cs)).filter isSolid = cs := by
  obtain ⟨u, hu, h⟩ := components_rooted hs hcs
  rw [h, filter_append, filter_eq_nil_iff.2 fun c hc => by simp [hu c hc]]
  exact filter_eq_self.2 fun c hc => (hcs c hc).1

theorem root_spelling (p : String) : root p = "" ∨ root p = "/" ∨ root p = "//" := by
  rcases root_cases p with ⟨h, -⟩ | ⟨h, -⟩ | ⟨h, -⟩
  · exact .inl h
  · exact .inr (.inl h)
  · exact .inr (.inr h)

theorem normalize_eq (p : String) : normalize p = rooted (root p) (normalComponents p) := rfl

theorem mem_normalComponents (h : c ∈ normalComponents p) : isSolid c ∧ Slashless c :=
  ⟨isSolid_of_mem_normalComponents h, slashless_of_mem_normalComponents h⟩

theorem root_normalize (p : String) : root (normalize p) = root p :=
  root_rooted (root_spelling p) fun _ => mem_normalComponents

theorem isAbsolute_eq_of_root {q : String} (h : root p = root q) : isAbsolute p = isAbsolute q := by
  rcases root_cases p with ⟨hp, hp'⟩ | ⟨hp, hp'⟩ | ⟨hp, hp'⟩ <;>
    rcases root_cases q with ⟨hq, hq'⟩ | ⟨hq, hq'⟩ | ⟨hq, hq'⟩ <;> simp_all

theorem isAbsolute_normalize (p : String) : isAbsolute (normalize p) = isAbsolute p :=
  isAbsolute_eq_of_root (root_normalize p)

theorem components_normalize (p : String) :
    ∃ u, (∀ c ∈ u, isSolid c = false) ∧ components (normalize p) = u ++ normalComponents p :=
  components_rooted (root_spelling p) fun _ => mem_normalComponents

theorem filter_components_normalize (p : String) :
    (components (normalize p)).filter isSolid = normalComponents p :=
  filter_components_rooted (root_spelling p) fun _ => mem_normalComponents

theorem normalComponents_normalize (p : String) :
    normalComponents (normalize p) = normalComponents p := by
  have h : IsNormal (isAbsolute p) ((components p).foldl (addComponent (isAbsolute p)) []) :=
    isNormal_foldl (components p) isNormal_nil
  rw [normalComponents, ← foldl_addComponent_filter, filter_components_normalize,
    isAbsolute_normalize]
  rw [normalComponents, foldl_addComponent_normal h]

theorem normalize_normalize (p : String) : normalize (normalize p) = normalize p := by
  rw [normalize_eq (normalize p), root_normalize, normalComponents_normalize]
  rfl

theorem tidy_eq (p : String) : tidy p = rooted (root p) ((components p).filter isSolid) := rfl

theorem tidy_normalize (p : String) : tidy (normalize p) = normalize p := by
  rw [tidy_eq, root_normalize, filter_components_normalize]
  rfl

theorem tidy_tidy (p : String) : tidy (tidy p) = tidy p := by
  have hcs : ∀ c ∈ (components p).filter isSolid, isSolid c ∧ Slashless c := fun c hc =>
    ⟨(mem_filter.1 hc).2, slashless_of_mem_components (mem_filter.1 hc).1⟩
  rw [tidy_eq (tidy p), tidy_eq p, root_rooted (root_spelling p) hcs,
    filter_components_rooted (root_spelling p) hcs]

/-! ## Characters and length -/

theorem exists_root_append (p : String) : ∃ q, p = root p ++ q := by
  have hpre : (root p).toList <+: p.toList := by
    unfold root
    split_ifs with h1 h2
    · simp only [Bool.and_eq_true, startsWith_eq, isPrefixOf_iff_prefix] at h1
      exact h1.1
    · rwa [startsWith_eq, isPrefixOf_iff_prefix] at h2
    · exact nil_prefix
  obtain ⟨u, hu⟩ := hpre
  exact ⟨String.ofList u, by
    rw [← String.toList_inj, String.toList_append, String.toList_ofList, hu]⟩

theorem normalComponents_sublist_of_root {q : String} (h : p = root p ++ q) :
    (normalComponents p).Sublist (components q) := by
  have hsub : (normalComponents p).Sublist ((components p).filter isSolid) := by
    have := foldl_addComponent_sublist (isAbsolute p) ((components p).filter isSolid) []
    rwa [foldl_addComponent_filter, reverse_nil, nil_append] at this
  have hfilter : (components p).filter isSolid = (components q).filter isSolid := by
    obtain ⟨u, hu, hc⟩ := components_slashes (x := q) (root_spelling p)
    rw [← h] at hc
    rw [hc, filter_append, filter_eq_nil_iff.2 fun c hc => by simp [hu c hc], nil_append]
  exact (hfilter ▸ hsub).trans filter_sublist

theorem mem_toList_normalize {c : Char} (h : c ∈ (normalize p).toList) :
    c ∈ p.toList ∨ c = '/' ∨ c = '.' := by
  have hbody : c ∈ ("/".intercalate (normalComponents p)).toList → c ∈ p.toList ∨ c = '/' := by
    intro hc
    rcases mem_intercalate.1 hc with ⟨d, hd, hcd⟩ | ⟨-, h⟩
    · left
      rw [← intercalate_components p]
      exact mem_intercalate.2 (.inl ⟨d, (normalComponents_sublist p).subset hd, hcd⟩)
    · exact .inr h
  rw [normalize_eq, rooted] at h
  split_ifs at h
  · exact .inr (.inr (by simpa using h))
  · rw [String.toList_append, mem_append] at h
    rcases h with h | h
    · rcases root_cases p with ⟨hr, -⟩ | ⟨hr, -⟩ | ⟨hr, -⟩ <;> rw [hr] at h <;> simp_all
    · rcases hbody h with h | h
      · exact .inl h
      · exact .inr (.inl h)

/-- The bytes of components and of a slash behind each. -/
def weight (cs : List String) : Nat := (cs.map fun c => c.utf8ByteSize + 1).sum

theorem utf8ByteSize_intercalate (h : cs ≠ []) :
    ("/".intercalate cs).utf8ByteSize + 1 = weight cs := by
  induction cs with
  | nil => exact absurd rfl h
  | cons c cs ih =>
    cases cs with
    | nil => simp [weight]
    | cons d cs =>
      have := ih (by simp)
      rw [String.intercalate_cons_cons, String.utf8ByteSize_append, String.utf8ByteSize_append]
      simp only [weight, map_cons, sum_cons] at this ⊢
      have h1 : "/".utf8ByteSize = 1 := by decide
      omega

theorem weight_le_of_sublist {ds : List String} (h : cs.Sublist ds) : weight cs ≤ weight ds :=
  (h.map _).sum_le_sum fun _ _ => Nat.zero_le _

theorem utf8ByteSize_normalize_le (h : p ≠ "") : (normalize p).utf8ByteSize ≤ p.utf8ByteSize := by
  obtain ⟨q, hq⟩ := exists_root_append p
  have hp : p.utf8ByteSize = (root p).utf8ByteSize + q.utf8ByteSize := by
    conv_lhs => rw [hq, String.utf8ByteSize_append]
  have hpos : p.utf8ByteSize ≠ 0 := by rwa [ne_eq, String.utf8ByteSize_eq_zero_iff]
  rw [normalize_eq, rooted]
  split_ifs
  · have : ".".utf8ByteSize = 1 := by decide
    omega
  · rw [String.utf8ByteSize_append]
    by_cases hne : normalComponents p = []
    · have : ("/".intercalate (normalComponents p)).utf8ByteSize = 0 := by rw [hne]; rfl
      omega
    · have h1 := utf8ByteSize_intercalate hne
      have h2 := utf8ByteSize_intercalate (components_ne_nil q)
      have h3 := weight_le_of_sublist (normalComponents_sublist_of_root hq)
      rw [intercalate_components] at h2
      omega

/-! ## Plain names -/

/-- A name that stands for itself in paths. -/
structure IsPlain (c : String) : Prop where
  slashless : Slashless c
  solid : isSolid c
  notDots : c ≠ ".."

theorem IsPlain.components (h : IsPlain c) : components c = [c] := by
  have := components_intercalate (cons_ne_nil c []) (by simpa using h.slashless)
  rwa [String.intercalate_singleton] at this

theorem IsPlain.root (h : IsPlain c) : root c = "" := by
  have hhead : c.toList.head? ≠ some '/' := fun hc => h.slashless (mem_of_head? hc)
  have := root_append (.inl rfl) hhead
  rwa [String.empty_append] at this

theorem IsPlain.isAbsolute (h : IsPlain c) : isAbsolute c = false := by
  rw [isAbsolute_eq_of_root (h.root.trans (by decide : Path.root "" = "").symm)]
  decide

theorem IsPlain.normalize (h : IsPlain c) : normalize c = c := by
  have hne : c.isEmpty = false := by
    have := h.solid
    simp_all [isSolid]
  rw [normalize_eq, h.root, rooted, normalComponents, h.components, foldl_cons, foldl_nil,
    addComponent_of_solid h.solid h.notDots, reverse_singleton, String.intercalate_singleton,
    String.empty_append, hne, if_neg Bool.false_ne_true]

end CallAtlas.Path
