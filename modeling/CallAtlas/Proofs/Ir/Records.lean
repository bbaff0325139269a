import CallAtlas.Proofs.Ir.Attachments
import CallAtlas.Proofs.Table

/-!
# Records under changes of references

A metadata record is its kind, `kindHead?`, and between parentheses its fields. A change of
references goes into the record field by field: the kind stays but for a number in its place,
`recordHead?_mapReferences`, and a field that is looked up by its name has the changed value,
`get?_fields_mapReferences`. What a field says then is the same, with the node that it refers to
moved: `refValue_likewise` for references, `Moved.readInt?_eq` for numbers.
-/

namespace CallAtlas.Ir

open Text List Option

variable {body r rest s tail u v : List Char} {key : String} {n : MetadataNode}

/-! ## Pieces of steady texts -/

namespace Steady

variable {P : Nat → Prop}

/-- A steady text can be cut before a break outside quotes. -/
theorem split (h : Steady P (u ++ v)) (hu : Ir.terminated false u) (hv : breaks v) :
    Steady P u ∧ Steady P v := by
  generalize hs : u ++ v = s at h
  induction h generalizing u with
  | nil =>
    obtain ⟨rfl, rfl⟩ := append_eq_nil_iff.1 hs
    exact ⟨.nil, .nil⟩
  | @char c s hq hb h ih =>
    cases u with
    | nil =>
      rw [nil_append] at hs
      exact ⟨.nil, hs ▸ .char hq hb h⟩
    | cons d u =>
      obtain ⟨rfl, rfl⟩ := cons.inj hs
      rw [terminated_cons hq] at hu
      obtain ⟨h1, h2⟩ := ih hu rfl
      refine ⟨.char hq (fun hd => ?_) h1, h2⟩
      cases u with
      | nil => rfl
      | cons e u => exact hb hd
  | @literal b s hb hd h ih =>
    cases u with
    | nil =>
      rw [nil_append] at hs
      exact ⟨.nil, hs ▸ .literal hb hd h⟩
    | cons d u =>
      obtain ⟨rfl, htl⟩ := cons.inj hs
      obtain ⟨b', r, hb', rfl, hr⟩ := terminated_quote.1 hu
      have htl' : b' ++ '"' :: (r ++ v) = b ++ '"' :: s := by simpa using htl
      obtain ⟨rfl, rfl⟩ := hb'.unique hb htl'
      obtain ⟨h1, h2⟩ := ih hr rfl
      exact ⟨.literal hb' hd h1, h2⟩
  | @number ds s hne hds hw hP h ih =>
    cases u with
    | nil =>
      rw [nil_append] at hs
      exact ⟨.nil, hs ▸ .number hne hds hw hP h⟩
    | cons d u =>
      obtain ⟨rfl, htl⟩ := cons.inj hs
      rw [terminated_cons (by decide)] at hu
      have ht : Token ds := .bare fun c hc => isBare_of_isDecimal (hds c hc)
      obtain ⟨r, rfl, rfl⟩ := ht.split htl.symm hu (delimited_of_breaks hv)
      rw [ht.terminated] at hu
      obtain ⟨h1, h2⟩ := ih hu rfl
      exact ⟨.number hne hds ((akin_append hv r).continuesWord_eq.symm.trans hw) hP h1, h2⟩

theorem drop (h : Steady P (u ++ v)) (hu : ∀ c ∈ u, c ≠ '"' ∧ isSigil c = false) : Steady P v := by
  induction u with
  | nil => exact h
  | cons c u ih =>
    obtain ⟨hq, hc⟩ := hu c mem_cons_self
    have hb : c ≠ '!' := by
      rintro rfl
      cases hc
    exact ih (h.tail hq hb) fun d hd => hu d (mem_cons_of_mem _ hd)

theorem trim (h : Steady P s) : Steady P (Text.trim s) := by
  obtain ⟨b, b', hs, hb, hb'⟩ := exists_trim s
  have hterm := terminated_trim h.terminated
  rw [hs] at h
  exact ((h.drop fun c hc => isBlank_plain (hb c hc)).split hterm (breaks_blanks hb')).1

theorem fields (h : Steady P s) : ∀ f ∈ Ir.fields s, Steady P f := by
  refine forall_fields (fun h => h.trim) (fun hu h => ?_) h
  obtain ⟨h1, h2⟩ := h.split (hu.terminated h.terminated) (by rfl)
  exact ⟨h1, h2.tail (by decide) (by decide)⟩

end Steady

/-! ## Heads of records -/

theorem isWord_plain {c : Char} (h : isWord c) : c ≠ '"' ∧ isSigil c = false :=
  plain_of_class (by decide) h

/-- The text behind the word that marks a node as unlike others. -/
def undistinct (s : List Char) : List Char :=
  match dropHead? "distinct".toList s with
  | some (c :: r) => if isBlank c then trimLeft (c :: r) else s
  | _ => s

/-- The kind behind an exclamation mark, and the text behind the opening parenthesis. -/
def kindHead? (s : List Char) : Option (List Char × List Char) :=
  match s with
  | '!' :: r =>
    match run? isWord r with
    | some (kind, '(' :: rest) => some (kind, rest)
    | _ => none
  | _ => none

theorem recordHead?_eq (s : List Char) : recordHead? s = kindHead? (undistinct s) := rfl

theorem kindHead?_eq_some {kind : List Char} :
    kindHead? s = some (kind, rest) ↔ s = '!' :: kind ++ '(' :: rest ∧ kind ≠ [] ∧
    ∀ c ∈ kind, isWord c := by
  unfold kindHead?
  constructor
  · intro h
    split at h
    · next r =>
      split at h
      · next k rest' hr =>
        obtain ⟨rfl, rfl⟩ := Prod.mk.inj (some.inj h)
        obtain ⟨hne, hk, -⟩ := run?_eq_some hr
        exact ⟨by rw [(run?_split hr).1]; rfl, hne, hk⟩
      · cases h
    · cases h
  · rintro ⟨rfl, hne, hk⟩
    have hr : run? isWord (kind ++ '(' :: rest) = some (kind, '(' :: rest) :=
      run?_append hne hk (by rfl)
    simp [hr]

section change

variable {α : Type} {R : Reader α} {p : Char → Bool} {f : α → List Char → List Char}
  {P : Nat → Prop} {Q : Nat → Nat → Prop}

theorem distinct_plain : ∀ c ∈ "distinct".toList, c ≠ '"' ∧ isSigil c = false := by
  have hw : "distinct".toList.all isWord := by decide +kernel
  exact fun c hc => isWord_plain (all_eq_true.1 hw c hc)

theorem undistinct_mapReferences (hf : Replaces R p f) (hs : terminated false s) :
    undistinct (mapReferences R f s) = mapReferences R f (undistinct s) := by
  have hplain : ∀ c ∈ "distinct".toList, c ≠ '"' ∧ (isSigil c → p c = false) :=
    plain_apart distinct_plain
  have he := mapReferences_edit hf hs
  unfold undistinct
  cases hd : dropHead? "distinct".toList s with
  | none =>
    have hd' : dropHead? "distinct".toList (mapReferences R f s) = none := by
      cases hd' : dropHead? "distinct".toList (mapReferences R f s) with
      | none => rfl
      | some r =>
        rw [dropHead?_eq_some hd'] at he
        obtain ⟨t, rfl, -⟩ := he.symm.run_inv hplain
        cases hd
    rw [hd']
  | some r =>
    obtain rfl := dropHead?_eq_some hd
    rw [terminated_append (by rfl)] at hs
    have hm := mapReferences_plain_append hf hplain r
    have hh := (mapReferences_edit hf hs).head?_eq
    rw [hm, dropHead?_append]
    cases r with
    | nil =>
      rw [mapReferences_nil] at hm ⊢
      exact hm.symm
    | cons c r =>
      obtain ⟨t, ht⟩ := head?_eq_some_iff.1 hh
      rw [ht]
      cases hc : isBlank c with
      | true => simp only [hc, if_true, ← ht, mapReferences_trimLeft hf hs]
      | false => simp only [hc, Bool.false_eq_true, if_false, hm, ht]

theorem Steady.undistinct (hs : Steady P s) : Steady P (undistinct s) := by
  unfold Ir.undistinct
  split
  · next c r hd =>
    split_ifs
    · rw [dropHead?_eq_some hd, ← takeWhile_append_dropWhile (l := c :: r), ← append_assoc] at hs
      exact hs.drop (forall_mem_append.2 ⟨distinct_plain,
        fun d hd => isBlank_plain (mem_takeWhile_imp hd)⟩)
    · exact hs
  · exact hs

theorem Steady.recordHead? {kind : List Char} (hs : Steady P s)
    (h : recordHead? s = some (kind, rest)) :
    Steady P rest := by
  obtain ⟨he, -, hk⟩ := kindHead?_eq_some.1 (recordHead?_eq s ▸ h)
  have hu := hs.undistinct
  rw [he] at hu
  have ht : Ir.terminated false ('!' :: kind) := by
    rw [terminated_cons (by decide)]
    exact terminated_plain fun c hc => (isWord_plain (hk c hc)).1
  exact (hu.split ht (by rfl)).2.tail (by decide) (by decide)

/-- The kinds of a record before and after a change: the same word, or numbers both. -/
def SameKind (kind kind' : List Char) : Prop :=
  kind' = kind ∨ kind.head?.any isDecimal ∧ kind'.head?.any isDecimal

theorem any_head?_isDecimal {ds : List Char} (hne : ds ≠ []) (hds : ∀ c ∈ ds, isDecimal c) :
    ds.head?.any isDecimal := by
  cases ds with
  | nil => exact absurd rfl hne
  | cons d ds => exact hds d mem_cons_self

/-- A number behind an exclamation mark is a whole word, so a kind that starts with a digit is
one. -/
theorem Steady.kind {kind : List Char} (hs : Steady P ('!' :: kind ++ rest))
    (hk : ∀ c ∈ kind, isWord c)
    (hr : rest.head?.any isWord = false) :
    kind.head?.any isDecimal = false ∨ ∀ c ∈ kind, isDecimal c := by
  rw [cons_append] at hs
  generalize he : '!' :: (kind ++ rest) = s at hs
  cases hs with
  | nil => cases he
  | literal => cases he
  | @char c s _ hb _ =>
    obtain ⟨rfl, rfl⟩ := cons.inj he
    refine .inl ?_
    cases kind with
    | nil => rfl
    | cons c kind => exact hb rfl
  | @number ds s _ hds hw _ _ =>
    have h1 := run_append hk hr
    have h2 := run_append (fun c hc => isDecimal_isWord (hds c hc)) (r := s) (by
      cases s with
      | nil => rfl
      | cons c s => exact hw)
    obtain rfl : kind = ds := h1.1.symm.trans ((congrArg _ (cons.inj he).2).trans h2.1)
    exact .inr hds

theorem head?_isDecimal_append {kind : List Char} (h : kind.head?.any isDecimal = false)
    (rest : List Char) :
    (kind ++ '(' :: rest).head?.any isDecimal = false := by
  cases kind with
  | nil => rfl
  | cons c kind => exact h

theorem kindHead?_mapReferences (hm : Mover R p f Q) {kind : List Char} (hs : Steady P s)
    (h : kindHead? s = some (kind, rest)) :
      ∃ kind', kindHead? (mapReferences R f s) = some (kind', mapReferences R f rest) ∧
      SameKind kind kind' := by
  obtain ⟨rfl, hne, hk⟩ := kindHead?_eq_some.1 h
  have hplain {u : List Char} (hu : ∀ c ∈ u, c ≠ '"' ∧ isSigil c = false) (t : List Char) :
      mapReferences R f (u ++ t) = u ++ mapReferences R f t :=
    mapReferences_plain_append hm.replaces (plain_apart hu) t
  have hrest : mapReferences R f ('(' :: rest) = '(' :: mapReferences R f rest :=
    hplain (u := ['(']) (by simp; decide) rest
  rcases hs.kind hk (by rfl) with hd | hds
  · refine ⟨kind, kindHead?_eq_some.2 ⟨?_, hne, hk⟩, .inl rfl⟩
    rw [cons_append, mapReferences_cons R f (by decide) (hm.bang (head?_isDecimal_append hd rest)),
      hplain fun c hc => isWord_plain (hk c hc), hrest]
    rfl
  · obtain ⟨ds', hne', hds', -, hmap⟩ := hm.number hne hds (s := '(' :: rest) rfl
    refine ⟨ds', kindHead?_eq_some.2 ⟨by rw [hmap, hrest], hne',
      fun c hc => isDecimal_isWord (hds' c hc)⟩,
      .inr ⟨any_head?_isDecimal hne hds, any_head?_isDecimal hne' hds'⟩⟩

theorem Moved.kindHead? {s' : List Char} (h : Moved Q s s') (hk : (kindHead? s).isSome) :
    (Ir.kindHead? s').isSome := by
  obtain ⟨⟨kind, rest⟩, hk⟩ := isSome_iff_exists.1 hk
  obtain ⟨rfl, hne, hk⟩ := kindHead?_eq_some.1 hk
  rcases h.steady.kind hk (by rfl) with hd | hds
  · obtain ⟨t, rfl, h1⟩ := h.bang_inv (head?_isDecimal_append hd rest)
    obtain ⟨t, rfl, h2⟩ := h1.run_inv fun c hc => isWord_plain (hk c hc)
    obtain ⟨t, rfl, -⟩ := h2.cons_inv (by decide) (by decide)
    rw [← cons_append, kindHead?_eq_some.2 ⟨rfl, hne, hk⟩]
    rfl
  · obtain ⟨ds', r', rfl, hne', hds', -, -, h⟩ := h.number_inv hne hds rfl
    obtain ⟨t, rfl, -⟩ := h.cons_inv (by decide) (by decide)
    rw [kindHead?_eq_some.2 ⟨rfl, hne', fun c hc => isDecimal_isWord (hds' c hc)⟩]
    rfl

theorem recordHead?_mapReferences (hm : Mover R p f Q) (hs : Steady P s) :
    (recordHead? s = none ∧ recordHead? (mapReferences R f s) = none) ∨
      ∃ kind kind' rest, recordHead? s = some (kind, rest) ∧
        recordHead? (mapReferences R f s) = some (kind', mapReferences R f rest) ∧
        SameKind kind kind' := by
  rw [recordHead?_eq, recordHead?_eq, undistinct_mapReferences hm.replaces hs.terminated]
  have hu := hs.undistinct
  cases h : kindHead? (undistinct s) with
  | some v =>
    obtain ⟨kind, rest⟩ := v
    obtain ⟨kind', hk, hsame⟩ := kindHead?_mapReferences hm hu h
    exact .inr ⟨kind, kind', rest, rfl, hk, hsame⟩
  | none =>
    refine .inl ⟨rfl, ?_⟩
    cases h' : kindHead? (mapReferences R f (undistinct s)) with
    | none => rfl
    | some v =>
      have hback := (hm.moved hu).symm.kindHead? (by rw [h']; rfl)
      rw [h] at hback
      cases hback

end change

/-! ## Bodies of records -/

/-- Whether the text behind the opening parenthesis of a record has a closing one, and neither a
quote nor a sigil behind the last one. -/
def Closes (rest : List Char) : Prop :=
  ')' ∈ rest ∧ ∀ c ∈ rest.reverse.takeWhile (· ≠ ')'), c ≠ '"' ∧ isSigil c = false

instance (rest : List Char) : Decidable (Closes rest) :=
  decidable_of_iff ((rest.contains ')' &&
      (rest.reverse.takeWhile (· ≠ ')')).all fun c => c ≠ '"' &&
      !isSigil c) = true) (by simp [Closes])

theorem beforeLastParen_append (body : List Char) (ht : ')' ∉ tail) :
    beforeLastParen (body ++ ')' :: tail) = body := by
  have h := run_append (r := ')' :: body.reverse)
    (fun c hc => decide_eq_true (ne_of_mem_of_not_mem (mem_reverse.1 hc) ht)) (by rfl)
  unfold beforeLastParen
  rw [reverse_append, reverse_cons, append_assoc, singleton_append, h.2]
  exact reverse_reverse body

theorem closes_append (ht : ∀ c ∈ tail, c ≠ ')' ∧ c ≠ '"' ∧ isSigil c = false) :
    Closes (body ++ ')' :: tail) := by
  refine ⟨by simp, ?_⟩
  have h := run_append (p := (· ≠ ')')) (r := ')' :: body.reverse)
    (fun c hc => by simpa using (ht c (mem_reverse.1 hc)).1) (by rfl)
  rw [reverse_append, reverse_cons, append_assoc, singleton_append, h.1]
  exact fun c hc => (ht c (mem_reverse.1 hc)).2

theorem Closes.split (h : Closes rest) :
    ∃ body tail, rest = body ++ ')' :: tail ∧ ∀ c ∈ tail, c ≠ ')' ∧ c ≠ '"' ∧
    isSigil c = false := by
  obtain ⟨hm, hp⟩ := h
  cases hd : rest.reverse.dropWhile (· ≠ ')') with
  | nil =>
    have hsplit := takeWhile_append_dropWhile (p := (· ≠ ')')) (l := rest.reverse)
    rw [hd, append_nil] at hsplit
    rw [← mem_reverse, ← hsplit] at hm
    have := mem_takeWhile_imp hm
    simp at this
  | cons c r =>
    obtain ⟨-, hs, hn⟩ := dropWhile_eq_cons hd
    refine ⟨r.reverse, (rest.reverse.takeWhile (· ≠ ')')).reverse, ?_, fun d hd => ?_⟩
    · have h := congrArg reverse hs
      rwa [reverse_reverse, reverse_append, reverse_cons, append_assoc] at h
    · rw [mem_reverse] at hd
      exact ⟨ne_of_mem_of_not_mem hd hn, hp d hd⟩

/-! ## Named fields -/

theorem keyValue?_eq_some {item key value : List Char} :
    keyValue? item = some (key, value) ↔ ∃ u v, item = u ++ ':' :: v ∧ ':' ∉ u ∧ trim u = key ∧
    trim v = value := by
  unfold keyValue?
  constructor
  · intro h
    split at h
    · next c v hd =>
      obtain ⟨rfl, rfl⟩ := Prod.mk.inj (some.inj h)
      obtain ⟨-, hs, hn⟩ := dropWhile_eq_cons hd
      exact ⟨item.takeWhile (· ≠ ':'), v, hs, hn, rfl, rfl⟩
    · cases h
  · rintro ⟨u, v, rfl, hu, rfl, rfl⟩
    have h := run_append (r := ':' :: v)
      (fun c hc => decide_eq_true (ne_of_mem_of_not_mem hc hu)) (by rfl)
    rw [h.1, h.2]

theorem plain_of_trim (hk : ∀ c ∈ trim u, isWord c) :
    ∀ c ∈ u ++ [':'], c ≠ '"' ∧ isSigil c = false := by
  intro c hc
  rcases mem_append.1 hc with hc | hc
  · rcases mem_trim_or_isBlank hc with hc | hc
    · exact isWord_plain (hk c hc)
    · exact isBlank_plain hc
  · rw [mem_singleton.1 hc]
    decide

section change

variable {α : Type} {R : Reader α} {p : Char → Bool} {f : α → List Char → List Char}
  {P : Nat → Prop}

theorem keyValue?_mapReferences (hR : Sighted R) (hf : Replaces R p f) {item key value : List Char}
    (hs : terminated false item) (hk : ∀ c ∈ key, isWord c) :
    keyValue? (mapReferences R f item) = some (key, value) ↔
      ∃ v, keyValue? item = some (key, v) ∧ mapReferences R f v = value := by
  have hp {u} (hu : trim u = key) : ∀ c ∈ u ++ [':'], c ≠ '"' ∧ (isSigil c → p c = false) :=
    plain_apart (plain_of_trim (hu ▸ hk))
  -- a field with the key is changed behind the colon only
  have hmap : ∀ {u v}, item = u ++ ':' :: v → ':' ∉ u → trim u = key →
      keyValue? (mapReferences R f item) = some (key, mapReferences R f (trim v)) := by
    rintro u v rfl hu hkey
    have hm := mapReferences_plain_append hf (hp hkey) v
    rw [append_assoc, append_assoc] at hm
    have ht : terminated false v := by
      rw [← singleton_append, ← append_assoc, terminated_append] at hs
      · exact hs
      · exact terminated_plain fun c hc => (hp hkey c hc).1
    exact keyValue?_eq_some.2 ⟨u, mapReferences R f v, hm, hu, hkey,
      (mapReferences_trim hR hf ht).symm⟩
  constructor
  · intro h
    obtain ⟨u, v', hs', hu, hkey, -⟩ := keyValue?_eq_some.1 h
    have he := (mapReferences_edit hf hs).symm
    rw [hs', ← singleton_append, ← append_assoc] at he
    obtain ⟨v, hv, -⟩ := he.run_inv (hp hkey)
    rw [append_assoc] at hv
    rw [hmap hv hu hkey] at h
    exact ⟨trim v, keyValue?_eq_some.2 ⟨u, v, hv, hu, hkey, rfl⟩, (Prod.mk.inj (some.inj h)).2⟩
  · rintro ⟨v, hv, rfl⟩
    obtain ⟨u, v, hs', hu, hkey, rfl⟩ := keyValue?_eq_some.1 hv
    exact hmap hs' hu hkey

theorem get?_fields {kind : List Char} (key : String)
    (h : recordHead? n.text.toList = some (kind, body ++ ')' :: tail)) (ht : ')' ∉ tail) :
    n.fields.get? key = Table.find key ((fields body).reverse.filterMap fun item =>
      (keyValue? item).map fun p => (String.ofList p.1, String.ofList p.2)) := by
  unfold MetadataNode.fields
  rw [h]
  show (Table.ofList _).get? key = _
  rw [beforeLastParen_append body ht, Table.get?_ofList, filterMap_reverse]

theorem map_ofList_eq_some {o : Option (List Char × List Char)} {value : String} :
    (o.map fun p => (String.ofList p.1, String.ofList p.2)) = some (key, value) ↔
    o = some (key.toList, value.toList) := by
  rw [map_eq_some_iff]
  constructor
  · rintro ⟨⟨a, b⟩, rfl, he⟩
    obtain ⟨rfl, rfl⟩ := Prod.mk.inj he
    rw [String.toList_ofList, String.toList_ofList]
  · rintro rfl
    exact ⟨_, rfl, by rw [String.ofList_toList, String.ofList_toList]⟩

theorem get?_fields_mapReferences (hR : Sighted R) (hf : Replaces R p f) {n' : MetadataNode}
    {kind kind' : List Char} (h : recordHead? n.text.toList = some (kind, body ++ ')' :: tail))
    (h' : recordHead? n'.text.toList = some (kind', mapReferences R f body ++ ')' :: tail))
    (ht : ')' ∉ tail) (hb : Steady P body) (hk : ∀ c ∈ key.toList, isWord c) :
    n'.fields.get? key = (n.fields.get? key).map fun v =>
  String.ofList (mapReferences R f v.toList) := by
  rw [get?_fields key h ht, get?_fields key h' ht, fields_mapReferences hR hf hb.terminated,
    ← map_reverse, filterMap_map]
  refine Table.find_filterMap fun item hi w => ?_
  have hs := (hb.fields _ (mem_reverse.1 hi)).terminated
  rw [Function.comp, map_ofList_eq_some, keyValue?_mapReferences hR hf hs hk]
  constructor
  · rintro ⟨v, hv, hw⟩
    refine ⟨String.ofList v, map_ofList_eq_some.2 (by rw [String.toList_ofList]; exact hv), ?_⟩
    rw [String.toList_ofList, hw, String.ofList_toList]
  · rintro ⟨v, hv, rfl⟩
    exact ⟨v.toList, map_ofList_eq_some.1 hv, String.toList_ofList.symm⟩

theorem Steady.get?_fields {kind : List Char} {v : String}
    (h : Ir.recordHead? n.text.toList = some (kind, body ++ ')' :: tail)) (ht : ')' ∉ tail)
    (hb : Steady P body)
    (hk : ∀ c ∈ key.toList, isWord c) (hv : n.fields.get? key = some v) : Steady P v.toList := by
  rw [Ir.get?_fields key h ht] at hv
  obtain ⟨item, hi, hv⟩ := mem_filterMap.1 (Table.mem_of_find hv)
  obtain ⟨u, w, rfl, -, hkey, hval⟩ := keyValue?_eq_some.1 (map_ofList_eq_some.1 hv)
  have hitem := hb.fields _ (mem_reverse.1 hi)
  rw [← singleton_append, ← append_assoc] at hitem
  rw [← hval]
  exact (hitem.drop (plain_of_trim (hkey ▸ hk))).trim

end change

variable {c : Char} {ds s : List Char}

/-! ## References and numbers in fields -/

theorem dropPadding_of_isWord (h : ∀ c ∈ s, isWord c) : dropPadding s = s := by
  have hp : ∀ {t : List Char}, (∀ c ∈ t, isWord c) → t.dropWhile isPadding = t := by
    intro t ht
    cases t with
    | nil => rfl
    | cons c t =>
      have hc : isPadding c = false := by
        by_contra hp
        simp only [isPadding, Bool.not_eq_false, Bool.and_eq_true] at hp
        have hw := ht c mem_cons_self
        rw [isBlank_not_isWord hp.1] at hw
        cases hw
      rw [dropWhile_cons_of_neg (by rw [hc]; simp)]
  rw [dropPadding, hp h, hp fun c hc => h c (mem_reverse.1 hc), reverse_reverse]

theorem readInt?_of_isWord (h : ∀ d ∈ c :: s, isWord d) :
    readInt? (c :: s) = (readNat? (c :: s)).map fun n => (n : Int) := by
  have hc := h c mem_cons_self
  have h1 : c ≠ '-' := by
    rintro rfl
    revert hc
    decide
  have h2 : c ≠ '+' := by
    rintro rfl
    revert hc
    decide
  unfold readInt?
  rw [dropPadding_of_isWord h]
  simp [h1, h2]

theorem isDigitRun_of_isDecimal (hds : ∀ c ∈ ds, isDecimal c) (b : Bool) (h : b ∨ ds ≠ []) :
    isDigitRun b ds := by
  induction ds generalizing b with
  | nil => simpa [isDigitRun] using h
  | cons d ds ih =>
    have hd := hds d mem_cons_self
    have hne : d ≠ '_' := by
      rintro rfl
      revert hd
      decide
    rw [isDigitRun, if_neg hne, hd, ih (fun c hc => hds c (mem_cons_of_mem _ hc)) true (.inl rfl)]
    rfl

theorem readInt?_digits (hne : ds ≠ []) (hds : ∀ c ∈ ds, isDecimal c) :
    readInt? ds = some (digitsValue ds : Int) := by
  have hf : ds.filter (· ≠ '_') = ds := by
    refine filter_eq_self.2 fun c hc => decide_eq_true ?_
    rintro rfl
    exact absurd (hds _ hc) (by decide)
  obtain ⟨d, ds, rfl⟩ := exists_cons_of_ne_nil hne
  rw [readInt?_of_isWord fun c hc => isDecimal_isWord (hds c hc), readNat?,
    if_pos (isDigitRun_of_isDecimal hds false (.inr hne)), hf]
  rfl

theorem readInt?_sign (h : ∀ d ∈ c :: s, isDigitSign d) (hc : isDecimal c = false) :
    readInt? (c :: s) = none := by
  have hne : c ≠ '_' := by
    rintro rfl
    exact absurd (h _ mem_cons_self) (by decide)
  rw [readInt?_of_isWord fun d hd => isDigitSign_isWord (h d hd), readNat?, isDigitRun,
    if_neg hne, hc]
  rfl

/-- What the value of a field refers to. -/
def refValue (v : List Char) : Except UnreadableNumber (Option Nat) :=
  match v with
  | '!' :: r =>
    if isNumberName r then
      match readInt? r with
      | some i => .ok (some i.toNat)
      | none => .error ⟨⟩
    else .ok none
  | _ => .ok none

theorem fieldRef_eq (n : MetadataNode) (key : String) :
    n.fieldRef key = match n.fields.get? key with
      | some v => refValue v.toList
      | none => .ok none := by
  unfold MetadataNode.fieldRef
  cases n.fields.get? key with
  | none => rfl
  | some v =>
    simp only [map_some]
    generalize v.toList = s
    cases s with
    | nil => rfl
    | cons c s =>
      by_cases hc : c = '!'
      · subst hc
        rfl
      · simp [refValue, hc]

/-- The text between the quotes of a value. -/
def stringValue (v : List Char) : Option String :=
  match v with
  | '"' :: r => some (String.ofList r.dropLast)
  | _ => none

theorem fieldString_eq (n : MetadataNode) (key : String) :
    n.fieldString key = (n.fields.get? key).bind fun v => stringValue v.toList := by
  unfold MetadataNode.fieldString
  cases n.fields.get? key with
  | none => rfl
  | some v =>
    simp only [map_some, bind_some]
    generalize v.toList = s
    cases s with
    | nil => rfl
    | cons c s =>
      by_cases hc : c = '"'
      · subst hc
        rfl
      · simp [stringValue, hc]

theorem stringValue_of_head (h : v.head? ≠ some '"') : stringValue v = none := by
  unfold stringValue
  split
  · exact absurd rfl h
  · rfl

theorem isNumberName_iff : isNumberName r ↔ r ≠ [] ∧ ∀ c ∈ r, isDigitSign c := by
  simp [isNumberName]

theorem refValue_number (hne : ds ≠ []) (hds : ∀ c ∈ ds, isDecimal c) :
    refValue ('!' :: ds) = .ok (some (digitsValue ds)) := by
  have hn : isNumberName ds :=
    isNumberName_iff.2 ⟨hne, fun c hc => by rw [isDigitSign, hds c hc, Bool.true_or]⟩
  simp [refValue, hn, readInt?_digits hne hds]

theorem refValue_sign (hn : isNumberName r) (hd : r.head?.any isDecimal = false) :
    refValue ('!' :: r) = .error ⟨⟩ := by
  obtain ⟨hne, hr⟩ := isNumberName_iff.1 hn
  obtain ⟨c, r, rfl⟩ := exists_cons_of_ne_nil hne
  simp [refValue, hn, readInt?_sign hr hd]

theorem refValue_other (h : ∀ r, v = '!' :: r → isNumberName r = false) :
    refValue v = .ok none := by
  unfold refValue
  split
  · next r => rw [h r rfl]; rfl
  · rfl

/-- Two outcomes that fail alike or hold related numbers. -/
inductive Likewise {ε α β : Type} (Q : α → β → Prop) :
    Except ε (Option α) → Except ε (Option β) → Prop where
  | error (e : ε) : Likewise Q (.error e) (.error e)
  | none : Likewise Q (.ok none) (.ok none)
  | some {a : α} {b : β} : Q a b → Likewise Q (.ok (some a)) (.ok (some b))

namespace Moved

variable {Q : Nat → Nat → Prop} {v v' : List Char}

theorem eq_nil (h : Moved Q [] v') : v' = [] := by
  have hh := h.head?_eq
  cases v' with
  | nil => rfl
  | cons c v' => cases hh

/-- A number or a run of other digit signs behind an exclamation mark has its partner. -/
theorem refValue_bang (h : Moved Q ('!' :: r) v') (hn : isNumberName r) :
    (∃ r', v' = '!' :: r' ∧ isNumberName r') ∧ Likewise Q (refValue ('!' :: r)) (refValue v') := by
  obtain ⟨hne, hr⟩ := isNumberName_iff.1 hn
  have hw : ∀ c ∈ r, isWord c := fun c hc => isDigitSign_isWord (hr c hc)
  rw [← append_nil ('!' :: r)] at h
  rcases h.steady.kind hw rfl with hd | hds
  · rw [append_nil] at h
    obtain ⟨t, rfl, h1⟩ := h.bang_inv hd
    rw [← append_nil r] at h1
    obtain ⟨t', rfl, h2⟩ := h1.run_inv fun c hc => isWord_plain (hw c hc)
    obtain rfl := h2.eq_nil
    rw [append_nil]
    exact ⟨⟨r, rfl, hn⟩, by rw [refValue_sign hn hd]; exact .error _⟩
  · obtain ⟨ds', r', rfl, hne', hds', -, hQ, h⟩ := h.number_inv hne hds rfl
    obtain rfl := h.eq_nil
    rw [append_nil, refValue_number hne hds, refValue_number hne' hds']
    refine ⟨⟨ds', rfl, isNumberName_iff.2 ⟨hne', fun c hc => ?_⟩⟩, .some hQ⟩
    rw [isDigitSign, hds' c hc, Bool.true_or]

theorem refValue_likewise (h : Moved Q v v') : Likewise Q (refValue v) (refValue v') := by
  by_cases hv : ∃ r, v = '!' :: r ∧ isNumberName r
  · obtain ⟨r, rfl, hn⟩ := hv
    exact (h.refValue_bang hn).2
  · have hv' : ¬ ∃ r, v' = '!' :: r ∧ isNumberName r := by
      rintro ⟨r, rfl, hn⟩
      exact hv (h.symm.refValue_bang hn).1
    have hother : ∀ {u : List Char}, (¬ ∃ r, u = '!' :: r ∧ isNumberName r) →
        refValue u = .ok none :=
      fun hu => refValue_other fun r hr => by
        by_contra hn
        exact hu ⟨r, hr, by simpa using hn⟩
    rw [hother hv, hother hv']
    exact .none

end Moved

theorem isDigitRun_chars {b : Bool} (h : isDigitRun b s) : ∀ c ∈ s, isDecimal c ∨ c = '_' := by
  induction s generalizing b with
  | nil => exact fun c hc => absurd hc not_mem_nil
  | cons d s ih =>
    rw [isDigitRun] at h
    split_ifs at h with hd
    · rw [Bool.and_eq_true] at h
      exact forall_mem_cons.2 ⟨.inr hd, ih h.2⟩
    · rw [Bool.and_eq_true] at h
      exact forall_mem_cons.2 ⟨.inl h.1, ih h.2⟩

theorem readInt?_plain {i : Int} (h : readInt? s = some i) :
    ∀ c ∈ s, c ≠ '"' ∧ isSigil c = false := by
  have hdig : ∀ {t : List Char} {n : Int}, (readNat? t >>= fun m => pure (m : Int)) = some n →
      ∀ c ∈ t, c ≠ '"' ∧ isSigil c = false := by
    intro t n ht c hc
    obtain ⟨m, ht, -⟩ := bind_eq_some_iff.1 ht
    unfold readNat? at ht
    split_ifs at ht with hr
    rcases isDigitRun_chars hr c hc with hc | rfl
    · exact isWord_plain (isDecimal_isWord hc)
    · decide
  have hcore : ∀ c ∈ dropPadding s, c ≠ '"' ∧ isSigil c = false := by
    unfold readInt? at h
    split at h
    · next ds he =>
      obtain ⟨n, hn, -⟩ := map_eq_some_iff.1 h
      rw [he]
      exact forall_mem_cons.2 ⟨by decide, hdig hn⟩
    · next ds he =>
      obtain ⟨n, hn, -⟩ := map_eq_some_iff.1 h
      rw [he]
      exact forall_mem_cons.2 ⟨by decide, hdig hn⟩
    · obtain ⟨n, hn, -⟩ := map_eq_some_iff.1 h
      exact hdig hn
  have hpad : ∀ {c}, isPadding c → c ≠ '"' ∧ isSigil c = false := by
    intro c hc
    rw [isPadding, Bool.and_eq_true] at hc
    exact isBlank_plain hc.1
  have hdrop : ∀ {t : List Char}, (∀ c ∈ t.dropWhile isPadding, c ≠ '"' ∧ isSigil c = false) →
      ∀ c ∈ t, c ≠ '"' ∧ isSigil c = false := by
    intro t ht c hc
    rw [← takeWhile_append_dropWhile (l := t)] at hc
    rcases mem_append.1 hc with hc | hc
    · exact hpad (mem_takeWhile_imp hc)
    · exact ht c hc
  refine hdrop fun c hc => hdrop (fun d hd => ?_) c (mem_reverse.2 hc)
  exact hcore d (mem_reverse.2 hd)

theorem Moved.readInt?_eq {Q : Nat → Nat → Prop} {v' : List Char} (h : Moved Q v v') :
    readInt? v' = readInt? v := by
  have hself : ∀ {Q : Nat → Nat → Prop} {u u' : List Char} {i : Int}, Moved Q u u' →
      readInt? u = some i → u' = u := by
    intro Q u u' i hu hi
    rw [← append_nil u] at hu
    obtain ⟨t, rfl, ht⟩ := hu.run_inv (readInt?_plain hi)
    rw [ht.eq_nil, append_nil]
  cases hi : readInt? v with
  | some i => rw [hself h hi, hi]
  | none =>
    cases hi' : readInt? v' with
    | none => rfl
    | some i =>
      rw [← hself h.symm hi', hi] at hi'
      cases hi'

end CallAtlas.Ir
