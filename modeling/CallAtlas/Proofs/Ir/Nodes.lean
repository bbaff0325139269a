import CallAtlas.Proofs.Ir.Records

/-!
# Metadata nodes under changes of texts

What the resolution of a location reads of a node is its kind and some of its fields. `Alike k`
relates two nodes of which it reads the same, but for the numbers of other nodes, which are moved by
`k`. An `Orderly` node stays alike under a change of references, `Orderly.change`; it is a steady
text whose record, if it is one, is closed by a parenthesis with no reference behind it, and whose
file name and directory are literals alone. `Relocates k` says of a change of texts what it does to
instructions and to nodes: the three changes that a join makes relocate, and one after another they
relocate by the sum.
-/

namespace CallAtlas.Ir

open Text

variable {k : Nat} {n : MetadataNode} {α : Type}

/-! ## Nodes of which the same is read -/

/-- A name of a field. -/
def isKey (key : String) : Bool := key.toList.all isWord

/-- A kind that records only have, and that is no number. -/
def isKind (kind : String) : Bool :=
  kind ≠ "tuple" && kind ≠ "other" && !kind.toList.head?.any isDecimal

section likewise

variable {ε β γ : Type} {Q : α → β → Prop} {x : Except ε (Option α)} {y : Except ε (Option β)}

theorem Likewise.bind_eq (h : Likewise Q x y) {f : Option α → Except ε γ}
    {g : Option β → Except ε γ}
    (hfg : ∀ {a b}, Option.Rel Q a b → g b = f a) : (y >>= g) = (x >>= f) := by
  cases h with
  | error e => rfl
  | none => exact hfg .none
  | some h => exact hfg (.some h)

theorem Likewise.trans {Q' : β → γ → Prop} {z : Except ε (Option γ)} (h : Likewise Q x y)
    (h' : Likewise Q' y z) :
    Likewise (fun a c => ∃ b, Q a b ∧ Q' b c) x z := by
  cases h with
  | error e => cases h'; exact .error e
  | none => cases h'; exact .none
  | some hq =>
    cases h' with
    | some hq' => exact .some ⟨_, hq, hq'⟩

theorem Likewise.mono {Q' : α → β → Prop} (h : Likewise Q x y) (hq : ∀ a b, Q a b → Q' a b) :
    Likewise Q' x y := by
  cases h with
  | error e => exact .error e
  | none => exact .none
  | some h => exact .some (hq _ _ h)

end likewise

/-- Two nodes of which the same is read, the numbers of other nodes moved by `k`. -/
structure Alike (k : Nat) (n n' : MetadataNode) : Prop where
  kind : ∀ kind, isKind kind → (n'.kind = kind ↔ n.kind = kind)
  ref : ∀ key, isKey key → Likewise (fun i j => j = i + k) (n.fieldRef key) (n'.fieldRef key)
  int : ∀ key, isKey key → n'.fieldInt key = n.fieldInt key
  string : n.kind = "DIFile" → ∀ key ∈ ["filename", "directory"],
    n'.fieldString key = n.fieldString key

theorem Alike.trans {l : Nat} {n' n'' : MetadataNode} (h : Alike k n n') (h' : Alike l n' n'') :
    Alike (k + l) n n'' where
  kind kind hk := (h'.kind kind hk).trans (h.kind kind hk)
  ref key hk := ((h.ref key hk).trans (h'.ref key hk)).mono (by rintro a c ⟨b, rfl, rfl⟩; omega)
  int key hk := (h'.int key hk).trans (h.int key hk)
  string hn key hk :=
    (h'.string ((h.kind "DIFile" (by decide)).2 hn) key hk).trans (h.string hn key hk)

/-! ## Texts without references -/

/-- A text that refers to nothing. -/
@[mk_iff] structure Unreferring (s : List Char) : Prop where
  globals : references globalReader s = []
  types : references typeReader s = []
  numbers : references numberedReader s = []

instance (s : List Char) : Decidable (Unreferring s) := decidable_of_iff' _ (unreferring_iff ..)

theorem mapReferences_eq_self {R : Reader α} {s : List Char} (h : references R s = [])
    (f : α → List Char → List Char) : mapReferences R f s = s := by
  conv_rhs => rw [← text_lexemes R s]
  refine List.flatMap_congr fun l hl => ?_
  cases l with
  | literal t => rfl
  | other c => rfl
  | reference a t =>
    have ha : a ∈ references R s := List.mem_filterMap.2 ⟨_, hl, rfl⟩
    rw [h] at ha
    cases ha

/-! ## Orderly nodes -/

namespace MetadataNode

/-- A steady node. A record is closed by a parenthesis with neither a quote nor a sigil behind the
last one, and the name and the directory of a file refer to nothing where they start with a
quote. -/
@[mk_iff] structure Orderly (P : Nat → Prop) (n : MetadataNode) : Prop where
  steady : Steady P n.text.toList
  closes : ∀ r ∈ recordHead? n.text.toList, Closes r.2
  strings : n.kind = "DIFile" → ∀ key ∈ ["filename", "directory"], ∀ v ∈ n.fields.get? key,
    v.toList.head? = some '"' → Unreferring v.toList

theorem kind_of_record {kind rest : List Char} (h : recordHead? n.text.toList = some (kind, rest)) :
    n.kind = String.ofList kind := by
  unfold MetadataNode.kind
  rw [h]

theorem kind_of_none (h : recordHead? n.text.toList = none) :
    n.kind = "tuple" ∨ n.kind = "other" := by
  unfold kind
  rw [h]
  show (if _ then "tuple" else "other") = "tuple" ∨ (if _ then "tuple" else "other") = "other"
  split_ifs
  · exact .inl rfl
  · exact .inr rfl

theorem fields_of_none (h : recordHead? n.text.toList = none) (key : String) :
    n.fields.get? key = none := by
  unfold fields
  rw [h]
  rfl

variable {P : Nat → Prop} {n n' : MetadataNode} {key : String}

instance [DecidablePred P] : Decidable (n.Orderly P) := decidable_of_iff' _ (orderly_iff ..)

/-- The fields of an orderly record stand before the last closing parenthesis. -/
theorem Orderly.body (h : n.Orderly P) {kind rest : List Char}
    (hr : recordHead? n.text.toList = some (kind, rest)) :
    ∃ body tail, rest = body ++ ')' :: tail ∧ (∀ c ∈ tail, c ≠ ')' ∧ c ≠ '"' ∧ isSigil c = false) ∧
    Steady P body := by
  obtain ⟨body, tail, rfl, ht⟩ := (h.closes _ hr).split
  have hs := h.steady.recordHead? hr
  have hq : ∀ c ∈ ')' :: tail, c ≠ '"' :=
    List.forall_mem_cons.2 ⟨by decide, fun c hc => (ht c hc).2.1⟩
  exact ⟨body, tail, rfl, ht, (hs.split (terminated_of_append hq hs.terminated) (by rfl)).1⟩

theorem Orderly.value (h : n.Orderly P) (hk : isKey key) {v : String}
    (hv : n.fields.get? key = some v) :
    Steady P v.toList := by
  cases hr : recordHead? n.text.toList with
  | none =>
    rw [fields_of_none hr] at hv
    cases hv
  | some w =>
    obtain ⟨kind, rest⟩ := w
    obtain ⟨body, tail, rfl, ht, hb⟩ := h.body hr
    exact Steady.get?_fields hr (fun hm => (ht _ hm).1 rfl) hb (List.all_eq_true.1 hk) hv

theorem Orderly.ref (h : n.Orderly P) (hk : isKey key) {i : Nat}
    (hi : n.fieldRef key = .ok (some i)) : P i := by
  rw [fieldRef_eq] at hi
  cases hv : n.fields.get? key with
  | none => simp [hv] at hi
  | some v =>
    have hl := (h.value hk hv).moved_self.refValue_likewise
    rw [hv] at hi
    rw [show refValue v.toList = .ok (some i) from hi] at hl
    cases hl with
    | some hP => exact hP.2

section change

variable {α : Type} {R : Reader α} {p : Char → Bool} {f : α → List Char → List Char} {k : Nat}

theorem Orderly.view (hm : Mover R p f fun i j => j = i + k) (h : n.Orderly P)
    (ht : n'.text.toList = mapReferences R f n.text.toList) :
    (∀ kind, isKind kind → (n'.kind = kind ↔ n.kind = kind)) ∧
      (∀ r ∈ recordHead? n'.text.toList, Closes r.2) ∧
      ∀ {key}, isKey key →
        n'.fields.get? key = (n.fields.get? key).map fun v =>
  String.ofList (mapReferences R f v.toList) := by
  rcases recordHead?_mapReferences hm h.steady with ⟨hr, hr'⟩ | ⟨kind, kind', rest, hr, hr', hsame⟩
  · rw [← ht] at hr'
    refine ⟨fun kind hk => ?_, fun r hr => ?_, fun _ => ?_⟩
    · -- neither is a record
      have hno : ∀ {m : MetadataNode}, recordHead? m.text.toList = none → m.kind ≠ kind := by
        rintro m hm rfl
        rcases kind_of_none hm with hm | hm <;> simp [isKind, hm] at hk
      exact iff_of_false (hno hr') (hno hr)
    · rw [hr'] at hr
      cases hr
    · rw [fields_of_none hr, fields_of_none hr']
      rfl
  · rw [← ht] at hr'
    obtain ⟨body, tail, rfl, htail, hb⟩ := h.body hr
    have hrest : mapReferences R f (body ++ ')' :: tail) = mapReferences R f body ++ ')' ::
        tail := by
      have hplain : ∀ c ∈ ')' :: tail, c ≠ '"' ∧ isSigil c = false :=
        List.forall_mem_cons.2 ⟨by decide, fun c hc => (htail c hc).2⟩
      have hm' := mapReferences_plain_append hm.replaces (plain_apart hplain) []
      rw [mapReferences_nil, List.append_nil] at hm'
      rw [mapReferences_append hm.sighted hm.replaces hb.terminated (by rfl), hm']
    rw [hrest] at hr'
    refine ⟨fun kind hk => ?_, fun r hr => ?_, fun {key} hk => ?_⟩
    · rw [kind_of_record hr, kind_of_record hr']
      rcases hsame with rfl | ⟨hd, hd'⟩
      · exact Iff.rfl
      · -- both kinds are numbers
        have hno : ∀ {w : List Char}, w.head?.any isDecimal → String.ofList w ≠ kind := by
          rintro w hw rfl
          simp [isKind, hw] at hk
        exact iff_of_false (hno hd') (hno hd)
    · rw [hr'] at hr
      obtain rfl := Option.some.inj hr
      exact closes_append htail
    · exact get?_fields_mapReferences hm.sighted hm.replaces hr hr'
        (fun hc => (htail _ hc).1 rfl) hb
        (List.all_eq_true.1 hk)

theorem isKey_string (h : key ∈ ["filename", "directory"]) : isKey key := by
  rcases List.mem_cons.1 h with rfl | h
  · decide +kernel
  · rw [List.mem_singleton.1 h]
    decide +kernel

theorem Orderly.change (hm : Mover R p f fun i j => j = i + k)
    (hu : ∀ {s}, Unreferring s → mapReferences R f s = s) (h : n.Orderly P)
    (ht : n'.text.toList = mapReferences R f n.text.toList) :
    Alike k n n' ∧ n'.Orderly fun _ => True := by
  obtain ⟨hkind, hclose, hfields⟩ := h.view hm ht
  have hmoved : ∀ {key v}, isKey key → n.fields.get? key = some v →
      Moved (fun i j => j = i + k) v.toList (mapReferences R f v.toList) :=
        fun hk hv => hm.moved (h.value hk hv)
  -- a file name or directory in quotes is the same in both nodes
  have hstr : n.kind = "DIFile" → ∀ key ∈ ["filename", "directory"], ∀ v ∈ n.fields.get? key,
      v.toList.head? = some '"' → mapReferences R f v.toList = v.toList :=
    fun hn key hk v hv hq => hu (h.strings hn key hk v hv hq)
  refine ⟨⟨hkind, fun key hk => ?_, fun key hk => ?_, fun hn key hk => ?_⟩,
    ⟨?_, hclose, fun hn key hk v' hv' hq => ?_⟩⟩
  · rw [fieldRef_eq, fieldRef_eq, hfields hk]
    cases hv : n.fields.get? key with
    | none => exact .none
    | some v =>
      have := (hmoved hk hv).refValue_likewise
      simpa using this
  · unfold fieldInt
    rw [hfields hk]
    cases hv : n.fields.get? key with
    | none => rfl
    | some v =>
      have := (hmoved hk hv).readInt?_eq
      simpa using this
  · rw [fieldString_eq, fieldString_eq, hfields (isKey_string hk)]
    cases hv : n.fields.get? key with
    | none => rfl
    | some v =>
      show stringValue (String.ofList (mapReferences R f v.toList)).toList = stringValue v.toList
      rw [String.toList_ofList]
      by_cases hq : v.toList.head? = some '"'
      · rw [hstr hn key hk v hv hq]
      · have hh := (hmoved (isKey_string hk) hv).head?_eq
        rw [stringValue_of_head hq, stringValue_of_head (hh ▸ hq)]
  · rw [ht]
    exact (hm.moved h.steady).symm.steady.mono fun _ _ => trivial
  · rw [hfields (isKey_string hk)] at hv'
    obtain ⟨v, hv, rfl⟩ := Option.map_eq_some_iff.1 hv'
    replace hn := (hkind "DIFile" (by decide)).1 hn
    rw [String.toList_ofList] at hq ⊢
    rw [(hmoved (isKey_string hk) hv).head?_eq] at hq
    rw [hstr hn key hk v hv hq]
    exact h.strings hn key hk v hv hq

end change

end MetadataNode

/-! ## Changes of texts -/

/-- A change of texts that moves the numbers of metadata nodes by `k` and keeps steady texts steady
and orderly nodes orderly. -/
structure Relocates (k : Nat) (t : String → String) : Prop where
  steady : ∀ {P text}, Steady P text.toList → Steady (fun _ => True) (t text).toList
  debug : ∀ {P text}, Steady P text.toList →
    debugRef? (t text).toList = (debugRef? text.toList).map (· + k)
  node : ∀ {P} {n n' : MetadataNode}, n.Orderly P → n'.text = t n.text → Alike k n n' ∧
    n'.Orderly fun _ => True

theorem Relocates.comp {l : Nat} {t u : String → String} (ht : Relocates k t) (hu : Relocates l u) :
    Relocates (k + l) (u ∘ t) where
  steady hs := hu.steady (ht.steady hs)
  debug hs := by
    rw [Function.comp, hu.debug (ht.steady hs), ht.debug hs, Option.map_map]
    congr 1
    funext n
    show n + k + l = n + (k + l)
    omega
  node {P n n'} hn he := by
    obtain ⟨h1, ho⟩ := ht.node hn (show (⟨n.id, t n.text⟩ : MetadataNode).text = t n.text from rfl)
    obtain ⟨h2, ho'⟩ := hu.node ho he
    exact ⟨h1.trans h2, ho'⟩

theorem relocates_of_mover {R : Reader α} {p : Char → Bool} {f : α → List Char → List Char}
    {t : String → String} (hm : Mover R p f fun i j => j = i + k)
    (hu : ∀ {s}, Unreferring s → mapReferences R f s = s)
    (ht : ∀ text, (t text).toList = mapReferences R f text.toList) : Relocates k t where
  steady hs := by
    rw [ht]
    exact (hm.moved hs).symm.steady.mono fun _ _ => trivial
  debug {P text} hs := by
    rw [ht]
    have hr := (hm.moved hs).debugRef?_rel
    generalize debugRef? text.toList = o at hr ⊢
    generalize debugRef? (mapReferences R f text.toList) = o' at hr ⊢
    cases hr with
    | none => rfl
    | some h => rw [h, Option.map_some]
  node hn he := hn.change hm hu (by rw [he, ht])

section names

variable {rename : String → Option String}

theorem relocates_renameGlobals
    (hw : ∀ {x y}, rename x = some y → Writable y.toList ∧ debugRef? y.toList = none) :
    Relocates 0 (renameGlobals rename) :=
  relocates_of_mover (mover_respell sigiled_globalReader (by decide) hw)
    (fun h => mapReferences_eq_self h.globals _) (toList_renameWith globalReader "@" rename)

theorem relocates_renameTypes
    (hw : ∀ {x y}, rename x = some y → Writable y.toList ∧ debugRef? y.toList = none) :
    Relocates 0 (renameTypes rename) :=
  relocates_of_mover (mover_respell sigiled_typeReader (by decide) hw)
    (fun h => mapReferences_eq_self h.types _) (toList_renameWith typeReader "%" rename)

end names

theorem relocates_id : Relocates 0 id := by
  have h : Relocates 0 (renameGlobals fun _ => none) := relocates_renameGlobals (by simp)
  have hid : renameGlobals (fun _ => none) = id :=
    funext (renameWith_none globalReader "@" fun _ => rfl)
  exact hid ▸ h

theorem relocates_shiftNumbered (k l : Nat) : Relocates k (shiftNumbered k l) := by
  by_cases h : (k : Int) = 0 ∧ (l : Int) = 0
  · have hid : shiftNumbered k l = id := funext fun text => if_pos h
    have hk : k = 0 := by omega
    rw [hid, hk]
    exact relocates_id
  · exact relocates_of_mover (mover_renumber k l) (fun hs => mapReferences_eq_self hs.numbers _)
      (toList_shiftNumbered h)

end CallAtlas.Ir
