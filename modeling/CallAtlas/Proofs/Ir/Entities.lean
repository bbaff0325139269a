import CallAtlas.Ir.Parse
import CallAtlas.Proofs.Ir.References
import CallAtlas.Proofs.Text.Lines

/-!
# Entities of a module and their lines

Outside functions a line writes one `Entity`, or is none of them. What a line gives is sound in the
sense of `Entity.Sound`: a text behind an equals sign starts with no blank, and nothing holds a line
break. A sound entity whose name can be recovered from its written form is read from its own line:
`entity?_line`.
-/

namespace CallAtlas.Ir

open Text List
open String (ofList_toList toList_append toList_ofList)
open Option (bind_eq_some_iff bind_some map_eq_some_iff map_some)

variable {s r l : List Char} {c : Char} {name : String}

/-! ## What a line writes -/

/-- What a line outside functions can write. -/
inductive Entity where
  | global (g : Global)
  | type (name body : String)
  | comdat (name kind : String)
  | attributes (n : Nat) (body : String)
  | metadata (n : Nat) (text : String)
  | named (name : String) (ids : List Nat)
  | source (v : String)
  | layout (v : String)
  | triple (v : String)

namespace Entity

def add : Entity → IrModule → IrModule
  | .global g, m => { m with globals := m.globals.insert g.name g }
  | .type name body, m => { m with types := m.types.insert name body }
  | .comdat name kind, m => { m with comdats := m.comdats.insert name kind }
  | .attributes n body, m => { m with attributeGroups := m.attributeGroups.insert n body }
  | .metadata n text, m => { m with metadata := m.metadata.insert n ⟨n, text⟩ }
  | .named name ids, m => { m with namedMetadata := m.namedMetadata.insert name ids }
  | .source v, m => { m with sourceFilename := v }
  | .layout v, m => { m with dataLayout := v }
  | .triple v, m => { m with targetTriple := v }

def line : Entity → String
  | .global g => g.line
  | .type name body => quoteName name "%" ++ " = type " ++ body
  | .comdat name kind => quoteName name "$" ++ " = comdat " ++ kind
  | .attributes n body => "attributes #" ++ String.ofList (natDigits n) ++ " = " ++ body
  | .metadata n text => MetadataNode.line ⟨n, text⟩
  | .named name ids => IrModule.namedMetadataLine name ids
  | .source v => "source_filename = \"" ++ v ++ "\""
  | .layout v => "target datalayout = \"" ++ v ++ "\""
  | .triple v => "target triple = \"" ++ v ++ "\""

/-- The readers of the kinds of entities, in the order in which they are tried. -/
def readers : List (List Char → Option Entity) :=
  [fun l => (globalLine? l).map .global,
   fun l => (typeLine? l).map fun e => .type e.1 e.2,
   fun l => (comdatLine? l).map fun e => .comdat e.1 e.2,
   fun l => (numberedLine? "attributes #" l).map fun e => .attributes e.1 e.2,
   fun l => (numberedLine? "!" l).map fun e => .metadata e.1 e.2,
   fun l => (namedMetadataLine? l).map fun e => .named e.1 e.2,
   fun l => (headerValue? "source_filename" l).map .source,
   fun l => (headerValue? "target datalayout" l).map .layout,
   fun l => (headerValue? "target triple" l).map .triple]

end Entity

/-- The entity that a line writes. -/
def entity? (l : List Char) : Option Entity := Entity.readers.findSome? (· l)

theorem entityLine?_eq (m : IrModule) (l : List Char) :
    ParseState.entityLine? m l = (entity? l).map (·.add m) := by
  unfold ParseState.entityLine? entity? Entity.readers
  simp only [findSome?_cons]
  cases globalLine? l with
  | some g => rfl
  | none =>
  cases typeLine? l with
  | some e => rfl
  | none =>
  cases comdatLine? l with
  | some e => rfl
  | none =>
  cases numberedLine? "attributes #" l with
  | some e => rfl
  | none =>
  cases numberedLine? "!" l with
  | some e => rfl
  | none =>
  cases namedMetadataLine? l with
  | some e => rfl
  | none =>
  cases headerValue? "source_filename" l with
  | some e => rfl
  | none =>
  cases headerValue? "target datalayout" l with
  | some e => rfl
  | none =>
  cases headerValue? "target triple" l with
  | some e => rfl
  | none => rfl

/-! ## Sound entities -/

/-- A text behind an equals sign: it starts with no blank and holds no line break. -/
structure Flush (text : String) : Prop where
  head : text.toList.head?.any isBlank = false
  breakless : Breakless text.toList

/-- What is true of every entity that a line writes. -/
def Entity.Sound : Entity → Prop
  | .global g => Flush g.segment
  | .type _ body => Flush body
  | .comdat _ kind => kind.toList ≠ [] ∧ (∀ c ∈ kind.toList, isWord c) ∧ Flush kind
  | .attributes _ body => Flush body
  | .metadata _ text => Flush text
  | .named name _ => bareName? name.toList = some (name.toList, [])
  | .source v | .layout v | .triple v => Breakless v.toList

theorem suffix_of_dropHead? {head : List Char} (h : dropHead? head s = some r) : r <:+ s :=
  ⟨head, (dropHead?_eq_some h).symm⟩

theorem afterEquals?_eq_some (h : afterEquals? s = some r) :
    r <:+ s ∧ r.head?.any isBlank = false := by
  unfold afterEquals? at h
  split at h
  · next t ht =>
    obtain rfl := Option.some.inj h
    refine ⟨?_, head?_dropWhile_any isBlank t⟩
    have ht' : t <:+ s := (suffix_cons '=' t).trans (ht ▸ dropWhile_suffix isBlank)
    exact (dropWhile_suffix isBlank).trans ht'
  · cases h

theorem entityName?_suffix (h : entityName? s = some (name, r)) : r <:+ s := by
  obtain ⟨⟨w, text, rest⟩, hp, he⟩ := map_eq_some_iff.1 h
  obtain ⟨-, rfl⟩ := Prod.mk.inj he
  exact ⟨text, (spelling?_split run?_split hp).1.symm⟩

theorem wordAndBlank?_eq_some {word : String} (h : wordAndBlank? word s = some r) :
    r <:+ s ∧ r.head?.any isBlank = false := by
  simp only [wordAndBlank?, bind, bind_eq_some_iff] at h
  obtain ⟨t, ht, c, -, h⟩ := h
  split_ifs at h
  obtain rfl := Option.some.inj h
  exact ⟨(dropWhile_suffix isBlank).trans (suffix_of_dropHead? ht), head?_dropWhile_any isBlank t⟩

theorem betweenQuotes?_sublist (h : betweenQuotes? s = some r) : r.Sublist s := by
  unfold betweenQuotes? at h
  split at h
  · next t =>
    split at h
    · next c u hu =>
      obtain rfl := Option.some.inj h
      have : u.Sublist t.reverse := (sublist_cons_self c u).trans (hu ▸ dropWhile_sublist _)
      have := this.reverse
      rw [reverse_reverse] at this
      exact this.trans (sublist_cons_self _ t)
    · cases h
  · cases h

theorem flush_of_suffix (hl : Breakless l) (hs : r <:+ l) (hr : r.head?.any isBlank = false) :
    Flush (String.ofList r) := by
  refine ⟨?_, ?_⟩
  · rwa [toList_ofList]
  · rw [toList_ofList]
    exact hl.sublist hs.sublist

theorem numberedLine?_flush {key : String} {e : Nat × String} (hl : Breakless l)
    (h : numberedLine? key l = some e) :
    Flush e.2 := by
  simp only [numberedLine?, bind, bind_eq_some_iff] at h
  obtain ⟨r1, h1, ⟨ds, r2⟩, h2, r3, h3, h⟩ := h
  obtain rfl := Option.some.inj h
  obtain ⟨hs, hh⟩ := afterEquals?_eq_some h3
  have hr : r2 <:+ r1 := ⟨ds, (run?_split h2).1.symm⟩
  exact flush_of_suffix hl ((hs.trans hr).trans (suffix_of_dropHead? h1)) hh

theorem headerValue?_breakless {key v : String} (hl : Breakless l)
    (h : headerValue? key l = some v) :
    Breakless v.toList := by
  simp only [headerValue?, bind, bind_eq_some_iff] at h
  obtain ⟨r1, h1, r2, h2, r3, h3, h⟩ := h
  obtain rfl := Option.some.inj h
  rw [toList_ofList]
  have hs := (afterEquals?_eq_some h2).1.trans (suffix_of_dropHead? h1)
  exact hl.sublist ((betweenQuotes?_sublist h3).trans hs.sublist)

theorem entity?_sound {e : Entity} (hl : Breakless l) (h : entity? l = some e) : e.Sound := by
  obtain ⟨f, hf, he⟩ := exists_of_findSome?_eq_some h
  simp only [Entity.readers, mem_cons, not_mem_nil, or_false] at hf
  rcases hf with rfl | rfl | rfl | rfl | rfl | rfl | rfl | rfl | rfl <;>
    obtain ⟨e, hg, rfl⟩ := map_eq_some_iff.1 he
  · simp only [globalLine?, bind, bind_eq_some_iff] at hg
    obtain ⟨r1, h1, ⟨n, r2⟩, h2, r3, h3, hg⟩ := hg
    obtain rfl := Option.some.inj hg
    obtain ⟨hs, hh⟩ := afterEquals?_eq_some h3
    exact flush_of_suffix hl ((hs.trans (entityName?_suffix h2)).trans (suffix_of_dropHead? h1)) hh
  · simp only [typeLine?, bind, bind_eq_some_iff] at hg
    obtain ⟨r1, h1, ⟨n, r2⟩, h2, r3, h3, r4, h4, hg⟩ := hg
    obtain rfl := Option.some.inj hg
    obtain ⟨hs, hh⟩ := wordAndBlank?_eq_some h4
    have hs := hs.trans (afterEquals?_eq_some h3).1
    exact flush_of_suffix hl ((hs.trans (entityName?_suffix h2)).trans (suffix_of_dropHead? h1)) hh
  · simp only [comdatLine?, bind, bind_eq_some_iff] at hg
    obtain ⟨r1, h1, ⟨n, r2⟩, h2, r3, h3, r4, h4, ⟨k, r5⟩, h5, hg⟩ := hg
    obtain rfl := Option.some.inj hg
    obtain ⟨hs, hh⟩ := wordAndBlank?_eq_some h4
    have hs :=
      ((hs.trans (afterEquals?_eq_some h3).1).trans (entityName?_suffix h2)).trans
        (suffix_of_dropHead? h1)
    obtain ⟨hne, hk, -⟩ := run?_eq_some h5
    rw [(run?_split h5).1] at hs hh
    rw [head?_append_of_ne_nil _ hne] at hh
    simp only [Entity.Sound, toList_ofList]
    refine ⟨hne, hk, ?_, ?_⟩
    · rwa [toList_ofList]
    · rw [toList_ofList]
      exact hl.sublist ((sublist_append_left k r5).trans hs.sublist)
  · exact numberedLine?_flush hl hg
  · exact numberedLine?_flush hl hg
  · simp only [namedMetadataLine?, bind, bind_eq_some_iff] at hg
    obtain ⟨r1, -, ⟨n, r2⟩, h2, r3, -, r4, -, hg⟩ := hg
    split at hg
    · obtain rfl := Option.some.inj hg
      simp only [Entity.Sound]
      obtain ⟨c, u, rfl, hc, hu, -⟩ := bareName?_eq_some h2
      simpa using bareName?_cons (r := []) hc hu rfl
    · cases hg
  all_goals exact headerValue?_breakless hl hg

/-! ## Written names -/

/-- A name that is found again in its written form. -/
def Recovers (name : String) : Prop := entityName? (writeName [] name.toList) = some (name, [])

instance (name : String) : Decidable (Recovers name) := inferInstanceAs (Decidable (_ = _))

theorem entityName?_append (h : entityName? s = some (name, [])) (hr : startsName r = false) :
    entityName? (s ++ r) = some (name, r) := by
  unfold entityName? at h ⊢
  obtain ⟨⟨w, text, rest⟩, hp, he⟩ := map_eq_some_iff.1 h
  obtain ⟨hw, rfl⟩ := Prod.mk.inj he
  by_cases hq : s.head? = some '"'
  · obtain ⟨t, rfl⟩ := head?_eq_some_iff.1 hq
    obtain ⟨⟨b, u⟩, hc, hb⟩ := map_eq_some_iff.1 hp
    obtain ⟨rfl, -, rfl⟩ := hb
    have ht : t ++ r = b ++ '"' :: r := by simp [closeQuote_split hc]
    rw [cons_append, spelling?_quote, ht, closeQuote_body (isBody_of_closeQuote hc)]
    simp [hw]
  · rw [spelling?_bare hq] at hp
    obtain ⟨⟨n, u⟩, hc, hb⟩ := map_eq_some_iff.1 hp
    obtain ⟨rfl, -, rfl⟩ := hb
    obtain ⟨hne, hn, -⟩ := run?_eq_some hc
    have hs : s = n := by simpa using (run?_split hc).1
    subst hs
    have hq' : (s ++ r).head? ≠ some '"' := by rwa [head?_append_of_ne_nil _ hne]
    rw [spelling?_bare hq', run?_append hne hn hr]
    simp [hw]

theorem isBreak_of_isNameChar (h : isNameChar c) : Text.isBreak c = false :=
  isBreak_of_isPrintable (isPrintable_of_isBare (isBare_of_isNameChar h))

theorem breakless_escape (n : List Char) : Breakless (escape n) := by
  intro d hd
  obtain ⟨c, -, hc⟩ := mem_flatMap.1 hd
  unfold escapeChar at hc
  split_ifs at hc with h
  · rcases mem_cons.1 hc with rfl | hc
    · decide
    · obtain ⟨a, b, u, hu, hx⟩ := upperHexDigits_eq (codeOf c)
      have hd : inRanges [(0x30, 0x39), (0x41, 0x46)] d := by
        simpa [isUpperHex, inRanges, Char.le_def, UInt32.le_iff_toNat_le] using hx d (hu ▸ hc)
      exact not_inRanges (by decide) hd
  · obtain rfl := mem_singleton.1 hc
    exact isBreak_of_isPrintable (by simpa using fun hp => h (.inr (.inr hp)))

/-- A written name is on one line, but for a line feed at the end of a bare name. -/
theorem breakless_writeName (hs : ¬ (isBareName s ∧ s.getLast? = some '\n')) :
    Breakless (writeName [] s) := by
  by_cases hw : (isBareName s || isNumberName s) = true
  · rw [writeName_unquoted hw]
    rcases Bool.or_eq_true _ _ ▸ hw with hb | hn
    · obtain ⟨n, r, h, hs', rfl | rfl⟩ := isBareName_split hb
      · rw [hs', append_nil]
        exact fun c hc => isBreak_of_isNameChar (bareName?_chars h c hc)
      · exact absurd ⟨hb, by rw [hs', getLast?_concat]⟩ hs
    · rw [isNumberName, Bool.and_eq_true] at hn
      exact fun c hc => isBreak_of_isDigitSign (all_eq_true.1 hn.2 c hc)
  · rw [writeName_quoted hw, cons_append, breakless_cons, breakless_append]
    exact ⟨by decide, breakless_escape s, by decide⟩

theorem Recovers.breakless (h : Recovers name) : Breakless (writeName [] name.toList) := by
  refine breakless_writeName fun ⟨hb, hl⟩ => ?_
  have hw : (isBareName name.toList || isNumberName name.toList) = true := by rw [hb, Bool.true_or]
  rw [Recovers, writeName_unquoted hw, entityName?, spelling?_unquoted hw, Option.map_map] at h
  obtain ⟨p, hr, he⟩ := map_eq_some_iff.1 h
  have hs := (run?_split hr).1
  rw [show p.2 = [] from (Prod.mk.inj he).2, append_nil] at hs
  exact absurd ((run?_eq_some hr).2.1 _ (hs ▸ mem_of_getLast? hl)) (by decide)

/-! ## Reading a line back -/

/-- Whether the name of an entity, if it may need quotes, is found again in its written form. -/
def Entity.Recovers : Entity → Prop
  | .global g => Ir.Recovers g.name
  | .type name _ | .comdat name _ => Ir.Recovers name
  | _ => True

theorem dropHead?_append (head r : List Char) : dropHead? head (head ++ r) = some r := by
  induction head with
  | nil => rfl
  | cons c head ih => simp [dropHead?, ih]

theorem dropHead?_cons (c : Char) (r : List Char) : dropHead? [c] (c :: r) = some r :=
  dropHead?_append [c] r

theorem afterEquals?_written (h : r.head?.any isBlank = false) :
    afterEquals? (' ' :: '=' :: ' ' :: r) = some r := by
  have h2 : trimLeft (' ' :: r) = trimLeft r := rfl
  show some (trimLeft (' ' :: r)) = some r
  rw [h2, trimLeft_of_head h]

theorem wordAndBlank?_written (word : String) (h : r.head?.any isBlank = false) :
    wordAndBlank? word (word.toList ++ ' ' :: r) = some r := by
  unfold wordAndBlank?
  rw [dropHead?_append]
  show some (trimLeft r) = some r
  rw [trimLeft_of_head h]

theorem betweenQuotes?_written (v : List Char) : betweenQuotes? ('"' :: v ++ ['"']) = some v := by
  simp [betweenQuotes?]

theorem run?_natDigits (n : Nat) (hr : r.head?.any isDecimal = false) :
    run? isDecimal (natDigits n ++ r) = some (natDigits n, r) :=
  run?_append Nat.toDigits_ne_nil
    (fun _ hc => isDecimal_of_isAsciiDigit (isAsciiDigit_of_mem_natDigits hc)) hr

theorem numberedLine?_written (key : String) (n : Nat) {text : String} (h : Flush text) :
    numberedLine? key (key.toList ++ (natDigits n ++ ' ' :: '=' :: ' ' :: text.toList)) =
      some (n, text) := by
  have hr := run?_natDigits n (r := ' ' :: '=' :: ' ' :: text.toList) rfl
  simp only [numberedLine?, bind, dropHead?_append, bind_some, hr, afterEquals?_written h.head]
  show some (digitsValue (natDigits n), String.ofList text.toList) = _
  rw [digitsValue_natDigits, ofList_toList]

theorem headerValue?_written (key v : String) :
    headerValue? key (key.toList ++ ' ' :: '=' :: ' ' :: ('"' :: v.toList ++ ['"'])) = some v := by
  have hh : ('"' :: v.toList ++ ['"']).head?.any isBlank = false := rfl
  simp only [headerValue?, bind, dropHead?_append, bind_some, afterEquals?_written hh,
    betweenQuotes?_written]
  show some (String.ofList v.toList) = _
  rw [ofList_toList]

theorem globalLine?_written {g : Global} (hn : Recovers g.name) (hs : Flush g.segment) :
    globalLine? ('@' :: (writeName [] g.name.toList ++ ' ' :: '=' :: ' ' :: g.segment.toList)) =
      some g := by
  simp only [globalLine?, bind, dropHead?_cons, bind_some,
    entityName?_append hn (r := ' ' :: _) rfl, afterEquals?_written hs.head]
  show some (⟨g.name, String.ofList g.segment.toList⟩ : Global) = _
  rw [ofList_toList]

theorem typeLine?_written {body : String} (hn : Recovers name) (hs : Flush body) :
    typeLine? ('%' ::
      (writeName [] name.toList ++ ' ' :: '=' :: ' ' :: ("type".toList ++ ' ' :: body.toList))) =
        some (name, body) := by
  simp only [typeLine?, bind, dropHead?_cons, bind_some, entityName?_append hn (r := ' ' :: _) rfl,
    afterEquals?_written (r := "type".toList ++ ' ' :: body.toList) rfl,
    wordAndBlank?_written "type" hs.head]
  show some (name, String.ofList body.toList) = _
  rw [ofList_toList]

theorem comdatLine?_written {kind : String} (hn : Recovers name) (hne : kind.toList ≠ [])
    (hk : ∀ c ∈ kind.toList, isWord c) (hs : Flush kind) :
    comdatLine? ('$' ::
      (writeName [] name.toList ++ ' ' :: '=' :: ' ' :: ("comdat".toList ++ ' ' :: kind.toList))) =
        some (name, kind) := by
  have hr := run?_append (r := []) hne hk rfl
  rw [append_nil] at hr
  simp only [comdatLine?, bind, dropHead?_cons, bind_some,
    entityName?_append hn (r := ' ' :: _) rfl,
    afterEquals?_written (r := "comdat".toList ++ ' ' :: kind.toList) rfl,
    wordAndBlank?_written "comdat" hs.head, hr]
  show some (name, String.ofList kind.toList) = _
  rw [ofList_toList]

theorem metadataRefs_plain (h : ∀ c ∈ s, c ≠ '!') (r : List Char) :
    metadataRefs (s ++ r) = metadataRefs r := by
  induction s with
  | nil => rfl
  | cons c s ih =>
    obtain ⟨hc, hs⟩ := forall_mem_cons.1 h
    rw [cons_append, metadataRefs, ih hs]
    exact hc

theorem metadataRefs_cons (n : Nat) (hr : r.head?.any isDecimal = false) :
    metadataRefs ('!' :: (natDigits n ++ r)) = n :: metadataRefs r := by
  have hm : ∀ c ∈ natDigits n, c ≠ '!' := by
    rintro c hc rfl
    exact absurd (isAsciiDigit_of_mem_natDigits hc) (by decide)
  rw [metadataRefs, run?_natDigits n hr]
  show digitsValue (natDigits n) :: metadataRefs (natDigits n ++ r) = _
  rw [digitsValue_natDigits, metadataRefs_plain hm]

/-- The text of a list of nodes. -/
def listedIds (ids : List Nat) : List Char :=
  [',', ' '].intercalate (ids.map fun i => '!' :: natDigits i)

theorem listedIds_cons (i j : Nat) (ids : List Nat) :
    listedIds (i :: j :: ids) = '!' :: (natDigits i ++ ',' :: ' ' :: listedIds (j :: ids)) := by
  simp [listedIds]

theorem metadataRefs_written (ids : List Nat) : metadataRefs (listedIds ids) = ids := by
  induction ids with
  | nil => rfl
  | cons i ids ih =>
    cases ids with
    | nil => simpa [listedIds, metadataRefs] using metadataRefs_cons i (r := []) rfl
    | cons j ids =>
      rw [listedIds_cons, metadataRefs_cons i rfl]
      exact congrArg (i :: ·) ((metadataRefs_plain (s := [',', ' ']) (by simp) _).trans ih)

theorem namedMetadataLine?_written (hn : bareName? name.toList = some (name.toList, []))
    (ids : List Nat) :
    namedMetadataLine? ('!' :: (name.toList ++ ' ' :: '=' :: ' ' :: '!' :: '\x7b' ::
      (listedIds ids ++ ['\x7d']))) = some (name, ids) := by
  have hd' (r : List Char) : dropHead? ['!', '\x7b'] ('!' :: '\x7b' :: r) = some r := rfl
  obtain ⟨c, u, hc, hcs, hu, -⟩ := bareName?_eq_some hn
  have hb (r : List Char) : bareName? (name.toList ++ ' ' :: r) = some (name.toList, ' ' :: r) := by
    rw [hc]
    exact bareName?_cons hcs hu rfl
  have he (r : List Char) : afterEquals? (' ' :: '=' :: ' ' :: '!' :: r) = some ('!' :: r) :=
    afterEquals?_written rfl
  simp only [namedMetadataLine?, bind, dropHead?_cons, bind_some, hb, he, hd']
  rw [reverse_append]
  show some (String.ofList name.toList, metadataRefs (reverse (reverse _))) = _
  rw [reverse_reverse, metadataRefs_written, ofList_toList]

/-! ### Lines of entities -/

theorem toList_line (e : Entity) : e.line.toList = match e with
    | .global g => '@' :: (writeName [] g.name.toList ++ ' ' :: '=' :: ' ' :: g.segment.toList)
    | .type name body =>
      '%' :: (writeName [] name.toList ++ ' ' :: '=' :: ' ' ::
        ("type".toList ++ ' ' :: body.toList))
    | .comdat name kind =>
      '$' :: (writeName [] name.toList ++ ' ' :: '=' :: ' ' ::
        ("comdat".toList ++ ' ' :: kind.toList))
    | .attributes n body =>
      "attributes #".toList ++ (natDigits n ++ ' ' :: '=' :: ' ' :: body.toList)
    | .metadata n text => "!".toList ++ (natDigits n ++ ' ' :: '=' :: ' ' :: text.toList)
    | .named name ids => '!' :: (name.toList ++ ' ' :: '=' :: ' ' :: '!' :: '\x7b' ::
      (listedIds ids ++ ['\x7d']))
    | .source v => "source_filename".toList ++ ' ' :: '=' :: ' ' :: ('"' :: v.toList ++ ['"'])
    | .layout v => "target datalayout".toList ++ ' ' :: '=' :: ' ' :: ('"' :: v.toList ++ ['"'])
    | .triple v => "target triple".toList ++ ' ' :: '=' :: ' ' :: ('"' :: v.toList ++ ['"']) := by
  cases e with
  | global g =>
    show (quoteName g.name "@" ++ " = " ++ g.segment).toList = _
    rw [toList_append, toList_append, toList_quoteName "@" _ rfl, append_assoc]
    rfl
  | type name body =>
    show (quoteName name "%" ++ " = type " ++ body).toList = _
    rw [toList_append, toList_append, toList_quoteName "%" _ rfl, append_assoc]
    rfl
  | comdat name kind =>
    show (quoteName name "$" ++ " = comdat " ++ kind).toList = _
    rw [toList_append, toList_append, toList_quoteName "$" _ rfl, append_assoc]
    rfl
  | attributes n body =>
    show ("attributes #" ++ String.ofList (natDigits n) ++ " = " ++ body).toList = _
    simp
  | metadata n text =>
    show ("!" ++ String.ofList (natDigits n) ++ " = " ++ text).toList = _
    simp
  | named name ids =>
    show (IrModule.namedMetadataLine name ids).toList = _
    simp [IrModule.namedMetadataLine, listedIds, Function.comp_def]
  | source v =>
    show ("source_filename = \"" ++ v ++ "\"").toList = _
    simp
  | layout v =>
    show ("target datalayout = \"" ++ v ++ "\"").toList = _
    simp
  | triple v =>
    show ("target triple = \"" ++ v ++ "\"").toList = _
    simp

theorem entity?_line {e : Entity} (hs : e.Sound) (hn : e.Recovers) :
    entity? e.line.toList = some e := by
  rw [toList_line]
  unfold entity? Entity.readers
  cases e with
  | global g =>
    simp only [findSome?_cons, globalLine?_written hn hs, map_some]
  | type name body =>
    simp only [findSome?_cons, typeLine?_written hn hs]
    rfl
  | comdat name kind =>
    simp only [findSome?_cons, comdatLine?_written hn hs.1 hs.2.1 hs.2.2]
    rfl
  | attributes n body =>
    simp only [findSome?_cons, numberedLine?_written "attributes #" n hs]
    rfl
  | metadata n text =>
    simp only [findSome?_cons, numberedLine?_written "!" n hs]
    rfl
  | named name ids =>
    -- a name does not start with a digit, so the line of a list is none of a node
    have hn : numberedLine? "!" ('!' :: (name.toList ++ ' ' :: '=' :: ' ' :: '!' :: '\x7b' ::
        (listedIds ids ++ ['\x7d']))) = none := by
      obtain ⟨c, u, hc, hcs, -⟩ := bareName?_eq_some hs
      have hr (r : List Char) : run? isDecimal (name.toList ++ r) = none := by
        rw [hc]
        exact run?_eq_none.2 (isDecimal_of_isNameStart hcs)
      show (run? isDecimal (name.toList ++ _)).bind _ = none
      rw [hr, Option.bind_none]
    simp only [findSome?_cons, namedMetadataLine?_written hs ids, hn]
    rfl
  | source v =>
    simp only [findSome?_cons, headerValue?_written "source_filename" v, map_some]
    rfl
  | layout v =>
    simp only [findSome?_cons, headerValue?_written "target datalayout" v]
    rfl
  | triple v =>
    simp only [findSome?_cons, headerValue?_written "target triple" v]
    rfl

theorem breakless_natDigits (n : Nat) : Breakless (natDigits n) := fun _ hc =>
  isBreak_of_isNameChar (isNameChar_of_isAsciiDigit (isAsciiDigit_of_mem_natDigits hc))

theorem breakless_ids (ids : List Nat) : Breakless (listedIds ids) := by
  induction ids with
  | nil => exact breakless_nil
  | cons i ids ih =>
    cases ids with
    | nil => simpa [listedIds] using breakless_cons.2 ⟨by decide, breakless_natDigits i⟩
    | cons j ids =>
      rw [listedIds_cons, breakless_cons, breakless_append]
      exact ⟨by decide, breakless_natDigits i,
        breakless_cons.2 ⟨by decide, breakless_cons.2 ⟨by decide, ih⟩⟩⟩

theorem breakless_line {e : Entity} (hs : e.Sound) (hn : e.Recovers) : Breakless e.line.toList := by
  have heq {r : List Char} (hr : Breakless r) : Breakless (' ' :: '=' :: ' ' :: r) :=
    (breakless_append (l := [' ', '=', ' '])).2 ⟨by decide, hr⟩
  have hquote {v : List Char} (hv : Breakless v) : Breakless ('"' :: v ++ ['"']) :=
    breakless_append.2 ⟨breakless_cons.2 ⟨by decide, hv⟩, by decide⟩
  rw [toList_line]
  cases e with
  | global g =>
    rw [breakless_cons, breakless_append]
    exact ⟨by decide, hn.breakless, heq hs.breakless⟩
  | type name body =>
    rw [breakless_cons, breakless_append]
    exact ⟨by decide, hn.breakless,
      heq (breakless_append.2 ⟨by decide, breakless_cons.2 ⟨by decide, hs.breakless⟩⟩)⟩
  | comdat name kind =>
    rw [breakless_cons, breakless_append]
    exact ⟨by decide, hn.breakless,
      heq (breakless_append.2 ⟨by decide, breakless_cons.2 ⟨by decide, hs.2.2.breakless⟩⟩)⟩
  | attributes n body =>
    rw [breakless_append, breakless_append]
    exact ⟨by decide, breakless_natDigits n, heq hs.breakless⟩
  | metadata n text =>
    rw [breakless_append, breakless_append]
    exact ⟨by decide, breakless_natDigits n, heq hs.breakless⟩
  | named name ids =>
    have hname : Breakless name.toList :=
      fun c hc => isBreak_of_isNameChar (bareName?_chars hs c hc)
    rw [breakless_cons, breakless_append]
    refine ⟨by decide, hname, heq (breakless_cons.2 ⟨by decide, breakless_cons.2 ⟨by decide, ?_⟩⟩)⟩
    exact breakless_append.2 ⟨breakless_ids ids, by decide⟩
  | source v => exact breakless_append.2 ⟨by decide, heq (hquote hs)⟩
  | layout v => exact breakless_append.2 ⟨by decide, heq (hquote hs)⟩
  | triple v => exact breakless_append.2 ⟨by decide, heq (hquote hs)⟩

end CallAtlas.Ir
