import CallAtlas.Proofs.Container.Members
import CallAtlas.Proofs.Ir.Records
import CallAtlas.Proofs.Text.Utf8

/-!
# Headers of archive members

A header of a name of at most 16 ASCII characters and of a size of at most ten digits is read as it
was written, `readHeader_buildHeader`; a longer size pushes the mark at the end of the header away,
and the header is taken for damaged, `readHeader_oversize`. What the reader then finds at a member
depends on the name in its header, the table of names and the bytes behind the header, and not on
the rest of the archive: `next_buildMember`.
-/

namespace CallAtlas.Container.Archive

open Text List

variable {archive : String}

variable {body : Bytes} {c : Char} {name s : String} {size : Nat}

/-! ## Fields of a header -/

theorem slice_eq {data u b r : Bytes} {i j : Int} (hd : data = u ++ (b ++ r)) (hi : i = u.length)
    (hj : j = u.length + b.length) : data.slice i j = b := by
  rw [slice_of_nonneg (by omega) (by omega), hd, hi, hj, Int.toNat_natCast, drop_left]
  rw [show ((u.length : Int) + b.length).toNat - u.length = b.length by omega, take_left]

theorem toList_fill (width : Nat) (s : String) :
    fill width s = Bytes.ofText
      (String.ofList (s.toList ++ List.replicate (width - s.toList.length) ' ')) := rfl

theorem ascii_filled (h : ∀ c ∈ s.toList, c.toNat < 0x80) (n : Nat) :
    ∀ c ∈ (String.ofList (s.toList ++ List.replicate n ' ')).toList, c.toNat < 0x80 := by
  intro c hc
  rw [String.toList_ofList, mem_append] at hc
  rcases hc with hc | hc
  · exact h c hc
  · rw [eq_of_mem_replicate hc]
    decide

theorem length_fill (h : ∀ c ∈ s.toList, c.toNat < 0x80) (width : Nat) :
    (fill width s).length = max width s.toList.length := by
  rw [toList_fill, ofText_ascii (ascii_filled h _), length_map, String.toList_ofList, length_append,
    length_replicate]
  omega

theorem decodeAscii_fill (h : ∀ c ∈ s.toList, c.toNat < 0x80) (width : Nat) :
    decodeAscii (fill width s) =
      String.ofList (s.toList ++ List.replicate (width - s.toList.length) ' ') := by
  rw [toList_fill, decodeAscii_ofText (ascii_filled h _)]

theorem decodeAscii?_fill (h : ∀ c ∈ s.toList, c.toNat < 0x80) (width : Nat) :
    decodeAscii? (fill width s) =
      some (String.ofList (s.toList ++ List.replicate (width - s.toList.length) ' ')) := by
  rw [decodeAscii?, decodeAscii_fill h, if_pos]
  rw [toList_fill, ofText_ascii (ascii_filled h _), all_map, all_eq_true]
  intro c hc
  have hlow := ascii_filled h _ c hc
  rw [Function.comp_apply, decide_eq_true_eq]
  show c.toNat % 256 < 128
  omega

theorem mem_fill {width : Nat} {b : UInt8} (h : b ∈ fill width s) (hb : b.toNat < 0x80) :
    Char.ofNat b.toNat ∈ s.toList ∨ Char.ofNat b.toNat = ' ' := by
  have hc := mem_ofText_low h hb
  rw [String.toList_ofList, mem_append] at hc
  exact hc.imp_right eq_of_mem_replicate

theorem dropWhile_reverse {α : Type} [DecidableEq α] {l : List α} {a : α}
    (h : l.getLast? ≠ some a) :
    l.reverse.dropWhile (· = a) = l.reverse := by
  refine dropWhile_eq_self_iff.2 fun hl => ?_
  rw [getLast?_eq_head?_reverse] at h
  simpa [head?_eq_getElem?, getElem?_eq_getElem hl] using h

theorem dropTrailing_append {cs : List Char} (h : cs.getLast? ≠ some c) (n : Nat) :
    dropTrailing c (String.ofList (cs ++ List.replicate n c)) = String.ofList cs := by
  rw [dropTrailing, String.toList_ofList, reverse_append, reverse_replicate,
    dropWhile_append_of_pos fun a ha => decide_eq_true (eq_of_mem_replicate ha),
    dropWhile_reverse h, reverse_reverse]

theorem toList_toString (n : Nat) : (toString n).toList = natDigits n := Nat.toList_repr

theorem ascii_of_isAsciiDigit (h : isAsciiDigit c) : c.toNat < 0x80 := by
  simp only [isAsciiDigit, Bool.and_eq_true, decide_eq_true_eq] at h
  have h2 : c.toNat ≤ 0x39 := h.2
  omega

theorem ascii_toString (n : Nat) : ∀ c ∈ (toString n).toList, c.toNat < 0x80 := by
  intro c hc
  rw [toList_toString] at hc
  exact ascii_of_isAsciiDigit (Ir.isAsciiDigit_of_mem_natDigits hc)

theorem readInt?_natDigits (n : Nat) : readInt? (natDigits n) = some (n : Int) := by
  have hne : natDigits n ≠ [] := Nat.toDigits_ne_nil
  have hread := Ir.readInt?_digits hne fun c => Ir.isDecimal_of_mem_natDigits
  rwa [Ir.digitsValue_natDigits] at hread

theorem isBlank_natDigits {n : Nat} (h : c ∈ natDigits n) : isBlank c = false :=
  Ir.isBare_not_isBlank (Ir.isBare_of_isDecimal (Ir.isDecimal_of_mem_natDigits h))

theorem trim_natDigits (n k : Nat) : trim (natDigits n ++ List.replicate k ' ') = natDigits n := by
  have hleft : trimLeft (natDigits n ++ replicate k ' ') = natDigits n ++ replicate k ' ' := by
    refine Ir.trimLeft_of_head ?_
    rw [head?_append_of_ne_nil _ (show natDigits n ≠ [] from Nat.toDigits_ne_nil),
      Option.any_eq_false]
    exact fun c hc => isBlank_natDigits (mem_of_mem_head? hc)
  have hlast : (natDigits n).getLast?.any isBlank = false := by
    rw [Option.any_eq_false]
    exact fun c hc => isBlank_natDigits (mem_of_getLast? hc)
  rw [trim, hleft, Ir.trimRight_blanks hlast fun c hc => by rw [eq_of_mem_replicate hc]; rfl]

/-! ## One header -/

/-- A name that fits the field of a header. -/
structure FieldName (name : String) : Prop where
  ascii : ∀ c ∈ name.toList, c.toNat < 0x80
  short : name.toList.length ≤ 16
  flush : name.toList.getLast? ≠ some ' '

instance (name : String) : Decidable (FieldName name) :=
  decidable_of_iff (name.toList.all (fun c => c.toNat < 0x80) = true ∧ name.toList.length ≤ 16 ∧
      name.toList.getLast? ≠ some ' ')
    ⟨fun h => ⟨fun c hc => of_decide_eq_true (all_eq_true.1 h.1 c hc), h.2.1, h.2.2⟩,
      fun h => ⟨all_eq_true.2 fun c hc => decide_eq_true (h.ascii c hc), h.short, h.flush⟩⟩

/-- Sizes from here on do not fit the field of a header. -/
def sizeLimit : Nat := 10 ^ 10

theorem length_toString_le {n : Nat} : (toString n).toList.length ≤ 10 ↔ n < sizeLimit := by
  rw [toList_toString]
  exact Nat.length_toDigits_le_iff (by decide) (by decide)

theorem ascii_number {head : String} (hh : ∀ c ∈ head.toList, c.toNat < 0x80) (k : Nat) :
    ∀ c ∈ (head ++ toString k).toList, c.toNat < 0x80 := by
  intro c hc
  rw [String.toList_append] at hc
  exact (mem_append.1 hc).elim (hh c) (ascii_toString k c)

/-- A number may stand behind a few characters. -/
theorem fieldName_number {head : String} (hh : FieldName head) (hl : head.toList.length ≤ 6)
    {k : Nat} (hk : k < sizeLimit) : FieldName (head ++ toString k) := by
  refine ⟨ascii_number hh.ascii k, ?_, ?_⟩
  · have hdigits := length_toString_le.2 hk
    rw [String.toList_append, length_append]
    omega
  · rw [String.toList_append, toList_toString,
      getLast?_append_of_ne_nil _ (show natDigits k ≠ [] from Nat.toDigits_ne_nil)]
    intro hlast
    exact absurd (Ir.isAsciiDigit_of_mem_natDigits (mem_of_getLast? hlast)) (by decide)

/-- The fields that are the same in every header. -/
def constants : Bytes := fill 12 "0" ++ fill 6 "0" ++ fill 6 "0" ++ fill 8 "644"

theorem length_constants : constants.length = 32 := by decide +kernel

def fields (name : String) (size : Nat) : Bytes :=
  fill 16 name ++ constants ++ fill 10 (toString size)

theorem buildHeader_eq (name : String) (size : Nat) :
    buildHeader name size = fields name size ++ [0x60, 0x0A] := by
  simp only [buildHeader, fields, constants, append_assoc]

theorem length_fields (h : ∀ c ∈ name.toList, c.toNat < 0x80) (size : Nat) :
    (fields name size).length = max 16 name.toList.length + 32 +
      max 10 (toString size).toList.length := by
  simp only [fields, length_append, length_fill h, length_fill (ascii_toString size),
    length_constants]

theorem length_buildHeader (hn : FieldName name) (hs : size < sizeLimit) :
    (buildHeader name size).length = headerSize := by
  have hname := hn.short
  have hsize := length_toString_le.2 hs
  rw [buildHeader_eq, length_append, length_fields hn.ascii]
  show _ + 2 = 60
  omega

theorem readHeader_buildHeader (hn : FieldName name) (hs : size < sizeLimit) (pos : Int) :
    readHeader archive pos (buildHeader name size) = .ok ⟨name, size⟩ := by
  have hname : (fill 16 name).length = 16 := by
    rw [length_fill hn.ascii]
    exact max_eq_left hn.short
  have hsize : (fill 10 (toString size)).length = 10 := by
    rw [length_fill (ascii_toString size)]
    exact max_eq_left (length_toString_le.2 hs)
  have hmark : (buildHeader name size).slice 58 60 = [0x60, 0x0A] := by
    refine slice_eq (buildHeader_eq name size) ?_ ?_
    all_goals
      rw [length_fields hn.ascii, max_eq_left hn.short, max_eq_left (length_toString_le.2 hs)]
      rfl
  have hfirst : (buildHeader name size).slice 0 16 = fill 16 name := by
    refine slice_eq (u := []) (r := constants ++ fill 10 (toString size) ++ [0x60, 0x0A]) ?_ rfl ?_
    · simp only [buildHeader_eq, fields, append_assoc, nil_append]
    · rw [hname]
      rfl
  have hlast : (buildHeader name size).slice 48 58 = fill 10 (toString size) := by
    refine slice_eq (u := fill 16 name ++ constants) (r := [0x60, 0x0A]) ?_ ?_ ?_
    · rw [buildHeader_eq, fields, append_assoc]
    · rw [length_append, hname, length_constants]
      rfl
    · rw [length_append, hname, length_constants, hsize]
      rfl
  have hread := readInt?_natDigits size
  obtain ⟨d, ds, hds⟩ : ∃ d ds, natDigits size = d :: ds :=
    exists_cons_of_ne_nil Nat.toDigits_ne_nil
  unfold readHeader
  rw [hmark, if_neg (fun h => h rfl), hfirst, hlast, decodeAscii_fill hn.ascii,
    dropTrailing_append hn.flush,
    decodeAscii?_fill (ascii_toString size), Option.bind_some, String.toList_ofList,
    toList_toString, trim_natDigits, String.ofList_toList]
  rw [hds] at hread ⊢
  dsimp only
  rw [hread]

theorem readHeader_oversize (ha : ∀ c ∈ name.toList, c.toNat < 0x80)
    (hm : Char.ofNat 0x60 ∉ name.toList) (hs : sizeLimit ≤ size) (rest : Bytes) (pos : Int) :
    readHeader archive pos ((buildHeader name size ++ rest).take headerSize) =
      .error (malformed archive "bad archive member header" (some pos)) := by
  have hlong : 58 < (fields name size).length := by
    have := mt length_toString_le.1 (not_lt.2 hs)
    rw [length_fields ha]
    omega
  have hplain : (0x60 : UInt8) ∉ fields name size := by
    have hfix : (0x60 : UInt8) ∉ constants := by decide +kernel
    have hname : (0x60 : UInt8) ∉ fill 16 name :=
      fun h => (mem_fill h (by decide)).elim hm (by decide)
    have hsize : (0x60 : UInt8) ∉ fill 10 (toString size) := by
      intro h
      refine (mem_fill h (by decide)).elim (fun hc => ?_) (by decide)
      rw [toList_toString] at hc
      exact absurd (Ir.isAsciiDigit_of_mem_natDigits hc) (by decide)
    simp only [fields, mem_append, not_or]
    exact ⟨⟨hname, hfix⟩, hsize⟩
  unfold readHeader
  rw [if_pos]
  intro hmark
  rw [slice_of_nonneg (by decide) (by decide)] at hmark
  have hbyte := congrArg (fun s => s[0]?) hmark
  rw [getElem?_take_of_lt (by decide), getElem?_drop, getElem?_take_of_lt (by decide),
    buildHeader_eq,
    append_assoc, show Int.toNat 58 + 0 = 58 from rfl, getElem?_append_left hlong] at hbyte
  exact hplain (mem_of_getElem? hbyte)

/-! ## One member -/

theorem length_buildMember (name : String) (body : Bytes) :
    (buildMember name body).length = (buildHeader name body.length).length + body.length +
      body.length % 2 := by
  rw [buildMember, length_append, length_append]
  split_ifs with h
  · rw [h]
    rfl
  · rw [show body.length % 2 = 0 by omega]
    rfl

theorem headerSize_le_buildMember (h : ∀ c ∈ name.toList, c.toNat < 0x80) (body : Bytes) :
    headerSize ≤ (buildMember name body).length := by
  have hfields := length_fields h body.length
  rw [length_buildMember, buildHeader_eq, length_append]
  show 60 ≤ _ + 2 + _ + _
  omega

/-- What is found behind a header with a name, and the table of names from there on. -/
def classify (names : Bytes) (name : String) (start : Int) (body : Bytes) :
    Except Failure (Bytes × Found) :=
  if name = "//" then .ok (body, .table)
  else (placeMember names name start body).map fun m =>
    (names, if symbolTables.contains m.name ||
      symbolTables.contains name then .table else .member m)

theorem classify_member {names : Bytes} {start : Int} {m : Member} (ht : name ≠ "//")
    (hp : placeMember names name start body = .ok m) (hm : m.name ∉ symbolTables)
    (hn : name ∉ symbolTables) :
    classify names name start body = .ok (names, .member m) := by
  have hno : ¬(symbolTables.contains m.name || symbolTables.contains name) = true := by
    rw [Bool.or_eq_true, contains_iff_mem, contains_iff_mem]
    exact not_or.2 ⟨hm, hn⟩
  rw [classify, if_neg ht, hp, Except.map, if_neg hno]

theorem next_buildMember (hn : FieldName name) (hs : body.length < sizeLimit)
    (u rest names : Bytes) :
    next archive (u ++ (buildMember name body ++ rest)) ⟨u.length, names⟩ =
      (classify names name (u.length + headerSize) body).map fun p =>
        (⟨(u ++ buildMember name body).length, p.1⟩, p.2) := by
  have hlen := length_buildHeader hn hs
  obtain ⟨pad, hpad⟩ : ∃ pad, buildMember name body = buildHeader name body.length ++
      (body ++ pad) :=
    ⟨_, append_assoc ..⟩
  have hheader : (u ++ (buildMember name body ++ rest)).slice u.length (u.length + headerSize) =
      buildHeader name body.length := by
    refine slice_eq (r := body ++ pad ++ rest) ?_ rfl ?_
    · rw [hpad, append_assoc]
    · rw [hlen]
  have hbody : (u ++ (buildMember name body ++ rest)).slice (u.length + headerSize)
      (u.length + headerSize + body.length) = body := by
    refine slice_eq (u := u ++ buildHeader name body.length) (r := pad ++ rest) ?_ ?_ ?_
    · rw [hpad]
      simp only [append_assoc]
    · rw [length_append, hlen, Nat.cast_add]
    · rw [length_append, hlen, Nat.cast_add]
  have hroom : ¬((u ++ (buildMember name body ++ rest)).length : Int) < u.length + headerSize +
      body.length := by
    rw [length_append, length_append, length_buildMember]
    omega
  have hafter : (u.length + headerSize + body.length + (body.length : Int).emod 2 : Int) =
      ((u ++ buildMember name body).length : Nat) := by
    rw [length_append, length_buildMember]
    show _ + (body.length : Int) % 2 = _
    omega
  unfold next
  rw [hheader, readHeader_buildHeader hn hs]
  simp only [bind, Except.bind]
  rw [if_neg hroom, hbody, hafter]
  unfold classify
  by_cases ht : name = "//"
  · rw [if_pos ht, if_pos ht]
    rfl
  · rw [if_neg ht, if_neg ht]
    cases placeMember names name (u.length + headerSize) body with
    | error e => rfl
    | ok m =>
      dsimp only [Except.map]
      split_ifs <;> rfl

theorem next_oversize (ha : ∀ c ∈ name.toList, c.toNat < 0x80) (hm : Char.ofNat 0x60 ∉ name.toList)
    (hs : sizeLimit ≤ body.length) (u rest names : Bytes) :
    next archive (u ++ (buildMember name body ++ rest)) ⟨u.length, names⟩ =
      .error (malformed archive "bad archive member header" (some u.length)) := by
  have hheader : (u ++ (buildMember name body ++ rest)).slice u.length (u.length + headerSize) =
      (buildHeader name body.length ++
        (body ++ (if body.length % 2 = 1 then [0x0A] else []) ++ rest)).take headerSize := by
    rw [slice_of_nonneg (by omega) (by omega), Int.toNat_natCast, drop_left,
      show ((u.length : Int) + headerSize).toNat - u.length = headerSize by omega, buildMember]
    simp only [append_assoc]
  unfold next
  rw [hheader, readHeader_oversize ha hm hs]
  rfl

end CallAtlas.Container.Archive
