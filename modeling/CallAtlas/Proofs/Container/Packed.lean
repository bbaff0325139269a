import CallAtlas.Proofs.Container.Header

/-!
# Archives read back

A written member is `Kept` or `Lost` by the reader wherever it stands, and the reading of an archive
keeps the members up to the first lost one: `readFrom_entries`. With a table of names, the only name
that is lost is `#1`: its header field `#1/` announces a name before the data. With the names before
the data, those members are lost that reach `sizeLimit` together with their names. Otherwise the
members come back: `read_build`.
-/

namespace CallAtlas.Container.Archive

open Text List Bytes

variable {archive : String} {b d u : Bytes} {m : String × Bytes}

/-! ## A sequence of members -/

/-- A member as it is written: the name in its header, the name before its data, if it stands there,
and what is meant by the two. -/
structure Entry where
  label : String
  stored : Bytes
  name : String
  data : Bytes

def Entry.bytes (e : Entry) : Bytes := buildMember e.label (e.stored ++ e.data)

/-- The member that a written one stands for, at a place in the archive. -/
def Entry.member (e : Entry) (pos : Nat) : Member :=
  ⟨e.name, pos + headerSize + e.stored.length, e.data⟩

/-- The reader finds the member wherever it stands, and goes on behind it. -/
structure Entry.Kept (names : Bytes) (e : Entry) : Prop where
  label : FieldName e.label
  size : (e.stored ++ e.data).length < sizeLimit
  found : ∀ start, classify names e.label start (e.stored ++ e.data) =
    .ok (names, .member ⟨e.name, start + e.stored.length, e.data⟩)

/-- The reader complains wherever the member stands. -/
structure Entry.Lost (archive : String) (names : Bytes) (e : Entry) : Prop where
  room : headerSize ≤ e.bytes.length
  complaint : ∀ u rest : Bytes,
    ∃ f, next archive (u ++ (e.bytes ++ rest)) ⟨u.length, names⟩ = .error f

variable {names : Bytes} {e : Entry} {es : List Entry} {p : Entry → Bool}

theorem Entry.Kept.length (h : e.Kept names) :
    e.bytes.length = headerSize + (e.stored.length + e.data.length) +
      (e.stored.length + e.data.length) % 2 := by
  rw [bytes, length_buildMember, length_buildHeader h.label h.size, length_append]

theorem Entry.Kept.next (h : e.Kept names) (u rest : Bytes) :
    next archive (u ++ (e.bytes ++ rest)) ⟨u.length, names⟩ =
      .ok (⟨(u ++ e.bytes).length, names⟩, .member (e.member u.length)) := by
  rw [bytes, next_buildMember h.label h.size, h.found]
  rfl

def placedFrom : Nat → List Entry → List Member
  | _, [] => []
  | pos, e :: es => e.member pos :: placedFrom (pos + e.bytes.length) es

theorem map_placedFrom (pos : Nat) (es : List Entry) :
    (placedFrom pos es).map (fun m => (m.name, m.data)) = es.map fun e => (e.name, e.data) := by
  induction es generalizing pos with
  | nil => rfl
  | cons e es ih => rw [placedFrom, map_cons, ih]; rfl

theorem cutFrom_placedFrom (h : ∀ e ∈ es, e.Kept names) (u : Bytes) :
    ∀ m ∈ placedFrom u.length es, m.CutFrom (u ++ es.flatMap Entry.bytes) := by
  induction es generalizing u with
  | nil => exact fun m hm => absurd hm not_mem_nil
  | cons e es ih =>
    obtain ⟨he, hes⟩ := forall_mem_cons.1 h
    rw [flatMap_cons]
    refine forall_mem_cons.2 ⟨?_, ?_⟩
    · have hstop : (e.member u.length).stop = u.length + headerSize + e.stored.length +
          e.data.length := rfl
      have hstart : (e.member u.length).offset = u.length + headerSize + e.stored.length := rfl
      refine ⟨by omega, ?_, ?_⟩
      · rw [length_append, length_append, he.length]
        omega
      · obtain ⟨pad, hpad⟩ : ∃ pad, e.bytes =
            buildHeader e.label (e.stored ++ e.data).length ++ ((e.stored ++ e.data) ++ pad) :=
          ⟨_, append_assoc ..⟩
        have hlen := length_buildHeader he.label he.size
        refine (slice_eq (u := u ++ buildHeader e.label (e.stored ++ e.data).length ++ e.stored)
          (r := pad ++ es.flatMap Entry.bytes) ?_ ?_ ?_).symm
        · rw [hpad]
          show _ = _ ++ (e.data ++ _)
          simp only [append_assoc]
        · rw [length_append, length_append]
          omega
        · rw [length_append, length_append]
          show _ = _ + (e.data.length : Int)
          omega
    · have := ih hes (u ++ e.bytes)
      rwa [length_append, append_assoc] at this

theorem offset_placedFrom {pos : Nat} {m : Member} (h : m ∈ placedFrom pos es) :
    (pos : Int) ≤ m.offset := by
  induction es generalizing pos with
  | nil => cases h
  | cons e es ih =>
    rcases mem_cons.1 h with rfl | h
    · show (pos : Int) ≤ pos + headerSize + e.stored.length
      omega
    · have := ih h
      omega

theorem placedFrom_apart (h : ∀ e ∈ es, e.Kept names) (pos : Nat) :
    (placedFrom pos es).Pairwise fun a b => a.stop ≤ b.offset := by
  induction es generalizing pos with
  | nil => exact .nil
  | cons e es ih =>
    obtain ⟨he, hes⟩ := forall_mem_cons.1 h
    refine .cons (fun m hm => ?_) (ih hes _)
    have hstop : (e.member pos).stop = pos + headerSize + e.stored.length + e.data.length := rfl
    have hm := offset_placedFrom hm
    rw [he.length] at hm
    omega

theorem readFrom_entries (hk : ∀ e ∈ es, p e → e.Kept names)
    (hl : ∀ e ∈ es, p e = false → e.Lost archive names) (u : Bytes) {fuel : Nat}
    (hf : (es.flatMap Entry.bytes).length < fuel) :
    ∃ ending, readFrom archive (u ++ es.flatMap Entry.bytes) fuel ⟨u.length, names⟩ =
        (placedFrom u.length (es.takeWhile p), ending) ∧ (ending = .complete ↔ ∀ e ∈ es, p e) := by
  induction es generalizing u fuel with
  | nil =>
    obtain ⟨fuel, rfl⟩ := Nat.exists_eq_add_of_lt hf
    refine ⟨.complete, ?_, by simp⟩
    rw [flatMap_nil, append_nil, readFrom, if_pos]
    · rfl
    · show (u.length : Int) < u.length + headerSize
      unfold headerSize
      omega
  | cons e es ih =>
    obtain ⟨hke, hkes⟩ := forall_mem_cons.1 hk
    obtain ⟨hle, hles⟩ := forall_mem_cons.1 hl
    rw [flatMap_cons, length_append] at hf
    have hroom : headerSize ≤ e.bytes.length := by
      cases hp : p e with
      | true =>
        rw [(hke hp).length]
        omega
      | false => exact (hle hp).room
    have hfits : ¬((u ++ (e.bytes ++ es.flatMap Entry.bytes)).length : Int) < u.length +
        headerSize := by
      rw [length_append, length_append]
      omega
    obtain ⟨fuel, rfl⟩ : ∃ n, fuel = n + 1 := Nat.exists_eq_succ_of_ne_zero (by omega)
    rw [flatMap_cons, readFrom, if_neg hfits]
    cases hp : p e with
    | true =>
      obtain ⟨ending, hread, hend⟩ :=
        ih hkes hles (u ++ e.bytes) (show _ < fuel by unfold headerSize at hroom; omega)
      rw [append_assoc] at hread
      rw [(hke hp).next]
      dsimp only
      rw [hread, takeWhile_cons_of_pos hp, placedFrom, ← length_append, forall_mem_cons]
      exact ⟨ending, rfl, hend.trans ⟨fun h => ⟨hp, h⟩, And.right⟩⟩
    | false =>
      obtain ⟨f, hnext⟩ := (hle hp).complaint u (es.flatMap Entry.bytes)
      rw [hnext, takeWhile_cons_of_neg (by rw [hp]; simp), forall_mem_cons, hp]
      exact ⟨.failed f, rfl, by simp⟩

/-- The reading of an archive comes to its end and finds these members in this order, with the
places of their data. -/
def Restored (archive : String) (data : Bytes) (members : List (String × Bytes)) : Prop :=
  ∃ found, read data archive = (found, .complete) ∧
    found.map (fun m => (m.name, m.data)) = members ∧
    (∀ m ∈ found, m.CutFrom data) ∧ found.Pairwise fun a b => a.stop ≤ b.offset

/-! ## Tables -/

/-- The reader comes to what stands behind these bytes, with this table of names. -/
def Reaches (archive : String) (u names : Bytes) : Prop :=
  ∀ rest : Bytes, ∃ fuel, rest.length < fuel ∧
    read (u ++ rest) archive = readFrom archive (u ++ rest) fuel ⟨u.length, names⟩

theorem reaches_magic : Reaches archive archiveMagic [] := by
  intro rest
  refine ⟨headerBound (archiveMagic ++ rest), ?_, ?_⟩
  · rw [headerBound, length_append]
    omega
  · rfl

theorem Reaches.turn (h : Reaches archive u names) (hb : headerSize ≤ b.length) (rest : Bytes) :
    ∃ fuel, rest.length < fuel ∧ ¬((u ++ (b ++ rest)).length : Int) < u.length + headerSize ∧
      read (u ++ (b ++ rest)) archive = readFrom archive (u ++ (b ++ rest)) (fuel + 1) ⟨u.length,
        names⟩ := by
  obtain ⟨fuel, hf, hread⟩ := h (b ++ rest)
  rw [length_append] at hf
  obtain ⟨fuel, rfl⟩ : ∃ n, fuel = n + 1 := Nat.exists_eq_succ_of_ne_zero (by omega)
  refine ⟨fuel, ?_, ?_, hread⟩
  · unfold headerSize at hb
    omega
  · rw [length_append, length_append]
    omega

theorem Reaches.table {names' : Bytes} (h : Reaches archive u names) (hb : headerSize ≤ b.length)
    (hn : ∀ rest, next archive (u ++ (b ++ rest)) ⟨u.length, names⟩ =
      .ok (⟨(u ++ b).length, names'⟩, .table)) :
    Reaches archive (u ++ b) names' := by
  intro rest
  obtain ⟨fuel, hf, hroom, hread⟩ := h.turn hb rest
  refine ⟨fuel, hf, ?_⟩
  rw [append_assoc, hread, readFrom, if_neg hroom, hn]

theorem Reaches.complaint {f : Failure} (h : Reaches archive u names) (hb : headerSize ≤ b.length)
    (rest : Bytes) (hn : next archive (u ++ (b ++ rest)) ⟨u.length, names⟩ = .error f) :
    read (u ++ (b ++ rest)) archive = ([], .failed f) := by
  obtain ⟨fuel, -, hroom, hread⟩ := h.turn hb rest
  rw [hread, readFrom, if_neg hroom, hn]

theorem Reaches.restored_iff (h : Reaches archive u names)
    (hk : ∀ e ∈ es, p e → e.Kept names) (hl : ∀ e ∈ es, p e = false → e.Lost archive names) :
    Restored archive (u ++ es.flatMap Entry.bytes) (es.map fun e => (e.name, e.data)) ↔
    ∀ e ∈ es, p e := by
  obtain ⟨fuel, hf, hr⟩ := h (es.flatMap Entry.bytes)
  obtain ⟨ending, hread, hend⟩ := readFrom_entries hk hl u hf
  rw [← hr] at hread
  constructor
  · rintro ⟨found, hfound, -⟩
    exact hend.1 (congrArg Prod.snd (hread.symm.trans hfound))
  · intro hall
    have hkept : ∀ e ∈ es, e.Kept names := fun e he => hk e he (hall e he)
    rw [hend.2 hall, takeWhile_eq_self_iff.2 hall] at hread
    exact ⟨_, hread, map_placedFrom _ _, cutFrom_placedFrom hkept u, placedFrom_apart hkept _⟩

/-! ## Names in a table -/

/-- A name that a table of names can hold. -/
structure TableName (n : String) : Prop where
  nonempty : n ≠ ""
  plain : ∀ c ∈ n.toList, c.toNat < 0x80 ∧ c ≠ '/' ∧ c ≠ '\n'
  member : n ∉ symbolTables

instance (n : String) : Decidable (TableName n) :=
  decidable_of_iff (n ≠ "" ∧ n.toList.all (fun c => c.toNat < 0x80 ∧ c ≠ '/' ∧ c ≠ '\n') ∧
    n ∉ symbolTables)
    ⟨fun h => ⟨h.1, fun c hc => of_decide_eq_true (all_eq_true.1 h.2.1 c hc), h.2.2⟩,
      fun h => ⟨h.nonempty, all_eq_true.2 fun c hc => decide_eq_true (h.plain c hc), h.member⟩⟩

/-- What stands in the header for a name: the name itself and a slash, or its place in the table of
names. -/
def Labels (table : Bytes) (n label : String) : Prop :=
  n.toList.length ≤ 15 ∧ label = n ++ "/" ∨
    15 < n.toList.length ∧ ∃ v w, table = v ++ (ofText n ++ 0x2F :: 0x0A :: w) ∧
    label = "/" ++ toString v.length

theorem shortNames_labels (ns : List String) (table : Bytes) :
    (∃ r, (shortNames ns table).2 = table ++ r) ∧
      List.Forall₂ (Labels (shortNames ns table).2) ns (shortNames ns table).1 := by
  induction ns generalizing table with
  | nil => exact ⟨⟨[], (append_nil _).symm⟩, .nil⟩
  | cons n ns ih =>
    rw [shortNames]
    split_ifs with hlong
    · obtain ⟨⟨r, hr⟩, hall⟩ := ih (table ++ ofText n ++ [0x2F, 0x0A])
      have hr' : (shortNames ns (table ++ ofText n ++ [0x2F, 0x0A])).2 =
          table ++ (ofText n ++ 0x2F :: 0x0A :: r) := by
        rw [hr]
        simp only [append_assoc, cons_append, nil_append]
      exact ⟨⟨_, hr'⟩, .cons (.inr ⟨by rwa [String.length_toList], table, r, hr', rfl⟩) hall⟩
    · obtain ⟨hr, hall⟩ := ih table
      refine ⟨hr, .cons (.inl ⟨?_, rfl⟩) hall⟩
      rw [String.length_toList]
      omega

variable {n label : String}

theorem TableName.takeWhile (hn : TableName n) :
    (n.toList ++ ['/']).takeWhile (· ≠ '/') = n.toList := by
  rw [takeWhile_append_of_pos fun c hc => decide_eq_true (hn.plain c hc).2.1,
    takeWhile_cons_of_neg (by simp), append_nil]

theorem TableName.toList_ne_nil (hn : TableName n) : n.toList ≠ [] := fun h =>
  hn.nonempty (String.toList_eq_nil_iff.1 h)

theorem toList_slash (n : String) : (n ++ "/").toList = n.toList ++ ['/'] := String.toList_append

theorem toList_place (k : Nat) : ("/" ++ toString k).toList = '/' :: natDigits k := by
  rw [String.toList_append, toList_toString]
  rfl

theorem TableName.slash_not_mem (hn : TableName n) : n ++ "/" ∉ symbolTables := by
  have hall : ∀ t ∈ symbolTables, t.toList.takeWhile (· ≠ '/') = [] ∨
      t.toList.getLast? ≠ some '/' := by simp [symbolTables]
  intro h
  rcases hall _ h with h | h
  · rw [toList_slash, hn.takeWhile] at h
    exact hn.toList_ne_nil h
  · exact h (by rw [toList_slash, getLast?_concat])

theorem place_not_mem (k : Nat) : "/" ++ toString k ∉ symbolTables := by
  have hall : ∀ t ∈ symbolTables, t.toList.tail = [] ∨ ¬∀ c ∈ t.toList.tail, isAsciiDigit c := by
    simp [symbolTables, isAsciiDigit]
  intro h
  have h := hall _ h
  rw [toList_place] at h
  exact h.elim Nat.toDigits_ne_nil fun h => h fun c => Ir.isAsciiDigit_of_mem_natDigits

theorem longName_table (hn : TableName n) (v w : Bytes) :
    longName (v ++ (ofText n ++ 0x2F :: 0x0A :: w)) v.length = n := by
  have hline : ((ofText n ++ 0x2F :: 0x0A :: w).takeWhile (· ≠ 0x0A)) = ofText (n ++ "/") := by
    have hslash : ofText "/" = [0x2F] := by decide +kernel
    rw [takeWhile_append_of_pos, takeWhile_cons_of_pos (by decide),
      takeWhile_cons_of_neg (by decide), ofText_append, hslash]
    · intro b hb
      refine decide_eq_true ?_
      rintro rfl
      exact (hn.plain _ (mem_ofText_low hb (by decide))).2.2 rfl
  have hlast : n.toList.getLast? ≠ some '/' := fun h => (hn.plain _ (mem_of_getLast? h)).2.1 rfl
  have hslash : n ++ "/" = String.ofList (n.toList ++ replicate 1 '/') :=
    String.toList_inj.1 (by rw [toList_slash, String.toList_ofList]; rfl)
  rw [longName, drop_left, hline, decode_ofText, hslash, dropTrailing_append hlast,
    String.ofList_toList]

theorem classify_place (hn : TableName n) {v w : Bytes}
    (hnames : names = v ++ (ofText n ++ 0x2F :: 0x0A :: w)) (start : Int) (d : Bytes) :
    classify names ("/" ++ toString v.length) start d = .ok (names, .member ⟨n, start, d⟩) := by
  have hdigits : natDigits v.length ≠ [] ∧ (natDigits v.length).all isAsciiDigit :=
    ⟨Nat.toDigits_ne_nil, all_eq_true.2 fun c hc => Ir.isAsciiDigit_of_mem_natDigits hc⟩
  have htable : "/" ++ toString v.length ≠ "//" := by
    intro h
    have h := congrArg String.toList h
    rw [toList_place] at h
    rw [(cons.inj h).2] at hdigits
    exact absurd hdigits.2 (by decide)
  have hplace : placeMember names ("/" ++ toString v.length) start d = .ok ⟨n, start, d⟩ := by
    unfold placeMember
    rw [toList_place]
    split
    · next ds hds => exact absurd (cons.inj hds).1 (by decide)
    · next ds hds =>
      rw [← (cons.inj hds).2, if_pos hdigits, Ir.digitsValue_natDigits, hnames, longName_table hn]
    · next hno => exact absurd rfl (hno _)
  exact classify_member htable hplace hn.member (place_not_mem _)

theorem TableName.slash_ne (hn : TableName n) : n ++ "/" ≠ "//" := by
  intro h
  have hcut := hn.takeWhile
  rw [← toList_slash, h] at hcut
  exact hn.toList_ne_nil hcut.symm

theorem classify_slash (hn : TableName n) (h1 : n ≠ "#1") (start : Int) (d : Bytes) :
    classify names (n ++ "/") start d = .ok (names, .member ⟨n, start, d⟩) := by
  have hcut := hn.takeWhile
  have hplace : placeMember names (n ++ "/") start d = .ok ⟨n, start, d⟩ := by
    unfold placeMember
    rw [toList_slash]
    split
    · next ds hds =>
      rw [hds] at hcut
      exact absurd (String.toList_inj.1 hcut.symm) h1
    · next ds hds =>
      rw [hds] at hcut
      exact absurd hcut.symm hn.toList_ne_nil
    · rw [if_pos getLast?_concat, dropLast_concat, String.ofList_toList]
  exact classify_member hn.slash_ne hplace hn.member hn.slash_not_mem

theorem TableName.fieldName (hn : TableName n) (hs : n.toList.length ≤ 15) :
    FieldName (n ++ "/") := by
  refine ⟨?_, ?_, ?_⟩
  · rw [toList_slash]
    exact forall_mem_append.2 ⟨fun c hc => (hn.plain c hc).1, forall_mem_singleton.2 (by decide)⟩
  · rw [toList_slash, length_append]
    exact Nat.succ_le_succ hs
  · rw [toList_slash, getLast?_concat]
    decide

theorem kept_labels (hn : TableName n) (h1 : n ≠ "#1") (hl : Labels names n label)
    (ht : names.length < sizeLimit)
    (hd : d.length < sizeLimit) : Entry.Kept names ⟨label, [], n, d⟩ := by
  rcases hl with ⟨hs, rfl⟩ | ⟨-, v, w, hv, rfl⟩
  · refine ⟨hn.fieldName hs, hd, fun start => ?_⟩
    rw [length_nil, Nat.cast_zero, add_zero]
    exact classify_slash hn h1 start d
  · have hlen := congrArg length hv
    rw [length_append] at hlen
    refine ⟨fieldName_number (show FieldName "/" by decide) (by decide) (by omega), hd,
      fun start => ?_⟩
    rw [length_nil, Nat.cast_zero, add_zero]
    exact classify_place hn hv start d

theorem lost_labels (hn : TableName "#1") (hl : Labels names "#1" label)
    (hd : d.length < sizeLimit) :
    Entry.Lost archive names ⟨label, [], "#1", d⟩ := by
  rcases hl with ⟨hs, rfl⟩ | ⟨hs, -⟩
  · have hfield := hn.fieldName hs
    refine ⟨headerSize_le_buildMember hfield.ascii d, fun u rest => ⟨.notInteger, ?_⟩⟩
    show next archive (u ++ (buildMember ("#1" ++ "/") d ++ rest)) ⟨u.length, names⟩ = _
    rw [next_buildMember hfield hd]
    rfl
  · exact absurd hs (by decide)

/-- The members of an archive with a table of names, as they are written. -/
def tableEntries (members : List (String × Bytes)) : List Entry :=
  ((shortNames (members.map Prod.fst) []).1.zip members).map fun p => ⟨p.1, [], p.2.1, p.2.2⟩

/-- The table of the names that do not fit into headers. -/
def nameTable (members : List (String × Bytes)) : Bytes := (shortNames (members.map Prod.fst) []).2

def tableHead (table : Bytes) : Bytes :=
  archiveMagic ++ (buildMember "/" (zeros 4) ++ if table.isEmpty then []
    else buildMember "//" table)

variable {members : List (String × Bytes)}

theorem build_table (members : List (String × Bytes)) :
    build members false = tableHead (nameTable members) ++
      (tableEntries members).flatMap Entry.bytes := by
  have hentries : (tableEntries members).flatMap Entry.bytes =
      ((shortNames (members.map Prod.fst) []).1.zip members).flatMap fun p =>
        buildMember p.1 p.2.2 :=
    flatMap_map ..
  rw [hentries, tableHead, append_assoc]
  rfl

theorem mem_tableEntries {e : Entry} (h : e ∈ tableEntries members) :
    ∃ m ∈ members, ∃ label, Labels (nameTable members) m.1 label ∧ e = ⟨label, [], m.1, m.2⟩ := by
  obtain ⟨⟨label, m⟩, hp, rfl⟩ := mem_map.1 h
  have hall := (shortNames_labels (members.map Prod.fst) []).2
  rw [forall₂_map_left_iff] at hall
  exact ⟨m, (of_mem_zip hp).2, label, (forall₂_iff_zip.1 hall.flip).2 hp, rfl⟩

theorem map_tableEntries (members : List (String × Bytes)) :
    (tableEntries members).map (fun e => (e.name, e.data)) = members := by
  have hlen := (shortNames_labels (members.map Prod.fst) []).2.length_eq
  rw [length_map] at hlen
  rw [tableEntries, map_map]
  exact map_snd_zip hlen.le

theorem reaches_symbols : Reaches archive (archiveMagic ++ buildMember "/" (zeros 4)) [] := by
  have hslash : FieldName "/" := by decide
  refine reaches_magic.table (headerSize_le_buildMember hslash.ascii _) fun rest => ?_
  rw [next_buildMember hslash (by decide)]
  rfl

theorem reaches_tableHead {table : Bytes} (ht : table.length < sizeLimit) :
    Reaches archive (tableHead table) table := by
  have hslashes : FieldName "//" := by decide
  rw [tableHead, ← append_assoc]
  cases hempty : table.isEmpty with
  | true =>
    rw [if_pos rfl, append_nil, isEmpty_iff.1 hempty]
    exact reaches_symbols
  | false =>
    rw [if_neg (by decide)]
    refine reaches_symbols.table (headerSize_le_buildMember hslashes.ascii _) fun rest => ?_
    rw [next_buildMember hslashes ht]
    rfl

/-- A table of names that is too large ends the reading before the members. -/
theorem read_tableHead {table : Bytes} (ht : sizeLimit ≤ table.length) (rest : Bytes) :
    ∃ f, read (tableHead table ++ rest) archive = ([], .failed f) := by
  have hslashes : FieldName "//" := by decide
  have hempty : table.isEmpty = false := by
    cases table with
    | nil => exact absurd ht (by decide)
    | cons b r => rfl
  have hhead : tableHead table ++ rest =
      archiveMagic ++ buildMember "/" (zeros 4) ++ (buildMember "//" table ++ rest) := by
    rw [tableHead, hempty, if_neg (by decide), ← append_assoc, append_assoc]
  rw [hhead]
  exact ⟨_, reaches_symbols.complaint (headerSize_le_buildMember hslashes.ascii _) rest
    (next_oversize hslashes.ascii (by decide) ht _ rest [])⟩

theorem restored_table_iff (hs : ∀ m ∈ members, m.2.length < sizeLimit)
    (hn : ∀ m ∈ members, TableName m.1) :
    Restored archive (build members false) members ↔
      (∀ m ∈ members, m.1 ≠ "#1") ∧ (nameTable members).length < sizeLimit := by
  rw [build_table]
  by_cases ht : (nameTable members).length < sizeLimit
  · have hreach : Reaches archive (tableHead (nameTable members)) (nameTable members) :=
      reaches_tableHead ht
    have hkept : ∀ e ∈ tableEntries members, decide (e.name ≠ "#1") →
        e.Kept (nameTable members) := by
      intro e he hp
      obtain ⟨m, hm, label, hl, rfl⟩ := mem_tableEntries he
      exact kept_labels (hn m hm) (of_decide_eq_true hp) hl ht (hs m hm)
    have hlost : ∀ e ∈ tableEntries members, decide (e.name ≠ "#1") = false →
        e.Lost archive (nameTable members) := by
      intro e he hp
      obtain ⟨⟨n, d⟩, hm, label, hl, rfl⟩ := mem_tableEntries he
      obtain rfl : n = "#1" := not_not.1 (of_decide_eq_false hp)
      exact lost_labels (hn _ hm) hl (hs _ hm)
    have hiff := hreach.restored_iff hkept hlost
    rw [map_tableEntries] at hiff
    rw [hiff, and_iff_left ht]
    constructor
    · intro hall m hm
      rw [← map_tableEntries members] at hm
      obtain ⟨e, he, rfl⟩ := mem_map.1 hm
      exact of_decide_eq_true (hall e he)
    · intro hall e he
      obtain ⟨m, hm, label, -, rfl⟩ := mem_tableEntries he
      exact decide_eq_true (hall m hm)
  · constructor
    · rintro ⟨found, hfound, -⟩
      obtain ⟨f, hread⟩ := read_tableHead (not_lt.1 ht) ((tableEntries members).flatMap Entry.bytes)
      rw [hread] at hfound
      cases congrArg Prod.snd hfound
    · exact fun h => absurd h.2 ht

/-! ## Names before the data -/

/-- A name that can stand before the data. -/
@[mk_iff] structure StoredName (n : String) : Prop where
  flush : n.toList.getLast? ≠ some '\x00'
  member : n ∉ symbolTables

instance (n : String) : Decidable (StoredName n) := decidable_of_iff' _ (storedName_iff ..)

theorem getLast?_ofText (h : n.toList.getLast? ≠ some '\x00') : (ofText n).getLast? ≠ some 0 := by
  intro hlast
  rw [ofText_eq] at hlast
  rcases eq_nil_or_concat' n.toList with hnil | ⟨cs, c, hcs⟩
  · rw [hnil] at hlast
    cases hlast
  · rw [hcs, getLast?_concat] at h
    rw [hcs, flatMap_append, flatMap_singleton,
      getLast?_append_of_ne_nil _ String.utf8EncodeChar_ne_nil]
      at hlast
    have hmem := mem_of_getLast? hlast
    rcases encode_low c with ⟨hlow, he⟩ | ⟨-, hall⟩
    · rw [he, mem_singleton] at hmem
      have hzero := congrArg UInt8.toNat hmem
      rw [UInt8.toNat_ofNat'] at hzero
      refine h (congrArg some (Char.toNat_inj.1 ?_))
      show c.toNat = 0
      have : UInt8.toNat 0 = 0 := rfl
      omega
    · exact absurd (hall 0 hmem) (by decide)

theorem toList_announced (k : Nat) :
    ("#1/" ++ toString k).toList = '#' :: '1' :: '/' :: natDigits k := by
  rw [String.toList_append, toList_toString]
  rfl

theorem classify_announced (hn : StoredName n) (start : Int) (d : Bytes) :
    classify names ("#1/" ++ toString (ofText n).length) start (ofText n ++ d) =
      .ok (names, .member ⟨n, start + (ofText n).length, d⟩) := by
  have htext := toList_announced (ofText n).length
  have hname : (ofText n ++ d).slice 0 (ofText n).length = ofText n :=
    slice_eq rfl rfl (by rw [length_nil, Nat.cast_zero, zero_add])
  have hdata : (ofText n ++ d).slice (ofText n).length (ofText n ++ d).length = d :=
    slice_eq (by rw [append_nil]) rfl (by rw [length_append, Nat.cast_add])
  refine classify_member (fun h => ?_) ?_ hn.member fun h => ?_
  · rw [h] at htext
    exact absurd (cons.inj htext).1 (by decide)
  · unfold placeMember
    rw [htext]
    split
    · next ds hds =>
      rw [← (cons.inj (cons.inj (cons.inj hds).2).2).2, readInt?_natDigits]
      dsimp only
      rw [hname, hdata, dropWhile_reverse (getLast?_ofText hn.flush), reverse_reverse,
        decode_ofText]
    · next ds hds => exact absurd (cons.inj hds).1 (by decide)
    · next hno _ => exact absurd rfl (hno _)
  · have hall : ∀ t ∈ symbolTables, t.toList.head? ≠ some '#' := by simp [symbolTables]
    exact hall _ h (by rw [htext, head?_cons])

/-- The members of an archive with the names before the data, as they are written. -/
def storedEntry (m : String × Bytes) : Entry :=
  ⟨"#1/" ++ toString (ofText m.1).length, ofText m.1, m.1, m.2⟩

theorem kept_stored (hn : StoredName m.1)
    (hs : (ofText m.1).length + m.2.length < sizeLimit) : (storedEntry m).Kept names := by
  have hsize : (ofText m.1 ++ m.2).length < sizeLimit := by rwa [length_append]
  exact ⟨fieldName_number (show FieldName "#1/" by decide) (by decide) (by omega), hsize,
    fun start => classify_announced hn start m.2⟩

theorem lost_stored (hs : sizeLimit ≤ (ofText m.1).length + m.2.length) :
    (storedEntry m).Lost archive names := by
  have hsize : sizeLimit ≤ (ofText m.1 ++ m.2).length := by rwa [length_append]
  have ha := ascii_number (show FieldName "#1/" by decide).ascii (ofText m.1).length
  refine ⟨headerSize_le_buildMember ha _, fun u rest => ⟨_, next_oversize ha ?_ hsize u rest names⟩⟩
  rw [toList_announced]
  intro hmark
  simp only [mem_cons] at hmark
  rcases hmark with h | h | h | h
  · exact absurd h (by decide)
  · exact absurd h (by decide)
  · exact absurd h (by decide)
  · exact absurd (Ir.isAsciiDigit_of_mem_natDigits h) (by decide)

theorem reaches_storedHead :
    Reaches archive (archiveMagic ++ buildMember "__.SYMDEF" (zeros 8)) [] := by
  have hsymbols : FieldName "__.SYMDEF" := by decide
  refine reaches_magic.table (headerSize_le_buildMember hsymbols.ascii _) fun rest => ?_
  rw [next_buildMember hsymbols (by decide)]
  rfl

/-- An archive with the names before the data comes back if no member is too large together with its
name. -/
theorem restored_stored_iff (hn : ∀ m ∈ members, StoredName m.1) :
    Restored archive (build members true) members ↔
    ∀ m ∈ members, (ofText m.1).length + m.2.length < sizeLimit := by
  have hbuild : build members true = archiveMagic ++ buildMember "__.SYMDEF" (zeros 8) ++
      (members.map storedEntry).flatMap Entry.bytes := by
    rw [flatMap_map, append_assoc]
    rfl
  have hmembers : (members.map storedEntry).map (fun e => (e.name, e.data)) = members := by
    rw [map_map]
    exact map_id members
  have hkept : ∀ e ∈ members.map storedEntry, decide (e.stored.length + e.data.length < sizeLimit) →
      e.Kept [] := by
    intro e he hp
    obtain ⟨m, hm, rfl⟩ := mem_map.1 he
    exact kept_stored (hn m hm) (of_decide_eq_true hp)
  have hlost : ∀ e ∈ members.map storedEntry,
      decide (e.stored.length + e.data.length < sizeLimit) = false → e.Lost archive [] := by
    intro e he hp
    obtain ⟨m, hm, rfl⟩ := mem_map.1 he
    exact lost_stored (not_lt.1 (of_decide_eq_false hp))
  have hiff := reaches_storedHead.restored_iff hkept hlost
  rw [hmembers, ← hbuild] at hiff
  rw [hiff, forall_mem_map]
  exact forall₂_congr fun m _ => decide_eq_true_iff

/-- **Archives are read back.** Take members of less than ten thousand million bytes. With a table
of names they are read back exactly if none is named `#1` and the table has less than that many
bytes as well; with the names before the data exactly if each member has less together with its
name. The names are non-empty ASCII texts without slashes and line ends in the first case, texts
that do not end in a zero character in the second, and never those of symbol tables. -/
theorem read_build (archive : String) (members : List (String × Bytes))
    (hs : ∀ m ∈ members, m.2.length < sizeLimit) :
    ((∀ m ∈ members, TableName m.1) → (Restored archive (build members false) members ↔
      (∀ m ∈ members, m.1 ≠ "#1") ∧ (nameTable members).length < sizeLimit)) ∧
    ((∀ m ∈ members, StoredName m.1) → (Restored archive (build members true) members ↔
      ∀ m ∈ members, (Bytes.ofText m.1).length + m.2.length < sizeLimit)) :=
  ⟨restored_table_iff hs, restored_stored_iff⟩

/-- Members with a short name and an odd size, with a name for the table and no data, and with
blanks in the name. -/
def sampleMembers : List (String × Bytes) :=
  [("a.o", [0x78]), ("a_name_for_the_table.o", []), ("b c ", [0x60, 0x0A])]

theorem sampleMembers_restored :
    (∀ m ∈ sampleMembers, m.2.length < sizeLimit) ∧ (∀ m ∈ sampleMembers, TableName m.1) ∧
      (∀ m ∈ sampleMembers, StoredName m.1) ∧
      Restored "" (build sampleMembers false) sampleMembers ∧
      Restored "" (build sampleMembers true) sampleMembers := by
  have hs : ∀ m ∈ sampleMembers, m.2.length < sizeLimit := by decide +kernel
  have ht : ∀ m ∈ sampleMembers, TableName m.1 := by decide +kernel
  have hn : ∀ m ∈ sampleMembers, StoredName m.1 := by decide +kernel
  obtain ⟨htable, hstored⟩ := read_build "" sampleMembers hs
  exact ⟨hs, ht, hn, (htable ht).2 (by decide +kernel), (hstored hn).2 (by decide +kernel)⟩

set_option maxRecDepth 100000 in
/-- A member named `#1` ends the reading with a complaint about a number. -/
theorem bareName_lost :
    TableName "#1" ∧ read (build [("#1", [0x78])] false) "" = ([], .failed .notInteger) ∧
      ¬Restored "" (build [("#1", [0x78])] false) [("#1", [0x78])] := by
  have hread : read (build [("#1", [0x78])] false) "" = ([], .failed .notInteger) := by
    decide +kernel
  refine ⟨by decide, hread, ?_⟩
  rintro ⟨found, hfound, -⟩
  rw [hread] at hfound
  cases congrArg Prod.snd hfound

end CallAtlas.Container.Archive
