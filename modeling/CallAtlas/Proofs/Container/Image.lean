import CallAtlas.Proofs.Container.Placed

/-!
# ELF files read back

A file that is built from an image has rows, one for each section: what it is made of, the place of
its data and that of its name. The header of a row is read from its number (`Sound.header`), its
name from the table of names (`Sound.nameOf`), and it passes the check of its type (`Sound.check`).
So all sections are visited in order (`Sound.visitAll`), and a given section is found by its name
with its own data (`Sound.load_given`).
-/

namespace CallAtlas.Container.Elf

open List Bytes

variable {k : Nat} {p : Part} {r : Part × Nat × Nat}

variable {pos : Nat} {f : File}

theorem File.header_of {n : Nat} (hpos : f.headerPos n = .ok pos)
    (hroom : pos + f.headerSize ≤ f.data.length) : f.header n = .ok (f.headerAt pos) := by
  unfold header
  rw [hpos]
  simp only [bind, Except.bind]
  rw [rule, if_pos (decide_eq_true hroom)]
  rfl

theorem File.compression_of_flags {s : Section} (h : s.flags = 0) : f.compression s = .ok none := by
  rw [compression, isCompressed, h]
  rfl

theorem File.check_plain {names s : Section} (hk : f.kindOf s.type = .plain) (hf : s.flags = 0) :
    f.check names s = .ok () := by
  unfold check
  rw [hk, compression_of_flags hf]
  rfl

theorem File.check_dynamic {names s : Section} (hk : f.kindOf s.type = .dynamic)
    (hf : s.flags = 0) :
    f.check names s = f.visitLinked names s File.isTextType := by
  unfold check
  rw [hk, compression_of_flags hf]
  rfl

/-! ## The parts of a built file -/

namespace Image

/-- The names of the sections in their table, and the place of each. -/
def nameTexts (i : Image) : Bytes × List Nat :=
  placeTexts [0] (i.parts.map Part.name ++ [".shstrtab"])

def namePart (i : Image) : Part :=
  { name := ".shstrtab", type := typeStrtab, data := i.nameTexts.1 }

/-- The texts of the dynamic tags in their table, and the place of each. -/
def tagTexts (i : Image) : Bytes × List Nat := placeTexts [0] (i.tags.map Prod.snd)

def textPart (i : Image) : Part := { name := ".dynstr", type := typeStrtab, data := i.tagTexts.1 }

/-- The dynamic tags with the places of their texts. -/
def tagEntries (i : Image) : Bytes :=
  (i.tags.zip i.tagTexts.2).flatMap fun p => ofNat 8 p.1.1 ++ ofNat 8 p.2

def tagPart (i : Image) : Part :=
  { name := ".dynamic", type := typeDynamic, data := i.tagEntries ++ zeros 16,
    link := i.sections.length + 1, entry := 16 }

/-- The sections in order. -/
def allParts (i : Image) : List Part := i.parts ++ [i.namePart]

/-- The data of the sections laid out behind the header of the file. -/
def laid (i : Image) : Bytes × List Nat × Nat := layout 64 (i.allParts.map Part.data)

def headerStart (i : Image) : Nat := i.laid.2.2 + padding i.laid.2.2 8

/-- The sections with the places of their data and of their names. -/
def rows (i : Image) : List (Part × Nat × Nat) := i.allParts.zip (i.laid.2.1.zip i.nameTexts.2)

def headers (i : Image) : Bytes := i.rows.flatMap fun r => sectionHeader r.1 r.2.1 r.2.2

/-- What the header of the file says. -/
def file (i : Image) : File where
  data := i.bytes
  wide := true
  big := false
  system := 0
  machine := 62
  sectionOffset := i.headerStart
  entrySize := 64
  statedCount := i.allParts.length + 1
  statedNames := i.allParts.length

/-- What the header of a section says. -/
def sectionOf (r : Part × Nat × Nat) : Section :=
  ⟨r.2.2, r.1.type, 0, r.2.1, r.1.data.length, r.1.link, r.1.entry⟩

/-- What can be built: not too many sections, texts without zero characters, a table of names whose
places fit their field, and a file whose places can be addressed. -/
structure Sound (i : Image) : Prop where
  few : i.sections.length < 65000
  distinct : (i.sections.map Prod.fst).Nodup
  names : ∀ s ∈ i.sections, '\x00' ∉ s.1.toList
  texts : ∀ s ∈ i.needed ++ [i.runpath, i.rpath], '\x00' ∉ s.toList
  table : i.nameTexts.1.length < 2 ^ 32
  size : i.bytes.length < reach

variable {i : Image}

theorem bytes_eq (i : Image) :
    i.bytes = fileHeader i.headerStart i.allParts.length ++
      (i.laid.1 ++ (zeros (padding i.laid.2.2 8) ++ (zeros 64 ++ i.headers))) := by
  simp only [← append_assoc]
  rfl

theorem length_fileHeader (o c : Nat) : (fileHeader o c).length = 64 := rfl

theorem length_sectionHeader (p : Part) (o n : Nat) : (sectionHeader p o n).length = 64 := rfl

theorem mem_zip_zip {α β γ : Type} {a : α} {b : β} {c : γ} {as : List α} {bs : List β} {cs : List γ}
    (h : (a, b, c) ∈ as.zip (bs.zip cs)) : (a, b) ∈ as.zip bs ∧ (a, c) ∈ as.zip cs := by
  obtain ⟨k, hk⟩ := mem_iff_getElem?.1 h
  obtain ⟨ha, hbc⟩ := getElem?_zip_eq_some.1 hk
  obtain ⟨hb, hc⟩ := getElem?_zip_eq_some.1 hbc
  exact ⟨mem_iff_getElem?.2 ⟨k, getElem?_zip_eq_some.2 ⟨ha, hb⟩⟩,
    mem_iff_getElem?.2 ⟨k, getElem?_zip_eq_some.2 ⟨ha, hc⟩⟩⟩

theorem data_stand (i : Image) :
    List.Forall₂ (fun p o => StandsAt i.bytes o p.data) i.allParts i.laid.2.1 := by
  have h :=
    (layout_stands 64 (i.allParts.map Part.data)).2 (fileHeader i.headerStart i.allParts.length)
    (zeros (padding i.laid.2.2 8) ++ (zeros 64 ++ i.headers)) (length_fileHeader ..)
  rw [forall₂_map_left_iff] at h
  rw [bytes_eq]
  exact h

theorem names_stand (i : Image) :
    List.Forall₂ (fun p n => StandsAt i.nameTexts.1 n (ofText p.name ++ [0])) i.allParts
      i.nameTexts.2 := by
  have h := (placeTexts_stands [0] (i.parts.map Part.name ++ [".shstrtab"])).2
  have hnames : i.parts.map Part.name ++ [".shstrtab"] = i.allParts.map Part.name := by
    rw [allParts, map_append]
    rfl
  rw [nameTexts]
  generalize placeTexts [0] (i.parts.map Part.name ++ [".shstrtab"]) = t at h ⊢
  rw [hnames, forall₂_map_left_iff] at h
  exact h

theorem map_fst_rows (i : Image) : i.rows.map Prod.fst = i.allParts := by
  refine map_fst_zip ?_
  rw [length_zip, ← i.data_stand.length_eq, ← i.names_stand.length_eq, min_self]

theorem length_rows (i : Image) : i.rows.length = i.allParts.length := by
  rw [← map_fst_rows, length_map]

/-- The data and the name of a section stand at their places. -/
theorem mem_rows (h : r ∈ i.rows) :
    StandsAt i.bytes r.2.1 r.1.data ∧ StandsAt i.nameTexts.1 r.2.2 (ofText r.1.name ++ [0]) ∧
    r.1 ∈ i.allParts := by
  obtain ⟨hd, hn⟩ := mem_zip_zip h
  exact ⟨(forall₂_iff_zip.1 i.data_stand).2 hd, (forall₂_iff_zip.1 i.names_stand).2 hn,
    (of_mem_zip hd).1⟩

theorem exists_row (h : i.allParts[k]? = some p) : ∃ r, i.rows[k]? = some r ∧ r.1 = p := by
  rw [← map_fst_rows, getElem?_map] at h
  exact Option.map_eq_some_iff.1 h

/-- The headers of the sections are the end of the file. -/
theorem headers_stand (i : Image) :
    ∃ u : Bytes, u.length = i.headerStart ∧ i.bytes = u ++ (zeros 64 ++ i.headers) := by
  have hstop := (layout_stands 64 (i.allParts.map Part.data)).1
  refine ⟨fileHeader i.headerStart i.allParts.length ++ (i.laid.1 ++ zeros (padding i.laid.2.2 8)),
    ?_, ?_⟩
  · rw [headerStart]
    simp only [length_append, zeros, length_replicate, length_fileHeader]
    rw [laid]
    omega
  · rw [bytes_eq]
    simp only [append_assoc]

theorem header_stands (h : i.rows[k]? = some r) :
    StandsAt i.bytes (i.headerStart + (k + 1) * 64) (sectionHeader r.1 r.2.1 r.2.2) := by
  obtain ⟨u, hu, hb⟩ := i.headers_stand
  have hrow : StandsAt i.headers (k * 64) (sectionHeader r.1 r.2.1 r.2.2) :=
    flatMap_stands (g := fun r : Part × Nat × Nat => sectionHeader r.1 r.2.1 r.2.2)
      (fun r => length_sectionHeader r.1 r.2.1 r.2.2) h
  have hstand := hrow.append (u ++ zeros 64) []
  rw [append_nil, append_assoc, ← hb, length_append, hu, zeros, length_replicate] at hstand
  rwa [Nat.succ_mul, Nat.add_comm (k * 64), ← Nat.add_assoc]

theorem length_bytes (i : Image) :
    i.bytes.length = i.headerStart + (i.allParts.length + 1) * 64 := by
  obtain ⟨u, hu, hb⟩ := i.headers_stand
  have hheaders : i.headers.length = i.allParts.length * 64 := by
    rw [headers, ← length_rows]
    simp [length_sectionHeader]
  rw [hb, length_append, length_append, zeros, length_replicate, hu, hheaders]
  omega

/-! ## The header of the file and those of the sections -/

def fileFields (o c : Nat) : List Bytes :=
  [elfMagic, [2, 1, 1, 0], zeros 8, ofNat 2 3, ofNat 2 62, ofNat 4 1, ofNat 8 0,
    ofNat 8 0, ofNat 8 o, ofNat 4 0, ofNat 2 64, ofNat 2 56, ofNat 2 0,
    ofNat 2 64, ofNat 2 (c + 1), ofNat 2 c]

theorem fileHeader_eq (o c : Nat) : fileHeader o c = (fileFields o c).flatten := by
  simp only [fileHeader, fileFields, flatten_cons, flatten_nil, append_nil, append_assoc]

theorem fileHeader_stands (o c : Nat) :
    StandsAt (fileHeader o c) 18 (ofNat 2 62) ∧ StandsAt (fileHeader o c) 40 (ofNat 8 o) ∧
      StandsAt (fileHeader o c) 58 (ofNat 2 64) ∧ StandsAt (fileHeader o c) 60 (ofNat 2 (c + 1)) ∧
      StandsAt (fileHeader o c) 62 (ofNat 2 c) := by
  have hl : (fileFields o c).map length = [4, 4, 8, 2, 2, 4, 8, 8, 8, 4, 2, 2, 2, 2, 2, 2] := by
    rfl
  rw [fileHeader_eq]
  exact ⟨flatten_stands hl (k := 4) rfl rfl, flatten_stands hl (k := 8) rfl rfl,
    flatten_stands hl (k := 13) rfl rfl,
    flatten_stands hl (k := 14) rfl rfl, flatten_stands hl (k := 15) rfl rfl⟩

def sectionFields (p : Part) (o n : Nat) : List Bytes :=
  [ofNat 4 n, ofNat 4 p.type, ofNat 8 0, ofNat 8 0, ofNat 8 o,
    ofNat 8 p.data.length, ofNat 4 p.link, ofNat 4 0, ofNat 8 (if p.entry = 0 then 1 else 8),
    ofNat 8 p.entry]

theorem sectionHeader_eq (p : Part) (o n : Nat) :
    sectionHeader p o n = (sectionFields p o n).flatten := by
  simp only [sectionHeader, sectionFields, flatten_cons, flatten_nil, append_nil, append_assoc]

theorem headerAt_eq {f : File} (hw : f.wide) (hb : f.big = false) {o n : Nat}
    (h : StandsAt f.data pos (sectionHeader p o n)) (hn : n < 256 ^ 4) (ht : p.type < 256 ^ 4)
    (ho : o < 256 ^ 8)
    (hs : p.data.length < 256 ^ 8) (hl : p.link < 256 ^ 4) (he : p.entry < 256 ^ 8) :
    f.headerAt pos = sectionOf (p, o, n) := by
  have hlengths : (sectionFields p o n).map length = [4, 4, 8, 8, 8, 8, 4, 4, 8, 8] := by
    simp only [sectionFields, map_cons, map_nil, Bitcode.length_ofNat]
  rw [sectionHeader_eq] at h
  have hfield (k s : Nat) {w v : Nat}
      (hs : (([4, 4, 8, 8, 8, 8, 4, 4, 8, 8] : List Nat).take k).sum = s)
      (hk : (sectionFields p o n)[k]? = some (ofNat w v)) (hv : v < 256 ^ w) :
      number false f.data (pos + s) w = v :=
    (h.trans (flatten_stands hlengths hk hs)).number hv
  unfold File.headerAt
  rw [hw, hb]
  dsimp only
  rw [hfield 0 0 rfl rfl hn, hfield 1 4 rfl rfl ht, hfield 2 8 rfl rfl (Nat.pow_pos (by decide)),
    hfield 4 24 rfl rfl ho, hfield 5 32 rfl rfl hs, hfield 6 40 rfl rfl hl, hfield 9 56 rfl rfl he]
  rfl

/-- The sections that a file has. -/
inductive HasPart (i : Image) : Part → Prop where
  | given {s : String × Bytes} (h : s ∈ i.sections) :
    HasPart i { name := s.1, type := typeProgbits, data := s.2 }
  | texts (h : i.tags ≠ []) : HasPart i i.textPart
  | tags (h : i.tags ≠ []) : HasPart i i.tagPart
  | names : HasPart i i.namePart

theorem dynamicParts_eq (h : i.tags ≠ []) :
    i.dynamicParts (i.sections.length + 1) = [i.textPart, i.tagPart] := by
  rw [dynamicParts, if_neg (by simpa using h)]
  rfl

theorem dynamicParts_nil (h : i.tags = []) : i.dynamicParts (i.sections.length + 1) = [] := by
  rw [dynamicParts, if_pos (by simpa using h)]

theorem mem_allParts (h : p ∈ i.allParts) : i.HasPart p := by
  rcases mem_append.1 h with h | h
  · rcases mem_append.1 h with h | h
    · obtain ⟨s, hs, rfl⟩ := mem_map.1 h
      exact .given hs
    · by_cases ht : i.tags = []
      · rw [dynamicParts_nil ht] at h
        cases h
      · rw [dynamicParts_eq ht] at h
        rcases mem_cons.1 h with rfl | h
        · exact .texts ht
        · obtain rfl := mem_singleton.1 h
          exact .tags ht
  · obtain rfl := mem_singleton.1 h
    exact .names

theorem length_allParts (i : Image) : i.allParts.length ≤ i.sections.length + 3 := by
  have hdynamic : (i.dynamicParts (i.sections.length + 1)).length ≤ 2 := by
    by_cases ht : i.tags = []
    · rw [dynamicParts_nil ht]
      exact Nat.zero_le 2
    · rw [dynamicParts_eq ht]
      exact le_rfl
  rw [allParts, parts, length_append, length_append, length_map]
  exact Nat.add_le_add_left (Nat.succ_le_succ hdynamic) _

theorem headerPos_file (i : Image) (n : Nat) : i.file.headerPos n = .ok (i.headerStart + n * 64) :=
  if_neg fun hno => lt_irrefl 64 hno.2

namespace Sound

variable {r : Part × Nat × Nat}

theorem headerStart_lt (h : i.Sound) : i.headerStart < reach := by
  have := i.length_bytes
  have := h.size
  omega

theorem count_lt (h : i.Sound) : i.allParts.length + 1 < 256 ^ 2 := by
  have := i.length_allParts
  have := h.few
  omega

theorem openFile (h : i.Sound) : openFile i.bytes = .ok i.file := by
  have hstands : StandsAt i.bytes 0 (fileHeader i.headerStart i.allParts.length) := by
    rw [bytes_eq]
    exact standsAt_zero ..
  obtain ⟨h1, h2, h3, h4, h5⟩ := fileHeader_stands i.headerStart i.allParts.length
  have hstart : i.headerStart < 256 ^ 8 := by
    have := h.headerStart_lt
    rw [reach_eq] at this
    omega
  have hcount := h.count_lt
  have hmachine := (hstands.trans h1).number (by decide)
  have hoffset := (hstands.trans h2).number hstart
  have hentry := (hstands.trans h3).number (by decide)
  have hsections := (hstands.trans h4).number hcount
  have hnames := (hstands.trans h5).number (by omega)
  have hlen : ¬i.bytes.length < 64 := by
    have := hstands.le
    rw [length_fileHeader] at this
    omega
  have hsystem : number false i.bytes 7 1 = 0 := by
    rw [bytes_eq]
    rfl
  have hmagic : i.bytes.startsWith elfMagic := by
    rw [bytes_eq]
    rfl
  have hclass : i.bytes[4]? = some 2 := by
    rw [bytes_eq]
    rfl
  have horder : i.bytes[5]? = some 1 := by
    rw [bytes_eq]
    rfl
  unfold Elf.openFile
  rw [hmagic, hclass, horder]
  dsimp only
  rw [if_neg (by decide), if_neg (by decide)]
  show (if i.bytes.length < 64 then _ else _) = _
  rw [if_neg hlen]
  show Except.ok (File.mk i.bytes true false (number false i.bytes 7 1) (number false i.bytes 18 2)
    (number false i.bytes 40 8) (number false i.bytes 58 2) (number false i.bytes 60 2)
    (number false i.bytes 62 2)) = _
  rw [hsystem, hmachine, hoffset, hentry, hsections, hnames]
  rfl

theorem header (h : i.Sound) (hr : i.rows[k]? = some r) :
    i.file.header (k + 1) = .ok (sectionOf r) := by
  obtain ⟨hdata, hname, hpart⟩ := mem_rows (mem_of_getElem? hr)
  have hstands := header_stands hr
  have hsize := h.size
  have htable := h.table
  have hfew := h.few
  have h1 := hdata.le
  have h2 := hname.le
  have h3 := hstands.le
  rw [length_sectionHeader] at h3
  rw [reach_eq] at hsize
  have hfields : r.1.type < 256 ^ 4 ∧ r.1.link < 256 ^ 4 ∧ r.1.entry < 256 ^ 8 := by
    generalize r.1 = p at hpart
    cases mem_allParts hpart with
    | given hs =>
      exact ⟨show 1 < 256 ^ 4 by omega, Nat.pow_pos (by decide), Nat.pow_pos (by decide)⟩
    | texts ht =>
      exact ⟨show 3 < 256 ^ 4 by omega, Nat.pow_pos (by decide), Nat.pow_pos (by decide)⟩
    | tags ht =>
      exact ⟨show 6 < 256 ^ 4 by omega, show i.sections.length + 1 < 256 ^ 4 by omega,
        show 16 < 256 ^ 8 by omega⟩
    | names => exact ⟨show 3 < 256 ^ 4 by omega, Nat.pow_pos (by decide), Nat.pow_pos (by decide)⟩
  have hn : r.2.2 < 256 ^ 4 := by omega
  have ho : r.2.1 < 256 ^ 8 := by omega
  have hs : r.1.data.length < 256 ^ 8 := by omega
  have hread : i.file.headerAt (i.headerStart + (k + 1) * 64) = sectionOf r :=
    headerAt_eq rfl rfl hstands hn hfields.1 ho hs hfields.2.1 hfields.2.2
  rw [File.header_of (headerPos_file i (k + 1)) h3, hread]

theorem header_zero (i : Image) : i.file.header 0 = .ok ⟨0, 0, 0, 0, 0, 0, 0⟩ := by
  have hstands : StandsAt i.bytes i.headerStart (zeros 64) := by
    obtain ⟨u, hu, hb⟩ := i.headers_stand
    exact ⟨u, i.headers, hu, hb⟩
  have hlen := hstands.le
  have hfield {s w : Nat} (hs : s + w ≤ 64) : number false i.bytes (i.headerStart + s) w = 0 :=
    (hstands.trans (zeros_stands hs)).number (Nat.pow_pos (by decide))
  have hread : i.file.headerAt i.headerStart = ⟨0, 0, 0, 0, 0, 0, 0⟩ := by
    show Section.mk (number false i.bytes (i.headerStart + 0) 4)
        (number false i.bytes (i.headerStart + 4) 4)
      (number false i.bytes (i.headerStart + 8) 8) (number false i.bytes (i.headerStart + 24) 8)
      (number false i.bytes (i.headerStart + 32) 8) (number false i.bytes (i.headerStart + 40) 4)
      (number false i.bytes (i.headerStart + 56) 8) = _
    rw [hfield (by decide), hfield (by decide), hfield (by decide), hfield (by decide),
      hfield (by decide), hfield (by decide), hfield (by decide)]
  have hpos := headerPos_file i 0
  rw [Nat.add_zero] at hpos
  rw [File.header_of hpos hlen, hread]

/-! ## Visits -/

theorem readNames (h : i.Sound) :
    ∃ r, i.file.names = .ok (some (sectionOf r)) ∧ StandsAt i.bytes r.2.1 i.nameTexts.1 := by
  obtain ⟨r, hr, hpart⟩ := exists_row (i := i) getElem?_concat_length
  have hstands := (mem_rows (mem_of_getElem? hr)).1
  rw [hpart] at hstands
  refine ⟨r, ?_, hstands⟩
  have hcount : i.file.statedNames = i.parts.length + 1 := by
    show i.allParts.length = _
    rw [allParts, length_append]
    rfl
  have hindex : i.file.namesIndex = .ok (i.parts.length + 1) := by
    have : i.file.statedNames + 1 < 256 ^ 2 := h.count_lt
    rw [File.namesIndex, if_neg (by omega), hcount]
  have hroom : ¬i.file.data.length < i.headerStart + (i.parts.length + 1) * 64 := by
    have : i.file.data.length = i.headerStart + (i.file.statedNames + 1) * 64 := i.length_bytes
    omega
  unfold File.names
  rw [hindex]
  simp only [bind, Except.bind]
  rw [headerPos_file]
  dsimp only
  rw [if_neg hroom, h.header hr]
  dsimp only
  rw [File.compression_of_flags rfl]
  rfl

theorem name_zeroless (h : i.Sound) (hp : p ∈ i.allParts) : '\x00' ∉ p.name.toList := by
  cases mem_allParts hp with
  | given hs => exact h.names _ hs
  | texts ht => exact (by decide : '\x00' ∉ ".dynstr".toList)
  | tags ht => exact (by decide : '\x00' ∉ ".dynamic".toList)
  | names => exact (by decide : '\x00' ∉ ".shstrtab".toList)

variable {t : Part × Nat × Nat}

theorem nameOf (h : i.Sound) (ht : StandsAt i.bytes t.2.1 i.nameTexts.1) (hr : r ∈ i.rows) :
    i.file.nameOf (sectionOf t) (sectionOf r) = .ok r.1.name := by
  obtain ⟨-, hname, hpart⟩ := mem_rows hr
  have hstands : StandsAt i.file.data (t.2.1 + r.2.2) (ofText r.1.name ++ [0]) := ht.trans hname
  have hle := hstands.le
  have hsize : i.file.data.length < reach := h.size
  exact hstands.textAt (h.name_zeroless hpart) (by omega)

theorem nameOf_zero (h : i.Sound) (ht : StandsAt i.bytes t.2.1 i.nameTexts.1) :
    i.file.nameOf (sectionOf t) ⟨0, 0, 0, 0, 0, 0, 0⟩ = .ok "" := by
  obtain ⟨r, hr⟩ := (placeTexts_stands [0] (i.parts.map Part.name ++ [".shstrtab"])).1
  have hempty : ofText "" = [] := by decide +kernel
  have hzero : StandsAt i.nameTexts.1 0 (ofText "" ++ [0]) := by
    rw [nameTexts, hr, hempty]
    exact standsAt_zero ..
  have hstands : StandsAt i.file.data (t.2.1 + 0) (ofText "" ++ [0]) := ht.trans hzero
  have hle := hstands.le
  have hsize : i.file.data.length < reach := h.size
  exact hstands.textAt (by decide) (by omega)

/-- The texts of dynamic tags are in the first section behind the given ones. -/
theorem header_texts (h : i.Sound) (ht : i.tags ≠ []) :
    ∃ t ∈ i.rows, i.file.header i.tagPart.link = .ok (sectionOf t) ∧ t.1 = i.textPart := by
  have hget : i.allParts[i.sections.length]? = some i.textPart := by
    rw [allParts, parts, append_assoc, getElem?_append_right (by rw [length_map]), length_map,
      Nat.sub_self, dynamicParts_eq ht]
    rfl
  obtain ⟨t, hget, htext⟩ := exists_row hget
  exact ⟨t, mem_of_getElem? hget, h.header hget, htext⟩

theorem visitPlain (h : i.Sound) (ht : StandsAt i.bytes t.2.1 i.nameTexts.1)
    (hr : r ∈ i.rows) : i.file.visitPlain (sectionOf t) (sectionOf r) = .ok () := by
  unfold File.visitPlain
  rw [h.nameOf ht hr, File.compression_of_flags rfl]
  rfl

theorem check (h : i.Sound) (ht : StandsAt i.bytes t.2.1 i.nameTexts.1) (hr : r ∈ i.rows) :
    i.file.check (sectionOf t) (sectionOf r) = .ok () := by
  obtain ⟨p, o, n⟩ := r
  cases mem_allParts (mem_rows hr).2.2 with
  | given hs => exact File.check_plain rfl rfl
  | texts htags => exact File.check_plain rfl rfl
  | names => exact File.check_plain rfl rfl
  | tags htags =>
    obtain ⟨x, hx, hheader, htext⟩ := h.header_texts htags
    have htype : File.isTextType (sectionOf x).type := by
      show File.isTextType x.1.type
      rw [htext]
      rfl
    have hlinked : i.file.visitLinked (sectionOf t) (sectionOf (i.tagPart, o, n)) File.isTextType =
        .ok () := by
      show (i.file.header i.tagPart.link >>= _) = _
      rw [hheader]
      simp only [bind, Except.bind]
      rw [rule, if_pos htype]
      exact h.visitPlain ht hx
    exact (File.check_dynamic rfl rfl).trans hlinked

end Sound

/-- The sections with their names, in the order of their numbers. -/
def visited (i : Image) : List (Section × String) :=
  (⟨0, 0, 0, 0, 0, 0, 0⟩, "") :: i.rows.map fun r => (sectionOf r, r.1.name)

theorem length_visited (i : Image) : i.visited.length = i.allParts.length + 1 := by
  rw [visited, length_cons, length_map, length_rows]

namespace Sound

variable {t : Part × Nat × Nat}

theorem visit (h : i.Sound) (ht : StandsAt i.bytes t.2.1 i.nameTexts.1) {s : Section × String}
    (hs : i.visited[k]? = some s) : i.file.visit (some (sectionOf t)) k = .ok s := by
  unfold File.visit
  cases k with
  | zero =>
    obtain rfl : (⟨0, 0, 0, 0, 0, 0, 0⟩, "") = s := Option.some.inj hs
    rw [header_zero]
    simp only [bind, Except.bind]
    rw [h.nameOf_zero ht]
    rfl
  | succ k =>
    rw [visited, getElem?_cons_succ, getElem?_map] at hs
    obtain ⟨r, hr, rfl⟩ := Option.map_eq_some_iff.1 hs
    have hmem := mem_of_getElem? hr
    rw [h.header hr]
    simp only [bind, Except.bind]
    rw [h.nameOf ht hmem]
    rw [h.check ht hmem]
    rfl

end Sound

end Image

theorem File.visitFrom_eq {names : Option Section} {l : List (Section × String)}
    (h : ∀ k s, l[k]? = some s → f.visit names k = .ok s) (fuel k : Nat)
    (hf : l.length ≤ fuel + k) :
    f.visitFrom names l.length fuel k = (l.drop k, none) := by
  induction fuel generalizing k with
  | zero => rw [visitFrom, drop_eq_nil_of_le (by omega)]
  | succ fuel ih =>
    rw [visitFrom]
    by_cases hk : l.length ≤ k
    · rw [if_pos hk, drop_eq_nil_of_le hk]
    · have hlt : k < l.length := by omega
      rw [if_neg hk, h k _ (getElem?_eq_getElem hlt), ih (k + 1) (by omega),
        drop_eq_getElem_cons hlt]

namespace Image.Sound

variable {i : Image}

theorem visitAll (h : i.Sound) : i.file.visitAll = (i.visited, none) := by
  obtain ⟨t, hnames, ht⟩ := h.readNames
  have hcount : i.file.count = .ok i.visited.length := by
    have hstop := (layout_stands 64 (i.allParts.map Part.data)).1
    have hstart : i.file.sectionOffset ≠ 0 := by
      show i.laid.2.2 + _ ≠ 0
      rw [laid]
      omega
    have hstated : i.file.statedCount = i.visited.length := i.length_visited.symm
    rw [File.count, if_neg hstart, hstated, if_neg (by rw [length_visited]; omega)]
  have hfuel : i.visited.length ≤ i.file.data.length + 1 + 0 := by
    have : i.file.data.length = i.headerStart + (i.allParts.length + 1) * 64 := i.length_bytes
    rw [length_visited]
    omega
  have hvisit := File.visitFrom_eq (fun k s hs => h.visit ht hs) (i.file.data.length + 1) 0 hfuel
  unfold File.visitAll
  rw [hnames, hcount]
  exact hvisit

/-! ## Sections by name -/

theorem content (h : i.Sound) (hr : r ∈ i.rows) : i.file.content (sectionOf r) = .ok r.1.data := by
  have hstands := (mem_rows hr).1
  have hle := hstands.le
  have hsize := h.size
  have hoffset : within (sectionOf r).offset = .ok () := if_pos (show r.2.1 < reach by omega)
  have hlength : within (sectionOf r).size = .ok () :=
    if_pos (show r.1.data.length < reach by omega)
  unfold File.content
  rw [File.compression_of_flags rfl]
  rw [hoffset, hlength]
  exact congrArg Except.ok hstands.sub

end Image.Sound

namespace Image

variable {i : Image} {name : String}

/-- The names of the sections that are not given. -/
def ownNames : List String := ["", ".dynstr", ".dynamic", ".shstrtab"]

theorem given_of_mem_visited (hn : name ∉ ownNames) {s : Section × String} (hs : s ∈ i.visited)
    (hname : s.2 = name) :
    ∃ r ∈ i.rows, ∃ d, s = (sectionOf r, name) ∧ (name, d) ∈ i.sections ∧
      r.1 = { name := name, type := typeProgbits, data := d } := by
  subst hname
  rcases mem_cons.1 hs with rfl | hs
  · exact absurd mem_cons_self hn
  · obtain ⟨⟨p, o, n⟩, hr, rfl⟩ := mem_map.1 hs
    refine ⟨(p, o, n), hr, ?_⟩
    cases mem_allParts (mem_rows hr).2.2 with
    | given hg => exact ⟨_, rfl, hg, rfl⟩
    | texts ht => exact absurd (by decide : ".dynstr" ∈ ownNames) hn
    | tags ht => exact absurd (by decide : ".dynamic" ∈ ownNames) hn
    | names => exact absurd (by decide : ".shstrtab" ∈ ownNames) hn

namespace Sound

theorem find (h : i.Sound) (name : String) :
    i.file.find name = .ok ((i.visited.filter fun s => s.2 = name).getLast?.map Prod.fst) := by
  rw [File.find, h.visitAll]

theorem load_given (h : i.Sound) (hn : name ∉ ownNames) {d : Bytes} (hd : (name, d) ∈ i.sections) :
    ∃ o, load i.bytes name = .ok (some (o, d)) ∧ StandsAt i.bytes o d := by
  have hpart : { name := name, type := typeProgbits, data := d } ∈ i.rows.map Prod.fst := by
    rw [map_fst_rows]
    exact mem_append_left _ (mem_append_left _ (mem_map.2 ⟨_, hd, rfl⟩))
  obtain ⟨r, hr, hrpart⟩ := mem_map.1 hpart
  have hne : (i.visited.filter fun s => s.2 = name) ≠ [] := by
    refine ne_nil_of_mem (mem_filter.2 ⟨mem_cons_of_mem _ (mem_map.2 ⟨r, hr, rfl⟩), ?_⟩)
    exact decide_eq_true (by rw [hrpart])
  obtain ⟨s, hs⟩ : ∃ s, (i.visited.filter fun s => s.2 = name).getLast? = some s :=
    ⟨_, getLast?_eq_some_getLast hne⟩
  obtain ⟨hmem, hname⟩ := mem_filter.1 (mem_of_getLast? hs)
  obtain ⟨r', hr', d', rfl, hd', hpart'⟩ := given_of_mem_visited hn hmem (of_decide_eq_true hname)
  obtain rfl : d' = d := congrArg Prod.snd (inj_on_of_nodup_map h.distinct hd' hd rfl)
  have htype : (sectionOf r').type ≠ typeNobits := by
    show r'.1.type ≠ typeNobits
    rw [hpart']
    exact (by decide : typeProgbits ≠ typeNobits)
  have hcontent := h.content hr'
  have hstands := (mem_rows hr').1
  rw [hpart'] at hcontent hstands
  refine ⟨r'.2.1, ?_, hstands⟩
  unfold load
  rw [h.openFile]
  simp only [bind, Except.bind]
  rw [h.find, hs]
  dsimp only [Option.map_some]
  rw [if_neg htype, hcontent]
  rfl

theorem load_missing (h : i.Sound) (hn : name ∉ ownNames) (hd : name ∉ i.sections.map Prod.fst) :
    load i.bytes name = .ok none := by
  have hnil : (i.visited.filter fun s => s.2 = name) = [] := by
    refine filter_eq_nil_iff.2 fun s hs hname => ?_
    obtain ⟨r, hr, d, -, hd', -⟩ := given_of_mem_visited hn hs (of_decide_eq_true hname)
    exact hd (mem_map.2 ⟨_, hd', rfl⟩)
  unfold load
  rw [h.openFile]
  simp only [bind, Except.bind]
  rw [h.find, hnil]
  rfl

end Sound

end Image

end CallAtlas.Container.Elf
