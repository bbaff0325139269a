import CallAtlas.Proofs.Bitcode.Written

/-!
# Dividing what was joined

A `Specimen` is a module built from a tag, in any number of wrappers. Its length is a multiple of
four, and so is the padding behind it; so the walk over it, wherever it stands, ends at its end:
`walk_specimen`. Specimens that were joined are divided again into the same bytes at the places
where they were put, `split_concat`, up to the first one in more wrappers than are followed.
-/

namespace CallAtlas.Bitcode

open List Bytes

/-! ## Wrappers with something behind them -/

theorem sub_prefix {d : Bytes} {p n : Nat} (h : p + n ≤ d.length) (rest : Bytes) :
    sub (d ++ rest) p n = d.sub p n := by
  rw [sub, sub, drop_append_of_le_length (by omega),
    take_append_of_le_length (by rw [length_drop]; omega)]

theorem wrapperRange_prefix {d : Bytes} {start inner stop : Nat}
    (h : wrapperRange d start = .ok (inner, stop))
    (rest : Bytes) : wrapperRange (d ++ rest) start = .ok (inner, stop) := by
  unfold wrapperRange wrapperSize at h ⊢
  split at h
  · cases h
  · next hl =>
    have hword (k : Nat) (hk : k ≤ 16) : word (d ++ rest) (start + k) = word d (start + k) := by
      rw [word, word, sub_prefix (by omega)]
    dsimp only at h ⊢
    rw [hword 8 (by decide), hword 12 (by decide), length_append, if_neg (by omega)]
    split at h
    · cases h
    · next ho =>
      rw [if_neg (by omega)]
      exact h

/-! ## Specimens -/

/-- A module built from a tag, with the machines of the wrappers around it, the outermost first. -/
structure Specimen where
  tag : Bytes
  cpus : List UInt32
  deriving DecidableEq, Repr

namespace Specimen

/-- The bytes of the module in its wrappers. -/
def bytes (s : Specimen) : Bytes :=
  s.cpus.foldr (fun cpu data => wrapModule data cpu.toNat) (encodeModule s.tag true)

/-- Whether there are no more wrappers than a depth. -/
def followed (depth : Nat) (s : Specimen) : Bool := s.cpus.length ≤ depth

variable {tag : Bytes} {cpu : UInt32} {cpus : List UInt32}

theorem bytes_cons : bytes ⟨tag, cpu :: cpus⟩ =
    wrapperHeader (bytes ⟨tag, cpus⟩).length cpu.toNat ++ bytes ⟨tag, cpus⟩ := rfl

theorem length_bytes_cons :
    (bytes ⟨tag, cpu :: cpus⟩).length = wrapperSize + (bytes ⟨tag, cpus⟩).length := by
  rw [bytes_cons, length_append, length_wrapperHeader]

theorem length_bytes (tag : Bytes) (cpus : List UInt32) :
    (bytes ⟨tag, cpus⟩).length = wrapperSize * cpus.length + (encodeModule tag true).length := by
  induction cpus with
  | nil => exact (zero_add _).symm
  | cons cpu cpus ih =>
    rw [length_bytes_cons, length_cons, Nat.mul_succ]
    omega

theorem four_dvd_length (s : Specimen) : 4 ∣ s.bytes.length := by
  obtain ⟨tag, cpus⟩ := s
  induction cpus with
  | nil =>
    show 4 ∣ (encodeModule tag true).length
    rw [encodeModule_eq, length_append, length_append]
    exact dvd_add (by decide)
      (dvd_add (four_dvd_length_blockBytes ..) (four_dvd_length_blockBytes ..))
  | cons cpu cpus ih =>
    rw [length_bytes_cons]
    exact dvd_add (by decide) ih

theorem exists_marker (s : Specimen) :
    ∃ m r, s.bytes = m ++ r ∧ (m = magic ∨ m = wrapperMagic) := by
  obtain ⟨tag, cpus⟩ := s
  cases cpus with
  | nil => exact ⟨magic, _, encodeModule_eq tag, .inl rfl⟩
  | cons cpu cpus => exact ⟨wrapperMagic, _, rfl, .inr rfl⟩

theorem isMarker_bytes (s : Specimen) (rest : Bytes) : isMarker (s.bytes ++ rest) 0 := by
  obtain ⟨m, r, hs, rfl | rfl⟩ := s.exists_marker
  · rw [hs]
    rfl
  · rw [hs]
    rfl

theorem skipZeros_bytes (s : Specimen) (rest : Bytes) : skipZeros (s.bytes ++ rest) 0 = 0 := by
  obtain ⟨m, r, hs, rfl | rfl⟩ := s.exists_marker
  · rw [hs]
    rfl
  · rw [hs]
    rfl

theorem length_pos (s : Specimen) : 0 < s.bytes.length := by
  obtain ⟨m, r, hs, rfl | rfl⟩ := s.exists_marker
  · rw [hs]
    exact Nat.succ_pos _
  · rw [hs]
    exact Nat.succ_pos _

end Specimen

theorem walk_specimen {tag : Bytes} {cpus : List UInt32}
    (hl : (Specimen.bytes ⟨tag, cpus⟩).length < 2 ^ 32)
    {rest : Bytes} (hend : endsAt rest 0) (depth : Nat) :
    walk depth (Specimen.bytes ⟨tag, cpus⟩ ++ rest) 0 =
      if cpus.length ≤ depth then
        .ok ⟨0, (Specimen.bytes ⟨tag, cpus⟩).length, [identificationBlock, moduleBlock],
          !cpus.isEmpty⟩
      else .error .tooDeep := by
  -- The module inside a wrapper is walked with nothing behind it, so the induction is for any rest.
  induction cpus generalizing rest depth with
  | nil => exact walk_encodeModule hl hend depth
  | cons cpu cpus ih =>
    rw [Specimen.length_bytes_cons] at hl ⊢
    have hlt : (Specimen.bytes ⟨tag, cpus⟩).length < 2 ^ 32 := by omega
    have hmark : (Specimen.bytes ⟨tag, cpu :: cpus⟩ ++ rest).sub 0 4 = wrapperMagic := rfl
    have hrange : wrapperRange (Specimen.bytes ⟨tag, cpu :: cpus⟩ ++ rest) 0 =
        .ok (wrapperSize, wrapperSize + (Specimen.bytes ⟨tag, cpus⟩).length) :=
      wrapperRange_prefix (wrapperRange_wrap hlt) rest
    have hinner : (Specimen.bytes ⟨tag, cpu :: cpus⟩ ++ rest).take
        (wrapperSize + (Specimen.bytes ⟨tag, cpus⟩).length) =
          Specimen.bytes ⟨tag, cpu :: cpus⟩ := by
      rw [← Specimen.length_bytes_cons, take_left]
    unfold walk
    rw [if_pos hmark, hrange]
    dsimp only
    rw [hinner]
    cases depth with
    | zero => rfl
    | succ depth =>
      have hmoved := walk_append (u := wrapperHeader (Specimen.bytes ⟨tag, cpus⟩).length cpu.toNat)
        (d := Specimen.bytes ⟨tag, cpus⟩) (by rw [length_wrapperHeader]; decide) depth 0
      have hwalk := ih hlt (show endsAt [] 0 from rfl) depth
      rw [append_nil] at hwalk
      rw [length_wrapperHeader, add_zero, hwalk] at hmoved
      rw [Specimen.bytes_cons]
      dsimp only
      rw [hmoved, length_cons]
      by_cases hd : cpus.length ≤ depth
      · rw [if_pos hd, if_pos (by omega)]
        rfl
      · rw [if_neg hd, if_neg (by omega)]
        rfl

theorem structureComplaint_specimen {depth : Nat} {s : Specimen} (hl : s.bytes.length < 2 ^ 32)
    (hs : s.followed depth)
    (origin : String) (index offset : Nat) :
    structureComplaint depth ⟨s.bytes, origin, index, offset⟩ = .ok none := by
  have hwalk := walk_specimen hl (show endsAt [] 0 from rfl) depth
  rw [append_nil, if_pos (of_decide_eq_true hs)] at hwalk
  have hmodule (stop : Nat) (wrapped : Bool) :
      Extent.hasModule ⟨0, stop, [identificationBlock, moduleBlock], wrapped⟩ := rfl
  unfold structureComplaint
  rw [hwalk]
  dsimp only
  rw [hmodule, if_neg (by decide), if_neg (fun h => h rfl)]

theorem nextBuffer_specimen (depth : Nat) {s : Specimen} (hl : s.bytes.length < 2 ^ 32)
    {rest : Bytes} (hend : endsAt rest 0) (origin : String) (index : Nat) :
    nextBuffer depth bitstreamValidator origin (s.bytes ++ rest) index 0 =
      if s.followed depth then .ok (⟨s.bytes, origin, index, 0⟩, s.bytes.length)
      else .error .tooDeep := by
  have hwalk :=
    walk_specimen (show (Specimen.bytes ⟨s.tag, s.cpus⟩).length < 2 ^ 32 from hl) hend depth
  have hcut : (s.bytes ++ rest).sub 0 (s.bytes.length - 0) = s.bytes := by
    rw [sub, drop_zero, Nat.sub_zero, take_left]
  have hmark : (!isMarker (s.bytes ++ rest) 0) = false := by rw [s.isMarker_bytes]; rfl
  unfold nextBuffer
  rw [hmark, hwalk]
  by_cases hd : s.followed depth
  · have hd' : s.cpus.length ≤ depth := of_decide_eq_true hd
    rw [if_pos hd, if_pos hd']
    dsimp only
    rw [hcut]
    dsimp only [bitstreamValidator]
    rw [structureComplaint_specimen hl hd]
    rfl
  · have hd' : ¬ s.cpus.length ≤ depth := fun h => hd (decide_eq_true h)
    rw [if_neg hd, if_neg hd']
    rfl

/-! ## Joined specimens -/

/-- Modules one behind the other from a place on, each filled up to a multiple of `unit`. -/
def layFrom (unit : Nat) : Nat → List Bytes → Bytes
  | _, [] => []
  | pos, m :: r =>
    m ++ zeros (padding (pos + m.length) unit) ++
      layFrom unit (pos + m.length + padding (pos + m.length) unit) r

theorem concatModules_eq (modules : List Bytes) (unit : Nat) :
    concatModules modules unit = layFrom unit 0 modules := by
  have hfold (out : Bytes) : modules.foldl (fun out m =>
      let out := out ++ m
      out ++ zeros (padding out.length unit)) out = out ++ layFrom unit out.length modules := by
    induction modules generalizing out with
    | nil => exact (append_nil out).symm
    | cons m r ih =>
      rw [foldl_cons, ih, layFrom]
      simp only [length_append, zeros, length_replicate, append_assoc, add_assoc]
  exact hfold []

theorem four_dvd_padding {n unit : Nat} (hn : 4 ∣ n)
    (hunit : unit = 1 ∨ unit = 2 ∨ unit ≠ 0 ∧ 4 ∣ unit) :
    4 ∣ padding n unit := by
  unfold padding
  obtain rfl | rfl | ⟨-, h⟩ := hunit
  · omega
  · omega
  · have hrest : 4 ∣ n % unit := (Nat.dvd_mod_iff h).2 hn
    exact (Nat.dvd_mod_iff h).2 (Nat.dvd_sub h hrest)

/-- Behind a specimen no block follows: padding, the next specimen, or nothing. -/
theorem endsAt_layFrom {k : Nat} (hk : 4 ∣ k) (unit pos : Nat) (specimens : List Specimen) :
    endsAt (zeros k ++ layFrom unit pos (specimens.map Specimen.bytes)) 0 := by
  obtain ⟨n, rfl⟩ := hk
  cases n with
  | zero =>
    cases specimens with
    | nil => rfl
    | cons s r =>
      show endsAt (s.bytes ++ _ ++ _) 0
      rw [append_assoc, endsAt, s.isMarker_bytes, Bool.or_true]
  | succ n =>
    have hzeros : (zeros (4 * (n + 1)) ++ layFrom unit pos (specimens.map Specimen.bytes)).sub 0 4 =
        [0, 0, 0, 0] := rfl
    rw [endsAt, hzeros, decide_eq_true rfl, Bool.or_true, Bool.true_or]

theorem splitFrom_of_skipZeros {depth : Nat} {v : Validator} {origin : String} {data : Bytes}
    {index p q : Nat}
    (h : skipZeros data p = skipZeros data q) :
    splitFrom depth v origin data index p = splitFrom depth v origin data index q := by
  by_cases hl : data.length ≤ skipZeros data q
  · rw [splitFrom_of_end hl, splitFrom_of_end (by rwa [h])]
  · cases hn : nextBuffer depth v origin data index (skipZeros data q) with
    | error e => rw [splitFrom_of_error hl hn, splitFrom_of_error (by rwa [h]) (by rwa [h])]
    | ok r => rw [splitFrom_of_ok hl hn, splitFrom_of_ok (by rwa [h]) (by rwa [h])]

theorem skipZeros_zeros (a : Bytes) (k : Nat) (d : Bytes) :
    skipZeros (a ++ zeros k ++ d) a.length = skipZeros (a ++ zeros k ++ d) (a.length + k) := by
  have hzeros : ∀ x ∈ zeros k, decide (x = 0) = true :=
    fun x hx => decide_eq_true (eq_of_mem_replicate hx)
  have hlength : (zeros k).length = k := length_replicate
  unfold skipZeros
  rw [append_assoc, drop_left, drop_length_add_append, takeWhile_append_of_pos hzeros,
    length_append, hlength, ← add_assoc]
  rw [drop_left' hlength]

/-- Specimens as buffers, at the places where they stand when they are joined from place `pos`
on. -/
def placedFrom (origin : String) (unit index pos : Nat) (specimens : List Specimen) : List Buffer :=
  specimens.mapIdx fun i s =>
    ⟨s.bytes, origin, index + i, (layFrom unit pos ((specimens.take i).map Specimen.bytes)).length⟩

theorem placedFrom_cons (origin : String) (unit index pos : Nat) (s : Specimen)
    (r : List Specimen) :
    placedFrom origin unit index pos (s :: r) =
      ⟨s.bytes, origin, index, 0⟩ ::
        (placedFrom origin unit (index + 1)
          (pos + s.bytes.length + padding (pos + s.bytes.length) unit) r).map
            (Buffer.moved (s.bytes ++ zeros (padding (pos + s.bytes.length) unit)).length) := by
  unfold placedFrom
  rw [mapIdx_cons]
  congr 1
  refine ext_getElem? fun i => ?_
  rw [getElem?_map, getElem?_mapIdx, getElem?_mapIdx, Option.map_map]
  congr 1
  funext t
  simp only [Function.comp_apply, take_succ_cons, map_cons, layFrom, Buffer.moved, length_append,
    add_assoc, add_comm 1]

/-- Specimens as buffers, each at the place where the join of those before it ends. -/
def placed (origin : String) (unit : Nat) (specimens : List Specimen) : List Buffer :=
  specimens.mapIdx fun i s =>
    ⟨s.bytes, origin, i, (concatModules ((specimens.take i).map Specimen.bytes) unit).length⟩

theorem placed_eq (origin : String) (unit : Nat) (specimens : List Specimen) :
    placed origin unit specimens = placedFrom origin unit 0 0 specimens := by
  unfold placed placedFrom
  simp only [concatModules_eq, zero_add]

section joined

variable {depth unit : Nat} (hunit : unit = 1 ∨ unit = 2 ∨ unit ≠ 0 ∧ 4 ∣ unit) (origin : String)
  {specimens : List Specimen} (hl : ∀ s ∈ specimens, s.bytes.length < 2 ^ 32)

include hunit hl

/-- Joined specimens are divided into the same specimens, up to the first in too many wrappers. -/
theorem splitFrom_layFrom {pos : Nat} (hpos : 4 ∣ pos) (index : Nat) :
    splitFrom depth bitstreamValidator origin (layFrom unit pos (specimens.map Specimen.bytes))
      index 0 =
        (placedFrom origin unit index pos (specimens.takeWhile (Specimen.followed depth)),
        if specimens.all (Specimen.followed depth) then none else some .tooDeep) := by
  induction specimens generalizing pos index with
  | nil => exact splitFrom_of_end (le_refl 0)
  | cons s r ih =>
    obtain ⟨hs, hr⟩ := forall_mem_cons.1 hl
    have hstop : 4 ∣ pos + s.bytes.length := dvd_add hpos s.four_dvd_length
    have hpad := four_dvd_padding hstop hunit
    rw [map_cons, layFrom]
    generalize hk : padding (pos + s.bytes.length) unit = k at hpad
    generalize hd : layFrom unit (pos + s.bytes.length + k) (r.map Specimen.bytes) = d
    have hend : endsAt (zeros k ++ d) 0 := hd ▸ endsAt_layFrom hpad ..
    have hskip : skipZeros (s.bytes ++ zeros k ++ d) 0 = 0 := by
      rw [append_assoc, s.skipZeros_bytes]
    have hlong : ¬ (s.bytes ++ zeros k ++ d).length ≤ skipZeros (s.bytes ++ zeros k ++ d) 0 := by
      have := s.length_pos
      rw [length_append, length_append]
      omega
    have hnext := nextBuffer_specimen depth hs hend origin index
    rw [← append_assoc] at hnext
    by_cases hf : s.followed depth
    · rw [if_pos hf] at hnext
      have hu : 4 ∣ (s.bytes ++ zeros k).length := by
        rw [length_append, zeros, length_replicate]
        exact dvd_add s.four_dvd_length hpad
      have hrest : splitFrom depth bitstreamValidator origin (s.bytes ++ zeros k ++ d) (index + 1)
          s.bytes.length =
          divisionMoved (s.bytes ++ zeros k).length
          (splitFrom depth bitstreamValidator origin d (index + 1) 0) := by
        rw [splitFrom_of_skipZeros (skipZeros_zeros s.bytes k d),
          ← splitFrom_append hu origin (index + 1) 0, length_append, zeros, length_replicate]
        rfl
      rw [splitFrom_of_ok hlong (by rw [hskip]; exact hnext), hrest, ← hd,
        ih hr (dvd_add hstop hpad),
        takeWhile_cons_of_pos hf, placedFrom_cons, hk, all_cons, hf, Bool.true_and]
      split <;> rfl
    · rw [if_neg hf] at hnext
      rw [splitFrom_of_error hlong (by rw [hskip]; exact hnext), takeWhile_cons_of_neg hf, all_cons,
        Bool.eq_false_iff.2 hf]
      rfl

variable (depth) in
theorem split_concat_eq :
    split depth bitstreamValidator origin (concatModules (specimens.map Specimen.bytes) unit) =
      (placed origin unit (specimens.takeWhile (Specimen.followed depth)),
        if specimens.all (Specimen.followed depth) then none else some .tooDeep) := by
  rw [concatModules_eq, placed_eq]
  exact splitFrom_layFrom hunit origin hl (dvd_zero 4) 0

end joined

/-- Joined specimens, each in no more wrappers than are followed, are divided into just these
specimens at the places where they were put. If one is in more wrappers, the division gives those
before it and breaks off. -/
theorem split_concat {depth unit : Nat} (hunit : unit = 1 ∨ unit = 2 ∨ unit ≠ 0 ∧ 4 ∣ unit)
    (origin : String) {specimens : List Specimen} (hl : ∀ s ∈ specimens, s.bytes.length < 2 ^ 32) :
    ((∀ s ∈ specimens, s.cpus.length ≤ depth) →
      split depth bitstreamValidator origin (concatModules (specimens.map Specimen.bytes) unit) =
        (placed origin unit specimens, none)) ∧
    (∀ before s after, specimens = before ++ s :: after → (∀ t ∈ before, t.cpus.length ≤ depth) →
      depth < s.cpus.length →
      split depth bitstreamValidator origin (concatModules (specimens.map Specimen.bytes) unit) =
        (placed origin unit before, some .tooDeep)) := by
  rw [split_concat_eq depth hunit origin hl]
  constructor
  · intro hall
    have hf : ∀ s ∈ specimens, s.followed depth = true := fun s hs => decide_eq_true (hall s hs)
    rw [takeWhile_eq_self_iff.2 hf, if_pos (all_eq_true.2 hf)]
  · rintro before s after rfl hbefore hs
    have hf : ∀ t ∈ before, t.followed depth = true := fun t ht => decide_eq_true (hbefore t ht)
    have hs' : ¬ s.followed depth = true := fun h => absurd (of_decide_eq_true h) (not_le.2 hs)
    rw [takeWhile_append_of_pos hf]
    simp [hs']

/-- A module whose tag holds a magic and a zero word, and one in two wrappers. -/
def sampleSpecimens : List Specimen := [⟨magic ++ zeros 4, []⟩, ⟨[], [0x01000007, 7]⟩]

theorem sampleSpecimens_divided :
    (∀ s ∈ sampleSpecimens, s.bytes.length < 2 ^ 32) ∧
      (∀ s ∈ sampleSpecimens, s.cpus.length ≤ 500) ∧
      split 500 bitstreamValidator "lib.so"
        (concatModules (sampleSpecimens.map Specimen.bytes) 16) =
          (placed "lib.so" 16 sampleSpecimens, none) :=
  ⟨by decide, by decide,
    (split_concat (.inr (.inr ⟨by decide, by decide⟩)) "lib.so" (by decide)).1 (by decide)⟩

/-- A module in one wrapper more than a depth. -/
def deepSpecimen (depth : Nat) : Specimen := ⟨[], List.replicate (depth + 1) 7⟩

theorem followed_deepSpecimen (depth : Nat) :
    [deepSpecimen depth].all (Specimen.followed depth) = false := by
  simp [deepSpecimen, Specimen.followed]

/-- A module that is in too many wrappers is not found again, though it is short. -/
theorem deepSpecimen_lost :
    (deepSpecimen 500).bytes.length < 2 ^ 32 ∧
      split 500 bitstreamValidator "" (concatModules [(deepSpecimen 500).bytes] 1) ≠
        (placed "" 1 [deepSpecimen 500], none) := by
  have hl : (deepSpecimen 500).bytes.length < 2 ^ 32 := by
    rw [deepSpecimen, Specimen.length_bytes, length_replicate]
    decide
  refine ⟨hl, fun h => ?_⟩
  have hsplit := split_concat_eq 500 (.inl rfl) ""
    (show ∀ s ∈ [deepSpecimen 500], s.bytes.length < 2 ^ 32 by simpa using hl)
  rw [map_singleton, h, followed_deepSpecimen] at hsplit
  cases congrArg Prod.snd hsplit

end CallAtlas.Bitcode
