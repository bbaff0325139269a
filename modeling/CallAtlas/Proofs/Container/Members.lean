import CallAtlas.Container.Archive
import Mathlib

/-!
# Members lie in their archive

The reader of an archive goes from header to header: a `Turn` is what it does at one. A turn moves
it behind the header and the stated size, so it moves on by a whole header exactly if the size is
not below -1; and the data of a member lies behind its header and within the stated size exactly if
the length of a stored name does. These are the `Sound` turns, `Turn.sound_iff`. If all turns are
sound the reading ends, and its members hold the bytes of disjoint ranges of the archive, one behind
the other: `members_inside`.

Where the next header is looked for depends on the position alone, so a reading ends unless it comes
to a position twice. There are fewer positions with a header than `headerBound`, and a reading that
takes so many turns never ends: `read_endless`.
-/

namespace CallAtlas.Container.Archive

open Text List

variable {archive : String} {data : Bytes} {a b : Int} {c c' : Cursor} {fuel : Nat} {m : Member}
  {o : Option Int}

/-! ## Slices -/

theorem clamp_of_nonneg {n : Nat} {i : Int} (h : 0 ≤ i) : Bytes.clamp n i = min n i.toNat := by
  rw [Bytes.clamp, if_neg (by omega)]

theorem slice_of_nonneg (ha : 0 ≤ a) (hb : 0 ≤ b) :
    data.slice a b = (data.drop a.toNat).take (b.toNat - a.toNat) := by
  unfold Bytes.slice
  rw [clamp_of_nonneg ha, clamp_of_nonneg hb]
  dsimp only
  rcases le_total a.toNat data.length with h | h
  · rw [min_eq_right h]
    refine take_eq_take_iff.2 ?_
    rw [length_drop]
    omega
  · rw [min_eq_left h, drop_of_length_le h, drop_length, take_nil, take_nil]

theorem length_slice (ha : 0 ≤ a) (hb : 0 ≤ b) (hl : b ≤ data.length) :
    (data.slice a b).length = (b - a).toNat := by
  rw [slice_of_nonneg ha hb, length_take, length_drop]
  omega

theorem slice_slice {n : Int} (ha : 0 ≤ a) (hn : 0 ≤ n) (hb : a + n ≤ b) (hl : b ≤ data.length) :
    (data.slice a b).slice n (data.slice a b).length = data.slice (a + n) b := by
  have hlen := @length_slice data _ _ ha (by omega) hl
  rw [slice_of_nonneg hn (by omega), slice_of_nonneg ha (by omega),
    slice_of_nonneg (by omega) (by omega), drop_take, drop_drop, take_take]
  rw [slice_of_nonneg ha (by omega)] at hlen
  congr 1
  · omega
  · congr 1
    omega

/-! ## Turns -/

/-- The length of a name that is stored before the data of its member. -/
def nameLength? (rawName : String) : Option Int :=
  match rawName.toList with
  | '#' :: '1' :: '/' :: ds => readInt? ds
  | _ => none

/-- What the reader does at one header. -/
structure Turn where
  pos : Int
  header : Header
  found : Found
  after : Int

def Turn.member? (t : Turn) : Option Member :=
  match t.found with
  | .member m => some m
  | .table => none

def turnAt? (archive : String) (data : Bytes) (c : Cursor) : Option (Turn × Cursor) :=
  if (data.length : Int) < c.pos + headerSize then none
  else match readHeader archive c.pos (data.slice c.pos (c.pos + headerSize)),
    next archive data c with
    | .ok header, .ok (c', found) => some (⟨c.pos, header, found, c'.pos⟩, c')
    | _, _ => none

def turnsFrom (archive : String) (data : Bytes) : Nat → Cursor → List Turn
  | 0, _ => []
  | fuel + 1, c =>
    match turnAt? archive data c with
    | none => []
    | some (t, c') => t :: turnsFrom archive data fuel c'

def turns (data : Bytes) (archive : String) : List Turn :=
  if data.startsWith archiveMagic then turnsFrom archive data (headerBound data) .first else []

/-- The turn at a cursor, from what it reads. -/
structure Turn.Reads (archive : String) (data : Bytes) (c : Cursor) (t : Turn) (c' : Cursor) :
    Prop where
  pos : t.pos = c.pos
  room : c.pos + headerSize ≤ data.length
  header : readHeader archive c.pos (data.slice c.pos (c.pos + headerSize)) = .ok t.header
  fits : c.pos + headerSize + t.header.size ≤ data.length
  after : t.after = c.pos + headerSize + t.header.size + t.header.size % 2
  cursor : c'.pos = t.after
  placed : ∀ m, t.member? = some m →
    placeMember c.longNames t.header.name (c.pos + headerSize)
      (data.slice (c.pos + headerSize) (c.pos + headerSize + t.header.size)) = .ok m

variable {t : Turn}

theorem next_ok {p : Cursor × Found} (h : next archive data c = .ok p) :
    ∃ header, readHeader archive c.pos (data.slice c.pos (c.pos + headerSize)) = .ok header ∧
      c.pos + headerSize + header.size ≤ data.length ∧
      p.1.pos = c.pos + headerSize + header.size + header.size % 2 ∧
      ∀ m, p.2 = .member m → placeMember c.longNames header.name (c.pos + headerSize)
        (data.slice (c.pos + headerSize) (c.pos + headerSize + header.size)) = .ok m := by
  unfold next at h
  cases hr : readHeader archive c.pos (data.slice c.pos (c.pos + headerSize)) with
  | error e => rw [hr] at h; cases h
  | ok header =>
    rw [hr] at h
    simp only [bind, Except.bind] at h
    split at h
    · cases h
    · next hfits =>
      refine ⟨header, rfl, by simpa using hfits, ?_⟩
      split at h
      · obtain rfl := Except.ok.inj h
        exact ⟨rfl, fun m hm => by cases hm⟩
      · split at h
        · cases h
        · next m hp =>
          split at h
          · obtain rfl := Except.ok.inj h
            exact ⟨rfl, fun m hm => by cases hm⟩
          · obtain rfl := Except.ok.inj h
            refine ⟨rfl, fun m' hm => ?_⟩
            obtain rfl := Found.member.inj hm
            exact hp

theorem turnAt?_eq_some (h : turnAt? archive data c = some (t, c')) :
    next archive data c = .ok (c', t.found) ∧ t.Reads archive data c c' := by
  unfold turnAt? at h
  split at h
  · cases h
  · next hroom =>
    split at h
    · next header c1 found hr hn =>
      obtain ⟨rfl, rfl⟩ := Prod.mk.inj (Option.some.inj h)
      obtain ⟨header', hr', hfits, hpos, hm⟩ := next_ok hn
      obtain rfl : header = header' := Except.ok.inj (hr.symm.trans hr')
      refine ⟨hn, rfl, by omega, hr, hfits, hpos, rfl, fun m hm' => hm m ?_⟩
      cases found with
      | member m' => rw [Option.some.inj hm']
      | table => cases hm'
    · cases h

theorem readFrom_of_none (h : turnAt? archive data c = none) (fuel : Nat) :
    (readFrom archive data (fuel + 1) c).1 = [] ∧
    (readFrom archive data (fuel + 1) c).2 ≠ .endless := by
  unfold turnAt? at h
  unfold readFrom
  split at h
  · next hroom =>
    rw [if_pos hroom]
    simp
  · next hroom =>
    rw [if_neg hroom]
    split at h
    · cases h
    · next hno =>
      cases hn : next archive data c with
      | error e => simp
      | ok p =>
        obtain ⟨header, hr, -⟩ := next_ok hn
        exact absurd hn (hno header p.1 p.2 hr)

theorem readFrom_of_turn (h : turnAt? archive data c = some (t, c')) (fuel : Nat) :
    readFrom archive data (fuel + 1) c =
      (t.member?.toList ++ (readFrom archive data fuel c').1,
        (readFrom archive data fuel c').2) := by
  obtain ⟨hn, hr⟩ := turnAt?_eq_some h
  have hroom := hr.room
  rw [readFrom, if_neg (by omega), hn]
  cases hf : t.found with
  | table => simp [Turn.member?, hf]
  | member m => simp [Turn.member?, hf]

theorem readFrom_members (fuel : Nat) (c : Cursor) :
    (readFrom archive data fuel c).1 = (turnsFrom archive data fuel c).filterMap Turn.member? := by
  fun_induction turnsFrom archive data fuel c with
  | case1 c => rfl
  | case2 fuel c h => rw [(readFrom_of_none h fuel).1]; rfl
  | case3 fuel c t c' h ih =>
    rw [readFrom_of_turn h, ih]
    cases hm : t.member? with
    | none => rw [filterMap_cons_none hm]; rfl
    | some m => rw [filterMap_cons_some hm]; rfl

/-- A reading is given up exactly if it takes as many turns as are allowed. -/
theorem readFrom_endless (fuel : Nat) (c : Cursor) :
    (readFrom archive data fuel c).2 = .endless ↔
    (turnsFrom archive data fuel c).length = fuel := by
  fun_induction turnsFrom archive data fuel c with
  | case1 c => exact ⟨fun _ => rfl, fun _ => rfl⟩
  | case2 fuel c h => simp [(readFrom_of_none h fuel).2]
  | case3 fuel c t c' h ih =>
    rw [readFrom_of_turn h]
    simp [ih]

theorem startsWith_archiveMagic_of_thin (h : data.startsWith thinMagic) :
    data.startsWith archiveMagic = false := by
  obtain ⟨r, rfl⟩ := isPrefixOf_iff_prefix.1 h
  rfl

theorem members_eq (data : Bytes) (archive : String) :
    (read data archive).1 = (turns data archive).filterMap Turn.member? := by
  unfold read turns
  cases ht : data.startsWith thinMagic with
  | true => rw [startsWith_archiveMagic_of_thin ht]; rfl
  | false =>
    cases ha : data.startsWith archiveMagic with
    | false => rfl
    | true => exact readFrom_members (headerBound data) .first

/-! ## Readings that never end -/

theorem isSome_placeMember (names names' : Bytes) (rawName : String) (start : Int) (body : Bytes) :
    (placeMember names rawName start body).toOption.isSome =
      (placeMember names' rawName start body).toOption.isSome := by
  unfold placeMember
  split
  · split <;> rfl
  · split_ifs <;> rfl
  · split_ifs <;> rfl

theorem next_pos (pos : Int) (names names' : Bytes) :
    (next archive data ⟨pos, names⟩).toOption.map (·.1.pos) =
      (next archive data ⟨pos, names'⟩).toOption.map (·.1.pos) := by
  unfold next
  cases readHeader archive pos (data.slice pos (pos + headerSize)) with
  | error e => rfl
  | ok header =>
    simp only [bind, Except.bind]
    split
    · rfl
    · split
      · rfl
      · -- both members can be placed or neither can; their names may differ
        have hplace := isSome_placeMember names names' header.name (pos + headerSize)
          (data.slice (pos + headerSize) (pos + headerSize + header.size))
        generalize placeMember names _ _ _ = o, placeMember names' _ _ _ = o' at hplace
        cases o with
        | error e =>
          cases o' with
          | error e' => rfl
          | ok m' => cases hplace
        | ok m =>
          cases o' with
          | error e' => cases hplace
          | ok m' => dsimp only; split_ifs <;> rfl

def hop (archive : String) (data : Bytes) (pos : Int) : Option Int :=
  if (data.length : Int) < pos + headerSize then none
  else (next archive data ⟨pos, []⟩).toOption.map (·.1.pos)

theorem hop_eq (c : Cursor) : hop archive data c.pos = (turnAt? archive data c).map (·.2.pos) := by
  unfold hop turnAt?
  split_ifs
  · rfl
  · rw [next_pos c.pos [] c.longNames]
    cases hn : next archive data c with
    | error e => cases readHeader archive c.pos (data.slice c.pos (c.pos + headerSize)) <;> rfl
    | ok p =>
      obtain ⟨header, hr, -⟩ := next_ok hn
      rw [hr]
      rfl

def hops (archive : String) (data : Bytes) (n : Nat) : Option Int → Option Int :=
  (·.bind (hop archive data))^[n]

theorem hops_none (n : Nat) : hops archive data n none = none := by
  induction n with
  | zero => rfl
  | succ n ih => exact ih

theorem length_turnsFrom (n : Nat) (c : Cursor) :
    (turnsFrom archive data n c).length = n ↔ (hops archive data n (some c.pos)).isSome := by
  induction n generalizing c with
  | zero => exact ⟨fun _ => rfl, fun _ => rfl⟩
  | succ n ih =>
    have hstep : hops archive data (n + 1) (some c.pos) =
        hops archive data n (hop archive data c.pos) := rfl
    rw [hstep, hop_eq, turnsFrom]
    cases h : turnAt? archive data c with
    | none => simp [hops_none]
    | some p =>
      obtain ⟨t, c'⟩ := p
      rw [Option.map_some, ← ih c']
      simp

theorem hop_range {pos pos' : Int} (h : hop archive data pos = some pos') :
    -(data.length : Int) ≤ pos ∧ pos < data.length := by
  unfold hop at h
  split_ifs at h with hroom
  obtain ⟨⟨c', found⟩, hn, -⟩ := Option.map_eq_some_iff.1 h
  have hn : next archive data ⟨pos, []⟩ = .ok (c', found) := by
    cases hx : next archive data ⟨pos, []⟩ with
    | error e => rw [hx] at hn; cases hn
    | ok p => rw [hx] at hn; exact congrArg _ (Option.some.inj hn)
  obtain ⟨header, hr, -⟩ := next_ok hn
  have hmark : Bytes.slice (data.slice pos (pos + headerSize)) 58 60 = [0x60, 0x0A] := by
    unfold readHeader at hr
    split_ifs at hr with hm
    exact not_not.1 hm
  have hlen := congrArg length hmark
  rw [slice_of_nonneg (by decide) (by decide)] at hlen
  simp only [length_take, length_drop, length_cons, Bytes.slice] at hlen
  have hlong : 60 ≤ Bytes.clamp data.length (pos + headerSize) - Bytes.clamp data.length pos := by
    omega
  have hsize : (headerSize : Int) = 60 := rfl
  unfold Bytes.clamp at hlong
  split_ifs at hlong <;> omega

theorem hops_add (m n : Nat) (o : Option Int) :
    hops archive data (m + n) o = hops archive data n (hops archive data m o) := by
  unfold hops
  rw [add_comm, Function.iterate_add_apply]

theorem exists_hops {m n : Nat} (h : (hops archive data n o).isSome) (hm : m ≤ n) :
    ∃ pos, hops archive data m o = some pos := by
  obtain ⟨d, rfl⟩ := Nat.exists_eq_add_of_le hm
  rw [hops_add] at h
  cases hq : hops archive data m o with
  | some pos => exact ⟨pos, rfl⟩
  | none => rw [hq, hops_none] at h; cases h

theorem exists_revisit (h : (hops archive data (headerBound data) o).isSome) :
    ∃ k d, 0 < d ∧ (hops archive data k o).isSome ∧
    hops archive data (k + d) o = hops archive data k o := by
  have hrange : ∀ k ∈ Finset.range (headerBound data),
      (hops archive data k o).getD 0 ∈ Finset.Ico (-(data.length : Int)) data.length := by
    intro k hk
    rw [Finset.mem_range] at hk
    obtain ⟨pos, hpos⟩ := exists_hops h hk.le
    obtain ⟨pos', hpos'⟩ := exists_hops (m := k + 1) h hk
    rw [hops_add, hpos] at hpos'
    rw [hpos, Finset.mem_Ico]
    exact hop_range hpos'
  have hcard : (Finset.Ico (-(data.length : Int)) data.length).card <
      (Finset.range (headerBound data)).card := by
    rw [Finset.card_range, Int.card_Ico, headerBound]
    omega
  obtain ⟨i, hi, j, hj, hne, he⟩ := Finset.exists_ne_map_eq_of_card_lt_of_maps_to hcard hrange
  rw [Finset.mem_range] at hi hj
  obtain ⟨pos, hpos⟩ := exists_hops h hi.le
  obtain ⟨pos', hpos'⟩ := exists_hops h hj.le
  rw [hpos, hpos'] at he
  obtain rfl : pos = pos' := he
  rcases lt_or_gt_of_ne hne with hlt | hlt
  · exact ⟨i, j - i, by omega, by rw [hpos]; rfl, by rw [Nat.add_sub_cancel' hlt.le, hpos, hpos']⟩
  · exact ⟨j, i - j, by omega, by rw [hpos']; rfl, by rw [Nat.add_sub_cancel' hlt.le, hpos, hpos']⟩

theorem hops_forever (h : (hops archive data (headerBound data) o).isSome) (n : Nat) :
    (hops archive data n o).isSome := by
  obtain ⟨k, d, hd, hk, hkd⟩ := exists_revisit h
  have hagain : ∀ i, hops archive data (k + d * i) o = hops archive data k o := by
    intro i
    induction i with
    | zero => rfl
    | succ i ih => rw [Nat.mul_succ, add_comm (d * i), ← add_assoc, hops_add, hkd, ← hops_add, ih]
  have hle : n ≤ k + d * n := le_add_left (Nat.le_mul_of_pos_left n hd)
  obtain ⟨pos, hpos⟩ := exists_hops (by rw [hagain n]; exact hk) hle
  rw [hpos]
  rfl

theorem turnsFrom_forever (c : Cursor) :
    (turnsFrom archive data (headerBound data) c).length = headerBound data ↔
      ∀ n, (turnsFrom archive data n c).length = n := by
  refine ⟨fun h n => ?_, fun h => h _⟩
  rw [length_turnsFrom] at h ⊢
  exact hops_forever h n

theorem read_endless (data : Bytes) (archive : String) : (read data archive).2 = .endless ↔
      data.startsWith archiveMagic ∧ ∀ n, (turnsFrom archive data n .first).length = n := by
  rw [← turnsFrom_forever, ← readFrom_endless]
  unfold read
  cases ht : data.startsWith thinMagic with
  | true => simp [startsWith_archiveMagic_of_thin ht]
  | false => cases ha : data.startsWith archiveMagic <;> simp

/-! ## Sound turns -/

/-- The size does not lead back into the header, and a name that is stored before the data of a
member is not longer than the size. -/
@[mk_iff sound_def] structure Turn.Sound (t : Turn) : Prop where
  size : -1 ≤ t.header.size
  name : t.member?.isSome → ∀ n ∈ nameLength? t.header.name, 0 ≤ n ∧ n ≤ max 0 t.header.size

instance (t : Turn) : Decidable t.Sound := decidable_of_iff' _ (Turn.sound_def ..)

/-- The byte behind the data of a member. -/
def Member.stop (m : Member) : Int := m.offset + m.data.length

/-- The member holds the bytes of its range in an archive. -/
structure Member.CutFrom (data : Bytes) (m : Member) : Prop where
  start : 0 ≤ m.offset
  inside : m.stop ≤ data.length
  bytes : m.data = data.slice m.offset m.stop

/-- The data of the member lie behind the header, within the stated size. -/
def Turn.Holds (t : Turn) (m : Member) : Prop :=
  t.pos + headerSize ≤ m.offset ∧ m.stop ≤ t.pos + headerSize + max 0 t.header.size

theorem slice_all (body : Bytes) : body.slice 0 body.length = body := by
  rw [slice_of_nonneg le_rfl (by omega)]
  simp

theorem placeMember_ok {names body : Bytes} {rawName : String} {start : Int}
    (h : placeMember names rawName start body = .ok m) :
    m.offset = start + (nameLength? rawName).getD 0 ∧
      m.data = body.slice ((nameLength? rawName).getD 0) body.length := by
  have hplain : nameLength? rawName = none → m.offset = start → m.data = body →
      m.offset = start + (nameLength? rawName).getD 0 ∧
        m.data = body.slice ((nameLength? rawName).getD 0) body.length := by
    intro hn ho hd
    rw [hn, Option.getD_none, slice_all, add_zero]
    exact ⟨ho, hd⟩
  unfold placeMember at h
  split at h
  · next ds hds =>
    have hn : nameLength? rawName = readInt? ds := by rw [nameLength?, hds]; rfl
    split at h
    · cases h
    · next n hread =>
      obtain rfl := Except.ok.inj h
      rw [hn, hread]
      exact ⟨rfl, rfl⟩
  · next ds hds =>
    have hn : nameLength? rawName = none := by rw [nameLength?, hds]; rfl
    split_ifs at h <;> obtain rfl := Except.ok.inj h <;> exact hplain hn rfl rfl
  · next hno _ =>
    have hn : nameLength? rawName = none := by
      unfold nameLength?
      split
      · next ds hds => exact absurd hds (hno ds)
      · rfl
    split_ifs at h <;> obtain rfl := Except.ok.inj h <;> exact hplain hn rfl rfl

theorem Turn.Reads.member (h : t.Reads archive data c c') (hm : t.member? = some m) :
    m.offset = t.pos + headerSize + (nameLength? t.header.name).getD 0 ∧
      m.data = (data.slice (t.pos + headerSize) (t.pos + headerSize + t.header.size)).slice
        ((nameLength? t.header.name).getD 0)
        (data.slice (t.pos + headerSize) (t.pos + headerSize + t.header.size)).length := by
  rw [h.pos]
  exact placeMember_ok (h.placed m hm)

/-- A member of a sound turn lies behind its header and holds the bytes there. -/
theorem Turn.Sound.member (hs : t.Sound) (h : t.Reads archive data c c') (hp : 0 ≤ t.pos)
    (hm : t.member? = some m) : t.Holds m ∧ m.CutFrom data := by
  obtain ⟨ho, hd⟩ := h.member hm
  have hsize : (headerSize : Int) = 60 := rfl
  have hroom := h.room
  have hfits := h.fits
  rw [← h.pos] at hroom hfits
  have hrange : 0 ≤ (nameLength? t.header.name).getD 0 ∧
      (nameLength? t.header.name).getD 0 ≤ max 0 t.header.size := by
    cases hn : nameLength? t.header.name with
    | none => simp
    | some n => exact hs.name (by rw [hm]; rfl) n hn
  generalize (nameLength? t.header.name).getD 0 = n at ho hd hrange
  have hlow := hs.size
  by_cases hneg : t.header.size < 0
  · -- a size of -1: nothing stands behind the header
    have hn : n = 0 := by omega
    have hbody : data.slice (t.pos + headerSize) (t.pos + headerSize + t.header.size) = [] := by
      refine length_eq_zero_iff.1 ?_
      rw [length_slice (by omega) (by omega) hfits]
      omega
    have hnil : m.data = [] := by rw [hd, hbody, hn]; rfl
    have hstop : m.stop = m.offset := by rw [Member.stop, hnil]; simp
    refine ⟨⟨by omega, by omega⟩, by omega, by omega, ?_⟩
    rw [hnil, hstop, slice_of_nonneg (by omega) (by omega), Nat.sub_self, take_zero]
  · have hdata : m.data =
        data.slice (t.pos + headerSize + n) (t.pos + headerSize + t.header.size) := by
      rw [hd, slice_slice (by omega) (by omega) (by omega) hfits]
    have hlen : (m.data.length : Int) = t.header.size - n := by
      rw [hdata, length_slice (by omega) (by omega) hfits]
      omega
    have hstop : m.stop = t.pos + headerSize + t.header.size := by
      rw [Member.stop]
      omega
    refine ⟨⟨by omega, by omega⟩, by omega, by omega, ?_⟩
    rw [hstop, ho, hdata]

theorem Turn.sound_iff (h : t.Reads archive data c c') (hp : 0 ≤ t.pos) :
    t.Sound ↔ t.pos + headerSize ≤ t.after ∧ ∀ m, t.member? = some m → t.Holds m := by
  have hafter := h.after
  rw [← h.pos] at hafter
  constructor
  · intro hs
    have hlow := hs.size
    exact ⟨by omega, fun m hm => (hs.member h hp hm).1⟩
  · rintro ⟨hmove, hholds⟩
    refine ⟨by omega, fun hsome n hn => ?_⟩
    obtain ⟨m, hm⟩ := Option.isSome_iff_exists.1 hsome
    obtain ⟨h1, h2⟩ := hholds m hm
    obtain ⟨ho, -⟩ := h.member hm
    rw [Option.mem_def.1 hn, Option.getD_some] at ho
    have hstop : m.offset ≤ m.stop := by rw [Member.stop]; omega
    omega

/-! ## Whole readings -/

theorem turnsFrom_reads (ht : t ∈ turnsFrom archive data fuel c) :
    ∃ c0 c1, t.Reads archive data c0 c1 := by
  fun_induction turnsFrom archive data fuel c with
  | case1 c => cases ht
  | case2 fuel c h => cases ht
  | case3 fuel c t c' h ih =>
    rcases mem_cons.1 ht with rfl | ht
    · exact ⟨c, c', (turnAt?_eq_some h).2⟩
    · exact ih ht

theorem turnsFrom_head (h : (turnsFrom archive data fuel c).head? = some t) : t.pos = c.pos := by
  fun_induction turnsFrom archive data fuel c with
  | case1 c => cases h
  | case2 fuel c ht => cases h
  | case3 fuel c t c' ht =>
    obtain rfl := Option.some.inj h
    exact (turnAt?_eq_some ht).2.pos

theorem turnsFrom_chain (fuel : Nat) (c : Cursor) :
    (turnsFrom archive data fuel c).IsChain fun t t' => t'.pos = t.after := by
  fun_induction turnsFrom archive data fuel c with
  | case1 c => exact .nil
  | case2 fuel c h => exact .nil
  | case3 fuel c t c' h ih =>
    refine isChain_cons.2 ⟨fun t' ht' => ?_, ih⟩
    rw [turnsFrom_head ht']
    exact (turnAt?_eq_some h).2.cursor

structure Ordered (data : Bytes) (pos : Int) (ts : List Turn) : Prop where
  behind : ∀ t ∈ ts, pos ≤ t.pos
  apart : ts.Pairwise fun a b => a.after ≤ b.pos
  count : ts = [] ∨ pos + headerSize * ts.length ≤ data.length

theorem turnsFrom_ordered (hc : 0 ≤ c.pos) (hs : ∀ t ∈ turnsFrom archive data fuel c, t.Sound) :
    Ordered data c.pos (turnsFrom archive data fuel c) := by
  fun_induction turnsFrom archive data fuel c with
  | case1 c => exact ⟨fun t ht => absurd ht not_mem_nil, .nil, .inl rfl⟩
  | case2 fuel c h => exact ⟨fun t ht => absurd ht not_mem_nil, .nil, .inl rfl⟩
  | case3 fuel c t c' h ih =>
    obtain ⟨ht, hrest⟩ := forall_mem_cons.1 hs
    have hr := (turnAt?_eq_some h).2
    have hpos := hr.pos
    have hcur := hr.cursor
    have hroom := hr.room
    have hmove := ((Turn.sound_iff hr (by omega)).1 ht).1
    have ho := ih (by omega) hrest
    refine ⟨?_, .cons ?_ ho.apart, .inr ?_⟩
    · refine forall_mem_cons.2 ⟨by omega, fun s hs => ?_⟩
      have := ho.behind s hs
      omega
    · intro s hs
      have := ho.behind s hs
      omega
    · rw [length_cons, Nat.cast_add, mul_add]
      rcases ho.count with hnil | hcount
      · rw [hnil]
        simpa using hroom
      · omega

theorem mem_turns (ht : t ∈ turns data archive) : ∃ c c', t.Reads archive data c c' := by
  unfold turns at ht
  split_ifs at ht
  · exact turnsFrom_reads ht
  · cases ht

theorem turns_chain (data : Bytes) (archive : String) :
    (turns data archive).IsChain fun t t' => t'.pos = t.after := by
  unfold turns
  split_ifs
  · exact turnsFrom_chain _ _
  · exact .nil

theorem turns_ordered (hs : ∀ t ∈ turns data archive, t.Sound) :
    Ordered data archiveMagic.length (turns data archive) := by
  unfold turns at hs ⊢
  split_ifs at hs ⊢
  · exact turnsFrom_ordered (by decide) hs
  · exact ⟨fun t ht => absurd ht not_mem_nil, .nil, .inl rfl⟩

theorem members_apart {ts : List Turn} (ho : ts.Pairwise fun a b => a.after ≤ b.pos)
    (hh : ∀ t ∈ ts, t.pos + headerSize + max 0 t.header.size ≤ t.after ∧ ∀ m, t.member? = some m →
      t.Holds m) :
    (ts.filterMap Turn.member?).Pairwise fun a b => a.offset < b.offset ∧ a.stop ≤ b.offset := by
  refine pairwise_filterMap.2 (ho.imp_of_mem ?_)
  intro a b ha hb hab m hm m' hm'
  obtain ⟨hmove, hin⟩ := hh a ha
  have h1 := hin m hm
  have h2 := (hh b hb).2 m' hm'
  unfold Turn.Holds Member.stop at h1 h2
  unfold Member.stop
  have hsize : (headerSize : Int) = 60 := rfl
  omega

/-- **Members lie in their archive.** A reading is endless exactly if it takes any number of turns,
each of which begins where the one before ended. A turn at a position inside the archive is sound
exactly if it moves on by a header at least and its member lies behind the header, within the stated
size. If all turns are sound the reading ends, every turn moves on by a header at least, and the
members hold the bytes of ranges of the archive that lie one behind the other. -/
theorem members_inside (data : Bytes) (archive : String) : ((read data archive).2 = .endless ↔
      data.startsWith archiveMagic = true ∧ ∀ n, (turnsFrom archive data n .first).length = n) ∧
    ((turns data archive).IsChain fun t t' => t'.pos = t.after) ∧
    (∀ t ∈ turns data archive, 0 ≤ t.pos →
      (t.Sound ↔ t.pos + headerSize ≤ t.after ∧ ∀ m, t.member? = some m → t.Holds m)) ∧
    ((∀ t ∈ turns data archive, t.Sound) →
      (read data archive).2 ≠ .endless ∧ headerSize * (turns data archive).length ≤ data.length ∧
      (∀ t ∈ turns data archive, 0 ≤ t.pos ∧ t.pos + headerSize ≤ t.after) ∧
      (∀ m ∈ (read data archive).1, m.CutFrom data) ∧
      (read data archive).1.Pairwise fun a b => a.offset < b.offset ∧ a.stop ≤ b.offset) := by
  refine ⟨read_endless data archive, turns_chain data archive, ?_, fun hs => ?_⟩
  · intro t ht hp
    obtain ⟨c, c', hr⟩ := mem_turns ht
    exact Turn.sound_iff hr hp
  · have ho := turns_ordered hs
    have hcount : headerSize * (turns data archive).length ≤ data.length := by
      rcases ho.count with hnil | hcount
      · rw [hnil]
        exact Nat.zero_le _
      · omega
    have hpos : ∀ t ∈ turns data archive, 0 ≤ t.pos :=
      fun t ht => le_trans (Int.natCast_nonneg _) (ho.behind t ht)
    have hmove : ∀ t ∈ turns data archive, t.pos + headerSize ≤ t.after ∧
        t.pos + headerSize + max 0 t.header.size ≤ t.after ∧ ∀ m, t.member? = some m → t.Holds m ∧
        m.CutFrom data := by
      intro t ht
      obtain ⟨c, c', hr⟩ := mem_turns ht
      have hafter := hr.after
      have hlow := (hs t ht).size
      rw [← hr.pos] at hafter
      exact ⟨by omega, by omega, fun m hm => (hs t ht).member hr (hpos t ht) hm⟩
    refine ⟨?_, hcount, fun t ht => ⟨hpos t ht, (hmove t ht).1⟩, ?_, ?_⟩
    · intro hend
      obtain ⟨ha, hn⟩ := (read_endless data archive).1 hend
      have hlen : (turns data archive).length = headerBound data := by
        rw [turns, if_pos ha, hn]
      rw [hlen] at hcount
      unfold headerBound headerSize at hcount
      omega
    · intro m hm
      rw [members_eq] at hm
      obtain ⟨t, ht, hm⟩ := mem_filterMap.1 hm
      exact ((hmove t ht).2.2 m hm).2
    · rw [members_eq]
      exact members_apart ho.apart fun t ht =>
        ⟨(hmove t ht).2.1, fun m hm => ((hmove t ht).2.2 m hm).1⟩

/-- The header of a member, with any text for its size. -/
def textHeader (name size : String) : Bytes :=
  fill 16 name ++ fill 12 "0" ++ fill 6 "0" ++ fill 6 "0" ++ fill 8 "644" ++ fill 10 size ++
    [0x60, 0x0A]

/-- An archive with a member whose name stands before its data, a member of the size -1 and one of
an odd size. -/
def sampleArchive : Bytes :=
  archiveMagic ++ textHeader "#1/2" "5" ++ Bytes.ofAscii "n:abc\n" ++ textHeader "b/" "-1" ++
    textHeader "c/" " +3" ++ Bytes.ofAscii "xyz"

set_option maxRecDepth 100000 in
theorem sampleArchive_inside : (∀ t ∈ turns sampleArchive "", t.Sound) ∧
    (read sampleArchive "").1.map Member.offset = [70, 134, 194] ∧
    ∀ m ∈ (read sampleArchive "").1, m.CutFrom sampleArchive := by
  have hs : ∀ t ∈ turns sampleArchive "", t.Sound := by decide +kernel
  exact ⟨hs, by decide +kernel, ((members_inside sampleArchive "").2.2.2 hs).2.2.2.1⟩

/-- An archive whose only header has the size -60, so that the next header is looked for where it
stands itself. -/
def standstill : Bytes := archiveMagic ++ textHeader "a/" "-60"

/-- An archive with a stored name of the length -3: the name is read up to the third byte from the
end of the body, and the data from there on, but the member is said to begin in its header. -/
def shortenedName : Bytes := archiveMagic ++ textHeader "#1/-3" "6" ++ Bytes.ofAscii "abcdef"

theorem read_endless_of_hop (ha : data.startsWith archiveMagic)
    (hh : hop archive data archiveMagic.length = some (archiveMagic.length : Int)) :
    (read data archive).2 = .endless := by
  refine (read_endless data archive).2 ⟨ha, fun n => (length_turnsFrom n .first).2 ?_⟩
  have hstay : hops archive data n (some archiveMagic.length) = some (archiveMagic.length : Int) :=
    Function.iterate_fixed hh n
  exact Option.isSome_iff_exists.2 ⟨_, hstay⟩

set_option maxRecDepth 100000 in
/-- The first archive is read forever, and the only member of the second does not hold the bytes of
its range. -/
theorem standstill_endless : (read standstill "").2 = .endless ∧
      read shortenedName "" = ([⟨"abc", 65, Bytes.ofAscii "def"⟩], .complete) ∧
      shortenedName.slice 65 68 ≠ Bytes.ofAscii "def" :=
  ⟨read_endless_of_hop (by decide +kernel) (by decide +kernel), by decide +kernel⟩

end CallAtlas.Container.Archive
