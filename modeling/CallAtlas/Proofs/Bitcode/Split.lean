import CallAtlas.Bitcode.Buffer
import CallAtlas.Bitcode.Build
import Mathlib

/-!
# Dividing a section loses and invents nothing

`split_partition`: the buffers that a section is divided into are numbered from zero, lie one behind
the other inside the section, and each holds the bytes of its range and starts like a module; if the
division comes to its end, all bytes outside the buffers are zero. A division that breaks off
complains about a malformed module, unless the validator cannot do its check or more wrappers lie
one inside the other than are followed.

The statements about a whole division are inductions along `splitFrom`; what one step contributes is
`nextBuffer_slice` for a buffer and `nextBuffer_error` for a failure. The last part builds wrappers
inside wrappers: `nested_wrap`.
-/

namespace CallAtlas.Bitcode

open List Bytes

variable {depth : Nat} {v : Validator} {origin : String} {data : Bytes}

variable {d : Bytes} {n pos start : Nat}

/-! ## Wrappers inside wrappers -/

/-- From a byte on, `n` wrappers lie one inside the other. -/
def Nested : Nat → Bytes → Nat → Prop
  | 0, _, _ => True
  | n + 1, data, start =>
    data.sub start 4 = wrapperMagic ∧
      ∃ inner stop, wrapperRange data start = .ok (inner, stop) ∧ Nested n (data.take stop) inner

/-- The walk gives up exactly where more wrappers are nested than it may follow. -/
theorem walk_tooDeep :
    walk depth data start = .error .tooDeep ↔ Nested (depth + 1) data start := by
  induction depth generalizing data start with
  | zero =>
    unfold walk Nested
    split_ifs with hm hm'
    · cases wrapperRange data start <;> simp [hm, Nested, Prod.ext_iff]
    · cases walkBlocks data (start + 4) <;> simp [hm]
    · simp [hm]
  | succ depth ih =>
    unfold walk Nested
    split_ifs with hm hm'
    · cases wrapperRange data start with
      | error f => simp
      | ok r =>
        have hin := @ih (data.take r.2) r.1
        cases hw : walk depth (data.take r.2) r.1 <;> simpa [hm, hw, Prod.ext_iff] using hin
    · cases walkBlocks data (start + 4) <;> simp [hm]
    · simp [hm]

/-! ## Ranges -/

def Buffer.stop (b : Buffer) : Nat := b.offset + b.data.length

def Buffer.Holds (b : Buffer) (i : Nat) : Prop := b.offset ≤ i ∧ i < b.stop

/-- The buffer holds the bytes of its range in a section, and they start like a module. -/
structure Buffer.CutFrom (data : Bytes) (b : Buffer) : Prop where
  inside : b.stop ≤ data.length
  bytes : b.data = data.sub b.offset b.data.length
  marked : startsModule b.data

theorem length_sub {stop : Nat} (h₁ : start ≤ stop) (h₂ : stop ≤ data.length) :
    (data.sub start (stop - start)).length = stop - start := by
  simp only [sub, length_take, length_drop]
  omega

/-- What begins with a marker in the section begins with one in the buffer. -/
theorem startsModule_sub {stop : Nat} (hm : isMarker data start) (h : start + 4 ≤ stop) :
    Buffer.startsModule (data.sub start (stop - start)) := by
  have hpre : data.sub start 4 <+: data.sub start (stop - start) := by
    exact take_prefix_take_left (by omega)
  simp only [isMarker, Bool.or_eq_true, decide_eq_true_eq] at hm
  simp only [Buffer.startsModule, startsWith, Bool.or_eq_true, isPrefixOf_iff_prefix]
  rcases hm with hm | hm
  · exact .inl (hm ▸ hpre)
  · exact .inr (hm ▸ hpre)

theorem nextBuffer_cut {index stop : Nat} {b : Buffer}
    (h : nextBuffer depth v origin data index pos = .ok (b, stop)) :
    b.CutFrom data ∧ b.index = index ∧ b.offset = pos ∧ b.stop = stop ∧ pos < stop := by
  obtain ⟨hm, h1, h2, rfl, -⟩ := nextBuffer_slice h
  have hl : (data.sub pos (stop - pos)).length = stop - pos := length_sub (by omega) h2
  refine ⟨⟨?_, ?_, startsModule_sub hm h1⟩, rfl, rfl, ?_, by omega⟩
  · show pos + (data.sub pos (stop - pos)).length ≤ data.length
    omega
  · show data.sub pos (stop - pos) = data.sub pos (data.sub pos (stop - pos)).length
    rw [hl]
  · show pos + (data.sub pos (stop - pos)).length = stop
    omega

/-! ## Padding -/

theorem le_skipZeros (data : Bytes) (pos : Nat) : pos ≤ skipZeros data pos := Nat.le_add_right ..

theorem zero_of_lt_skipZeros {i : Nat} {x : UInt8} (h₁ : pos ≤ i) (h₂ : i < skipZeros data pos)
    (hx : data[i]? = some x) : x = 0 := by
  obtain ⟨j, rfl⟩ := Nat.exists_eq_add_of_le h₁
  have hj : j < ((data.drop pos).takeWhile (· = 0)).length := by
    unfold skipZeros at h₂
    omega
  have hget : (data.drop pos)[j]? = some x := by rw [getElem?_drop, hx]
  have hpre := takeWhile_prefix (fun y : UInt8 => decide (y = 0)) (l := data.drop pos)
  have hmem : x ∈ (data.drop pos).takeWhile (· = 0) := by
    have := hpre.getElem hj
    rw [getElem?_eq_getElem (lt_of_lt_of_le hj hpre.length_le), ← this] at hget
    exact Option.some.inj hget ▸ getElem_mem hj
  simpa using mem_takeWhile_imp hmem

/-! ## The whole division -/

theorem splitFrom_of_end {index : Nat} (h : data.length ≤ skipZeros data pos) :
    splitFrom depth v origin data index pos = ([], none) := by
  rw [splitFrom, if_pos h]

theorem splitFrom_of_error {index : Nat} {e : Failure}
    (hl : ¬ data.length ≤ skipZeros data pos)
    (h : nextBuffer depth v origin data index (skipZeros data pos) = .error e) :
    splitFrom depth v origin data index pos = ([], some e) := by
  rw [splitFrom, if_neg hl]
  split <;> next h' =>
    rw [h] at h'
    cases h' <;> rfl

theorem splitFrom_of_ok {index stop : Nat} {b : Buffer}
    (hl : ¬ data.length ≤ skipZeros data pos)
    (h : nextBuffer depth v origin data index (skipZeros data pos) = .ok (b, stop)) :
    splitFrom depth v origin data index pos =
      (b :: (splitFrom depth v origin data (index + 1) stop).1,
        (splitFrom depth v origin data (index + 1) stop).2) := by
  rw [splitFrom, if_neg hl]
  split <;> next h' =>
    rw [h] at h'
    cases h' <;> rfl

theorem splitFrom_le_offset (index pos : Nat) :
    ∀ b ∈ (splitFrom depth v origin data index pos).1, pos ≤ b.offset := by
  fun_induction splitFrom depth v origin data index pos with
  | case1 | case2 => simp
  | case3 index pos _ b stop h rest ih =>
    obtain ⟨-, -, ho, -, hlt⟩ := nextBuffer_cut h
    have hp := le_skipZeros data pos
    simp only [forall_mem_cons]
    refine ⟨by omega, fun c hc => ?_⟩
    have := ih c hc
    omega

theorem splitFrom_index (index pos : Nat) :
    (splitFrom depth v origin data index pos).1.map Buffer.index =
      List.range' index (splitFrom depth v origin data index pos).1.length := by
  fun_induction splitFrom depth v origin data index pos with
  | case1 | case2 => rfl
  | case3 index pos _ b stop h rest ih =>
    obtain ⟨-, hi, -⟩ := nextBuffer_cut h
    simp only [map_cons, length_cons, range'_succ, hi, ih, rest]

theorem splitFrom_cut (index pos : Nat) :
    ∀ b ∈ (splitFrom depth v origin data index pos).1, b.CutFrom data := by
  fun_induction splitFrom depth v origin data index pos with
  | case1 | case2 => simp
  | case3 index pos _ b stop h rest ih =>
    simp only [forall_mem_cons]
    exact ⟨(nextBuffer_cut h).1, ih⟩

theorem splitFrom_increasing (index pos : Nat) :
    (splitFrom depth v origin data index pos).1.Pairwise fun a b => a.offset < b.offset ∧
    a.stop ≤ b.offset := by
  fun_induction splitFrom depth v origin data index pos with
  | case1 | case2 => exact .nil
  | case3 index pos _ b stop h rest ih =>
    obtain ⟨-, -, ho, hs, hlt⟩ := nextBuffer_cut h
    refine .cons (fun c hc => ?_) ih
    have : stop ≤ c.offset := splitFrom_le_offset (index + 1) stop c hc
    omega

theorem splitFrom_rest_zero (index pos : Nat)
    (hend : (splitFrom depth v origin data index pos).2 = none) {i : Nat}
    {x : UInt8} (hi : pos ≤ i) (hx : data[i]? = some x)
    (hout : ∀ b ∈ (splitFrom depth v origin data index pos).1, ¬ b.Holds i) : x = 0 := by
  fun_induction splitFrom depth v origin data index pos with
  | case1 index pos hl =>
    have hlt : i < data.length := (List.getElem?_eq_some_iff.1 hx).1
    exact zero_of_lt_skipZeros hi (by omega) hx
  | case2 => cases hend
  | case3 index pos _ b stop h rest ih =>
    obtain ⟨-, -, ho, hs, hlt⟩ := nextBuffer_cut h
    by_cases hz : i < skipZeros data pos
    · exact zero_of_lt_skipZeros hi hz hx
    · -- The byte is not padding before the buffer and not in it, so it lies behind.
      have hb := hout b (mem_cons_self ..)
      unfold Buffer.Holds at hb
      exact ih hend (by omega) fun c hc => hout c (mem_cons_of_mem _ hc)

/-! ## Failures -/

/-- The binary that a complaint about a section names. -/
def namedOrigin (origin : String) : Option String := if origin.isEmpty then none else some origin

/-- Why a division may break off. -/
inductive Breaks (depth : Nat) (v : Validator) (origin : String) (data : Bytes) :
    Failure → Prop where
  | malformed (c : Complaint) : Breaks depth v origin data (c.failure (namedOrigin origin))
  | unchecked {b : Buffer} {e : Failure} (hb : b.data <:+: data) (h : v.check depth b = .error e) :
    Breaks depth v origin data e
  | nested {pos : Nat} (h : Nested (depth + 1) data pos) : Breaks depth v origin data .tooDeep

theorem nextBuffer_error {index : Nat} {e : Failure}
    (h : nextBuffer depth v origin data index pos = .error e) :
    Breaks depth v origin data e := by
  unfold nextBuffer at h
  dsimp only at h
  split at h
  · cases h
    exact .malformed _
  · split at h
    · next w hw =>
      cases h
      cases w with
      | malformed f => exact .malformed _
      | tooDeep => exact .nested (walk_tooDeep.1 hw)
    · split at h
      · next hc =>
        cases h
        exact .unchecked ((List.take_prefix ..).isInfix.trans (drop_suffix ..).isInfix) hc
      · cases h
        exact .malformed _
      · cases h

theorem splitFrom_breaks (index pos : Nat) {e : Failure}
    (h : (splitFrom depth v origin data index pos).2 = some e) :
    Breaks depth v origin data e := by
  fun_induction splitFrom depth v origin data index pos with
  | case1 => cases h
  | case2 index pos _ e' he =>
    cases h
    exact nextBuffer_error he
  | case3 index pos _ b stop _ rest ih => exact ih h

/-- The buffers of a section are numbered in order, do not overlap, hold what the section holds
there and start like modules; unless the division breaks off, the section is zero outside them. It
breaks off for a malformed module, for bytes that the validator cannot check, or for wrappers nested
too deep. -/
theorem split_partition (depth : Nat) (v : Validator) (origin : String) (data : Bytes) :
    ((split depth v origin data).1.map Buffer.index =
      List.range (split depth v origin data).1.length) ∧
    ((split depth v origin data).1.Pairwise fun a b => a.offset < b.offset ∧ a.stop ≤ b.offset) ∧
    (∀ b ∈ (split depth v origin data).1, b.CutFrom data) ∧
    (∀ e, (split depth v origin data).2 = some e → Breaks depth v origin data e) ∧
    ((split depth v origin data).2 = none →
      ∀ i x, data[i]? = some x → (∀ b ∈ (split depth v origin data).1, ¬ b.Holds i) → x = 0) := by
  refine ⟨?_, splitFrom_increasing 0 0, splitFrom_cut 0 0, fun e => splitFrom_breaks 0 0, ?_⟩
  · rw [range_eq_range']
    exact splitFrom_index 0 0
  · intro hend i x hx hout
    exact splitFrom_rest_zero 0 0 hend (Nat.zero_le i) hx hout

/-! ## Building nested wrappers -/

theorem length_ofNat (width n : Nat) : (ofNat width n).length = width := by
  induction width generalizing n with
  | zero => rfl
  | succ width ih => rw [ofNat, length_cons, ih]

theorem littleEndian_ofNat {width : Nat} (h : n < 256 ^ width) :
    littleEndian (ofNat width n) = n := by
  induction width generalizing n with
  | zero =>
    rw [ofNat, littleEndian]
    omega
  | succ width ih =>
    have hd : n / 256 < 256 ^ width := Nat.div_lt_of_lt_mul (by rwa [pow_succ, mul_comm] at h)
    rw [ofNat, littleEndian, ih hd, UInt8.toNat_ofNat']
    omega

/-- What a range of bytes holds does not depend on the bytes before it. -/
theorem sub_append (u d : Bytes) (p n : Nat) : sub (u ++ d) (u.length + p) n = d.sub p n := by
  rw [sub, sub, drop_length_add_append]

/-- The fault, noticed `k` bytes further on. -/
def StreamFault.moved (k : Nat) (f : StreamFault) : StreamFault := ⟨f.error, k + f.offset⟩

theorem wrapperRange_moved (u d : Bytes) (start : Nat) : wrapperRange (u ++ d) (u.length + start) =
    ((wrapperRange d start).map fun r => (u.length + r.1, u.length + r.2)).mapError
      (StreamFault.moved u.length) := by
  have hword (k : Nat) : word (u ++ d) (u.length + k) = word d k := by rw [word, word, sub_append]
  unfold wrapperRange
  simp only [hword, length_append, add_assoc, Nat.add_lt_add_iff_left]
  split_ifs <;> rfl

theorem nested_append {p : Nat} (u : Bytes) (h : Nested n d p) :
    Nested n (u ++ d) (u.length + p) := by
  induction n generalizing d p with
  | zero => trivial
  | succ n ih =>
    obtain ⟨hm, inner, stop, hr, hn⟩ := h
    refine ⟨by rw [sub_append, hm], u.length + inner,
      u.length + stop, by rw [wrapperRange_moved, hr]; rfl, ?_⟩
    rw [take_length_add_append]
    exact ih hn

/-- The header that a wrapper puts before a module. -/
def wrapperHeader (size cpu : Nat) : Bytes :=
  wrapperMagic ++ ofNat 4 0 ++ ofNat 4 wrapperSize ++ ofNat 4 size ++ ofNat 4 cpu

theorem length_wrapperHeader (size cpu : Nat) : (wrapperHeader size cpu).length = wrapperSize := by
  rfl

theorem wrapperRange_wrap {cpu : Nat} (hl : d.length < 2 ^ 32) :
    wrapperRange (wrapModule d cpu) 0 = .ok (wrapperSize, wrapperSize + d.length) := by
  have hoffset : word (wrapModule d cpu) 8 = wrapperSize := by
    have : (wrapModule d cpu).sub 8 4 = ofNat 4 wrapperSize := rfl
    rw [word, this, littleEndian_ofNat (by decide)]
  have hsize : word (wrapModule d cpu) 12 = d.length := by
    have : (wrapModule d cpu).sub 12 4 = ofNat 4 d.length := rfl
    rw [word, this, littleEndian_ofNat (by simpa using hl)]
  have hlen : (wrapModule d cpu).length = wrapperSize + d.length := by
    show (wrapperHeader d.length cpu ++ d).length = _
    rw [length_append, length_wrapperHeader]
  unfold wrapperRange
  simp only [zero_add, hoffset, hsize]
  rw [if_neg (by omega), if_neg (by omega)]

theorem nested_wrap {cpu : Nat} (hl : d.length < 2 ^ 32) (h : Nested n d 0) :
    Nested (n + 1) (wrapModule d cpu) 0 := by
  refine ⟨rfl, _, _, wrapperRange_wrap hl, ?_⟩
  have hd : wrapModule d cpu = wrapperHeader d.length cpu ++ d := rfl
  have hs := length_wrapperHeader d.length cpu
  rw [hd, ← hs, take_length_add_append, take_length]
  exact nested_append _ h

theorem nested_wraps (cpu : Nat) (hl : d.length + wrapperSize * n < 2 ^ 32) :
    Nested n ((fun d => wrapModule d cpu)^[n] d) 0 := by
  have hlen : ∀ k, ((fun d => wrapModule d cpu)^[k] d).length = d.length + wrapperSize * k := by
    intro k
    induction k with
    | zero => rfl
    | succ k ih =>
      rw [Function.iterate_succ_apply']
      show (wrapperHeader _ cpu ++ _).length = _
      rw [length_append, length_wrapperHeader, Nat.mul_succ]
      omega
  induction n with
  | zero => trivial
  | succ n ih =>
    have hlt : d.length + wrapperSize * n < 2 ^ 32 := by
      rw [Nat.mul_succ] at hl
      omega
    rw [Function.iterate_succ_apply']
    exact nested_wrap (by rw [hlen]; exact hlt) (ih hlt)

/-- A section that starts with wrappers nested too deep is not divided, whatever the validator. -/
theorem split_nested (h : Nested (depth + 1) data 0) :
    split depth v origin data = ([], some .tooDeep) := by
  have hm : data.sub 0 4 = wrapperMagic := h.1
  obtain ⟨r, rfl⟩ : ∃ r, data = wrapperMagic ++ r := by
    refine ⟨data.drop 4, ?_⟩
    rw [← hm, sub, drop_zero, take_append_drop]
  have hz : skipZeros (wrapperMagic ++ r) 0 = 0 := rfl
  have hmark : isMarker (wrapperMagic ++ r) 0 := by simp [isMarker, hm]
  have hn : nextBuffer depth v origin (wrapperMagic ++ r) 0 0 = .error .tooDeep := by
    have hw : walk depth (wrapperMagic ++ r) 0 = .error .tooDeep := walk_tooDeep.2 h
    simp [nextBuffer, hmark, hw, WalkError.failure]
  exact splitFrom_of_error (by rw [hz]; exact Nat.not_succ_le_zero _) (by rwa [hz])

/-- A bare magic in one wrapper more than the 500 that are followed, with a validator that accepts
everything: the division breaks off, and the failure is no complaint about a malformed module. -/
theorem deepWrappers_break :
    (split 500 ⟨"any", fun _ _ => .ok none⟩ "" ((fun d => wrapModule d 7)^[501] magic)).2 =
      some .tooDeep ∧ ∀ (c : Complaint) (binary : Option String), c.failure binary ≠ .tooDeep := by
  constructor
  · have h : Nested (500 + 1) ((fun d => wrapModule d 7)^[501] magic) 0 :=
      nested_wraps 7 (by decide)
    rw [split_nested h]
  · intro c binary h
    cases h

end CallAtlas.Bitcode
