import CallAtlas.Bitcode.BitReader

/-!
# Modules in a bitstream

The top level of a module is a sequence of blocks, each with its length in words. It ends at a zero
word, at the magic of the next module, or when less than a word is left. A module may be wrapped in
a header, and wrapped again.
-/

namespace CallAtlas.Bitcode

def magic : Bytes := [0x42, 0x43, 0xC0, 0xDE]

def wrapperMagic : Bytes := [0xDE, 0xC0, 0x17, 0x0B]

def wrapperSize : Nat := 20

def moduleBlock : Nat := 8

def identificationBlock : Nat := 13

def topWidth : Nat := 2

def enterBlock : Nat := 1

/-- Where a module lies, and its top-level blocks. -/
structure Extent where
  start : Nat
  stop : Nat
  blocks : List Nat
  wrapped : Bool
  deriving DecidableEq, Repr

def Extent.hasModule (e : Extent) : Bool := e.blocks.contains moduleBlock

def isMarker (data : Bytes) (pos : Nat) : Bool :=
  data.sub pos 4 = magic || data.sub pos 4 = wrapperMagic

/-- Reads the head of a block at a byte: its number, its length in words, and the first byte of its
body. -/
def blockHead (data : Bytes) (pos : Nat) : Except StreamFault (Nat × Nat × Nat) := do
  let (kind, p) ← readBits data (8 * pos) topWidth
  if kind ≠ enterBlock then throw ⟨.unexpectedAbbrev kind, pos⟩
  let (p, id) := readVbr data p 8
  let id ← id
  let (p, width) := readVbr data p 4
  let _ ← width
  let (words, p) ← readBits data (align32 p) 32
  pure (id, words, p / 8)

theorem blockHead_eq_ok {data : Bytes} {pos id words body : Nat} :
    blockHead data pos = .ok (id, words, body) ↔
    ∃ p1 p2 p3 p4 width, readBits data (8 * pos) topWidth = .ok (enterBlock, p1) ∧
      readChunks data p1 8 0 0 = (p2, .ok id) ∧ readChunks data p2 4 0 0 = (p3, .ok width) ∧
      readBits data (align32 p3) 32 = .ok (words, p4) ∧ p4 / 8 = body := by
  simp only [blockHead, bind, Except.bind, pure, Except.pure, readVbr]
  constructor
  · intro h
    split at h
    · cases h
    · next r hkind =>
      split at h
      · cases h
      · next hk =>
        split at h
        · cases h
        · next hid =>
          split at h
          · cases h
          · next hwidth =>
            split at h
            · cases h
            · next q hwords =>
              obtain ⟨rfl, rfl, rfl⟩ := h
              obtain ⟨kind, p⟩ := r
              obtain rfl := Decidable.not_not.1 hk
              exact ⟨p, _, _, q.2, _, hkind, Prod.ext rfl hid, Prod.ext rfl hwidth, hwords, rfl⟩
  · rintro ⟨p1, p2, p3, p4, width, hkind, hid, hwidth, hwords, rfl⟩
    simp only [hkind, hid, hwidth, hwords, ne_eq, not_true_eq_false, if_false]

theorem blockHead_body {data : Bytes} {pos id words body : Nat}
    (h : blockHead data pos = .ok (id, words, body)) :
    pos < body ∧ body ≤ data.length := by
  obtain ⟨p1, p2, p3, p4, width, hkind, hid, hwidth, hwords, rfl⟩ := blockHead_eq_ok.1 h
  have e₁ := readBits_pos hkind
  have e₂ := le_readChunks data p1 8 0 0
  have e₃ := le_readChunks data p2 4 0 0
  rw [hid] at e₂
  rw [hwidth] at e₃
  have e₄ := le_align32 p3
  have e₅ := readBits_pos hwords
  have e₆ := readBits_le (by omega) hwords
  omega

def endsAt (data : Bytes) (pos : Nat) : Bool :=
  data.length < pos + 4 || data.sub pos 4 = [0, 0, 0, 0] || isMarker data pos

/-- Follows top-level blocks: where they end, and their numbers. -/
def walkBlocks (data : Bytes) (pos : Nat) : Except StreamFault (Nat × List Nat) :=
  if endsAt data pos then .ok (pos, [])
  else
    match _h : blockHead data pos with
    | .error f => .error f
    | .ok (id, words, body) =>
      if data.length < body + 4 * words then .error ⟨.blockTooLong id words, pos⟩
      else
        match walkBlocks data (body + 4 * words) with
        | .error f => .error f
        | .ok (last, ids) => .ok (last, id :: ids)
termination_by data.length - pos
decreasing_by
  have := blockHead_body _h
  omega

def word (data : Bytes) (pos : Nat) : Nat := Bytes.littleEndian (data.sub pos 4)

/-- Reads the wrapper header at a byte: where the module inside it starts, and where the wrapper
stops. -/
def wrapperRange (data : Bytes) (start : Nat) : Except StreamFault (Nat × Nat) :=
  if data.length < start + wrapperSize then .error ⟨.truncatedWrapper, start⟩
  else
    let offset := word data (start + 8)
    let size := word data (start + 12)
    if offset < wrapperSize ∨
      data.length < start + offset + size then .error ⟨.wrapperOutside offset size, start⟩
    else .ok (start + offset, start + offset + size)

inductive WalkError where
  | malformed (f : StreamFault)
  | tooDeep
  deriving DecidableEq, Repr

/-- The extent of the module at a byte, where at most `depth` wrappers are followed. -/
def walk (depth : Nat) (data : Bytes) (start : Nat) : Except WalkError Extent :=
  if data.sub start 4 = wrapperMagic then
    match wrapperRange data start with
    | .error f => .error (.malformed f)
    | .ok (inner, stop) =>
      match depth with
      | 0 => .error .tooDeep
      | depth + 1 =>
        match walk depth (data.take stop) inner with
        | .error e => .error e
        | .ok extent => .ok ⟨start, stop, extent.blocks, true⟩
  else if data.sub start 4 = magic then
    match walkBlocks data (start + 4) with
    | .error f => .error (.malformed f)
    | .ok (stop, blocks) => .ok ⟨start, stop, blocks, false⟩
  else .error (.malformed ⟨.missingMagic, start⟩)

/-! ## Extents lie inside the string -/

theorem walkBlocks_stop {data : Bytes} {pos stop : Nat} {ids : List Nat} (hp : pos ≤ data.length)
    (h : walkBlocks data pos = .ok (stop, ids)) : pos ≤ stop ∧ stop ≤ data.length := by
  fun_induction walkBlocks data pos generalizing stop ids with
  | case1 pos he =>
    cases h
    exact ⟨Nat.le_refl _, hp⟩
  | case2 => cases h
  | case3 => cases h
  | case4 => cases h
  | case5 pos he id words body hb hl last rest hw ih =>
    cases h
    have h₁ := blockHead_body hb
    have h₂ := ih (by omega) hw
    omega

theorem wrapperRange_inside {data : Bytes} {start inner stop : Nat}
    (h : wrapperRange data start = .ok (inner, stop)) :
    start + wrapperSize ≤ inner ∧ inner ≤ stop ∧ stop ≤ data.length := by
  unfold wrapperRange at h
  split at h
  · cases h
  · dsimp only at h
    split at h
    · cases h
    · simp only [Except.ok.injEq, Prod.mk.injEq] at h
      omega

/-- A walk that comes to its end goes over a wrapper or over the blocks of a module. -/
theorem walk_ok {depth : Nat} {data : Bytes} {start : Nat} {e : Extent}
    (h : walk depth data start = .ok e) :
    (data.sub start 4 = wrapperMagic ∧ ∃ depth' inner stop e', depth = depth' + 1 ∧
      wrapperRange data start = .ok (inner, stop) ∧ walk depth' (data.take stop) inner = .ok e' ∧
        e = ⟨start, stop, e'.blocks, true⟩) ∨
    (data.sub start 4 = magic ∧ ∃ stop blocks, walkBlocks data (start + 4) = .ok (stop, blocks) ∧
      e = ⟨start, stop, blocks, false⟩) := by
  unfold walk at h
  split at h
  · next hm =>
    split at h
    · cases h
    · next inner stop hr =>
      split at h
      · cases h
      · next depth' =>
        split at h
        · cases h
        · next e' hw =>
          cases h
          exact .inl ⟨hm, depth', inner, stop, e', rfl, hr, hw, rfl⟩
  · split at h
    · next hm =>
      split at h
      · cases h
      · next stop blocks hw =>
        cases h
        exact .inr ⟨hm, stop, blocks, hw, rfl⟩
    · cases h

/-- The extent of a module starts where the walk starts, holds at least the magic, and ends inside
the string. -/
theorem walk_extent {depth : Nat} {data : Bytes} {start : Nat} {e : Extent}
    (h : walk depth data start = .ok e) :
    e.start = start ∧ start + 4 ≤ e.stop ∧ e.stop ≤ data.length := by
  rcases walk_ok h with ⟨-, -, inner, stop, -, -, hr, -, rfl⟩ | ⟨hm, stop, blocks, hw, rfl⟩
  · obtain ⟨h₁, h₂, h₃⟩ := wrapperRange_inside hr
    have hs : wrapperSize = 20 := rfl
    refine ⟨rfl, ?_, h₃⟩
    show start + 4 ≤ stop
    omega
  · have hl : (data.sub start 4).length = 4 := by rw [hm]; rfl
    simp only [Bytes.sub, List.length_take, List.length_drop] at hl
    obtain ⟨h₁, h₂⟩ := walkBlocks_stop (by omega) hw
    exact ⟨rfl, h₁, h₂⟩

end CallAtlas.Bitcode
