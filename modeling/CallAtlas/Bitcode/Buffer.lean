import CallAtlas.Bitcode.Stream
import CallAtlas.Fault

/-!
# Module buffers

The bytes of one module, with where they came from. Between the modules of a section there are only
zero bytes.
-/

namespace CallAtlas.Bitcode

/-- The bytes of a module, and where they stood. -/
structure Buffer where
  data : Bytes
  origin : String
  index : Nat
  offset : Nat
  deriving DecidableEq, Repr

namespace Buffer

def startsModule (data : Bytes) : Bool := data.startsWith magic || data.startsWith wrapperMagic

def new (data : Bytes) (origin : String) (index offset : Nat) : Except Failure Buffer :=
  if startsModule data then .ok ⟨data, origin, index, offset⟩
  else .error (.invalid "ModuleBuffer must begin with a bitcode magic marker")

def identifier (b : Buffer) : String := b.origin ++ "#" ++ toString b.index

def originOpt (b : Buffer) : Option String := if b.origin.isEmpty then none else some b.origin

end Buffer

/-- What is wrong with a buffer, and where. -/
structure Complaint where
  reason : String
  offset : Option Nat
  deriving DecidableEq, Repr

def StreamFault.complaint (f : StreamFault) : Complaint := ⟨f.error.message, some f.offset⟩

/-- Why a variable-width value of a width cannot be asked for: its chunks need a continuation
bit. -/
def widthFailure? (width : Nat) : Option Failure :=
  if width = 0 then some (.invalid "negative shift count") else none

def Complaint.failure (c : Complaint) (binary : Option String) : Failure :=
  .fault ⟨.malformed c.reason (c.offset.map Int.ofNat), binary, true⟩

/-- A check of buffers; the number is how deep it may go. -/
structure Validator where
  name : String
  check : Nat → Buffer → Except Failure (Option Complaint)

def WalkError.failure (e : WalkError) (binary : Option String) : Failure :=
  match e with
  | .malformed f => f.complaint.failure binary
  | .tooDeep => .tooDeep

/-- What the structure of a buffer is to be: a module block, and nothing behind the blocks. -/
def structureComplaint (depth : Nat) (b : Buffer) : Except Failure (Option Complaint) :=
  match walk depth b.data 0 with
  | .error (.malformed f) => .ok (some f.complaint)
  | .error .tooDeep => .error .tooDeep
  | .ok extent =>
    if !extent.hasModule then .ok (some ⟨b.identifier ++ " has no MODULE_BLOCK", some b.offset⟩)
    else if extent.stop ≠ b.data.length then
      .ok (some ⟨b.identifier ++ " has " ++ toString ((b.data.length : Int) - extent.stop) ++
        " trailing bytes", some (b.offset + extent.stop)⟩)
    else .ok none

def bitstreamValidator : Validator := ⟨"bitstream", structureComplaint⟩

def skipZeros (data : Bytes) (pos : Nat) : Nat :=
  pos + ((data.drop pos).takeWhile (· = 0)).length

/-- One step of the division at a byte that is not padding: the next buffer and the byte behind
it. -/
def nextBuffer (depth : Nat) (validator : Validator) (origin : String) (data : Bytes)
    (index pos : Nat) :
    Except Failure (Buffer × Nat) :=
  let binary := if origin.isEmpty then none else some origin
  if !isMarker data pos then
    .error (Complaint.failure ⟨"non-zero bytes outside any module", some pos⟩ binary)
  else match walk depth data pos with
    | .error e => .error (e.failure binary)
    | .ok extent =>
      let buffer : Buffer :=
        ⟨data.sub extent.start (extent.stop - extent.start), origin, index, extent.start⟩
      match validator.check depth buffer with
      | .error e => .error e
      | .ok (some c) =>
        .error (Complaint.failure ⟨"validation failed (" ++ validator.name ++ "): " ++ c.reason,
          some extent.start⟩ binary)
      | .ok none => .ok (buffer, extent.stop)

/-- The next buffer is cut out of the section where the walk from the start of the step ends, and it
is accepted. -/
theorem nextBuffer_slice {depth : Nat} {validator : Validator} {origin : String} {data : Bytes}
    {index pos stop : Nat}
    {b : Buffer} (h : nextBuffer depth validator origin data index pos = .ok (b, stop)) :
    isMarker data pos = true ∧ pos + 4 ≤ stop ∧ stop ≤ data.length ∧
      b = ⟨data.sub pos (stop - pos), origin, index, pos⟩ ∧
      (∃ e, walk depth data pos = .ok e ∧ e.stop = stop) ∧ validator.check depth b = .ok none := by
  unfold nextBuffer at h
  dsimp only at h
  split at h
  · cases h
  · next hm =>
    split at h
    · cases h
    · next e hw =>
      obtain ⟨hs, h₁, h₂⟩ := walk_extent hw
      split at h
      · cases h
      · cases h
      · next hc =>
        cases h
        exact ⟨by simpa using hm, h₁, h₂, by rw [hs], ⟨e, hw, rfl⟩, hc⟩

/-- Divides a section from a byte on: the buffers found, and why the rest could not be divided. -/
def splitFrom (depth : Nat) (validator : Validator) (origin : String) (data : Bytes)
    (index pos : Nat) :
    List Buffer × Option Failure :=
  if data.length ≤ skipZeros data pos then ([], none)
  else
    match _h : nextBuffer depth validator origin data index (skipZeros data pos) with
    | .error e => ([], some e)
    | .ok (buffer, stop) =>
      let rest := splitFrom depth validator origin data (index + 1) stop
      (buffer :: rest.1, rest.2)
termination_by data.length - pos
decreasing_by
  have := nextBuffer_slice _h
  unfold skipZeros at *
  omega

/-- The buffers of a section, up to a failure. -/
def split (depth : Nat) (validator : Validator) (origin : String) (data : Bytes) :
    List Buffer × Option Failure :=
  splitFrom depth validator origin data 0 0

end CallAtlas.Bitcode
