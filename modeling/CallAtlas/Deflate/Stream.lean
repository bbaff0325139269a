import CallAtlas.Deflate.Code

/-!
# Compressed data

The deflate format within a zlib frame: blocks of stored bytes, or of symbols of two codes, where a
symbol is a byte, a piece of earlier output, or the end of the block.
-/

namespace CallAtlas.Deflate

abbrev Output := Array UInt8

/-- How many more bytes are wanted, where at most `limit` are. -/
def room (limit : Option Nat) (out : Output) (count : Nat) : Nat :=
  match limit with
  | some n => min count (n - out.size)
  | none => count

/-- The bits from the next whole byte on, where the bits end at a whole byte. -/
def nextByte (bits : Bits) : Bits := bits.drop (bits.length % 8)

/-- The bytes of bits; what is no whole byte at the end is left out. -/
def bytesOf : Bits → Bytes
  | a :: b :: c :: d :: e :: f :: g :: h :: r =>
    UInt8.ofNat (valueOf [a, b, c, d, e, f, g, h]) :: bytesOf r
  | _ => []

/-! ## Pieces of earlier output -/

/-- The least length and the extra bits of each symbol for a length, from symbol 257 on. -/
def lengthRows : List (Nat × Nat) :=
  [(3, 0), (4, 0), (5, 0), (6, 0), (7, 0), (8, 0), (9, 0), (10, 0), (11, 1), (13, 1), (15, 1),
    (17, 1), (19, 2),
   (23, 2), (27, 2), (31, 2), (35, 3), (43, 3), (51, 3), (59, 3), (67, 4), (83, 4), (99, 4),
   (115, 4), (131, 5), (163, 5), (195, 5), (227, 5), (258, 0)]

def distanceRows : List (Nat × Nat) :=
  [(1, 0), (2, 0), (3, 0), (4, 0), (5, 1), (7, 1), (9, 2), (13, 2), (17, 3), (25, 3), (33, 4),
    (49, 4), (65, 5),
   (97, 5), (129, 6), (193, 6), (257, 7), (385, 7), (513, 8), (769, 8), (1025, 9), (1537, 9),
   (2049, 10), (3073, 10),
   (4097, 11), (6145, 11), (8193, 12), (12289, 12), (16385, 13), (24577, 13)]

def readRow (row : Option (Nat × Nat)) (bits : Bits) : Except Stop (Nat × Bits) :=
  match row with
  | none => .error .corrupt
  | some (least, extra) => (readNumber extra bits).map fun p => (least + p.1, p.2)

def readPiece (distances : Code) (symbol : Nat) (bits : Bits) : Except Stop (Nat × Nat × Bits) := do
  let (length, bits) ← readRow lengthRows[symbol - 257]? bits
  let (symbol, bits) ← distances.read bits
  let (distance, bits) ← readRow distanceRows[symbol]? bits
  pure (length, distance, bits)

/-- Repeats the output from a distance back, byte by byte, so that a piece may overlap itself. -/
def copyBack (distance : Nat) : Nat → Output → Output
  | 0, out => out
  | count + 1, out => copyBack distance count (out.push (out.getD (out.size - distance) 0))

/-! ## Blocks -/

def endOfBlock : Nat := 256

/-- Follows the symbols of a block: the output, and the bits behind the block. The count bounds the
symbols, each of which takes a bit. -/
def symbols (limit : Option Nat) (literals distances : Code) :
    Nat → Bits → Output → Output × Except Stop Bits
  | 0, _, out => (out, .error .short)
  | fuel + 1, bits, out =>
    match literals.read bits with
    | .error stop => (out, .error stop)
    | .ok (symbol, bits) =>
      if symbol = endOfBlock then (out, .ok bits)
      else if symbol < endOfBlock then
        if room limit out 1 = 0 then (out, .error .full)
        else symbols limit literals distances fuel bits (out.push (UInt8.ofNat symbol))
      else
        match readPiece distances symbol bits with
        | .error stop => (out, .error stop)
        | .ok (length, distance, bits) =>
          let count := room limit out length
          if count = 0 then (out, .error .full)
          else if out.size < distance then (out, .error .corrupt)
          else if count < length then (copyBack distance count out, .error .full)
          else symbols limit literals distances fuel bits (copyBack distance count out)

def stored (limit : Option Nat) (bits : Bits) (out : Output) : Output × Except Stop Bits :=
  match readNumber 32 (nextByte bits) with
  | .error stop => (out, .error stop)
  | .ok (n, bits) =>
    let length := n % Nat.pow 2 16
    if length + n / Nat.pow 2 16 ≠ Nat.pow 2 16 - 1 then (out, .error .corrupt)
    else
      let data := bytesOf (bits.take (8 * room limit out length))
      let out := out ++ data.toArray
      if data.length < length then (out, .error .short) else (out, .ok (bits.drop (8 * length)))

def fixedLiterals : Option Code :=
  Code.ofLengths? true (List.replicate 144 8 ++ List.replicate 112 9 ++ List.replicate 24 7 ++
    List.replicate 8 8)

def fixedDistances : Option Code := Code.ofLengths? true (List.replicate 32 5)

def lengthOrder : List Nat := [16, 17, 18, 0, 8, 7, 9, 6, 10, 5, 11, 4, 12, 3, 13, 2, 14, 1, 15]

def readShort : Nat → Bits → Except Stop (List Nat × Bits)
  | 0, bits => .ok ([], bits)
  | count + 1, bits => do
    let (n, bits) ← readNumber 3 bits
    let (rest, bits) ← readShort count bits
    pure (n :: rest, bits)

/-- The code for lengths, by its stated lengths. If none is stated, any bit is the length zero. -/
def lengthCode? (stated : List Nat) : Option Code :=
  let lengths := (List.range 19).map fun symbol => ((lengthOrder.zip stated).lookup symbol).getD 0
  if lengths.all (· = 0) then some (.node (.leaf 0) (.leaf 0)) else Code.ofLengths? false lengths

/-- Reads what a symbol of the code for lengths stands for, behind the lengths so far, the last
first: a length, the last one again, or zeros. -/
def readRun (symbol : Nat) (before : List Nat) (bits : Bits) : Except Stop (Nat × Nat × Bits) :=
  if symbol < 16 then .ok (symbol, 1, bits)
  else if symbol = 16 then do
    let (n, bits) ← readNumber 2 bits
    match before with
    | [] => throw .corrupt
    | length :: _ => pure (length, 3 + n, bits)
  else if symbol = 17 then (readNumber 3 bits).map fun p => (0, 3 + p.1, p.2)
  else (readNumber 7 bits).map fun p => (0, 11 + p.1, p.2)

/-- Reads `wanted` lengths in runs, with those so far, the last first. The count bounds the runs. -/
def readLengths (code : Code) (wanted : Nat) : Nat → List Nat → Bits → Except Stop (List Nat × Bits)
  | 0, before, bits => .ok (before.reverse, bits)
  | fuel + 1, before, bits =>
    if wanted ≤ before.length then .ok (before.reverse, bits)
    else do
      let (symbol, bits) ← code.read bits
      let (length, count, bits) ← readRun symbol before bits
      if wanted < before.length + count then throw .corrupt
      readLengths code wanted fuel (List.replicate count length ++ before) bits

def present {α : Type} : Option α → Except Stop α
  | some a => .ok a
  | none => .error .corrupt

/-- The codes that stand before their block. -/
def readCodes (bits : Bits) : Except Stop (Code × Code × Bits) := do
  let (n, bits) ← readNumber 14 bits
  let literals := n % 32 + 257
  let distances := n / 32 % 32 + 1
  if 286 < literals || 30 < distances then throw .corrupt
  let (stated, bits) ← readShort (n / 1024 + 4) bits
  let code ← present (lengthCode? stated)
  let wanted := literals + distances
  let (lengths, bits) ← readLengths code wanted wanted [] bits
  if lengths.getD endOfBlock 0 = 0 then throw .corrupt
  let literalCode ← present (Code.ofLengths? true (lengths.take literals))
  let distanceCode ← present (Code.ofLengths? true (lengths.drop literals))
  pure (literalCode, distanceCode, bits)

def block (limit : Option Nat) (type : Nat) (bits : Bits) (out : Output) :
    Output × Except Stop Bits :=
  if type = 0 then stored limit bits out
  else
    let codes : Except Stop (Code × Code × Bits) :=
      if type = 1 then do pure (← present fixedLiterals, ← present fixedDistances, bits)
      else if type = 2 then readCodes bits
      else .error .corrupt
    match codes with
    | .error stop => (out, .error stop)
    | .ok (literals, distances, bits) => symbols limit literals distances (bits.length + 1) bits out

/-- Follows blocks up to the last: the output, and the bits behind. The count bounds the blocks,
each of which takes three bits. -/
def blocks (limit : Option Nat) : Nat → Bits → Output → Output × Except Stop Bits
  | 0, _, out => (out, .error .short)
  | fuel + 1, bits, out =>
    match readNumber 3 bits with
    | .error stop => (out, .error stop)
    | .ok (head, bits) =>
      match block limit (head / 2) bits out with
      | (out, .error stop) => (out, .error stop)
      | (out, .ok bits) => if head % 2 = 1 then (out, .ok bits) else blocks limit fuel bits out

/-! ## The frame -/

/-- The check sum of expanded data. -/
def checksum (data : Bytes) : Nat :=
  let (a, b) := data.foldl (fun s d =>
    let a := (s.1 + d.toNat) % 65521
    (a, (s.2 + a) % 65521)) (1, 0)
  b * Nat.pow 2 16 + a

def readHead (bits : Bits) : Except Stop Bits := do
  let (n, bits) ← readNumber 16 bits
  let method := n % 256
  let flags := n / 256
  if (method * 256 + flags) % 31 ≠ 0 || method % 16 ≠ 8 || 7 < method / 16 then throw .corrupt
  if flags / 32 % 2 = 1 then
    let _ ← readNumber 32 bits
    throw .corrupt
  pure bits

def readCheck (out : Output) (bits : Bits) : Except Stop Unit := do
  let bits := nextByte bits
  let _ ← readNumber 32 bits
  if Bytes.bigEndian (bytesOf (bits.take 32)) ≠ checksum out.toList then throw .corrupt

/-- What data expands to, at most `limit` bytes of it; `none` if it breaks a rule of the format. -/
def expand (limit : Option Nat) (data : Bytes) : Option Bytes :=
  let bits := bitsOf data
  let (out, ending) : Output × Except Stop Unit :=
    match readHead bits with
    | .error stop => (#[], .error stop)
    | .ok bits =>
      match blocks limit (bits.length + 1) bits #[] with
      | (out, .error stop) => (out, .error stop)
      | (out, .ok bits) => (out, readCheck out bits)
  match ending with
  | .error .corrupt => none
  | _ => some out.toList

end CallAtlas.Deflate
