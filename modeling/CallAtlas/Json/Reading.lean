import CallAtlas.Json.Basic
import CallAtlas.Decimal.Reading
import CallAtlas.Text.Unpaired

/-!
# Reading documents

Of two members of an object with one key the later gives the value.
-/

namespace CallAtlas.Json

open Text

def isGap (c : Char) : Bool := c = ' ' || c = '\t' || c = '\n' || c = '\r'

def skipGap (s : List Char) : List Char := s.dropWhile isGap

def hexFour? (a b c d : Char) : Option Nat := do
  let w ← hexValue? a
  let x ← hexValue? b
  let y ← hexValue? c
  let z ← hexValue? d
  pure (((w * 16 + x) * 16 + y) * 16 + z)

def simpleEscape? (c : Char) : Option Char :=
  match c with
  | '"' => some '"'
  | '\\' => some '\\'
  | '/' => some '/'
  | 'b' => some '\x08'
  | 'f' => some '\x0c'
  | 'n' => some '\n'
  | 'r' => some '\r'
  | 't' => some '\t'
  | _ => none

/-- Reads behind an opening quote: the code units up to the closing quote, and the rest. Control
characters must be escaped. -/
def readUnits? : List Char → Option (List Nat × List Char)
  | [] => none
  | '"' :: r => some ([], r)
  | '\\' :: 'u' :: a :: b :: c :: d :: r => do
    let n ← hexFour? a b c d
    let (ns, rest) ← readUnits? r
    pure (n :: ns, rest)
  | '\\' :: e :: r => do
    let c ← simpleEscape? e
    let (ns, rest) ← readUnits? r
    pure (c.toNat :: ns, rest)
  | c :: r =>
    if c.toNat < 0x20 ∨ c = '\\' then none
    else do
      let (ns, rest) ← readUnits? r
      pure (c.toNat :: ns, rest)

/-- The characters of code units: two units of a pair are one character, and a unit without its
partner has a stand-in. -/
def joinUnits : List Nat → List Char
  | [] => []
  | [n] => [ofUnit n]
  | n :: m :: r =>
    if isHighUnit n && isLowUnit m then
      Char.ofNat (0x10000 + (n - 0xD800) * 0x400 + (m - 0xDC00)) :: joinUnits r
    else ofUnit n :: joinUnits (m :: r)

def readString? (s : List Char) : Option (String × List Char) :=
  (readUnits? s).map fun p => (String.ofList (joinUnits p.1), p.2)

def readPlaces (s : List Char) : List Char × List Char :=
  match s with
  | '.' :: r =>
    match r.takeWhile isAsciiDigit with
    | [] => ([], s)
    | ds => (ds, r.dropWhile isAsciiDigit)
  | _ => ([], s)

def readPower (s : List Char) : Option Int × List Char :=
  match s with
  | c :: r =>
    if c = 'e' ∨ c = 'E' then
      let (negative, t) := match r with
        | '-' :: t => (true, t)
        | '+' :: t => (false, t)
        | t => (false, t)
      match t.takeWhile isAsciiDigit with
      | [] => (none, s)
      | ds =>
        (some (if negative then -(digitsValue ds : Int) else digitsValue ds),
          t.dropWhile isAsciiDigit)
    else (none, s)
  | [] => (none, s)

def readUnsigned? (negative : Bool) (s : List Char) : Option (Number × List Char) :=
  let whole := match s with
    | '0' :: _ => ['0']
    | _ => s.takeWhile isAsciiDigit
  if whole = [] then none
  else
    let (places, s₁) := readPlaces (s.drop whole.length)
    let (power, s₂) := readPower s₁
    if places = [] ∧ power = none then
      let n : Int := digitsValue whole
      some (.int (if negative then -n else n), s₂)
    else
      let x := (Decimal.Written.mk whole places (power.getD 0)).value
      some (.float (if negative then -x else x), s₂)

def readNumber? (s : List Char) : Option (Number × List Char) :=
  match s with
  | '-' :: r =>
    match dropHead? "Infinity".toList r with
    | some rest => some (.float (-Decimal.infinity), rest)
    | none => readUnsigned? true r
  | _ => readUnsigned? false s

def wordValues : List (String × Json) :=
  [("null", .null), ("true", .bool true), ("false", .bool false),
    ("NaN", .num (.float (0.0 / 0.0))),
   ("Infinity", .num (.float Decimal.infinity))]

def readWord? (s : List Char) : Option (Json × List Char) :=
  wordValues.findSome? fun p => (dropHead? p.1.toList s).map fun rest => (p.2, rest)

mutual

def readValue? : Nat → List Char → Option (Json × List Char)
  | 0, _ => none
  | fuel + 1, s =>
    match s with
    | '"' :: r => (readString? r).map fun p => (.str p.1, p.2)
    | '[' :: r =>
      match skipGap r with
      | ']' :: rest => some (.arr [], rest)
      | t => (readItems? fuel t).map fun p => (.arr p.1, p.2)
    | '\x7b' :: r =>
      match skipGap r with
      | '\x7d' :: rest => some (.obj [], rest)
      | t => (readMembers? fuel t).map fun p =>
        (.obj (p.1.foldl (fun acc e => Table.write e.1 e.2 acc) []), p.2)
    | s =>
      match readWord? s with
      | some p => some p
      | none => (readNumber? s).map fun p => (.num p.1, p.2)

def readItems? : Nat → List Char → Option (List Json × List Char)
  | 0, _ => none
  | fuel + 1, s =>
    match readValue? fuel s with
    | none => none
    | some (x, r) =>
      match skipGap r with
      | ']' :: rest => some ([x], rest)
      | ',' :: rest => (readItems? fuel (skipGap rest)).map fun p => (x :: p.1, p.2)
      | _ => none

def readMembers? : Nat → List Char → Option (List (String × Json) × List Char)
  | 0, _ => none
  | fuel + 1, s =>
    match s with
    | '"' :: r =>
      match readString? r with
      | none => none
      | some (key, r) =>
        match skipGap r with
        | ':' :: r =>
          match readValue? fuel (skipGap r) with
          | none => none
          | some (x, r) =>
            match skipGap r with
            | '\x7d' :: rest => some ([(key, x)], rest)
            | ',' :: rest => (readMembers? fuel (skipGap rest)).map fun p => ((key, x) :: p.1, p.2)
            | _ => none
        | _ => none
    | _ => none

end

def parse? (document : String) : Option Json :=
  let s := skipGap document.toList
  match readValue? (2 * s.length + 2) s with
  | some (j, rest) => if skipGap rest = [] then some j else none
  | none => none

end CallAtlas.Json
