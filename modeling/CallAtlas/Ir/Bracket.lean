import CallAtlas.Text.Blank

/-!
# Brackets and fields

Brackets and commas count only outside string literals. `mark` says of each character whether it
counts.
-/

namespace CallAtlas.Ir

open Text

/-- Each character with whether it counts: it stands outside string literals and is no quote.
`inString` says whether the text starts inside a literal. -/
def mark : Bool → List Char → List (Char × Bool)
  | _, [] => []
  | true, '\\' :: c :: r => ('\\', false) :: (c, false) :: mark true r
  | true, c :: r => (c, false) :: mark (c ≠ '"') r
  | false, c :: r => if c = '"' then (c, false) :: mark true r else (c, true) :: mark false r

def closer? (c : Char) : Option Char :=
  if c = '(' then some ')' else if c = '[' then some ']' else if c = '\x7b' then some '\x7d'
  else if c = '<' then some '>' else none

/-- How much deeper one is behind a character, over all four kinds of brackets. -/
def depthChange (c : Char) : Int :=
  if c = '(' ∨ c = '[' ∨ c = '\x7b' ∨ c = '<' then 1
  else if c = ')' ∨ c = ']' ∨ c = '\x7d' ∨ c = '>' then -1
  else 0

def squareBalance (s : List Char) : Int :=
  (mark false s).foldl (fun n p =>
    if p.2 then (if p.1 = '[' then n + 1 else if p.1 = ']' then n - 1 else n) else n) 0

def closingAt (opener closer : Char) (depth : Int) : List (Char × Bool) → Option Nat
  | [] => none
  | (c, counts) :: r =>
    if counts && c = opener then (closingAt opener closer (depth + 1) r).map (· + 1)
    else if counts && c = closer then
      if depth = 1 then some 0 else (closingAt opener closer (depth - 1) r).map (· + 1)
    else (closingAt opener closer depth r).map (· + 1)

/-- The distance from the bracket at the head of a text to the bracket that closes it; only brackets
of its own kind are counted. -/
def closingOffset? (s : List Char) : Option Nat :=
  match s with
  | [] => none
  | c :: _ =>
    match closer? c with
    | none => none
    | some d => closingAt c d 0 (mark false s)

inductive BracketError where
  | outside
  | notOpening
  deriving DecidableEq, Repr

/-- The position of the bracket that closes the one at `index`, or -1. A negative position counts
from the end; the search then goes on at the start of the text. -/
def matchingBracket (text : List Char) (index : Int) : Except BracketError Int :=
  let n : Int := text.length
  if index < -n ∨ n ≤ index then .error .outside
  else
    let s := if index < 0 then text.drop (n + index).toNat ++ text else text.drop index.toNat
    match s with
    | [] => .error .outside
    | c :: _ =>
      match closer? c with
      | none => .error .notOpening
      | some _ =>
        match closingOffset? s with
        | some k => .ok (index + k)
        | none => .ok (-1)

/-- Divides a marked text at the commas of depth zero. `cur` holds the field so far, backwards. Each
field is trimmed; a last field without characters is left out. -/
def fieldsFrom (depth : Int) (cur : List Char) : List (Char × Bool) → List (List Char)
  | [] => let t := trim cur.reverse; if t = [] then [] else [t]
  | (c, true) :: r =>
    if c = ',' ∧ depth = 0 then trim cur.reverse :: fieldsFrom depth [] r
    else fieldsFrom (depth + depthChange c) (c :: cur) r
  | (c, false) :: r => fieldsFrom depth (c :: cur) r

def fields (body : List Char) : List (List Char) := fieldsFrom 0 [] (mark false body)

end CallAtlas.Ir
