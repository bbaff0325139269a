import CallAtlas.Ir.Attachment
import CallAtlas.Ir.Bracket
import CallAtlas.Ir.Lexeme

/-!
# Instructions

An instruction is its text, from which the rest is read.
-/

namespace CallAtlas.Ir

open Text

/-- An instruction as its text. -/
structure Instruction where
  text : String
  deriving DecidableEq, Repr, Inhabited

def afterEquals? (s : List Char) : Option (List Char) :=
  match trimLeft s with
  | '=' :: r => some (trimLeft r)
  | _ => none

/-- Reads the assignment of a result: the local name with its sigil, and the text behind the equals
sign. -/
def readResult? (s : List Char) : Option (List Char × List Char) :=
  match trimLeft s with
  | '%' :: r =>
    match spelling? (run? isLocalChar) r with
    | some (_, text, rest) => (afterEquals? rest).map fun body => ('%' :: text, body)
    | none => none
  | _ => none

/-- A call target at the head of a text: sigil, name and, at its opening parenthesis, the
arguments. -/
def calleeAt? : List Char → Option (Char × Spelling × List Char)
  | c :: r =>
    if c = '@' ∨ c = '%' then
      match spelling? (run? isLocalChar) r with
      | some (w, _, rest) =>
        match trimLeft rest with
        | '(' :: args => some (c, w, '(' :: args)
        | _ => none
      | none => none
    else none
  | [] => none

def nextCallee? : List Char → Option (Char × Spelling × List Char)
  | [] => none
  | c :: r => (calleeAt? (c :: r)).orElse fun _ => nextCallee? r

theorem calleeAt?_eq_some {s args : List Char} {c : Char} {w : Spelling}
    (h : calleeAt? s = some (c, w, args)) :
    (c = '@' ∨ c = '%') ∧ ∃ r text rest, s = c :: r ∧
      spelling? (run? isLocalChar) r = some (w, text, rest) ∧
      ∃ t, trimLeft rest = '(' :: t ∧ args = '(' :: t := by
  cases s with
  | nil => simp [calleeAt?] at h
  | cons d r =>
    simp only [calleeAt?] at h
    split at h
    · next hd =>
      split at h
      · next text rest hs =>
        split at h
        · next t ht =>
          simp only [Option.some.injEq, Prod.mk.injEq] at h
          obtain ⟨rfl, rfl, rfl⟩ := h
          exact ⟨hd, r, text, rest, rfl, hs, t, ht, rfl⟩
        · simp at h
      · simp at h
    · simp at h

theorem calleeAt?_args_lt {s args : List Char} {c : Char} {w : Spelling}
    (h : calleeAt? s = some (c, w, args)) : args.length < s.length := by
  obtain ⟨-, r, text, rest, rfl, hs, t, ht, rfl⟩ := calleeAt?_eq_some h
  have h₁ := length_trimLeft_le rest
  rw [ht] at h₁
  have h₂ := congrArg List.length (spelling?_split run?_split hs).1
  simp only [List.length_append, List.length_cons] at *
  omega

theorem nextCallee?_args_lt {s args : List Char} {c : Char} {w : Spelling}
    (h : nextCallee? s = some (c, w, args)) : args.length < s.length := by
  induction s with
  | nil => simp [nextCallee?] at h
  | cons d r ih =>
    simp only [nextCallee?] at h
    cases hd : calleeAt? (d :: r) with
    | none =>
      simp only [hd, Option.orElse_none] at h
      exact Nat.lt_succ_of_lt (ih h)
    | some p =>
      simp only [hd, Option.orElse_some, Option.some.injEq] at h
      exact calleeAt?_args_lt (h ▸ hd)

def startsOperand (s : List Char) : Bool :=
  match trimLeft s with
  | c :: _ => c = '@' || c = '%'
  | [] => false

/-- The target of a call: the first name before a parenthesis. A local name whose parenthesis is
followed by another operand is a return type, and the search goes on behind it. -/
def findCallee? (s : List Char) : Option (Char × Spelling) :=
  match _h : nextCallee? s with
  | none => none
  | some (c, w, args) =>
    if c = '%' then
      match closingOffset? args with
      | some k =>
        if startsOperand (args.drop (k + 1)) then findCallee? (args.drop (k + 1)) else some (c, w)
      | none => some (c, w)
    else some (c, w)
termination_by s.length
decreasing_by
  have := nextCallee?_args_lt _h
  simp only [List.length_drop]
  omega

/-- Whether the word `asm`, with blanks on both sides, stands before any operand. `afterBlank` says
whether a blank stands before the text. -/
def asmBeforeOperand (afterBlank : Bool) : List Char → Bool
  | [] => false
  | c :: r =>
    (afterBlank && (match dropHead? "asm".toList (c :: r) with
      | some (d :: _) => isBlank d
      | _ => false)) ||
    (c ≠ '@' && c ≠ '%' && asmBeforeOperand (isBlank c) r)

def isInlineAsm : List Char → Bool
  | c :: r => isBlank c && asmBeforeOperand true r
  | [] => false

/-- What a call calls. -/
inductive CallTarget where
  | direct (name : String)
  | indirect
  deriving DecidableEq, Repr

namespace Instruction

def result (i : Instruction) : Option String :=
  (readResult? i.text.toList).map fun p => String.ofList p.1

def body (i : Instruction) : List Char :=
  match readResult? i.text.toList with
  | some (_, body) => body
  | none => trim i.text.toList

def tailMarkers : List String := ["tail", "musttail", "notail"]

/-- The first word behind the result and a tail marker. -/
def opcode (i : Instruction) : String :=
  match (words i.body).map String.ofList with
  | [] => ""
  | [w] => w
  | w :: v :: _ => if tailMarkers.contains w then v else w

def isCall (i : Instruction) : Bool := i.opcode = "call" || i.opcode = "invoke"

def operands (i : Instruction) : List Char :=
  let op := i.opcode.toList
  match find? op i.body with
  | some k => i.body.drop (k + op.length)
  | none => i.body

/-- What the operands of a call name as its target: a name before a parenthesis, or else the first
global symbol, which a constant expression computes the address from. -/
def target (i : Instruction) : CallTarget :=
  let s := i.operands
  if isInlineAsm s then .indirect
  else match findCallee? s with
    | some (c, w) => if c = '%' then .indirect else .direct (String.ofList w.raw)
    | none =>
      match globalReader.search? s with
      | some (w, _) => .direct (String.ofList w.raw)
      | none => .indirect

/-- The name that a direct call calls. -/
def callee (i : Instruction) : Option String :=
  if i.isCall then
    match i.target with
    | .direct name => some name
    | .indirect => none
  else none

def isIndirect (i : Instruction) : Bool := i.isCall && i.target = .indirect

def debug (i : Instruction) : Option Nat := debugRef? i.text.toList

end Instruction

end CallAtlas.Ir
