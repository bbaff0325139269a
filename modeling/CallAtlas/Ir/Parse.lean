import CallAtlas.Ir.Module
import CallAtlas.Text.Lines

/-!
# Reading modules

A line at module level opens an entity, or is kept as it is; behind a function header with an
opening brace the lines belong to the body. There a line continues the instruction before it while a
square bracket is open, or if it is indented by more than two spaces.
-/

namespace CallAtlas.Ir

open Text

/-- Why a text is no module. -/
inductive ParseError where
  | namelessHeader (header : String)
  deriving DecidableEq, Repr

/-- The wording of a parse error; a long header is cut after 120 characters. -/
def ParseError.message : ParseError → String
  | .namelessHeader header =>
    "Function header without a name: " ++ String.ofList (header.toList.take 120)

/-! ## Function bodies -/

/-- A function whose closing brace is still to come. -/
structure OpenBody where
  name : String
  header : String
  blocks : List Block
  /-- Whether the last instruction may go on in the next line. -/
  mayContinue : Bool
  /-- The square brackets that the last instruction has left open. -/
  depth : Int

def modifyLast {α : Type} (f : α → α) : List α → List α
  | [] => []
  | [a] => [f a]
  | a :: b :: r => a :: modifyLast f (b :: r)

namespace OpenBody

def addLabel (b : OpenBody) (label line : String) : OpenBody :=
  { b with blocks := b.blocks ++ [⟨label, [], some line⟩], mayContinue := false, depth := 0 }

def addLine (b : OpenBody) (line : List Char) : OpenBody :=
  let indent := (line.takeWhile (· = ' ')).length
  let change := squareBalance line
  if b.mayContinue && (0 < b.depth || 2 < indent) then
    { b with
      blocks := modifyLast (fun k => { k with
        instructions :=
          modifyLast (fun i => ⟨i.text ++ "\n" ++ String.ofList line⟩) k.instructions }) b.blocks
      depth := b.depth + change }
  else
    let blocks := if b.blocks.isEmpty then [⟨"entry", [], none⟩] else b.blocks
    { b with
      blocks := modifyLast (fun k => { k with
        instructions := k.instructions ++ [⟨String.ofList line⟩] }) blocks
      mayContinue := true
      depth := change }

def function (b : OpenBody) : Function := ⟨b.name, b.header, b.blocks⟩

end OpenBody

/-! ## Lines -/

/-- A name, quoted or not, and the text behind it. -/
def entityName? (s : List Char) : Option (String × List Char) :=
  (spelling? (run? isNameChar) s).map fun p => (String.ofList p.1.name, p.2.2)

/-- The label that a line starts a block with. -/
def label? (line : List Char) : Option String :=
  match entityName? line with
  | some (name, ':' :: rest) =>
    if rest = [] || (trimLeft rest).head? = some ';' then some name else none
  | _ => none

/-- The text between a quote at the head and the last quote. -/
def betweenQuotes? (s : List Char) : Option (List Char) :=
  match s with
  | '"' :: r =>
    match r.reverse.dropWhile (· ≠ '"') with
    | _ :: t => some t.reverse
    | [] => none
  | _ => none

def headerValue? (key : String) (line : List Char) : Option String := do
  let r ← dropHead? key.toList line
  let r ← afterEquals? r
  let t ← betweenQuotes? r
  pure (String.ofList t)

def moduleId? (line : List Char) : Option String := do
  let r ← dropHead? "; ModuleID = '".toList line
  match r.reverse.dropWhile (· ≠ '\'') with
  | _ :: t => some (String.ofList t.reverse)
  | [] => none

def globalLine? (line : List Char) : Option Global := do
  let r ← dropHead? ['@'] line
  let (name, r) ← entityName? r
  let r ← afterEquals? r
  pure ⟨name, String.ofList r⟩

def wordAndBlank? (word : String) (s : List Char) : Option (List Char) := do
  let r ← dropHead? word.toList s
  let c ← r.head?
  if isBlank c then some (trimLeft r) else none

def typeLine? (line : List Char) : Option (String × String) := do
  let r ← dropHead? ['%'] line
  let (name, r) ← entityName? r
  let r ← afterEquals? r
  let r ← wordAndBlank? "type" r
  pure (name, String.ofList r)

def comdatLine? (line : List Char) : Option (String × String) := do
  let r ← dropHead? ['$'] line
  let (name, r) ← entityName? r
  let r ← afterEquals? r
  let r ← wordAndBlank? "comdat" r
  let (kind, _) ← run? isWord r
  pure (name, String.ofList kind)

def numberedLine? (key : String) (line : List Char) : Option (Nat × String) := do
  let r ← dropHead? key.toList line
  let (ds, r) ← run? isDecimal r
  let r ← afterEquals? r
  pure (digitsValue ds, String.ofList r)

def metadataRefs : List Char → List Nat
  | [] => []
  | '!' :: r =>
    match run? isDecimal r with
    | some (ds, _) => digitsValue ds :: metadataRefs r
    | none => metadataRefs r
  | _ :: r => metadataRefs r

def namedMetadataLine? (line : List Char) : Option (String × List Nat) := do
  let r ← dropHead? ['!'] line
  let (name, r) ← bareName? r
  let r ← afterEquals? r
  let r ← dropHead? ['!', '\x7b'] r
  match r.reverse.dropWhile isBlank with
  | '\x7d' :: t => some (String.ofList name, metadataRefs t.reverse)
  | _ => none

def functionName (line : List Char) : Except ParseError String :=
  match globalReader.search? line with
  | some (w, _) => .ok (String.ofList w.name)
  | none => .error (.namelessHeader (String.ofList line))

/-! ## Modules -/

/-- The module so far, and the body that is open. -/
structure ParseState where
  module : IrModule
  body : Option OpenBody

namespace ParseState

def closeBody (s : ParseState) : ParseState :=
  match s.body with
  | some b => ⟨{ s.module with functions := s.module.functions.insert b.name b.function }, none⟩
  | none => s

/-- Reads a line inside a body. -/
def bodyLine (s : ParseState) (b : OpenBody) (line : List Char) : ParseState :=
  if startsWith ['\x7d'] line then s.closeBody
  else
    match trim line with
    | [] => s
    | ';' :: _ => s
    | _ =>
      match (if startsWith [' '] line then none else label? line) with
      | some label => { s with body := some (b.addLabel label (String.ofList line)) }
      | none => { s with body := some (b.addLine line) }

/-- Reads the header of a function. -/
def functionLine (s : ParseState) (opens : Bool) (line : List Char) :
    Except ParseError ParseState := do
  let name ← functionName line
  let header := String.ofList (trimRight line)
  let f : Function := ⟨name, header, []⟩
  let m := { s.module with functions := s.module.functions.insert name f }
  if opens && (trimRight line).getLast? = some '\x7b' then
    pure ⟨m, some ⟨name, header, [], false, 0⟩⟩
  else pure ⟨m, none⟩

/-- Reads a line that defines something else. -/
def entityLine? (m : IrModule) (line : List Char) : Option IrModule :=
  ((globalLine? line).map fun g => { m with globals := m.globals.insert g.name g })
  <|> ((typeLine? line).map fun e => { m with types := m.types.insert e.1 e.2 })
  <|> ((comdatLine? line).map fun e => { m with comdats := m.comdats.insert e.1 e.2 })
  <|> ((numberedLine? "attributes #" line).map fun e =>
    { m with attributeGroups := m.attributeGroups.insert e.1 e.2 })
  <|> ((numberedLine? "!" line).map fun e =>
    { m with metadata := m.metadata.insert e.1 ⟨e.1, e.2⟩ })
  <|>
    ((namedMetadataLine? line).map fun e =>
    { m with namedMetadata := m.namedMetadata.insert e.1 e.2 })
  <|> ((headerValue? "source_filename" line).map fun v => { m with sourceFilename := v })
  <|> ((headerValue? "target datalayout" line).map fun v => { m with dataLayout := v })
  <|> ((headerValue? "target triple" line).map fun v => { m with targetTriple := v })

/-- Reads a line outside of bodies. -/
def topLine (s : ParseState) (line : List Char) : Except ParseError ParseState :=
  if trim line = [] then .ok s
  else if startsWith [';'] line then
    match moduleId? line with
    | some id => .ok (if s.module.identifier.isEmpty then { s with module.identifier := id } else s)
    | none => .ok s
  else if startsWith "define ".toList line then s.functionLine true line
  else if startsWith "declare ".toList line then s.functionLine false line
  else match entityLine? s.module line with
    | some m => .ok { s with module := m }
    | none => .ok { s with module.extraLines := s.module.extraLines ++ [String.ofList line] }

def line (s : ParseState) (l : List Char) : Except ParseError ParseState :=
  match s.body with
  | some b => .ok (s.bodyLine b l)
  | none => s.topLine l

end ParseState

end CallAtlas.Ir

namespace CallAtlas.IrModule

open Ir

/-- Reads a module from its text. A given identifier comes before the one in the text; a body that
the text does not close is taken as it is. -/
def parse (text : String) (identifier : String) : Except ParseError IrModule := do
  let start : ParseState := ⟨{ identifier }, none⟩
  let s ← (Text.lines text.toList).foldlM ParseState.line start
  pure s.closeBody.module

end CallAtlas.IrModule
