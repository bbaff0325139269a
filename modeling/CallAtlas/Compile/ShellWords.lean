import CallAtlas.Text.Blank

/-!
# Words of a shell command

Blanks divide words, quotes keep blanks together, and a backslash takes the next character as it is,
inside double quotes only before a double quote or another backslash. A line that ends inside quotes
or behind a backslash is cut at blanks.
-/

namespace CallAtlas.Compile

/-- What the reader is inside of. -/
inductive Reading where
  | plain
  | quoted (quote : Char)
  | escaped
  | escapedInQuotes
  deriving DecidableEq, Repr

def isDivider (c : Char) : Bool := c = ' ' || c = '\t' || c = '\r' || c = '\n'

/-- Adds characters to a word, which may only begin with them; it is kept backwards. -/
def push (word : Option (List Char)) (cs : List Char) : Option (List Char) :=
  some (cs.reverse ++ word.getD [])

def emit (word : Option (List Char)) : List (List Char) :=
  match word with
  | some cs => [cs.reverse]
  | none => []

def wordsFrom : Reading → Option (List Char) → List Char → Option (List (List Char))
  | .plain, word, [] => some (emit word)
  | _, _, [] => none
  | .plain, word, c :: r =>
    if isDivider c then (wordsFrom .plain none r).map (emit word ++ ·)
    else if c = '\'' ∨ c = '"' then wordsFrom (.quoted c) (push word []) r
    else if c = '\\' then wordsFrom .escaped word r
    else wordsFrom .plain (push word [c]) r
  | .quoted q, word, c :: r =>
    if c = q then wordsFrom .plain word r
    else if c = '\\' ∧ q = '"' then wordsFrom .escapedInQuotes word r
    else wordsFrom (.quoted q) (push word [c]) r
  | .escaped, word, c :: r => wordsFrom .plain (push word [c]) r
  | .escapedInQuotes, word, c :: r =>
    wordsFrom (.quoted '"') (push word (if c = '"' ∨ c = '\\' then [c] else ['\\', c])) r

def shellWords (command : String) : List String :=
  ((wordsFrom .plain none command.toList).getD (Text.words command.toList)).map String.ofList

end CallAtlas.Compile
