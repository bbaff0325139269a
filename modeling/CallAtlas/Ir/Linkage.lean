import CallAtlas.Text.Blank

/-!
# Linkage

The run of keywords before the type of a symbol. Local linkages carry no other keyword, so writing a
linkage replaces the whole run.
-/

namespace CallAtlas.Ir

open Text

/-- How a symbol is seen from other modules. -/
inductive Linkage where
  | «private»
  | internal
  /-- A copy of a definition that exists elsewhere. -/
  | availableExternally
  /-- One of several definitions; it may be dropped when unused. -/
  | linkonce
  /-- One of several definitions; it is kept. -/
  | weak
  | common
  /-- An array that is joined with its namesakes. -/
  | appending
  /-- A reference that may stay undefined. -/
  | externWeak
  | linkonceOdr
  | weakOdr
  | external
  deriving DecidableEq, Repr, Inhabited

namespace Linkage

def all : List Linkage :=
  [.private, .internal, .availableExternally, .linkonce, .weak, .common, .appending, .externWeak,
   .linkonceOdr, .weakOdr, .external]

def keyword : Linkage → String
  | .private => "private"
  | .internal => "internal"
  | .availableExternally => "available_externally"
  | .linkonce => "linkonce"
  | .weak => "weak"
  | .common => "common"
  | .appending => "appending"
  | .externWeak => "extern_weak"
  | .linkonceOdr => "linkonce_odr"
  | .weakOdr => "weak_odr"
  | .external => "external"

def ofKeyword? (word : String) : Option Linkage := all.find? fun l => l.keyword = word

def isLocal : Linkage → Bool
  | .private | .internal => true
  | _ => false

/-- Whether another definition may take the place. -/
def isOverridable : Linkage → Bool
  | .weak | .weakOdr | .linkonce | .linkonceOdr | .common | .availableExternally => true
  | _ => false

/-- Whether a definition that nothing refers to may go. -/
def isDiscardable : Linkage → Bool
  | .linkonce | .linkonceOdr | .availableExternally => true
  | _ => false

/-- The linkage that a run of keywords gives: the first one named, external if none is. -/
def ofKeywords (words : List String) : Linkage := (words.findSome? ofKeyword?).getD .external

end Linkage

def qualifierKeywords : List String :=
  ["default", "hidden", "protected", "dso_local", "dso_preemptable", "dllimport", "dllexport"]

def isLeadingKeyword (word : String) : Bool :=
  (Linkage.ofKeyword? word).isSome || qualifierKeywords.contains word

def headWord (s : List Char) : List Char := s.takeWhile (· ≠ ' ')

def afterWord (s : List Char) : List Char := (s.dropWhile (· ≠ ' ')).drop 1

theorem isLeadingKeyword_empty : isLeadingKeyword "" = false := by decide

theorem afterWord_lt {s : List Char} (h : isLeadingKeyword (String.ofList (headWord s)) = true) :
    (trimLeft (afterWord s)).length < s.length := by
  cases s with
  | nil =>
    rw [show String.ofList (headWord []) = "" from rfl, isLeadingKeyword_empty] at h; simp at h
  | cons c r =>
    have h₁ := length_trimLeft_le (afterWord (c :: r))
    by_cases hc : c = ' '
    · subst hc
      rw [show String.ofList (headWord (' ' :: r)) = "" from rfl, isLeadingKeyword_empty] at h
      simp at h
    · have h₂ := length_dropWhile_le (· ≠ ' ') r
      simp only [afterWord, ne_eq, List.dropWhile_cons, hc, not_false_eq_true, decide_true, if_true,
        List.length_drop, List.length_cons] at *
      omega

/-- The leading keywords of a text that starts with no blank, and the rest behind them. -/
def takeKeywords (s : List Char) : List String × List Char :=
  if _h : isLeadingKeyword (String.ofList (headWord s)) then
    let p := takeKeywords (trimLeft (afterWord s))
    (String.ofList (headWord s) :: p.1, p.2)
  else ([], s)
termination_by s.length
decreasing_by exact afterWord_lt _h

/-- The leading keywords, and the rest. -/
def splitKeywords (segment : String) : List String × String :=
  let p := takeKeywords (trimLeft segment.toList)
  (p.1, String.ofList p.2)

/-- The text with its leading keywords replaced by one linkage keyword; `external` is not
written. -/
def withLinkage (segment : String) (keyword : String) : String :=
  let rest := (splitKeywords segment).2
  if keyword = Linkage.external.keyword then rest else keyword ++ " " ++ rest

end CallAtlas.Ir
