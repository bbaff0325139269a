import CallAtlas.Proofs.Ir.Pieces

/-!
# Where the target of a call stands

The target of a call is found by a search of its own, which knows nothing of string literals and
takes other characters for names than the references of a text do. `Instruction.found?` is the place
where that search ends, and `TargetAt` says what stands before and behind it. A target outside of
literals that is spelled as a name is one of the references: `TargetAt.mem_globalRefs`. The callee
is its spelling, and so the name of the reference exactly if that has no escapes,
`Spelling.raw_eq_name_iff`.
-/

namespace CallAtlas.Ir

open Text List

variable {s t u v r args : List Char} {c : Char} {w : Spelling}

/-! ## Spellings -/

/-- Whether a backslash and two hexadecimal digits stand somewhere. -/
def hasEscape : List Char → Bool
  | '\\' :: a :: b :: r => (hexValue? a).isSome && (hexValue? b).isSome || hasEscape (a :: b :: r)
  | _ :: r => hasEscape r
  | [] => false

theorem length_unescape_le (s : List Char) : (unescape s).length ≤ s.length := by
  fun_induction unescape s with
  | case1 a b r x y hx hy ih =>
    simp only [length_cons]
    omega
  | case2 a b r hne ih =>
    simp only [length_cons] at ih ⊢
    omega
  | case3 c r hne ih =>
    simp only [length_cons]
    omega
  | case4 => exact le_refl _

/-- Decoding leaves exactly the texts without escapes as they are. -/
theorem unescape_eq_self_iff (s : List Char) : unescape s = s ↔ hasEscape s = false := by
  fun_induction unescape s with
  | case1 a b r x y hx hy ih =>
    have hlen := length_unescape_le r
    refine ⟨fun h => ?_, fun h => ?_⟩
    · have := congrArg length h
      simp only [length_cons] at this
      omega
    · simp [hasEscape, hx, hy] at h
  | case2 a b r hne ih =>
    have hhex : ((hexValue? a).isSome && (hexValue? b).isSome) = false := by
      cases hx : hexValue? a with
      | none => rfl
      | some x =>
        cases hy : hexValue? b with
        | none => rfl
        | some y => exact (hne x y hx hy).elim
    rw [hasEscape, hhex, Bool.false_or, ← ih, cons.injEq, eq_self_iff_true, true_and]
  | case3 c r hne ih =>
    rw [hasEscape, ← ih, cons.injEq, eq_self_iff_true, true_and]
    exact hne
  | case4 => simp [hasEscape]

namespace Spelling

/-- The spelling with its quotes. -/
def written : Spelling → List Char
  | .bare name => name
  | .quoted body => '"' :: body ++ ['"']

/-- Whether a bare spelling is a name; between quotes everything is one. -/
def isName : Spelling → Bool
  | .bare name => globalName? name = some (name, [])
  | .quoted _ => true

/-- Whether a quoted spelling holds an escape. -/
def isEscaped : Spelling → Bool
  | .bare _ => false
  | .quoted body => hasEscape body

theorem raw_eq_name_iff (w : Spelling) : w.raw = w.name ↔ w.isEscaped = false := by
  cases w with
  | bare name => exact ⟨fun _ => rfl, fun _ => rfl⟩
  | quoted body => exact eq_comm.trans (unescape_eq_self_iff body)

end Spelling

/-- What is read as a spelling is its written form; between quotes stands a body. -/
theorem spelling?_written {bare : List Char → Option (List Char × List Char)}
    (h : spelling? bare s = some (w, t, r)) :
    t = w.written ∧ ∀ b, w = .quoted b → IsBody b := by
  unfold spelling? at h
  split at h
  · obtain ⟨⟨b, v⟩, hc, he⟩ := Option.map_eq_some_iff.1 h
    obtain ⟨rfl, rfl, rfl⟩ := he
    refine ⟨rfl, fun b' hb' => ?_⟩
    rw [← Spelling.quoted.inj hb']
    exact isBody_of_closeQuote hc
  · obtain ⟨⟨n, v⟩, hn, he⟩ := Option.map_eq_some_iff.1 h
    obtain ⟨rfl, rfl, rfl⟩ := he
    exact ⟨rfl, nofun⟩

theorem delimited_append (hu : delimited u) (hv : delimited v) : delimited (u ++ v) := by
  cases u with
  | nil => exact hv
  | cons d u => exact hu

theorem read_written (hw : w.isName) (hb : ∀ b, w = .quoted b → IsBody b) (hr : delimited r) :
    globalReader.read ('@' :: w.written ++ r) = some (w, '@' :: w.written, r) := by
  cases w with
  | bare n =>
    have hn : globalName? (n ++ r) = some (n, r) := bareForm_globalName?.swap (of_decide_eq_true hw)
      (.inr (any_isBare_of_delimited hr))
    exact read_bare rfl bareForm_globalName? hn
  | quoted b => exact read_quoted rfl (hb b rfl) r

/-! ## References behind a text -/

theorem mem_references_append (hu : terminated false u)
    (hw : globalReader.read ('@' :: v) = some (w, t, r)) :
    w ∈ references globalReader (u ++ '@' :: v) := by
  have hcons {c : Char} (hq : c ≠ '"') (s : List Char) :=
    (sigiled_globalReader.sighted.references_cons hq s).1
  induction hu using terminated_induction with
  | nil =>
    rw [nil_append, hcons (by decide), hw]
    exact mem_cons_self
  | char c s hq hs ih =>
    rw [cons_append, hcons hq]
    exact mem_append_right _ (ih s hs le_rfl)
  | quoted b s hb _ ih => rwa [literal_append, references_body hb]

/-! ## The search -/

def nextTarget? : List Char → Option (List Char)
  | [] => none
  | c :: r => if (calleeAt? (c :: r)).isSome then some (c :: r) else nextTarget? r

theorem nextCallee?_eq (s : List Char) : nextCallee? s = (nextTarget? s).bind calleeAt? := by
  induction s with
  | nil => rfl
  | cons c r ih =>
    rw [nextCallee?, nextTarget?, ih]
    cases hc : calleeAt? (c :: r) with
    | none => rfl
    | some p => simp [hc]

theorem nextTarget?_eq_some (h : nextTarget? s = some t) : t <:+ s ∧ (calleeAt? t).isSome := by
  induction s with
  | nil => cases h
  | cons c r ih =>
    rw [nextTarget?] at h
    split_ifs at h with hc
    · rw [← Option.some.inj h]
      exact ⟨suffix_rfl, hc⟩
    · obtain ⟨hsuffix, hcallee⟩ := ih h
      exact ⟨hsuffix.trans (suffix_cons c r), hcallee⟩

def findTarget? (s : List Char) : Option (List Char) :=
  match _h : nextCallee? s with
  | none => none
  | some (c, _, args) =>
    if c = '%' then
      match closingOffset? args with
      | some k =>
        if startsOperand (args.drop (k + 1)) then findTarget? (args.drop (k + 1)) else nextTarget? s
      | none => nextTarget? s
    else nextTarget? s
termination_by s.length
decreasing_by
  have := nextCallee?_args_lt _h
  simp only [length_drop]
  omega

theorem delimited_of_trimLeft (h : trimLeft s = '(' :: r) : delimited s := by
  cases s with
  | nil => cases h
  | cons d s =>
    by_cases hd : isBlank d
    · exact isBlank_isDelimiter hd
    · rw [trimLeft, dropWhile_cons_of_neg hd] at h
      rw [(cons.inj h).1]
      rfl

theorem calleeAt?_written (h : calleeAt? t = some (c, w, args)) :
    (c = '@' ∨ c = '%') ∧ (∀ b, w = .quoted b → IsBody b) ∧
      ∃ after, t = c :: w.written ++ after ∧ delimited after ∧ args <:+ after := by
  obtain ⟨hc, r, text, rest, rfl, hs, args, ht, rfl⟩ := calleeAt?_eq_some h
  obtain ⟨hwritten, hbody⟩ := spelling?_written hs
  refine ⟨hc, hbody, rest, ?_, delimited_of_trimLeft ht, ?_⟩
  · rw [← hwritten, (spelling?_split run?_split hs).1]
    rfl
  · rw [← ht]
    exact dropWhile_suffix _

theorem nextCallee?_eq_some (h : nextCallee? s = some (c, w, args)) :
    ∃ t, nextTarget? s = some t ∧ calleeAt? t = some (c, w, args) := by
  rw [nextCallee?_eq] at h
  exact Option.bind_eq_some_iff.1 h

theorem args_suffix (h : nextCallee? s = some (c, w, args)) : args <:+ s := by
  obtain ⟨t, ht, hc⟩ := nextCallee?_eq_some h
  obtain ⟨-, -, after, rfl, -, hargs⟩ := calleeAt?_written hc
  exact (hargs.trans (suffix_append _ after)).trans (nextTarget?_eq_some ht).1

theorem findTarget?_eq_some (h : findTarget? s = some t) : t <:+ s ∧ (calleeAt? t).isSome := by
  fun_induction findTarget? s with
  | case1 s hn => cases h
  | case2 s w args k hk hop hn ih =>
    obtain ⟨hsuffix, hcallee⟩ := ih h
    exact ⟨hsuffix.trans ((drop_suffix _ args).trans (args_suffix hn)), hcallee⟩
  | case3 s w args k hk hop hn => exact nextTarget?_eq_some h
  | case4 s w args hk hn => exact nextTarget?_eq_some h
  | case5 s c w args hn hc => exact nextTarget?_eq_some h

theorem findTarget?_none (hn : nextCallee? s = none) : findTarget? s = none := by
  rw [findTarget?]
  split
  · rfl
  · next hn' =>
    rw [hn] at hn'
    cases hn'

theorem findTarget?_behind {k : Nat} (hn : nextCallee? s = some ('%', w, args))
    (hk : closingOffset? args = some k)
    (hop : startsOperand (args.drop (k + 1))) :
    findTarget? s = findTarget? (args.drop (k + 1)) := by
  rw [findTarget?]
  split
  · next hn' =>
    rw [hn] at hn'
    cases hn'
  · next hn' =>
    rw [hn] at hn'
    cases hn'
    rw [if_pos rfl, hk]
    dsimp only
    rw [if_pos hop]

theorem findTarget?_here (hn : nextCallee? s = some (c, w, args))
    (hstop : c = '%' → ∀ k, closingOffset? args = some k →
      startsOperand (args.drop (k + 1)) ≠ true) :
    findTarget? s = nextTarget? s := by
  rw [findTarget?]
  split
  · next hn' =>
    rw [hn] at hn'
    cases hn'
  · next hn' =>
    rw [hn] at hn'
    cases hn'
    split_ifs with hc
    · cases hk : closingOffset? args with
      | none => rfl
      | some k => exact if_neg (hstop hc k hk)
    · rfl

theorem findCallee?_eq (s : List Char) :
    findCallee? s = (findTarget? s).bind fun t => (calleeAt? t).map fun p => (p.1, p.2.1) := by
  have hhere {s args : List Char} {c : Char} {w : Spelling} (hn : nextCallee? s = some (c, w, args))
      (hstop : c = '%' → ∀ k, closingOffset? args = some k →
        startsOperand (args.drop (k + 1)) ≠ true) :
      some (c, w) = (findTarget? s).bind fun t => (calleeAt? t).map fun p => (p.1, p.2.1) := by
    obtain ⟨t, ht, hc⟩ := nextCallee?_eq_some hn
    rw [findTarget?_here hn hstop, ht, Option.bind_some, hc]
    rfl
  fun_induction findCallee? s with
  | case1 s hn => rw [findTarget?_none hn]; rfl
  | case2 s w args k hk hop hn ih => rw [findTarget?_behind hn hk hop, ih]
  | case3 s w args k hk hop hn =>
    refine hhere hn fun _ k' hk' => ?_
    rwa [Option.some.inj (hk'.symm.trans hk)]
  | case4 s w args hk hn => exact hhere hn fun _ k hk' => absurd (hk'.symm.trans hk) nofun
  | case5 s c w args hn hc => exact hhere hn fun hc' => absurd hc' hc

def Reader.from? {α : Type} (R : Reader α) : List Char → Option (List Char)
  | [] => none
  | c :: r => if (R.read (c :: r)).isSome then some (c :: r) else R.from? r

theorem Reader.search?_eq {α : Type} (R : Reader α) (s : List Char) :
    R.search? s = (R.from? s).bind fun t => (R.read t).map fun p => (p.1, p.2.2) := by
  induction s with
  | nil => rfl
  | cons c r ih =>
    rw [search?, from?]
    cases hc : R.read (c :: r) with
    | none => exact ih
    | some p => simp [hc]

theorem Reader.from?_eq_some {α : Type} {R : Reader α} (h : R.from? s = some t) :
    t <:+ s ∧ (R.read t).isSome := by
  induction s with
  | nil => cases h
  | cons c r ih =>
    rw [from?] at h
    split_ifs at h with hc
    · rw [← Option.some.inj h]
      exact ⟨suffix_rfl, hc⟩
    · obtain ⟨hsuffix, hread⟩ := ih h
      exact ⟨hsuffix.trans (suffix_cons c r), hread⟩

/-! ## Instructions -/

theorem afterEquals?_suffix (h : afterEquals? s = some t) : t <:+ s := by
  unfold afterEquals? at h
  split at h
  · next r hr =>
    obtain rfl := Option.some.inj h
    have hs : '=' :: r <:+ s := by
      rw [← hr]
      exact dropWhile_suffix _
    exact ((dropWhile_suffix _).trans (suffix_cons '=' r)).trans hs
  · cases h

theorem readResult?_suffix (h : readResult? s = some (r, t)) : t <:+ s := by
  unfold readResult? at h
  split at h
  · next r' hr =>
    have hs : '%' :: r' <:+ s := by
      rw [← hr]
      exact dropWhile_suffix _
    split at h
    · next w text rest hsp =>
      obtain ⟨body, hbody, he⟩ := Option.map_eq_some_iff.1 h
      obtain rfl := (Prod.mk.inj he).2
      have hrest : rest <:+ r' := by
        rw [(spelling?_split run?_split hsp).1]
        exact suffix_append _ _
      exact ((afterEquals?_suffix hbody).trans hrest).trans ((suffix_cons '%' r').trans hs)
    · cases h
  · cases h

namespace Instruction

variable {i : Instruction} {before after : List Char} {name : String}

theorem exists_body (i : Instruction) :
    ∃ lead blanks, i.text.toList = lead ++ i.body ++ blanks ∧ ∀ d ∈ blanks, isBlank d := by
  unfold body
  cases h : readResult? i.text.toList with
  | some p =>
    obtain ⟨lead, hlead⟩ := readResult?_suffix h
    exact ⟨lead, [], by rw [append_nil, hlead], by simp⟩
  | none =>
    obtain ⟨lead, hlead⟩ : trimLeft i.text.toList <:+ i.text.toList := dropWhile_suffix _
    obtain ⟨blanks, hblanks, hall⟩ := trimRight_append (trimLeft i.text.toList)
    refine ⟨lead, blanks, ?_, hall⟩
    rw [trim, append_assoc, ← hblanks, hlead]

theorem operands_suffix (i : Instruction) : i.operands <:+ i.body := by
  unfold operands
  dsimp only
  split
  · exact drop_suffix _ _
  · exact suffix_rfl

/-- Where the search for the target of a call ends: the text from the target on and how the target
is spelled. -/
def found? (i : Instruction) : Option (List Char × Spelling) :=
  match findTarget? i.operands with
  | some t => (calleeAt? t).map fun p => (t, p.2.1)
  | none =>
    (globalReader.from? i.operands).bind fun t => (globalReader.read t).map fun p => (t, p.1)

theorem found?_suffix (h : i.found? = some (t, w)) : t <:+ i.operands := by
  unfold found? at h
  cases hf : findTarget? i.operands with
  | some t' =>
    rw [hf] at h
    obtain ⟨p, -, he⟩ := Option.map_eq_some_iff.1 h
    rw [← (Prod.mk.inj he).1]
    exact (findTarget?_eq_some hf).1
  | none =>
    rw [hf] at h
    obtain ⟨t', ht', h⟩ := Option.bind_eq_some_iff.1 h
    obtain ⟨p, -, he⟩ := Option.map_eq_some_iff.1 h
    rw [← (Prod.mk.inj he).1]
    exact (Reader.from?_eq_some ht').1

/-- A call by name has a target behind an `@`. If the target is a name, it is read back with blanks
behind it. -/
theorem found?_of_direct (h : i.target = .direct name) :
    ∃ w after, i.found? = some ('@' :: w.written ++ after, w) ∧ name = String.ofList w.raw ∧
      ∀ blanks, delimited blanks → w.isName →
        globalReader.read ('@' :: w.written ++ (after ++ blanks)) =
          some (w, '@' :: w.written, after ++ blanks) := by
  unfold target at h
  unfold found?
  dsimp only at h
  split_ifs at h
  cases hf : findTarget? i.operands with
  | some t =>
    -- a name before a parenthesis
    obtain ⟨⟨c, w, args⟩, hc⟩ := Option.isSome_iff_exists.1 (findTarget?_eq_some hf).2
    rw [findCallee?_eq, hf, Option.bind_some, hc] at h
    obtain ⟨hsigil, hbody, after, rfl, hafter, -⟩ := calleeAt?_written hc
    dsimp only [Option.map_some] at h
    split_ifs at h with hp
    obtain rfl : c = '@' := hsigil.resolve_right hp
    refine ⟨w, after, ?_, (CallTarget.direct.inj h).symm, fun blanks hblanks hw => ?_⟩
    · dsimp only
      rw [hc]
      rfl
    · exact read_written hw hbody (delimited_append hafter hblanks)
  | none =>
    -- the first reference, which is read already
    rw [findCallee?_eq, hf, Reader.search?_eq] at h
    cases hr : globalReader.from? i.operands with
    | none =>
      rw [hr] at h
      cases h
    | some t =>
      obtain ⟨⟨w, text, rest⟩, hread⟩ := Option.isSome_iff_exists.1 (Reader.from?_eq_some hr).2
      rw [hr, Option.bind_some, hread] at h
      obtain ⟨s', u, rfl, rfl, hs⟩ := sigilRead_eq_some hread
      obtain ⟨rfl, -⟩ := spelling?_written hs
      have hsplit := (globalReader.split hread).1
      refine ⟨w, rest, ?_, (CallTarget.direct.inj h).symm, fun blanks hblanks _ => ?_⟩
      · rw [Option.bind_some, hread, ← hsplit]
        rfl
      · exact sigiled_globalReader.swap hread (follows_append hblanks rest)

/-- The target of a call by name: the spelling `w` behind an `@`, between two texts. -/
structure TargetAt (i : Instruction) (before : List Char) (w : Spelling) (after : List Char) :
    Prop where
  text : i.text.toList = before ++ '@' :: w.written ++ after
  /-- The search ends there; it does not look at blanks at the end of the text. -/
  found : ∃ t blanks, i.found? = some (t, w) ∧ '@' :: w.written ++ after = t ++ blanks ∧
    ∀ d ∈ blanks, isBlank d

theorem target_of_callee (h : i.callee = some name) : i.target = .direct name := by
  unfold callee at h
  split_ifs at h
  cases ht : i.target with
  | direct name' =>
    rw [ht] at h
    rw [Option.some.inj h]
  | indirect =>
    rw [ht] at h
    cases h

theorem exists_targetAt (h : i.callee = some name) :
    ∃ before w after, i.TargetAt before w after := by
  obtain ⟨w, after, hfound, -, -⟩ := found?_of_direct (target_of_callee h)
  obtain ⟨lead, hlead⟩ := (found?_suffix hfound).trans i.operands_suffix
  obtain ⟨lead', blanks, htext, hblanks⟩ := i.exists_body
  refine ⟨lead' ++ lead, w, after ++ blanks, ?_, _, blanks, hfound, by simp, hblanks⟩
  rw [htext, ← hlead]
  simp

/-- The callee is how the target is spelled, and a name is read there. -/
theorem TargetAt.reads (h : i.TargetAt before w after) (hn : i.callee = some name) :
    name = String.ofList w.raw ∧ (w.isName →
      globalReader.read ('@' :: w.written ++ after) = some (w, '@' :: w.written, after)) := by
  obtain ⟨w', after', hfound', hname, hread⟩ := found?_of_direct (target_of_callee hn)
  obtain ⟨t, blanks, hfound, htext, hblanks⟩ := h.found
  rw [hfound'] at hfound
  obtain ⟨rfl, rfl⟩ := Prod.mk.inj (Option.some.inj hfound)
  rw [append_assoc] at htext
  rw [append_cancel_left htext]
  exact ⟨hname, hread blanks (delimited_blanks hblanks)⟩

theorem TargetAt.mem_globalRefs (h : i.TargetAt before w after) (hn : i.callee = some name)
    (hb : terminated false before) (hw : w.isName) : String.ofList w.name ∈ globalRefs i.text := by
  rw [globalRefs, mem_eraseDups, mem_map]
  refine ⟨w, ?_, rfl⟩
  rw [h.text, append_assoc]
  exact mem_references_append hb ((h.reads hn).2 hw)

end Instruction

end CallAtlas.Ir
