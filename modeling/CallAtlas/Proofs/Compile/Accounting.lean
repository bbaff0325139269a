import CallAtlas.Compile.Query
import CallAtlas.Proofs.Scan.Instructions

/-!
# Every call site is accounted for

Between a module and the queries about it a call site goes through the scan, the choice of the
targets and the look-up of its compile command. `stream_accounted`: the sites that are streamed have
one outcome each, a query or a report, in order. The stream ends early only at a site that is
`Stuck`, whose command has an argument that is no text. In front of it stands the scan, which finds
a site for each call instruction or stops at a location that cannot be resolved; `sites_accounted`
joins the two. A report names the caller of its site, but for a caller with the empty name:
`nameless_unreported`.
-/

namespace CallAtlas.Compile

open Scan Debug List

/-! ## Outcomes -/

def Database.commandAt (d : Database) (s : CallSite) : Option Command :=
  s.location.bind fun l => d.entries.get? (d.map.normalize l.sourceFile "")

namespace Query

/-- A query about a site: its symbols and its position, and the command of its file. -/
structure Asks (d : Database) (clean : Bool) (s : CallSite) (q : Query) : Prop where
  caller : q.caller = s.caller
  callee : q.callee = s.callee
  position : ∃ l, s.location = some l ∧ q.line = l.line ∧ q.column = l.column
  command : ∃ c, d.commandAt s = some c ∧ q.sourceFile = c.file ∧ q.directory = c.directory ∧
    if clean then (c.flags d.map).map (List.map .str) = .ok q.arguments else q.arguments =
    c.arguments

/-- A report about a site without a command; it names the caller if that has a name. -/
structure Reports (d : Database) (s : CallSite) (r : Diagnostic) : Prop where
  command : d.commandAt s = none
  kind : r.kind = "unresolved-source"
  symbol : r.symbol = if s.caller = "" then none else some s.caller

/-- What becomes of a site. -/
def Settles (d : Database) (clean : Bool) (s : CallSite) : Query ⊕ Diagnostic → Prop
  | .inl q => Asks d clean s q
  | .inr r => Reports d s r

/-- A site with a command that cannot be cleaned, since an argument is no text. -/
def Stuck (d : Database) (clean : Bool) (s : CallSite) : Prop :=
  clean ∧ ∃ c, d.commandAt s = some c ∧ c.flags d.map = .error .wrongType ∧
    ∃ a ∈ c.arguments, ∀ t, a ≠ .str t

variable {d : Database} {clean : Bool} {s : CallSite} {sites : List CallSite}

theorem cleanTokens_error {map : PathMap} {c : Command} {tokens : List Json} {e : Failure}
    (h : cleanTokens map c tokens = .error e) : e = .wrongType ∧ ∃ a ∈ tokens, ∀ t, a ≠ .str t := by
  fun_induction cleanTokens map c tokens with
  | case1 => cases h
  | case2 token r _ ih =>
    obtain ⟨he, a, ha, hne⟩ := ih h
    exact ⟨he, a, mem_cons_of_mem _ (mem_of_mem_drop ha), hne⟩
  | case3 token r _ _ ih =>
    obtain ⟨he, a, ha, hne⟩ := ih h
    exact ⟨he, a, mem_cons_of_mem _ ha, hne⟩
  | case4 token r _ _ ih =>
    cases hr : cleanTokens map c r with
    | ok tokens =>
      rw [hr] at h
      cases h
    | error e' =>
      rw [hr] at h
      obtain rfl := Except.error.inj h
      obtain ⟨he, a, ha, hne⟩ := ih hr
      exact ⟨he, a, mem_cons_of_mem _ ha, hne⟩
  | case5 a r hne =>
    exact ⟨(Except.error.inj h).symm, a, mem_cons_self, fun t ht => hne t ht⟩

theorem flags_error {map : PathMap} {c : Command} {e : Failure} (h : c.flags map = .error e) :
    e = .wrongType ∧ ∃ a ∈ c.arguments, ∀ t, a ≠ .str t := by
  obtain ⟨he, a, ha, hne⟩ := cleanTokens_error h
  exact ⟨he, a, mem_of_mem_drop ha, hne⟩

theorem commandAt_located {l : Location} (hl : s.location = some l) :
    d.commandAt s = d.entries.get? (d.map.normalize l.sourceFile "") := by
  rw [Database.commandAt, hl]
  rfl

theorem ofSite_missing (clean : Bool) (h : d.commandAt s = none) :
    ∃ m file line, ofSite d clean s = .error (.of (.unresolved m file line)) := by
  unfold ofSite
  cases hl : s.location with
  | none => exact ⟨_, _, _, rfl⟩
  | some l =>
    rw [commandAt_located hl] at h
    have hlookup : d.lookup l.sourceFile =
        .error (.of (.noCommand (d.map.normalize l.sourceFile ""))) := by
      rw [Database.lookup, h]
    dsimp only
    rw [hlookup]
    exact ⟨_, _, _, rfl⟩

/-- A site with a command gives a query, if the arguments can be had. -/
theorem ofSite_found {c : Command} (clean : Bool) (h : d.commandAt s = some c) :
    ∃ l, s.location = some l ∧ ofSite d clean s =
      (if clean then (c.flags d.map).map (List.map .str) else .ok c.arguments).map fun arguments =>
        ⟨c.file, l.line, l.column, c.directory, arguments, s.caller, s.callee⟩ := by
  unfold ofSite
  cases hl : s.location with
  | none =>
    rw [Database.commandAt, hl] at h
    cases h
  | some l =>
    rw [commandAt_located hl] at h
    have hlookup : d.lookup l.sourceFile = .ok c := by rw [Database.lookup, h]
    refine ⟨l, rfl, ?_⟩
    dsimp only
    rw [hlookup]
    cases clean with
    | false => rfl
    | true =>
      dsimp only
      cases c.flags d.map <;> rfl

theorem ofSite_cases (d : Database) (clean : Bool) (s : CallSite) :
    (∃ q, ofSite d clean s = .ok q ∧ Asks d clean s q) ∨
    (∃ m file line, ofSite d clean s = .error (.of (.unresolved m file line)) ∧
      d.commandAt s = none) ∨
    (ofSite d clean s = .error .wrongType ∧ Stuck d clean s) := by
  cases hc : d.commandAt s with
  | none =>
    obtain ⟨m, file, line, h⟩ := ofSite_missing clean hc
    exact .inr (.inl ⟨m, file, line, h, rfl⟩)
  | some c =>
    obtain ⟨l, hl, h⟩ := ofSite_found clean hc
    cases clean with
    | false => exact .inl ⟨_, h, rfl, rfl, ⟨l, hl, rfl, rfl⟩, c, hc, rfl, rfl, rfl⟩
    | true =>
      cases hf : c.flags d.map with
      | ok flags =>
        rw [hf] at h
        refine .inl ⟨_, h, rfl, rfl, ⟨l, hl, rfl, rfl⟩, c, hc, rfl, rfl, ?_⟩
        rw [hf]
        rfl
      | error e =>
        rw [hf] at h
        obtain ⟨rfl, hne⟩ := flags_error hf
        exact .inr (.inr ⟨h, rfl, c, hc, hf, hne⟩)

theorem reports_report (m : String) (file : Option String) (line : Option Int)
    (hc : d.commandAt s = none) :
    Reports d s (report { cause := .unresolved m file line } s) where
  command := hc
  kind := rfl
  symbol := by
    show Diagnostic.firstText (some s.caller) none = _
    by_cases h : s.caller = "" <;> simp [Diagnostic.firstText, h]

/-! ## Streams -/

theorem stream_query {q : Query} (h : ofSite d clean s = .ok q) :
    stream d clean (s :: sites) =
      ⟨q :: (stream d clean sites).queries, (stream d clean sites).diagnostics,
        (stream d clean sites).failure⟩ := by
  rw [stream, h]

theorem stream_report {m : String} {file : Option String} {line : Option Int}
    (h : ofSite d clean s = .error (.of (.unresolved m file line))) :
    stream d clean (s :: sites) =
      ⟨(stream d clean sites).queries,
        report { cause := .unresolved m file line } s :: (stream d clean sites).diagnostics,
        (stream d clean sites).failure⟩ := by
  rw [stream, h]
  rfl

theorem stream_stuck (h : ofSite d clean s = .error .wrongType) :
    stream d clean (s :: sites) = { failure := some .wrongType } := by
  rw [stream, h]

structure Accounted (d : Database) (clean : Bool) (sites : List CallSite) (t : Stream) : Prop where
  /-- The sites before the one that the stream ends at have one outcome each; queries and reports
  keep their order. -/
  settled : ∃ done rest outcomes, sites = done ++ rest ∧
    List.Forall₂ (Settles d clean) done outcomes ∧
    t.queries = outcomes.filterMap Sum.getLeft? ∧ t.diagnostics = outcomes.filterMap Sum.getRight? ∧
    (rest = [] ∧ t.failure = none ∨
      ∃ s after, rest = s :: after ∧ Stuck d clean s ∧ t.failure = some .wrongType)
  /-- The stream comes to its end exactly if no site is stuck. -/
  ends : t.failure = none ↔ ∀ s ∈ sites, ¬ Stuck d clean s
  /-- Then the numbers add up. -/
  count : t.failure = none → t.queries.length + t.diagnostics.length = sites.length

theorem length_sum (outcomes : List (Query ⊕ Diagnostic)) :
    (outcomes.filterMap Sum.getLeft?).length + (outcomes.filterMap Sum.getRight?).length =
      outcomes.length := by
  induction outcomes with
  | nil => rfl
  | cons o outcomes ih =>
    cases o with
    | inl q =>
      simp only [filterMap_cons, Sum.getLeft?_inl, Sum.getRight?_inl, length_cons]
      omega
    | inr r =>
      simp only [filterMap_cons, Sum.getLeft?_inr, Sum.getRight?_inr, length_cons]
      omega

theorem stream_settled (d : Database) (clean : Bool) (sites : List CallSite) :
    ∃ done rest outcomes, sites = done ++ rest ∧ List.Forall₂ (Settles d clean) done outcomes ∧
      (stream d clean sites).queries = outcomes.filterMap Sum.getLeft? ∧
      (stream d clean sites).diagnostics = outcomes.filterMap Sum.getRight? ∧
      (rest = [] ∧ (stream d clean sites).failure = none ∨
        ∃ s after, rest = s :: after ∧ Stuck d clean s ∧
        (stream d clean sites).failure = some .wrongType) := by
  induction sites with
  | nil => exact ⟨[], [], [], rfl, .nil, rfl, rfl, .inl ⟨rfl, rfl⟩⟩
  | cons s sites ih =>
    obtain ⟨done, rest, outcomes, hsites, hall, hq, hd, hend⟩ := ih
    rcases ofSite_cases d clean s with ⟨q, h, hasks⟩ | ⟨m, file, line, h, hnone⟩ | ⟨h, hstuck⟩
    · rw [stream_query h]
      refine ⟨s :: done, rest, .inl q :: outcomes, by rw [hsites]; rfl, .cons hasks hall, ?_,
        ?_, hend⟩
      · simp [hq]
      · simp [hd, filterMap_cons]
    · rw [stream_report h]
      have hreports := reports_report m file line hnone
      refine ⟨s :: done, rest, .inr _ :: outcomes, by rw [hsites]; rfl, .cons hreports hall, ?_,
        ?_, hend⟩
      · simp [hq, filterMap_cons]
      · simp [hd]
    · rw [stream_stuck h]
      exact ⟨[], s :: sites, [], rfl, .nil, rfl, rfl, .inr ⟨s, sites, rfl, hstuck, rfl⟩⟩

theorem Settles.not_stuck {o : Query ⊕ Diagnostic} (h : Settles d clean s o) :
    ¬ Stuck d clean s := by
  rintro ⟨rfl, c, hc, hf, -⟩
  cases o with
  | inl q =>
    obtain ⟨c', hc', -, -, hflags⟩ := Asks.command h
    obtain rfl := Option.some.inj (hc.symm.trans hc')
    rw [hf] at hflags
    cases hflags
  | inr r =>
    rw [Reports.command h] at hc
    cases hc

theorem not_stuck_of_settled {outcomes : List (Query ⊕ Diagnostic)}
    (h : List.Forall₂ (Settles d clean) sites outcomes) : ∀ s ∈ sites, ¬ Stuck d clean s := by
  induction h with
  | nil => exact fun s hs => absurd hs not_mem_nil
  | cons hs _ ih => exact forall_mem_cons.2 ⟨hs.not_stuck, ih⟩

theorem stream_accounted (d : Database) (clean : Bool) (sites : List CallSite) :
    Accounted d clean sites (stream d clean sites) := by
  obtain ⟨done, rest, outcomes, rfl, hall, hq, hd, hend⟩ := stream_settled d clean sites
  refine ⟨⟨done, rest, outcomes, rfl, hall, hq, hd, hend⟩, ?_, ?_⟩
  · rcases hend with ⟨rfl, hnone⟩ | ⟨s, after, rfl, hstuck, hfail⟩
    · rw [append_nil] at hnone ⊢
      exact ⟨fun _ => not_stuck_of_settled hall, fun _ => hnone⟩
    · rw [hfail]
      exact ⟨nofun, fun h => absurd hstuck (h s (by simp))⟩
  · intro hnone
    rcases hend with ⟨rfl, -⟩ | ⟨s, after, rfl, -, hfail⟩
    · rw [hq, hd, length_sum, append_nil, hall.length_eq]
    · rw [hfail] at hnone
      cases hnone

/-! ## From a module to its queries -/

/-- No call is lost. The scan of a module stops at a location that it cannot resolve, or it finds
the calls of the module in order, and the stream accounts for those that are chosen. The reports of
the scan are of another kind. -/
theorem sites_accounted (m : IrModule) (s : Scan.Memory) (targets : List String) (d : Database)
    (clean : Bool) :
    OnlyMissing s (Scan.sites m s).1 ∧
    ((∃ e, (Scan.sites m s).2 = .error e ∧
        ∃ before c after s' found id, calls m = before ++ c :: after ∧
          walk m s before = (s', .ok found) ∧
          c.debug = some id ∧ (resolve m.metadata s'.depth s'.locations id).2 = .error e) ∨
      ∃ found, (Scan.sites m s).2 = .ok found ∧
        List.Forall₂ StandsFor (chosenInstructions targets m) (chosen targets found) ∧
        (Acyclic m.metadata → Remembered m.metadata s.locations →
          List.Forall₂ (SiteOf m.metadata) (calls m) found) ∧
        Accounted d clean (chosen targets found) (stream d clean (chosen targets found))) := by
  refine ⟨onlyMissing_walk m s (calls m), ?_⟩
  cases hs : (sites m s).2 with
  | error e => exact .inl ⟨e, rfl, walk_stops hs⟩
  | ok found =>
    refine .inr ⟨found, rfl, standsFor_chosen hs targets, fun ha hr => ?_,
      stream_accounted d clean _⟩
    exact walk_ok ha.resolves hr hs

/-- A module with a function whose name is empty. -/
def nameless : IrModule where
  functions := .ofList [("", ⟨"", "define void @\"\"() \x7b",
    [⟨"entry", [⟨"  call void @f()"⟩, ⟨"  ret void"⟩], none⟩]⟩)]

def namelessCall : Call := ⟨"", some "f", "call", "entry", 0, none⟩

/-- The report about a call without a location names no caller if the name of the caller is
empty. -/
theorem nameless_unreported :
    (Scan.sites nameless {}).2 = .ok [namelessCall.site none] ∧
      (namelessCall.site none).caller = "" ∧
      ∃ r, stream {} true [namelessCall.site none] = ⟨[], [r], none⟩ ∧
        r.kind = "unresolved-source" ∧ r.symbol = none := by
  have hcalls : calls nameless = [namelessCall] := by decide +kernel
  refine ⟨?_, rfl, _, rfl, rfl, rfl⟩
  rw [sites, hcalls]
  rfl

end Query

end CallAtlas.Compile
