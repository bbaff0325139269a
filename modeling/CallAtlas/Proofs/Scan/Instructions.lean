import CallAtlas.Proofs.Optimize.Sites

/-!
# Call instructions and the sites of a scan

A scan that comes to its end has found one site for each call instruction of the bodies, in their
order, and choosing the calls of some targets keeps that: `standsFor_chosen`. It stops early only at
a location that cannot be resolved, `walk_stops`. Whatever it does, it reports nothing but locations
that are missing.
-/

namespace CallAtlas.Scan

open Ir Debug List

/-! ## Instructions and calls -/

/-- The call instructions in the bodies of a module with their functions, function by function and
block by block. -/
def callInstructions (m : IrModule) : List (Function × Instruction) :=
  (m.functions.values.filter (!·.isDeclaration)).flatMap fun f =>
    (f.instructions.filter Instruction.isCall).map (f, ·)

/-- A call as it is read off its instruction. -/
structure Call.ReadOff (x : Function × Instruction) (c : Call) : Prop where
  caller : c.caller = x.1.name
  callee : c.callee = x.2.callee
  opcode : c.opcode = x.2.opcode
  debug : c.debug = x.2.debug

/-- A site that stands for an instruction. -/
structure StandsFor (x : Function × Instruction) (site : CallSite) : Prop where
  caller : site.caller = x.1.name
  callee : site.callee = x.2.callee
  opcode : site.opcode = x.2.opcode
  bare : x.2.debug = none → site.location = none

theorem callsOf_readOff (f : Function) :
    List.Forall₂ Call.ReadOff ((f.instructions.filter Instruction.isCall).map (f, ·))
      (callsOf f) := by
  have hall (labelled : List (String × Instruction)) (n : Nat) :
      Forall₂ Call.ReadOff (((labelled.map Prod.snd).filter Instruction.isCall).map (f, ·))
        ((labelled.zipIdx n).filterMap fun p =>
          if p.1.2.isCall then some ⟨f.name, p.1.2.callee, p.1.2.opcode, p.1.1, p.2, p.1.2.debug⟩
          else none) := by
    induction labelled generalizing n with
    | nil => exact .nil
    | cons p labelled ih =>
      rw [map_cons, zipIdx_cons]
      by_cases hp : p.2.isCall
      · simp only [filter_cons, filterMap_cons, hp]
        exact .cons ⟨rfl, rfl, rfl, rfl⟩ (ih (n + 1))
      · simp only [filter_cons, filterMap_cons, hp]
        exact ih (n + 1)
  have hsnd : (f.blocks.flatMap fun b => b.instructions.map fun i => (b.label, i)).map Prod.snd =
      f.instructions := by
    rw [map_flatMap, Function.instructions]
    simp
  rw [← hsnd]
  exact hall _ 0

theorem calls_readOff (m : IrModule) :
    List.Forall₂ Call.ReadOff (callInstructions m) (calls m) := by
  unfold callInstructions calls
  induction m.functions.values.filter (!·.isDeclaration) with
  | nil => exact .nil
  | cons f fs ih =>
    exact rel_append (callsOf_readOff f) ih

/-! ## Calls and sites -/

variable {m : IrModule} {s : Memory} {cs : List Call} {found : List CallSite} {e : ResolveError}

/-- A visit finds the site of its call, unless the location cannot be resolved. -/
theorem visit_ends (m : IrModule) (s : Memory) (c : Call) :
    (∃ s' v, visit m s c = (s', .ok (c.site v)) ∧ (c.debug = none → v = none)) ∨
    ∃ id e, c.debug = some id ∧ (resolve m.metadata s.depth s.locations id).2 = .error e ∧
    (visit m s c).2 = .error e := by
  cases hd : c.debug with
  | none => exact .inl ⟨_, none, visit_bare hd, fun _ => rfl⟩
  | some id =>
    cases hc : resolve m.metadata s.depth s.locations id with
    | mk memo o =>
      cases o with
      | error e =>
        have he : (resolve m.metadata s.depth s.locations id).2 = .error e := by rw [hc]
        exact .inr ⟨id, e, rfl, by rw [hc], visit_error hd he⟩
      | ok v =>
        obtain ⟨s', hv, -⟩ := visit_located hd hc
        exact .inl ⟨s', v, hv, nofun⟩

theorem walk_places (hw : (walk m s cs).2 = .ok found) :
    List.Forall₂ (fun c site => ∃ v, site = c.site v ∧ (c.debug = none → v = none)) cs found := by
  induction cs generalizing s found with
  | nil =>
    cases hw
    exact .nil
  | cons c cs ih =>
    obtain ⟨s1, site, rest, hv, hrest, rfl⟩ := walk_cons_iff.1 (Prod.ext rfl hw)
    obtain ⟨v, memo, rfl, -, hmemo⟩ := visit_inv hv
    refine .cons ⟨v, rfl, fun hd => ?_⟩ (ih (by rw [hrest]))
    rcases hmemo with ⟨-, hv, -⟩ | ⟨id, hd', -⟩
    · exact hv
    · rw [hd] at hd'
      cases hd'

theorem walk_stops (hw : (walk m s cs).2 = .error e) :
    ∃ before c after s' sites id, cs = before ++ c :: after ∧ walk m s before = (s', .ok sites) ∧
      c.debug = some id ∧ (resolve m.metadata s'.depth s'.locations id).2 = .error e := by
  induction cs generalizing s with
  | nil => cases hw
  | cons c cs ih =>
    rcases visit_ends m s c with ⟨s1, v, hv, -⟩ | ⟨id, e', hd, hr, he⟩
    · rw [walk_cons_ok hv] at hw
      have hrest : (walk m s1 cs).2 = .error e := by
        cases hrest : (walk m s1 cs).2 with
        | error e' =>
          rw [hrest] at hw
          exact hw
        | ok sites =>
          rw [hrest] at hw
          cases hw
      obtain ⟨before, c', after, s', sites, id, rfl, hbefore, hd, hr⟩ := ih hrest
      refine ⟨c :: before, c', after, s', c.site v :: sites, id, rfl, ?_, hd, hr⟩
      rw [walk, hv]
      dsimp only
      rw [hbefore]
    · rw [walk_cons_error he] at hw
      cases hw
      exact ⟨[], c, cs, s, [], id, rfl, rfl, hd, hr⟩

/-- What a scan reports is that locations are missing. -/
def OnlyMissing (s s' : Memory) : Prop :=
  ∃ new, s'.diagnostics = s.diagnostics ++ new ∧ ∀ r ∈ new, r.kind = "missing-debug-info"

theorem OnlyMissing.refl (s : Memory) : OnlyMissing s s := ⟨[], by simp, by simp⟩

theorem OnlyMissing.trans {s₁ s₂ s₃ : Memory} (h : OnlyMissing s₁ s₂) (h' : OnlyMissing s₂ s₃) :
    OnlyMissing s₁ s₃ := by
  obtain ⟨new, hnew, hkind⟩ := h
  obtain ⟨new', hnew', hkind'⟩ := h'
  refine ⟨new ++ new', by rw [hnew', hnew, append_assoc], fun r hr => ?_⟩
  rcases mem_append.1 hr with hr | hr
  · exact hkind r hr
  · exact hkind' r hr

theorem onlyMissing_report (s : Memory) (binary : String) (c : Call) :
    OnlyMissing s (s.report binary c) := by
  unfold Memory.report
  split
  · exact .refl s
  · exact ⟨[missingReport binary c], rfl, fun r hr => by rw [mem_singleton.1 hr]; rfl⟩

theorem onlyMissing_visit (m : IrModule) (s : Memory) (c : Call) :
    OnlyMissing s (visit m s c).1 := by
  unfold visit
  cases c.debug with
  | none => exact onlyMissing_report s _ c
  | some id =>
    dsimp only
    cases resolve m.metadata s.depth s.locations id with
    | mk memo o =>
      cases o with
      | error e => exact .refl s
      | ok v =>
        dsimp only
        split
        · exact onlyMissing_report { s with locations := memo } _ c
        · exact .refl s

theorem onlyMissing_walk (m : IrModule) (s : Memory) (cs : List Call) :
    OnlyMissing s (walk m s cs).1 := by
  induction cs generalizing s with
  | nil => exact .refl s
  | cons c cs ih =>
    have hvisit := onlyMissing_visit m s c
    rw [walk]
    cases hv : visit m s c with
    | mk s1 o =>
      rw [hv] at hvisit
      cases o with
      | error e => exact hvisit
      | ok site =>
        have hrest := ih s1
        dsimp only
        cases hw : walk m s1 cs with
        | mk s2 o2 =>
          rw [hw] at hrest
          cases o2 with
          | error e => exact hvisit.trans hrest
          | ok sites => exact hvisit.trans hrest

/-- The sites that are looked at: all of them, or those that call a target if there are targets. -/
def chosen (targets : List String) (found : List CallSite) : List CallSite :=
  if targets.isEmpty then found else filterSites targets found

/-- The instructions that are looked at. -/
def chosenInstructions (targets : List String) (m : IrModule) : List (Function × Instruction) :=
  (callInstructions m).filter fun x => targets.isEmpty || isTarget targets x.2.callee

theorem standsFor_walk {xs : List (Function × Instruction)} (hx : List.Forall₂ Call.ReadOff xs cs)
    (hs : (walk m s cs).2 = .ok found) : List.Forall₂ StandsFor xs found := by
  have hplaces := walk_places hs
  clear hs
  induction hx generalizing found with
  | nil =>
    cases hplaces
    exact .nil
  | cons hread _ ih =>
    obtain _ | ⟨⟨v, rfl, hbare⟩, hrest⟩ := hplaces
    exact .cons ⟨hread.caller, hread.callee, hread.opcode, fun hx => hbare (hread.debug.trans hx)⟩
      (ih hrest)

theorem standsFor_chosen (hs : (sites m s).2 = .ok found) (targets : List String) :
    List.Forall₂ StandsFor (chosenInstructions targets m) (chosen targets found) := by
  have hall := standsFor_walk (calls_readOff m) hs
  unfold chosenInstructions chosen
  cases htargets : targets.isEmpty with
  | true => simpa using hall
  | false => exact rel_filter (fun x site hx => by simp [hx.callee]) hall

end CallAtlas.Scan
