import CallAtlas.Proofs.Loader.Order
import CallAtlas.Proofs.Outcome
import CallAtlas.Work.Run

/-!
# Roots do not influence each other

The roots of a run share a desk: the dependencies found so far and the buffers of the binaries met
so far. Both are remembered under the keys of binaries, and what is remembered is `Right`: it is
what would be found or extracted anew. A stage `Respects` that: on two desks that are right and
agree about the present root it comes to the same and leaves two such desks. So the outcome of a
root is that of a run for this root alone, `outcomes_alone`.
-/

namespace CallAtlas.Work

open Container Bitcode Loader

variable {f : Desk → Desk} {root : String}

variable {p : Plan} {d d' : Desk} {b : Binary} {α β : Type} {g : RootOutcome → RootOutcome}

/-! ## Desks -/

/-- The buffers of a binary, extracted anew. A binary without modules has none. -/
def extracted (p : Plan) (b : Binary) : Except Failure (List Buffer) :=
  match Embedded.extract p.host p.tools b with
  | .error (.fault f) =>
    match f.cause with
    | .noSection _ => .ok []
    | _ => .error (.fault f)
  | .error e => .error e
  | .ok sections => splitSections p sections

/-- What is remembered of normal binaries is what would be found or extracted anew. -/
structure Desk.Right (p : Plan) (d : Desk) : Prop where
  dependencies : p.search.Faithful p.search.Normal d.memory.dependencies
  buffers : ∀ {b bs}, p.search.Normal b → d.buffers.get? (keyOf b) = some bs →
    extracted p b = .ok bs

/-- Desks that are right and agree about the present root. -/
structure Alike (p : Plan) (d d' : Desk) : Prop where
  left : d.Right p
  right : d'.Right p
  outcome : d'.outcome = d.outcome
  root : Path.normalize d.outcome.root = d.outcome.root

/-- A change that leaves what is remembered and changes the outcome on its own. -/
structure Tame (f : Desk → Desk) (g : RootOutcome → RootOutcome) : Prop where
  dependencies : ∀ d, (f d).memory.dependencies = d.memory.dependencies
  buffers : ∀ d, (f d).buffers = d.buffers
  outcome : ∀ d, (f d).outcome = g d.outcome
  root : ∀ o, (g o).root = o.root

theorem Tame.right (hf : Tame f g) (h : d.Right p) : (f d).Right p := by
  refine ⟨?_, fun hb hget => h.buffers hb ?_⟩
  · rw [hf.dependencies]
    exact h.dependencies
  · rwa [hf.buffers] at hget

theorem Tame.alike (hf : Tame f g) (h : Alike p d d') : Alike p (f d) (f d') := by
  refine ⟨hf.right h.left, hf.right h.right, ?_, ?_⟩
  · rw [hf.outcome, hf.outcome, h.outcome]
  · rw [hf.outcome, hf.root, h.root]

/-! ## Stages -/

/-- A stage that comes to the same on desks that are alike and leaves them alike; what it returns
has a property. -/
def Respects (p : Plan) (Q : α → Prop) (x : Stage α) : Prop :=
  ∀ d d', Alike p d d' →
    (x.run d').1 = (x.run d).1 ∧ Alike p (x.run d).2 (x.run d').2 ∧ ∀ a, (x.run d).1 = .ok a → Q a

section stages

variable {Q : α → Prop} {Q' : β → Prop} {x : Stage α}

theorem respects_pure {a : α} (h : Q a) : Respects p Q (pure a) :=
  fun _ _ hd => ⟨rfl, hd, fun _ ha => Except.ok.inj ha ▸ h⟩

theorem respects_throw (e : Failure) : Respects p Q (throw e : Stage α) :=
  fun _ _ hd => ⟨rfl, hd, nofun⟩

theorem respects_lift {o : Except Failure α} (h : ∀ a, o = .ok a → Q a) :
    Respects p Q (liftM o : Stage α) :=
  fun _ _ hd => ⟨rfl, hd, h⟩

theorem respects_modify (hf : Tame f g) : Respects p (fun _ => True) (modify f : Stage Unit) :=
  fun _ _ hd => ⟨rfl, hf.alike hd, fun _ _ => trivial⟩

theorem respects_outcome (g : RootOutcome → RootOutcome) (hg : ∀ o, (g o).root = o.root) :
    Respects p (fun _ => True) (modify fun d => { d with outcome := g d.outcome } : Stage Unit) :=
  respects_modify ⟨fun _ => rfl, fun _ => rfl, fun _ => rfl, hg⟩

theorem run_get (f : Desk → Stage α) (d : Desk) : (get >>= f).run d = (f d).run d := rfl

/-- What goes on from a stage by what that came to. -/
theorem Respects.cases (hx : Respects p Q x) {k : Stage α → Stage β}
    (hk : ∀ d, (k x).run d = (k (liftM (x.run d).1)).run (x.run d).2)
    (hok : ∀ a, Q a → Respects p Q' (k (pure a)))
    (herror : ∀ e, Respects p Q' (k (throw e))) : Respects p Q' (k x) := by
  intro d d' hd
  obtain ⟨hsame, halike, hq⟩ := hx d d' hd
  rw [hk, hk, hsame]
  cases ho : (x.run d).1 with
  | error e => exact herror e _ _ halike
  | ok a => exact hok a (hq a ho) _ _ halike

theorem Respects.bind (hx : Respects p Q x) {f : α → Stage β}
    (hf : ∀ a, Q a → Respects p Q' (f a)) :
    Respects p Q' (x >>= f) :=
  hx.cases (k := (· >>= f)) (fun _ => rfl) hf respects_throw

theorem Respects.tryCatch (hx : Respects p Q x) {h : Failure → Stage α}
    (hh : ∀ e, Respects p Q (h e)) :
    Respects p Q (tryCatch x h) :=
  hx.cases (k := (MonadExcept.tryCatch · h)) (fun _ => rfl) (fun _ => respects_pure) hh

theorem Respects.mapM {f : β → Stage α} {l : List β}
    (hf : ∀ b ∈ l, Respects p (fun _ => True) (f b)) :
    Respects p (fun _ => True) (l.mapM f) := by
  induction l with
  | nil => exact respects_pure trivial
  | cons b l ih =>
    rw [List.forall_mem_cons] at hf
    rw [List.mapM_cons]
    exact hf.1.bind fun a _ => (ih hf.2).bind fun as _ => respects_pure trivial

end stages

/-! ## Phases -/

theorem tame_record (logs : Option LogStore) (phase : String) (g : Desk → Progress) :
    Tame (fun d => d.record logs phase (g d)) id :=
  ⟨fun _ => rfl, fun _ => rfl, fun _ => rfl, fun _ => rfl⟩

theorem tame_report (ds : List Diagnostic) : Tame (fun d => d.report ds) id :=
  ⟨fun _ => rfl, fun _ => rfl, fun _ => rfl, fun _ => rfl⟩

/-- What a failure in a phase does to the outcome. -/
def blamed (e : Failure) (o : RootOutcome) : RootOutcome :=
  match e with
  | .fault f => if stopsRoot f.cause then { o with error := some f.message } else o
  | _ => o

theorem tame_failPhase (p : Plan) (phase : String) (e : Failure) :
    Tame (failPhase p phase e) (blamed e) := by
  cases e with
  | fault f =>
    unfold failPhase blamed
    cases hr : stopsRoot f.cause <;> cases hs : f.cause.stopsRun <;> simp only [hr, hs]
    all_goals exact ⟨fun _ => rfl, fun _ => rfl, fun _ => rfl, fun _ => rfl⟩
  | _ => exact ⟨fun _ => rfl, fun _ => rfl, fun _ => rfl, fun _ => rfl⟩

theorem Respects.inPhase {Q : α → Prop} {work : Stage α} (hw : Respects p Q work) (phase : String)
    (detail : α → String) : Respects p Q (inPhase p phase work detail) := by
  refine (respects_modify (tame_record p.logs phase _)).bind fun _ _ => ?_
  refine (hw.tryCatch fun e => ?_).bind fun a ha => ?_
  · exact (respects_modify (tame_failPhase p phase e)).bind fun _ _ => respects_throw e
  · exact (respects_modify (tame_record p.logs phase _)).bind fun _ _ => respects_pure ha

/-! ## The phases of a root -/

section phases

variable {Q : α → Prop}

theorem respects_root {f : String → Stage α}
    (hf : ∀ root, Path.normalize root = root → Respects p Q (f root)) :
    Respects p Q (get >>= fun d => f d.outcome.root) := by
  intro d d' hd
  rw [run_get, run_get, hd.outcome]
  exact hf _ hd.root d d' hd

/-- Stores what the search for libraries remembers and goes on with what it found. -/
def goOn (f : Except Failure (List Binary) → Stage α)
    (found : Loader.Memory × Except Failure (List Binary)) : Stage α :=
  (modify fun d => { d with memory.dependencies := found.1 }) >>= fun _ => f found.2

theorem respects_resolve (hb : p.search.Normal b) {f : Except Failure (List Binary) → Stage α}
    (hf : Respects p Q (f (p.search.resolve {} b).2)) :
    Respects p Q (get >>= fun d => goOn f (p.search.resolve d.memory.dependencies b)) := by
  intro d d' hd
  obtain ⟨m, hm, hrel⟩ := hd.left.dependencies.resolve (Search.family_normal _) hb
  obtain ⟨m', hm', hrel'⟩ := hd.right.dependencies.resolve (Search.family_normal _) hb
  rw [run_get, run_get, hm, hm']
  exact hf _ _ ⟨⟨hrel, hd.left.buffers⟩, ⟨hrel', hd.right.buffers⟩, hd.outcome, hd.root⟩

def rootBinary (p : Plan) (root : String) : Except Failure Binary :=
  match Binary.ofPath p.host.files root with
  | .ok b => .ok b
  | .error (.file e) =>
    .error (.fault ⟨.noSection ("cannot read binary: " ++ e.message), some root, true⟩)
  | .error e => .error e

def nameBinaries (b : Binary) (found : Except Failure (List Binary)) : Stage (List Binary) := do
  let deps ← found
  modify fun d => { d with outcome.binaries := b.path :: deps.map Binary.path }
  pure (b :: deps)

def findFrom (p : Plan) (root : String) : Stage (List Binary) := do
  let b ← rootBinary p root
  let d ← get
  goOn (nameBinaries b) (p.search.resolve d.memory.dependencies b)

theorem findBinaries_eq (p : Plan) :
    findBinaries p = get >>= fun d => findFrom p d.outcome.root := by
  unfold findBinaries findFrom
  refine congrArg (get >>= ·) (funext fun d => ?_)
  unfold rootBinary
  dsimp only
  cases Binary.ofPath p.host.files d.outcome.root with
  | ok b => rfl
  | error e => cases e <;> rfl

theorem ofPath_of_rootBinary (h : rootBinary p root = .ok b) :
    Binary.ofPath p.host.files root = .ok b := by
  unfold rootBinary at h
  split at h <;> simp_all

theorem respects_findFrom (hfiles : p.search.files = p.host.files)
    (hroot : Path.normalize root = root) :
    Respects p (fun bs => ∀ b ∈ bs, p.search.Normal b) (findFrom p root) := by
  refine (respects_lift fun b hb => ?_).bind fun b hb => respects_resolve hb ?_
  · exact Search.normal_of_ofPath hroot (hfiles ▸ ofPath_of_rootBinary hb)
  · refine (respects_lift (Q := fun found => ∀ d ∈ found, p.search.Normal d)
      fun found hfound d hd => ?_).bind
      fun deps hdeps => ?_
    · exact Loader.Search.resolve_normal hfound hd
    · refine (respects_outcome (fun o => { o with binaries := b.path :: deps.map Binary.path })
        fun _ => rfl).bind fun _ _ => ?_
      exact respects_pure (List.forall_mem_cons.2 ⟨hb, hdeps⟩)

theorem respects_findBinaries (hfiles : p.search.files = p.host.files) :
    Respects p (fun bs => ∀ b ∈ bs, p.search.Normal b) (findBinaries p) := by
  rw [findBinaries_eq]
  exact respects_root fun root hroot => respects_findFrom hfiles hroot

theorem Desk.Right.remember (hd : d.Right p) (hb : p.search.Normal b) {bs : List Buffer}
    (he : extracted p b = .ok bs) :
    ({ d with buffers := d.buffers.insert (keyOf b) bs } : Desk).Right p := by
  refine ⟨hd.dependencies, fun {b' bs'} hb' hget => ?_⟩
  rw [Table.get?_insert] at hget
  split_ifs at hget with hk
  · rw [← (Search.family_normal p.search).unique hb hb' hk, he, Option.some.inj hget]
  · exact hd.buffers hb' hget

/-- The buffers of a binary are those that would be extracted anew, and are remembered then. -/
theorem run_buffersOf (hd : d.Right p) (hb : p.search.Normal b) :
    ∃ d1, (buffersOf p b).run d = (extracted p b, d1) ∧ d1.Right p ∧ d1.outcome = d.outcome := by
  have hkeep : ∀ {d : Desk} {bs : List Buffer}, d.Right p → extracted p b = .ok bs →
      ({ d with buffers := d.buffers.insert (keyOf b) bs } : Desk).Right p :=
        fun hd => hd.remember hb
  unfold extracted at hkeep
  unfold buffersOf extracted
  rw [run_get]
  cases hbs : d.buffers.get? (keyOf b) with
  | some bs =>
    have he := hd.buffers hb hbs
    unfold extracted at he
    rw [he]
    exact ⟨d, rfl, hd, rfl⟩
  | none =>
    cases he : Embedded.extract p.host p.tools b with
    | ok sections =>
      rw [he] at hkeep
      dsimp only
      cases hs : splitSections p sections with
      | error e => exact ⟨d, rfl, hd, rfl⟩
      | ok bs => exact ⟨_, rfl, hkeep hd hs, rfl⟩
    | error e =>
      rw [he] at hkeep
      cases e with
      | fault f =>
        cases hc : f.cause with
        | noSection message =>
          simp only [hc] at hkeep ⊢
          exact ⟨_, rfl, hkeep ((tame_report _).right hd) rfl, rfl⟩
        | _ =>
          simp only [hc]
          exact ⟨d, rfl, hd, rfl⟩
      | _ => exact ⟨d, rfl, hd, rfl⟩

theorem respects_buffersOf (hb : p.search.Normal b) :
    Respects p (fun _ => True) (buffersOf p b) := by
  intro d d' hd
  obtain ⟨d1, hrun, hright, hout⟩ := run_buffersOf hd.left hb
  obtain ⟨d₁', hrun', hright', hout'⟩ := run_buffersOf hd.right hb
  rw [hrun, hrun']
  exact ⟨rfl, ⟨hright, hright', by rw [hout, hout', hd.outcome], by rw [hout, hd.root]⟩,
    fun _ _ => trivial⟩

theorem respects_extractAll {bs : List Binary} (hbs : ∀ b ∈ bs, p.search.Normal b) :
    Respects p (fun _ => True) (extractAll p bs) := by
  refine (Respects.mapM fun b hb => respects_buffersOf (hbs b hb)).bind fun buffers _ => ?_
  exact (respects_outcome (fun o => { o with moduleCount := buffers.flatten.length }) fun _ =>
    rfl).bind
    fun _ _ => respects_pure trivial

/-- Notes which buffers were disassembled and goes on with what was linked. -/
def keepLinked (linked : Link.Linked) : Stage Handle := do
  modify fun d =>
    { d with memory.disassembled := d.memory.disassembled ++ linked.loaded.map Buffer.identifier }
  linked.handle

theorem respects_keepLinked (linked : Link.Linked) :
    Respects p (fun _ => True) (keepLinked linked) := by
  have htame : Tame (fun d => { d with
      memory.disassembled := d.memory.disassembled ++ linked.loaded.map Buffer.identifier }) id :=
    ⟨fun _ => rfl, fun _ => rfl, fun _ => rfl, fun _ => rfl⟩
  exact (respects_modify htame).bind fun _ _ => respects_lift fun _ _ => trivial

theorem respects_linkAll (backend : Link.Backend) (buffers : List Buffer) :
    Respects p (fun _ => True) (linkAll backend buffers) :=
  respects_root fun root _ => respects_keepLinked (Link.linkBuffers backend buffers root)

theorem respects_optimize (h : Handle) : Respects p (fun _ => True) (optimize p h) := by
  exact (respects_lift fun _ _ => trivial).bind fun _ _ => respects_pure trivial

theorem respects_scan (h : Handle) : Respects p (fun _ => True) (scan p h) := by
  refine (respects_modify (tame_report _)).bind fun _ _ => ?_
  refine (respects_lift fun _ _ => trivial).bind fun found _ => ?_
  let sites := if p.order.targets.isEmpty then found else Scan.filterSites p.order.targets found
  exact (respects_outcome (fun o => { o with callSites := sites.length }) fun _ => rfl).bind
    fun _ _ => respects_pure trivial

theorem respects_makeQueries (database : Compile.Database) (sites : List Scan.CallSite) :
    Respects p (fun _ => True) (makeQueries database sites) := by
  refine (respects_modify (tame_report _)).bind fun _ _ => ?_
  split
  · exact (respects_throw (Q := fun _ => False) _).bind fun _ h => h.elim
  · exact (respects_outcome
      (fun o => { o with queries := (Compile.Query.stream database true sites).queries })
      fun _ => rfl).bind fun _ _ => respects_pure trivial

/-- The phases of a root come to the same on desks that are alike. -/
theorem respects_processRoot (hfiles : p.search.files = p.host.files) (backend : Link.Backend)
    (database : Compile.Database) :
    Respects p (fun _ => True) (processRoot p backend database) := by
  refine ((respects_findBinaries hfiles).inPhase _ _).bind fun bs hbs => ?_
  refine ((respects_extractAll hbs).inPhase _ _).bind fun buffers _ => ?_
  refine ((respects_linkAll backend buffers).inPhase _ _).bind fun h _ => ?_
  refine ((respects_optimize h).inPhase _ _).bind fun h _ => ?_
  refine ((respects_scan h).inPhase _ _).bind fun sites _ => ?_
  refine ((respects_makeQueries database sites).inPhase _ _).bind fun _ _ => ?_
  exact respects_outcome (fun o => { o with completed := true }) fun _ => rfl

end phases

/-! ## Runs -/

section runs

variable {backend : Link.Backend} {database : Compile.Database} {root : String}
  {roots : List String}
  {outcomes : List RootOutcome}

def settle (o : Except Failure Unit) (outcome : RootOutcome) : Except Failure RootOutcome :=
  match o with
  | .ok () => .ok outcome
  | .error (.fault f) => if stopsRoot f.cause then .ok outcome else .error (.fault f)
  | .error e => .error e

theorem runRoot_eq (p : Plan) (backend : Link.Backend) (database : Compile.Database) (d : Desk)
    (root : String) :
    runRoot p backend database d root =
      (((processRoot p backend database).run { d with outcome := { root } }).2,
        settle ((processRoot p backend database).run { d with outcome := { root } }).1
          ((processRoot p backend database).run { d with outcome := { root } }).2.outcome) := by
  unfold runRoot
  generalize (processRoot p backend database).run { d with outcome := { root } } = r
  obtain ⟨o, d1⟩ := r
  cases o with
  | ok _ => rfl
  | error e => cases e <;> rfl

theorem runRoot_alike (hfiles : p.search.files = p.host.files) (hroot : Path.normalize root = root)
    (hd : d.Right p) (hd' : d'.Right p) :
    (runRoot p backend database d' root).2 = (runRoot p backend database d root).2 ∧
      (runRoot p backend database d root).1.Right p := by
  have hstart : Alike p { d with outcome := { root } } { d' with outcome := { root } } :=
    ⟨⟨hd.dependencies, hd.buffers⟩, ⟨hd'.dependencies, hd'.buffers⟩, rfl, hroot⟩
  have hwork := respects_processRoot hfiles backend database
  rw [runRoot_eq, runRoot_eq]
  generalize processRoot p backend database = work at hwork ⊢
  obtain ⟨hsame, halike, -⟩ := hwork _ _ hstart
  exact ⟨by rw [hsame, halike.outcome], halike.left⟩

-- A step of the run is looked at as a whole: to evaluate it would be to run all phases.
attribute [local irreducible] runRoot

theorem runRoots_cons (d : Desk) (root : String) (roots : List String) :
    runRoots p backend database d (root :: roots) =
      match runRoot p backend database d root with
      | (d, .ok outcome) =>
        match runRoots p backend database d roots with
        | (d, .ok outcomes) => (d, .ok (outcome :: outcomes))
        | (d, .error e) => (d, .error e)
      | (d, .error e) =>
        if stopsAtOnce e then (d, .error e)
        else (roots.foldl (fun d root => (runRoot p backend database d root).1) d, .error e) := by
  rfl

theorem outcomes_cons (d : Desk) (root : String) (roots : List String) :
    (runRoots p backend database d (root :: roots)).2 = (runRoot p backend database d root).2 >>=
      fun o =>
      (runRoots p backend database (runRoot p backend database d root).1 roots).2.map (o :: ·) := by
  rw [runRoots_cons]
  generalize runRoot p backend database d root = r
  obtain ⟨d1, res⟩ := r
  cases res with
  | error e =>
    dsimp only
    split <;> rfl
  | ok o =>
    dsimp only [bind, Except.bind]
    generalize runRoots p backend database d1 roots = r
    obtain ⟨d2, os⟩ := r
    cases os <;> rfl

theorem runRoots_alone (hfiles : p.search.files = p.host.files)
    (hroots : ∀ root ∈ roots, Path.normalize root = root)
    (hd : d.Right p) (h : (runRoots p backend database d roots).2 = .ok outcomes) :
    List.Forall₂ (fun root o => ∀ d : Desk, d.Right p →
      (runRoot p backend database d root).2 = .ok o) roots outcomes := by
  induction roots generalizing d outcomes with
  | nil =>
    obtain rfl := Except.ok.inj h
    exact .nil
  | cons root rest ih =>
    rw [List.forall_mem_cons] at hroots
    rw [outcomes_cons] at h
    obtain ⟨o, ho, h⟩ := bind_eq_ok h
    obtain ⟨os, hos, rfl⟩ := map_eq_ok h
    refine .cons (fun d' hd' => ?_) (ih hroots.2 (runRoot_alike hfiles hroots.1 hd hd).2 hos)
    rw [(runRoot_alike hfiles hroots.1 hd hd').1, ho]

end runs

/-! ## Plans for other roots -/

def Plan.withRoots (p : Plan) (roots : List String) : Plan := { p with order.roots := roots }

def Plan.database (p : Plan) : Except Failure Compile.Database :=
  Compile.Database.ofFiles p.host.files p.order.databases p.order.prefixes.entries

section plans

variable {host : Tool.Host} {order : Order} {needs : Option Needs}
  {disassembler : Option Link.Disassembler}
  {logs : Option LogStore} {backend : Link.Backend} {database : Compile.Database} {name : String}
  {memory : Memory}

theorem Plan.new_withRoots (h : Plan.new host order needs disassembler logs = .ok p)
    (roots : List String) :
    Plan.new host { order with roots } needs disassembler logs = .ok (p.withRoots roots) ∧
      p.order = order ∧ p.search.files = p.host.files := by
  have htools : ({ order with roots } : Order).toolchain host.env = order.toolchain host.env := rfl
  unfold new at h ⊢
  obtain ⟨tools, ht, h⟩ := bind_eq_ok h
  obtain ⟨validator, hv, h⟩ := bind_eq_ok h
  obtain ⟨pipeline, hl, h⟩ := bind_eq_ok h
  obtain rfl := Except.ok.inj h
  rw [htools, ht]
  dsimp only [bind, Except.bind]
  rw [hv, hl]
  exact ⟨rfl, rfl, rfl⟩

theorem findBinaries_withRoots (p : Plan) (roots : List String) :
    findBinaries (p.withRoots roots) = findBinaries p := by
  rfl

theorem buffersOf_withRoots (p : Plan) (roots : List String) :
    buffersOf (p.withRoots roots) = buffersOf p := by
  rfl

theorem processRoot_withRoots (p : Plan) (roots : List String) :
    processRoot (p.withRoots roots) = processRoot p := by
  unfold processRoot extractAll optimize scan
  simp only [findBinaries_withRoots, buffersOf_withRoots]
  rfl

theorem runRoot_withRoots (p : Plan) (roots : List String) :
    runRoot (p.withRoots roots) = runRoot p := by
  funext backend database d root
  rw [runRoot_eq, runRoot_eq, processRoot_withRoots]

def startDesk (name : String) (memory : Memory) (database : Compile.Database) : Desk where
  memory := { memory with diagnostics := memory.diagnostics ++ database.diagnostics }
  run := name
  outcome := { root := "" }

theorem right_startDesk (h : memory.dependencies = {}) (name : String)
    (database : Compile.Database) :
    (startDesk name memory database).Right p := by
  refine ⟨?_, fun _ hget => by cases hget⟩
  show p.search.Faithful _ memory.dependencies
  rw [h]
  exact p.search.faithful_fresh _

theorem Plan.run_outcomes (p : Plan) (name : String) (memory : Memory) :
    (p.run name memory).report.map Report.outcomes = p.database >>= fun database =>
  p.backend >>= fun backend =>
      (runRoots p backend database (startDesk name memory database) p.order.roots).2 := by
  unfold run Plan.database startDesk
  cases Compile.Database.ofFiles p.host.files p.order.databases p.order.prefixes.entries with
  | error e => rfl
  | ok database =>
    cases p.backend with
    | error e => rfl
    | ok backend =>
      dsimp only [bind, Except.bind]
      generalize runRoots p backend database _ p.order.roots = r
      obtain ⟨d, os⟩ := r
      cases os <;> rfl

theorem Plan.run_single {outcome : RootOutcome} (hd : p.database = .ok database)
    (hb : p.backend = .ok backend)
    (h : ∀ d : Desk, d.Right p → (runRoot p backend database d root).2 = .ok outcome)
    (name : String) (hfresh : memory.dependencies = {}) :
    ∃ single, ((p.withRoots [root]).run name memory).report = .ok single ∧
    single.outcomes = [outcome] := by
  have hroot := h (startDesk name memory database) (right_startDesk hfresh name database)
  rw [← runRoot_withRoots p [root]] at hroot
  refine map_eq_ok ((run_outcomes (p.withRoots [root]) name memory).trans ?_)
  rw [show (p.withRoots [root]).database = _ from hd, show (p.withRoots [root]).backend = _ from hb]
  dsimp only [bind, Except.bind]
  rw [show (p.withRoots [root]).order.roots = [root] from rfl, outcomes_cons, hroot]
  rfl

/-- Roots do not influence each other: a run of normal roots that returns has for each root, in
order, the outcome of every run for this root alone. -/
theorem outcomes_alone (host : Tool.Host) (order : Order) (needs : Option Needs)
    (disassembler : Option Link.Disassembler) (logs : Option LogStore) {p : Plan}
    (hp : Plan.new host order needs disassembler logs = .ok p)
    (hroots : ∀ root ∈ order.roots, Path.normalize root = root) (name : String) (memory : Memory)
    (hfresh : memory.dependencies = {}) {report : Report}
    (hrun : (p.run name memory).report = .ok report) :
    List.Forall₂ (fun root outcome =>
      ∃ q, Plan.new host { order with roots := [root] } needs disassembler logs = .ok q ∧
        ∀ name (memory : Memory), memory.dependencies = {} →
          ∃ single, (q.run name memory).report = .ok single ∧ single.outcomes = [outcome])
      order.roots report.outcomes := by
  obtain ⟨-, rfl, hfiles⟩ := Plan.new_withRoots hp []
  have hos := Plan.run_outcomes p name memory
  rw [hrun] at hos
  obtain ⟨database, hd, hos⟩ := bind_eq_ok hos.symm
  obtain ⟨backend, hb, hos⟩ := bind_eq_ok hos
  refine (runRoots_alone hfiles hroots (right_startDesk hfresh name database) hos).imp
    fun root outcome h => ?_
  refine ⟨p.withRoots [root], (Plan.new_withRoots hp [root]).1, fun name memory hfresh => ?_⟩
  exact Plan.run_single hd hb h name hfresh

/-- Two bare modules that need the same library, which holds none. -/
def sampleHost : Tool.Host where
  files :=
    { files := .ofList [(["work", "one"], ⟨magic ++ [33, 12, 0, 0, 1, 0, 0, 0, 0, 0, 0, 0], false⟩),
    (["work", "two"], ⟨magic ++ [33, 12, 0, 0, 1, 0, 0, 0, 0, 0, 0, 0], false⟩),
    (["work", "libz.so"], ⟨[], false⟩)] }

def sampleOrder : Order where
  roots := ["one", "gone", "two"]
  searchPaths := ["."]
  systemLibraries := some []
  passes := ["verify"]
  linker := "textual"

def sampleNeeds : Needs := .ofTables (.ofList [("one", ["libz.so"]), ("two", ["libz.so"])]) .empty

def sampleDisassembler : Link.Disassembler where
  disassemble _ := .ok "define i32 @main() \x7b\n  ret i32 0\n\x7d\n"

theorem sampleOrder_outcomes_alone :
    ∃ p report, Plan.new sampleHost sampleOrder (some sampleNeeds) (some sampleDisassembler) none =
      .ok p ∧ (∀ root ∈ sampleOrder.roots, Path.normalize root = root) ∧
      (p.run "run" { files := sampleHost.files }).report = .ok report ∧
      report.outcomes.map RootOutcome.completed = [true, false, true] ∧
      List.Forall₂ (fun root outcome =>
        ∃ q, Plan.new sampleHost { sampleOrder with roots := [root] } (some sampleNeeds)
          (some sampleDisassembler) none =
            .ok q ∧
          ∀ name (memory : Memory), memory.dependencies = {} →
            ∃ single, (q.run name memory).report = .ok single ∧ single.outcomes = [outcome])
        sampleOrder.roots report.outcomes := by
  have hdone : (Plan.new sampleHost sampleOrder (some sampleNeeds) (some sampleDisassembler)
      none).toOption.map (fun p =>
      (p.run "run" { files := sampleHost.files }).report.toOption.map fun r =>
        r.outcomes.map RootOutcome.completed) =
        some (some [true, false, true]) := by decide +kernel
  have hroots : ∀ root ∈ sampleOrder.roots, Path.normalize root = root := by decide +kernel
  cases hp : Plan.new sampleHost sampleOrder (some sampleNeeds) (some sampleDisassembler) none with
  | error e =>
    rw [hp] at hdone
    cases hdone
  | ok p =>
    rw [hp] at hdone
    cases hrun : (p.run "run" { files := sampleHost.files }).report with
    | error e =>
      simp [Except.toOption, hrun] at hdone
    | ok report =>
      simp only [Except.toOption, hrun, Option.map_some, Option.some.injEq] at hdone
      exact ⟨p, report, rfl, hroots, hrun, hdone, outcomes_alone _ _ _ _ _ hp hroots _ _ rfl hrun⟩

end plans

end CallAtlas.Work
