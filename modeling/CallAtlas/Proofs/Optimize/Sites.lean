import CallAtlas.Proofs.Debug.Depth
import CallAtlas.Proofs.Optimize.Pipeline
import CallAtlas.Scan.CallSite

/-!
# Call sites behind a pipeline

A pipeline leaves the bodies of the functions that it keeps and all metadata, so the calls that are
left are those of the callers that are left, and a call keeps its place. What its location comes to
depends on the metadata alone, but for one thing: a location with a long chain of calls around it
can be resolved only with the help of others that were resolved before, and those may have been in a
function that is gone. `sites_survive` says that nothing else happens, and `longLine_lost` that this
does.
-/

namespace CallAtlas.Scan

open Ir Debug Optimize List

/-! ## Calls -/

variable {f f' : Function} {c : Call} {es es' : List (String × Function)}

theorem callsOf_congr (hn : f'.name = f.name) (hb : f'.blocks = f.blocks) :
    callsOf f' = callsOf f := by
  unfold callsOf
  rw [hn, hb]

theorem caller_of_mem_callsOf (hc : c ∈ callsOf f) : c.caller = f.name := by
  obtain ⟨p, -, hp⟩ := mem_filterMap.1 hc
  simp only [Option.ite_none_right_eq_some, Option.some.injEq] at hp
  rw [← hp.2]

/-- The calls of the functions in a list of entries. -/
def callsIn (es : List (String × Function)) : List Call :=
  es.flatMap fun e => if e.2.isDeclaration then [] else callsOf e.2

theorem calls_eq (m : IrModule) : calls m = callsIn m.functions.entries := by
  unfold calls callsIn Table.values
  induction m.functions.entries with
  | nil => rfl
  | cons e es ih =>
    rw [flatMap_cons, ← ih, map_cons, filter_cons]
    cases e.2.isDeclaration <;> rfl

theorem caller_of_mem_callsIn (hn : ∀ e ∈ es, e.2.name = e.1) (hc : c ∈ callsIn es) :
    c.caller ∈ es.map Prod.fst := by
  obtain ⟨e, he, hc⟩ := mem_flatMap.1 hc
  split_ifs at hc
  · cases hc
  · rw [caller_of_mem_callsOf hc, hn e he]
    exact mem_map_of_mem he

theorem callsIn_cons (e : String × Function) (es : List (String × Function)) :
    callsIn (e :: es) = callsIn [e] ++ callsIn es := by
  simp [callsIn]

theorem callsIn_singleton_congr {e' e : String × Function} (h : SameBody e' e) :
    callsIn [e'] = callsIn [e] := by
  simp only [callsIn, flatMap_singleton, h.isDeclaration, callsOf_congr h.name h.blocks]

theorem keys_sublist (h : List.SublistForall₂ SameBody es' es) :
    (es'.map Prod.fst).Sublist (es.map Prod.fst) := by
  induction h with
  | nil => exact nil_sublist _
  | cons hbody _ ih =>
    rw [map_cons, hbody.key]
    exact ih.cons_cons _
  | cons_right _ ih => exact ih.cons _

/-- The calls in some of the functions of a list are the calls of these callers. -/
theorem callsIn_trimmed (h : List.SublistForall₂ SameBody es' es) (hd : (es.map Prod.fst).Nodup)
    (hn : ∀ e ∈ es, e.2.name = e.1) :
    callsIn es' = (callsIn es).filter fun c => c.caller ∈ es'.map Prod.fst := by
  induction h with
  | nil => simp [callsIn]
  | @cons e' e l' l hbody hl ih =>
    obtain ⟨he, hd⟩ := nodup_cons.1 hd
    have hn' := fun x hx => hn x (mem_cons_of_mem _ hx)
    have hhead : (callsIn [e]).filter (fun c => c.caller ∈ (e' :: l').map Prod.fst) =
        callsIn [e'] := by
      rw [callsIn_singleton_congr hbody, filter_eq_self]
      intro c hc
      have hcaller :=
        caller_of_mem_callsIn (fun x hx => hn x (mem_singleton.1 hx ▸ mem_cons_self)) hc
      rw [map_singleton, mem_singleton, ← hbody.key] at hcaller
      simp [hcaller]
    have htail : (callsIn l).filter (fun c => c.caller ∈ (e' :: l').map Prod.fst) = callsIn l' := by
      rw [ih hd hn']
      refine filter_congr fun c hc => ?_
      have hne : c.caller ≠ e'.1 := fun h => he (hbody.key ▸ h ▸ caller_of_mem_callsIn hn' hc)
      simp [hne]
    rw [callsIn_cons e', callsIn_cons e, filter_append, hhead, htail]
  | @cons_right e l' l hl ih =>
    obtain ⟨he, hd⟩ := nodup_cons.1 hd
    have hhead : (callsIn [e]).filter (fun c => c.caller ∈ l'.map Prod.fst) = [] := by
      rw [filter_eq_nil_iff]
      intro c hc
      have hcaller :=
        caller_of_mem_callsIn (fun x hx => hn x (mem_singleton.1 hx ▸ mem_cons_self)) hc
      rw [map_singleton, mem_singleton] at hcaller
      rw [hcaller]
      exact fun h => he ((keys_sublist hl).subset (of_decide_eq_true h))
    rw [callsIn_cons, filter_append, hhead]
    exact ih hd fun x hx => hn x (mem_cons_of_mem _ hx)

theorem calls_trimmed {m m' : IrModule} (ht : Trims m m')
    (hn : ∀ e ∈ m.functions.entries, e.2.name = e.1) :
    calls m' = (calls m).filter fun c => c.caller ∈ m'.functions.keys := by
  rw [calls_eq, calls_eq, callsIn_trimmed ht.functions m.functions.distinct hn]
  rfl

/-! ## Walks -/

/-- The site of a call: its location is what its attachment resolves to. -/
def SiteOf (metadata : Table Nat MetadataNode) (c : Call) (site : CallSite) : Prop :=
  ∃ v, site = c.site v ∧ match c.debug with
    | none => v = none
    | some id => Right metadata id v

/-- A call whose location is too deep to be resolved without help. -/
def Call.Deep (metadata : Table Nat MetadataNode) (depth : Nat) (c : Call) : Prop :=
  ∃ id, c.debug = some id ∧ Debug.Deep metadata depth id

section walk

variable {m : IrModule} {s s' : Memory} {site : CallSite} {cs : List Call} {found : List CallSite}

theorem locations_report (s : Memory) (binary : String) (c : Call) :
    (s.report binary c).locations = s.locations ∧ (s.report binary c).depth = s.depth := by
  unfold Memory.report
  split <;> exact ⟨rfl, rfl⟩

theorem visit_bare (hd : c.debug = none) :
    visit m s c = (s.report m.identifier c, .ok (c.site none)) := by
  rw [visit, hd]

theorem visit_located {id : Nat} {memo : Memo} {v : Option Location} (hd : c.debug = some id)
    (hr : resolve m.metadata s.depth s.locations id = (memo, .ok v)) :
    ∃ s', visit m s c = (s', .ok (c.site v)) ∧ s'.locations = memo ∧ s'.depth = s.depth := by
  rw [visit, hd]
  dsimp only
  rw [hr]
  refine ⟨_, rfl, ?_⟩
  split
  · exact locations_report _ _ _
  · exact ⟨rfl, rfl⟩

theorem visit_error {id : Nat} {e : ResolveError} (hd : c.debug = some id)
    (hr : (resolve m.metadata s.depth s.locations id).2 = .error e) :
    (visit m s c).2 = .error e := by
  rw [visit, hd]
  dsimp only
  cases hc : resolve m.metadata s.depth s.locations id with
  | mk memo o =>
    rw [hc] at hr
    obtain rfl : o = .error e := hr
    rfl

/-- What a visit that does not fail finds and remembers. -/
theorem visit_inv (hv : visit m s c = (s', .ok site)) : ∃ v memo, site = c.site v ∧
    s' = (if v.isNone then Memory.report { s with locations := memo } m.identifier c
      else { s with locations := memo }) ∧
    ((c.debug = none ∧ v = none ∧ memo = s.locations) ∨
      ∃ id, c.debug = some id ∧ resolve m.metadata s.depth s.locations id = (memo, .ok v)) := by
  unfold visit at hv
  cases hd : c.debug with
  | none =>
    rw [hd] at hv
    cases hv
    exact ⟨none, s.locations, rfl, rfl, .inl ⟨rfl, rfl, rfl⟩⟩
  | some id =>
    rw [hd] at hv
    cases hr : resolve m.metadata s.depth s.locations id with
    | mk memo o =>
      simp only [hr] at hv
      cases o with
      | error e => cases hv
      | ok v =>
        cases hv
        exact ⟨v, memo, rfl, rfl, .inr ⟨id, rfl, hr⟩⟩

theorem visit_ok (htotal : ∀ id, ∃ h r, Resolves m.metadata h id r)
    (hm : Remembered m.metadata s.locations)
    (hv : visit m s c = (s', .ok site)) :
    SiteOf m.metadata c site ∧ Remembered m.metadata s'.locations ∧ s'.depth = s.depth := by
  obtain ⟨v, memo, rfl, rfl, hmemo⟩ := visit_inv hv
  have hlocations : ∀ t : Memory, (if v.isNone then t.report m.identifier c else t).locations =
      t.locations ∧ (if v.isNone then t.report m.identifier c else t).depth = t.depth := by
    intro t
    split_ifs
    · exact locations_report t m.identifier c
    · exact ⟨rfl, rfl⟩
  rw [(hlocations _).1, (hlocations _).2]
  rcases hmemo with ⟨hd, rfl, rfl⟩ | ⟨id, hd, hr⟩
  · exact ⟨⟨none, rfl, by rw [hd]⟩, hm, rfl⟩
  · obtain ⟨h, r, hres⟩ := htotal id
    obtain rfl := hm.resolve_ok htotal hres (by rw [hr])
    exact ⟨⟨v, rfl, by rw [hd]; exact ⟨h, hres⟩⟩, .call hm hr, rfl⟩

theorem visit_cases (htotal : ∀ id, ∃ h r, Resolves m.metadata h id r)
    (hm : Remembered m.metadata s.locations) (hs : SiteOf m.metadata c site) :
    (visit m s c).2 = .ok site ∨ (visit m s c).2 = .error .tooDeep ∧ c.Deep m.metadata s.depth := by
  obtain ⟨v, rfl, hv⟩ := hs
  cases hd : c.debug with
  | none =>
    rw [hd] at hv
    obtain rfl : v = none := hv
    exact .inl (by rw [visit_bare hd])
  | some id =>
    rw [hd] at hv
    obtain ⟨h, hr⟩ : Right m.metadata id v := hv
    cases hc : resolve m.metadata s.depth s.locations id with
    | mk memo o =>
      have hcases := hm.resolve_cases htotal hr s.depth
      rw [hc] at hcases
      rcases hcases with rfl | ⟨hdeep, rfl⟩
      · obtain ⟨s1, hv1, -, -⟩ := visit_located hd hc
        exact .inl (by rw [hv1])
      · exact .inr ⟨visit_error hd (by rw [hc]), id, hd, hr.deep hdeep⟩

theorem walk_cons_ok (hv : visit m s c = (s', .ok site)) :
    (walk m s (c :: cs)).2 = ((walk m s' cs).2).map (site :: ·) := by
  rw [walk, hv]
  dsimp only
  cases walk m s' cs with
  | mk s2 o => cases o <;> rfl

theorem walk_cons_error {e : ResolveError} (hv : (visit m s c).2 = .error e) :
    (walk m s (c :: cs)).2 = .error e := by
  rw [walk]
  cases hc : visit m s c with
  | mk s1 o =>
    rw [hc] at hv
    obtain rfl : o = .error e := hv
    rfl

theorem walk_cons_iff : walk m s (c :: cs) = (s', .ok found) ↔
    ∃ s1 site rest, visit m s c = (s1, .ok site) ∧ walk m s1 cs = (s', .ok rest) ∧
    found = site :: rest := by
  constructor
  · intro hw
    rw [walk] at hw
    cases hv : visit m s c with
    | mk s1 o =>
      rw [hv] at hw
      cases o with
      | error e => cases hw
      | ok site =>
        simp only at hw
        cases hrest : walk m s1 cs with
        | mk s2 o =>
          rw [hrest] at hw
          cases o with
          | error e => cases hw
          | ok rest =>
            cases hw
            exact ⟨s1, site, rest, rfl, hrest, rfl⟩
  · rintro ⟨s1, site, rest, hv, hrest, rfl⟩
    rw [walk, hv]
    simp only [hrest]

theorem walk_ok (htotal : ∀ id, ∃ h r, Resolves m.metadata h id r)
    (hm : Remembered m.metadata s.locations)
    (hw : (walk m s cs).2 = .ok found) : List.Forall₂ (SiteOf m.metadata) cs found := by
  induction cs generalizing s found with
  | nil =>
    cases hw
    exact .nil
  | cons c cs ih =>
    obtain ⟨s1, site, rest, hv, hrest, rfl⟩ := walk_cons_iff.1 (Prod.ext rfl hw)
    obtain ⟨hsite, hm1, -⟩ := visit_ok htotal hm hv
    exact .cons hsite (ih hm1 (by rw [hrest]))

theorem walk_cases (htotal : ∀ id, ∃ h r, Resolves m.metadata h id r)
    (hm : Remembered m.metadata s.locations) (hs : List.Forall₂ (SiteOf m.metadata) cs found) :
    (walk m s cs).2 = .ok found ∨ (walk m s cs).2 = .error .tooDeep ∧
    ∃ c ∈ cs, c.Deep m.metadata s.depth := by
  induction hs generalizing s with
  | nil => exact .inl rfl
  | @cons c site cs found hsite hrest ih =>
    cases hv : visit m s c with
    | mk s1 o =>
      have hcases := visit_cases htotal hm hsite
      rw [hv] at hcases
      rcases hcases with rfl | ⟨rfl, hdeep⟩
      · rw [walk_cons_ok hv]
        obtain ⟨-, hm1, hdepth⟩ := visit_ok htotal hm hv
        rcases ih hm1 with he | ⟨he, c', hc', hdeep⟩
        · exact .inl (by rw [he]; rfl)
        · exact .inr ⟨by rw [he]; rfl, c', .tail _ hc', hdepth ▸ hdeep⟩
      · exact .inr ⟨walk_cons_error (by rw [hv]), c, .head _, hdeep⟩

end walk

theorem SiteOf.caller {metadata : Table Nat MetadataNode} {site : CallSite}
    (h : SiteOf metadata c site) :
    site.caller = c.caller := by
  obtain ⟨v, rfl, -⟩ := h
  rfl

/-! ## Behind a pipeline -/

/-- The call sites behind a pipeline are those before it whose callers are left, in order and
unchanged, unless a location that is left is so deep that it was resolved with the help of one that
is gone. -/
theorem sites_survive (p : Pipeline) (h h' : Handle) (m : IrModule) (preserve : List String)
    (depth : Nat) (found : List CallSite)
    (hm : h.module = some m) (hn : ∀ e ∈ m.functions.entries, e.2.name = e.1)
    (ha : Acyclic m.metadata)
    (hrun : p.run h preserve = (h', .ok ())) (hs : (sites m { depth }).2 = .ok found) :
    ∃ m', h'.module = some m' ∧
      calls m' = (calls m).filter (fun c => c.caller ∈ m'.functions.keys) ∧
      ((sites m' { depth }).2 = .ok (found.filter fun s => s.caller ∈ m'.functions.keys) ∨
        (sites m' { depth }).2 = .error .tooDeep ∧ ∃ c ∈ calls m', c.Deep m.metadata depth) := by
  obtain ⟨m', hm', hpasses⟩ := p.run_ok hm hrun
  have ht := runPasses_trims hpasses
  have hcalls := calls_trimmed ht hn
  refine ⟨m', hm', hcalls, ?_⟩
  have hall := walk_ok ha.resolves .fresh hs
  have hleft : Forall₂ (SiteOf m.metadata) (calls m')
      (found.filter fun s => s.caller ∈ m'.functions.keys) := by
    rw [hcalls]
    exact rel_filter (fun c s hsite => by dsimp only; rw [hsite.caller]) hall
  rw [← ht.metadata] at ha hleft ⊢
  exact walk_cases ha.resolves .fresh hleft

/-- A program that calls at the node `j` and a function that nothing mentions and that calls at the
node `i`; of locations there is a line of `n`. -/
def lineProgram (n i j : Nat) : IrModule where
  functions := .ofList [
    ("dead", ⟨"dead", "define internal void @dead() \x7b",
      [⟨"entry", [⟨"  call void @main(), !dbg !" ++ String.ofList (Text.natDigits i)⟩], none⟩]⟩),
    ("main", ⟨"main", "define void @main() \x7b",
      [⟨"entry", [⟨"  call void @main(), !dbg !" ++ String.ofList (Text.natDigits j)⟩], none⟩]⟩)]
  metadata := locationLine n

theorem run_default {m : IrModule} (hw : m.WellNamed) (hv : Verified m) (preserve : List String) :
    (Pipeline.mk [.internalize, .globalDce]).run (.new m []) preserve =
      (Pipeline.freed (.new m []) (globalDce (internalize m preserve).1 preserve).1, .ok ()) := by
  have hleft : Verified (globalDce (internalize m preserve).1 preserve).1 :=
    verified_globalDce (wellNamed_internalize hw preserve) (verified_internalize hw hv)
  have hpasses : Pipeline.runPasses preserve (Pipeline.mk [.internalize, .globalDce]).closed m =
      ((globalDce (internalize m preserve).1 preserve).1, none) := by
    show Pipeline.runPasses preserve [.verify] (globalDce (internalize m preserve).1 preserve).1 = _
    rw [Pipeline.runPasses, run_verify_of_verified hleft]
    rfl
  rw [Pipeline.run_free _ rfl rfl, hpasses]

theorem sampleLine_survives :
    ∃ found m', (sites (lineProgram 3 4 5) {}).2 = .ok found ∧
      (Pipeline.mk [.internalize, .globalDce]).run (.new (lineProgram 3 4 5) []) ["main"] =
        (Pipeline.freed (.new (lineProgram 3 4 5) []) m', .ok ()) ∧
      (sites m' {}).2 = .ok (found.filter fun s => s.caller ∈ m'.functions.keys) := by
  have hn : ∀ e ∈ (lineProgram 3 4 5).functions.entries, e.2.name = e.1 := by decide +kernel
  have hrun := run_default (m := lineProgram 3 4 5) (by decide +kernel) (by decide +kernel) ["main"]
  obtain ⟨found, hs⟩ := exists_eq_ok (x := (sites (lineProgram 3 4 5) {}).2) (by decide +kernel)
  obtain ⟨m', hm', hcalls, hsites⟩ :=
    sites_survive _ _ _ (lineProgram 3 4 5) ["main"] 500 found rfl hn
      (descends_locationLine 3).acyclic hrun hs
  obtain rfl := Option.some.inj hm'
  refine ⟨found, _, hs, hrun, hsites.resolve_right ?_⟩
  rintro ⟨-, c, hc, id, hd, hdeep⟩
  rw [hcalls] at hc
  have hlow : ∀ c ∈ calls (lineProgram 3 4 5), c.debug.all (· < 500) = true := by decide +kernel
  have hid := hlow c (mem_filter.1 hc).1
  rw [hd] at hid
  exact (descends_locationLine 3).not_deep (of_decide_eq_true hid) hdeep

/-! ## Locations that are lost -/

theorem keys_globalDce (m : IrModule) (preserve : List String) :
    (globalDce m preserve).1.functions.keys =
      m.functions.keys.filter (liveSymbols m preserve).contains := by
  unfold Table.keys
  rw [filter_map]
  rfl

/-- Names that are closed under what is kept alive hold the live symbols. -/
theorem liveSymbols_subset {m : IrModule} {preserve keep : List String} {n : String}
    (hroots : ∀ n ∈ liveRoots m preserve, n ∈ keep)
    (hnext : ∀ n ∈ keep, ∀ k ∈ keepsAlive m n, k ∈ keep)
    (hn : n ∈ liveSymbols m preserve) : n ∈ keep := by
  have hreached := Graph.mem_reachable.1 hn
  clear hn
  induction hreached with
  | root hr _ => exact hroots _ hr
  | step _ hk _ ih => exact hnext _ ih _ hk

/-- Calls at the 300th and at the last of 600 locations. -/
def longLine : IrModule := lineProgram 600 302 602

def deadCall : Call := ⟨"dead", some "main", "call", "entry", 0, some 302⟩

def mainCall : Call := ⟨"main", some "main", "call", "entry", 0, some 602⟩

def shortLine : IrModule := (globalDce (internalize longLine ["main"]).1 ["main"]).1

theorem trims_longLine : Trims longLine shortLine :=
  (trims_internalize _ _).trans (trims_globalDce _ _)

theorem mem_keys_shortLine :
    "main" ∈ shortLine.functions.keys ∧ "dead" ∉ shortLine.functions.keys := by
  unfold shortLine
  rw [keys_globalDce, mem_filter, mem_filter, contains_iff_mem, contains_iff_mem]
  constructor
  · refine ⟨by decide +kernel, Graph.mem_reachable.2 (.root ?_ ?_)⟩
    · decide +kernel
    · decide +kernel
  · rintro ⟨-, hdead⟩
    have honly : "dead" ∈ ["main"] :=
      liveSymbols_subset (by decide +kernel) (by decide +kernel) hdead
    simp at honly

theorem calls_longLine : calls longLine = [deadCall, mainCall] := by decide +kernel

theorem calls_shortLine : calls shortLine = [mainCall] := by
  have hn : ∀ e ∈ longLine.functions.entries, e.2.name = e.1 := by decide +kernel
  rw [calls_trimmed trims_longLine hn, calls_longLine]
  simp [mem_keys_shortLine, deadCall, mainCall]

theorem resolve_locationLine {n i depth : Nat} (hi : i ≤ n) (hdeep : i < depth) :
    ∃ memo v, resolve (locationLine n) depth .empty (i + 2) = (memo, .ok v) := by
  obtain ⟨v, hr⟩ := resolves_locationLine hi
  have he := hr.resolve_fresh depth
  rw [if_pos hdeep] at he
  exact ⟨_, v, Prod.ext rfl he⟩

/-- Both calls of the longer program are found, as the second comes to the location of the first. -/
theorem sites_longLine : ∃ v w, (sites longLine {}).2 = .ok [deadCall.site v, mainCall.site w] := by
  obtain ⟨memo, v, hv⟩ : ∃ memo v, resolve (locationLine 600) 500 .empty 302 = (memo, .ok v) :=
    resolve_locationLine (by decide) (by decide)
  obtain ⟨w, hw⟩ : ∃ w, Resolves (locationLine 600) 600 602 (.ok w) := resolves_locationLine le_rfl
  have hnear : Within (locationLine 600) memo 300 602 :=
    within_locationLine (resolve_remembers hv) le_rfl
  have hmemo : Remembered (locationLine 600) memo := .call .fresh hv
  have hsecond : (resolve (locationLine 600) 500 memo 602).2 = .ok w :=
    hw.within hnear (by decide) fun hi =>
      .inl (hmemo.right (descends_locationLine 600).acyclic.resolves hi)
  obtain ⟨s1, hv1, rfl, hdepth⟩ : ∃ s, visit longLine {} deadCall = (s, .ok (deadCall.site v)) ∧
      s.locations = memo ∧ s.depth = 500 :=
    visit_located rfl hv
  obtain ⟨s2, hv2, -, -⟩ :=
    visit_located (m := longLine) (c := mainCall) rfl (Prod.ext rfl (hdepth ▸ hsecond))
  refine ⟨v, w, ?_⟩
  rw [sites, calls_longLine, walk_cons_ok hv1, walk_cons_ok hv2]
  rfl

theorem sites_shortLine : (sites shortLine {}).2 = .error .tooDeep := by
  obtain ⟨w, hw⟩ : ∃ w, Resolves (locationLine 600) 600 602 (.ok w) := resolves_locationLine le_rfl
  have hdeep : (resolve shortLine.metadata 500 .empty 602).2 = .error .tooDeep := by
    rw [trims_longLine.metadata, show longLine.metadata = locationLine 600 from rfl,
      hw.resolve_fresh 500, if_neg (by decide)]
  rw [sites, calls_shortLine]
  exact walk_cons_error (visit_error rfl hdeep)

/-- A call site that is left is not found behind a pipeline though it was found before. -/
theorem longLine_lost :
    Acyclic longLine.metadata ∧
      (∃ v w, (sites longLine {}).2 = .ok [deadCall.site v, mainCall.site w]) ∧
      (Pipeline.mk [.internalize, .globalDce]).run (.new longLine []) ["main"] =
        (Pipeline.freed (.new longLine []) shortLine, .ok ()) ∧
      mainCall.caller ∈ shortLine.functions.keys ∧ (sites shortLine {}).2 = .error .tooDeep :=
  ⟨(descends_locationLine 600).acyclic, sites_longLine,
    run_default (by decide +kernel) (by decide +kernel) ["main"],
    mem_keys_shortLine.1, sites_shortLine⟩

end CallAtlas.Scan
