import CallAtlas.Proofs.Debug.Depth

/-!
# Resolving without a history

`Located` says what a number resolves to in terms of the nodes alone: the chain of scopes is the
list `scopes`, and the location that it was inlined at is that of the call. Where references are
written in ASCII digits the walk over the scopes, which stops at a scope that comes again, reads
that list, `Plain.position_eq`.

A resolution that is under way has placeholders in the memo. `Sure` says that of a number that
resolves only its answer is remembered. A call keeps that if it does not fail, `Sure.resolve`: the
placeholders of a number that resolves are replaced, and those of one that loops stand for numbers
that loop too. So `resolve_after`: the answer for a number whose chain does not loop is the same
after all calls. A call that fails leaves its placeholders, `locationLine_forgotten`.
-/

namespace CallAtlas.Debug

open Ir Text List

variable {e : ResolveError} {i j n : Nat} {passed : List MetadataNode} {s : MetadataNode}
  {metadata : Table Nat MetadataNode} {memo : Memo} {h depth id : Nat}
  {r : Except ResolveError (Option Location)} {file : Option (String × String)}

/-! ## Locations by the nodes alone -/

def refOf (n : MetadataNode) (key : String) : Option Nat := (n.fieldRef key).toOption.join

def target (metadata : Table Nat MetadataNode) (n : MetadataNode) (key : String) :
    Option MetadataNode :=
  (refOf n key).bind metadata.get?

def usableFile (metadata : Table Nat MetadataNode) (n : MetadataNode) : Option (String × String) :=
  (target metadata n "file").bind fileOf

/-- The first scopes from one outward; a function is the last, and so is a node that is no scope. -/
def scopes (metadata : Table Nat MetadataNode) : Nat → Option MetadataNode → List MetadataNode
  | 0, _ => []
  | _ + 1, none => []
  | count + 1, some s =>
    s :: if s.kind ≠ "DISubprogram" ∧
      s.kind ∈ scopeKinds then scopes metadata count (target metadata s "scope") else []

/-- The directory of the unit of the function among some scopes. -/
def unitOf (metadata : Table Nat MetadataNode) (chain : List MetadataNode) : Option String := do
  let function ← chain.find? (·.kind = "DISubprogram")
  let unit ← (target metadata function "unit").filter (·.kind = "DICompileUnit")
  (usableFile metadata unit).map Prod.snd

/-- The position of a location node: the file is that of the innermost scope with one. -/
def place (metadata : Table Nat MetadataNode) (n : MetadataNode) : Option Position :=
  let chain := scopes metadata maxScopes (target metadata n "scope")
  if n.kind = "DILocation" then
    (chain.findSome? (usableFile metadata)).map fun file =>
      ⟨⟨sourcePath file.2 file.1, (n.fieldInt "line").getD 0, (n.fieldInt "column").getD 0,
        (unitOf metadata chain).getD file.2, none⟩, refOf n "inlinedAt"⟩
  else none

/-- What a number resolves to. -/
inductive Located (metadata : Table Nat MetadataNode) : Nat → Option Location → Prop where
  | absent {id : Nat} : metadata.get? id = none → Located metadata id none
  | nowhere {id : Nat} {n : MetadataNode} : metadata.get? id = some n → place metadata n = none →
      Located metadata id none
  | plain {id : Nat} {n : MetadataNode} {loc : Location} : metadata.get? id = some n →
      place metadata n = some ⟨loc, none⟩ → Located metadata id (some loc)
  | inlined {id call : Nat} {n : MetadataNode} {loc : Location} {inlinedAt : Option Location} :
      metadata.get? id = some n → place metadata n = some ⟨loc, some call⟩ →
      Located metadata call inlinedAt → Located metadata id (some { loc with inlinedAt })

/-- The location of `id` is somewhere and was inlined at that of `call`. -/
def Leads (metadata : Table Nat MetadataNode) (id call : Nat) : Prop :=
  ((metadata.get? id).bind (place metadata)).bind Position.inlinedRef = some call

instance (metadata : Table Nat MetadataNode) (id call : Nat) : Decidable (Leads metadata id call) :=
  inferInstanceAs (Decidable (_ = _))

/-- As many different locations as a resolution may follow were inlined, each at the one behind
it. -/
def TooLong (R : Nat → Nat → Prop) (depth id : Nat) : Prop :=
  ∃ chain last, (id :: chain ++ [last]).IsChain R ∧ (id :: chain).Nodup ∧ chain.length + 1 = depth

/-- A value that, if it refers to a number, has it in ASCII digits. -/
def asciiRef : List Char → Bool
  | '!' :: r => !isNumberName r || r.all isAsciiDigit
  | _ => true

/-- Nodes under their own numbers that refer to others in ASCII digits. -/
@[mk_iff] structure Plain (metadata : Table Nat MetadataNode) : Prop where
  id : ∀ e ∈ metadata.entries, e.2.id = e.1
  ascii : ∀ e ∈ metadata.entries, ∀ f ∈ e.2.fields.entries, asciiRef f.2.toList

instance (metadata : Table Nat MetadataNode) : Decidable (Plain metadata) :=
  decidable_of_iff' _ (plain_iff ..)

/-! ## The walk over the scopes -/

theorem refValue_ascii {v : List Char} (h : asciiRef v) : ∃ i, refValue v = .ok i := by
  by_cases hv : ∃ r, v = '!' :: r ∧ isNumberName r
  · obtain ⟨r, rfl, hr⟩ := hv
    have hds : ∀ c ∈ r, isAsciiDigit c := by simpa [asciiRef, hr] using h
    have hne : r ≠ [] := by
      rintro rfl
      cases hr
    exact ⟨_, refValue_number hne fun c hc => isDecimal_of_isAsciiDigit (hds c hc)⟩
  · refine ⟨none, refValue_other fun r hr => ?_⟩
    by_contra hn
    exact hv ⟨r, hr, Bool.of_not_eq_false hn⟩

theorem unitOf_cons (s : MetadataNode) (chain : List MetadataNode) : unitOf metadata (s :: chain) =
    if s.kind = "DISubprogram" then unitOf metadata [s] else unitOf metadata chain := by
  by_cases hk : s.kind = "DISubprogram"
  · rw [if_pos hk, unitOf, unitOf, find?_cons_of_pos (by simpa using hk),
      find?_cons_of_pos (by simpa using hk)]
  · rw [if_neg hk, unitOf, unitOf, find?_cons_of_neg (by simpa using hk)]

theorem unitOf_eq_none {chain : List MetadataNode} (h : ∀ s ∈ chain, s.kind ≠ "DISubprogram") :
    unitOf metadata chain = none := by
  have hfind : chain.find? (fun s => decide (s.kind = "DISubprogram")) = none :=
    find?_eq_none.2 fun s hs => by simpa using h s hs
  rw [unitOf, hfind]
  rfl

/-- What a walk over scopes knows of those that it went through when it comes to `scope`. -/
structure Passed (metadata : Table Nat MetadataNode) (passed : List MetadataNode)
    (file : Option (String × String)) (scope : Option MetadataNode) : Prop where
  node : ∀ s ∈ passed, metadata.get? s.id = some s
  kind : ∀ s ∈ passed, s.kind ≠ "DISubprogram"
  file : file = none → ∀ s ∈ passed, usableFile metadata s = none
  next : ∀ s ∈ passed, ∀ t ∈ target metadata s "scope", t ∈ passed ∨ scope = some t

theorem Passed.step
    (hv : Passed metadata passed file (some s)) (hs : metadata.get? s.id = some s)
    (hk : s.kind ≠ "DISubprogram") :
    Passed metadata (s :: passed) (file.or (usableFile metadata s))
      (target metadata s "scope") where
  node := forall_mem_cons.2 ⟨hs, hv.node⟩
  kind := forall_mem_cons.2 ⟨hk, hv.kind⟩
  file hf := by
    obtain ⟨hf, hu⟩ := Option.or_eq_none_iff.1 hf
    exact forall_mem_cons.2 ⟨hu, hv.file hf⟩
  next := by
    refine forall_mem_cons.2 ⟨fun t ht => .inr ht, fun u hu t ht => .inl ?_⟩
    rcases hv.next u hu t ht with ht | ht
    · exact .tail _ ht
    · cases ht
      exact .head _

/-- A chain that comes back to a scope goes through the same scopes again. -/
theorem Passed.scopes_subset (hv : Passed metadata passed file (some s)) (hs : s ∈ passed)
    (count : Nat) :
    scopes metadata count (some s) ⊆ passed := by
  have hsub : ∀ count (scope : Option MetadataNode), (∀ t ∈ scope, t ∈ passed) →
      scopes metadata count scope ⊆ passed := by
    intro count
    induction count with
    | zero => exact fun _ _ => nil_subset _
    | succ count ih =>
      intro scope hscope
      cases scope with
      | none => exact nil_subset _
      | some t =>
        have ht := hscope t rfl
        refine cons_subset.2 ⟨ht, ?_⟩
        split_ifs
        · refine ih _ fun u hu => ?_
          rcases hv.next t ht u hu with hu | hu
          · exact hu
          · cases hu
            exact hs
        · exact nil_subset _
  refine hsub count (some s) fun t ht => ?_
  cases ht
  exact hs

section plain

variable (hp : Plain metadata) {n : MetadataNode}

include hp

theorem Plain.fieldRef (hn : metadata.get? i = some n) (key : String) :
    n.fieldRef key = .ok (refOf n key) := by
  have href : ∃ j, n.fieldRef key = .ok j := by
    rw [fieldRef_eq]
    cases hv : n.fields.get? key with
    | none => exact ⟨none, rfl⟩
    | some v =>
      exact refValue_ascii (hp.ascii _ (Table.get?_eq_some.1 hn) _ (Table.get?_eq_some.1 hv))
  obtain ⟨j, hj⟩ := href
  rw [refOf, hj]
  rfl

theorem Plain.nodeOf (hn : metadata.get? i = some n) (key : String) :
    nodeOf metadata n key = .ok (target metadata n key) := by
  rw [Debug.nodeOf, hp.fieldRef hn key]
  rfl

theorem Plain.get?_target {m : MetadataNode} {key : String} (ht : target metadata n key = some m) :
    metadata.get? m.id = some m := by
  obtain ⟨j, -, hj⟩ := Option.bind_eq_some_iff.1 ht
  rwa [hp.id _ (Table.get?_eq_some.1 hj)]

theorem Plain.unitDirectory (hs : metadata.get? s.id = some s) (hk : s.kind = "DISubprogram") :
    unitDirectory metadata s = .ok (unitOf metadata [s]) := by
  rw [Debug.unitDirectory, hp.nodeOf hs "unit"]
  simp only [unitOf, find?_cons, hk, decide_true, bind, Except.bind, Option.bind]
  cases hu : target metadata s "unit" with
  | none => rfl
  | some u =>
    by_cases hk : u.kind = "DICompileUnit"
    · simp only [hk, Option.filter_some, hp.nodeOf (hp.get?_target hu) "file"]
      rfl
    · simp only [hk, if_false, Option.filter_some]
      rfl

theorem Plain.walkScopes_eq (fuel : Nat)
    {scope : Option MetadataNode} (hscope : ∀ s ∈ scope, metadata.get? s.id = some s)
    (hv : Passed metadata passed file scope) :
    walkScopes metadata fuel (passed.map (·.id)) file scope =
      .ok (file.or ((scopes metadata fuel scope).findSome? (usableFile metadata)),
        unitOf metadata (scopes metadata fuel scope)) := by
  induction fuel generalizing passed file scope with
  | zero => simp [walkScopes, scopes, unitOf_eq_none]
  | succ fuel ih =>
    cases scope with
    | none => simp [walkScopes, scopes, unitOf_eq_none]
    | some s =>
      have hs := hscope s rfl
      have hmem : (passed.map (·.id)).contains s.id ↔ s ∈ passed := by
        rw [contains_iff_mem]
        refine ⟨fun h => ?_, mem_map_of_mem⟩
        obtain ⟨t, ht, hid⟩ := mem_map.1 h
        have hnode := hv.node t ht
        rw [hid, hs] at hnode
        exact Option.some.inj hnode ▸ ht
      by_cases hseen : s ∈ passed
      · have hsub := hv.scopes_subset hseen (fuel + 1)
        rw [walkScopes, if_pos (hmem.2 hseen), unitOf_eq_none fun t ht => hv.kind t (hsub ht)]
        cases file with
        | some f => rfl
        | none => rw [Option.none_or, findSome?_eq_none_iff.2 fun t ht => hv.file rfl t (hsub ht)]
      · have hon : walkScopes metadata (fuel + 1) (passed.map (·.id)) file (some s) =
            walkOn metadata fuel (passed.map (·.id)) s (file.or (usableFile metadata s)) := by
          rw [walkScopes_succ fuel fun h => hseen (hmem.1 h)]
          cases file with
          | some f => rfl
          | none =>
            rw [hp.nodeOf hs "file"]
            rfl
        rw [hon, walkOn, scopes, findSome?_cons, unitOf_cons]
        by_cases hk : s.kind = "DISubprogram"
        · rw [if_pos hk, if_pos hk, if_neg (by simp [hk]), hp.unitDirectory hs hk]
          cases usableFile metadata s <;> rfl
        · rw [if_neg hk, if_neg hk]
          by_cases hk' : s.kind ∈ scopeKinds
          · rw [if_pos (contains_iff_mem.2 hk'), if_pos ⟨hk, hk'⟩, hp.nodeOf hs "scope"]
            have hnext := ih (fun t ht => hp.get?_target ht) (hv.step hs hk)
            rw [Option.or_assoc] at hnext
            refine Eq.trans hnext ?_
            cases usableFile metadata s <;> rfl
          · rw [if_neg fun h => hk' (contains_iff_mem.1 h), if_neg fun h => hk' h.2]
            cases usableFile metadata s <;> rfl

theorem Plain.position_eq (hn : metadata.get? i = some n) :
    position metadata n = .ok (place metadata n) := by
  rw [position, place]
  by_cases hk : n.kind = "DILocation"
  · have hpassed : Passed metadata [] none (target metadata n "scope") := by
      constructor <;> simp
    have hwalk := hp.walkScopes_eq maxScopes (fun t ht => hp.get?_target ht) hpassed
    rw [if_neg (not_not.2 hk), if_pos hk, hp.nodeOf hn "scope", hp.fieldRef hn "inlinedAt"]
    show (walkScopes metadata maxScopes [] none (target metadata n "scope") >>= _) = _
    rw [show walkScopes metadata maxScopes [] none (target metadata n "scope") = _ from hwalk]
    cases (scopes metadata maxScopes (target metadata n "scope")).findSome?
      (usableFile metadata) <;> rfl
  · rw [if_pos hk, if_neg hk]
    rfl

theorem Plain.follows_eq : Follows metadata = Leads metadata := by
  funext i j
  refine propext ⟨?_, ?_⟩
  · rintro ⟨n, loc, hn, hpos⟩
    rw [hp.position_eq hn] at hpos
    rw [Leads, hn, Option.bind_some, Except.ok.inj hpos]
    rfl
  · intro hl
    obtain ⟨⟨loc, call⟩, hpos, hcall⟩ := Option.bind_eq_some_iff.1 hl
    obtain ⟨n, hn, hpos⟩ := Option.bind_eq_some_iff.1 hpos
    obtain rfl : call = some j := hcall
    exact ⟨n, loc, hn, by rw [hp.position_eq hn, hpos]⟩

theorem Plain.located (hr : Resolves metadata h id r) : ∃ v, r = .ok v ∧ Located metadata id v := by
  induction hr with
  | absent hn => exact ⟨_, rfl, .absent hn⟩
  | failed hn hpos =>
    rw [hp.position_eq hn] at hpos
    cases hpos
  | nowhere hn hpos =>
    rw [hp.position_eq hn] at hpos
    exact ⟨_, rfl, .nowhere hn (Except.ok.inj hpos)⟩
  | plain hn hpos =>
    rw [hp.position_eq hn] at hpos
    exact ⟨_, rfl, .plain hn (Except.ok.inj hpos)⟩
  | inlined hn hpos _ ih =>
    obtain ⟨v, rfl, hv⟩ := ih
    rw [hp.position_eq hn] at hpos
    exact ⟨_, rfl, .inlined hn (Except.ok.inj hpos) hv⟩

theorem Plain.right {v : Option Location} (hv : Located metadata id v) : Right metadata id v := by
  induction hv with
  | absent hn => exact ⟨_, .absent hn⟩
  | nowhere hn hpos => exact ⟨_, .nowhere hn (by rw [hp.position_eq hn, hpos])⟩
  | plain hn hpos => exact ⟨_, .plain hn (by rw [hp.position_eq hn, hpos])⟩
  | inlined hn hpos _ ih =>
    obtain ⟨h, hr⟩ := ih
    exact ⟨_, .inlined hn (by rw [hp.position_eq hn, hpos]) hr⟩

end plain

/-! ## Chains that loop -/

theorem Resolves.lower (hr : Resolves metadata h id r) (hf : Follows metadata id j) :
    ∃ h' r', h' < h ∧ Resolves metadata h' j r' := by
  obtain ⟨n, loc, hn, hp⟩ := hf
  obtain ⟨h', r', rfl, -, hr'⟩ := hr.call hn hp
  exact ⟨h', r', Nat.lt_succ_self h', hr'⟩

theorem Resolves.reaches (hr : Resolves metadata h id r)
    (hj : Relation.ReflTransGen (Follows metadata) id j) :
    ∃ h' r', h' ≤ h ∧ Resolves metadata h' j r' := by
  induction hj with
  | refl => exact ⟨h, r, le_rfl, hr⟩
  | tail _ hf ih =>
    obtain ⟨h', r', hle, hr'⟩ := ih
    obtain ⟨h'', r'', hlt, hr''⟩ := hr'.lower hf
    exact ⟨h'', r'', hlt.le.trans hle, hr''⟩

theorem Resolves.not_loops (hr : Resolves metadata h id r) : ¬ Loops (Follows metadata) id := by
  rintro ⟨j, hj, hloop⟩
  obtain ⟨k, hf, hk⟩ := Relation.TransGen.head'_iff.1 hloop
  obtain ⟨h₁, r₁, -, hr₁⟩ := hr.reaches hj
  obtain ⟨h₂, r₂, hlt, hr₂⟩ := hr₁.lower hf
  obtain ⟨h₃, r₃, hle, hr₃⟩ := hr₂.reaches hk
  exact absurd (hr₁.unique hr₃).1 (hle.trans_lt hlt).ne'

/-! ## What a call remembers -/

theorem resolve_loops (hu : ∀ h, Above metadata h id) {v : Option Location}
    (hi : (resolve metadata depth memo id).1.get? i = some v) :
    memo.get? i = some v ∨ ∀ h, Above metadata h i := by
  induction depth generalizing memo id v with
  | zero => exact .inl hi
  | succ depth ih =>
    have hc := resolve_call metadata depth memo id
    generalize resolve metadata (depth + 1) memo id = out at hc hi
    have hcall : ∀ {call memo' o}, Follows metadata id call →
        resolve metadata depth (memo.insert id none) call = (memo', o) →
        ∀ {v}, memo'.get? i = some v → memo.get? i = some v ∨ ∀ h, Above metadata h i := by
      intro call memo' o hf hc v hi
      have hcall : ∀ h, Above metadata h call := by
        obtain ⟨n, loc, hn, hp⟩ := hf
        exact fun h h' r hr => absurd (hu _ (.inlined hn hp hr)) (lt_irrefl _)
      rcases ih hcall (by rwa [hc]) with hi | hi
      · rcases get?_insert_cases hi with ⟨rfl, -⟩ | ⟨-, hi⟩
        · exact .inr hu
        · exact .inl hi
      · exact .inr hi
    cases hc with
    | remembered => exact .inl hi
    | atOnce _ hr => exact absurd (hu 0 hr) (lt_irrefl 0)
    | failed _ hf hc => exact hcall hf hc hi
    | inlined _ hf hc =>
      rcases get?_insert_cases hi with ⟨rfl, -⟩ | ⟨-, hi⟩
      · exact .inr hu
      · exact hcall hf hc hi

section failure

variable (hp : ∀ {i n}, metadata.get? i = some n → ∃ p, position metadata n = .ok p) {memo' : Memo}
  (he : resolve metadata (depth + 1) memo id = (memo', .error e))

include hp he

theorem resolve_error : ∃ call, memo.get? id = none ∧ Follows metadata id call ∧
    resolve metadata depth (memo.insert id none) call = (memo', .error e) := by
  have hc := resolve_call metadata depth memo id
  rw [he] at hc
  cases hc with
  | atOnce hv hr =>
    cases hr with
    | failed hn hpos =>
      obtain ⟨p, hok⟩ := hp hn
      exact nomatch hpos.symm.trans hok
  | failed hv hf hc => exact ⟨_, hv, hf, hc⟩

theorem resolve_fails :
    e = .tooDeep ∧ ∃ chain last, (id :: chain ++ [last]).IsChain (Follows metadata) ∧
      (id :: chain).Nodup ∧
      chain.length = depth ∧ ∀ i ∈ id :: chain, memo.get? i = none ∧ memo'.get? i = some none := by
  induction depth generalizing memo id with
  | zero =>
    obtain ⟨call, hv, hf, hc⟩ := resolve_error hp he
    cases hc
    exact ⟨rfl, [], call, .cons_cons hf (.singleton _), nodup_singleton id, rfl, by simp [hv]⟩
  | succ depth ih =>
    obtain ⟨call, hv, hf, hc⟩ := resolve_error hp he
    obtain ⟨rfl, chain, last, hchain, hnodup, hl, hall⟩ := ih hc
    have hself : memo'.get? id = some none := by
      have hkept : (resolve metadata (depth + 1) (memo.insert id none) call).1.get? id =
          some none :=
        resolve_keeps (by simp)
      rwa [hc] at hkept
    have hother : ∀ i ∈ call :: chain, id ≠ i ∧ memo.get? i = none ∧ memo'.get? i = some none := by
      intro i hi
      obtain ⟨hnone, hsome⟩ := hall i hi
      rw [Table.get?_insert] at hnone
      split_ifs at hnone with hne
      exact ⟨hne, hnone, hsome⟩
    refine ⟨rfl, call :: chain, last, .cons_cons hf hchain, ?_, congrArg (· + 1) hl, ?_⟩
    · exact nodup_cons.2 ⟨fun hm => (hother id hm).1 rfl, hnodup⟩
    · exact forall_mem_cons.2 ⟨⟨hv, hself⟩, fun i hi => (hother i hi).2⟩

end failure

/-- Of numbers that resolve only what they resolve to is remembered. -/
def Sure (metadata : Table Nat MetadataNode) (memo : Memo) : Prop :=
  ∀ i v, memo.get? i = some v → Right metadata i v ∨ ∀ h, Above metadata h i

section sure

variable (hp : Plain metadata) (hd : 0 < depth)

include hp hd

theorem Plain.fails (he : (resolve metadata depth memo id).2 = .error e) :
    e = .tooDeep ∧ ∃ chain last, (id :: chain ++ [last]).IsChain (Leads metadata) ∧
      (id :: chain).Nodup ∧
      chain.length + 1 = depth ∧ ∀ i ∈ id :: chain,
      (resolve metadata depth memo id).1.get? i = some none := by
  have hpos : ∀ {i n}, metadata.get? i = some n → ∃ p, position metadata n = .ok p :=
    fun hn => ⟨_, hp.position_eq hn⟩
  obtain ⟨depth, rfl⟩ := Nat.exists_eq_add_one_of_ne_zero hd.ne'
  obtain ⟨rfl, chain, last, hchain, hnodup, hl, hall⟩ := resolve_fails hpos (Prod.ext rfl he)
  rw [hp.follows_eq] at hchain
  exact ⟨rfl, chain, last, hchain, hnodup, congrArg (· + 1) hl, fun i hi => (hall i hi).2⟩

theorem Plain.tooLong (he : (resolve metadata depth memo id).2 = .error e) :
    e = .tooDeep ∧ TooLong (Leads metadata) depth id := by
  obtain ⟨rfl, chain, last, hchain, hnodup, hl, -⟩ := hp.fails hd he
  exact ⟨rfl, chain, last, hchain, hnodup, hl⟩

/-- A number that resolves has a chain that is not too long, or fails. -/
theorem Plain.resolve_sure (hs : Sure metadata memo) (hl : ¬ TooLong (Leads metadata) depth id)
    (hr : Resolves metadata h id r) :
    (resolve metadata depth memo id).2 = r ∧ Sure metadata (resolve metadata depth memo id).1 := by
  obtain ⟨v, rfl, -⟩ := hp.located hr
  have hg := hr.gives (fun hi => (hs _ _ hi).imp_right fun ha => ha h) depth
  have hout : (resolve metadata depth memo id).2 = .ok v := by
    rcases hg.outcome with he | ⟨-, he⟩
    · exact he
    · exact absurd (hp.tooLong hd he).2 hl
  exact ⟨hout, fun i v hi => (hg.memo hout hi).elim (hs i v) .inl⟩

theorem Sure.resolve (hs : Sure metadata memo)
    (hid : Loops (Leads metadata) id ∨ ¬ TooLong (Leads metadata) depth id) :
    Sure metadata (resolve metadata depth memo id).1 := by
  by_cases hres : ∃ h r, Resolves metadata h id r
  · obtain ⟨h, r, hr⟩ := hres
    have hl := hr.not_loops
    rw [hp.follows_eq] at hl
    exact (hp.resolve_sure hd hs (hid.resolve_left hl) hr).2
  · intro i v hi
    have hu : ∀ h, Above metadata h id := fun _ h r hr => absurd ⟨h, r, hr⟩ hres
    exact (resolve_loops hu hi).elim (hs i v) .inr

end sure

def after (metadata : Table Nat MetadataNode) (depth : Nat) (before : List Nat) : Memo :=
  before.foldl (fun memo id => (resolve metadata depth memo id).1) .empty

/-- The answer for a number whose chain of inlined locations does not loop is the same after all
calls that do not fail, and a call fails only if the chain is too long. -/
theorem resolve_after (hp : Plain metadata) (hd : 0 < depth) (before : List Nat)
    (hb : ∀ i ∈ before, Loops (Leads metadata) i ∨ ¬ TooLong (Leads metadata) depth i) (id : Nat) :
    (¬ Loops (Leads metadata) id → ¬ TooLong (Leads metadata) depth id →
      ∃ v, (resolve metadata depth (after metadata depth before) id).2 = .ok v ∧
      ∀ w, Located metadata id w ↔ w = v) ∧
    ∀ e, (resolve metadata depth (after metadata depth before) id).2 = .error e → e = .tooDeep ∧
    TooLong (Leads metadata) depth id := by
  refine ⟨fun hl hlong => ?_, fun e he => hp.tooLong hd he⟩
  have hsure : Sure metadata (after metadata depth before) :=
    foldlRecOn before _ (fun _ _ hi => by cases hi) fun _ hs i hi => hs.resolve hp hd (hb i hi)
  rw [← hp.follows_eq] at hl
  obtain ⟨h, r, hr⟩ := resolves_of_not_loops hl
  obtain ⟨v, rfl, hv⟩ := hp.located hr
  refine ⟨v, (hp.resolve_sure hd hsure hlong hr).1, fun w => ⟨fun hw => ?_, fun hw => hw ▸ hv⟩⟩
  obtain ⟨h', hr'⟩ := hp.right hw
  exact Except.ok.inj (hr'.unique hr).2

theorem TooLong.le_size (h : TooLong (Leads metadata) depth id) :
    depth ≤ metadata.entries.length := by
  obtain ⟨chain, last, hchain, hnodup, hl⟩ := h
  have hkey : ∀ (l : List Nat), (l ++ [last]).IsChain (Leads metadata) → l ⊆ metadata.keys := by
    intro l
    induction l with
    | nil => exact fun _ => nil_subset _
    | cons i l ih =>
      intro hc
      have hnode : ∀ j, Leads metadata i j → i ∈ metadata.keys := by
        intro j hj
        obtain ⟨p, hp, -⟩ := Option.bind_eq_some_iff.1 hj
        obtain ⟨n, hn, -⟩ := Option.bind_eq_some_iff.1 hp
        exact Table.mem_keys.2 (by rw [hn]; rfl)
      cases l with
      | nil => exact cons_subset.2 ⟨hnode _ (isChain_cons_cons.1 hc).1, nil_subset _⟩
      | cons j l =>
        obtain ⟨hij, hc⟩ := isChain_cons_cons.1 hc
        exact cons_subset.2 ⟨hnode j hij, ih hc⟩
  have hle := (hnodup.subperm (hkey (id :: chain) hchain)).length_le
  rwa [length_cons, hl, Table.keys, length_map] at hle

/-- Two locations, of which one was inlined at the other, and one that was inlined at itself. The
block around a block is the block itself, and the file of the function is not that of its unit. -/
def sampleNodes : Table Nat MetadataNode := .ofList [
  (0, ⟨0, "!DIFile(filename: \"a.c\", directory: \"/d\")"⟩),
  (1, ⟨1, "distinct !DISubprogram(name: \"f\", file: !0, unit: !6)"⟩),
  (2, ⟨2, "distinct !DILexicalBlock(scope: !1)"⟩),
  (3, ⟨3, "!DILocation(line: 3, scope: !8)"⟩),
  (4, ⟨4, "!DILocation(line: 4, column: 5, scope: !2, inlinedAt: !3)"⟩),
  (5, ⟨5, "!DILocation(line: 6, scope: !1, inlinedAt: !5)"⟩),
  (6, ⟨6, "distinct !DICompileUnit(file: !7)"⟩),
  (7, ⟨7, "!DIFile(filename: \"m.c\", directory: \"/m\")"⟩),
  (8, ⟨8, "distinct !DILexicalBlock(scope: !8, file: !7)"⟩)]

theorem plain_sampleNodes : Plain sampleNodes := by decide +kernel

theorem loops_sampleNodes : Loops (Leads sampleNodes) 5 ∧ ¬ Loops (Leads sampleNodes) 4 := by
  refine ⟨⟨5, .refl, .single (by decide +kernel)⟩, ?_⟩
  have hthree : ∃ h r, Resolves sampleNodes h 3 r := by
    refine resolves_of_follows fun call hf => ?_
    rw [plain_sampleNodes.follows_eq] at hf
    have hnone : ((sampleNodes.get? 3).bind (place sampleNodes)).bind Position.inlinedRef =
        none := by decide +kernel
    rw [Leads, hnone] at hf
    cases hf
  have hfour : ∃ h r, Resolves sampleNodes h 4 r := by
    refine resolves_of_follows fun call hf => ?_
    rw [plain_sampleNodes.follows_eq] at hf
    have hcall : Leads sampleNodes 4 3 := by decide +kernel
    rw [Leads] at hf hcall
    rw [hcall] at hf
    cases hf
    exact hthree
  obtain ⟨h, r, hr⟩ := hfour
  rw [← plain_sampleNodes.follows_eq]
  exact hr.not_loops

theorem sampleNodes_resolved :
    Plain sampleNodes ∧ Loops (Leads sampleNodes) 5 ∧ ¬ Loops (Leads sampleNodes) 4 ∧
    (∃ v, (resolve sampleNodes 500 (after sampleNodes 500 [5, 4, 5]) 4).2 = .ok v ∧
      ∀ w, Located sampleNodes 4 w ↔ w = v) ∧
    ((resolve sampleNodes 500 (after sampleNodes 500 [5, 4, 5]) 4).2.toOption.join.map fun l =>
      (l.sourceFile, l.line, l.column, l.directory)) = some ("/d/a.c", 4, 5, "/m") := by
  have hshort : ∀ {i}, ¬ TooLong (Leads sampleNodes) 500 i :=
    fun hl => absurd hl.le_size (by decide +kernel)
  have hafter := resolve_after plain_sampleNodes (by decide) [5, 4, 5] (fun _ _ => .inr hshort) 4
  exact ⟨plain_sampleNodes, loops_sampleNodes.1, loops_sampleNodes.2,
    hafter.1 loops_sampleNodes.2 hshort, by decide +kernel⟩

/-! ## A call that fails -/

theorem plain_locationLine (n : Nat) : Plain (locationLine n) where
  id := forall_mem_locationLine (P := fun e => e.2.id = e.1) rfl rfl (fun _ => rfl) n
  ascii := by
    refine forall_mem_locationLine (by decide +kernel) (by decide +kernel) (fun k f hf => ?_) n
    have hv := Table.get?_eq_some.2 hf
    rw [get?_fields_lineNode] at hv
    split_ifs at hv
    · rw [← Option.some.inj hv, String.toList_ofList, asciiRef, Bool.or_eq_true, all_eq_true]
      exact .inr fun c hc => isAsciiDigit_of_mem_natDigits hc
    · rw [← Option.some.inj hv]
      decide +kernel

theorem follows_locationLine (hf : Follows (locationLine n) i j) : i = j + 1 := by
  obtain ⟨node, hn, hr⟩ := hf.inlinedAt
  have hnone : ∀ n ∈ [lineFile, lineScope], n.fieldRef "inlinedAt" = .ok none := by decide +kernel
  refine forall_mem_locationLine (P := fun e => e.2.fieldRef "inlinedAt" = .ok (some j) →
    e.1 = j + 1) ?_ ?_ ?_ n _
    (Table.get?_eq_some.1 hn) hr
  · exact fun hr => nomatch (hnone _ (by simp)).symm.trans hr
  · exact fun hr => nomatch (hnone _ (by simp)).symm.trans hr
  · intro k hr
    rw [fieldRef_inlinedAt_lineNode] at hr
    cases hr
    rfl

/-- A chain that goes down by one at each step goes through all numbers between. -/
theorem mem_of_descending {chain : List Nat} (hc : (i :: chain).IsChain fun a b => a = b + 1)
    (hj : j ≤ i) (hi : i ≤ j + chain.length) : j ∈ i :: chain := by
  induction chain generalizing i with
  | nil =>
    obtain rfl : i = j := le_antisymm hi hj
    exact .head _
  | cons k chain ih =>
    obtain ⟨rfl, htail⟩ := isChain_cons_cons.1 hc
    rcases lt_or_eq_of_le hj with hlt | rfl
    · rw [length_cons] at hi
      exact .tail _ (ih htail (Nat.le_of_lt_succ hlt) (by omega))
    · exact .head _

theorem fails_locationLine (hi : depth ≤ i) (hn : i ≤ n) (hj : j ≤ i)
    (hij : i < j + depth) : (resolve (locationLine n) depth .empty (i + 2)).2 = .error .tooDeep ∧
      (resolve (locationLine n) depth (after (locationLine n) depth [i + 2]) (j + 2)).2 =
        .ok none := by
  have hplain := plain_locationLine n
  have hd : 0 < depth := by omega
  obtain ⟨v, hr⟩ := resolves_locationLine hn
  have hfail : (resolve (locationLine n) depth .empty (i + 2)).2 = .error .tooDeep := by
    rw [hr.resolve_fresh depth, if_neg hi.not_gt]
  obtain ⟨-, chain, last, hc, -, hl, hall⟩ := hplain.fails hd hfail
  rw [← hplain.follows_eq] at hc
  have hmem : j + 2 ∈ (i + 2) :: chain :=
    mem_of_descending (hc.left_of_append.imp fun _ _ h => follows_locationLine h) (by omega)
      (by omega)
  have hnone : (after (locationLine n) depth [i + 2]).get? (j + 2) = some none := hall _ hmem
  exact ⟨hfail, by rw [resolve_memo hd hnone]⟩

theorem located_locationLine (hi : i < n) : ¬ Loops (Leads (locationLine n)) (i + 3) ∧
    ∃ loc, Located (locationLine n) (i + 3) (some loc) := by
  have hplain := plain_locationLine n
  obtain ⟨v, hr⟩ := resolves_locationLine (le_of_lt hi)
  have hself := Resolves.inlined (get?_locationLine hi) (position_locationLine n (i + 2)) hr
  obtain ⟨w, hw, hloc⟩ := hplain.located hself
  cases hw
  rw [← hplain.follows_eq]
  exact ⟨hself.not_loops, _, hloc⟩

/-- A location that was inlined few times resolves to nothing after a call that failed. -/
theorem locationLine_forgotten : (resolve (locationLine 600) 500 .empty 602).2 = .error .tooDeep ∧
    ¬ Loops (Leads (locationLine 600)) 152 ∧ ¬ TooLong (Leads (locationLine 600)) 500 152 ∧
    (∃ loc, Located (locationLine 600) 152 (some loc)) ∧
    (resolve (locationLine 600) 500 (after (locationLine 600) 500 [602]) 152).2 = .ok none := by
  obtain ⟨hfail, hnone⟩ := fails_locationLine (n := 600) (i := 600) (j := 150)
    (show 500 ≤ 600 by decide) (by decide) (by decide) (by decide)
  obtain ⟨hloops, hloc⟩ := located_locationLine (n := 600) (i := 149) (by decide)
  refine ⟨hfail, hloops, ?_, hloc, hnone⟩
  rintro ⟨chain, last, hc, -, hl⟩
  rw [← (plain_locationLine 600).follows_eq] at hc
  have hdeep : Deep (locationLine 600) 500 152 :=
    ⟨chain ++ [last], hc.imp fun _ _ h => h.inlinedAt, by simp [← hl]⟩
  exact (descends_locationLine 600).not_deep (by decide) hdeep

end CallAtlas.Debug
