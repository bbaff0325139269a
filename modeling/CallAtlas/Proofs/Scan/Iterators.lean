import CallAtlas.Proofs.Optimize.Sites

/-!
# Iterators over one scan

Iterators over a scan share what it remembers. `run` advances them in any order; one that meets a
location that cannot be resolved ends there. A call that was visited once is visited again with the
same result, and nothing more is remembered, `visit_again`. So the iterators are `Abreast`: the
memory is that of a fresh walk over the calls that the foremost has come through, and each has been
given a part of the sites of that walk, as many as it was advanced, `iterators_abreast`. After a
failure that is lost, since what failed is remembered as a location that is missing:
`sampleUnreadable_parted`.
-/

namespace CallAtlas.Scan

open Ir Debug List

/-! ## Iterators -/

/-- Iterators by number: what their scan remembers, the calls that each has before it, the sites
that each was given, and what failed. -/
structure Iterators where
  memory : Memory
  left : Nat → List Call
  given : Nat → List CallSite
  failures : List ResolveError

def Iterators.start (m : IrModule) (depth : Nat) : Iterators :=
  ⟨{ depth }, fun _ => calls m, fun _ => [], []⟩

def Iterators.advance (m : IrModule) (w : Iterators) (i : Nat) : Iterators :=
  match w.left i with
  | [] => w
  | c :: cs =>
    match visit m w.memory c with
    | (memory, .ok site) =>
      { w with
        memory, left := Function.update w.left i cs
        given := Function.update w.given i (w.given i ++ [site]) }
    | (memory, .error e) =>
      { w with memory, left := Function.update w.left i [], failures := e :: w.failures }

def run (m : IrModule) (depth : Nat) (order : List Nat) : Iterators :=
  order.foldl (Iterators.advance m) (.start m depth)

/-- The instructions of a function with the labels of their blocks. -/
def labelled (f : Function) : List (String × Instruction) :=
  f.blocks.flatMap fun b => b.instructions.map fun i => (b.label, i)

/-- Where the calls of a function stand: at the numbers of the instructions that are calls. -/
def placesOf (f : Function) : List CallSite :=
  (List.range (labelled f).length).filterMap fun k =>
    ((labelled f)[k]?.filter (·.2.isCall)).map fun p =>
      ⟨f.name, p.2.callee, p.2.opcode, p.1, k, none⟩

def places (m : IrModule) : List CallSite :=
  (m.functions.values.filter (!·.isDeclaration)).flatMap placesOf

def missing (binary : String) (s : CallSite) : Diagnostic :=
  missingReport binary ⟨s.caller, s.callee, s.opcode, s.block, s.index, none⟩

/-! ## Where calls stand -/

theorem filterMap_zipIdx {α β : Type} (l : List α) (g : α × Nat → Option β) (n : Nat) :
    (l.zipIdx n).filterMap g = (List.range l.length).filterMap fun k => l[k]?.bind fun a =>
  g (a, n + k) := by
  induction l generalizing n with
  | nil => rfl
  | cons a l ih =>
    rw [zipIdx_cons, filterMap_cons, ih, length_cons, range_succ_eq_map, filterMap_cons,
      filterMap_map]
    simp only [Function.comp_def, getElem?_cons_succ, getElem?_cons_zero, Option.bind_some,
      add_zero, add_right_comm n 1, add_assoc]

theorem placesOf_eq (f : Function) : (callsOf f).map (·.site none) = placesOf f := by
  show ((labelled f).zipIdx.filterMap _).map _ = _
  rw [filterMap_zipIdx, map_filterMap]
  refine filterMap_congr fun k _ => ?_
  cases (labelled f)[k]? with
  | none => rfl
  | some p =>
    by_cases hp : p.2.isCall
    · simp only [Option.bind_some, Option.filter_some, hp]
      rw [zero_add]
      rfl
    · simp only [Option.bind_some, Option.filter_some, hp, if_false, Option.map_none,
        Bool.false_eq_true]

theorem places_eq (m : IrModule) : (calls m).map (·.site none) = places m := by
  rw [calls, map_flatMap]
  exact flatMap_congr fun f _ => placesOf_eq f

def Call.key (c : Call) : String × Nat := (c.caller, c.index)

theorem nodup_callsOf (f : Function) : ((callsOf f).map Call.key).Nodup := by
  have hkeys : (callsOf f).map Call.key = (placesOf f).map fun s => (s.caller, s.index) := by
    rw [← placesOf_eq, map_map]
    rfl
  rw [hkeys, placesOf, map_filterMap]
  refine Nodup.filterMap (fun k k' key hk hk' => ?_) nodup_range
  simp only [Option.map_map, Option.mem_def, Option.map_eq_some_iff] at hk hk'
  obtain ⟨p, -, rfl⟩ := hk
  obtain ⟨p', -, heq⟩ := hk'
  exact (congrArg Prod.snd heq).symm

theorem nodup_calls {m : IrModule} (hn : ∀ e ∈ m.functions.entries, e.2.name = e.1) :
    ((calls m).map Call.key).Nodup := by
  have hcalls : ∀ es : List (String × Function), (es.map Prod.fst).Nodup →
      (∀ e ∈ es, e.2.name = e.1) → ((callsIn es).map Call.key).Nodup := by
    intro es
    induction es with
    | nil => exact fun _ _ => nodup_nil
    | cons e es ih =>
      intro hd hn
      obtain ⟨he, hd⟩ := nodup_cons.1 hd
      obtain ⟨hname, hn⟩ := forall_mem_cons.1 hn
      rw [callsIn_cons, map_append]
      refine nodup_append.2 ⟨?_, ih hd hn, ?_⟩
      · simp only [callsIn, flatMap_singleton]
        split_ifs
        · exact nodup_nil
        · exact nodup_callsOf e.2
      · intro key hkey key' hkey' heq
        obtain ⟨c, hc, rfl⟩ := mem_map.1 hkey
        obtain ⟨c', hc', rfl⟩ := mem_map.1 hkey'
        have hcaller : c.caller = c'.caller := congrArg Prod.fst heq
        have hmem : c.caller ∈ [e].map Prod.fst := caller_of_mem_callsIn (by simpa using hname) hc
        rw [map_singleton, mem_singleton] at hmem
        exact he (hmem ▸ hcaller ▸ caller_of_mem_callsIn hn hc')
  rw [calls_eq]
  exact hcalls _ m.functions.distinct hn

/-! ## Visits -/

variable {m : IrModule} {s s' t : Memory} {c : Call} {cs : List Call} {site : CallSite}
  {found : List CallSite}

/-- A memory that has what another one has. -/
structure Later (s t : Memory) : Prop where
  locations : ∀ i v, s.locations.get? i = some v → t.locations.get? i = some v
  reported : s.reported ⊆ t.reported
  depth : t.depth = s.depth

theorem Later.refl (s : Memory) : Later s s := ⟨fun _ _ h => h, fun _ h => h, rfl⟩

theorem Later.trans {u : Memory} (h : Later s t) (h' : Later t u) : Later s u :=
  ⟨fun i v hi => h'.locations i v (h.locations i v hi), fun _ hk => h'.reported (h.reported hk),
    h'.depth.trans h.depth⟩

theorem later_report (s : Memory) (binary : String) (c : Call) : Later s (s.report binary c) := by
  unfold Memory.report
  split_ifs
  · exact .refl s
  · exact ⟨fun _ _ h => h, fun _ h => .tail _ h, rfl⟩

theorem mem_reported (s : Memory) (binary : String) (c : Call) :
    c.key ∈ (s.report binary c).reported := by
  unfold Memory.report
  split_ifs with h
  · exact contains_iff_mem.1 h
  · exact .head _

theorem report_again {binary : String} (h : c.key ∈ s.reported) : s.report binary c = s :=
  if_pos (contains_iff_mem.2 h)

theorem visit_later (hv : visit m s c = (s', .ok site)) : Later s s' := by
  obtain ⟨v, memo, -, rfl, hmemo⟩ := visit_inv hv
  have hlater : Later s { s with locations := memo } := by
    refine ⟨fun i w hi => ?_, fun _ h => h, rfl⟩
    rcases hmemo with ⟨-, -, rfl⟩ | ⟨id, -, hr⟩
    · exact hi
    · have hkept : (resolve m.metadata s.depth s.locations id).1.get? i = some w := resolve_keeps hi
      rwa [hr] at hkept
  split_ifs
  · exact hlater.trans (later_report _ _ _)
  · exact hlater

theorem visit_again (hv : visit m s c = (s', .ok site)) (ht : Later s' t) :
    visit m t c = (t, .ok site) := by
  obtain ⟨v, memo, rfl, rfl, hmemo⟩ := visit_inv hv
  have hkey : v = none → c.key ∈ t.reported := by
    rintro rfl
    exact ht.reported (mem_reported _ _ _)
  rcases hmemo with ⟨hd, rfl, rfl⟩ | ⟨id, hd, hr⟩
  · rw [visit_bare hd, report_again (hkey rfl)]
  · have hid : t.locations.get? id = some v := by
      refine ht.locations id v ?_
      split_ifs
      · rw [(locations_report _ _ _).1]
        exact resolve_remembers hr
      · exact resolve_remembers hr
    have hdepth : 0 < t.depth := by
      rw [ht.depth]
      split_ifs
      · rw [(locations_report _ _ _).2]
        exact pos_of_resolve hr
      · exact pos_of_resolve hr
    rw [visit, hd]
    simp only [resolve_memo hdepth hid]
    cases v with
    | none =>
      exact Prod.ext (report_again (hkey rfl)) rfl
    | some v => rfl

/-! ## Walks -/

theorem walk_append_iff {cs' : List Call} : walk m s (cs ++ cs') = (s', .ok found) ↔
    ∃ s1 xs ys, walk m s cs = (s1, .ok xs) ∧ walk m s1 cs' = (s', .ok ys) ∧ found = xs ++ ys := by
  induction cs generalizing s found with
  | nil =>
    constructor
    · exact fun hw => ⟨s, [], found, rfl, hw, rfl⟩
    · rintro ⟨s1, xs, ys, hw, hrest, rfl⟩
      cases hw
      exact hrest
  | cons c cs ih =>
    rw [cons_append, walk_cons_iff]
    constructor
    · rintro ⟨s1, site, rest, hv, hrest, rfl⟩
      obtain ⟨s2, xs, ys, hx, hy, rfl⟩ := ih.1 hrest
      exact ⟨s2, site :: xs, ys, walk_cons_iff.2 ⟨s1, site, xs, hv, hx, rfl⟩, hy, rfl⟩
    · rintro ⟨s2, xs, ys, hx, hy, rfl⟩
      obtain ⟨s1, site, rest, hv, hrest, rfl⟩ := walk_cons_iff.1 hx
      exact ⟨s1, site, rest ++ ys, hv, ih.2 ⟨s2, rest, ys, hrest, hy, rfl⟩, rfl⟩

theorem walk_again (hw : walk m s cs = (s', .ok found)) :
    Later s s' ∧ List.Forall₂ (fun c site => ∀ t, Later s' t → visit m t c = (t, .ok site)) cs
      found := by
  induction cs generalizing s found with
  | nil =>
    cases hw
    exact ⟨.refl _, .nil⟩
  | cons c cs ih =>
    obtain ⟨s1, site, rest, hv, hrest, rfl⟩ := walk_cons_iff.1 hw
    obtain ⟨hlater, hall⟩ := ih hrest
    exact ⟨(visit_later hv).trans hlater, .cons (fun t ht => visit_again hv (hlater.trans ht)) hall⟩

theorem walk_sites (hw : walk m s cs = (s', .ok found)) :
    (found.map fun site => { site with location := none }) = cs.map (·.site none) := by
  induction cs generalizing s found with
  | nil =>
    cases hw
    rfl
  | cons c cs ih =>
    obtain ⟨s1, site, rest, hv, hrest, rfl⟩ := walk_cons_iff.1 hw
    obtain ⟨v, memo, rfl, -, -⟩ := visit_inv hv
    rw [map_cons, ih hrest]
    rfl

theorem walk_reports (hw : walk m s cs = (s', .ok found)) (hd : (cs.map Call.key).Nodup)
    (hs : ∀ c ∈ cs, c.key ∉ s.reported) :
    s'.diagnostics = s.diagnostics ++
      (found.filter (·.location.isNone)).map (missing m.identifier) := by
  induction cs generalizing s found with
  | nil =>
    cases hw
    simp
  | cons c cs ih =>
    obtain ⟨s1, site, rest, hv, hrest, rfl⟩ := walk_cons_iff.1 hw
    obtain ⟨hc, hd⟩ := nodup_cons.1 hd
    obtain ⟨hnew, hs⟩ := forall_mem_cons.1 hs
    obtain ⟨v, memo, rfl, rfl, -⟩ := visit_inv hv
    cases v with
    | some v =>
      rw [ih hrest hd hs]
      rfl
    | none =>
      have hreport : Memory.report { s with locations := memo } m.identifier c =
          ⟨memo, c.key :: s.reported,
          s.diagnostics ++ [missing m.identifier (c.site none)], s.depth⟩ :=
            if_neg fun h => hnew (contains_iff_mem.1 h)
      simp only [Option.isNone_none, if_true, hreport] at hrest
      rw [ih hrest hd, append_assoc]
      · rfl
      · intro c' hc' hkey
        rcases mem_cons.1 hkey with heq | hkey
        · exact hc (heq ▸ mem_map_of_mem hc')
        · exact hs c' hc' hkey

/-! ## Iterators that did not fail -/

/-- The iterators after they were advanced in an order, where the foremost was given `found`. -/
structure Abreast (m : IrModule) (depth : Nat) (order : List Nat) (w : Iterators)
    (found : List CallSite) : Prop where
  walked : walk m { depth } ((calls m).take found.length) = (w.memory, .ok found)
  left : ∀ i, w.left i = (calls m).drop (order.count i)
  given : ∀ i, w.given i = found.take (order.count i)
  foremost : ∃ i, found.length ≤ order.count i
  bound : ∀ i, min (order.count i) (calls m).length ≤ found.length

section abreast

variable {order : List Nat} {w : Iterators} {depth i : Nat}

theorem abreast_start (m : IrModule) (depth : Nat) : Abreast m depth [] (.start m depth) [] :=
  ⟨rfl, fun _ => rfl, fun _ => rfl, ⟨0, le_rfl⟩, fun _ => by simp⟩

theorem count_snoc (order : List Nat) (i j : Nat) :
    (order ++ [i]).count j = if j = i then order.count i + 1 else order.count j := by
  by_cases hj : j = i
  · rw [if_pos hj, hj, count_append, count_singleton_self]
  · rw [if_neg hj, count_append, count_singleton, beq_false_of_ne (symm hj)]
    rfl

theorem update_count {α : Type} {f : Nat → α} (g : Nat → α) (h : ∀ j, f j = g (order.count j))
    (i j : Nat) :
    Function.update f i (g (order.count i + 1)) j = g ((order ++ [i]).count j) := by
  rw [count_snoc, Function.update_apply, h]
  split_ifs <;> rfl

theorem Abreast.length_le (h : Abreast m depth order w found) :
    found.length ≤ (calls m).length := by
  have hlength := congrArg length (walk_sites h.walked)
  rw [length_map, length_map, length_take] at hlength
  omega

theorem Abreast.next (h : Abreast m depth order w found) {found' : List CallSite}
    (hc : (calls m)[order.count i]? = some c)
    (hv : visit m w.memory c = (s', .ok site))
    (hw : walk m { depth } ((calls m).take found'.length) = (s', .ok found'))
    (hg : ∀ j, w.given j = found'.take (order.count j)) (hsite : found'[order.count i]? = some site)
    (hfore : ∃ j, found'.length ≤ (order ++ [i]).count j)
    (hb : ∀ j, min (order.count j) (calls m).length ≤ found'.length) :
    Abreast m depth (order ++ [i]) (w.advance m i) found' := by
  obtain ⟨hlt, rfl⟩ := List.getElem?_eq_some_iff.1 hc
  obtain ⟨hlt', -⟩ := List.getElem?_eq_some_iff.1 hsite
  have hgiven : w.given i ++ [site] = found'.take (order.count i + 1) := by
    rw [hg, take_add_one, hsite]
    rfl
  have hadvance : w.advance m i = { w with
      memory := s'
      left := Function.update w.left i ((calls m).drop (order.count i + 1))
      given := Function.update w.given i (found'.take (order.count i + 1)) } := by
    rw [Iterators.advance, h.left, drop_eq_getElem_cons hlt]
    simp only [hv, hgiven]
  rw [hadvance]
  refine ⟨hw, update_count ((calls m).drop ·) h.left i, update_count (found'.take ·) hg i, hfore,
    fun j => ?_⟩
  have hj := hb j
  rw [count_snoc]
  split_ifs
  · omega
  · exact hj

/-- An iterator that is advanced fails, or the iterators stay abreast. -/
theorem Abreast.advance (h : Abreast m depth order w found) (i : Nat) :
    (∃ found', Abreast m depth (order ++ [i]) (w.advance m i) found' ∧
      (w.advance m i).failures = w.failures) ∨
    ∃ c cs e, calls m = (calls m).take found.length ++ c :: cs ∧ (visit m w.memory c).2 = .error e ∧
      (w.advance m i).failures = e :: w.failures := by
  have hle := h.length_le
  have hi := h.bound i
  have hmono : ∀ j, order.count j ≤ (order ++ [i]).count j := fun j => by rw [count_append]; omega
  cases hc : (calls m)[order.count i]? with
  | none =>
    have hend := getElem?_eq_none_iff.1 hc
    have hadvance : w.advance m i = w := by rw [Iterators.advance, h.left, drop_of_length_le hend]
    rw [hadvance]
    refine .inl ⟨found, ⟨h.walked, fun j => ?_, fun j => ?_, ?_, fun j => ?_⟩, rfl⟩
    · rw [h.left, count_snoc]
      split_ifs with hj
      · rw [hj, drop_of_length_le hend, drop_of_length_le (by omega)]
      · rfl
    · rw [h.given, count_snoc]
      split_ifs with hj
      · rw [hj, take_of_length_le (by omega), take_of_length_le (by omega)]
      · rfl
    · exact h.foremost.imp fun j hj => hj.trans (hmono j)
    · omega
  | some c =>
    obtain ⟨hlt, hget⟩ := List.getElem?_eq_some_iff.1 hc
    by_cases hp : order.count i < found.length
    · -- the call was visited before
      obtain ⟨hlen, hagain⟩ := forall₂_iff_get.1 (walk_again h.walked).2
      have hvisit : visit m w.memory c = (w.memory, .ok found[order.count i]) := by
        have hsame := hagain (order.count i) (by rwa [hlen]) hp w.memory (.refl _)
        rwa [get_eq_getElem, getElem_take, hget] at hsame
      have hfailures : (w.advance m i).failures = w.failures := by
        rw [Iterators.advance, h.left, drop_eq_getElem_cons hlt, hget]
        simp only [hvisit]
      exact .inl ⟨found, h.next hc hvisit h.walked h.given (getElem?_eq_getElem hp)
        (h.foremost.imp fun j hj => hj.trans (hmono j)) h.bound, hfailures⟩
    · -- the foremost goes on
      have heq : order.count i = found.length := by omega
      have hcalls : calls m = (calls m).take found.length ++ c ::
          (calls m).drop (found.length + 1) := by
        conv_lhs => rw [← take_append_drop found.length (calls m)]
        rw [← heq, drop_eq_getElem_cons hlt, hget]
      have hfirst : (calls m).take (found.length + 1) = (calls m).take found.length ++ [c] := by
        rw [take_add_one, ← heq, hc]
        rfl
      cases hv : visit m w.memory c with
      | mk s' o =>
        have hfailures : (w.advance m i).failures = (match o with
            | .ok _ => w.failures
            | .error e => e :: w.failures) := by
          rw [Iterators.advance, h.left, drop_eq_getElem_cons hlt, hget]
          simp only [hv]
          cases o <;> rfl
        cases o with
        | error e => exact .inr ⟨c, _, e, hcalls, by rw [hv], hfailures⟩
        | ok site =>
          refine .inl ⟨found ++ [site], h.next hc hv ?_ (fun j => ?_) ?_ ?_ (fun j => ?_),
            hfailures⟩
          · rw [length_append, length_singleton, hfirst]
            exact walk_append_iff.2 ⟨_, _, _, h.walked,
              walk_cons_iff.2 ⟨s', site, [], hv, rfl, rfl⟩, rfl⟩
          · have hj := h.bound j
            rw [h.given, take_append_of_le_length (by omega)]
          · rw [heq, getElem?_append_right le_rfl, Nat.sub_self]
            rfl
          · exact ⟨i, by rw [count_snoc, if_pos rfl, heq, length_append]; rfl⟩
          · have hj := h.bound j
            rw [length_append]
            omega

theorem run_snoc (m : IrModule) (depth : Nat) (order : List Nat) (i : Nat) :
    run m depth (order ++ [i]) = (run m depth order).advance m i := by
  rw [run, foldl_append]
  rfl

theorem Abreast.rest (h : Abreast m depth order w found) {all : List CallSite}
    (hs : (sites m { depth }).2 = .ok all) :
    ∃ rest, all = found ++ rest ∧
    walk m w.memory ((calls m).drop found.length) = ((sites m { depth }).1, .ok rest) := by
  have hw : walk m { depth } ((calls m).take found.length ++ (calls m).drop found.length) =
      ((sites m { depth }).1, .ok all) := by
    rw [take_append_drop]
    exact Prod.ext rfl hs
  obtain ⟨s1, xs, ys, hx, hy, rfl⟩ := walk_append_iff.1 hw
  rw [h.walked] at hx
  cases hx
  exact ⟨ys, rfl, hy⟩

theorem abreast_or_failed (m : IrModule) (depth : Nat) (order : List Nat) :
    (∃ found, Abreast m depth order (run m depth order) found ∧ (run m depth order).failures = []) ∨
    (run m depth order).failures ≠ [] ∧ ∀ all, (sites m { depth }).2 ≠ .ok all := by
  induction order using reverseRecOn with
  | nil => exact .inl ⟨[], abreast_start m depth, rfl⟩
  | append_singleton order i ih =>
    rw [run_snoc]
    rcases ih with ⟨found, h, hf⟩ | ⟨hf, hs⟩
    · rcases h.advance i with ⟨found', h', hf'⟩ | ⟨c, cs, e, hcalls, he, hf'⟩
      · exact .inl ⟨found', h', hf'.trans hf⟩
      · refine .inr ⟨by simp [hf'], fun all hs => ?_⟩
        obtain ⟨rest, -, hw⟩ := h.rest hs
        have hdrop : (calls m).drop found.length = c :: cs := by
          apply append_cancel_left
          rw [take_append_drop, ← hcalls]
        rw [hdrop] at hw
        obtain ⟨s1, site, _, hv, -, -⟩ := walk_cons_iff.1 hw
        rw [hv] at he
        cases he
    · refine .inr ⟨?_, hs⟩
      unfold Iterators.advance
      split
      · exact hf
      · split
        · exact hf
        · exact cons_ne_nil _ _

end abreast

/-- Iterators over a scan of an unchanged module, advanced in any order, do not fail where a fresh
scan does not. As long as none has failed, each was given as many sites of a fresh scan as it was
advanced, the sites are those of the calls in the order of the module, and what was reported are the
sites without a location that the foremost was given. -/
theorem iterators_abreast {m : IrModule} (hn : ∀ e ∈ m.functions.entries, e.2.name = e.1)
    (depth : Nat) (order : List Nat) :
    (∀ all, (sites m { depth }).2 = .ok all → (run m depth order).failures = []) ∧
    ((run m depth order).failures = [] → ∃ found,
      walk m { depth } ((calls m).take found.length) = ((run m depth order).memory, .ok found) ∧
      (∀ all, (sites m { depth }).2 = .ok all → found <+: all) ∧
      (found.map fun site => { site with location := none }) = (places m).take found.length ∧
      (∀ i, (run m depth order).given i = found.take (order.count i)) ∧
      (∃ i, (run m depth order).given i = found) ∧
      (run m depth order).memory.diagnostics =
        (found.filter (·.location.isNone)).map (missing m.identifier)) := by
  rcases abreast_or_failed m depth order with ⟨found, h, hf⟩ | ⟨hf, hs⟩
  · refine ⟨fun _ _ => hf, fun _ => ⟨found, h.walked, fun all hs => ?_, ?_, h.given, ?_, ?_⟩⟩
    · obtain ⟨rest, rfl, -⟩ := h.rest hs
      exact prefix_append _ _
    · rw [walk_sites h.walked, map_take, places_eq]
    · obtain ⟨i, hi⟩ := h.foremost
      exact ⟨i, by rw [h.given, take_of_length_le hi]⟩
    · have hd : (((calls m).take found.length).map Call.key).Nodup := by
        rw [map_take]
        exact (nodup_calls hn).sublist (take_sublist _ _)
      exact walk_reports h.walked hd fun _ _ => not_mem_nil
  · exact ⟨fun all h => absurd h (hs all), fun h => absurd h hf⟩

/-- Two functions: one calls without a location, at a location that was inlined at itself and at one
without a file, the other where the first one did. -/
def sampleInlined : IrModule where
  functions := .ofList [
    ("f", ⟨"f", "define void @f()",
      [⟨"entry", [⟨"call void @g()"⟩, ⟨"%1 = add i32 1, 2"⟩, ⟨"call void @g(), !dbg !2"⟩,
      ⟨"br label %b"⟩], none⟩, ⟨"b", [⟨"call void @g(), !dbg !3"⟩, ⟨"ret void"⟩], some "b:"⟩]⟩),
    ("g", ⟨"g", "define void @g()",
      [⟨"entry", [⟨"call void @f(), !dbg !2"⟩, ⟨"ret void"⟩], none⟩]⟩)]
  metadata := .ofList [
    (0, ⟨0, "!DIFile(filename: \"a.c\", directory: \"/d\")"⟩),
    (1, ⟨1, "distinct !DISubprogram(name: \"f\", file: !0)"⟩),
    (2, ⟨2, "!DILocation(line: 4, scope: !1, inlinedAt: !2)"⟩),
    (3, ⟨3, "!DILocation(line: 5, scope: !3)"⟩)]

/-- The order in which three iterators over it are advanced. -/
def sampleOrder : List Nat := [0, 1, 1, 0, 2, 1, 0, 1, 1]

theorem sampleInlined_abreast : (∀ e ∈ sampleInlined.functions.entries, e.2.name = e.1) ∧
    (run sampleInlined 500 sampleOrder).failures = [] ∧
    (run sampleInlined 500 sampleOrder).given 0 =
      ((run sampleInlined 500 sampleOrder).given 1).take 3 ∧
    ((run sampleInlined 500 sampleOrder).given 1).map
      (fun s => (s.caller, s.block, s.index, s.location.isSome)) =
        [("f", "entry", 0, false), ("f", "entry", 2, true), ("f", "b", 4, false),
        ("g", "entry", 0, true)] ∧
    (run sampleInlined 500 sampleOrder).memory.diagnostics.length = 2 := by
  -- what can be evaluated, and behind it what follows
  rw [and_left_comm, ← and_assoc, and_left_comm, and_comm]
  refine (and_iff_left_of_imp ?_).2 (by decide +kernel)
  rintro ⟨⟨hf, hn⟩, -⟩
  obtain ⟨found, -, -, -, hgiven, -⟩ := (iterators_abreast hn 500 sampleOrder).2 hf
  rw [hgiven, hgiven, take_take]
  rfl

/-- A call at a location whose scope is written in a digit that stands in no number. -/
def sampleUnreadable : IrModule where
  functions := .ofList [
    ("f", ⟨"f", "define void @f()",
      [⟨"entry", [⟨"call void @f(), !dbg !1"⟩, ⟨"ret void"⟩], none⟩]⟩)]
  metadata := .ofList [(1, ⟨1, "!DILocation(line: 1, scope: !²)"⟩)]

/-- The first iterator fails at a call that a second one is given, and that is reported then. -/
theorem sampleUnreadable_parted :
    (run sampleUnreadable 500 [0]).failures = [.unreadable ⟨⟩] ∧
    ((run sampleUnreadable 500 [0]).given 0).length = 0 ∧
    ((run sampleUnreadable 500 [0, 1]).given 1).map (fun s => (s.caller, s.index)) = [("f", 0)] ∧
    (run sampleUnreadable 500 [0, 1]).memory.diagnostics.length = 1 := by
  decide +kernel

end CallAtlas.Scan
