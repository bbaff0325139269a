import CallAtlas.Proofs.Loader.Requires
import CallAtlas.Proofs.Table

/-!
# The depth-first visit finds every cycle

`resolve_iff`: on a fresh memory the dependencies of a root are found exactly if every name that a
binary reachable from the root needs leads to a file and no chain of requirements comes back to a
key, where all chains of different binaries are shorter than the visit may follow. What is reported
is a cycle of the graph, a name that leads nowhere and the binary that needs it, or a chain of that
length.

The visit keeps the finished binaries in an order in which each stands before all it requires,
`Finished`. So a key that is finished lies on no cycle, while a key on the path from the root closes
one. `visit_runs` says what a visit adds to the finished binaries or what stops it, along the
recursion of the visit.
-/

namespace CallAtlas.Loader.Search

open Container List

variable {r : Search} {root b d : Binary} {as bs : List Binary} {s : Visit} {fuel : Nat}
  {e : Failure}
variable {f : Visit → Binary → Visit × Except Failure Unit} {deps : List Binary}
  {Q : Failure → Prop}

/-! ## The graph -/

/-- A binary is the root or required along a chain from it. -/
def Reaches (r : Search) (root b : Binary) : Prop := Relation.ReflTransGen r.Requires root b

/-- A binary with the first key that is reachable from the root requires one with the second. -/
def Leads (r : Search) (root : Binary) (k k' : String) : Prop :=
  ∃ b d, r.Reaches root b ∧ r.Requires b d ∧ keyOf b = k ∧ keyOf d = k'

/-- No chain of requirements leads from a key back to it. -/
def Acyclic (r : Search) (root : Binary) : Prop := ∀ k, ¬ Relation.TransGen (r.Leads root) k k

/-- A cycle as it is reported: different keys, each leading to the next, and the first once more at
the end. -/
structure IsCycle (r : Search) (root : Binary) (c : List String) : Prop where
  closed : ∃ k rest, c = k :: rest ++ [k] ∧ (k :: rest).Nodup ∧ ∃ b, r.Reaches root b ∧ keyOf b = k
  chain : c.IsChain (r.Leads root)

/-- A chain of requirements from the root through different binaries. -/
structure IsTrail (r : Search) (root : Binary) (l : List Binary) : Prop where
  head : ∀ b, l.head? = some b → b = root
  chain : l.IsChain r.Requires
  distinct : (l.map keyOf).Nodup

theorem transGen_of_isChain {α : Type} {R : α → α → Prop} {k k' : α} {l : List α}
    (h : (k :: l ++ [k']).IsChain R) : Relation.TransGen R k k' := by
  induction l generalizing k with
  | nil => exact .single (isChain_pair.1 h)
  | cons a l ih =>
    rw [cons_append, cons_append, isChain_cons_cons] at h
    exact .head h.1 (ih h.2)

theorem not_acyclic_of_isCycle {c : List String} (h : r.IsCycle root c) : ¬ r.Acyclic root := by
  intro ha
  obtain ⟨k, rest, hc, -, -⟩ := h.closed
  have hchain := h.chain
  rw [hc] at hchain
  exact ha k (transGen_of_isChain hchain)

theorem reaches_of_chain {l : List Binary} (hh : l.head? = some root) (hc : l.IsChain r.Requires) :
    ∀ b ∈ l, r.Reaches root b := by
  refine hc.induction (r.Reaches root) l ?_ ?_
  · intro x y hxy hx
    exact hx.tail hxy
  · intro hne
    rw [head?_eq_some_head hne] at hh
    rw [Option.some.inj hh]
    exact .refl

theorem isChain_leads {l : List Binary} (hr : ∀ b ∈ l, r.Reaches root b)
    (hc : l.IsChain r.Requires) :
    (l.map keyOf).IsChain (r.Leads root) := by
  rw [isChain_map]
  refine IsChain.imp_of_mem_imp ?_ hc
  intro x y hx _ hxy
  exact ⟨x, y, hr x hx, hxy, rfl, rfl⟩

/-! ## Finished binaries -/

/-- Binaries that can be reached and have all they need, each before all it requires. -/
def Finished (r : Search) (root : Binary) : List Binary → Prop
  | [] => True
  | b :: rest =>
    r.Reaches root b ∧ r.Supplied b ∧ (∀ d, r.Requires b d → d ∈ rest) ∧ Finished r root rest

theorem Finished.mem (h : r.Finished root bs) (hb : b ∈ bs) :
    r.Reaches root b ∧ r.Supplied b ∧ ∀ d, r.Requires b d → d ∈ bs := by
  induction bs with
  | nil => cases hb
  | cons a rest ih =>
    obtain ⟨hr, hs, hreq, hrest⟩ := h
    rcases mem_cons.1 hb with rfl | hb
    · exact ⟨hr, hs, fun d hd => mem_cons_of_mem _ (hreq d hd)⟩
    · obtain ⟨h1, h2, h3⟩ := ih hrest hb
      exact ⟨h1, h2, fun d hd => mem_cons_of_mem _ (h3 d hd)⟩

/-- What is reachable from a finished root is finished. -/
theorem Finished.reaches (h : r.Finished root bs) (hroot : root ∈ bs) (hb : r.Reaches root b) :
    b ∈ bs := by
  induction hb with
  | refl => exact hroot
  | tail _ hreq ih => exact (h.mem ih).2.2 _ hreq

/-- How many keys stand from a key on. -/
def rank (keys : List String) (k : String) : Nat := (keys.dropWhile (· ≠ k)).length

theorem rank_cons_of_mem {keys : List String} {a k : String} (ha : a ∉ keys) (hk : k ∈ keys) :
    rank (a :: keys) k = rank keys k := by
  have : a ≠ k := fun h => ha (h ▸ hk)
  rw [rank, rank, dropWhile_cons_of_pos (by simpa using this)]

theorem rank_cons_self (a : String) (keys : List String) :
    rank (a :: keys) a = keys.length + 1 := by
  rw [rank, dropWhile_cons_of_neg (by simp), length_cons]

theorem rank_le (keys : List String) (k : String) : rank keys k ≤ keys.length := by
  exact (dropWhile_sublist _).length_le

theorem Finished.rank_lt (h : r.Finished root bs) (hd : (bs.map keyOf).Nodup) (hb : b ∈ bs)
    (hreq : r.Requires b d) :
    rank (bs.map keyOf) (keyOf d) < rank (bs.map keyOf) (keyOf b) := by
  induction bs with
  | nil => cases hb
  | cons a rest ih =>
    obtain ⟨-, -, hrest, hfin⟩ := h
    rw [map_cons, nodup_cons] at hd
    rw [map_cons]
    rcases mem_cons.1 hb with rfl | hb
    · rw [rank_cons_self, rank_cons_of_mem hd.1 (mem_map_of_mem (hrest d hreq))]
      exact Nat.lt_succ_of_le (rank_le _ _)
    · have hdm := (hfin.mem hb).2.2 d hreq
      rw [rank_cons_of_mem hd.1 (mem_map_of_mem hb), rank_cons_of_mem hd.1 (mem_map_of_mem hdm)]
      exact ih hfin hd.2 hb

theorem Finished.acyclic (h : r.Finished root bs) (hd : (bs.map keyOf).Nodup) (hroot : root ∈ bs) :
    r.Acyclic root := by
  have hlt : ∀ {k k' : String}, Relation.TransGen (r.Leads root) k k' →
      rank (bs.map keyOf) k' < rank (bs.map keyOf) k := by
    intro k k' hk
    have hstep : ∀ {k k' : String}, r.Leads root k k' →
        rank (bs.map keyOf) k' < rank (bs.map keyOf) k := by
      rintro _ _ ⟨b, d, hb, hreq, rfl, rfl⟩
      exact h.rank_lt hd (h.reaches hroot hb) hreq
    induction hk with
    | single h => exact hstep h
    | tail _ h ih => exact (hstep h).trans ih
  exact fun k hk => lt_irrefl _ (hlt hk)

/-! ## The visit -/

/-- What holds during the visit while the binaries `as` are on the path and `bs` are finished: their
keys are all different, and only their dependencies are remembered. -/
structure Sound (r : Search) (root : Binary) (as bs : List Binary) (s : Visit) : Prop where
  done : s.done = bs.map keyOf
  finished : r.Finished root bs
  apart : (as.map keyOf ++ s.done).Nodup
  known : ∀ k ∈ s.memory.direct.keys, k ∈ as.map keyOf ∨ k ∈ s.done

/-- A key whose binary is finished comes back with the same binary: off the root, keys determine
binaries, and the root is on the path. -/
theorem Sound.mem_of_done (hs : r.Sound root as bs s) (hne : as ≠ []) (hroot : root ∈ as)
    (hc : (as ++ [b]).IsChain r.Requires) (hk : keyOf b ∈ s.done) : b ∈ bs := by
  have hdone := hs.done
  rw [hdone] at hk
  obtain ⟨b', hb', hkey⟩ := mem_map.1 hk
  have hreq : r.Requires (as.getLast hne) b := by
    rw [isChain_append] at hc
    exact hc.2.2 _ (getLast?_eq_some_getLast hne) _ rfl
  rcases Relation.ReflTransGen.cases_tail (hs.finished.mem hb').1 with heq | ⟨a', -, hreq'⟩
  · -- The root is on the path, so its key is not finished.
    rw [heq] at hb'
    have hmem : keyOf root ∈ s.done := hdone ▸ mem_map_of_mem hb'
    exact absurd rfl ((nodup_append.1 hs.apart).2.2 _ (mem_map_of_mem hroot) _ hmem)
  · rwa [hreq.unique hreq' hkey.symm]

/-- What is remembered of a binary that was not met before is computed now. -/
theorem Sound.remembered (hs : r.Sound root as bs s) (hpath : keyOf b ∉ as.map keyOf)
    (hdone : keyOf b ∉ s.done) :
    (∃ deps m, r.remembered s.memory b = (m, .ok deps) ∧ r.dependencies b = .ok deps ∧
      r.Sound root (as ++ [b]) bs { s with memory := m }) ∨
    ∃ e m, r.remembered s.memory b = (m, .error e) ∧ r.dependencies b = .error e := by
  have hnone : s.memory.direct.get? (keyOf b) = none := by
    rw [Table.get?_eq_none]
    intro hk
    exact (hs.known _ hk).elim hpath hdone
  unfold Search.remembered
  rw [hnone]
  cases hd : r.dependencies b with
  | error e => exact .inr ⟨e, _, rfl, rfl⟩
  | ok deps =>
    refine .inl ⟨deps, _, rfl, rfl, hs.done, hs.finished, ?_, ?_⟩
    · rw [map_append, append_assoc]
      refine nodup_middle.2 ?_
      rw [nodup_cons, mem_append]
      exact ⟨fun h => h.elim hpath hdone, hs.apart⟩
    · intro k hk
      rw [map_append, mem_append]
      rw [Table.mem_keys, Table.get?_insert] at hk
      split_ifs at hk with heq
      · exact .inl (.inr (by simp [heq]))
      · exact (hs.known k (Table.mem_keys.2 hk)).imp .inl id

theorem Sound.finish (hs : r.Sound root (as ++ [b]) bs s) (hb : r.Reaches root b)
    (hsup : r.Supplied b)
    (hreq : ∀ d, r.Requires b d → d ∈ bs) :
    r.Sound root as (b :: bs) { s with done := keyOf b :: s.done } := by
  refine ⟨by rw [hs.done]; rfl, ⟨hb, hsup, hreq, hs.finished⟩, ?_, ?_⟩
  · have := hs.apart
    rwa [map_append, append_assoc] at this
  · intro k hk
    have := hs.known k hk
    rw [map_append, mem_append, map_singleton, mem_singleton] at this
    rw [mem_cons]
    tauto

/-- A run finishes some binaries, or a failure stops it. -/
def Runs (r : Search) (root : Binary) (as bs ds : List Binary) (Q : Failure → Prop)
    (outcome : Visit × Except Failure Unit) : Prop :=
  (∃ s bs', outcome = (s, .ok ()) ∧ r.Sound root as bs' s ∧ bs ⊆ bs' ∧ ds ⊆ bs') ∨
    ∃ s e, outcome = (s, .error e) ∧ Q e

theorem Runs.forEach
    (hf : ∀ d ∈ deps, ∀ {bs s}, r.Sound root as bs s → r.Runs root as bs [d] Q (f s d))
    (hs : r.Sound root as bs s) : r.Runs root as bs deps Q (forEach f s deps) := by
  induction deps generalizing bs s with
  | nil => exact .inl ⟨s, bs, rfl, hs, fun _ => id, nil_subset _⟩
  | cons d deps ih =>
    rw [forall_mem_cons] at hf
    rw [Loader.forEach]
    rcases hf.1 hs with ⟨s1, bs1, hd, hs1, hsub1, hmem1⟩ | ⟨s1, e, hd, hq⟩ <;> rw [hd]
    · rcases ih hf.2 hs1 with ⟨s2, bs2, h, hs2, hsub2, hmem2⟩ | hstop
      · refine .inl ⟨s2, bs2, h, hs2, Subset.trans hsub1 hsub2,
          cons_subset.2 ⟨hsub2 (hmem1 mem_cons_self), hmem2⟩⟩
      · exact .inr hstop
    · exact .inr ⟨s1, e, rfl, hq⟩

/-- The path to a binary: it starts at the root, where nothing is finished yet, and goes along
requirements. -/
structure Route (r : Search) (root : Binary) (as bs : List Binary) (b : Binary) : Prop where
  head : (as ++ [b]).head? = some root
  chain : (as ++ [b]).IsChain r.Requires
  fresh : as = [] → bs = []

theorem Route.reaches (hp : r.Route root as bs b) : ∀ a ∈ as ++ [b], r.Reaches root a :=
  reaches_of_chain hp.head hp.chain

theorem Route.next (hp : r.Route root as bs b) (hreq : r.Requires b d) (bs' : List Binary) :
    r.Route root (as ++ [b]) bs' d := by
  refine ⟨?_, ?_, fun h => absurd h (by simp)⟩
  · rw [head?_append_of_ne_nil _ (by simp)]
    exact hp.head
  · rw [isChain_append]
    refine ⟨hp.chain, isChain_singleton d, ?_⟩
    intro x hx y hy
    rw [getLast?_concat] at hx
    obtain rfl := Option.some.inj hx
    obtain rfl := Option.some.inj hy
    exact hreq

theorem Route.mem_of_done (hp : r.Route root as bs b) (hs : r.Sound root as bs s)
    (hk : keyOf b ∈ s.done) : b ∈ bs := by
  by_cases hne : as = []
  · rw [hs.done, hp.fresh hne] at hk
    cases hk
  · refine hs.mem_of_done hne ?_ hp.chain hk
    have hh := hp.head
    rw [head?_append_of_ne_nil _ hne] at hh
    exact mem_of_head? hh

theorem Route.isCycle (hp : r.Route root as bs b) (hd : (as.map keyOf).Nodup)
    (hk : keyOf b ∈ as.map keyOf) :
    r.IsCycle root ((as.map keyOf).dropWhile (· ≠ keyOf b) ++ [keyOf b]) := by
  rw [dropWhile_map]
  have hsuf := dropWhile_suffix (l := as) ((fun k => decide (k ≠ keyOf b)) ∘ keyOf)
  cases hl : as.dropWhile ((fun k => decide (k ≠ keyOf b)) ∘ keyOf) with
  | nil =>
    obtain ⟨a, ha, hak⟩ := mem_map.1 hk
    have := dropWhile_eq_nil_iff.1 hl a ha
    simp [hak] at this
  | cons a rest =>
    have hak : keyOf a = keyOf b := by
      have := head?_dropWhile_not ((fun k => decide (k ≠ keyOf b)) ∘ keyOf) as
      rw [hl] at this
      simpa using this
    rw [hl] at hsuf
    have hreach := hp.reaches
    constructor
    · refine ⟨keyOf a, rest.map keyOf, by rw [← hak]; rfl, ?_, a, hreach a ?_, rfl⟩
      · exact hd.sublist (hsuf.sublist.map keyOf)
      · exact mem_append_left _ (hsuf.subset (mem_cons_self ..))
    · have hpart : a :: rest ++ [b] <:+ as ++ [b] := by
        obtain ⟨pre, hpre⟩ := hsuf
        exact ⟨pre, by rw [← hpre, append_assoc]⟩
      have hchain := isChain_leads (fun x hx => hreach x (hpart.subset hx)) (hp.chain.suffix hpart)
      rwa [map_append] at hchain

/-- What can stop a resolution that follows chains up to a length. -/
inductive Obstacle (r : Search) (root : Binary) (depth : Nat) : Failure → Prop
  | cycle {c : List String} (hc : r.IsCycle root c) : Obstacle r root depth (.of (.cycle c))
  | unlocated {b : Binary} {name : String} {searched : List String} (hb : r.Reaches root b)
      (hn : name ∈ r.neededNames b) (hl : ¬ r.Locatable b name) :
      Obstacle r root depth (.of (.unlocated name b.path searched))
  | tooDeep {l : List Binary} (hl : r.IsTrail root l) (hlen : l.length = depth) :
    Obstacle r root depth .tooDeep

theorem Route.isTrail (hp : r.Route root as bs b) (hd : (as.map keyOf).Nodup) :
    r.IsTrail root as := by
  refine ⟨?_, hp.chain.left_of_append, hd⟩
  intro a ha
  have hh := hp.head
  rw [head?_append, ha] at hh
  exact Option.some.inj hh

/-- Puts a binary behind those that its dependencies finished. -/
def close (b : Binary) : Visit × Except Failure Unit → Visit × Except Failure Unit
  | (s, .ok ()) => ({ s with done := keyOf b :: s.done }, .ok ())
  | (s, .error e) => (s, .error e)

theorem visit_of_remembered {path : List String} {m : Memory} (hdone : keyOf b ∉ s.done)
    (hpath : keyOf b ∉ path) (hm : r.remembered s.memory b = (m, .ok deps)) :
    r.visit (fuel + 1) path s b =
      close b (forEach (r.visit fuel (path ++ [keyOf b])) { s with memory := m } deps) := by
  rw [visit, if_neg (by simpa using hdone), if_neg (by simpa using hpath), hm]
  rfl

/-- A visit finishes its binary or meets an obstacle, unless a binary refuses to be read. -/
theorem visit_runs (hs : r.Sound root as bs s) (hp : r.Route root as bs b) (fuel : Nat) :
    r.Runs root as bs [b]
      (fun e => (∀ b, r.Reaches root b → r.needs.refuses b = none) →
        r.Obstacle root (as.length + fuel) e)
      (r.visit fuel (as.map keyOf) s b) := by
  induction fuel generalizing as bs s b with
  | zero => exact .inr ⟨s, _, rfl, fun _ => .tooDeep (hp.isTrail (nodup_append.1 hs.apart).1) rfl⟩
  | succ fuel ih =>
    have hb : r.Reaches root b := hp.reaches b (by simp)
    by_cases hdone : keyOf b ∈ s.done
    · refine .inl ⟨s, bs, ?_, hs, fun _ => id,
        cons_subset.2 ⟨hp.mem_of_done hs hdone, nil_subset _⟩⟩
      rw [visit, if_pos (contains_iff_mem.2 hdone)]
    · by_cases hpath : keyOf b ∈ as.map keyOf
      · refine .inr ⟨s, _, ?_, fun _ => .cycle (hp.isCycle (nodup_append.1 hs.apart).1 hpath)⟩
        rw [visit, if_neg (by simpa using hdone), if_pos (contains_iff_mem.2 hpath)]
      · rcases hs.remembered hpath hdone with ⟨deps, m, hm, hdeps, hs1⟩ | ⟨e, m, hm, hdeps⟩
        · obtain ⟨hsup, hreq⟩ := dependencies_ok hdeps
          have hrun :=
            Runs.forEach (fun d hd {bs1 _} hs1 => ih hs1 (hp.next ((hreq d).1 hd) bs1)) hs1
          rw [map_append, map_singleton] at hrun
          rw [visit_of_remembered hdone hpath hm]
          rcases hrun with ⟨s2, bs2, hrun, hs2, hsub, hmem⟩ | ⟨s2, e, hrun, hobs⟩ <;> rw [hrun]
          · exact .inl ⟨_, b :: bs2, rfl, hs2.finish hb hsup fun d hd => hmem ((hreq d).2 hd),
              subset_cons_of_subset b hsub, cons_subset.2 ⟨mem_cons_self, nil_subset _⟩⟩
          · rw [length_append, length_singleton, add_assoc, add_comm 1 fuel] at hobs
            exact .inr ⟨s2, e, rfl, hobs⟩
        · refine .inr ⟨{ s with memory := m }, e, ?_, fun hr => ?_⟩
          · rw [visit, if_neg (by simpa using hdone), if_neg (by simpa using hpath), hm]
          · obtain ⟨name, hn, ⟨searched, rfl⟩, hl⟩ := dependencies_error (hr b hb) hdeps
            exact .unlocated hb hn hl

/-! ## The resolution -/

theorem sound_init (r : Search) (root : Binary) : r.Sound root [] [] ⟨{}, []⟩ :=
  ⟨rfl, trivial, nodup_nil, fun _ hk => absurd hk (by simp [Table.keys, Table.empty])⟩

theorem route_init (r : Search) (root : Binary) : r.Route root [] [] root :=
  ⟨rfl, isChain_singleton root, fun _ => rfl⟩

theorem resolve_of_visit (r : Search) (root : Binary) : (r.resolve {} root).2 =
    (r.visit r.longestChain [] ⟨{}, []⟩ root).2.map fun _ =>
      order (r.visit r.longestChain [] ⟨{}, []⟩ root).1.memory root := by
  unfold resolve
  cases r.visit r.longestChain [] ⟨{}, []⟩ root with
  | mk s res => cases res <;> rfl

/-- A resolution on a fresh memory finishes the root, or reports what stopped the visit. -/
theorem resolve_cases (r : Search) (root : Binary) :
    (∃ s bs, r.visit r.longestChain [] ⟨{}, []⟩ root = (s, .ok ()) ∧ r.Finished root bs ∧
      (bs.map keyOf).Nodup ∧ root ∈ bs ∧ (r.resolve {} root).2 = .ok (order s.memory root)) ∨
    ∃ e, ((∀ b, r.Reaches root b → r.needs.refuses b = none) → r.Obstacle root r.longestChain e) ∧
      (r.resolve {} root).2 = .error e := by
  have hruns := visit_runs (sound_init r root) (route_init r root) r.longestChain
  rw [length_nil, zero_add] at hruns
  rw [resolve_of_visit]
  rcases hruns with ⟨s, bs, hv, hs, -, hroot⟩ | ⟨s, e, hv, hobs⟩
  · have hv : r.visit r.longestChain [] ⟨{}, []⟩ root = (s, .ok ()) := hv
    rw [hv]
    exact .inl ⟨s, bs, rfl, hs.finished, hs.done ▸ hs.apart, hroot mem_cons_self, rfl⟩
  · have hv : r.visit r.longestChain [] ⟨{}, []⟩ root = (s, .error e) := hv
    rw [hv]
    exact .inr ⟨e, hobs, rfl⟩

/-- Dependencies that do not refuse to be read are found on a fresh memory only if every needed name
leads to a file and nothing requires itself, and exactly then if all trails from the root are
shorter than the visit may follow. Only a cycle, a name that leads nowhere and a trail of that
length are reported. -/
theorem resolve_iff (r : Search) (root : Binary)
    (hr : ∀ b, r.Reaches root b → r.needs.refuses b = none) :
    ((∃ order, (r.resolve {} root).2 = .ok order) → (∀ b, r.Reaches root b → r.Supplied b) ∧
      r.Acyclic root) ∧
    ((∀ l, r.IsTrail root l → l.length < r.longestChain) →
      ((∃ order, (r.resolve {} root).2 = .ok order) ↔
        (∀ b, r.Reaches root b → r.Supplied b) ∧ r.Acyclic root)) ∧
    ∀ e, (r.resolve {} root).2 = .error e → r.Obstacle root r.longestChain e := by
  have hgood : (∃ order, (r.resolve {} root).2 = .ok order) →
      (∀ b, r.Reaches root b → r.Supplied b) ∧ r.Acyclic root := by
    rintro ⟨order, hok⟩
    rcases resolve_cases r root with ⟨s, bs, -, hfin, hd, hroot, -⟩ | ⟨e, -, herr⟩
    · exact ⟨fun b hb => (hfin.mem (hfin.reaches hroot hb)).2.1, hfin.acyclic hd hroot⟩
    · rw [herr] at hok
      cases hok
  have hstops : ∀ e, (r.resolve {} root).2 = .error e → r.Obstacle root r.longestChain e := by
    intro e he
    rcases resolve_cases r root with ⟨s, bs, -, -, -, -, hok⟩ | ⟨e', hobs, herr⟩
    · rw [hok] at he
      cases he
    · rw [← Except.error.inj (herr.symm.trans he)]
      exact hobs hr
  refine ⟨hgood, fun hshort => ⟨hgood, ?_⟩, hstops⟩
  rintro ⟨hsup, hacyc⟩
  cases hres : (r.resolve {} root).2 with
  | ok order => exact ⟨order, rfl⟩
  | error e =>
    cases hstops e hres with
    | cycle hc => exact absurd hacyc (not_acyclic_of_isCycle hc)
    | unlocated hb hn hl => exact absurd (hsup _ hb _ hn) hl
    | tooDeep hl hlen => exact absurd hlen (hshort _ hl).ne

/-- A program whose two libraries both need a third. -/
def sampleDiamond : Search where
  files :=
    { files := .ofList (["app", "libl.so", "libr.so", "libz.so"].map fun n =>
      (["work", n], ⟨[], false⟩)) }
  needs :=
    .ofTables (.ofList [("app", ["libl.so", "libr.so"]), ("libl.so", ["libz.so"]),
      ("libr.so", ["libz.so"])]) .empty
  searchPaths := ["."]
  systemLibraries := []

def sampleRoot : Binary := ⟨"app", .detect []⟩

/-- A shared dependency is no cycle. -/
theorem sampleDiamond_resolves :
    (sampleDiamond.resolve {} sampleRoot).2 =
      .ok [⟨"libl.so", .detect []⟩, ⟨"libr.so", .detect []⟩, ⟨"libz.so", .detect []⟩] ∧
    (∀ b, sampleDiamond.Reaches sampleRoot b → sampleDiamond.Supplied b) ∧
    sampleDiamond.Acyclic sampleRoot := by
  have hok : (sampleDiamond.resolve {} sampleRoot).2 =
      .ok [⟨"libl.so", .detect []⟩, ⟨"libr.so", .detect []⟩, ⟨"libz.so", .detect []⟩] := by
        decide +kernel
  exact ⟨hok, (resolve_iff sampleDiamond sampleRoot fun _ _ => rfl).1 ⟨_, hok⟩⟩

end CallAtlas.Loader.Search
