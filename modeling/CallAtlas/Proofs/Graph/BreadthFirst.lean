import CallAtlas.Graph.BreadthFirst
import Mathlib.Data.List.Forall2
import Mathlib.Data.List.Nodup
import Mathlib.Order.Nat
import Mathlib.Data.Nat.Find
import Mathlib.Data.Prod.Lex
import Mathlib.Logic.Relation
import Mathlib.Tactic.Common

/-!
# What breadth-first order is

`breadthFirst_sound`: the search finds what can be reached from the root, each thing once, in the
order in which it is discovered (`FoundAt`): by the first thing found that has it among its
successors, and by its place among these. That things are found in the order of their distance from
the root follows from it, `Ordered.distance_le`.

The loop keeps `Progress`: the things looked at and those in the queue are all that was found, in
the order of their discovery, and the successors of those looked at are among them.
-/

namespace CallAtlas.Graph

open List

variable {α κ : Type} {key : α → κ} {next next' : α → List α} {xs : List α} {a d root : α}

variable {R : α → α → Prop} {n : Nat}

/-! ## Places -/

/-- A thing stands at a place of a list and its key nowhere before. -/
def FirstAt (key : α → κ) (xs : List α) (a : α) (j : Nat) : Prop :=
  xs[j]? = some a ∧ key a ∉ (xs.take j).map key

theorem FirstAt.cons {j : Nat} (h : FirstAt key xs d j) (hne : key d ≠ key a) :
    FirstAt key (a :: xs) d (j + 1) := by
  refine ⟨h.1, ?_⟩
  rw [take_succ_cons, map_cons, mem_cons]
  exact fun hm => hm.elim hne h.2

/-- The successor at `p.2` of the thing at `p.1` of a list is `d`, which is not one of its
successors before, and no successor of the things before. -/
structure FoundAt (key : α → κ) (next : α → List α) (l : List α) (d : α) (p : Nat × Nat) :
    Prop where
  successor : ∃ a, l[p.1]? = some a ∧ FirstAt key (next a) d p.2
  first : ∀ a ∈ l.take p.1, d ∉ next a

theorem FoundAt.append {l : List α} {p : Nat × Nat} (h : FoundAt key next l d p) (r : List α) :
    FoundAt key next (l ++ r) d p := by
  obtain ⟨⟨a, ha, hf⟩, hfirst⟩ := h
  have hlt : p.1 < l.length := (List.getElem?_eq_some_iff.1 ha).1
  refine ⟨⟨a, by rw [getElem?_append_left hlt, ha], hf⟩, ?_⟩
  rwa [take_append_of_le_length hlt.le]

/-- A list in the order of discovery: it holds what can be reached from the root, each thing once,
by the places at which it is discovered. -/
structure Ordered (key : α → κ) (next : α → List α) (root : α) (out : List α)
    (places : List (Nat × Nat)) : Prop where
  distinct : ((root :: out).map key).Nodup
  mem : ∀ a, a ∈ root :: out ↔ Relation.ReflTransGen (fun a d => d ∈ next a) root a
  found : List.Forall₂ (FoundAt key next (root :: out)) out places
  sorted : places.Pairwise (Prod.Lex (· < ·) (· < ·))

/-! ## Distances -/

inductive Steps (R : α → α → Prop) (root : α) : Nat → α → Prop
  | refl : Steps R root 0 root
  | tail {n : Nat} {a d : α} : Steps R root n a → R a d → Steps R root (n + 1) d

theorem Steps.reflTransGen (h : Steps R root n a) : Relation.ReflTransGen R root a := by
  induction h with
  | refl => exact .refl
  | tail _ hd ih => exact ih.tail hd

/-- The least number of steps to a thing. -/
def Distance (R : α → α → Prop) (root a : α) (n : Nat) : Prop :=
  Steps R root n a ∧ ∀ m < n, ¬ Steps R root m a

theorem exists_distance (h : Relation.ReflTransGen R root a) : ∃ n, Distance R root a n := by
  have hsteps : ∃ n, Steps R root n a := by
    induction h with
    | refl => exact ⟨0, .refl⟩
    | tail _ hd ih =>
      obtain ⟨n, hn⟩ := ih
      exact ⟨n + 1, hn.tail hd⟩
  classical
  exact ⟨Nat.find hsteps, Nat.find_spec hsteps, fun m hm => Nat.find_min hsteps hm⟩

theorem Distance.le_succ {m : Nat} (h : Distance R root a m) (hd : Distance R root d n)
    (hr : R a d) : n ≤ m + 1 := by
  by_contra hlt
  exact hd.2 (m + 1) (Nat.lt_of_not_le hlt) (h.1.tail hr)

theorem Distance.pred (h : Distance R root d (n + 1)) : ∃ a, Distance R root a n ∧ R a d := by
  obtain ⟨hs, hmin⟩ := h
  cases hs with
  | @tail _ a _ hs hr =>
    exact ⟨a, ⟨hs, fun m hm hs' => hmin (m + 1) (Nat.succ_lt_succ hm) (hs'.tail hr)⟩, hr⟩

namespace Ordered

variable {out : List α} {places : List (Nat × Nat)}

theorem foundAt (h : Ordered key next root out places) {i : Nat}
    (hd : (root :: out)[i + 1]? = some d) :
    ∃ p, places[i]? = some p ∧ FoundAt key next (root :: out) d p := by
  rw [getElem?_cons_succ] at hd
  obtain ⟨hi, rfl⟩ := List.getElem?_eq_some_iff.1 hd
  have hi' : i < places.length := h.found.length_eq ▸ hi
  exact ⟨_, getElem?_eq_getElem hi', h.found.get hi hi'⟩

/-- Things are discovered by earlier ones in the order in which they are found. -/
theorem discoverer_le (h : Ordered key next root out places) {i j : Nat} (hij : i ≤ j)
    {p q : Nat × Nat} (hp : places[i]? = some p) (hq : places[j]? = some q) : p.1 ≤ q.1 := by
  rcases lt_or_eq_of_le hij with hlt | rfl
  · obtain ⟨hi, rfl⟩ := List.getElem?_eq_some_iff.1 hp
    obtain ⟨hj, rfl⟩ := List.getElem?_eq_some_iff.1 hq
    rcases Prod.lex_def.1 (pairwise_iff_getElem.1 h.sorted i j hi hj hlt) with hl | ⟨he, -⟩
    · exact hl.le
    · exact he.le
  · rw [hp] at hq
    exact (congrArg Prod.fst (Option.some.inj hq)).le

theorem distance_le (h : Ordered key next root out places) {i j m n : Nat} {b : α} (hij : i ≤ j)
    (ha : (root :: out)[i]? = some a) (hb : (root :: out)[j]? = some b)
    (hm : Distance (fun a d => d ∈ next a) root a m)
    (hn : Distance (fun a d => d ∈ next a) root b n) : m ≤ n := by
  -- By the distance of the later thing. The thing before it on a shortest way is not before its
  -- discoverer, and so not before the discoverer of the earlier thing.
  induction n generalizing i j m a b with
  | zero =>
    obtain ⟨hs, -⟩ := hn
    cases hs
    have hj : 0 = j := getElem?_inj (Nat.succ_pos _) (h.distinct.of_map key) |>.1 hb.symm
    obtain rfl : i = 0 := by omega
    obtain rfl : root = a := Option.some.inj ha
    by_contra hlt
    exact hm.2 0 (by omega) .refl
  | succ n ih =>
    obtain ⟨c, hc, hcb⟩ := hn.pred
    cases i with
    | zero =>
      obtain rfl : root = a := Option.some.inj ha
      by_contra hlt
      exact hm.2 0 (by omega) .refl
    | succ i =>
      obtain ⟨j, rfl⟩ : ∃ j', j = j' + 1 := ⟨j - 1, by omega⟩
      obtain ⟨p, hp, hpa⟩ := h.foundAt ha
      obtain ⟨q, hq, hqb⟩ := h.foundAt hb
      obtain ⟨a', ha', hfirst, -⟩ := hpa.successor
      have hreach : ∀ x ∈ root :: out, ∃ k, Distance (fun a d => d ∈ next a) root x k :=
        fun x hx => exists_distance ((h.mem x).1 hx)
      have hcmem : c ∈ root :: out := (h.mem c).2 hc.1.reflTransGen
      obtain ⟨k, hk⟩ := mem_iff_getElem?.1 hcmem
      have hqk : q.1 ≤ k := by
        by_contra hlt
        have htake : ((root :: out).take q.1)[k]? = some c := by
          rw [getElem?_take_of_lt (by omega), hk]
        exact hqb.first c (mem_of_getElem? htake) hcb
      have hpq := h.discoverer_le (Nat.le_of_succ_le_succ hij) hp hq
      obtain ⟨m', hm'⟩ := hreach a' (mem_of_getElem? ha')
      have hle := ih (hpq.trans hqk) ha' hk hm' hc
      have := hm'.le_succ hm (mem_of_getElem? hfirst)
      omega

end Ordered

/-! ## New things -/

variable [DecidableEq κ] {vertices vertices' : List κ} {seen : List κ} {P : α → Prop}

theorem fresh_new (hv : key a ∈ vertices) (hs : key a ∉ seen) (xs : List α) :
    fresh vertices key seen (a :: xs) =
      (a :: (fresh vertices key (key a :: seen) xs).1,
        (fresh vertices key (key a :: seen) xs).2) := by
  rw [fresh, if_pos ⟨hv, hs⟩]

theorem fresh_old (h : ¬ (key a ∈ vertices ∧ key a ∉ seen)) (xs : List α) :
    fresh vertices key seen (a :: xs) = fresh vertices key seen xs := by
  rw [fresh, if_neg h]

theorem fresh_seen (hs : key a ∈ seen) (xs : List α) :
    fresh vertices key seen (a :: xs) = fresh vertices key seen xs :=
  fresh_old (fun h => h.2 hs) xs

theorem mem_fresh_snd {k : κ} :
    k ∈ (fresh vertices key seen xs).2 ↔ k ∈ seen ∨ k ∈ (fresh vertices key seen xs).1.map key := by
  induction xs generalizing seen with
  | nil => simp [fresh]
  | cons a xs ih =>
    by_cases h : key a ∈ vertices ∧ key a ∉ seen
    · rw [fresh_new h.1 h.2, ih, map_cons, mem_cons, mem_cons]
      tauto
    · rw [fresh_old h, ih]

theorem fresh_subset : (fresh vertices key seen xs).1 ⊆ xs := by
  induction xs generalizing seen with
  | nil => exact fun _ => id
  | cons a xs ih =>
    by_cases h : key a ∈ vertices ∧ key a ∉ seen
    · rw [fresh_new h.1 h.2]
      exact cons_subset_cons a ih
    · rw [fresh_old h]
      exact subset_cons_of_subset a ih

theorem fresh_apart :
    ((fresh vertices key seen xs).1.map key).Nodup ∧ ∀ a ∈ (fresh vertices key seen xs).1,
    key a ∉ seen := by
  induction xs generalizing seen with
  | nil => simp [fresh]
  | cons a xs ih =>
    by_cases h : key a ∈ vertices ∧ key a ∉ seen
    · rw [fresh_new h.1 h.2]
      obtain ⟨hd, hn⟩ := @ih (key a :: seen)
      refine ⟨nodup_cons.2 ⟨fun hm => ?_, hd⟩, forall_mem_cons.2 ⟨h.2, fun b hb => ?_⟩⟩
      · obtain ⟨b, hb, hk⟩ := mem_map.1 hm
        exact hn b hb (hk ▸ mem_cons_self)
      · exact fun hs => hn b hb (mem_cons_of_mem _ hs)
    · rw [fresh_old h]
      exact ih

theorem key_mem_fresh (hv : key a ∈ vertices) (ha : a ∈ xs) :
    key a ∈ (fresh vertices key seen xs).2 := by
  induction xs generalizing seen with
  | nil => cases ha
  | cons b xs ih =>
    rcases mem_cons.1 ha with rfl | ha
    · by_cases hs : key a ∈ seen
      · exact mem_fresh_snd.2 (.inl hs)
      · rw [fresh_new hv hs]
        exact mem_fresh_snd.2 (.inl mem_cons_self)
    · by_cases h : key b ∈ vertices ∧ key b ∉ seen
      · rw [fresh_new h.1 h.2]
        exact ih ha
      · rw [fresh_old h]
        exact ih ha

theorem fresh_places (hv : ∀ a ∈ xs, key a ∈ vertices) :
    ∃ js : List Nat, List.Forall₂ (FirstAt key xs) (fresh vertices key seen xs).1 js ∧
    js.Pairwise (· < ·) := by
  induction xs generalizing seen with
  | nil => exact ⟨[], .nil, .nil⟩
  | cons a xs ih =>
    rw [forall_mem_cons] at hv
    -- The places behind the head are those of the rest, one later; what is new there differs from
    -- the head.
    have hshift : ∀ {seen' : List κ} {js : List Nat}, key a ∈ seen' →
        Forall₂ (FirstAt key xs) (fresh vertices key seen' xs).1 js →
        Forall₂ (FirstAt key (a :: xs)) (fresh vertices key seen' xs).1 (js.map (· + 1)) := by
      intro seen' js hs hj
      rw [forall₂_map_right_iff]
      have hne : ∀ d ∈ (fresh vertices key seen' xs).1, key d ∉ seen' := fresh_apart.2
      refine forall₂_iff_zip.2 ⟨hj.length_eq, fun hd => ?_⟩
      have hmem := (of_mem_zip hd).1
      exact (forall₂_zip hj hd).cons fun hk => hne _ hmem (hk ▸ hs)
    have hlt : ∀ {js : List Nat}, js.Pairwise (· < ·) → (js.map (· + 1)).Pairwise (· < ·) :=
      fun h => pairwise_map.2 (h.imp fun h => Nat.add_lt_add_right h 1)
    by_cases hs : key a ∈ seen
    · obtain ⟨js, hj, hp⟩ := @ih seen hv.2
      rw [fresh_seen hs]
      exact ⟨_, hshift hs hj, hlt hp⟩
    · obtain ⟨js, hj, hp⟩ := @ih (key a :: seen) hv.2
      rw [fresh_new hv.1 hs]
      refine ⟨0 :: js.map (· + 1), .cons ⟨rfl, by simp⟩ (hshift mem_cons_self hj), ?_⟩
      refine pairwise_cons.2 ⟨fun j hj => ?_, hlt hp⟩
      obtain ⟨i, -, rfl⟩ := mem_map.1 hj
      exact Nat.succ_pos i

theorem fresh_vertices (h : ∀ a ∈ xs, key a ∈ vertices) (h' : ∀ a ∈ xs, key a ∈ vertices') :
    fresh vertices key seen xs = fresh vertices' key seen xs := by
  induction xs generalizing seen with
  | nil => rfl
  | cons a xs ih =>
    rw [forall_mem_cons] at h h'
    by_cases hs : key a ∈ seen
    · rw [fresh_seen hs, fresh_seen hs, ih h.2 h'.2]
    · rw [fresh_new h.1 hs, fresh_new h'.1 hs, ih h.2 h'.2]

theorem fresh_fresh {seen₀ : List κ} (h : ∀ k ∈ seen₀, k ∈ seen) :
    fresh vertices key seen (fresh vertices key seen₀ xs).1 = fresh vertices key seen xs := by
  induction xs generalizing seen seen₀ with
  | nil => rfl
  | cons a xs ih =>
    by_cases h0 : key a ∈ vertices ∧ key a ∉ seen₀
    · rw [fresh_new h0.1 h0.2]
      by_cases hs : key a ∈ seen
      · rw [fresh_seen hs, fresh_seen hs]
        exact ih (forall_mem_cons.2 ⟨hs, h⟩)
      · rw [fresh_new h0.1 hs, fresh_new h0.1 hs,
          ih (forall_mem_cons.2 ⟨mem_cons_self, fun k hk => mem_cons_of_mem _ (h k hk)⟩)]
    · have hold : ¬ (key a ∈ vertices ∧ key a ∉ seen) :=
        fun hv => h0 ⟨hv.1, fun hs => hv.2 (h _ hs)⟩
      rw [fresh_old h0, fresh_old hold, ih h]

theorem breadthFirst_congr (hP : ∀ a, P a → ∀ d ∈ next a, P d)
    (h : ∀ a, P a → ∀ seen, fresh vertices key seen (next a) = fresh vertices' key seen (next' a))
    {queue : List α} (hq : ∀ a ∈ queue, P a) :
    breadthFirst vertices key next queue seen = breadthFirst vertices' key next' queue seen := by
  induction queue, seen using breadthFirst.induct vertices key next with
  | case1 seen => rw [breadthFirst, breadthFirst]
  | case2 seen a rest found ih =>
    rw [forall_mem_cons] at hq
    rw [breadthFirst, breadthFirst, ← h a hq.1]
    show found.1 ++ _ = _
    rw [ih fun d hd => (mem_append.1 hd).elim (hq.2 d) fun hd => hP a hq.1 d (fresh_subset hd)]

theorem exists_next {queue : List α} {d : α} (hd : d ∈ breadthFirst vertices key next queue seen) :
    ∃ a, d ∈ next a := by
  induction queue, seen using breadthFirst.induct vertices key next with
  | case1 seen =>
    rw [breadthFirst] at hd
    cases hd
  | case2 seen a rest found ih =>
    rw [breadthFirst] at hd
    rcases mem_append.1 hd with hd | hd
    · exact ⟨a, fresh_subset hd⟩
    · exact ih hd

/-! ## The search -/

/-- Things that are told apart by their keys and whose successors are among them. -/
structure Closed (vertices : List κ) (key : α → κ) (next : α → List α) (P : α → Prop) : Prop where
  vertex : ∀ {a d}, P a → d ∈ next a → key d ∈ vertices
  successor : ∀ {a d}, P a → d ∈ next a → P d
  unique : ∀ {a b}, P a → P b → key a = key b → a = b

/-- What holds when `done` is looked at and `queue` is still to look at. -/
structure Progress (key : α → κ) (next : α → List α) (done queue : List α) (seen : List κ)
    (places : List (Nat × Nat)) : Prop where
  seen : ∀ k, k ∈ seen ↔ k ∈ (done ++ queue).map key
  distinct : ((done ++ queue).map key).Nodup
  looked : ∀ a ∈ done, ∀ d ∈ next a, d ∈ done ++ queue
  found : List.Forall₂ (FoundAt key next (done ++ queue)) (done ++ queue).tail places
  bounded : ∀ p ∈ places, p.1 < done.length
  sorted : places.Pairwise (Prod.Lex (· < ·) (· < ·))

theorem Progress.step {done rest : List α} {places : List (Nat × Nat)}
    (hc : Closed vertices key next P)
    (hP : ∀ b ∈ done ++ a :: rest, P b) (h : Progress key next done (a :: rest) seen places) :
    ∃ places', Progress key next (done ++ [a]) (rest ++ (fresh vertices key seen (next a)).1)
      (fresh vertices key seen (next a)).2 (places ++ places') := by
  have ha : P a := hP a (by simp)
  generalize hf : fresh vertices key seen (next a) = f
  have hseen : ∀ k, k ∈ f.2 ↔ k ∈ seen ∨ k ∈ f.1.map key := hf ▸ fun k => mem_fresh_snd
  have hall : done ++ [a] ++ (rest ++ f.1) = (done ++ a :: rest) ++ f.1 := by simp
  have hapart : (f.1.map key).Nodup ∧ ∀ d ∈ f.1, key d ∉ seen := hf ▸ fresh_apart
  have hsub : f.1 ⊆ next a := hf ▸ fresh_subset
  obtain ⟨js, hj, hjs⟩ : ∃ js : List Nat, Forall₂ (FirstAt key (next a)) f.1 js ∧
      js.Pairwise (· < ·) :=
    hf ▸ fresh_places fun d hd => hc.vertex ha hd
  -- A new thing is no successor of what was looked at before: those were all found.
  have hnew : ∀ d ∈ f.1, ∀ b ∈ done, d ∉ next b := fun d hd b hb hm =>
    hapart.2 d hd ((h.seen _).2 (mem_map_of_mem (h.looked b hb d hm)))
  refine ⟨js.map (done.length, ·), ⟨?_, ?_, ?_, ?_, ?_, ?_⟩⟩
  · intro k
    have hmap : (done ++ a :: rest ++ f.1).map key = (done ++ a :: rest).map key ++ f.1.map key :=
      map_append
    rw [hall, hseen, h.seen, hmap, mem_append]
  · rw [hall, map_append, nodup_append]
    refine ⟨h.distinct, hapart.1, fun k hk k' hk' hkk => ?_⟩
    obtain ⟨d, hd, rfl⟩ := mem_map.1 hk'
    exact hapart.2 d hd ((h.seen _).2 (hkk ▸ hk))
  · intro b hb d hd
    rw [hall, mem_append]
    rcases mem_append.1 hb with hb | hb
    · exact .inl (h.looked b hb d hd)
    · obtain rfl := mem_singleton.1 hb
      have hk : key d ∈ f.2 := hf ▸ key_mem_fresh (hc.vertex ha hd) hd
      rcases (hseen _).1 hk with hk | hk
      · obtain ⟨d', hd', hkk⟩ := mem_map.1 ((h.seen _).1 hk)
        exact .inl (hc.unique (hP d' hd') (hc.successor ha hd) hkk ▸ hd')
      · obtain ⟨d', hd', hkk⟩ := mem_map.1 hk
        exact .inr (hc.unique (hc.successor ha (hsub hd')) (hc.successor ha hd) hkk ▸ hd')
  · have htail : (done ++ a :: rest ++ f.1).tail = (done ++ a :: rest).tail ++ f.1 :=
      tail_append_of_ne_nil (by simp)
    rw [hall, htail]
    refine rel_append (h.found.imp fun _ _ hp => hp.append _) ?_
    rw [forall₂_map_right_iff]
    refine forall₂_iff_zip.2 ⟨hj.length_eq, fun {d j} hd => ?_⟩
    refine FoundAt.append ⟨⟨a, by simp, forall₂_zip hj hd⟩, ?_⟩ _
    rw [take_left]
    exact fun b hb => hnew d (of_mem_zip hd).1 b hb
  · intro p hp
    rw [length_append]
    rcases mem_append.1 hp with hp | hp
    · exact Nat.lt_succ_of_lt (h.bounded p hp)
    · obtain ⟨j, -, rfl⟩ := mem_map.1 hp
      exact Nat.lt_succ_self _
  · rw [pairwise_append]
    refine ⟨h.sorted, pairwise_map.2 (hjs.imp fun hlt => .right _ hlt), fun p hp q hq => ?_⟩
    obtain ⟨j, -, rfl⟩ := mem_map.1 hq
    exact .left _ _ (h.bounded p hp)

theorem Progress.run (hc : Closed vertices key next P) (queue : List α) (seen : List κ) :
    ∀ {done : List α} {places : List (Nat × Nat)}, (∀ b ∈ done ++ queue, P b) →
      Progress key next done queue seen places →
      ∃ seen' places',
        Progress key next (done ++ queue ++ breadthFirst vertices key next queue seen) [] seen'
          places' ∧ ∀ b ∈ done ++ queue ++ breadthFirst vertices key next queue seen, P b := by
  induction queue, seen using breadthFirst.induct vertices key next with
  | case1 seen =>
    intro done places hP h
    rw [breadthFirst, append_nil, append_nil]
    rw [append_nil] at hP
    exact ⟨seen, places, h, hP⟩
  | @case2 seen a rest found ih =>
    intro done places hP h
    obtain ⟨places', hstep⟩ := h.step hc hP
    have hall : done ++ a :: rest ++ breadthFirst vertices key next (a :: rest) seen =
        done ++ [a] ++ (rest ++ found.1) ++ breadthFirst vertices key next (rest ++ found.1)
        found.2 := by
      rw [breadthFirst]
      simp [found]
    rw [hall]
    refine ih ?_ hstep
    intro b hb
    have hb : b ∈ (done ++ a :: rest) ++ found.1 := by simpa using hb
    rcases mem_append.1 hb with hb | hb
    · exact hP b hb
    · exact hc.successor (hP a (by simp)) (fresh_subset hb)

theorem breadthFirst_sound
    (hc : Closed vertices key next (Relation.ReflTransGen (fun a d => d ∈ next a) root)) :
    ∃ places, Ordered key next root (breadthFirst vertices key next [root] [key root]) places := by
  have hinit : Progress key next [] [root] [key root] [] :=
    ⟨by simp, by simp, by simp, .nil, by simp, .nil⟩
  obtain ⟨seen, places, h, hP⟩ :=
    Progress.run hc [root] [key root] (by simp [Relation.ReflTransGen.refl]) hinit
  refine ⟨places, ?_, fun a => ⟨hP a, fun ha => ?_⟩, ?_, h.sorted⟩
  · simpa using h.distinct
  · induction ha with
    | refl => exact mem_cons_self
    | tail _ hd ih => simpa using h.looked _ ih _ hd
  · simpa using h.found

end CallAtlas.Graph
