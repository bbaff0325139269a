import CallAtlas.Handle
import Mathlib

/-!
# Who holds a handle

A handle is used by any stages in any order. Some uses fail, and then nothing changes. `holdsOf` is
how often a stage holds the handle; one use changes it by what it succeeds in (`holdsOf_next`), so
along a run it grows by the successful acquisitions of the stage less its releases (`holdsOf_run`).
`single_owner` puts together what follows: who owns the handle, which uses succeed, and that a
closed handle stays closed.
-/

namespace CallAtlas.Handle

/-! ## Uses -/

inductive Use where
  | acquire (stage : String)
  | release (stage : String)
  | read
  | close
  deriving DecidableEq

/-- The handle behind a use, or why the use fails. -/
def attempt (h : Handle) : Use → Except Failure Handle
  | .acquire s => (h.acquire s).map Prod.fst
  | .release s => h.release s
  | .read => h.ir.map fun _ => h
  | .close => .ok h.close

/-- The handle that later uses meet. -/
def next (h : Handle) (u : Use) : Handle :=
  match h.attempt u with
  | .ok h' => h'
  | .error _ => h

def run (h : Handle) (us : List Use) : Handle := us.foldl next h

def trace : Handle → List Use → List (Use × Bool)
  | _, [] => []
  | h, u :: us => (u, (h.attempt u).isOk) :: trace (h.next u) us

variable {h h' : Handle} {u : Use} {us : List Use} {s : String} {e : Failure}

/-- Which uses succeed: an open handle is acquired unless another stage has it, and read while a
stage has it; its owner gives it back. -/
def Admits (h : Handle) : Use → Prop
  | .acquire s => h.isClosed = false ∧ ∀ o, h.owner = some o → o = s
  | .release s => h.owner = some s
  | .read => h.isClosed = false ∧ h.owner ≠ none
  | .close => True

/-- What a use that succeeds makes of the handle. -/
inductive Takes (h : Handle) : Use → Handle → Prop where
  | first {s : String} : h.isClosed = false → h.owner = none →
      Takes h (.acquire s) { h with owner := some s, holds := 1 }
  | again {s : String} : h.isClosed = false → h.owner = some s →
    Takes h (.acquire s) { h with holds := h.holds + 1 }
  | release {s : String} : h.owner = some s →
      Takes h (.release s) { h with
        holds := h.holds - 1, owner := if h.holds - 1 = 0 then none else some s }
  | read : Takes h .read h
  | close : Takes h .close h.close

theorem attempt_cases (h : Handle) (u : Use) :
    (h.Admits u ∧ ∃ h', h.attempt u = .ok h' ∧ h.Takes u h') ∨
    ¬ h.Admits u ∧ ∃ what, h.attempt u = .error (h.stale what) := by
  cases u with
  | acquire s =>
    simp only [attempt, acquire]
    cases hm : h.module with
    | none => exact .inr ⟨by simp [Admits, isClosed, hm], _, rfl⟩
    | some m =>
      have hopen : h.isClosed = false := by rw [isClosed, hm]; rfl
      cases ho : h.owner with
      | none => exact .inl ⟨⟨hopen, by simp [ho]⟩, _, by rw [hm]; rfl, .first hopen ho⟩
      | some o =>
        dsimp only
        split_ifs with hos
        · subst hos
          exact .inl ⟨⟨hopen, by simp [ho]⟩, _, by rw [hm, ho]; rfl, .again hopen ho⟩
        · exact .inr ⟨fun ha => hos (ha.2 o ho), _, rfl⟩
  | release s =>
    by_cases ho : h.owner = some s
    · exact .inl ⟨ho, _, (if_pos ho).trans (by rw [ho]), .release ho⟩
    · exact .inr ⟨ho, _, if_neg ho⟩
  | read =>
    simp only [attempt, ir]
    cases hm : h.module with
    | none => exact .inr ⟨by simp [Admits, isClosed, hm], _, rfl⟩
    | some m =>
      cases ho : h.owner with
      | none => exact .inr ⟨fun ha => ha.2 ho, _, rfl⟩
      | some o => exact .inl ⟨⟨by rw [isClosed, hm]; rfl, by simp [ho]⟩, _, rfl, .read⟩
  | close => exact .inl ⟨trivial, _, rfl, .close⟩

theorem takes_of_attempt (ha : h.attempt u = .ok h') : h.Takes u h' := by
  rcases attempt_cases h u with ⟨-, h1, he, ht⟩ | ⟨-, what, he⟩
  · rwa [← Except.ok.inj (he.symm.trans ha)]
  · cases he.symm.trans ha

theorem attempt_error (ha : h.attempt u = .error e) : ∃ what, e = h.stale what := by
  rcases attempt_cases h u with ⟨-, h1, he, -⟩ | ⟨-, what, he⟩
  · cases he.symm.trans ha
  · exact ⟨what, Except.error.inj (ha.symm.trans he)⟩

theorem next_ok (ha : h.attempt u = .ok h') : h.next u = h' := by rw [next, ha]

theorem next_error (ha : h.attempt u = .error e) : h.next u = h := by rw [next, ha]

theorem attempt_isOk : (h.attempt u).isOk ↔ h.Admits u := by
  rcases attempt_cases h u with ⟨ha, h1, he, -⟩ | ⟨ha, what, he⟩
  · exact iff_of_true (by rw [he]; rfl) ha
  · exact iff_of_false (by rw [he]; exact Bool.false_ne_true) ha

theorem acquire_isOk : (h.acquire s).isOk ↔ h.isClosed = false ∧ ∀ o, h.owner = some o → o = s := by
  have hmap : (h.attempt (.acquire s)).isOk = (h.acquire s).isOk := by
    rw [attempt]
    cases h.acquire s <;> rfl
  rw [← hmap, attempt_isOk, Admits]

theorem release_isOk : (h.release s).isOk ↔ h.owner = some s := attempt_isOk (u := .release s)

theorem ir_isOk : h.ir.isOk ↔ h.isClosed = false ∧ h.owner ≠ none := by
  have hmap : (h.attempt .read).isOk = h.ir.isOk := by
    rw [attempt]
    cases h.ir <;> rfl
  rw [← hmap, attempt_isOk, Admits]

/-! ## One use -/

/-- Nobody owns the handle exactly when nothing is held, and a closed handle is nobody's. -/
structure Consistent (h : Handle) : Prop where
  free : h.owner = none ↔ h.holds = 0
  closed : h.isClosed → h.owner = none

theorem consistent_new (m : IrModule) (sources : List String) : (new m sources).Consistent := by
  constructor
  · exact ⟨fun _ => rfl, fun _ => rfl⟩
  · exact fun _ => rfl

theorem Consistent.holds_ne_zero (hc : h.Consistent) (ho : h.owner = some s) : h.holds ≠ 0 := by
  intro hz
  rw [hc.free.2 hz] at ho
  cases ho

theorem Consistent.next (hc : h.Consistent) (u : Use) : (h.next u).Consistent := by
  cases ha : h.attempt u with
  | error e => rwa [next_error ha]
  | ok h' =>
    rw [next_ok ha]
    cases takes_of_attempt ha with
    | first hopen ho => exact ⟨by simp, fun hclosed => absurd (hopen.symm.trans hclosed) nofun⟩
    | again hopen ho => exact ⟨by simp [ho], fun hclosed => absurd (hopen.symm.trans hclosed) nofun⟩
    | release ho =>
      refine ⟨by simp, fun hclosed => ?_⟩
      rw [hc.closed hclosed] at ho
      cases ho
    | read => exact hc
    | close => exact ⟨by simp [close], fun _ => rfl⟩

theorem isClosed_next : (h.next u).isClosed ↔ h.isClosed ∨ u = .close := by
  cases ha : h.attempt u with
  | error e =>
    rw [next_error ha]
    refine ⟨.inl, fun hor => hor.elim id ?_⟩
    rintro rfl
    cases ha
  | ok h' =>
    rw [next_ok ha]
    cases takes_of_attempt ha <;> simp [isClosed, close]

def holdsOf (h : Handle) (s : String) : Nat := if h.owner = some s then h.holds else 0

theorem owner_iff_holdsOf (hc : h.Consistent) : h.owner = some s ↔ 0 < h.holdsOf s := by
  by_cases ho : h.owner = some s
  · simp [holdsOf, ho, pos_of_ne_zero (hc.holds_ne_zero ho)]
  · simp [holdsOf, ho]

theorem holdsOf_next (hc : h.Consistent) (hu : u ≠ .close) (s : String) :
    (h.next u).holdsOf s + [(u, (h.attempt u).isOk)].count (.release s, true) =
      h.holdsOf s + [(u, (h.attempt u).isOk)].count (.acquire s, true) := by
  cases ha : h.attempt u with
  | error e =>
    rw [next_error ha]
    simp [Except.toBool]
  | ok h' =>
    rw [next_ok ha]
    cases takes_of_attempt ha with
    | @first t _ ho => by_cases hts : t = s <;> simp [holdsOf, ho, hts, Except.isOk, Except.toBool]
    | @again t _ ho => by_cases hts : t = s <;> simp [holdsOf, ho, hts, Except.toBool]
    | @release t ho =>
      have hpos := hc.holds_ne_zero ho
      by_cases hts : t = s
      · by_cases hlast : h.holds - 1 = 0
        · simp [holdsOf, ho, hts, hlast, Except.isOk, Except.toBool]
          omega
        · simp [holdsOf, ho, hts, hlast, Except.isOk, Except.toBool]
          omega
      · by_cases hlast : h.holds - 1 = 0 <;> simp [holdsOf, ho, hts]
    | read => simp
    | close => exact absurd rfl hu

/-! ## A run of uses -/

theorem run_append (us vs : List Use) : h.run (us ++ vs) = (h.run us).run vs := List.foldl_append

theorem Consistent.run (hc : h.Consistent) (us : List Use) : (h.run us).Consistent := by
  induction us generalizing h with
  | nil => exact hc
  | cons u us ih => exact ih (hc.next u)

theorem isClosed_run : (h.run us).isClosed ↔ h.isClosed ∨ .close ∈ us := by
  induction us generalizing h with
  | nil => simp [run]
  | cons u us ih =>
    rw [List.mem_cons, ← or_assoc, eq_comm (a := Use.close), ← isClosed_next]
    exact ih

theorem holdsOf_run (hc : h.Consistent) (hus : .close ∉ us) (s : String) :
    (h.run us).holdsOf s + (h.trace us).count (.release s, true) =
      h.holdsOf s + (h.trace us).count (.acquire s, true) := by
  induction us generalizing h with
  | nil => simp [run, trace]
  | cons u us ih =>
    obtain ⟨hu, hrest⟩ := not_or.1 (fun hor => hus (List.mem_cons.2 hor))
    have hstep := holdsOf_next hc (symm hu) s
    have htail := ih (hc.next u) hrest
    have hsplit (x : Use × Bool) : (h.trace (u :: us)).count x =
        [(u, (h.attempt u).isOk)].count x + ((h.next u).trace us).count x := by
      rw [← List.count_append]
      rfl
    rw [hsplit, hsplit, show h.run (u :: us) = (h.next u).run us from rfl]
    omega

/-- Whether the successful acquisitions of a stage outnumber its successful releases. -/
def Outnumbers (trace : List (Use × Bool)) (s : String) : Prop :=
  trace.count (.release s, true) < trace.count (.acquire s, true)

instance (trace : List (Use × Bool)) (s : String) : Decidable (Outnumbers trace s) :=
  inferInstanceAs (Decidable (_ < _))

/-- Counted from a moment at which the handle was free, the owner is the stage with more
acquisitions than releases. -/
theorem owner_run (hc : h.Consistent) (hfree : h.owner = none)
    (hopen : (h.run us).isClosed = false) :
    (h.run us).owner = some s ↔ Outnumbers (h.trace us) s := by
  have hus : .close ∉ us := fun hmem => by
    rw [isClosed_run.2 (.inr hmem)] at hopen
    cases hopen
  have hrun := holdsOf_run hc hus s
  have hstart : h.holdsOf s = 0 := by simp [holdsOf, hfree]
  rw [owner_iff_holdsOf (hc.run us), Outnumbers]
  omega

/-- What holds of a handle behind a run of uses. -/
structure SingleOwner (start : Handle) (us : List Use) : Prop where
  /-- Nobody owns the handle exactly when nothing is held. -/
  free_iff : (start.run us).owner = none ↔ (start.run us).holds = 0
  /-- While the handle is open, its owner is the stage whose acquisitions outnumber its releases
  since the handle was free. -/
  owner_iff : ∀ before since, us = before ++ since → (start.run before).owner = none →
    (start.run us).isClosed = false →
      ∀ s, (start.run us).owner = some s ↔ Outnumbers ((start.run before).trace since) s
  /-- There is one such stage at most. -/
  one_stage : ∀ before since, us = before ++ since → (start.run before).owner = none →
    (start.run us).isClosed = false →
      ∀ s t, Outnumbers ((start.run before).trace since) s →
      Outnumbers ((start.run before).trace since) t → s = t
  /-- A stage acquires the handle exactly when it is open and no other stage's. -/
  acquire_iff : ∀ s, ((start.run us).acquire s).isOk ↔
    (start.run us).isClosed = false ∧ ∀ o, (start.run us).owner = some o → o = s
  /-- A stage releases the handle exactly when it is the owner. -/
  release_iff : ∀ s, ((start.run us).release s).isOk ↔ (start.run us).owner = some s
  /-- Once the handle has been closed nothing but closing it succeeds. -/
  closed : .close ∈ us → ∀ s, ((start.run us).acquire s).isOk = false ∧
    ((start.run us).release s).isOk = false ∧ (start.run us).ir.isOk = false
  /-- A use that fails says what is wrong with the handle and changes nothing. -/
  failed : ∀ u e, (start.run us).attempt u = .error e →
    (∃ what, e = (start.run us).stale what) ∧ start.run (us ++ [u]) = start.run us

/-- A handle has a single owner, however the stages use it. -/
theorem single_owner (m : IrModule) (sources : List String) (us : List Use) :
    SingleOwner (.new m sources) us := by
  have hc (vs : List Use) : ((new m sources).run vs).Consistent := (consistent_new m sources).run vs
  have howner (before since : List Use) (hus : us = before ++ since)
      (hfree : ((new m sources).run before).owner = none)
      (hopen : ((new m sources).run us).isClosed = false)
      (s : String) :
      ((new m sources).run us).owner = some s ↔
      Outnumbers (((new m sources).run before).trace since) s := by
    subst hus
    rw [run_append] at hopen ⊢
    exact owner_run (hc before) hfree hopen
  constructor
  case free_iff => exact (hc us).free
  case owner_iff => exact howner
  case one_stage =>
    intro before since hus hfree hopen s t hs ht
    have howns := (howner before since hus hfree hopen s).2 hs
    rw [(howner before since hus hfree hopen t).2 ht] at howns
    exact (Option.some.inj howns).symm
  case acquire_iff => exact fun s => acquire_isOk
  case release_iff => exact fun s => release_isOk
  case closed =>
    intro hmem s
    have hclosed : ((new m sources).run us).isClosed = true := isClosed_run.2 (.inr hmem)
    have hnone : ((new m sources).run us).owner = none := (hc us).closed hclosed
    simp only [Bool.eq_false_iff, Ne, acquire_isOk, release_isOk, ir_isOk, hclosed, hnone]
    simp
  case failed =>
    intro u e ha
    refine ⟨attempt_error ha, ?_⟩
    rw [run_append]
    exact next_error ha

end CallAtlas.Handle
