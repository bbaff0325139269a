/-!
# Computations that succeed

What ran on the way to a result that is no error: the parts of a computation, and the steps of a
loop.
-/

namespace CallAtlas

variable {ε α β σ : Type} {x : Except ε α} {b : β} {f : σ → α → Except ε σ} {a : α} {as : List α}
  {s t : σ}

theorem bind_eq_ok {f : α → Except ε β} (h : x >>= f = .ok b) : ∃ a, x = .ok a ∧ f a = .ok b := by
  cases x with
  | error e => cases h
  | ok a => exact ⟨a, rfl, h⟩

theorem exists_eq_ok (h : x.isOk = true) : ∃ a, x = .ok a := by
  cases x with
  | error e => cases h
  | ok a => exact ⟨a, rfl⟩

theorem map_eq_ok {f : α → β} (h : x.map f = .ok b) : ∃ a, x = .ok a ∧ f a = b := by
  cases x with
  | error e => cases h
  | ok a => exact ⟨a, rfl, Except.ok.inj h⟩

theorem foldlM_cons_ok (h : (a :: as).foldlM f s = .ok t) :
    ∃ s', f s a = .ok s' ∧ as.foldlM f s' = .ok t := by
  rw [List.foldlM_cons] at h
  exact bind_eq_ok h

/-- What each step keeps, the loop keeps. -/
theorem foldlM_ok {P : σ → Prop} (hstep : ∀ a ∈ as, ∀ {s s'}, P s → f s a = .ok s' → P s')
    (hs : P s) (h : as.foldlM f s = .ok t) : P t := by
  induction as generalizing s with
  | nil =>
    obtain rfl := Except.ok.inj h
    exact hs
  | cons a as ih =>
    obtain ⟨s', hs', h⟩ := foldlM_cons_ok h
    exact ih (fun a ha => hstep a (List.mem_cons_of_mem _ ha)) (hstep a List.mem_cons_self hs hs') h

end CallAtlas
