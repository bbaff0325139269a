import CallAtlas.Proofs.Ir.Linkage
import CallAtlas.Proofs.Ir.RoundTrip

/-!
# Modules that were read from a text

The tables of a module that was read are `Keyed`: functions, global values and nodes stand under
their own names and numbers.
-/

namespace CallAtlas.Ir

variable {m : IrModule} {text identifier : String}

/-! ## Tables -/

theorem Drawn.spaced {f : Function} (h : Drawn f) : f.Spaced := by
  cases h with
  | declared _ hw =>
    unfold Function.Spaced Function.keyword
    rw [isDeclaration_of_declare hw]
    exact List.isPrefixOf_iff_prefix.1 hw
  | defined _ hw _ =>
    unfold Function.Spaced Function.keyword
    rw [isDeclaration_of_define hw]
    exact List.isPrefixOf_iff_prefix.1 hw

/-- Functions, global values and nodes stand under their own names and numbers, and the header of
each function has a space behind its keyword. -/
structure Keyed (m : IrModule) : Prop where
  function : ∀ e ∈ m.functions.entries, e.2.name = e.1 ∧ e.2.Spaced
  global : ∀ e ∈ m.globals.entries, e.2.name = e.1
  node : ∀ e ∈ m.metadata.entries, e.2.id = e.1

theorem keyed_of_parse (h : IrModule.parse text identifier = .ok m) : Keyed m := by
  have hf := (fromLines_of_parse h).1
  refine ⟨?_, ?_, ?_⟩
  · intro e he
    obtain ⟨hn, hd⟩ := hf.functions e he
    exact ⟨hn, hd.spaced⟩
  · exact fun e he => (hf.globals e he).1
  · exact fun e he => (hf.metadata e he).1

theorem Keyed.wellNamed (hm : Keyed m) (hd : ∀ x ∈ m.functions.keys, x ∉ m.globals.keys) :
    m.WellNamed :=
  ⟨fun e he => ⟨(hm.function e he).1, (hm.function e he).2.headed⟩, hm.global, hd⟩

end CallAtlas.Ir
