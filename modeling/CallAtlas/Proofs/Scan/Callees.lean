import CallAtlas.Proofs.Ir.Parsed
import CallAtlas.Proofs.Ir.Targets
import CallAtlas.Proofs.Link.Closure
import CallAtlas.Proofs.Scan.Instructions

/-!
# Callees and the symbol table

A scan reads the callee of a call off the text of its instruction. In a module that refers to its
own symbols only, the target of the call is a symbol if it stands outside of string literals and is
spelled as a name. The callee is the spelling of the target and not its name, so the two agree
exactly if the spelling has no escapes: `callees_named`, and `escaped_unnamed` for a target with
one.
-/

namespace CallAtlas.Scan

open Ir Link List

variable {m : IrModule} {f : Function} {i : Instruction} {name : String}

theorem mem_symbolNames_of_function (hk : Keyed m) (hf : f ∈ m.functions.values) :
    f.name ∈ m.symbolNames := by
  obtain ⟨e, he, rfl⟩ := mem_map.1 hf
  rw [(hk.function e he).1]
  exact mem_append_left _ (mem_map_of_mem he)

theorem mem_symbolNames_of_globalRefs (hk : Keyed m) (hc : Closed m) (hf : f ∈ m.functions.values)
    (hi : i ∈ f.instructions) (hn : name ∈ globalRefs i.text) : name ∈ m.symbolNames := by
  by_cases hname : name = f.name
  · rw [hname]
    exact mem_symbolNames_of_function hk hf
  · have hsymbol : Symbol.function f ∈ symbolsInOrder m := mem_append_right _ (mem_map_of_mem hf)
    apply hc _ hsymbol
    show name ∈ f.references
    rw [Function.references, mem_filter, mem_eraseDups]
    refine ⟨mem_append_right _ (mem_flatMap.2 ⟨i, hi, hn⟩), by simpa using hname⟩

theorem mem_callInstructions (h : (f, i) ∈ callInstructions m) :
    f ∈ m.functions.values ∧ i ∈ f.instructions := by
  obtain ⟨f', hf', hi⟩ := mem_flatMap.1 h
  obtain ⟨i', hi', he⟩ := mem_map.1 hi
  obtain ⟨rfl, rfl⟩ := Prod.mk.inj he
  exact ⟨(mem_filter.1 hf').1, (mem_filter.1 hi').1⟩

theorem exists_standsFor {xs : List (Function × Instruction)} {found : List CallSite}
    {site : CallSite}
    (h : List.Forall₂ StandsFor xs found) (hs : site ∈ found) : ∃ x ∈ xs, StandsFor x site := by
  induction h with
  | nil => cases hs
  | @cons x site' xs found hx _ ih =>
    rcases mem_cons.1 hs with rfl | hs
    · exact ⟨x, mem_cons_self, hx⟩
    · obtain ⟨y, hy, hstands⟩ := ih hs
      exact ⟨y, mem_cons_of_mem x hy, hstands⟩

/-- What a callee names, if it is spelled `w` behind the text `before`. -/
structure Names (m : IrModule) (i : Instruction) (name : String) (before : List Char)
    (w : Spelling) : Prop where
  spelled : name = String.ofList w.raw
  /-- A name outside of literals is that of a symbol and a reference. -/
  symbol : terminated false before → w.isName →
    String.ofList w.name ∈ m.symbolNames ∧ String.ofList w.name ∈ globalRefs i.text
  /-- The callee is that name unless it is spelled with an escape. -/
  agrees : name = String.ofList w.name ↔ w.isEscaped = false

theorem names_of_targetAt {before after : List Char} {w : Spelling} (hk : Keyed m) (hc : Closed m)
    (hx : (f, i) ∈ callInstructions m) (hn : i.callee = some name) (h : i.TargetAt before w after) :
    Names m i name before w := by
  obtain ⟨hf, hi⟩ := mem_callInstructions hx
  obtain ⟨rfl, -⟩ := h.reads hn
  refine ⟨rfl, fun hb hw => ?_, ?_⟩
  · have href := h.mem_globalRefs hn hb hw
    exact ⟨mem_symbolNames_of_globalRefs hk hc hf hi href, href⟩
  · rw [← w.raw_eq_name_iff, String.ofList_inj]

/-- In a closed module the callee of a call is the name of a symbol and a reference of the
instruction, if it is spelled as a name, outside of literals and without escapes. This holds of all
sites that a scan finds, also of those before a location that makes it fail. -/
theorem callees_named (text identifier : String) (m : IrModule) (s : Memory) (before : List Call)
    (found : List CallSite) (hp : IrModule.parse text identifier = .ok m) (hc : Closed m)
    (hb : before <+: calls m) (hs : (walk m s before).2 = .ok found) :
    ∀ site ∈ found, ∀ name, site.callee = some name →
      ∃ f i, (f, i) ∈ callInstructions m ∧ StandsFor (f, i) site ∧
        (∃ before w after, i.TargetAt before w after) ∧
        ∀ before w after, i.TargetAt before w after → Names m i name before w := by
  intro site hsite name hname
  obtain ⟨rest, hrest⟩ := hb
  have hread : Forall₂ Call.ReadOff ((callInstructions m).take before.length) before := by
    have hall := calls_readOff m
    rw [← hrest] at hall
    exact forall₂_take_append _ _ _ hall
  obtain ⟨⟨f, i⟩, hx, hstands⟩ := exists_standsFor (standsFor_walk hread hs) hsite
  have hcallee : i.callee = some name := hstands.callee.symm.trans hname
  refine ⟨f, i, mem_of_mem_take hx, hstands, Instruction.exists_targetAt hcallee, ?_⟩
  intro before w after h
  exact names_of_targetAt (keyed_of_parse hp) hc (mem_of_mem_take hx) hcallee h

theorem exists_scanned (text : String) (P : IrModule → Prop) (Q : List CallSite → Prop)
    [DecidablePred P] [DecidablePred Q]
    (h : ((IrModule.parse text "").toOption.any fun m =>
      decide (P m) && (sites m {}).2.toOption.any fun found => decide (Q found)) = true) :
    ∃ m found, IrModule.parse text "" = .ok m ∧ (sites m {}).2 = .ok found ∧ P m ∧ Q found := by
  cases hp : IrModule.parse text "" with
  | error e =>
    rw [hp] at h
    cases h
  | ok m =>
    rw [hp] at h
    simp only [Except.toOption, Option.any_some, Bool.and_eq_true, decide_eq_true_eq] at h
    obtain ⟨hm, h⟩ := h
    cases hs : (sites m {}).2 with
    | error e =>
      rw [hs] at h
      cases h
    | ok found =>
      rw [hs] at h
      exact ⟨m, found, rfl, hs, hm, of_decide_eq_true h⟩

/-- A variadic call behind a return type, a call of a name in quotes and one through a constant
expression. -/
def sampleCalls : String :=
  "%t = type \x7b i32 \x7d\n@\"a b\" = global i32 0\ndefine %t @f(ptr %p) \x7b\n" ++
  "  %r = tail call %t (ptr, ...) @f(ptr c\"@x(\")\n  invoke void @\"a b\"()\n" ++
  "  call void bitcast (ptr @f to ptr)(i32 0)\n  ret %t %r\n\x7d\n"

set_option maxRecDepth 100000 in
theorem sampleCalls_named :
    ∃ m found, IrModule.parse sampleCalls "" = .ok m ∧ Closed m ∧ (sites m {}).2 = .ok found ∧
      found.map CallSite.callee = [some "f", some "a b", some "f"] ∧
      ∀ site ∈ found, ∀ name, site.callee = some name →
        ∃ f i, (f, i) ∈ callInstructions m ∧ StandsFor (f, i) site ∧
          (∃ before w after, i.TargetAt before w after) ∧
          ∀ before w after, i.TargetAt before w after → Names m i name before w := by
  obtain ⟨m, found, hp, hs, hc, hcallees⟩ := exists_scanned sampleCalls Closed
    (fun found => found.map CallSite.callee = [some "f", some "a b", some "f"]) (by decide +kernel)
  exact ⟨m, found, hp, hc, hs, hcallees,
    callees_named sampleCalls "" m {} (calls m) found hp hc prefix_rfl hs⟩

/-- A function whose name starts with the character of number one, and a call of it. -/
def escapedCall : String :=
  "define void @\"\\01f\"() \x7b\n  call void @\"\\01f\"()\n  ret void\n\x7d\n"

set_option maxRecDepth 100000 in
/-- The callee with an escape is no symbol of the module and no reference of its instruction. -/
theorem escaped_unnamed :
    ∃ m found site, IrModule.parse escapedCall "" = .ok m ∧ Closed m ∧ (sites m {}).2 = .ok found ∧
      site ∈ found ∧ site.callee = some "\\01f" ∧ m.symbolNames = ["\x01f"] ∧
      ∀ x ∈ callInstructions m, globalRefs x.2.text = ["\x01f"] := by
  obtain ⟨m, found, hp, hs, ⟨hc, hnames, hrefs⟩, hcallees⟩ := exists_scanned escapedCall
    (fun m => Closed m ∧ m.symbolNames = ["\x01f"] ∧ ∀ x ∈ callInstructions m,
      globalRefs x.2.text = ["\x01f"])
    (fun found => some "\\01f" ∈ found.map CallSite.callee) (by decide +kernel)
  obtain ⟨site, hsite, hcallee⟩ := mem_map.1 hcallees
  exact ⟨m, found, site, hp, hc, hs, hsite, hcallee, hnames, hrefs⟩

end CallAtlas.Scan
