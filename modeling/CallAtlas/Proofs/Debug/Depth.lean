import CallAtlas.Proofs.Debug.Resolving

/-!
# Long chains of inlined locations

A resolution follows a chain of inlined locations to a number that is remembered, or gives up at its
depth: `Resolves.within` for the first, `Resolves.resolve_fresh` for the second. So a chain that is
`Deep` can be resolved in pieces and not at once. `locationLine` has such chains.
-/

namespace CallAtlas.Debug

open Ir Text List

variable {metadata : Table Nat MetadataNode} {h k depth id : Nat} {memo memo' : Memo}
  {r : Except ResolveError (Option Location)}

variable {i n : Nat} {v : Option Location}

/-- A chain of inlined locations starts here that is longer than a resolution may follow. -/
def Deep (metadata : Table Nat MetadataNode) (depth id : Nat) : Prop :=
  ∃ chain : List Nat, (id :: chain).IsChain (InlinedAt metadata) ∧ depth ≤ chain.length

theorem Resolves.chain (hr : Resolves metadata h id r) :
    ∃ chain : List Nat, (id :: chain).IsChain (Follows metadata) ∧ chain.length = h := by
  induction h generalizing id r with
  | zero => exact ⟨[], .singleton _, rfl⟩
  | succ h ih =>
    obtain ⟨n, loc, call, _, hn, hp, hcall, -⟩ := hr.succ_inv
    obtain ⟨chain, hc, hl⟩ := ih hcall
    exact ⟨call :: chain, .cons_cons ⟨n, loc, hn, hp⟩ hc, by rw [length_cons, hl]⟩

/-- A chain that descends is no longer than the number it starts at. -/
theorem Descends.not_deep (h : Descends metadata) (hid : id < depth) :
    ¬ Deep metadata depth id := by
  have hlength : ∀ (chain : List Nat) (id : Nat), (id :: chain).IsChain (InlinedAt metadata) →
      chain.length ≤ id := by
    intro chain
    induction chain with
    | nil => exact fun id _ => Nat.zero_le id
    | cons call chain ih =>
      intro id hc
      obtain ⟨hcall, hc⟩ := isChain_cons_cons.1 hc
      have hlt := h.lt hcall
      have hle := ih call hc
      rw [length_cons]
      omega
  rintro ⟨chain, hc, hl⟩
  have hle := hlength chain id hc
  omega

theorem Resolves.deep (hr : Resolves metadata h id r) (hh : depth ≤ h) :
    Deep metadata depth id := by
  obtain ⟨chain, hc, hl⟩ := hr.chain
  exact ⟨chain, hc.imp fun _ _ h => h.inlinedAt, hl ▸ hh⟩

/-! ## Up to what is remembered -/

/-- A chain of inlined locations that comes to a remembered number after so many steps. -/
inductive Within (metadata : Table Nat MetadataNode) (memo : Memo) : Nat → Nat → Prop where
  | remembered {id : Nat} {v : Option Location} : memo.get? id = some v → Within metadata memo 0 id
  | inlined {k id call : Nat} {n : MetadataNode} {loc : Location} : metadata.get? id = some n →
      position metadata n = .ok (some ⟨loc, some call⟩) → Within metadata memo k call →
      Within metadata memo (k + 1) id

theorem Within.insert (hw : Within metadata memo k id) (i : Nat) (v : Option Location) :
    Within metadata (memo.insert i v) k id := by
  induction hw with
  | @remembered id w hv =>
    by_cases hi : i = id
    · exact .remembered (by rw [Table.get?_insert, if_pos hi])
    · exact .remembered (by rw [Table.get?_insert, if_neg hi, hv])
  | inlined hn hp _ ih => exact .inlined hn hp ih

theorem Resolves.within (hr : Resolves metadata h id r) (hw : Within metadata memo k id)
    (hk : k < depth)
    (hm : ∀ {i v}, memo.get? i = some v → Right metadata i v ∨ Above metadata h i) :
    (resolve metadata depth memo id).2 = r := by
  induction depth generalizing memo h k id r with
  | zero => cases hk
  | succ depth ih =>
    cases hv : memo.get? id with
    | some v =>
      have hg : Gives metadata (depth + 1) memo h id r := hr.gives_memo hv (hm hv)
      rcases hg.outcome with he | ⟨-, he⟩
      · exact he
      · rw [resolve_memo (Nat.succ_pos _) hv] at he
        cases he
    | none =>
      cases hw with
      | remembered hv' =>
        rw [hv] at hv'
        cases hv'
      | @inlined k id call n loc hn hp hw =>
        obtain ⟨h', r', rfl, rfl, hr'⟩ := hr.call hn hp
        rw [outcome_inlined hv hn hp,
          ih hr' (hw.insert id none) (Nat.lt_of_succ_lt_succ hk) (Above.insert hr hm)]

/-- What a call of a resolution does. -/
inductive Call (metadata : Table Nat MetadataNode) (depth : Nat) (memo : Memo) (id : Nat) :
    Memo × Except ResolveError (Option Location) → Prop where
  | remembered {v : Option Location} : memo.get? id = some v →
    Call metadata depth memo id (memo, .ok v)
  | atOnce {r : Except ResolveError (Option Location)} : memo.get? id = none →
    Resolves metadata 0 id r →
      Call metadata depth memo id (memo.insert id r.toOption.join, r)
  | failed {call : Nat} {memo' : Memo} {e : ResolveError} : memo.get? id = none →
    Follows metadata id call →
      resolve metadata depth (memo.insert id none) call = (memo', .error e) →
      Call metadata depth memo id (memo', .error e)
  | inlined {call : Nat} {memo' : Memo} {v : Option Location} {loc : Location} :
    memo.get? id = none →
      Follows metadata id call →
      resolve metadata depth (memo.insert id none) call = (memo', .ok v) →
      Call metadata depth memo id (memo'.insert id (some loc), .ok (some loc))

theorem resolve_call (metadata : Table Nat MetadataNode) (depth : Nat) (memo : Memo) (id : Nat) :
    Call metadata depth memo id (resolve metadata (depth + 1) memo id) := by
  cases hv : memo.get? id with
  | some v =>
    rw [resolve_memo (Nat.succ_pos _) hv]
    exact .remembered hv
  | none =>
    rcases resolves_or_follows metadata id with ⟨r, hr⟩ | ⟨call, n, loc, hn, hp⟩
    · rw [hr.at_once hv]
      exact .atOnce hv hr
    · cases hc : resolve metadata depth (memo.insert id none) call with
      | mk memo' o =>
        cases o with
        | error e =>
          rw [resolve_inlined_error hv hn hp hc]
          exact .failed hv ⟨n, loc, hn, hp⟩ hc
        | ok v =>
          rw [resolve_inlined hv hn hp hc]
          exact .inlined hv ⟨n, loc, hn, hp⟩ hc

/-- What was resolved is remembered. -/
theorem resolve_remembers (hc : resolve metadata depth memo id = (memo', .ok v)) :
    memo'.get? id = some v := by
  cases depth with
  | zero => cases hc
  | succ depth =>
    have hcall := resolve_call metadata depth memo id
    rw [hc] at hcall
    cases hcall with
    | remembered hv => exact hv
    | atOnce => simp [Except.toOption]
    | inlined => simp

theorem pos_of_resolve (hc : resolve metadata depth memo id = (memo', .ok v)) : 0 < depth := by
  cases depth with
  | zero => cases hc
  | succ depth => exact Nat.succ_pos depth

theorem resolve_keeps (hi : memo.get? i = some v) :
    (resolve metadata depth memo id).1.get? i = some v := by
  induction depth generalizing memo id with
  | zero => exact hi
  | succ depth ih =>
    have hinsert : ∀ {memo' : Memo} {w : Option Location}, memo.get? id = none →
        memo'.get? i = some v → (memo'.insert id w).get? i = some v := by
      intro memo' w hid hi'
      have hne : id ≠ i := by
        rintro rfl
        rw [hid] at hi
        cases hi
      rw [Table.get?_insert, if_neg hne, hi']
    have hc := resolve_call metadata depth memo id
    generalize resolve metadata (depth + 1) memo id = out at hc ⊢
    cases hc with
    | remembered => exact hi
    | atOnce hid => exact hinsert hid hi
    | @failed call memo' e hid _ hc =>
      have hkept : (resolve metadata depth (memo.insert id none) call).1.get? i = some _ :=
        ih (hinsert hid hi)
      rwa [hc] at hkept
    | @inlined call memo' _ loc hid _ hc =>
      have hkept : (resolve metadata depth (memo.insert id none) call).1.get? i = some _ :=
        ih (hinsert hid hi)
      rw [hc] at hkept
      exact hinsert hid hkept

/-! ## A line of inlined locations -/

/-- The location of number `k + 1`, inlined at that of number `k`. -/
def lineNode (k : Nat) : MetadataNode :=
  ⟨k + 1, "!DILocation(scope: !1, inlinedAt: !" ++ String.ofList (natDigits k) ++ ")"⟩

def lineFile : MetadataNode := ⟨0, "!DIFile(filename: \"a.c\", directory: \"/d\")"⟩

def lineScope : MetadataNode := ⟨1, "distinct !DISubprogram(file: !0)"⟩

/-- A file, a function in it and `n` locations in the function, each inlined at the one before; the
first is inlined at a location that is not there. -/
def locationLine (n : Nat) : Table Nat MetadataNode where
  entries :=
    (0, lineFile) :: (1, lineScope) :: (List.range n).map fun k => (k + 3, lineNode (k + 2))
  distinct := by
    have hnodup : ((List.range n).map (· + 3)).Nodup := nodup_range.map fun a b h => by
      simpa using h
    simpa [Function.comp_def] using hnodup

theorem forall_mem_locationLine {P : Nat × MetadataNode → Prop} (hfile : P (0, lineFile))
    (hscope : P (1, lineScope))
    (hline : ∀ k, P (k + 3, lineNode (k + 2))) (n : Nat) : ∀ e ∈ (locationLine n).entries, P e :=
  forall_mem_cons.2 ⟨hfile, forall_mem_cons.2 ⟨hscope, forall_mem_map.2 fun k _ => hline k⟩⟩

theorem recordHead?_lineNode (k : Nat) : recordHead? (lineNode k).text.toList =
    some ("DILocation".toList, ("scope: !1, inlinedAt: !".toList ++ natDigits k) ++ ')' :: []) := by
  have ht : (lineNode k).text.toList =
      "!DILocation(".toList ++
      (("scope: !1, inlinedAt: !".toList ++ natDigits k) ++ ')' :: []) := by
    simp [lineNode]
  rw [ht]
  rfl

theorem trimRight_natDigits (u : List Char) (k : Nat) :
    trimRight (u ++ natDigits k) = u ++ natDigits k := by
  have hlast : (u ++ natDigits k).getLast?.any isBlank = false := by
    have hne : natDigits k ≠ [] := Nat.toDigits_ne_nil
    rw [getLast?_append_of_ne_nil _ hne, getLast?_eq_getLast_of_ne_nil hne]
    exact isBare_not_isBlank (isBare_of_isDecimal (isDecimal_of_mem_natDigits (getLast_mem hne)))
  rw [trimRight_of_last hlast]

theorem fields_lineNode (k : Nat) : Ir.fields ("scope: !1, inlinedAt: !".toList ++ natDigits k) =
    ["scope: !1".toList, "inlinedAt: !".toList ++ natDigits k] := by
  have hbare : Token (natDigits k) := .bare fun c hc =>
    isBare_of_isNameChar (isNameChar_of_isAsciiDigit (isAsciiDigit_of_mem_natDigits hc))
  have hfields : fields ("scope: !1, inlinedAt: !".toList ++ natDigits k) =
      "scope: !1".toList :: fieldsFrom 0 " inlinedAt: !".toList.reverse
      (mark false (natDigits k)) := rfl
  have hlast := fieldsFrom_through (hbare.through 0) " inlinedAt: !".toList.reverse []
  rw [append_nil, map_fst_mark] at hlast
  rw [hfields, hlast, ← reverse_append]
  have htrim : trim (" inlinedAt: !".toList ++ natDigits k) = "inlinedAt: !".toList ++
      natDigits k :=
    trimRight_natDigits "inlinedAt: !".toList k
  show _ :: (let t := trim (reverse (reverse _)); if t = [] then [] else [t]) = _
  rw [reverse_reverse, htrim]
  rfl

theorem get?_fields_lineNode (k : Nat) (key : String) : (lineNode k).fields.get? key =
    if "inlinedAt" = key then some (String.ofList ('!' :: natDigits k)) else if "scope" = key
    then some "!1" else none := by
  have hcall : keyValue? ("inlinedAt: !".toList ++ natDigits k) =
      some ("inlinedAt".toList, '!' :: natDigits k) :=
    congrArg (fun v => some ("inlinedAt".toList, v)) (trimRight_natDigits ['!'] k)
  have hscope : keyValue? "scope: !1".toList = some ("scope".toList, "!1".toList) := rfl
  rw [get?_fields key (recordHead?_lineNode k) not_mem_nil, fields_lineNode]
  simp only [reverse_cons, reverse_nil, nil_append, cons_append, filterMap_cons, hcall, hscope,
    Option.map_some, filterMap_nil, String.ofList_toList, Table.find]

theorem fieldRef_inlinedAt_lineNode (k : Nat) :
    (lineNode k).fieldRef "inlinedAt" = .ok (some k) := by
  rw [fieldRef_eq, get?_fields_lineNode]
  have hvalue : refValue ('!' :: natDigits k) = .ok (some (digitsValue (natDigits k))) :=
    refValue_number Nat.toDigits_ne_nil fun c => isDecimal_of_mem_natDigits
  rw [digitsValue_natDigits] at hvalue
  simpa using hvalue

theorem nodeOf_of_fieldRef {n : MetadataNode} {key : String} (hr : n.fieldRef key = .ok (some i)) :
    nodeOf metadata n key = .ok (metadata.get? i) := by
  rw [nodeOf, hr]
  rfl

theorem walkScopes_line (h₀ : metadata.get? 0 = some lineFile) :
    walkScopes metadata maxScopes [] none (some lineScope) = .ok (some ("a.c", "/d"), none) := by
  have hfile : nodeOf metadata lineScope "file" = .ok (some lineFile) := by
    have href : lineScope.fieldRef "file" = .ok (some 0) := by decide +kernel
    rw [nodeOf_of_fieldRef href, h₀]
  have hunit : unitDirectory metadata lineScope = .ok none := by
    rfl
  show walkScopes metadata (255 + 1) [] none (some lineScope) = _
  rw [walkScopes, if_neg (by simp), hfile, hunit]
  simp only
  rfl

theorem position_lineNode (h₀ : metadata.get? 0 = some lineFile)
    (h₁ : metadata.get? 1 = some lineScope) (k : Nat) :
    position metadata (lineNode k) = .ok (some ⟨⟨"/d/a.c", 0, 0, "/d", none⟩, some k⟩) := by
  have hkind : (lineNode k).kind = "DILocation" := by
    rw [MetadataNode.kind_of_record (recordHead?_lineNode k), String.ofList_toList]
  have hscope : (lineNode k).fieldRef "scope" = .ok (some 1) := by
    rw [fieldRef_eq, get?_fields_lineNode, if_neg (by decide)]
    decide +kernel
  have hint : ∀ key, "inlinedAt" ≠ key → "scope" ≠ key → (lineNode k).fieldInt key = none := by
    intro key h h'
    rw [MetadataNode.fieldInt, get?_fields_lineNode, if_neg h, if_neg h']
    rfl
  have hnode : nodeOf metadata (lineNode k) "scope" = .ok (some lineScope) := by
    rw [nodeOf_of_fieldRef hscope, h₁]
  have hpath : sourcePath "/d" "a.c" = "/d/a.c" := by decide +kernel
  rw [position, if_neg (not_not.2 hkind), hnode]
  simp only [bind, Except.bind, walkScopes_line h₀, fieldRef_inlinedAt_lineNode, hpath,
    hint "line" (by decide) (by decide), hint "column" (by decide) (by decide)]
  rfl

theorem get?_locationLine_fixed (n : Nat) :
    (locationLine n).get? 0 = some lineFile ∧ (locationLine n).get? 1 = some lineScope := ⟨rfl, rfl⟩

theorem get?_locationLine (hi : i < n) : (locationLine n).get? (i + 3) = some (lineNode (i + 2)) :=
  Table.get?_eq_some.2 (.tail _ (.tail _ (mem_map.2 ⟨i, mem_range.2 hi, rfl⟩)))

theorem position_locationLine (n k : Nat) :
    position (locationLine n) (lineNode k) = .ok (some ⟨⟨"/d/a.c", 0, 0, "/d", none⟩, some k⟩) :=
  position_lineNode (get?_locationLine_fixed n).1 (get?_locationLine_fixed n).2 k

/-- The `i`-th location of the line was inlined `i` times. -/
theorem resolves_locationLine (hi : i ≤ n) : ∃ v, Resolves (locationLine n) i (i + 2) (.ok v) := by
  induction i with
  | zero =>
    refine ⟨none, .absent (Table.get?_eq_none.2 ?_)⟩
    simp [Table.keys, locationLine]
  | succ i ih =>
    obtain ⟨v, hr⟩ := ih (Nat.le_of_succ_le hi)
    exact ⟨_, .inlined (get?_locationLine hi) (position_locationLine n (i + 2)) hr⟩

theorem within_locationLine {j : Nat} (hv : memo.get? (i + 2) = some v) (hj : i + j ≤ n) :
    Within (locationLine n) memo j (i + j + 2) := by
  induction j with
  | zero => exact .remembered hv
  | succ j ih =>
    exact .inlined (get?_locationLine hj) (position_locationLine n _) (ih (Nat.le_of_succ_le hj))

theorem descends_locationLine (n : Nat) : Descends (locationLine n) := by
  refine forall_mem_locationLine (by decide +kernel) (by decide +kernel) (fun k => ?_) n
  simp [fieldRef_inlinedAt_lineNode, Except.toOption]

end CallAtlas.Debug
