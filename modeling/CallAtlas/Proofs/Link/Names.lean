import CallAtlas.Link.Merge
import CallAtlas.Proofs.Table

/-!
# New names

A new name is an old one with a number behind it that nothing else is called, `fresh_not_mem`. The
new names of local symbols are decided one shared name after the other, and each new name is taken
for those that follow. Still no name competes with another, not even `a` with `a.1`: a candidate for
a new name tells whose it is, `eq_of_numbered_eq`. So each gets the new name that it would get
alone, `get?_localRenaming`, and exactly the local symbols with a shared name move, each on one
side, to names that no symbol of either module has and that differ from each other,
`localRenaming_sound`.
-/

namespace CallAtlas.Link

open Ir List

variable {present : Table String String} {x y : String} {es : List (String × String)} {r : Renaming}

/-- The candidates for a new name. -/
def numbered (name : String) (n : Nat) : String :=
  name ++ "." ++ String.ofList (Text.natDigits (n + 1))

theorem numbered_injective (name : String) : Function.Injective (numbered name) := by
  intro m n h
  have hl := congrArg String.toList h
  simp only [numbered, String.toList_append, String.toList_ofList] at hl
  have hd : Nat.toDigits 10 (m + 1) = Nat.toDigits 10 (n + 1) := append_cancel_left hl
  have hv := congrArg (fun ds => Nat.ofDigitChars 10 ds 0) hd
  simp only [Nat.ofDigitChars_ten_toDigits] at hv
  omega

/-- Among one candidate more than there are names taken, one is not taken. -/
theorem exists_numbered_not_mem (name : String) (taken : List String) :
    ∃ n ∈ List.range (taken.length + 1), numbered name n ∉ taken := by
  by_contra h
  have hsub : (range (taken.length + 1)).map (numbered name) ⊆ taken := by
    intro y hy
    obtain ⟨n, hn, rfl⟩ := mem_map.1 hy
    by_contra hy
    exact h ⟨n, hn, hy⟩
  have hd : ((range (taken.length + 1)).map (numbered name)).Nodup :=
    nodup_range.map (numbered_injective name)
  have hl := (subperm_of_subset hd hsub).length_le
  simp at hl

theorem fresh_least (name : String) (taken : List String) :
    ∃ n, fresh name taken = numbered name n ∧
    numbered name n ∉ taken ∧ ∀ m < n, numbered name m ∈ taken := by
  show ∃ n, numbered name (((range (taken.length + 1)).find? fun n =>
    !taken.contains (numbered name n)).getD taken.length) = numbered name n ∧ _
  cases h : (range (taken.length + 1)).find? fun n => !taken.contains (numbered name n) with
  | some n =>
    obtain ⟨hn, -, hleast⟩ := find?_range_eq_some.1 h
    exact ⟨n, rfl, by simpa using hn, fun m hm => by simpa using hleast m hm⟩
  | none =>
    obtain ⟨n, hn, hy⟩ := exists_numbered_not_mem name taken
    have := find?_eq_none.1 h n hn
    simp [hy] at this

theorem fresh_spec (name : String) (taken : List String) :
    ∃ n, fresh name taken = numbered name n ∧ numbered name n ∉ taken := by
  obtain ⟨n, h, hn, -⟩ := fresh_least name taken
  exact ⟨n, h, hn⟩

theorem fresh_not_mem (name : String) (taken : List String) : fresh name taken ∉ taken := by
  obtain ⟨n, h, hn⟩ := fresh_spec name taken
  rwa [h]

theorem dropWhile_numbered (x : String) (n : Nat) :
    (numbered x n).toList.reverse.dropWhile (· != '.') = '.' :: x.toList.reverse := by
  have hdigits : ∀ c ∈ (Text.natDigits (n + 1)).reverse, (c != '.') := by
    intro c hc
    have hd := Nat.isDigit_of_mem_toDigits (by omega) (by omega) (mem_reverse.1 hc)
    rw [bne_iff_ne]
    rintro rfl
    cases hd
  simp only [numbered, String.toList_append, String.toList_ofList, reverse_append]
  rw [dropWhile_append_of_pos hdigits]
  rfl

theorem eq_of_numbered_eq {m n : Nat} (h : numbered x m = numbered y n) : x = y := by
  have hd := dropWhile_numbered x m
  rw [h, dropWhile_numbered] at hd
  exact String.toList_inj.1 (reverse_injective (cons.inj hd).2).symm

theorem fresh_congr {taken taken' : List String}
    (h : ∀ n, numbered x n ∈ taken ↔ numbered x n ∈ taken') :
    fresh x taken = fresh x taken' := by
  obtain ⟨n, hf, hn, hleast⟩ := fresh_least x taken
  obtain ⟨n', hf', hn', hleast'⟩ := fresh_least x taken'
  rcases lt_trichotomy n n' with hlt | rfl | hlt
  · exact absurd ((h n).2 (hleast' n hlt)) hn
  · rw [hf, hf']
  · exact absurd ((h n').1 (hleast n' hlt)) hn'

/-! ## Types -/

/-- What holds of new names that were given one after the other to types that are present and
incoming. -/
structure Renaming.Sound (present incoming : List String) (r : Renaming) : Prop where
  /-- No name that was there is given anew. -/
  taken : ∀ y ∈ present ++ incoming, y ∈ r.taken
  /-- Old names are present and incoming. -/
  shared : ∀ {x y}, r.mapping.get? x = some y → x ∈ present ∧ x ∈ incoming
  /-- A new name is an old one with a number behind it, and it is new. -/
  only : ∀ {x y}, r.mapping.get? x = some y → y ∉ present ++ incoming ∧ ∃ n, y = numbered x n

/-- Decides about one type: it gets a new name if it is present with another body. -/
def Renaming.decide (present : Table String String) (r : Renaming) (e : String × String) :
    Renaming :=
  match present.get? e.1 with
  | none => r
  | some body => if body = renameTypes r.mapping.get? e.2 then r else r.add e.1

namespace Renaming.Sound

variable {names incoming : List String} {present : Table String String} {r : Renaming}
  {es : List (String × String)}

/-- No new name is given twice. -/
theorem inj (h : r.Sound names incoming) {x' : String} (hx : r.mapping.get? x = some y)
    (hx' : r.mapping.get? x' = some y) : x = x' := by
  obtain ⟨-, m, hm⟩ := h.only hx
  obtain ⟨-, n, hn⟩ := h.only hx'
  exact eq_of_numbered_eq (hm.symm.trans hn)

theorem add (h : r.Sound names incoming) (hx : x ∈ names) (hx' : x ∈ incoming) :
    (r.add x).Sound names incoming := by
  refine ⟨fun y hy => mem_cons_of_mem _ (h.taken y hy), fun {x' y} hg => ?_,
    fun {x' y} hg => ?_⟩ <;>
    rw [Renaming.add, Table.get?_insert] at hg <;> split_ifs at hg with he
  · exact he ▸ ⟨hx, hx'⟩
  · exact h.shared hg
  · obtain rfl := Option.some.inj hg
    obtain ⟨n, hn, hnew⟩ := fresh_spec x r.taken
    exact ⟨fun hk => hnew (hn ▸ h.taken _ hk), n, he ▸ hn⟩
  · exact h.only hg

theorem decide (h : r.Sound present.keys incoming) {e : String × String} (he : e.1 ∈ incoming) :
    (r.decide present e).Sound present.keys incoming := by
  unfold Renaming.decide
  split
  · exact h
  · next body hb =>
    split_ifs
    · exact h
    · exact h.add (Table.mem_keys_of_get? hb) he

theorem foldl (h : r.Sound present.keys incoming) (hes : ∀ e ∈ es, e.1 ∈ incoming) :
    (es.foldl (Renaming.decide present) r).Sound present.keys incoming :=
  foldlRecOn es _ h fun _ hr e he => hr.decide (hes e he)

theorem start (names incoming : List String) :
    Renaming.Sound names incoming ⟨names ++ incoming, Table.empty⟩ :=
  ⟨fun _ hy => hy, nofun, nofun⟩

end Renaming.Sound

theorem Renaming.get?_decide {e : String × String}
    (h : (r.decide present e).mapping.get? x = none) : r.mapping.get? x = none := by
  unfold decide at h
  split at h
  · exact h
  · split_ifs at h
    · exact h
    · rw [add, Table.get?_insert] at h
      split_ifs at h
      exact h

theorem Renaming.get?_foldl
    (h : (es.foldl (Renaming.decide present) r).mapping.get? x = none) :
    r.mapping.get? x = none := by
  induction es generalizing r with
  | nil => exact h
  | cons e es ih => exact get?_decide (ih h)

/-- A type that is present and keeps its name was found to have the same body, after the renamings
decided before. -/
theorem Renaming.Sound.kept {incoming : List String}
    (h : r.Sound present.keys incoming) (hes : ∀ e ∈ es, e.1 ∈ incoming)
    {e : String × String} (he : e ∈ es) {body : String} (hb : present.get? e.1 = some body)
    (hn : (es.foldl (Renaming.decide present) r).mapping.get? e.1 = none) :
    ∃ r0 : Renaming, r0.Sound present.keys incoming ∧ body = renameTypes r0.mapping.get? e.2 := by
  induction es generalizing r with
  | nil => cases he
  | cons a es ih =>
    obtain ⟨ha, hes⟩ := forall_mem_cons.1 hes
    rcases mem_cons.1 he with rfl | he
    · have hd : (r.decide present e).mapping.get? e.1 = none := get?_foldl hn
      unfold Renaming.decide at hd
      simp only [hb] at hd
      split_ifs at hd with heq
      · exact ⟨r, h, heq⟩
      · rw [Renaming.add, Table.get?_insert, if_pos rfl] at hd
        cases hd
    · exact ih (h.decide ha) hes he hn

theorem typeRenaming_eq (dest src : IrModule) : typeRenaming dest src =
    src.types.entries.foldl (Renaming.decide dest.types) ⟨dest.types.keys ++ src.types.keys,
      Table.empty⟩ := rfl

theorem typeRenaming_sound (dest src : IrModule) :
    (typeRenaming dest src).Sound dest.types.keys src.types.keys := by
  exact (Renaming.Sound.start _ _).foldl fun e he => mem_map_of_mem he

/-! ## Local symbols -/

/-- The two modules of a join. -/
inductive Side where
  | source
  | dest
  deriving DecidableEq

/-- Whether the symbol of a name is there and local. -/
def isLocalIn (m : IrModule) (x : String) : Bool := (m.symbol? x).any Symbol.isLocal

/-- Which side gives up a shared name. -/
def yielder (dest src : IrModule) (x : String) : Option Side :=
  if isLocalIn src x then some .source else if isLocalIn dest x then some .dest else none

theorem isLocalIn_of_yielder_source {dest src : IrModule} (h : yielder dest src x = some .source) :
    isLocalIn src x := by
  unfold yielder at h
  split_ifs at h with hs hd
  · exact hs
  · cases h

theorem isLocalIn_of_yielder_dest {dest src : IrModule} (h : yielder dest src x = some .dest) :
    isLocalIn dest x := by
  unfold yielder at h
  split_ifs at h with hs hd
  · cases h
  · exact hd

namespace LocalRenaming

/-- The new names on one side. -/
def side (r : LocalRenaming) : Side → Table String String
  | .source => r.source
  | .dest => r.dest

/-- What holds when the names of a list have been decided, with `known` the names of all symbols. -/
structure Sound (dest src : IrModule) (known decided : List String) (r : LocalRenaming) : Prop where
  /-- Every local symbol with a decided name has a new name. -/
  total : ∀ x ∈ decided, ∀ s, yielder dest src x = some s → ((r.side s).get? x).isSome
  /-- Only local symbols with a decided name have one, and it is new. -/
  only : ∀ {s x y}, (r.side s).get? x = some y →
    x ∈ decided ∧ yielder dest src x = some s ∧ y ∉ known ∧ ∃ n, y = numbered x n

variable {dest src : IrModule} {known decided : List String} {r : LocalRenaming}

/-- No new name is given twice. -/
theorem Sound.inj (h : r.Sound dest src known decided) {s s' : Side} {x' : String}
    (hx : (r.side s).get? x = some y) (hx' : (r.side s').get? x' = some y) : s = s' ∧ x = x' := by
  obtain ⟨-, hs, -, m, hm⟩ := h.only hx
  obtain ⟨-, hs', -, n, hn⟩ := h.only hx'
  obtain rfl := eq_of_numbered_eq (hm.symm.trans hn)
  exact ⟨Option.some.inj (hs.symm.trans hs'), rfl⟩

def move (r : LocalRenaming) (s : Side) (x : String) : LocalRenaming :=
  let new := fresh x r.taken
  match s with
  | .source => { r with taken := new :: r.taken, source := r.source.insert x new }
  | .dest => { r with taken := new :: r.taken, dest := r.dest.insert x new }

theorem decide_eq (r : LocalRenaming) (x : String) :
    r.decide dest src x = match yielder dest src x with
      | some s => r.move s x
      | none => r := by
  have hd : r.decide dest src x = if isLocalIn src x then r.move .source x
      else if isLocalIn dest x then r.move .dest x else r := rfl
  rw [hd]
  unfold yielder
  split_ifs <;> rfl

theorem taken_move (r : LocalRenaming) (s : Side) (x : String) :
    (r.move s x).taken = fresh x r.taken :: r.taken := by
  cases s <;> rfl

theorem get?_move (r : LocalRenaming) (s s' : Side) (x x' : String) :
    ((r.move s x).side s').get? x' = if s = s' ∧
    x = x' then some (fresh x r.taken) else (r.side s').get? x' := by
  cases s <;> cases s' <;> simp [move, side]

end LocalRenaming

section alone

variable {dest src : IrModule} {known decided shared : List String} {r : LocalRenaming}

/-- What holds when the names of a list have been decided: each has the new name that it would get
alone. -/
structure LocalRenaming.Alone (dest src : IrModule) (known decided : List String)
    (r : LocalRenaming) : Prop where
  taken : ∀ y, y ∈ r.taken ↔ y ∈ known ∨ ∃ x ∈ decided, (yielder dest src x).isSome ∧
    y = fresh x known
  get : ∀ s x, (r.side s).get? x =
    if x ∈ decided ∧ yielder dest src x = some s then some (fresh x known) else none

namespace LocalRenaming.Alone

theorem fresh_eq (h : Alone dest src known decided r) (hx : x ∉ decided) :
    fresh x r.taken = fresh x known := by
  refine fresh_congr fun n => ?_
  rw [h.taken]
  refine or_iff_left ?_
  rintro ⟨x', hx', -, he⟩
  exact hx (eq_of_numbered_eq he ▸ hx')

theorem decide (h : Alone dest src known decided r) (hx : x ∉ decided) :
    Alone dest src known (x :: decided) (r.decide dest src x) := by
  rw [decide_eq]
  cases hy : yielder dest src x with
  | none =>
    constructor
    · intro y
      simp [h.taken, hy]
    · intro s x'
      rw [h.get]
      by_cases he : x' = x
      · subst he
        simp [hy]
      · simp [he]
  | some s =>
    constructor
    · intro y
      simp only [taken_move, mem_cons, h.fresh_eq hx, h.taken, exists_eq_or_imp, hy]
      tauto
    · intro s' x'
      simp only [get?_move, h.fresh_eq hx, h.get]
      by_cases he : x = x'
      · subst he
        simp [hx, hy]
      · simp [he, Ne.symm he]

theorem foldl (h : Alone dest src known decided r) (hd : shared.Nodup)
    (hapart : ∀ x ∈ shared, x ∉ decided) :
    Alone dest src known (shared.reverse ++ decided)
      (shared.foldl (LocalRenaming.decide dest src) r) := by
  induction shared generalizing decided r with
  | nil => exact h
  | cons x shared ih =>
    obtain ⟨hx, hd⟩ := nodup_cons.1 hd
    obtain ⟨hx', hapart⟩ := forall_mem_cons.1 hapart
    rw [reverse_cons, append_assoc]
    refine ih (h.decide hx') hd fun y hy => ?_
    rintro (_ | ⟨_, hy'⟩)
    · exact hx hy
    · exact hapart y hy hy'

end LocalRenaming.Alone

theorem localRenaming_alone (dest src : IrModule) (hd : shared.Nodup) : LocalRenaming.Alone dest src
    (dest.symbolNames ++ src.symbolNames) shared.reverse (localRenaming dest src shared) := by
  have h : LocalRenaming.Alone dest src (dest.symbolNames ++ src.symbolNames) []
      ⟨dest.symbolNames ++ src.symbolNames, Table.empty, Table.empty⟩ := by
    constructor
    · simp
    · intro s x
      cases s <;> simp [LocalRenaming.side]
  have hrun := h.foldl hd fun x _ => not_mem_nil
  rwa [append_nil] at hrun

theorem get?_localRenaming (hd : shared.Nodup) (s : Side) (x : String) :
    ((localRenaming dest src shared).side s).get? x =
      if x ∈ shared ∧ yielder dest src x = some s
      then some (fresh x (dest.symbolNames ++ src.symbolNames)) else none := by
  simp only [(localRenaming_alone dest src hd).get, mem_reverse]

theorem localRenaming_sound (dest src : IrModule) (hd : shared.Nodup) : LocalRenaming.Sound dest src
    (dest.symbolNames ++ src.symbolNames) shared (localRenaming dest src shared) := by
  refine ⟨fun x hx s hs => ?_, fun {s x y} hg => ?_⟩
  · rw [get?_localRenaming hd, if_pos ⟨hx, hs⟩]
    rfl
  · rw [get?_localRenaming hd] at hg
    split_ifs at hg with hx
    obtain rfl := Option.some.inj hg
    obtain ⟨n, hn, -⟩ := fresh_spec x (dest.symbolNames ++ src.symbolNames)
    exact ⟨hx.1, hx.2, fresh_not_mem _ _, n, hn⟩

end alone

end CallAtlas.Link
