/-!
# Tables

Finite maps that keep the order in which their keys first came in. Writing to a key that is present
keeps its place.
-/

namespace CallAtlas

/-- Entries in the order of insertion, with different keys. -/
structure Table (κ ν : Type) where
  entries : List (κ × ν)
  distinct : (entries.map Prod.fst).Nodup

namespace Table

variable {κ ν μ : Type}

theorem ext {s t : Table κ ν} (h : s.entries = t.entries) : s = t := by
  cases s; cases t; simp_all

instance [DecidableEq κ] [DecidableEq ν] : DecidableEq (Table κ ν) := fun s t =>
  if h : s.entries = t.entries then isTrue (ext h) else isFalse fun e => h (e ▸ rfl)

def empty : Table κ ν := ⟨[], by simp⟩

instance : Inhabited (Table κ ν) := ⟨empty⟩

instance : EmptyCollection (Table κ ν) := ⟨empty⟩

def keys (t : Table κ ν) : List κ := t.entries.map Prod.fst

def values (t : Table κ ν) : List ν := t.entries.map Prod.snd

def size (t : Table κ ν) : Nat := t.entries.length

def isEmpty (t : Table κ ν) : Bool := t.entries.isEmpty

section lookup

variable [DecidableEq κ]

/-- The value of the first entry with a key. -/
def find (k : κ) : List (κ × ν) → Option ν
  | [] => none
  | (k', v) :: r => if k' = k then some v else find k r

def get? (t : Table κ ν) (k : κ) : Option ν := find k t.entries

def contains (t : Table κ ν) (k : κ) : Bool := (t.get? k).isSome

/-- The pairs with `v` at the key `k`: in place if `k` is there, else at the end. -/
def write (k : κ) (v : ν) : List (κ × ν) → List (κ × ν)
  | [] => [(k, v)]
  | (k', v') :: r => if k' = k then (k, v) :: r else (k', v') :: write k v r

theorem find_eq_none {k : κ} {es : List (κ × ν)} : find k es = none ↔ k ∉ es.map Prod.fst := by
  induction es with
  | nil => simp [find]
  | cons e r ih =>
    by_cases h : e.1 = k
    · simp [find, h]
    · simp [find, h, ih, Ne.symm h]

theorem map_fst_write (k : κ) (v : ν) (es : List (κ × ν)) :
    (write k v es).map Prod.fst =
      if k ∈ es.map Prod.fst then es.map Prod.fst else es.map Prod.fst ++ [k] := by
  induction es with
  | nil => simp [write]
  | cons e r ih =>
    by_cases h : e.1 = k
    · simp [write, h]
    · by_cases hk : k ∈ r.map Prod.fst
      · simp [write, h, ih, hk]
      · simp [write, h, ih, hk, Ne.symm h]

theorem nodup_write {k : κ} {v : ν} {es : List (κ × ν)} (h : (es.map Prod.fst).Nodup) :
    ((write k v es).map Prod.fst).Nodup := by
  rw [map_fst_write]
  split
  · exact h
  · next hk =>
    rw [List.nodup_append]
    refine ⟨h, by simp, ?_⟩
    intro a ha b hb hab
    simp only [List.mem_singleton] at hb
    exact hk (hb ▸ hab ▸ ha)

/-- The table with `v` at `k`; a key that is present keeps its place. -/
def insert (t : Table κ ν) (k : κ) (v : ν) : Table κ ν :=
  ⟨write k v t.entries, nodup_write t.distinct⟩

/-- Puts an entry behind the others unless its key is there. -/
def insertNew (t : Table κ ν) (k : κ) (v : ν) : Table κ ν :=
  if t.contains k then t else t.insert k v

def insertMany (t : Table κ ν) (es : List (κ × ν)) : Table κ ν :=
  es.foldl (fun acc e => acc.insert e.1 e.2) t

/-- The table of a list of pairs: of two pairs with one key the later gives the value. -/
def ofList (es : List (κ × ν)) : Table κ ν := insertMany empty es

end lookup

theorem nodup_filter_keys {es : List (κ × ν)} (p : κ × ν → Bool) (h : (es.map Prod.fst).Nodup) :
    ((es.filter p).map Prod.fst).Nodup :=
  h.sublist (List.filter_sublist.map _)

def filter (t : Table κ ν) (p : κ → ν → Bool) : Table κ ν :=
  ⟨t.entries.filter fun e => p e.1 e.2, nodup_filter_keys _ t.distinct⟩

def erase [DecidableEq κ] (t : Table κ ν) (k : κ) : Table κ ν := t.filter fun k' _ => k' ≠ k

def map (t : Table κ ν) (f : ν → μ) : Table κ μ :=
  ⟨t.entries.map fun e => (e.1, f e.2), by
    have h : (t.entries.map fun e => (e.1, f e.2)).map Prod.fst = t.entries.map Prod.fst := by
      simp [List.map_map, Function.comp_def]
    rw [h]; exact t.distinct⟩

/-! ## The view -/

@[simp] theorem keys_map (t : Table κ ν) (f : ν → μ) : (t.map f).keys = t.keys := by
  simp [keys, map, List.map_map, Function.comp_def]

section view

variable [DecidableEq κ]

@[simp] theorem get?_empty (k : κ) : (empty : Table κ ν).get? k = none := rfl

theorem find_write (k k' : κ) (v : ν) (es : List (κ × ν)) :
    find k' (write k v es) = if k = k' then some v else find k' es := by
  induction es with
  | nil => simp [find, write]
  | cons e r ih =>
    by_cases h : e.1 = k
    · by_cases hk : k = k' <;> simp [find, write, h, hk]
    · by_cases hk : k = k'
      · subst hk; simp [find, write, h, ih]
      · simp [find, write, h, ih, hk]

@[simp] theorem get?_insert (t : Table κ ν) (k k' : κ) (v : ν) :
    (t.insert k v).get? k' = if k = k' then some v else t.get? k' :=
  find_write k k' v t.entries

theorem find_filter_ne (k k' : κ) (es : List (κ × ν)) :
    find k' (es.filter fun e => e.1 ≠ k) = if k = k' then none else find k' es := by
  induction es with
  | nil => simp [find]
  | cons e r ih =>
    by_cases h : e.1 = k
    · simp only [h, ne_eq, not_true_eq_false, decide_false, Bool.false_eq_true, not_false_eq_true,
        List.filter_cons_of_neg, ih]
      by_cases hk : k = k'
      · simp [hk]
      · simp [hk, find, h]
    · simp only [ne_eq, h, not_false_eq_true, decide_true, List.filter_cons_of_pos, find, ih]
      by_cases hk : k = k'
      · subst hk; simp [h]
      · simp [hk]

@[simp] theorem get?_erase (t : Table κ ν) (k k' : κ) :
    (t.erase k).get? k' = if k = k' then none else t.get? k' :=
  find_filter_ne k k' t.entries

theorem get?_eq_none {t : Table κ ν} {k : κ} : t.get? k = none ↔ k ∉ t.keys := find_eq_none

theorem contains_eq_true {t : Table κ ν} {k : κ} : t.contains k = true ↔ k ∈ t.keys := by
  have h := @get?_eq_none κ ν _ t k
  cases hg : t.get? k with
  | none => simp [contains, hg, h.1 hg]
  | some v =>
    have : k ∈ t.keys := Decidable.byContradiction fun hn => by simp [h.2 hn] at hg
    simp [contains, hg, this]

@[simp] theorem get?_map (t : Table κ ν) (f : ν → μ) (k : κ) :
    (t.map f).get? k = (t.get? k).map f := by
  show find k (t.entries.map fun e => (e.1, f e.2)) = (find k t.entries).map f
  induction t.entries with
  | nil => rfl
  | cons e r ih => by_cases h : e.1 = k <;> simp [find, h, ih]

end view

end Table

end CallAtlas
