import CallAtlas.Table
import Mathlib

/-!
# What tables hold

The view `get?` of tables that are built from lists of pairs. `get?_eq_some` ties the view to the
entries, `get?_insertMany` says that of two pairs with one key the later counts, and
`get?_ofList_rekey` what a table holds whose keys were renamed.
-/

namespace CallAtlas.Table

variable {κ κ' ν μ : Type} [DecidableEq κ] [DecidableEq κ']

variable {es : List (κ × ν)} {k : κ} {new : κ → κ'} {t : Table κ ν} {v : ν}

theorem find_append (k : κ) (es fs : List (κ × ν)) :
    find k (es ++ fs) = (find k es).or (find k fs) := by
  induction es with
  | nil => simp [find]
  | cons e r ih =>
    by_cases h : e.1 = k
    · simp [find, h]
    · simp [find, h, ih]

theorem mem_of_find (h : find k es = some v) : (k, v) ∈ es := by
  induction es with
  | nil => simp [find] at h
  | cons e r ih =>
    by_cases he : e.1 = k
    · simp only [find, he, if_true, Option.some.injEq] at h
      subst h
      simp [← he]
    · simp only [find, he] at h
      exact List.mem_cons_of_mem _ (ih h)

theorem find_of_mem (hd : (es.map Prod.fst).Nodup) (h : (k, v) ∈ es) : find k es = some v := by
  induction es with
  | nil => simp at h
  | cons e r ih =>
    simp only [List.map_cons, List.nodup_cons] at hd
    rcases List.mem_cons.1 h with rfl | h
    · simp [find]
    · have hne : e.1 ≠ k := fun he => hd.1 (he ▸ List.mem_map_of_mem h)
      rw [find, if_neg hne]
      exact ih hd.2 h

/-- The value of a pair that has the key. -/
def pick (k : κ) (o : Option (κ × ν)) : Option ν :=
  o.bind fun e => if e.1 = k then some e.2 else none

theorem pick_eq_some {o : Option (κ × ν)} : pick k o = some v ↔ o = some (k, v) := by
  cases o with
  | none => simp [pick]
  | some e => by_cases h : e.1 = k <;> simp [pick, Prod.ext_iff, h]

theorem find_filterMap_cons {α : Type} (f : α → Option (κ × ν)) (x : α) (xs : List α) :
    find k ((x :: xs).filterMap f) = (pick k (f x)).or (find k (xs.filterMap f)) := by
  cases h : f x with
  | none => rw [List.filterMap_cons_none h]; rfl
  | some e =>
    rw [List.filterMap_cons_some h]
    by_cases hk : e.1 = k <;> simp [find, pick, hk]

theorem find_filterMap {α : Type} {g : α → Option (κ × ν)} {g' : α → Option (κ × μ)} {h : ν → μ}
    {xs : List α} (hg : ∀ x ∈ xs, ∀ w, g' x = some (k, w) ↔ ∃ v, g x = some (k, v) ∧ h v = w) :
    find k (xs.filterMap g') = (find k (xs.filterMap g)).map h := by
  induction xs with
  | nil => rfl
  | cons x xs ih =>
    obtain ⟨hx, hxs⟩ := List.forall_mem_cons.1 hg
    have hpick : pick k (g' x) = (pick k (g x)).map h :=
      Option.ext fun w => by simp only [Option.map_eq_some_iff, pick_eq_some, hx]
    rw [find_filterMap_cons, find_filterMap_cons, ih hxs, hpick]
    cases pick k (g x) <;> rfl

theorem find_reverse (hd : (es.map Prod.fst).Nodup) : find k es.reverse = find k es := by
  have hd' : (es.reverse.map Prod.fst).Nodup := by
    rw [List.map_reverse]; exact List.nodup_reverse.2 hd
  cases h : find k es with
  | none =>
    rw [find_eq_none] at h ⊢
    rwa [List.map_reverse, List.mem_reverse]
  | some v => exact find_of_mem hd' (List.mem_reverse.2 (mem_of_find h))

theorem get?_eq_some : t.get? k = some v ↔ (k, v) ∈ t.entries :=
  ⟨mem_of_find, find_of_mem t.distinct⟩

theorem mem_keys : k ∈ t.keys ↔ (t.get? k).isSome := by
  rw [← contains_eq_true]
  rfl

theorem exists_get? (h : k ∈ t.keys) : ∃ v, t.get? k = some v :=
  Option.isSome_iff_exists.1 (mem_keys.1 h)

theorem mem_values : v ∈ t.values ↔ ∃ k, t.get? k = some v := by
  simp [values, get?_eq_some]

theorem mem_keys_of_get? (h : t.get? k = some v) : k ∈ t.keys :=
  mem_keys.2 (by rw [h]; rfl)

omit [DecidableEq κ] in
theorem map_eq_self {f : ν → ν} (h : ∀ e ∈ t.entries, f e.2 = e.2) : t.map f = t := by
  refine ext ?_
  show (t.entries.map fun e => (e.1, f e.2)) = t.entries
  conv_rhs => rw [← List.map_id t.entries]
  exact List.map_congr_left fun e he => by rw [h e he]; rfl

theorem get?_insertNew (t : Table κ ν) (k k' : κ) (v : ν) :
    (t.insertNew k v).get? k' = (t.get? k').or (if k = k' then some v else none) := by
  unfold insertNew contains
  by_cases hk : k = k'
  · subst hk
    cases ht : t.get? k with
    | none => simp
    | some w => simp [ht]
  · split_ifs <;> simp [hk]

theorem isEmpty_iff : t.isEmpty ↔ ∀ k, t.get? k = none := by
  constructor
  · intro h k
    have he : t.entries = [] := List.isEmpty_iff.1 h
    simp [get?, he, find]
  · intro h
    cases he : t.entries with
    | nil => simp [isEmpty, he]
    | cons e r =>
      have := h e.1
      rw [get?, he, find, if_pos rfl] at this
      cases this

theorem get?_filter_key (t : Table κ ν) (q : κ → Bool) (k : κ) :
    (t.filter fun k' _ => q k').get? k = if q k then t.get? k else none := by
  show find k (t.entries.filter fun e => q e.1) = if q k then find k t.entries else none
  induction t.entries with
  | nil => simp [find]
  | cons e r ih =>
    by_cases hk : e.1 = k
    · cases hq : q k <;> simp [find, hk, hq, ih]
    · cases hq : q e.1 <;> simp [find, hk, hq, ih]

theorem get?_filter_eq_some {p : κ → ν → Bool} :
    (t.filter p).get? k = some v ↔ t.get? k = some v ∧ p k v := by
  rw [get?_eq_some, get?_eq_some]
  exact List.mem_filter

theorem get?_insertMany (t : Table κ ν) (es : List (κ × ν)) (k : κ) :
    (t.insertMany es).get? k = (find k es.reverse).or (t.get? k) := by
  induction es generalizing t with
  | nil => simp [insertMany, find]
  | cons e r ih =>
    have hs : t.insertMany (e :: r) = (t.insert e.1 e.2).insertMany r := rfl
    rw [hs, ih, List.reverse_cons, find_append]
    by_cases h : e.1 = k
    · cases find k r.reverse <;> simp [find, h]
    · cases find k r.reverse <;> simp [find, h]

theorem get?_ofList (es : List (κ × ν)) (k : κ) : (ofList es).get? k = find k es.reverse := by
  rw [ofList, get?_insertMany, get?_empty, Option.or_none]

theorem get?_ofList_of_nodup (hd : (es.map Prod.fst).Nodup) (k : κ) :
    (ofList es).get? k = find k es := by
  rw [get?_ofList, find_reverse hd]

omit [DecidableEq κ] [DecidableEq κ'] in
theorem nodup_map_keys {f : κ → ν → μ} (hd : (es.map Prod.fst).Nodup)
    (hinj : ∀ e ∈ es, ∀ e' ∈ es, new e.1 = new e'.1 → e.1 = e'.1) :
    ((es.map fun e => (new e.1, f e.1 e.2)).map Prod.fst).Nodup := by
  rw [List.map_map]
  exact (List.Nodup.of_map _ hd).map_on fun e he e' he' h =>
    List.inj_on_of_nodup_map hd he he' (hinj e he e' he' h)

theorem get?_ofList_rekey {f : κ → ν → μ} (hinj : ∀ a ∈ t.keys, ∀ b ∈ t.keys, new a = new b → a = b)
    {y : κ'} {v : μ} :
    (ofList (t.entries.map fun e => (new e.1, f e.1 e.2))).get? y = some v ↔
      ∃ x u, t.get? x = some u ∧ new x = y ∧ f x u = v := by
  have hd : ((t.entries.map fun e => (new e.1, f e.1 e.2)).map Prod.fst).Nodup :=
    nodup_map_keys t.distinct fun e he e' he' =>
      hinj e.1 (List.mem_map_of_mem he) e'.1 (List.mem_map_of_mem he')
  rw [get?_ofList_of_nodup hd]
  constructor
  · intro h
    obtain ⟨e, he, hy⟩ := List.mem_map.1 (mem_of_find h)
    obtain ⟨rfl, rfl⟩ := Prod.mk.inj hy
    exact ⟨e.1, e.2, get?_eq_some.2 he, rfl, rfl⟩
  · rintro ⟨x, u, hx, rfl, rfl⟩
    exact find_of_mem hd (List.mem_map.2 ⟨(x, u), get?_eq_some.1 hx, rfl⟩)

theorem get?_ofList_rekey_map {ρ : Type} {g : ν → ρ} {f : κ → ρ → μ}
    (hinj : ∀ a ∈ t.keys, ∀ b ∈ t.keys, new a = new b → a = b) {y : κ'} {v : μ} :
    (ofList ((t.map g).entries.map fun e => (new e.1, f e.1 e.2))).get? y = some v ↔
      ∃ x u, t.get? x = some u ∧ new x = y ∧ f x (g u) = v := by
  rw [map, List.map_map]
  exact get?_ofList_rekey (f := fun k u => f k (g u)) hinj

/-! ## Entries -/

theorem forall_mem_insert {P : κ × ν → Prop} (ht : ∀ e ∈ t.entries, P e) (hv : P (k, v)) :
    ∀ e ∈ (t.insert k v).entries, P e := by
  rintro ⟨k', v'⟩ he
  have hg := get?_eq_some.2 he
  rw [get?_insert] at hg
  split_ifs at hg with hk
  · obtain rfl := Option.some.inj hg
    exact hk ▸ hv
  · exact ht _ (get?_eq_some.1 hg)

theorem write_write (k : κ) (v w : ν) (es : List (κ × ν)) :
    write k w (write k v es) = write k w es := by
  induction es with
  | nil => simp [write]
  | cons e r ih => by_cases h : e.1 = k <;> simp [write, h, ih]

theorem insert_insert (t : Table κ ν) (k : κ) (v w : ν) :
    (t.insert k v).insert k w = t.insert k w :=
  ext (write_write k v w t.entries)

theorem map_write (f : ν → μ) (k : κ) (v : ν) (es : List (κ × ν)) :
    (write k v es).map (fun e => (e.1, f e.2)) = write k (f v) (es.map fun e => (e.1, f e.2)) := by
  induction es with
  | nil => rfl
  | cons e r ih => by_cases h : e.1 = k <;> simp [write, h, ih]

theorem map_insert (t : Table κ ν) (f : ν → μ) (k : κ) (v : ν) :
    (t.insert k v).map f = (t.map f).insert k (f v) :=
  ext (map_write f k v t.entries)

theorem write_new (h : k ∉ es.map Prod.fst) (v : ν) : write k v es = es ++ [(k, v)] := by
  induction es with
  | nil => rfl
  | cons e r ih =>
    simp only [List.map_cons, List.mem_cons, not_or] at h
    simp [write, Ne.symm h.1, ih h.2]

theorem entries_insertMany (hd : ((t.entries ++ es).map Prod.fst).Nodup) :
    (t.insertMany es).entries = t.entries ++ es := by
  induction es generalizing t with
  | nil => simp [insertMany]
  | cons e r ih =>
    have hnew : e.1 ∉ t.entries.map Prod.fst := by
      intro hmem
      rw [List.map_append, List.nodup_append] at hd
      exact hd.2.2 _ hmem e.1 (by simp) rfl
    have hins : (t.insert e.1 e.2).entries = t.entries ++ [e] := write_new hnew e.2
    have hs : t.insertMany (e :: r) = (t.insert e.1 e.2).insertMany r := rfl
    rw [hs, ih (by rw [hins]; simpa using hd), hins]
    simp

theorem entries_ofList (hd : (es.map Prod.fst).Nodup) : (ofList es).entries = es :=
  entries_insertMany hd

theorem ofList_entries (t : Table κ ν) : ofList t.entries = t := ext (entries_ofList t.distinct)

end CallAtlas.Table
