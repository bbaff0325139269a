import CallAtlas.Proofs.Loader.Cycles

/-!
# Chains that are too long

In a line of binaries, each of which needs the next, every name leads to a file and nothing requires
itself. But the visit calls itself once for each binary on the way, so a line that is as long as the
visit may follow is given up: `resolve_line`.
-/

namespace CallAtlas.Loader.Search

open Container CallAtlas.Path List

variable {n i j : Nat}

def letter (i : Nat) : String := String.singleton (Char.ofNat (256 + i))

/-- A binary for each number up to `n`, which needs the next. -/
def line (n : Nat) : Search where
  files :=
    { files := .ofList ((List.range (n + 1)).map fun i => (["work", letter i], ⟨[], false⟩)) }
  needs := {
    needed := fun b => b.path.toList.flatMap fun c =>
    if c.toNat < 256 + n then [letter (c.toNat - 255)] else []
    searchPaths := fun _ => [] }
  searchPaths := [""]
  systemLibraries := []

def link (i : Nat) : Binary := ⟨letter i, .detect []⟩

theorem toNat_letter (hi : i < 50000) : (Char.ofNat (256 + i)).toNat = 256 + i := by
  rw [Char.toNat_ofNat, if_pos]
  exact .inl (by omega)

theorem toList_letter (i : Nat) : (letter i).toList = [Char.ofNat (256 + i)] := by simp [letter]

theorem letter_injective (hi : i < 50000) (hj : j < 50000) (h : letter i = letter j) : i = j := by
  have h' := congrArg String.toList h
  rw [toList_letter, toList_letter] at h'
  have := congrArg Char.toNat (head_eq_of_cons_eq h')
  rw [toNat_letter hi, toNat_letter hj] at this
  omega

theorem not_mem_letter (hi : i < 50000) (c : Char) (hc : c.toNat < 256) :
    c ∉ (letter i).toList := by
  rw [toList_letter, mem_singleton]
  rintro rfl
  rw [toNat_letter hi] at hc
  omega

theorem isPlain_letter (hi : i < 50000) : IsPlain (letter i) := by
  have hdot := not_mem_letter hi '.' (by decide)
  have hne : letter i ≠ "" := by
    intro h
    have := toList_letter i
    rw [h] at this
    cases this
  refine ⟨not_mem_letter hi '/' (by decide), ?_, ?_⟩
  · rw [isSolid, Bool.and_eq_true, decide_eq_true_eq, decide_eq_true_eq]
    exact ⟨hne, fun h => hdot (by simp [h])⟩
  · exact fun h => hdot (by simp [h])

theorem utf8ByteSize_letter (i : Nat) : (letter i).utf8ByteSize ≤ 4 := by
  simp [letter, Char.utf8Size_le_four]

theorem nodup_letters (hn : n < 50000) :
    (((List.range (n + 1)).map fun i => (["work", letter i], (⟨[], false⟩ : FileTree.File))).map
      Prod.fst).Nodup := by
  rw [map_map]
  refine Nodup.map_on ?_ nodup_range
  intro i hi j hj h
  rw [mem_range] at hi hj
  refine letter_injective (by omega) (by omega) ?_
  simpa using h

theorem locate_letter (hn : n < 50000) (hi : i ≤ n) :
    (line n).files.locate (letter i) = .ok ["work", letter i] := by
  have henter : (line n).files.Enterable ["work"] := by
    refine ⟨?_, by simp [FileTree.hasDirectory, line]⟩
    rw [FileTree.hasFile, Table.contains, line, Table.get?_ofList_of_nodup (nodup_letters hn),
      Option.isSome_eq_false_iff, Option.isNone_iff_eq_none, Table.find_eq_none]
    simp
  have hi' : i < 50000 := by omega
  have hlen : (letter i).utf8ByteSize ≤ FileTree.longestName :=
    (utf8ByteSize_letter i).trans (by decide)
  exact FileTree.locate_of_plain (isPlain_letter hi') (not_mem_letter hi' _ (by decide)) hlen henter

theorem get?_letter (hn : n < 50000) (hi : i ≤ n) :
    (line n).files.files.get? ["work", letter i] = some ⟨[], false⟩ := by
  refine (Table.get?_ofList_of_nodup (nodup_letters hn) _).trans
    (Table.find_of_mem (nodup_letters hn) ?_)
  exact mem_map.2 ⟨i, mem_range.2 (by omega), rfl⟩

theorem keyOf_link (hi : i < 50000) : keyOf (link i) = letter i := (isPlain_letter hi).normalize

theorem locates_link (hn : n < 50000) (hi : i ≤ n) (b : Binary) :
    (line n).Locates b (letter i) (letter i) := by
  have hi' : i < 50000 := by omega
  have hplain := isPlain_letter hi'
  have hjoin : join "" (letter i) = letter i := by
    rw [join]
    simp
  have hfile : (line n).files.isFile (letter i) := by
    rw [FileTree.isFile, locate_letter hn hi]
    exact Option.isSome_iff_exists.2 ⟨_, get?_letter hn hi⟩
  rw [Locates, if_neg hplain.slashless]
  refine ⟨"", ?_, ?_⟩
  · have hdirs : (line n).directories b = [""] := rfl
    rw [hdirs, find?_cons_of_pos]
    rw [hjoin, hfile]
  · rw [hjoin, hplain.normalize]

theorem ofPath_letter (hn : n < 50000) (hi : i ≤ n) :
    Binary.ofPath (line n).files (letter i) = .ok (link i) := by
  have hi' : i < 50000 := by omega
  have ht : tidy (letter i) = letter i := by
    rw [← (isPlain_letter hi').normalize, tidy_normalize]
  unfold Binary.ofPath FileTree.read
  dsimp only
  rw [ht, FileTree.file_eq_ok (locate_letter hn hi) (get?_letter hn hi)]
  rfl

theorem neededNames_link (hi : i < 50000) :
    (line n).neededNames (link i) = if i < n then [letter (i + 1)] else [] := by
  have hstatic : (line n).staticNeeds (link i) = [] := rfl
  have hkept : ∀ name ∈ (line n).needs.needed (link i), (!(line n).isSystem name) := fun _ _ => rfl
  have hneeded : (line n).needs.needed (link i) =
      (letter i).toList.flatMap fun c =>
        if c.toNat < 256 + n then [letter (c.toNat - 255)] else [] := rfl
  rw [neededNames, hstatic, nil_append, filter_eq_self.2 hkept, hneeded, toList_letter,
    flatMap_singleton, toNat_letter hi]
  simp only [add_lt_add_iff_left]
  have : 256 + i - 255 = i + 1 := by omega
  rw [this]

theorem addNeeded_nil {r : Search} {b d : Binary} {name path : String} (hl : r.Locates b name path)
    (hd : Binary.ofPath r.files path = .ok d) : r.addNeeded b [] name = .ok [d] := by
  simp only [addNeeded, hl.locate, bind, Except.bind, addPath, hd]
  rfl

theorem dependencies_link (hn : n < 50000) (hi : i ≤ n) :
    (line n).dependencies (link i) = .ok (if i < n then [link (i + 1)] else []) := by
  rw [dependencies_eq rfl, neededNames_link (by omega)]
  split_ifs with h
  · rw [foldlM_cons, addNeeded_nil (locates_link hn h (link i)) (ofPath_letter hn h)]
    rfl
  · rfl

theorem close_error {b : Binary} {x : Visit × Except Failure Unit} {e : Failure}
    (h : x.2 = .error e) :
    (close b x).2 = .error e := by
  obtain ⟨s, res⟩ := x
  obtain rfl : res = .error e := h
  rfl

theorem forEach_singleton_error {f : Visit → Binary → Visit × Except Failure Unit} {s : Visit}
    {d : Binary} {e : Failure} (h : (f s d).2 = .error e) : (forEach f s [d]).2 = .error e := by
  unfold forEach
  split
  · next heq =>
    rw [heq] at h
    cases h
  · next heq =>
    rw [heq] at h
    exact h

theorem visit_line (hn : n < 50000) {fuel : Nat} (hi : i + fuel ≤ n) {s : Visit}
    (hdone : s.done = []) (hfresh : ∀ j, i ≤ j → j ≤ n → s.memory.direct.get? (letter j) = none) :
    ((line n).visit fuel ((List.range i).map letter) s (link i)).2 = .error .tooDeep := by
  induction fuel generalizing i s with
  | zero => rfl
  | succ fuel ih =>
    have hkey : keyOf (link i) = letter i := keyOf_link (by omega)
    have hpath : letter i ∉ (range i).map letter := by
      intro h
      obtain ⟨j, hj, hji⟩ := mem_map.1 h
      rw [mem_range] at hj
      have := letter_injective (by omega) (by omega) hji
      omega
    have hdeps : (line n).dependencies (link i) = .ok [link (i + 1)] := by
      rw [dependencies_link hn (by omega), if_pos (by omega)]
    obtain ⟨m, hm, hdirect⟩ : ∃ m, (line n).remembered s.memory (link i) = (m, .ok [link (i + 1)]) ∧
        m.direct = s.memory.direct.insert (letter i) [link (i + 1)] := by
      unfold remembered
      rw [hkey, hfresh i (by omega) (by omega), hdeps]
      exact ⟨_, rfl, rfl⟩
    have hrange : (range i).map letter ++ [letter i] = (range (i + 1)).map letter := by
      rw [range_succ, map_append]
      rfl
    rw [visit_of_remembered (by simp [hdone]) (by rwa [hkey]) hm, hkey, hrange]
    refine close_error (forEach_singleton_error (ih (by omega) hdone ?_))
    intro j hj hjn
    have hij : letter i ≠ letter j := by
      intro h
      have := letter_injective (by omega) (by omega) h
      omega
    rw [hdirect, Table.get?_insert, if_neg hij]
    exact hfresh j (by omega) hjn

/-! ## The line as a graph -/

theorem requires_link (hn : n < 50000) (hi : i ≤ n) {d : Binary} :
    (line n).Requires (link i) d ↔ i < n ∧ d = link (i + 1) := by
  rw [← (dependencies_ok (dependencies_link hn hi)).2]
  split_ifs with h <;> simp [h]

theorem reaches_link (hn : n < 50000) (hi : i ≤ n) : (line n).Reaches (link 0) (link i) := by
  induction i with
  | zero => exact .refl
  | succ i ih => exact (ih (by omega)).tail ((requires_link hn (by omega)).2 ⟨by omega, rfl⟩)

theorem finished_line (hn : n < 50000) {k : Nat} (hk : k ≤ n) :
    (line n).Finished (link 0) ((List.range' (n - k) (k + 1)).map link) := by
  induction k with
  | zero =>
    refine ⟨reaches_link hn le_rfl, (dependencies_ok (dependencies_link hn le_rfl)).1, ?_, trivial⟩
    intro d hd
    exact absurd ((requires_link hn le_rfl).1 hd).1 (by simp)
  | succ k ih =>
    have hstart : n - (k + 1) + 1 = n - k := by omega
    rw [range'_succ, hstart]
    refine ⟨reaches_link hn (by omega), (dependencies_ok (dependencies_link hn (by omega))).1, ?_,
      ih (by omega)⟩
    intro d hd
    rw [((requires_link hn (by omega)).1 hd).2]
    exact mem_map_of_mem (mem_range'_1.2 (by omega))

theorem resolve_line (hn : n < 50000) (hlong : 1000 ≤ n) :
    ((line n).resolve {} (link 0)).2 = .error .tooDeep ∧
      (∀ b, (line n).Reaches (link 0) b → (line n).Supplied b) ∧ (line n).Acyclic (link 0) := by
  have hfin := finished_line hn (le_refl n)
  have hroot : link 0 ∈ (range' (n - n) (n + 1)).map link :=
    mem_map_of_mem (mem_range'_1.2 (by omega))
  refine ⟨?_, fun b hb => (hfin.mem (hfin.reaches hroot hb)).2.1, hfin.acyclic ?_ hroot⟩
  · have hlen : 0 + (line n).longestChain ≤ n := by rwa [zero_add]
    have hvisit : ((line n).visit (line n).longestChain [] ⟨{}, []⟩ (link 0)).2 = .error .tooDeep :=
      visit_line hn hlen rfl fun _ _ _ => rfl
    rw [resolve_of_visit, hvisit]
    rfl
  · have hrange : (range' (n - n) (n + 1)).Nodup := nodup_range' 1 one_pos
    rw [map_map]
    refine hrange.map_on ?_
    intro i hi j hj h
    rw [mem_range'_1] at hi hj
    rw [Function.comp_apply, Function.comp_apply, keyOf_link (by omega), keyOf_link (by omega)] at h
    exact letter_injective (by omega) (by omega) h

theorem thousandLine_given_up :
    ((line 1000).resolve {} (link 0)).2 = .error .tooDeep ∧
      (∀ b, (line 1000).Reaches (link 0) b → (line 1000).Supplied b) ∧
      (line 1000).Acyclic (link 0) :=
  resolve_line (by decide) (by decide)

end CallAtlas.Loader.Search
