import CallAtlas.Container.ElfTags
import CallAtlas.Proofs.Container.Image

/-!
# Dynamic tags read back

The dynamic section of a built file is a list of numbered tags with the places of their texts, which
stand in the section before. The tags are read in order with their texts, `tagsFrom_eq`, and no
other section has any: `Image.Sound.readTags`.
-/

namespace CallAtlas.Container.Elf

open List

variable {pos : Nat}

namespace Image

/-- The tag of a number that is written. -/
def tagOf (n : Nat) : Tag := if n = 1 then .needed else if n = 15 then .rpath else .runpath

/-- The dynamic tags as they are read. -/
def tagList (i : Image) : List (Tag × String) := i.tags.map fun t => (tagOf t.1, t.2)

end Image

theorem tagsFrom_eq {f : File} (hw : f.wide) (hb : f.big = false) (hr : f.data.length < reach)
    {texts : Section} {g : Nat → Tag} {ts : List ((Nat × String) × Nat)}
    (hts : ∀ t ∈ ts, t.1.1 < 256 ^ 8 ∧ t.1.1 ≠ 0 ∧ t.2 < 256 ^ 8 ∧ f.tag? t.1.1 = some (g t.1.1) ∧
      f.tagText texts t.2 = .ok t.1.2) {fuel : Nat} (hf : ts.length < fuel)
    (hs : StandsAt f.data pos ((ts.flatMap fun t => Bytes.ofNat 8 t.1.1 ++ Bytes.ofNat 8 t.2) ++
      Bytes.zeros 16)) :
    tagsFrom f texts fuel pos = (ts.map fun t => (g t.1.1, t.1.2), none) := by
  have hword : f.wordSize = 8 := by rw [File.wordSize, hw]; rfl
  induction ts generalizing fuel pos with
  | nil =>
    obtain ⟨fuel, rfl⟩ : ∃ n, fuel = n + 1 := Nat.exists_eq_succ_of_ne_zero (by omega)
    have hle := hs.le
    have htag : number false f.data (pos + 0) 8 = 0 :=
      (hs.trans (zeros_stands (by decide))).number (Nat.pow_pos (by decide))
    rw [flatMap_nil, nil_append, Bytes.zeros, length_replicate] at hle
    unfold tagsFrom
    rw [if_neg (by omega), hword, if_neg (by omega), hb]
    rw [add_zero] at htag
    rw [htag]
    rfl
  | cons t ts ih =>
    obtain ⟨fuel, rfl⟩ : ∃ n, fuel = n + 1 := Nat.exists_eq_succ_of_ne_zero (by omega)
    obtain ⟨⟨htag, hne, hvalue, hknown, htext⟩, hrest⟩ := forall_mem_cons.1 hts
    rw [flatMap_cons, append_assoc, append_assoc] at hs
    have hle := hs.le
    have h1 := (hs.trans (standsAt_zero ..)).number htag
    have h2 :=
      (hs.trans (standsAt_append (Bytes.ofNat 8 t.1.1) (Bytes.ofNat 8 t.2) _)).number hvalue
    have hnext : StandsAt f.data (pos + 16)
        ((ts.flatMap fun t => Bytes.ofNat 8 t.1.1 ++ Bytes.ofNat 8 t.2) ++ Bytes.zeros 16) := by
      refine hs.trans ⟨Bytes.ofNat 8 t.1.1 ++ Bytes.ofNat 8 t.2, [], ?_, ?_⟩
      · rw [length_append, Bitcode.length_ofNat, Bitcode.length_ofNat]
      · rw [append_nil, append_assoc]
    rw [Bitcode.length_ofNat] at h2
    rw [add_zero] at h1
    simp only [length_append, Bitcode.length_ofNat] at hle
    unfold tagsFrom
    rw [if_neg (by omega), hword, if_neg (by omega), hb]
    rw [h1, if_neg hne, hknown, h2]
    rw [htext]
    rw [ih hrest (by rw [length_cons] at hf; omega) hnext]
    rfl

namespace Image

variable {i : Image}

theorem tags_stand (i : Image) :
    List.Forall₂ (fun t p => StandsAt i.tagTexts.1 p (Bytes.ofText t.2 ++ [0])) i.tags
      i.tagTexts.2 := by
  have h := (placeTexts_stands [0] (i.tags.map Prod.snd)).2
  rw [forall₂_map_left_iff] at h
  exact h

theorem mem_tags {t : Nat × String} (h : t ∈ i.tags) :
    (t.1 = 1 ∨ t.1 = 15 ∨ t.1 = 29) ∧ t.2 ∈ i.needed ++ [i.runpath, i.rpath] := by
  unfold tags at h
  rw [mem_append, mem_append] at h
  rcases h with (h | h) | h
  · obtain ⟨s, hs, rfl⟩ := mem_map.1 h
    exact ⟨.inl rfl, mem_append_left _ hs⟩
  · split_ifs at h
    · cases h
    · obtain rfl := mem_singleton.1 h
      exact ⟨.inr (.inr rfl), mem_append_right _ mem_cons_self⟩
  · split_ifs at h
    · cases h
    · obtain rfl := mem_singleton.1 h
      exact ⟨.inr (.inl rfl), mem_append_right _ (mem_cons_of_mem _ mem_cons_self)⟩

theorem tag?_file (i : Image) {t : Nat × String} (h : t ∈ i.tags) :
    i.file.tag? t.1 = some (tagOf t.1) := by
  rcases (mem_tags h).1 with h | h | h
  all_goals
    rw [h]
    rfl

theorem length_tagEntries (i : Image) :
    i.tagEntries.length = (i.tags.zip i.tagTexts.2).length * 16 := by
  rw [tagEntries]
  simp [Bitcode.length_ofNat]

theorem map_zip_tags (i : Image) :
    (i.tags.zip i.tagTexts.2).map (fun t => (tagOf t.1.1, t.1.2)) = i.tagList := by
  have hfst := map_fst_zip i.tags_stand.length_eq.le
  have hmap := congrArg (map fun t => (tagOf t.1, t.2)) hfst
  rwa [map_map] at hmap

namespace Sound

/-- A tag and the place of its text fit their fields, and the text is read back. -/
theorem tagText (h : i.Sound) {x : Part × Nat × Nat} (hx : x ∈ i.rows) (htext : x.1 = i.textPart)
    {t : (Nat × String) × Nat} (ht : t ∈ i.tags.zip i.tagTexts.2) :
    t.1.1 < 256 ^ 8 ∧ t.1.1 ≠ 0 ∧ t.2 < 256 ^ 8 ∧ i.file.tag? t.1.1 = some (tagOf t.1.1) ∧
      i.file.tagText (sectionOf x) t.2 = .ok t.1.2 := by
  have hmem := (of_mem_zip ht).1
  have hstands := (mem_rows hx).1
  rw [htext] at hstands
  have hplace : StandsAt i.file.data (x.2.1 + t.2) (Bytes.ofText t.1.2 ++ [0]) :=
    hstands.trans ((forall₂_iff_zip.1 i.tags_stand).2 ht)
  have hle := hplace.le
  have hbytes : i.file.data.length < reach := h.size
  rw [reach_eq] at hbytes
  have hnumber : t.1.1 < 256 ^ 8 ∧ t.1.1 ≠ 0 := by
    rcases (mem_tags hmem).1 with h | h | h <;> omega
  refine ⟨hnumber.1, hnumber.2, by omega, i.tag?_file hmem, ?_⟩
  have htype : ¬(sectionOf x).type ≠ typeStrtab := by
    show ¬x.1.type ≠ typeStrtab
    rw [htext]
    exact fun hno => hno rfl
  rw [File.tagText, if_neg htype]
  exact hplace.textAt (h.texts _ (mem_tags hmem).2) (by rw [reach_eq]; omega)

theorem tagsOf_tagPart (h : i.Sound) (ht : i.tags ≠ []) {o n : Nat}
    (hr : (i.tagPart, o, n) ∈ i.rows) :
    i.file.tagsOf (sectionOf (i.tagPart, o, n)) = (i.tagList, none) := by
  obtain ⟨x, hx, hheader, htext⟩ := h.header_texts ht
  have htags := (mem_rows hr).1
  have hfuel : (i.tags.zip i.tagTexts.2).length < i.file.data.length + 1 := by
    have hle : o + (i.tagEntries ++ Bytes.zeros 16).length ≤ i.file.data.length := htags.le
    rw [length_append, length_tagEntries] at hle
    omega
  have hread : tagsFrom i.file (sectionOf x) (i.file.data.length + 1) o =
      ((i.tags.zip i.tagTexts.2).map fun t => (tagOf t.1.1, t.1.2), none) :=
    tagsFrom_eq rfl rfl h.size (fun t => h.tagText hx htext) hfuel htags
  unfold File.tagsOf
  rw [show (sectionOf (i.tagPart, o, n)).link = i.tagPart.link from rfl, hheader, ← map_zip_tags]
  exact hread

theorem tagsOf (h : i.Sound) {r : Part × Nat × Nat} (hr : r ∈ i.rows) :
    i.file.tagsOf (sectionOf r) = (if r.1.type = typeDynamic then i.tagList else [], none) := by
  obtain ⟨p, o, n⟩ := r
  cases mem_allParts (mem_rows hr).2.2 with
  | given hs => rfl
  | texts ht => rfl
  | names => rfl
  | tags ht => exact h.tagsOf_tagPart ht hr

end Sound

end Image

theorem File.tagsOfAll_eq {f : File} {l : List Section} (h : ∀ s ∈ l, (f.tagsOf s).2 = none) :
    f.tagsOfAll l = (l.flatMap fun s => (f.tagsOf s).1, none) := by
  induction l with
  | nil => rfl
  | cons s l ih =>
    obtain ⟨hs, hl⟩ := forall_mem_cons.1 h
    obtain ⟨tags, hread⟩ : ∃ tags, f.tagsOf s = (tags, none) := ⟨_, Prod.ext rfl hs⟩
    rw [tagsOfAll, flatMap_cons, hread]
    rw [ih hl]

namespace Image

variable {i : Image}

theorem flatMap_allParts (i : Image) :
    (i.allParts.flatMap fun p => if p.type = typeDynamic then i.tagList else []) = i.tagList := by
  have hgiven : (i.sections.map fun s =>
      ({ name := s.1, type := typeProgbits, data := s.2 } : Part)).flatMap
      (fun p => if p.type = typeDynamic then i.tagList else []) = [] := by
    rw [flatMap_eq_nil_iff]
    intro p hp
    obtain ⟨s, -, rfl⟩ := mem_map.1 hp
    rfl
  rw [allParts, parts, flatMap_append, flatMap_append, hgiven]
  by_cases ht : i.tags = []
  · rw [dynamicParts_nil ht, tagList, ht]
    rfl
  · rw [dynamicParts_eq ht]
    show [] ++ ([] ++ (i.tagList ++ [])) ++ [] = i.tagList
    simp

namespace Sound

theorem readTags (h : i.Sound) : readTags i.bytes = (i.tagList, none) := by
  have hnone : ∀ s ∈ i.visited.map Prod.fst, (i.file.tagsOf s).2 = none := by
    rw [visited, map_cons, map_map]
    refine forall_mem_cons.2 ⟨rfl, fun s hs => ?_⟩
    obtain ⟨r, hr, rfl⟩ := mem_map.1 hs
    exact congrArg Prod.snd (h.tagsOf hr)
  have hall : (i.visited.map Prod.fst).flatMap (fun s => (i.file.tagsOf s).1) = i.tagList := by
    rw [visited, map_cons, map_map, flatMap_cons, flatMap_map]
    have hrows : (i.rows.flatMap fun r => (i.file.tagsOf (sectionOf r)).1) =
        i.rows.flatMap fun r => if r.1.type = typeDynamic then i.tagList else [] :=
      flatMap_congr fun r hr => congrArg Prod.fst (h.tagsOf hr)
    have hparts := i.flatMap_allParts
    rw [← map_fst_rows, flatMap_map] at hparts
    exact hrows.trans hparts
  unfold Elf.readTags
  rw [h.openFile]
  dsimp only
  rw [h.visitAll]
  rw [File.tagsOfAll_eq hnone, hall]

end Sound

end Image

end CallAtlas.Container.Elf
