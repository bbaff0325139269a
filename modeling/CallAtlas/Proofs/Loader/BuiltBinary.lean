import CallAtlas.Proofs.Loader.Origin

/-!
# Built binaries, read

What is read from a binary whose file was built from an image: its section of modules and the range
that holds it, the needed libraries, and the directories that it names for the search
(`image_read_back`). The directories are those of the image unless the directory of the binary can
be taken for the word that stands for it.
-/

namespace CallAtlas.Loader

open Container Container.Elf Tool List
open CallAtlas.Path (tidy)

variable {i : Image}

theorem detect_bytes (i : Image) : Format.detect (i.bytes.take headSize) = .elf := by
  have hmagic : elfMagic <+: i.bytes.take headSize := by
    rw [Image.bytes_eq]
    exact (prefix_take_iff.2 ⟨prefix_append .., by decide⟩)
  rw [Format.detect, Bytes.startsWith, if_pos (List.isPrefixOf_iff_prefix.2 hmagic)]

/-! ## Tags of an image -/

theorem tagTexts_append (tag : Tag) (s t : List (Tag × String)) :
    tagTexts tag (s ++ t) = tagTexts tag s ++ tagTexts tag t := by
  rw [tagTexts, filter_append, map_append]
  rfl

theorem tagTexts_same (tag : Tag) (l : List String) :
    tagTexts tag (l.map fun s => (tag, s)) = l := by
  rw [tagTexts, filter_eq_self.2, map_map]
  · exact map_id l
  · intro t ht
    obtain ⟨s, -, rfl⟩ := mem_map.1 ht
    exact decide_eq_true rfl

theorem tagTexts_other {tag other : Tag} (h : other ≠ tag) (l : List String) :
    tagTexts tag (l.map fun s => (other, s)) = [] := by
  rw [tagTexts, filter_eq_nil_iff.2, map_nil]
  intro t ht
  obtain ⟨s, -, rfl⟩ := mem_map.1 ht
  exact fun he => h (of_decide_eq_true he)

/-- The search paths of an image that are written. -/
def writtenPaths (path : String) : List String := if path.isEmpty then [] else [path]

theorem tagList_eq (i : Image) : i.tagList = i.needed.map (fun s => (.needed, s)) ++
    (writtenPaths i.runpath).map (fun s => (.runpath, s)) ++
      (writtenPaths i.rpath).map (fun s => (.rpath, s)) := by
  rw [Image.tagList, Image.tags, map_append, map_append, map_map]
  unfold writtenPaths
  congr 1
  · split_ifs <;> rfl
  · split_ifs <;> rfl

theorem tagTexts_tagList (i : Image) (tag : Tag) : tagTexts tag i.tagList =
    if tag = .needed then i.needed else if tag = .runpath then writtenPaths i.runpath
    else if tag = .rpath then writtenPaths i.rpath else [] := by
  rw [tagList_eq, tagTexts_append, tagTexts_append]
  cases tag <;>
    simp [tagTexts_same, tagTexts_other]

theorem flatMap_writtenPaths (origin path : String) :
    (writtenPaths path).flatMap (splitSearchPath origin) = splitSearchPath origin path := by
  unfold writtenPaths
  split_ifs with h
  · rw [String.isEmpty_iff] at h
    rw [h]
    rfl
  · exact flatMap_singleton ..

/-! ## The binary -/

section Binary

variable {host : Host} {path : String}

theorem ofPath_image (hread : host.files.read (tidy path) = .ok i.bytes) :
    Binary.ofPath host.files path = .ok ⟨tidy path, .elf⟩ := by
  rw [Binary.ofPath, hread]
  show Except.ok (Binary.mk _ _) = _
  rw [detect_bytes]

theorem extract_elf (tools : Toolchain) (hread : host.files.read (tidy path) = .ok i.bytes) :
    Embedded.extract host tools ⟨tidy path, .elf⟩ = (Embedded.ofElf i.bytes (tidy path) none).bind
      fun ss =>
      if ss = [] then .error (Embedded.notFound "no embedded bitcode section" (tidy path))
      else .ok ss := by
  have hsections : Embedded.sections host tools ⟨tidy path, .elf⟩ i.bytes =
      Embedded.ofElf i.bytes (tidy path) none := by
    unfold Embedded.sections
    rw [if_neg (show Format.elf ≠ .unknown by decide)]
  rw [Embedded.extract, Path.tidy_tidy, hread]
  dsimp only [bind, Except.bind]
  rw [hsections]
  cases Embedded.ofElf i.bytes (tidy path) none with
  | error e => rfl
  | ok ss =>
    cases ss with
    | nil => rfl
    | cons s ss => rfl

/-- A given section of modules is found, with the range that holds it. -/
theorem extract_given (tools : Toolchain) (hi : i.Sound)
    (hread : host.files.read (tidy path) = .ok i.bytes)
    {payload : Bytes} (hp : (Embedded.sectionName, payload) ∈ i.sections) :
    ∃ offset : Nat, Embedded.extract host tools ⟨tidy path, .elf⟩ =
        .ok [⟨Embedded.sectionName, offset, payload, tidy path, none⟩] ∧
      i.bytes.sub offset payload.length = payload := by
  obtain ⟨offset, hload, hstands⟩ := hi.load_given (by decide) hp
  refine ⟨offset, ?_, hstands.sub⟩
  rw [extract_elf tools hread, Embedded.ofElf, hload]
  rfl

theorem extract_missing (tools : Toolchain) (hi : i.Sound)
    (hread : host.files.read (tidy path) = .ok i.bytes)
    (hp : Embedded.sectionName ∉ i.sections.map Prod.fst) :
    Embedded.extract host tools ⟨tidy path, .elf⟩ =
      .error (Embedded.notFound "no embedded bitcode section" (tidy path)) := by
  rw [extract_elf tools hread, Embedded.ofElf, hi.load_missing (by decide) hp]
  rfl

theorem readTags_image (hi : i.Sound) (hread : host.files.read (tidy path) = .ok i.bytes) :
    readTags host.files ⟨tidy path, .elf⟩ = (i.tagList, none) := by
  rw [readTags, if_pos rfl, hread]
  exact hi.readTags

theorem refuses_image (hi : i.Sound) (hread : host.files.read (tidy path) = .ok i.bytes) :
    (Needs.ofElf host.files).refuses ⟨tidy path, .elf⟩ = none := by
  unfold Needs.ofElf
  dsimp only
  rw [readTags_image hi hread]
  rfl

theorem needed_image (hi : i.Sound) (hread : host.files.read (tidy path) = .ok i.bytes) :
    (Needs.ofElf host.files).needed ⟨tidy path, .elf⟩ = i.needed := by
  unfold Needs.ofElf
  dsimp only
  rw [dynamicTags, readTags_image hi hread, tagTexts_tagList]
  exact if_pos rfl

def homeOf (files : FileTree) (b : Binary) : String := Path.directoryName (files.absolute b.path)

theorem head_homeOf (files : FileTree) (b : Binary) : (homeOf files b).toList.head? = some '/' :=
  head_directoryName (isAbsolute_absolute files b.path)

theorem searchPaths_image (hi : i.Sound) (hread : host.files.read (tidy path) = .ok i.bytes)
    {home : String} (hhome : homeOf host.files ⟨tidy path, .elf⟩ = home) :
    (Needs.ofElf host.files).searchPaths ⟨tidy path, .elf⟩ =
      if splitSearchPath home i.runpath = [] then splitSearchPath home i.rpath
      else splitSearchPath home i.runpath := by
  have hrun : tagPaths home .runpath i.tagList = splitSearchPath home i.runpath := by
    rw [tagPaths, tagTexts_tagList]
    exact flatMap_writtenPaths home i.runpath
  have hr : tagPaths home .rpath i.tagList = splitSearchPath home i.rpath := by
    rw [tagPaths, tagTexts_tagList]
    exact flatMap_writtenPaths home i.rpath
  unfold homeOf at hhome
  unfold Needs.ofElf
  dsimp only
  rw [dynamicTags, readTags_image hi hread, hhome]
  rw [hrun, hr]
  cases splitSearchPath home i.runpath with
  | nil => rfl
  | cons d ds => rfl

end Binary

/-- A binary whose file was built from an image gives back what the image holds: the section of
modules with the range that holds it, the needed libraries, and the directories of the later search
path or else of the earlier one, with the directory of the binary filled in. The latter holds for
all search paths exactly if that directory is inert, and without braces in any directory. -/
theorem image_read_back (host : Host) (tools : Toolchain) (path : String) (i : Image) (hi : i.Sound)
    (hread : host.files.read (Path.tidy path) = .ok i.bytes) :
    ∃ b, Binary.ofPath host.files path = .ok b ∧ b.path = Path.tidy path ∧
      (∀ payload, (Embedded.sectionName, payload) ∈ i.sections →
        ∃ offset : Nat, Embedded.extract host tools b =
          .ok [⟨Embedded.sectionName, offset, payload, b.path, none⟩] ∧
          i.bytes.sub offset payload.length = payload) ∧
      (Embedded.sectionName ∉ i.sections.map Prod.fst →
        Embedded.extract host tools b =
          .error (Embedded.notFound "no embedded bitcode section" b.path)) ∧
      (Needs.ofElf host.files).refuses b = none ∧ (Needs.ofElf host.files).needed b = i.needed ∧
      ((Inert plain (homeOf host.files b).toList ∨ ∀ p ∈ [i.runpath, i.rpath],
        ¬braced <:+: p.toList) → (Needs.ofElf host.files).searchPaths b =
          if namedDirectories (homeOf host.files b) i.runpath = []
          then namedDirectories (homeOf host.files b) i.rpath
          else namedDirectories (homeOf host.files b) i.runpath) ∧
      ((∀ p, splitSearchPath (homeOf host.files b) p = namedDirectories (homeOf host.files b) p) ↔
        Inert plain (homeOf host.files b).toList) := by
  have hhead := head_homeOf host.files ⟨Path.tidy path, .elf⟩
  refine ⟨⟨Path.tidy path, .elf⟩, ofPath_image hread, rfl,
    fun payload => extract_given tools hi hread,
    extract_missing tools hi hread, refuses_image hi hread, needed_image hi hread, fun h => ?_,
    splitSearchPath_eq_iff hhead⟩
  have hpath {p : String} (hp : p ∈ [i.runpath, i.rpath]) :=
    splitSearchPath_eq hhead (h.imp id fun hb => hb p hp)
  rw [searchPaths_image hi hread rfl, hpath mem_cons_self, hpath (mem_cons_of_mem _ mem_cons_self)]

/-- An image with a section of modules, a needed library and directories beside the binary. -/
def sampleImage : Image where
  sections := [(".text", [0x90]), (".llvmbc", [0x42, 0x43, 0xC0, 0xDE])]
  needed := ["libm.so"]
  runpath := "$ORIGIN/lib::$\x7bORIGIN\x7d/../lib"

theorem sampleImage_sound : sampleImage.Sound where
  few := by decide
  distinct := by decide
  names := by decide +kernel
  texts := by decide +kernel
  table := by decide +kernel
  size := by decide +kernel

def hostOf (place : List String) (i : Image) : Host where
  files := { files := Table.ofList [("work" :: place, { data := i.bytes })] }

theorem sampleImage_read_back :
    ∃ b, Binary.ofPath (hostOf ["app"] sampleImage).files "app" = .ok b ∧
      (∃ offset : Nat, Embedded.extract (hostOf ["app"] sampleImage) {} b =
          .ok [⟨".llvmbc", offset, [0x42, 0x43, 0xC0, 0xDE], "app", none⟩] ∧
        sampleImage.bytes.sub offset 4 = [0x42, 0x43, 0xC0, 0xDE]) ∧
      (Needs.ofElf (hostOf ["app"] sampleImage).files).needed b = ["libm.so"] ∧
      (Needs.ofElf (hostOf ["app"] sampleImage).files).searchPaths b =
        ["/work/lib", "/work/../lib"] := by
  have hread : (hostOf ["app"] sampleImage).files.read (Path.tidy "app") =
      .ok sampleImage.bytes := by decide +kernel
  have htidy : Path.tidy "app" = "app" := by decide +kernel
  obtain ⟨b, hb, hpath, hgiven, -, -, hneeded, hsearch, -⟩ :=
    image_read_back (hostOf ["app"] sampleImage) {} "app" sampleImage sampleImage_sound hread
  rw [htidy] at hpath
  have hhome : homeOf (hostOf ["app"] sampleImage).files b = "/work" := by
    rw [homeOf, hpath]
    decide +kernel
  rw [hhome] at hsearch
  obtain ⟨offset, hextract, hsub⟩ := hgiven [0x42, 0x43, 0xC0, 0xDE] (by decide)
  rw [hpath] at hextract
  refine ⟨b, hb, ⟨offset, hextract, hsub⟩, hneeded, (hsearch (.inl (by decide))).trans ?_⟩
  decide +kernel

/-- An image that names the directory of the binary with braces. -/
def bracedImage : Image := { runpath := "$\x7bORIGIN\x7d/x" }

/-- In a directory that is named like the word, the word is filled in twice. -/
theorem bracedImage_doubled :
    Binary.ofPath (hostOf ["$ORIGIN", "lib.so"] bracedImage).files "$ORIGIN/lib.so" =
      .ok ⟨"$ORIGIN/lib.so", .elf⟩ ∧
      namedDirectories
        (homeOf (hostOf ["$ORIGIN", "lib.so"] bracedImage).files ⟨"$ORIGIN/lib.so", .elf⟩)
        bracedImage.runpath = ["/work/$ORIGIN/x"] ∧
      (Needs.ofElf (hostOf ["$ORIGIN", "lib.so"] bracedImage).files).searchPaths
        ⟨"$ORIGIN/lib.so", .elf⟩ =
          ["/work//work/$ORIGIN/x"] := by
  decide +kernel

end CallAtlas.Loader
