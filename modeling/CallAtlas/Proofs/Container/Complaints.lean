import CallAtlas.Proofs.Container.Members

/-!
# Complaints about archives

A reading of an archive that fails complains about a malformed archive and names it, with one
exception: where a name is said to stand before the data of its member and its length is no number,
`next_error`. The reader `Visits` the header with that name, so if all stored names have a length
every failure is such a complaint: `members_complaint`.
-/

namespace CallAtlas.Container.Archive

open Text

variable {archive : String} {data : Bytes} {c : Cursor} {e : Failure}

/-- Whether a name is said to stand before the data of its member, with a text for its length that
is no number. -/
def lacksLength (rawName : String) : Bool :=
  match rawName.toList with
  | '#' :: '1' :: '/' :: ds => (readInt? ds).isNone
  | _ => false

/-- The cursors that a reading comes to. -/
inductive Visits (archive : String) (data : Bytes) : Cursor → Prop where
  | first : Visits archive data .first
  | next {c c' : Cursor} {found : Found} (hc : Visits archive data c)
    (hroom : c.pos + headerSize ≤ data.length)
    (h : next archive data c = .ok (c', found)) : Visits archive data c'

/-- A complaint about the archive: a malformed one, with the name of the archive if it has one. -/
def Complaint (archive : String) (e : Failure) : Prop :=
  ∃ reason offset,
    e = .fault ⟨.malformed reason offset, if archive.isEmpty then none else some archive, true⟩

theorem complaint_malformed (archive reason : String) (offset : Option Int) :
    Complaint archive (malformed archive reason offset) := ⟨reason, offset, rfl⟩

/-- The header at a cursor is whole, and its name lacks a length. -/
def LengthMissing (archive : String) (data : Bytes) (c : Cursor) : Prop :=
  ∃ header, readHeader archive c.pos (data.slice c.pos (c.pos + headerSize)) = .ok header ∧
    c.pos + headerSize + header.size ≤ data.length ∧ lacksLength header.name

theorem readHeader_error {pos : Int} {bytes : Bytes} (h : readHeader archive pos bytes = .error e) :
    Complaint archive e := by
  unfold readHeader at h
  split_ifs at h
  · obtain rfl := Except.error.inj h
    exact complaint_malformed ..
  · dsimp only at h
    split at h
    · obtain rfl := Except.error.inj h
      exact complaint_malformed ..
    · cases h

theorem placeMember_error {names body : Bytes} {rawName : String} {start : Int}
    (h : placeMember names rawName start body = .error e) :
    e = .notInteger ∧ lacksLength rawName := by
  unfold placeMember at h
  split at h
  · next ds hds =>
    split at h
    · next hn =>
      obtain rfl := Except.error.inj h
      rw [lacksLength, hds]
      exact ⟨rfl, Option.isNone_iff_eq_none.2 hn⟩
    · cases h
  · split_ifs at h
  · split_ifs at h

theorem next_error (h : next archive data c = .error e) :
    Complaint archive e ∨ e = .notInteger ∧ LengthMissing archive data c := by
  unfold next at h
  cases hr : readHeader archive c.pos (data.slice c.pos (c.pos + headerSize)) with
  | error f =>
    rw [hr] at h
    obtain rfl := Except.error.inj h
    exact .inl (readHeader_error hr)
  | ok header =>
    rw [hr] at h
    simp only [bind, Except.bind] at h
    split at h
    · obtain rfl := Except.error.inj h
      exact .inl (complaint_malformed ..)
    · next hfits =>
      split at h
      · cases h
      · split at h
        · next f hp =>
          obtain rfl := Except.error.inj h
          obtain ⟨he, hl⟩ := placeMember_error hp
          exact .inr ⟨he, header, hr, by simpa using hfits, hl⟩
        · split at h <;> cases h

theorem readFrom_failed (hc : Visits archive data c) (fuel : Nat)
    (h : (readFrom archive data fuel c).2 = .failed e) :
    Complaint archive e ∨ e = .notInteger ∧ ∃ c, Visits archive data c ∧
    LengthMissing archive data c := by
  induction fuel generalizing c with
  | zero => cases h
  | succ fuel ih =>
    unfold readFrom at h
    split at h
    · cases h
    · next hroom =>
      split at h
      · next f hn =>
        obtain rfl := Ending.failed.inj h
        exact (next_error hn).imp_right fun h => ⟨h.1, c, hc, h.2⟩
      · next c' hn => exact ih (hc.next (by omega) hn) h
      · next c' m hn => exact ih (hc.next (by omega) hn) h

/-- **Complaints name their archive.** A reading that fails complains about a malformed archive and
names it, unless the reader comes to a stored name whose length is no number: then the failure is
that of reading the number, and it is no complaint about the archive. -/
theorem members_complaint {data : Bytes} {archive : String} {e : Failure}
    (h : (read data archive).2 = .failed e) :
    (Complaint archive e ↔ e ≠ .notInteger) ∧
      (e = .notInteger → ∃ c, Visits archive data c ∧ LengthMissing archive data c) := by
  have hends : Complaint archive e ∨ e = .notInteger ∧ ∃ c, Visits archive data c ∧
      LengthMissing archive data c := by
    unfold read at h
    split_ifs at h
    · obtain rfl := Ending.failed.inj h
      exact .inl (complaint_malformed ..)
    · obtain rfl := Ending.failed.inj h
      exact .inl (complaint_malformed ..)
    · exact readFrom_failed .first _ h
  have hapart : Complaint archive e → e ≠ .notInteger := by
    rintro ⟨reason, offset, rfl⟩ he
    cases he
  rcases hends with hc | ⟨he, hl⟩
  · exact ⟨⟨fun _ => hapart hc, fun _ => hc⟩, fun he => absurd he (hapart hc)⟩
  · exact ⟨⟨hapart, fun hne => absurd he hne⟩, fun _ => hl⟩

/-- An archive that ends inside the data of its only member. -/
def cutArchive : Bytes := archiveMagic ++ textHeader "#1/2" "5" ++ Bytes.ofAscii "n:"

set_option maxRecDepth 100000 in
theorem cutArchive_complaint :
    (read cutArchive "lib.a").2 =
      .failed (malformed "lib.a" "archive member '#1/2' is truncated" (some 8)) ∧
      Complaint "lib.a" (malformed "lib.a" "archive member '#1/2' is truncated" (some 8)) := by
  have h : (read cutArchive "lib.a").2 =
    .failed (malformed "lib.a" "archive member '#1/2' is truncated" (some 8)) := by decide +kernel
  exact ⟨h, (members_complaint h).1.2 (by decide)⟩

/-- An archive with a stored name whose length is a letter. -/
def letteredArchive : Bytes := archiveMagic ++ textHeader "#1/x" "0"

set_option maxRecDepth 100000 in
/-- The failure is no complaint about the archive. -/
theorem letteredArchive_escapes : read letteredArchive "lib.a" = ([], .failed .notInteger) ∧
    ¬ Complaint "lib.a" .notInteger := by
  refine ⟨by decide +kernel, ?_⟩
  rintro ⟨reason, offset, he⟩
  cases he

end CallAtlas.Container.Archive
