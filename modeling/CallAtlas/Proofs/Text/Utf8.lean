import CallAtlas.Text.Utf8
import Mathlib

/-!
# Texts written in bytes and read again

The bytes of a text are those of its characters, one after the other, `ofText_eq`. A character is
read back whatever follows it, `readChar_encode`, so a text is: `decode_ofText`. Bytes below 0x80
stand for themselves, `mem_ofText_low`; a text of such characters is written one byte for each, and
is read alike as ASCII: `decodeAscii_ofText`.
-/

namespace CallAtlas.Text

open List

variable {s : String}

theorem toList_loop (b : ByteArray) (i : Nat) (r : List UInt8) :
    ByteArray.toList.loop b i r = r.reverse ++ b.data.toList.drop i := by
  induction i, r using ByteArray.toList.loop.induct b with
  | case1 i r hi ih =>
    have hlt : i < b.data.toList.length := hi
    have hget : b.get! i = b.data.toList[i] := getElem!_pos b.data i hi
    rw [ByteArray.toList.loop, if_pos hi, ih, drop_eq_getElem_cons hlt, hget, reverse_cons,
      append_assoc, singleton_append]
  | case2 i r hi =>
    have hle : b.data.toList.length ≤ i := Nat.le_of_not_lt hi
    rw [ByteArray.toList.loop, if_neg hi, drop_eq_nil_of_le hle, append_nil]

theorem ofText_eq (s : String) : Bytes.ofText s = s.toList.flatMap String.utf8EncodeChar := by
  have hbytes : s.toUTF8 = (s.toList.flatMap String.utf8EncodeChar).toByteArray :=
    String.utf8Encode_toList.symm
  rw [Bytes.ofText, ByteArray.toList, toList_loop, hbytes, toList_data_toByteArray]
  rfl

theorem ofText_append (s t : String) :
    Bytes.ofText (s ++ t) = Bytes.ofText s ++ Bytes.ofText t := by
  rw [ofText_eq, ofText_eq, ofText_eq, String.toList_append, flatMap_append]

/-! ## One character -/

theorem continuations_cons {low high : Nat} {b : UInt8} (h₁ : low ≤ b.toNat) (h₂ : b.toNat ≤ high)
    (count : Nat)
    (r : Bytes) :
    continuations low high (count + 1) (b :: r) = b.toNat :: continuations 0x80 0xBF count r := by
  rw [continuations, if_pos ⟨h₁, h₂⟩]

theorem readChar_of_lead {b : UInt8} {low high : Nat} {t : Bytes} {r : Bytes} (hb : 0x80 ≤ b.toNat)
    (hl : leadByte? b.toNat = some (low, high, t.length))
    (ht : continuations low high t.length (t ++ r) = t.map UInt8.toNat) :
    readChar b (t ++ r) =
      (some (Char.ofNat ((t.map UInt8.toNat).foldl (fun acc x => acc * 64 + (x - 0x80))
        (if t.length = 1 then b.toNat - 0xC0 else if t.length = 2 then b.toNat - 0xE0 else b.toNat -
          0xF0))),
        t.length) := by
  unfold readChar
  rw [if_neg (by omega), hl]
  dsimp only
  rw [ht, if_pos (length_map ..)]

theorem leadByte?_three {v : Nat} (h : 0x7FF < v) (hv : v < 0xD800 ∨ 0xDFFF < v) (h' : v ≤ 0xFFFF) :
    ∃ low high, leadByte? (v / 4096 % 16 + 224) = some (low, high, 2) ∧
      low ≤ v / 64 % 64 + 128 ∧ v / 64 % 64 + 128 ≤ high := by
  unfold leadByte?
  split_ifs
  all_goals first | omega | exact ⟨_, _, rfl, by omega, by omega⟩

theorem leadByte?_four {v : Nat} (h : 0xFFFF < v) (h' : v < 0x110000) :
    ∃ low high, leadByte? (v / 262144 % 8 + 240) = some (low, high, 3) ∧
      low ≤ v / 4096 % 64 + 128 ∧ v / 4096 % 64 + 128 ≤ high := by
  unfold leadByte?
  split_ifs
  all_goals first | omega | exact ⟨_, _, rfl, by omega, by omega⟩

theorem readChar_encode (c : Char) (r : Bytes) :
    ∃ b t, String.utf8EncodeChar c = b :: t ∧ readChar b (t ++ r) = (some c, t.length) := by
  have hv : c.val.toNat < 0xD800 ∨ 0xDFFF < c.val.toNat ∧ c.val.toNat < 0x110000 := c.valid
  have hc : Char.ofNat c.val.toNat = c := Char.ofNat_toNat c
  have hbyte {n : Nat} (hn : n < 256) : (UInt8.ofNat n).toNat = n := by
    rw [UInt8.toNat_ofNat']
    omega
  unfold String.utf8EncodeChar
  dsimp only
  generalize c.val.toNat = v at hv hc ⊢
  split_ifs with h1 h2 h3
  · refine ⟨_, _, rfl, ?_⟩
    unfold readChar
    rw [hbyte (by omega)]
    rw [if_pos (by omega), hc]
    rfl
  · refine ⟨_, _, rfl, ?_⟩
    have hb := hbyte (show v / 64 % 32 + 192 < 256 by omega)
    have ht := hbyte (show v % 64 + 128 < 256 by omega)
    have hlead : leadByte? (v / 64 % 32 + 192) = some (0x80, 0xBF, 1) := if_pos (by omega)
    rw [readChar_of_lead (by omega) (by rw [hb]; exact hlead)
      (continuations_cons (by omega) (by omega) ..), hb]
    simp only [map_cons, map_nil, foldl_cons, foldl_nil, ht, length_singleton, if_true]
    rw [show (v / 64 % 32 + 192 - 192) * 64 + (v % 64 + 128 - 128) = v by omega, hc]
  · refine ⟨_, _, rfl, ?_⟩
    have hb := hbyte (show v / 4096 % 16 + 224 < 256 by omega)
    have ht := hbyte (show v / 64 % 64 + 128 < 256 by omega)
    have ht' := hbyte (show v % 64 + 128 < 256 by omega)
    obtain ⟨low, high, hlead, hl, hh⟩ := leadByte?_three (v := v) (by omega) (by omega) (by omega)
    rw [readChar_of_lead (by omega) (by rw [hb]; exact hlead) (by
      rw [cons_append, length_cons, continuations_cons (by omega) (by omega)]
      exact congrArg _ (continuations_cons (by omega) (by omega) ..)), hb]
    simp only [map_cons, map_nil, foldl_cons, foldl_nil, ht, ht', length_cons]
    rw [if_neg (by decide), if_pos (by decide),
      show ((v / 4096 % 16 + 224 - 224) * 64 + (v / 64 % 64 + 128 - 128)) * 64 +
      (v % 64 + 128 - 128) = v by omega, hc]
  · refine ⟨_, _, rfl, ?_⟩
    have hb := hbyte (show v / 262144 % 8 + 240 < 256 by omega)
    have ht := hbyte (show v / 4096 % 64 + 128 < 256 by omega)
    have ht' := hbyte (show v / 64 % 64 + 128 < 256 by omega)
    have ht'' := hbyte (show v % 64 + 128 < 256 by omega)
    obtain ⟨low, high, hlead, hl, hh⟩ := leadByte?_four (v := v) (by omega) (by omega)
    rw [readChar_of_lead (by omega) (by rw [hb]; exact hlead) (by
      rw [cons_append, length_cons, continuations_cons (by omega) (by omega), cons_append,
        length_cons, continuations_cons (by omega) (by omega)]
      exact congrArg _ (congrArg _ (continuations_cons (by omega) (by omega) ..))), hb]
    simp only [map_cons, map_nil, foldl_cons, foldl_nil, ht, ht', ht'', length_cons]
    rw [if_neg (by decide), if_neg (by decide),
      show (((v / 262144 % 8 + 240 - 240) * 64 + (v / 4096 % 64 + 128 - 128)) * 64 +
        (v / 64 % 64 + 128 - 128)) * 64 + (v % 64 + 128 - 128) = v by omega, hc]

/-! ## Whole texts -/

theorem readChars_encode (c : Char) (r : Bytes) :
    readChars (String.utf8EncodeChar c ++ r) = some c :: readChars r := by
  obtain ⟨b, t, hbytes, hread⟩ := readChar_encode c r
  rw [hbytes, cons_append, readChars, hread]
  rw [drop_left]

theorem decode_ofText (s : String) : decode (Bytes.ofText s) = s := by
  have hread (cs : List Char) : readChars (cs.flatMap String.utf8EncodeChar) = cs.map some := by
    induction cs with
    | nil => rw [flatMap_nil, readChars, map_nil]
    | cons c cs ih => rw [flatMap_cons, readChars_encode, ih, map_cons]
  rw [decode, ofText_eq, hread, map_map]
  show String.ofList (s.toList.map id) = s
  rw [map_id, String.ofList_toList]

theorem encode_low (c : Char) :
    c.toNat < 0x80 ∧ String.utf8EncodeChar c = [UInt8.ofNat c.toNat] ∨
      0x80 ≤ c.toNat ∧ ∀ b ∈ String.utf8EncodeChar c, 0x80 ≤ b.toNat := by
  unfold String.utf8EncodeChar
  dsimp only [Char.toNat]
  split_ifs
  all_goals
    simp only [forall_mem_cons, UInt8.toNat_ofNat', not_mem_nil, false_implies, implies_true,
      and_true]
    omega

theorem mem_ofText_low {b : UInt8} (h : b ∈ Bytes.ofText s) (hb : b.toNat < 0x80) :
    Char.ofNat b.toNat ∈ s.toList := by
  rw [ofText_eq, mem_flatMap] at h
  obtain ⟨c, hc, hmem⟩ := h
  rcases encode_low c with ⟨hl, he⟩ | ⟨-, hall⟩
  · rw [he, mem_singleton] at hmem
    have hn : b.toNat = c.toNat := by
      rw [hmem, UInt8.toNat_ofNat']
      omega
    rwa [hn, Char.ofNat_toNat]
  · exact absurd (hall b hmem) (by omega)

theorem ofText_ascii (h : ∀ c ∈ s.toList, c.toNat < 0x80) :
    Bytes.ofText s = s.toList.map fun c => UInt8.ofNat c.toNat := by
  have hflat (cs : List Char) (h : ∀ c ∈ cs, c.toNat < 0x80) :
      cs.flatMap String.utf8EncodeChar = cs.map fun c => UInt8.ofNat c.toNat := by
    induction cs with
    | nil => rfl
    | cons c cs ih =>
      obtain ⟨hc, hcs⟩ := forall_mem_cons.1 h
      have he : String.utf8EncodeChar c = [UInt8.ofNat c.toNat] :=
        (encode_low c).elim And.right fun hno => absurd hno.1 (by omega)
      rw [flatMap_cons, he, ih hcs, map_cons, singleton_append]
  rw [ofText_eq, hflat _ h]

theorem decodeAscii_ofText (h : ∀ c ∈ s.toList, c.toNat < 0x80) :
    decodeAscii (Bytes.ofText s) = s := by
  have hchars : ((s.toList.map fun c => UInt8.ofNat c.toNat).map fun b =>
      if b < 0x80 then Char.ofNat b.toNat else replacement) = s.toList := by
    rw [map_map]
    conv_rhs => rw [← map_id s.toList]
    refine map_congr_left fun c hc => ?_
    have hn : (UInt8.ofNat c.toNat).toNat = c.toNat := by
      have := h c hc
      rw [UInt8.toNat_ofNat']
      omega
    have hlt : UInt8.ofNat c.toNat < 0x80 := by
      rw [UInt8.lt_iff_toNat_lt, hn]
      exact h c hc
    rw [Function.comp_apply, if_pos hlt, hn, Char.ofNat_toNat, id]
  rw [decodeAscii, ofText_ascii h, hchars, String.ofList_toList]

end CallAtlas.Text
