import CallAtlas.Container.ElfImage
import CallAtlas.Proofs.Bitcode.Split
import CallAtlas.Proofs.Text.Utf8

/-!
# Bytes in their places

That some bytes stand at a place of others, `StandsAt`, is kept if the others stand at a place
themselves. A number or a text that stands at a place is read from there. What the builder of files
puts together stands where it says: a text in its table (`placeTexts_stands`), data behind the
header of the file (`layout_stands`), and pieces of one length one behind the other
(`flatMap_stands`).
-/

namespace CallAtlas.Container.Elf

open Text List Bytes

theorem reach_eq : reach = 2 ^ 63 := rfl

/-! ## Bytes at a place -/

/-- The bytes `part` stand at the place `pos` of `data`. -/
def StandsAt (data : Bytes) (pos : Nat) (part : Bytes) : Prop :=
  ∃ u r, u.length = pos ∧ data = u ++ (part ++ r)

variable {data part inner : Bytes} {pos k : Nat}

theorem standsAt_zero (part r : Bytes) : StandsAt (part ++ r) 0 part := ⟨[], r, rfl, rfl⟩

theorem standsAt_append (u part r : Bytes) : StandsAt (u ++ (part ++ r)) u.length part :=
  ⟨u, r, rfl, rfl⟩

namespace StandsAt

theorem sub (h : StandsAt data pos part) : data.sub pos part.length = part := by
  obtain ⟨u, r, rfl, rfl⟩ := h
  rw [sub, drop_left, take_left]

theorem le (h : StandsAt data pos part) : pos + part.length ≤ data.length := by
  obtain ⟨u, r, rfl, rfl⟩ := h
  rw [length_append, length_append]
  omega

theorem drop (h : StandsAt data pos part) : ∃ r, data.drop pos = part ++ r := by
  obtain ⟨u, r, rfl, rfl⟩ := h
  exact ⟨r, drop_left ..⟩

theorem trans (h : StandsAt data pos part) (hi : StandsAt part k inner) :
    StandsAt data (pos + k) inner := by
  obtain ⟨u, r, rfl, rfl⟩ := h
  obtain ⟨v, s, rfl, rfl⟩ := hi
  exact ⟨u ++ v, s ++ r, length_append, by simp only [append_assoc]⟩

theorem append (h : StandsAt data pos part) (u r : Bytes) :
    StandsAt (u ++ (data ++ r)) (u.length + pos) part :=
  (standsAt_append u data r).trans h

theorem number {width n : Nat} (h : StandsAt data pos (ofNat width n)) (hn : n < 256 ^ width) :
    number false data pos width = n := by
  have hsub := h.sub
  rw [Bitcode.length_ofNat] at hsub
  show littleEndian (data.sub pos width) = n
  rw [hsub, Bitcode.littleEndian_ofNat hn]

/-- A text is read up to the zero byte behind it. -/
theorem textAt {f : File} {s : String} (h : StandsAt f.data pos (ofText s ++ [0]))
    (hs : '\x00' ∉ s.toList) (hpos : pos < reach) : f.textAt pos = .ok s := by
  obtain ⟨r, hr⟩ := h.drop
  rw [append_assoc] at hr
  have hzero : (f.data.drop pos).contains 0 := by
    rw [hr, contains_iff_mem]
    exact mem_append_right _ mem_cons_self
  have hline : (f.data.drop pos).takeWhile (· ≠ 0) = ofText s := by
    rw [hr, takeWhile_append_of_pos fun b hb => decide_eq_true ?_, singleton_append,
      takeWhile_cons_of_neg (by decide), append_nil]
    rintro rfl
    exact hs (mem_ofText_low hb (by decide))
  rw [File.textAt, within, if_pos hpos]
  show Except.ok (if (f.data.drop pos).contains 0 = true then _ else _) = _
  rw [if_pos hzero, hline, decode_ofText]

end StandsAt

/-! ## Texts, data and headers in their places -/

theorem placeTexts_stands (table : Bytes) (texts : List String) :
    (∃ r, (placeTexts table texts).1 = table ++ r) ∧
      List.Forall₂ (fun s p => StandsAt (placeTexts table texts).1 p (ofText s ++ [0])) texts
        (placeTexts table texts).2 := by
  induction texts generalizing table with
  | nil => exact ⟨⟨[], (append_nil _).symm⟩, .nil⟩
  | cons s r ih =>
    obtain ⟨⟨x, hx⟩, hall⟩ := ih (table ++ ofText s ++ [0])
    have hx' : (placeTexts (table ++ ofText s ++ [0]) r).1 = table ++ ((ofText s ++ [0]) ++ x) := by
      rw [hx]
      simp only [append_assoc]
    exact ⟨⟨_, hx'⟩, .cons ⟨table, x, rfl, hx'⟩ hall⟩

namespace Image

theorem layout_stands (pos : Nat) (ds : List Bytes) :
    (layout pos ds).2.2 = pos + (layout pos ds).1.length ∧
      ∀ u r : Bytes, u.length = pos →
        List.Forall₂ (fun d p => StandsAt (u ++ ((layout pos ds).1 ++ r)) p d) ds
          (layout pos ds).2.1 := by
  induction ds generalizing pos with
  | nil => exact ⟨rfl, fun _ _ _ => .nil⟩
  | cons d ds ih =>
    obtain ⟨hstop, hall⟩ := ih (pos + padding pos 8 + d.length)
    have hpad : (zeros (padding pos 8)).length = padding pos 8 := length_replicate
    refine ⟨?_, fun u r hu => ?_⟩
    · show (layout (pos + padding pos 8 + d.length) ds).2.2 =
        pos + (zeros (padding pos 8) ++ d ++ (layout (pos + padding pos 8 + d.length) ds).1).length
      rw [length_append, length_append]
      omega
    · have hbody : u ++ ((layout pos (d :: ds)).1 ++ r) = u ++ zeros (padding pos 8) ++
          (d ++ ((layout (pos + padding pos 8 + d.length) ds).1 ++ r)) := by
        show u ++
          (zeros (padding pos 8) ++ d ++ (layout (pos + padding pos 8 + d.length) ds).1 ++ r) = _
        simp only [append_assoc]
      have hlen : (u ++ zeros (padding pos 8)).length = pos + padding pos 8 := by
        rw [length_append, hpad, hu]
      have hrest := hall (u ++ zeros (padding pos 8) ++ d) r (by rw [length_append, hlen])
      rw [hbody]
      rw [append_assoc _ d] at hrest
      exact .cons ⟨_, _, hlen, rfl⟩ hrest

end Image

theorem zeros_stands {s w n : Nat} (h : s + w ≤ n) : StandsAt (zeros n) s (ofNat w 0) := by
  have hzero : ofNat w 0 = zeros w := by
    clear h
    induction w with
    | zero => rfl
    | succ w ih => rw [ofNat, ih]; rfl
  refine ⟨zeros s, zeros (n - s - w), length_replicate, ?_⟩
  rw [hzero]
  unfold zeros
  rw [replicate_append_replicate, replicate_append_replicate]
  congr 1
  omega

theorem flatten_stands {ps : List Bytes} {lengths : List Nat} (hl : ps.map List.length = lengths)
    (hk : ps[k]? = some part) (hpos : (lengths.take k).sum = pos) :
    StandsAt ps.flatten pos part := by
  obtain ⟨hlt, hget⟩ := List.getElem?_eq_some_iff.1 hk
  refine ⟨(ps.take k).flatten, (ps.drop (k + 1)).flatten, ?_, ?_⟩
  · rw [length_flatten, map_take, hl, hpos]
  · rw [← flatten_cons, ← hget, ← drop_eq_getElem_cons hlt, ← flatten_append, take_append_drop]

theorem flatMap_stands {α : Type} {g : α → Bytes} {n : Nat} (hg : ∀ x, (g x).length = n)
    {l : List α} {k : Nat} {x : α}
    (hx : l[k]? = some x) : StandsAt (l.flatMap g) (k * n) (g x) := by
  induction l generalizing k with
  | nil => cases hx
  | cons y l ih =>
    cases k with
    | zero =>
      obtain rfl : y = x := Option.some.inj hx
      rw [zero_mul]
      exact standsAt_zero ..
    | succ k =>
      have h := (ih hx).append (g y) []
      rw [append_nil, hg, add_comm] at h
      rwa [Nat.succ_mul]

end CallAtlas.Container.Elf
