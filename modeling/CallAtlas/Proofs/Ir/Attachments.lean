import CallAtlas.Proofs.Ir.Cuts
import CallAtlas.Proofs.Ir.Entities

/-!
# Debug attachments of changed texts

A change of references that moves the numbers of metadata nodes moves the debug attachment of a text
with them. This is so in a `Steady` text: no literal holds an attachment, and every number behind an
exclamation mark is a whole word. `Moved Q` relates two such texts whose numbers `Q` relates and
whose other references may differ, and then `Q` relates their attachments as well,
`Moved.debugRef?`. A `Mover` is a change of references under which a steady text moves,
`Mover.moved`; renaming and renumbering are movers.
-/

namespace CallAtlas.Ir

open Text List

variable {c : Char} {n : Nat} {s u : List Char}

/-! ## Attachments -/

/-- A debug attachment at the head of a text: the keyword, blanks and a number. -/
def AttachedAt (s : List Char) (n : Nat) : Prop :=
  ∃ b bs ds r, s = '!' :: 'd' :: 'b' :: 'g' :: b :: (bs ++ '!' :: (ds ++ r)) ∧
    (∀ c ∈ b :: bs, isBlank c) ∧
    ds ≠ [] ∧ (∀ c ∈ ds, isDecimal c) ∧ r.head?.any isDecimal = false ∧ digitsValue ds = n

theorem debugAt?_eq_some : debugAt? s = some n ↔ AttachedAt s n := by
  unfold debugAt?
  constructor
  · intro h
    obtain ⟨r, hr, h⟩ := Option.bind_eq_some_iff.1 h
    obtain ⟨b, hb, h⟩ := Option.bind_eq_some_iff.1 h
    obtain ⟨r, rfl⟩ := head?_eq_some_iff.1 hb
    have hbl : isBlank b := by
      by_contra hbl
      simp [hbl] at h
    simp only [hbl, Bool.not_true, Bool.false_eq_true, if_false] at h
    split at h
    · next t ht =>
      obtain ⟨⟨ds, u⟩, hu, rfl⟩ := Option.map_eq_some_iff.1 h
      obtain ⟨hne, hds, hend⟩ := run?_eq_some hu
      rw [trimLeft, dropWhile_cons_of_pos hbl] at ht
      have hs : r = r.takeWhile isBlank ++ '!' :: (ds ++ u) := by
        rw [← (run?_split hu).1, ← ht, takeWhile_append_dropWhile]
      refine ⟨b, r.takeWhile isBlank, ds, u, (dropHead?_eq_some hr).trans (by rw [← hs]; rfl), ?_,
        hne, hds, hend, rfl⟩
      intro c hc
      rcases mem_cons.1 hc with rfl | hc
      · exact hbl
      · exact mem_takeWhile_imp hc
    · cases h
  · rintro ⟨b, bs, ds, r, rfl, hb, hne, hds, hr, rfl⟩
    have hd : dropHead? "!dbg".toList ('!' :: 'd' :: 'b' :: 'g' :: b :: (bs ++ '!' :: (ds ++ r))) =
        _ :=
      dropHead?_append "!dbg".toList (b :: (bs ++ '!' :: (ds ++ r)))
    have ht : trimLeft (b :: (bs ++ '!' :: (ds ++ r))) = '!' :: (ds ++ r) :=
      (run_append hb (by rfl)).2
    rw [hd]
    simp [ht, run?_append hne hds hr, hb b mem_cons_self]

theorem debugAt?_ne (hc : c ≠ '!') (s : List Char) : debugAt? (c :: s) = none := by
  cases h : debugAt? (c :: s) with
  | none => rfl
  | some n =>
    obtain ⟨b, bs, ds, r, hs, -⟩ := debugAt?_eq_some.1 h
    exact absurd (cons.inj hs).1 hc

theorem debugRef?_cons (hc : c ≠ '!') (s : List Char) : debugRef? (c :: s) = debugRef? s := by
  rw [debugRef?, debugAt?_ne hc]
  rfl

/-- A text without exclamation marks can be put before any other. -/
theorem debugRef?_append (hu : ∀ c ∈ u, c ≠ '!') (s : List Char) :
    debugRef? (u ++ s) = debugRef? s := by
  induction u with
  | nil => rfl
  | cons c u ih =>
    rw [cons_append, debugRef?_cons (hu c mem_cons_self),
      ih fun d hd => hu d (mem_cons_of_mem _ hd)]

/-- A character that stands in no attachment. -/
def isForeign (c : Char) : Bool :=
  c ≠ '!' && c ≠ 'd' && c ≠ 'b' && c ≠ 'g' && !isBlank c && !isDecimal c

theorem attachedAt_append (hc : isForeign c) : AttachedAt (u ++ c :: s) n ↔ AttachedAt u n := by
  simp only [isForeign, Bool.and_eq_true, Bool.not_eq_true'] at hc
  obtain ⟨⟨⟨⟨⟨h1, h2⟩, h3⟩, h4⟩, hb⟩, hd⟩ := hc
  constructor
  · rintro ⟨b, bs, ds, r, hs, hbs, hne, hds, hr, hn⟩
    have hmem : c ∉ '!' :: 'd' :: 'b' :: 'g' :: b :: (bs ++ '!' :: ds) := by
      have hbs' : c ∉ b :: bs := fun h => by rw [hbs c h] at hb; cases hb
      have hds' : c ∉ ds := fun h => by rw [hds c h] at hd; cases hd
      simp_all
    have hs' : u ++ c :: s = '!' :: 'd' :: 'b' :: 'g' :: b :: (bs ++ '!' :: ds) ++ r := by
      simpa using hs
    rcases append_eq_append_iff.1 hs' with ⟨a, ha, hcs⟩ | ⟨r', rfl, rfl⟩
    · -- the character would belong to the attachment
      cases a with
      | nil => exact ⟨b, bs, ds, [], by simpa using ha.symm, hbs, hne, hds, rfl, hn⟩
      | cons d a =>
        obtain ⟨rfl, -⟩ := cons.inj hcs
        exact absurd (ha ▸ by simp) hmem
    · refine ⟨b, bs, ds, r', by simp, hbs, hne, hds, ?_, hn⟩
      cases r' with
      | nil => rfl
      | cons d r' => exact hr
  · rintro ⟨b, bs, ds, r, rfl, hbs, hne, hds, hr, hn⟩
    refine ⟨b, bs, ds, r ++ c :: s, by simp, hbs, hne, hds, ?_, hn⟩
    cases r with
    | nil => exact hd
    | cons d r => exact hr

/-- A foreign character keeps attachments apart. -/
theorem debugRef?_foreign (hc : isForeign c) (u s : List Char) :
    debugRef? (u ++ c :: s) = (debugRef? u).or (debugRef? s) := by
  have hne : c ≠ '!' := by
    rintro rfl
    cases hc
  induction u with
  | nil => exact debugRef?_cons hne s
  | cons d u ih =>
    have hd : debugAt? (d :: u ++ c :: s) = debugAt? (d :: u) := by
      refine Option.ext fun n => ?_
      rw [debugAt?_eq_some, debugAt?_eq_some, attachedAt_append hc]
    show (debugAt? (d :: u ++ c :: s)).orElse (fun _ => debugRef? (u ++ c :: s)) =
      ((debugAt? (d :: u)).orElse fun _ => debugRef? u).or (debugRef? s)
    rw [hd, ih]
    cases debugAt? (d :: u) <;> rfl

theorem debugRef?_body (b s : List Char) (hb : debugRef? b = none) :
    debugRef? ('"' :: b ++ '"' :: s) = debugRef? s := by
  rw [cons_append, debugRef?_cons (by decide), debugRef?_foreign (by decide), hb]
  rfl

theorem isBare_ne_bang (h : isBare c) : c ≠ '!' := by
  rintro rfl
  revert h
  decide

theorem Token.debugRef?_append (hu : Token u) (h : debugRef? u = none) (s : List Char) :
    debugRef? (u ++ s) = debugRef? s := by
  cases hu with
  | bare hb => exact Ir.debugRef?_append (fun c hc => isBare_ne_bang (hb c hc)) s
  | @quoted b hb =>
    rw [cons_append, debugRef?_cons (by decide), debugRef?_foreign (by decide),
      Option.or_eq_none_iff] at h
    rw [quoted_append, debugRef?_body b s h.1]

theorem debugRef?_number {ds : List Char} (hne : ds ≠ []) (hds : ∀ c ∈ ds, isDecimal c)
    (s : List Char) :
    debugRef? ('!' :: ds ++ s) = debugRef? s := by
  have hd : debugAt? ('!' :: ds ++ s) = none := by
    cases h : debugAt? ('!' :: ds ++ s) with
    | none => rfl
    | some n =>
      obtain ⟨b, bs, es, r, hs, -⟩ := debugAt?_eq_some.1 h
      obtain ⟨d, ds, rfl⟩ := exists_cons_of_ne_nil hne
      obtain ⟨-, hs⟩ := cons.inj hs
      have hc := hds d mem_cons_self
      rw [(cons.inj hs).1] at hc
      exact absurd hc (by decide)
  rw [cons_append] at hd
  rw [cons_append, debugRef?, hd]
  exact debugRef?_append (fun c hc => isBare_ne_bang (isBare_of_isDecimal (hds c hc))) s

/-! ## Steady texts -/

/-- A text whose literals hold no attachment and in which every number behind an exclamation mark is
a whole word that `P` holds of. -/
inductive Steady (P : Nat → Prop) : List Char → Prop where
  | nil : Steady P []
  | char {c : Char} {s : List Char} : c ≠ '"' → (c = '!' → s.head?.any isDecimal = false) →
    Steady P s →
      Steady P (c :: s)
  | literal {b s : List Char} : IsBody b → debugRef? b = none → Steady P s →
    Steady P ('"' :: b ++ '"' :: s)
  | number {ds s : List Char} : ds ≠ [] → (∀ c ∈ ds, isDecimal c) → continuesWord s = false →
      P (digitsValue ds) → Steady P s → Steady P ('!' :: ds ++ s)

/-- Two steady texts that are the same but for the references, the numbers behind exclamation marks
being related by `Q`. -/
inductive Moved (Q : Nat → Nat → Prop) : List Char → List Char → Prop where
  | nil : Moved Q [] []
  | char {c : Char} {s s' : List Char} : c ≠ '"' → (c = '!' → s.head?.any isDecimal = false) →
    Moved Q s s' →
      Moved Q (c :: s) (c :: s')
  | literal {b s s' : List Char} : IsBody b → debugRef? b = none → Moved Q s s' →
      Moved Q ('"' :: b ++ '"' :: s) ('"' :: b ++ '"' :: s')
  | token {c : Char} {u u' s s' : List Char} : isSigil c → c ≠ '!' → Token u → Token u' →
      debugRef? u = none → debugRef? u' = none → Moved Q s s' →
      Moved Q (c :: u ++ s) (c :: u' ++ s')
  | number {ds ds' s s' : List Char} : ds ≠ [] → ds' ≠ [] → (∀ c ∈ ds, isDecimal c) →
      (∀ c ∈ ds', isDecimal c) → continuesWord s = false → Q (digitsValue ds) (digitsValue ds') →
      Moved Q s s' → Moved Q ('!' :: ds ++ s) ('!' :: ds' ++ s')

namespace Moved

variable {Q : Nat → Nat → Prop} {s s' : List Char}

theorem head?_eq (h : Moved Q s s') : s'.head? = s.head? := by
  cases h <;> rfl

theorem continuesWord_eq (h : Moved Q s s') : continuesWord s' = continuesWord s := by
  exact (show Akin s s' from .inl h.head?_eq).continuesWord_eq

theorem symm (h : Moved Q s s') : Moved (fun n m => Q m n) s' s := by
  induction h with
  | nil => exact nil
  | char hq hb h ih => exact char hq (fun hc => h.head?_eq ▸ hb hc) ih
  | literal hb hd _ ih => exact literal hb hd ih
  | token hc hne hu hu' hd hd' _ ih => exact token hc hne hu' hu hd' hd ih
  | number hne hne' hds hds' hw hQ h ih =>
    exact number hne' hne hds' hds (h.continuesWord_eq.trans hw) hQ ih

/-- A character that starts neither a literal nor a reference is the same in both texts. -/
theorem cons_inv (h : Moved Q (c :: s) s') (hq : c ≠ '"') (hc : isSigil c = false) :
    ∃ t, s' = c :: t ∧ Moved Q s t := by
  cases h with
  | char _ _ h => exact ⟨_, rfl, h⟩
  | literal => exact absurd rfl hq
  | token hs => rw [hc] at hs; cases hs
  | number => cases hc

theorem run_inv (h : Moved Q (u ++ s) s') (hu : ∀ c ∈ u, c ≠ '"' ∧ isSigil c = false) :
    ∃ t, s' = u ++ t ∧ Moved Q s t := by
  induction u generalizing s' with
  | nil => exact ⟨s', rfl, h⟩
  | cons c u ih =>
    obtain ⟨hq, hc⟩ := hu c mem_cons_self
    obtain ⟨t, rfl, ht⟩ := h.cons_inv hq hc
    obtain ⟨r, rfl, hr⟩ := ih ht fun d hd => hu d (mem_cons_of_mem _ hd)
    exact ⟨r, rfl, hr⟩

theorem bang_inv (h : Moved Q ('!' :: s) s') (hs : s.head?.any isDecimal = false) :
    ∃ t, s' = '!' :: t ∧ Moved Q s t := by
  generalize hr : '!' :: s = r at h
  cases h with
  | nil => cases hr
  | char _ _ h =>
    obtain ⟨rfl, rfl⟩ := cons.inj hr
    exact ⟨_, rfl, h⟩
  | literal => cases hr
  | token _ hne => exact absurd (cons.inj hr).1.symm hne
  | @number ds _ _ _ hne _ hds =>
    obtain ⟨-, rfl⟩ := cons.inj hr
    cases ds with
    | nil => exact absurd rfl hne
    | cons d ds =>
      have hd : isDecimal d = false := hs
      rw [hds d mem_cons_self] at hd
      cases hd

theorem number_inv {ds r : List Char} (h : Moved Q ('!' :: ds ++ r) s') (hne : ds ≠ [])
    (hds : ∀ c ∈ ds, isDecimal c) (hr : r.head?.any isDecimal = false) :
    ∃ ds' r', s' = '!' :: ds' ++ r' ∧ ds' ≠ [] ∧ (∀ c ∈ ds', isDecimal c) ∧
      continuesWord r = false ∧ Q (digitsValue ds) (digitsValue ds') ∧ Moved Q r r' := by
  generalize hs : '!' :: ds ++ r = s at h
  cases h with
  | nil => cases hs
  | char _ hb _ =>
    obtain ⟨rfl, rfl⟩ := cons.inj hs
    cases ds with
    | nil => exact absurd rfl hne
    | cons d ds =>
      have hd : isDecimal d = false := hb rfl
      rw [hds d mem_cons_self] at hd
      cases hd
  | literal => cases hs
  | token _ hne => exact absurd (cons.inj hs).1.symm hne
  | @number es es' t t' hne' hne'' hes hes' hw hQ h =>
    obtain ⟨-, he⟩ := cons.inj hs
    have h1 := run_append hds hr
    have h2 := run_append hes (head?_any_isDecimal hw)
    obtain rfl : ds = es := h1.1.symm.trans ((congrArg _ he).trans h2.1)
    obtain rfl : r = t := append_cancel_left he
    exact ⟨es', t', rfl, hne'', hes', hw, hQ, h⟩

theorem attachedAt (h : Moved Q s s') (ha : AttachedAt s n) : ∃ m, Q n m ∧ AttachedAt s' m := by
  obtain ⟨b, bs, ds, r, rfl, hbs, hne, hds, hr, rfl⟩ := ha
  obtain ⟨t, rfl, hd⟩ := h.bang_inv (by rfl)
  have hk : ∀ c ∈ 'd' :: 'b' :: 'g' :: b :: bs, c ≠ '"' ∧ isSigil c = false := by
    simp only [mem_cons] at hbs ⊢
    rintro c (rfl | rfl | rfl | hc)
    · decide
    · decide
    · decide
    · exact isBlank_plain (hbs c hc)
  obtain ⟨t, rfl, hn⟩ := hd.run_inv hk
  obtain ⟨ds', r', rfl, hne', hds', hw, hQ, h⟩ := hn.number_inv hne hds hr
  refine ⟨_, hQ, b, bs, ds', r', by simp, hbs, hne', hds', ?_, rfl⟩
  exact head?_any_isDecimal (h.continuesWord_eq.trans hw)

theorem debugAt?_rel (h : Moved Q s s') : Option.Rel Q (debugAt? s) (debugAt? s') := by
  cases hs : debugAt? s with
  | some n =>
    obtain ⟨m, hQ, hm⟩ := h.attachedAt (debugAt?_eq_some.1 hs)
    rw [debugAt?_eq_some.2 hm]
    exact .some hQ
  | none =>
    cases hs' : debugAt? s' with
    | none => exact .none
    | some m =>
      obtain ⟨n, -, hn⟩ := h.symm.attachedAt (debugAt?_eq_some.1 hs')
      rw [debugAt?_eq_some.2 hn] at hs
      cases hs

theorem debugRef?_rel (h : Moved Q s s') : Option.Rel Q (debugRef? s) (debugRef? s') := by
  induction h with
  | nil => exact .none
  | @char c s s' hq hb h ih =>
    have hd := (char hq hb h).debugAt?_rel
    show Option.Rel Q ((debugAt? (c :: s)).orElse fun _ => debugRef? s)
      ((debugAt? (c :: s')).orElse fun _ => debugRef? s')
    generalize debugAt? (c :: s) = o, debugAt? (c :: s') = o' at hd
    cases hd with
    | none => exact ih
    | some hQ => exact .some hQ
  | literal hb hd _ ih => rwa [debugRef?_body _ _ hd, debugRef?_body _ _ hd]
  | token hc hne hu hu' hd hd' _ ih =>
    rwa [cons_append, cons_append, debugRef?_cons hne, debugRef?_cons hne, hu.debugRef?_append hd,
      hu'.debugRef?_append hd']
  | number hne hne' hds hds' hw hQ h ih =>
    rwa [debugRef?_number hne hds, debugRef?_number hne' hds']

end Moved

namespace Steady

variable {P : Nat → Prop} {s : List Char}

theorem terminated (h : Steady P s) : Ir.terminated false s := by
  induction h with
  | nil => rfl
  | char hq _ _ ih => rwa [terminated_cons hq]
  | literal hb _ _ ih => rwa [terminated_body hb]
  | number hne hds _ _ _ ih =>
    rwa [cons_append, terminated_cons (by decide),
      Token.terminated (.bare fun c hc => isBare_of_isDecimal (hds c hc))]

theorem mono {P' : Nat → Prop} (h : Steady P s) (hP : ∀ n, P n → P' n) : Steady P' s := by
  induction h with
  | nil => exact .nil
  | char hq hb _ ih => exact .char hq hb ih
  | literal hb hd _ ih => exact .literal hb hd ih
  | number hne hds hw h _ ih => exact .number hne hds hw (hP _ h) ih

theorem moved_self (h : Steady P s) : Moved (fun n m => m = n ∧ P n) s s := by
  induction h with
  | nil => exact .nil
  | char hq hb _ ih => exact .char hq hb ih
  | literal hb hd _ ih => exact .literal hb hd ih
  | number hne hds hw hP _ ih => exact .number hne hne hds hds hw ⟨rfl, hP⟩ ih

theorem debugRef? (h : Steady P s) (hn : Ir.debugRef? s = some n) : P n := by
  have hr := h.moved_self.debugRef?_rel
  rw [hn] at hr
  cases hr with
  | some h => exact h.2

theorem tail (h : Steady P (c :: s)) (hq : c ≠ '"') (hc : c ≠ '!') : Steady P s := by
  cases h with
  | char _ _ h => exact h
  | literal => exact absurd rfl hq
  | number => exact absurd rfl hc

theorem body_inv {b : List Char} (h : Steady P ('"' :: b ++ '"' :: s)) (hb : IsBody b) :
    Ir.debugRef? b = none ∧ Steady P s := by
  generalize hs : '"' :: b ++ '"' :: s = r at h
  cases h with
  | nil => cases hs
  | char hq => exact absurd (cons.inj hs).1.symm hq
  | literal hb' hd h =>
    obtain ⟨rfl, rfl⟩ := hb.unique hb' (cons.inj hs).2
    exact ⟨hd, h⟩
  | number => cases hs

theorem token_inv (h : Steady P (u ++ s)) (hu : Token u) : Ir.debugRef? u = none ∧ Steady P s := by
  cases hu with
  | @bare u hb =>
    induction u with
    | nil => exact ⟨rfl, h⟩
    | cons c u ih =>
      have hc := hb c mem_cons_self
      obtain ⟨hd, hs⟩ := ih (h.tail (isBare_ne_quote hc) (isBare_ne_bang hc)) fun d hd =>
        hb d (mem_cons_of_mem _ hd)
      exact ⟨by rwa [debugRef?_cons (isBare_ne_bang hc)], hs⟩
  | @quoted b hb =>
    obtain ⟨hd, h⟩ := (quoted_append b s ▸ h).body_inv hb
    exact ⟨debugRef?_body b [] hd, h⟩

end Steady

theorem Moved.steady {Q : Nat → Nat → Prop} {s' : List Char} (h : Moved Q s s') :
    Steady (fun n => ∃ m, Q n m) s := by
  induction h with
  | nil => exact .nil
  | char hq hb _ ih => exact .char hq hb ih
  | literal hb hd _ ih => exact .literal hb hd ih
  | @token c u u' s s' hc hne hu _ hd _ _ ih =>
    refine .char (isSigil_ne_quote hc) (fun h => absurd h hne) ?_
    cases hu with
    | @bare u hb =>
      induction u with
      | nil => exact ih
      | cons d u ihu =>
        have hd' := hb d mem_cons_self
        rw [debugRef?_cons (isBare_ne_bang hd')] at hd
        exact .char (isBare_ne_quote hd') (fun h => absurd h (isBare_ne_bang hd'))
          (ihu hd fun e he => hb e (mem_cons_of_mem _ he))
    | @quoted b hb =>
      rw [cons_append, debugRef?_cons (by decide), debugRef?_foreign (by decide),
        Option.or_eq_none_iff] at hd
      show Steady _ ('"' :: b ++ ['"'] ++ s)
      rw [quoted_append]
      exact .literal hb hd.1 ih
  | number hne _ hds _ hw hQ _ ih => exact .number hne hds hw ⟨_, hQ⟩ ih

/-- Whether a text is steady. -/
def isSteady (p : Nat → Bool) (s : List Char) : Bool :=
  match s with
  | [] => true
  | c :: s =>
    if c = '"' then
      match _h : closeQuote s with
      | some (b, r) => (debugRef? b).isNone && isSteady p r
      | none => false
    else if c = '!' then
      match _h : run? isDecimal s with
      | some (ds, r) => !continuesWord r && p (digitsValue ds) && isSteady p r
      | none => isSteady p s
    else isSteady p s
termination_by s.length
decreasing_by
  · rw [closeQuote_split _h]
    simp
    omega
  · rw [(run?_split _h).1]
    simp
  · simp
  · simp

theorem isSteady_iff {p : Nat → Bool} : isSteady p s ↔ Steady (p · = true) s := by
  constructor
  · fun_induction isSteady p s with
    | case1 => exact fun _ => .nil
    | case2 s b r h ih =>
      intro hs
      rw [Bool.and_eq_true, Option.isNone_iff_eq_none] at hs
      rw [closeQuote_split h]
      exact .literal (isBody_of_closeQuote h) hs.1 (ih hs.2)
    | case3 => exact fun hs => absurd hs (by simp)
    | case4 s ds r h _ ih =>
      intro hs
      simp only [Bool.and_eq_true, Bool.not_eq_true'] at hs
      obtain ⟨hne, hds, -⟩ := run?_eq_some h
      rw [(run?_split h).1]
      exact .number hne hds hs.1.1 hs.1.2 (ih hs.2)
    | case5 s h hq ih => exact fun hs => .char hq (fun _ => run?_eq_none.1 h) (ih hs)
    | case6 c s hq hc ih => exact fun hs => .char hq (fun h => absurd h hc) (ih hs)
  · intro h
    induction h with
    | nil => rw [isSteady]
    | @char c s hq hb _ ih =>
      rw [isSteady, if_neg hq]
      split_ifs with hc
      · split
        · next ds r hr =>
          rw [run?_eq_none.2 (hb hc)] at hr
          cases hr
        · exact ih
      · exact ih
    | @literal b s hb hd _ ih =>
      rw [cons_append, isSteady, if_pos rfl]
      split
      · next b' r h =>
        rw [closeQuote_body hb] at h
        obtain ⟨rfl, rfl⟩ := Prod.mk.inj (Option.some.inj h)
        rw [hd, ih]
        rfl
      · next h =>
        rw [closeQuote_body hb] at h
        cases h
    | @number ds s hne hds hw hp _ ih =>
      have hr := run?_append hne hds (head?_any_isDecimal hw)
      rw [cons_append, isSteady, if_neg (by decide), if_pos rfl]
      split
      · next ds' r h =>
        rw [hr] at h
        obtain ⟨rfl, rfl⟩ := Prod.mk.inj (Option.some.inj h)
        rw [hw, hp, ih]
        rfl
      · next h =>
        rw [hr] at h
        cases h

instance {P : Nat → Prop} [DecidablePred P] (s : List Char) : Decidable (Steady P s) :=
  decidable_of_iff (isSteady (fun n => decide (P n)) s = true)
    (isSteady_iff.trans ⟨fun h => h.mono fun _ => of_decide_eq_true,
      fun h => h.mono fun _ => decide_eq_true⟩)

/-! ## Changes of references -/

/-- A change of references that relates the numbers behind exclamation marks by `Q`. -/
structure Mover {α : Type} (R : Reader α) (p : Char → Bool) (f : α → List Char → List Char)
    (Q : Nat → Nat → Prop) :
    Prop where
  sighted : Sighted R
  replaces : Replaces R p f
  /-- Nothing starts with an exclamation mark but a number. -/
  bang : ∀ {s}, s.head?.any isDecimal = false → R.read ('!' :: s) = none
  number : ∀ {ds s}, ds ≠ [] → (∀ c ∈ ds, isDecimal c) → continuesWord s = false →
    ∃ ds', ds' ≠ [] ∧ (∀ c ∈ ds', isDecimal c) ∧ Q (digitsValue ds) (digitsValue ds') ∧
      mapReferences R f ('!' :: ds ++ s) = '!' :: ds' ++ mapReferences R f s
  /-- No attachment is written. -/
  calm : ∀ {s a t r}, R.read s = some (a, t, r) → debugRef? t = none → debugRef? (f a t) = none

theorem Mover.moved {α : Type} {R : Reader α} {p : Char → Bool} {f : α → List Char → List Char}
    {Q : Nat → Nat → Prop}
    (hm : Mover R p f Q) {P : Nat → Prop} (hs : Steady P s) : Moved Q s (mapReferences R f s) := by
  induction hn : s.length using Nat.strongRecOn generalizing s with
  | ind n ih =>
    subst hn
    cases hs with
    | nil => rw [mapReferences_nil]; exact .nil
    | @literal b s hb hd hs =>
      rw [mapReferences_body hb]
      exact .literal hb hd (ih s.length (by simp; omega) hs rfl)
    | @number ds s hne hds hw hP hs =>
      obtain ⟨ds', hne', hds', hQ, he⟩ := hm.number hne hds hw
      rw [he]
      exact .number hne hne' hds hds' hw hQ (ih s.length (by simp) hs rfl)
    | @char c s hq hb hs =>
      cases hr : R.read (c :: s) with
      | none =>
        rw [mapReferences_cons R f hq hr]
        exact .char hq hb (ih s.length (by simp) hs rfl)
      | some v =>
        obtain ⟨a, t, r⟩ := v
        obtain ⟨d, u, u', hd, -, rfl, hfu, hu, hu'⟩ := hm.replaces hr
        have hsplit := (R.split hr).1
        obtain ⟨rfl, rfl⟩ := cons.inj hsplit
        have hne : c ≠ '!' := by
          rintro rfl
          rw [hm.bang (hb rfl)] at hr
          cases hr
        obtain ⟨hcalm, hs⟩ := hs.token_inv hu
        have hcalm' := hm.calm hr (by rwa [debugRef?_cons hne])
        rw [hfu, debugRef?_cons hne] at hcalm'
        rw [mapReferences_read R f hq (isSigil_ne_c hd) hr, hfu]
        exact .token hd hne hu hu' hcalm hcalm' (ih r.length (by simp) hs rfl)

/-! ## Renaming -/

theorem escape_cons_inv {t : List Char} (h : escape s = c :: t) (hc : c ≠ '\\') :
    ∃ s', s = c :: s' ∧ t = escape s' := by
  cases s with
  | nil => cases h
  | cons d s =>
    rw [escape, flatMap_cons] at h
    by_cases hd : d = '"' ∨ d = '\\' ∨ ¬ isPrintable d
    · rw [escapeChar, if_pos hd] at h
      exact absurd (cons.inj h).1.symm hc
    · rw [escapeChar, if_neg hd] at h
      obtain ⟨rfl, rfl⟩ := cons.inj h
      exact ⟨s, rfl, rfl⟩

theorem escape_append_inv {t : List Char} (h : escape s = u ++ t) (hu : '\\' ∉ u) :
    ∃ s', s = u ++ s' ∧ t = escape s' := by
  induction u generalizing s with
  | nil => exact ⟨s, rfl, h.symm⟩
  | cons c u ih =>
    rw [mem_cons, not_or] at hu
    obtain ⟨s, rfl, hs⟩ := escape_cons_inv h (symm hu.1)
    obtain ⟨r, rfl, hr⟩ := ih hs.symm hu.2
    exact ⟨r, rfl, hr⟩

theorem debugAt?_escape (h : debugAt? s = none) : debugAt? (escape s) = none := by
  cases he : debugAt? (escape s) with
  | none => rfl
  | some n =>
    obtain ⟨b, bs, ds, r, hs, hbs, hne, hds, -, -⟩ := debugAt?_eq_some.1 he
    have hu : '\\' ∉ '!' :: 'd' :: 'b' :: 'g' :: b :: (bs ++ '!' :: ds) := by
      have h1 : '\\' ∉ b :: bs := fun h => absurd (hbs _ h) (by decide)
      have h2 : '\\' ∉ ds := fun h => absurd (hds _ h) (by decide)
      simp_all
    obtain ⟨t, rfl, -⟩ := escape_append_inv (by simpa using hs) hu
    have ha : AttachedAt ('!' :: 'd' :: 'b' :: 'g' :: b :: (bs ++ '!' :: ds) ++ t)
        (digitsValue (ds ++ t.takeWhile isDecimal)) := by
      refine ⟨b, bs, ds ++ t.takeWhile isDecimal, t.dropWhile isDecimal, ?_, hbs, by simp [hne], ?_,
        head?_dropWhile_any isDecimal t, rfl⟩
      · simp
      · intro c hc
        rcases mem_append.1 hc with hc | hc
        · exact hds c hc
        · exact mem_takeWhile_imp hc
    rw [debugAt?_eq_some.2 ha] at h
    cases h

theorem debugRef?_escape (h : debugRef? s = none) : debugRef? (escape s) = none := by
  induction s with
  | nil => rfl
  | cons c s ih =>
    have hs : debugAt? (c :: s) = none ∧ debugRef? s = none := by
      rw [debugRef?] at h
      cases hd : debugAt? (c :: s) with
      | none =>
        rw [hd] at h
        exact ⟨rfl, h⟩
      | some n => rw [hd] at h; cases h
    have he := debugAt?_escape hs.1
    rw [escape, flatMap_cons] at he ⊢
    rcases escapeChar_cases c with ⟨hc, -⟩ | ⟨a, b, u, hc, hu⟩
    · rw [hc, singleton_append] at he ⊢
      rw [debugRef?, he]
      exact ih hs.2
    · have hne : ∀ d ∈ '\\' :: a :: b :: u, d ≠ '!' := by
        rintro d hd rfl
        rcases mem_cons.1 hd with hd | hd
        · exact absurd hd (by decide)
        · exact absurd (hu _ hd) (by decide)
      rw [hc, debugRef?_append hne]
      exact ih hs.2

theorem debugRef?_writeName (hc : c ≠ '!') {name : List Char} (h : debugRef? name = none) :
    debugRef? (writeName [c] name) = none := by
  unfold writeName
  split_ifs
  · exact (debugRef?_cons hc name).trans h
  · have hb := debugRef?_body (escape name) [] (debugRef?_escape h)
    exact (debugRef?_cons hc _).trans hb

/-- Renaming the references behind a sigil moves no number. -/
theorem mover_respell {R : Reader Spelling} (hR : Sigiled R c) (hc : c ≠ '!')
    {rename : String → Option String}
    (hw : ∀ {x y}, rename x = some y → Writable y.toList ∧ debugRef? y.toList = none) :
    Mover R (· = c) (respell [c] rename) (fun n m => m = n) where
  sighted := hR.sighted
  replaces := replaces_respell hR.sigil hR.token fun h => (hw h).1
  bang := fun _ => hR.read_none hc.symm _
  number := by
    intro ds s hne hds hs
    refine ⟨ds, hne, hds, rfl, ?_⟩
    refine mapReferences_plain_append (replaces_respell hR.sigil hR.token fun h => (hw h).1)
      (u := '!' :: ds) ?_ s
    exact forall_mem_cons.2 ⟨⟨by decide, fun _ => by simpa using hc.symm⟩,
      plain_apart fun d hd => isBare_plain (isBare_of_isDecimal (hds d hd))⟩
  calm := by
    intro s w t r h ht
    unfold respell
    cases hr : rename (String.ofList w.name) with
    | none => exact ht
    | some new => exact debugRef?_writeName hc (hw hr).2

/-! ## Renumbering -/

theorem intDigits_add (n k : Nat) : intDigits ((n : Int) + (k : Int)) = natDigits (n + k) := by
  have h : (n : Int) + (k : Int) = ((n + k : Nat) : Int) := rfl
  rw [h, intDigits, if_neg (by omega), Int.natAbs_natCast]

theorem isDecimal_of_mem_natDigits (h : c ∈ natDigits n) : isDecimal c :=
  isDecimal_of_isAsciiDigit (isAsciiDigit_of_mem_natDigits h)

/-- Renumbering moves the numbers of metadata nodes by their offset. -/
theorem mover_renumber (k l : Nat) :
    Mover numberedReader isNumberSigil (renumber k l) (fun n m => m = n + k) where
  sighted := sighted_numberedReader
  replaces := replaces_renumber k l
  bang := by
    intro s hs
    show numberedRead ('!' :: s) = none
    rw [numberedRead, run?_eq_none.2 hs]
    rfl
  number := by
    intro ds s hne hds hs
    have hr : numberedReader.read ('!' :: (ds ++ s)) = some ((.metadata, digitsValue ds),
        '!' :: ds, s) :=
      numberedRead_number .metadata hne hds hs
    refine ⟨natDigits (digitsValue ds + k), Nat.toDigits_ne_nil,
      fun c => isDecimal_of_mem_natDigits, digitsValue_natDigits _, ?_⟩
    rw [cons_append, mapReferences_read _ _ (by decide) (by decide) hr]
    show '!' :: intDigits ((digitsValue ds : Int) + (k : Int)) ++ _ = _
    rw [intDigits_add]
  calm := by
    rintro s ⟨kind, n⟩ t r - -
    cases kind with
    | metadata =>
      show debugRef? ('!' :: intDigits ((n : Int) + (k : Int))) = none
      rw [intDigits_add, ← append_nil (natDigits _), ← cons_append]
      exact debugRef?_number Nat.toDigits_ne_nil (fun c => isDecimal_of_mem_natDigits) []
    | attributes =>
      show debugRef? ('#' :: intDigits ((n : Int) + (l : Int))) = none
      rw [intDigits_add, debugRef?_cons (by decide), ← append_nil (natDigits _)]
      exact debugRef?_append
        (fun c hc => isBare_ne_bang (isBare_of_isDecimal (isDecimal_of_mem_natDigits hc))) []

end CallAtlas.Ir
