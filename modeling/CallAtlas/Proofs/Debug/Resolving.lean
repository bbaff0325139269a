import CallAtlas.Debug.Location
import CallAtlas.Proofs.Ir.Nodes
import CallAtlas.Proofs.Outcome

/-!
# What a location resolves to

`Resolves` says what a location node resolves to without a memo and at any depth: the location of
the call it was inlined at is resolved in the same way. Where no chain of inlined locations leads
back to itself every number resolves, `Acyclic.resolves`. A fresh resolution gives that, unless the
chain is longer than it may follow, `Resolves.fresh_eq`. After calls that did not fail a resolution
gives the same or gives up, and gives up on long chains only, `Remembered.resolve_cases`; what was
remembered makes no other difference.

Two tables of nodes, of which one holds the nodes of the other under numbers moved by `k`, resolve a
number and the number moved by `k` to the same, `Carried.resolves`.
-/

namespace CallAtlas.Debug

open Ir

variable {h i id : Nat} {n : MetadataNode} {r : Except ResolveError (Option Location)}
  {v : Option Location}
  {metadata : Table Nat MetadataNode} {memo : Memo}

/-- The outcome of a location node. The height is the number of calls that it was inlined at. -/
inductive Resolves (metadata : Table Nat MetadataNode) :
    Nat → Nat → Except ResolveError (Option Location) → Prop where
  | absent {id : Nat} : metadata.get? id = none → Resolves metadata 0 id (.ok none)
  | failed {id : Nat} {n : MetadataNode} {e : UnreadableNumber} : metadata.get? id = some n →
      position metadata n = .error e → Resolves metadata 0 id (.error (.unreadable e))
  | nowhere {id : Nat} {n : MetadataNode} : metadata.get? id = some n →
    position metadata n = .ok none →
      Resolves metadata 0 id (.ok none)
  | plain {id : Nat} {n : MetadataNode} {loc : Location} : metadata.get? id = some n →
      position metadata n = .ok (some ⟨loc, none⟩) → Resolves metadata 0 id (.ok (some loc))
  | inlined {height id call : Nat} {n : MetadataNode} {loc : Location}
    {r : Except ResolveError (Option Location)} :
      metadata.get? id = some n → position metadata n = .ok (some ⟨loc, some call⟩) →
      Resolves metadata height call r →
      Resolves metadata (height + 1) id (r.map fun inlinedAt => some { loc with inlinedAt })

/-- A location that was inlined resolves to its own position around what its call resolves to. -/
theorem Resolves.call (hr : Resolves metadata h id r) {loc : Location} {call : Nat}
    (hn : metadata.get? id = some n) (hp : position metadata n = .ok (some ⟨loc, some call⟩)) :
    ∃ h' r', h = h' + 1 ∧ (r = r'.map fun inlinedAt => some { loc with inlinedAt }) ∧
    Resolves metadata h' call r' := by
  cases hr with
  | absent hn' => simp_all
  | failed hn' hp' => simp_all
  | nowhere hn' hp' => simp_all
  | plain hn' hp' => simp_all
  | inlined hn' hp' hr' =>
    rw [hn] at hn'
    obtain rfl := Option.some.inj hn'
    rw [hp] at hp'
    obtain ⟨rfl, rfl⟩ := hp'
    exact ⟨_, _, rfl, rfl, hr'⟩

/-- A number has one height and one outcome. -/
theorem Resolves.unique {h h' : Nat} {r' : Except ResolveError (Option Location)}
    (hr : Resolves metadata h id r) (hr' : Resolves metadata h' id r') : h = h' ∧ r = r' := by
  induction hr generalizing h' r' with
  | absent hn => cases hr' <;> simp_all
  | failed hn hp => cases hr' <;> simp_all
  | nowhere hn hp => cases hr' <;> simp_all
  | plain hn hp => cases hr' <;> simp_all
  | inlined hn hp _ ih =>
    obtain ⟨_, _, rfl, rfl, hcall⟩ := hr'.call hn hp
    obtain ⟨rfl, rfl⟩ := ih hcall
    exact ⟨rfl, rfl⟩

theorem Resolves.succ_inv (hr : Resolves metadata (h + 1) id r) :
    ∃ n loc call r', metadata.get? id = some n ∧
      position metadata n = .ok (some ⟨loc, some call⟩) ∧ Resolves metadata h call r' ∧
      r = r'.map fun inlinedAt => some { loc with inlinedAt } := by
  cases hr with
  | inlined hn hp hr => exact ⟨_, _, _, _, hn, hp, hr, rfl⟩

/-! ## Steps of the resolution -/

section step

variable {depth id : Nat} {memo : Memo}

theorem resolve_memo (hd : 0 < depth) (h : memo.get? id = some v) :
    resolve metadata depth memo id = (memo, .ok v) := by
  obtain ⟨depth, rfl⟩ := Nat.exists_eq_add_one_of_ne_zero hd.ne'
  rw [resolve, h]

variable (hm : memo.get? id = none)

include hm

theorem Resolves.at_once (hr : Resolves metadata 0 id r) :
    resolve metadata (depth + 1) memo id = (memo.insert id r.toOption.join, r) := by
  rw [resolve, hm]
  cases hr with
  | absent hn => rw [hn]; rfl
  | failed hn hp => rw [hn, Option.map_some, hp]; rfl
  | nowhere hn hp => rw [hn, Option.map_some, hp]; rfl
  | plain hn hp => rw [hn, Option.map_some, hp]; rfl

variable {n : MetadataNode} (hn : metadata.get? id = some n)

include hn

variable {loc : Location} {call : Nat} (hp : position metadata n = .ok (some ⟨loc, some call⟩))
  {memo' : Memo}

include hp

theorem resolve_inlined_error {e : ResolveError}
    (hc : resolve metadata depth (memo.insert id none) call = (memo', .error e)) :
    resolve metadata (depth + 1) memo id = (memo', .error e) := by
  rw [resolve, hm, hn, Option.map_some, hp]
  dsimp only
  rw [hc]

theorem resolve_inlined {inlinedAt : Option Location}
    (hc : resolve metadata depth (memo.insert id none) call = (memo', .ok inlinedAt)) :
    resolve metadata (depth + 1) memo id =
      (memo'.insert id (some { loc with inlinedAt }), .ok (some { loc with inlinedAt })) := by
  rw [resolve, hm, hn, Option.map_some, hp]
  dsimp only
  rw [hc]

theorem outcome_inlined : (resolve metadata (depth + 1) memo id).2 =
    (resolve metadata depth (memo.insert id none) call).2.map fun inlinedAt =>
  some { loc with inlinedAt } := by
  cases hc : resolve metadata depth (memo.insert id none) call with
  | mk memo' o =>
    cases o with
    | error e => rw [resolve_inlined_error hm hn hp hc]; rfl
    | ok inlinedAt => rw [resolve_inlined hm hn hp hc]; rfl

end step

/-! ## Memos -/

/-- What is remembered of a number is what it resolves to. -/
def Right (metadata : Table Nat MetadataNode) (id : Nat) (v : Option Location) : Prop :=
  ∃ h, Resolves metadata h id (.ok v)

/-- A number above a height: it is still being resolved when numbers of that height are. -/
def Above (metadata : Table Nat MetadataNode) (h id : Nat) : Prop :=
  ∀ {h' r}, Resolves metadata h' id r → h < h'

theorem get?_insert_cases {w : Option Location} (h : (memo.insert id v).get? i = some w) :
    i = id ∧ w = v ∨ i ≠ id ∧ memo.get? i = some w := by
  rw [Table.get?_insert] at h
  split_ifs at h with hi
  · exact .inl ⟨hi.symm, (Option.some.inj h).symm⟩
  · exact .inr ⟨symm hi, h⟩

/-- What is resolved next, while a number counts as having no position, is below it. -/
theorem Above.insert {P : Nat → Option Location → Prop} (hself : Resolves metadata (h + 1) id r)
    (hm : ∀ {i v}, memo.get? i = some v → P i v ∨ Above metadata (h + 1) i) :
    ∀ {i v}, (memo.insert id none).get? i = some v → P i v ∨ Above metadata h i := by
  intro i v hi
  rcases get?_insert_cases hi with ⟨rfl, rfl⟩ | ⟨-, hi⟩
  · exact .inr fun hr' => by rw [← (hself.unique hr').1]; omega
  · exact (hm hi).imp_right fun ha _ _ hr' => Nat.lt_of_succ_lt (ha hr')

/-- What a resolution gives for a number of a height: its outcome, or nothing if the number is too
high. What it remembers is right unless it fails. -/
structure Gives (metadata : Table Nat MetadataNode) (depth : Nat) (memo : Memo) (h id : Nat)
    (r : Except ResolveError (Option Location)) : Prop where
  outcome : (resolve metadata depth memo id).2 = r ∨
    depth ≤ h ∧ (resolve metadata depth memo id).2 = .error .tooDeep
  memo : ∀ {a}, (resolve metadata depth memo id).2 = .ok a →
    ∀ {i v}, (resolve metadata depth memo id).1.get? i = some v → memo.get? i = some v ∨
    Right metadata i v

section gives

variable {depth : Nat}

theorem Resolves.gives_memo (hr : Resolves metadata h id r) (hv : memo.get? id = some v)
    (hm : Right metadata id v ∨ Above metadata h id) : Gives metadata (depth + 1) memo h id r := by
  have he : resolve metadata (depth + 1) memo id = (memo, .ok v) := resolve_memo (Nat.succ_pos _) hv
  refine ⟨.inl ?_, fun _ _ _ hi => .inl (by rwa [he] at hi)⟩
  rw [he]
  rcases hm with ⟨h', hr'⟩ | ha
  · exact (hr'.unique hr).2
  · exact absurd (ha hr) (lt_irrefl h)

theorem gives_error {e : ResolveError} {memo' : Memo}
    (he : resolve metadata depth memo id = (memo', .error e)) :
    Gives metadata depth memo h id (.error e) :=
  ⟨.inl (by rw [he]), fun ha => by rw [he] at ha; cases ha⟩

/-- Resolving gives the outcome of a number if of the numbers up to its height nothing wrong is
remembered. -/
theorem Resolves.gives (hr : Resolves metadata h id r)
    (hm : ∀ {i v}, memo.get? i = some v → Right metadata i v ∨ Above metadata h i) (depth : Nat) :
    Gives metadata depth memo h id r := by
  induction depth generalizing h id r memo with
  | zero => exact ⟨.inr ⟨Nat.zero_le h, rfl⟩, nofun⟩
  | succ depth ih =>
    cases hv : memo.get? id with
    | some v => exact hr.gives_memo hv (hm hv)
    | none =>
      cases h with
      | zero =>
        have he : resolve metadata (depth + 1) memo id = _ := hr.at_once hv
        refine ⟨.inl (by rw [he]), fun {a} ha i v hi => ?_⟩
        rw [he] at ha hi
        obtain rfl : r = .ok a := ha
        rcases get?_insert_cases hi with ⟨rfl, rfl⟩ | ⟨-, hi⟩
        · exact .inr ⟨0, hr⟩
        · exact .inl hi
      | succ h =>
        obtain ⟨n, loc, call, r, hn, hp, hcall, rfl⟩ := hr.succ_inv
        obtain ⟨houtcome, hleft⟩ := ih hcall (Above.insert hr hm)
        cases hc : resolve metadata depth (memo.insert id none) call with
        | mk memo' o =>
          rw [hc] at houtcome hleft
          rcases houtcome with rfl | ⟨hle, rfl⟩
          · cases o with
            | error e => exact gives_error (resolve_inlined_error hv hn hp hc)
            | ok inlinedAt =>
              have he := resolve_inlined hv hn hp hc
              refine ⟨.inl (by rw [he]; rfl), fun _ i v hi => ?_⟩
              rw [he] at hi
              rcases get?_insert_cases hi with ⟨rfl, rfl⟩ | ⟨hne, hi⟩
              · exact .inr ⟨_, hr⟩
              · refine (hleft rfl hi).imp_left fun hi => ?_
                rwa [Table.get?_insert, if_neg hne.symm] at hi
          · have he := resolve_inlined_error hv hn hp hc
            exact ⟨.inr ⟨Nat.succ_le_succ hle, by rw [he]⟩, fun ha => by rw [he] at ha; cases ha⟩

theorem Resolves.not_remembered (hr : Resolves metadata h id r)
    (hm : ∀ {i v}, memo.get? i = some v → False ∨ Above metadata h i) : memo.get? id = none := by
  cases hv : memo.get? id with
  | none => rfl
  | some v => exact absurd ((hm hv).elim False.elim fun ha => ha hr) (lt_irrefl h)

theorem Resolves.fresh_eq (hr : Resolves metadata h id r)
    (hm : ∀ {i v}, memo.get? i = some v → False ∨ Above metadata h i) (depth : Nat) :
    (resolve metadata depth memo id).2 = if h < depth then r else .error .tooDeep := by
  induction depth generalizing h id r memo with
  | zero => rfl
  | succ depth ih =>
    have hnone := hr.not_remembered hm
    cases h with
    | zero => rw [hr.at_once hnone, if_pos (Nat.succ_pos _)]
    | succ h =>
      obtain ⟨n, loc, call, r, hn, hp, hcall, rfl⟩ := hr.succ_inv
      rw [outcome_inlined hnone hn hp, ih hcall (Above.insert hr hm)]
      simp only [add_lt_add_iff_right]
      split_ifs <;> rfl

end gives

/-! ## Resolving after other calls -/

/-- The location of `id` was inlined at that of `call`. -/
def InlinedAt (metadata : Table Nat MetadataNode) (id call : Nat) : Prop :=
  ∃ n, metadata.get? id = some n ∧ n.fieldRef "inlinedAt" = .ok (some call)

/-- No chain of inlined locations leads back to itself. -/
def Acyclic (metadata : Table Nat MetadataNode) : Prop :=
  ∀ id, ¬ Relation.TransGen (InlinedAt metadata) id id

/-- Every location was inlined at one of a lower number. -/
def Descends (metadata : Table Nat MetadataNode) : Prop :=
  ∀ e ∈ metadata.entries, (e.2.fieldRef "inlinedAt").toOption.join.all (· < e.1)

instance (metadata : Table Nat MetadataNode) : Decidable (Descends metadata) :=
  List.decidableBAll _ _

theorem Descends.lt (h : Descends metadata) {call : Nat} (hc : InlinedAt metadata id call) :
    call < id := by
  obtain ⟨n, hn, hr⟩ := hc
  have he := h _ (Table.get?_eq_some.1 hn)
  rw [hr] at he
  exact of_decide_eq_true he

theorem Descends.acyclic (h : Descends metadata) : Acyclic metadata := by
  have htrans : ∀ {id call}, Relation.TransGen (InlinedAt metadata) id call → call < id := by
    intro id call hc
    induction hc with
    | single hc => exact h.lt hc
    | tail _ hc ih => exact (h.lt hc).trans ih
  exact fun id hc => absurd (htrans hc) (lt_irrefl id)

theorem position_inlinedRef {p : Position} (h : position metadata n = .ok (some p)) :
    n.fieldRef "inlinedAt" = .ok p.inlinedRef := by
  unfold position at h
  split_ifs at h with hk
  · cases h
  · obtain ⟨scope, -, h⟩ := bind_eq_ok h
    obtain ⟨⟨file, unit⟩, -, h⟩ := bind_eq_ok h
    cases file with
    | none => cases h
    | some f =>
      obtain ⟨call, hc, h⟩ := bind_eq_ok h
      rw [hc]
      cases h
      rfl

/-- The location of `id` has a position and was inlined at that of `call`. -/
def Follows (metadata : Table Nat MetadataNode) (id call : Nat) : Prop :=
  ∃ n loc, metadata.get? id = some n ∧ position metadata n = .ok (some ⟨loc, some call⟩)

theorem Follows.inlinedAt {call : Nat} (h : Follows metadata id call) :
    InlinedAt metadata id call := by
  obtain ⟨n, loc, hn, hp⟩ := h
  exact ⟨n, hn, position_inlinedRef hp⟩

/-- A number is resolved at once, or was inlined. -/
theorem resolves_or_follows (metadata : Table Nat MetadataNode) (id : Nat) :
    (∃ r, Resolves metadata 0 id r) ∨ ∃ call, Follows metadata id call := by
  cases hn : metadata.get? id with
  | none => exact .inl ⟨_, .absent hn⟩
  | some n =>
    cases hp : position metadata n with
    | error e => exact .inl ⟨_, .failed hn hp⟩
    | ok o =>
      match o, hp with
      | none, hp => exact .inl ⟨_, .nowhere hn hp⟩
      | some ⟨loc, none⟩, hp => exact .inl ⟨_, .plain hn hp⟩
      | some ⟨loc, some call⟩, hp => exact .inr ⟨call, n, loc, hn, hp⟩

theorem resolves_of_follows
    (hcall : ∀ call, Follows metadata id call → ∃ h r, Resolves metadata h call r) :
    ∃ h r, Resolves metadata h id r := by
  rcases resolves_or_follows metadata id with ⟨r, hr⟩ | ⟨call, hf⟩
  · exact ⟨0, r, hr⟩
  · obtain ⟨h, r, hr⟩ := hcall call hf
    obtain ⟨n, loc, hn, hp⟩ := hf
    exact ⟨_, _, .inlined hn hp hr⟩

/-- A chain of relatives comes back to where it was. -/
def Loops (R : Nat → Nat → Prop) (id : Nat) : Prop :=
  ∃ j, Relation.ReflTransGen R id j ∧ Relation.TransGen R j j

/-- A number resolves if its chain of inlined locations does not loop. -/
theorem resolves_of_not_loops (hl : ¬ Loops (Follows metadata) id) :
    ∃ h r, Resolves metadata h id r := by
  -- the numbers of nodes are finitely many, so a chain that does not loop ends
  let Chained := { i : { i // i ∈ metadata.keys } // Relation.ReflTransGen (Follows metadata) id i }
  let below (a b : Chained) : Prop := Relation.TransGen (Follows metadata) b.1 a.1
  have : Std.Irrefl below := ⟨fun a h => hl ⟨a.1, a.2, h⟩⟩
  have hwf : WellFounded below := Finite.wellFounded_of_trans_of_irrefl below
  have hkeys : ∀ a : Chained, ∃ h r, Resolves metadata h a.1 r := by
    intro a
    induction a using hwf.induction with
    | _ a ih =>
      refine resolves_of_follows fun call hc => ?_
      by_cases hk : call ∈ metadata.keys
      · exact ih ⟨⟨call, hk⟩, a.2.tail hc⟩ (.single hc)
      · exact ⟨_, _, .absent (Table.get?_eq_none.2 hk)⟩
  by_cases hk : id ∈ metadata.keys
  · exact hkeys ⟨⟨id, hk⟩, .refl⟩
  · exact ⟨_, _, .absent (Table.get?_eq_none.2 hk)⟩

theorem Acyclic.resolves (ha : Acyclic metadata) (id : Nat) : ∃ h r, Resolves metadata h id r := by
  refine resolves_of_not_loops ?_
  rintro ⟨j, -, hj⟩
  exact ha j (Relation.TransGen.mono (fun _ _ h => Follows.inlinedAt h) _ _ hj)

/-- What is remembered after calls that did not fail, each of its own depth. -/
inductive Remembered (metadata : Table Nat MetadataNode) : Memo → Prop where
  | fresh : Remembered metadata .empty
  | call {memo memo' : Memo} {depth id : Nat} {v : Option Location} : Remembered metadata memo →
      resolve metadata depth memo id = (memo', .ok v) → Remembered metadata memo'

theorem Remembered.right (htotal : ∀ id, ∃ h r, Resolves metadata h id r)
    (hm : Remembered metadata memo) (hi : memo.get? i = some v) : Right metadata i v := by
  induction hm generalizing i v with
  | fresh => cases hi
  | @call memo memo' depth id w hm hc ih =>
    obtain ⟨h, r, hr⟩ := htotal id
    have hg : Gives metadata depth memo h id r := hr.gives (fun hi => .inl (ih hi)) _
    obtain ⟨-, hleft⟩ := hg
    rw [hc] at hleft
    exact (hleft rfl hi).elim ih fun hr => hr

theorem Remembered.resolve_cases (htotal : ∀ id, ∃ h r, Resolves metadata h id r)
    (hm : Remembered metadata memo) (hr : Resolves metadata h id r) (depth : Nat) :
    (resolve metadata depth memo id).2 = r ∨ depth ≤ h ∧
    (resolve metadata depth memo id).2 = .error .tooDeep :=
  (hr.gives (fun hi => .inl (hm.right htotal hi)) depth).outcome

theorem Remembered.resolve_ok (htotal : ∀ id, ∃ h r, Resolves metadata h id r)
    (hm : Remembered metadata memo)
    (hr : Resolves metadata h id r) (hv : (resolve metadata depth memo id).2 = .ok v) :
    r = .ok v := by
  rcases hm.resolve_cases htotal hr depth with he | ⟨-, he⟩
  · rw [← he, hv]
  · exact nomatch hv.symm.trans he

theorem Resolves.resolve_fresh (hr : Resolves metadata h id r) (depth : Nat) :
    (resolve metadata depth .empty id).2 = if h < depth then r else .error .tooDeep :=
  hr.fresh_eq (fun hi => by cases hi) depth

/-- The location of an attachment; none without one. -/
def locate (metadata : Table Nat MetadataNode) (depth : Nat) (memo : Memo) :
    Option Nat → Except ResolveError (Option Location)
  | none => .ok none
  | some id => (resolve metadata depth memo id).2

/-! ## Nodes under other numbers -/

/-- Every node of the one table stands in the other under its number moved by `k`, and none refers
out of the table. -/
structure Carried (metadata metadata' : Table Nat MetadataNode) (k : Nat) : Prop where
  id : ∀ {i n}, metadata.get? i = some n → n.id = i
  node : ∀ {i n}, metadata.get? i = some n → ∃ n', metadata'.get? (i + k) = some n' ∧
    n'.id = i + k ∧ Alike k n n'
  closed : ∀ {i n key j}, metadata.get? i = some n → isKey key → n.fieldRef key = .ok (some j) →
    j ∈ metadata.keys

/-- A node and its partner under the moved number. -/
structure Twin (metadata metadata' : Table Nat MetadataNode) (k : Nat) (n n' : MetadataNode) :
    Prop where
  left : metadata.get? n.id = some n
  right : metadata'.get? n'.id = some n'
  id : n'.id = n.id + k
  alike : Alike k n n'

theorem fileOf_alike {k : Nat} {n' : MetadataNode} (h : Alike k n n') : fileOf n' = fileOf n := by
  unfold fileOf
  by_cases hk : n.kind = "DIFile"
  · have hk' := (h.kind "DIFile" (by decide)).2 hk
    rw [if_pos hk, if_pos hk', h.string hk "filename" (by simp), h.string hk "directory" (by simp)]
  · have hk' : n'.kind ≠ "DIFile" := fun h' => hk ((h.kind "DIFile" (by decide)).1 h')
    rw [if_neg hk, if_neg hk']

theorem scopeKinds_alike {k : Nat} {n' : MetadataNode} (h : Alike k n n') :
    scopeKinds.contains n'.kind = scopeKinds.contains n.kind := by
  have hk : ∀ kind ∈ scopeKinds, isKind kind := by decide
  rw [Bool.eq_iff_iff, List.contains_iff_mem, List.contains_iff_mem]
  constructor
  · intro hm
    rwa [(h.kind _ (hk _ hm)).1 rfl]
  · intro hm
    rwa [(h.kind _ (hk _ hm)).2 rfl]

section carried

variable {metadata' : Table Nat MetadataNode} {k : Nat} {n n' : MetadataNode}

theorem Carried.twin (hc : Carried metadata metadata' k) (hn : metadata.get? i = some n) :
    ∃ n', metadata'.get? (i + k) = some n' ∧ Twin metadata metadata' k n n' := by
  obtain rfl := hc.id hn
  obtain ⟨n', hn', hid, ha⟩ := hc.node hn
  exact ⟨n', hn', hn, hid ▸ hn', hid, ha⟩

theorem Carried.nodeOf_likewise (hc : Carried metadata metadata' k)
    (ht : Twin metadata metadata' k n n') (key : String) (hk : isKey key) :
    Likewise (Twin metadata metadata' k) (nodeOf metadata n key) (nodeOf metadata' n' key) := by
  have hr := ht.alike.ref key hk
  have hcl : ∀ {j}, n.fieldRef key = .ok (some j) → j ∈ metadata.keys :=
    fun hj => hc.closed ht.left hk hj
  unfold nodeOf
  generalize n.fieldRef key = x at hr hcl ⊢
  generalize n'.fieldRef key = y at hr ⊢
  cases hr with
  | error e => exact .error e
  | none => exact .none
  | @some i j hj =>
    obtain ⟨m, hm⟩ := Table.exists_get? (hcl rfl)
    obtain ⟨m', hm', htw⟩ := hc.twin hm
    show Likewise _ (.ok (metadata.get? i)) (.ok (metadata'.get? j))
    rw [hj, hm, hm']
    exact .some htw

/-- Whatever depends on the file that a node refers to is the same for its partner. -/
theorem Carried.file_bind (hc : Carried metadata metadata' k)
    (ht : Twin metadata metadata' k n n') {β : Type}
    (g : Option (String × String) → Except UnreadableNumber β) :
    (nodeOf metadata' n' "file" >>= fun m => g (m.bind fileOf)) =
      (nodeOf metadata n "file" >>= fun m => g (m.bind fileOf)) := by
  refine (hc.nodeOf_likewise ht "file" (by decide)).bind_eq fun h => ?_
  cases h with
  | none => rfl
  | some h => exact congrArg g (fileOf_alike h.alike)

theorem Carried.unitDirectory_eq (hc : Carried metadata metadata' k)
    (ht : Twin metadata metadata' k n n') :
    unitDirectory metadata' n' = unitDirectory metadata n := by
  refine (hc.nodeOf_likewise ht "unit" (by decide)).bind_eq fun h => ?_
  cases h with
  | none => rfl
  | @some u u' h =>
    show (if u'.kind = "DICompileUnit" then _ else _) = (if u.kind = "DICompileUnit" then _ else _)
    have hk := h.alike.kind "DICompileUnit" (by decide)
    by_cases hu : u.kind = "DICompileUnit"
    · rw [if_pos hu, if_pos (hk.2 hu)]
      exact hc.file_bind h fun file => pure (file.map Prod.snd)
    · rw [if_neg hu, if_neg fun h => hu (hk.1 h)]

theorem contains_map_add (seen : List Nat) (i k : Nat) :
    (seen.map (· + k)).contains (i + k) = seen.contains i := by
  rw [Bool.eq_iff_iff, List.contains_iff_mem, List.contains_iff_mem]
  exact List.mem_map_of_injective (add_left_injective k)

/-- How a chain goes on once the file of a scope was looked at. -/
def walkOn (metadata : Table Nat MetadataNode) (fuel : Nat) (seen : List Nat) (scope : MetadataNode)
    (file : Option (String × String)) :
    Except UnreadableNumber (Option (String × String) × Option String) :=
  if scope.kind = "DISubprogram" then unitDirectory metadata scope >>= fun d => pure (file, d)
  else if scopeKinds.contains scope.kind then
    nodeOf metadata scope "scope" >>= walkScopes metadata fuel (scope.id :: seen) file
  else pure (file, none)

theorem walkScopes_succ (fuel : Nat) {seen : List Nat} {scope : MetadataNode}
    (hs : ¬ seen.contains scope.id)
    (file : Option (String × String)) :
    walkScopes metadata (fuel + 1) seen file (some scope) = match file with
      | some f => walkOn metadata fuel seen scope (some f)
      | none => nodeOf metadata scope "file" >>= fun m =>
        walkOn metadata fuel seen scope (m.bind fileOf) := by
  rw [walkScopes, if_neg hs]
  cases file with
  | some f => rfl
  | none => cases nodeOf metadata scope "file" <;> rfl

theorem Carried.walkScopes_eq (hc : Carried metadata metadata' k) (fuel : Nat) (seen : List Nat)
    {file : Option (String × String)} {scope scope' : Option MetadataNode}
    (hs : Option.Rel (Twin metadata metadata' k) scope scope') :
    walkScopes metadata' fuel (seen.map (· + k)) file scope' =
      walkScopes metadata fuel seen file scope := by
  induction fuel generalizing seen file scope scope' with
  | zero => rfl
  | succ fuel ih =>
    cases hs with
    | none => rfl
    | @some n n' ht =>
      have hmem : (seen.map (· + k)).contains n'.id = seen.contains n.id := by
        rw [ht.id, contains_map_add]
      by_cases hseen : seen.contains n.id
      · rw [walkScopes, walkScopes, if_pos hseen, if_pos (hmem.trans hseen)]
      · have hon : ∀ file, walkOn metadata' fuel (seen.map (· + k)) n' file =
            walkOn metadata fuel seen n file := by
          intro file
          have hscope : (nodeOf metadata' n' "scope" >>= walkScopes metadata' fuel
              (n'.id :: seen.map (· + k)) file) =
              (nodeOf metadata n "scope" >>= walkScopes metadata fuel (n.id :: seen) file) := by
            rw [ht.id]
            exact (hc.nodeOf_likewise ht "scope" (by decide)).bind_eq fun h => ih (n.id :: seen) h
          unfold walkOn
          rw [scopeKinds_alike ht.alike, hc.unitDirectory_eq ht, hscope]
          simp only [ht.alike.kind "DISubprogram" (by decide)]
        rw [walkScopes_succ fuel hseen, walkScopes_succ fuel (by rwa [hmem])]
        cases file with
        | some f => exact hon (some f)
        | none =>
          simp only [hon]
          exact hc.file_bind ht _

/-- Two positions of the same place, the call under a moved number. -/
def Position.Moved (k : Nat) (p p' : Position) : Prop :=
  p'.location = p.location ∧ p'.inlinedRef = p.inlinedRef.map (· + k)

theorem Carried.position_likewise (hc : Carried metadata metadata' k)
    (ht : Twin metadata metadata' k n n') :
    Likewise (Position.Moved k) (position metadata n) (position metadata' n') := by
  have hkind := ht.alike.kind "DILocation" (by decide)
  unfold position
  by_cases hn : n.kind = "DILocation"
  · rw [if_neg (not_not.2 hn), if_neg (not_not.2 (hkind.2 hn)), ht.alike.int "line" (by decide),
      ht.alike.int "column" (by decide)]
    have hcall := ht.alike.ref "inlinedAt" (by decide)
    have hwalk : (nodeOf metadata' n' "scope" >>= walkScopes metadata' maxScopes [] none) =
        (nodeOf metadata n "scope" >>= walkScopes metadata maxScopes [] none) :=
      (hc.nodeOf_likewise ht "scope" (by decide)).bind_eq fun hs => hc.walkScopes_eq maxScopes [] hs
    rw [← bind_assoc, ← bind_assoc, hwalk]
    generalize nodeOf metadata n "scope" >>= walkScopes metadata maxScopes [] none = w
    generalize n.fieldRef "inlinedAt" = x at hcall ⊢
    generalize n'.fieldRef "inlinedAt" = y at hcall ⊢
    match w with
    | .error e => exact .error e
    | .ok (none, _) => exact .none
    | .ok (some (name, directory), unit) =>
      cases hcall with
      | error e => exact .error e
      | none => exact .some ⟨rfl, rfl⟩
      | some h => exact .some ⟨rfl, congrArg some h⟩
  · rw [if_pos hn, if_pos fun h => hn (hkind.1 h)]
    exact .none

theorem Carried.position_moved (hc : Carried metadata metadata' k)
    (hn : metadata.get? i = some n) :
      ∃ n', metadata'.get? (i + k) = some n' ∧ position metadata' n' =
        (position metadata n).map (Option.map fun p => ⟨p.location, p.inlinedRef.map (· + k)⟩) := by
  obtain ⟨n', hn', ht⟩ := hc.twin hn
  refine ⟨n', hn', ?_⟩
  have hl := hc.position_likewise ht
  generalize position metadata n = x at hl ⊢
  generalize position metadata' n' = y at hl ⊢
  cases hl with
  | error e => rfl
  | none => rfl
  | @some p p' h =>
    obtain ⟨loc', call'⟩ := p'
    obtain ⟨rfl, rfl⟩ : loc' = _ ∧ call' = _ := h
    rfl

theorem Carried.resolves (hc : Carried metadata metadata' k) {h : Nat}
    (hr : Resolves metadata h id r) (hid : id ∈ metadata.keys) :
    Resolves metadata' h (id + k) r := by
  induction hr with
  | absent hn => exact absurd hid (Table.get?_eq_none.1 hn)
  | failed hn hp =>
    obtain ⟨n', hn', hp'⟩ := hc.position_moved hn
    exact .failed hn' (by rw [hp', hp]; rfl)
  | nowhere hn hp =>
    obtain ⟨n', hn', hp'⟩ := hc.position_moved hn
    exact .nowhere hn' (by rw [hp', hp]; rfl)
  | plain hn hp =>
    obtain ⟨n', hn', hp'⟩ := hc.position_moved hn
    exact .plain hn' (by rw [hp', hp]; rfl)
  | inlined hn hp _ ih =>
    obtain ⟨n', hn', hp'⟩ := hc.position_moved hn
    have hcall := hc.closed hn (by decide) (position_inlinedRef hp)
    exact .inlined hn' (by rw [hp', hp]; rfl) (ih hcall)

end carried

end CallAtlas.Debug
