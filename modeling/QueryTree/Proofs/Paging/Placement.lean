/-
Where the queries below a query end up when its paging is replaced. A push-down moves them all into
the nested query, those in members too; the sort keys end up in the row number, LIMIT and OFFSET in
the bounds on it, and what is written anew refers to columns.
-/
import QueryTree.Proofs.Equality
import QueryTree.Proofs.Paging.Numbering

namespace QueryTree

/-! ## Properties of what an expression is made of -/

/-- `E` holds of an expression if it holds of its parts. Names, casts that change at most nullability
and numbers have no part in it. -/
structure Expr.Hereditary (E : Expr → Prop) : Prop where
  unnamed : ∀ e : Expr, E e.unnamed ↔ E e
  stripCasts : ∀ e : Expr, E e.stripCasts ↔ E e
  rowNumber : ∀ keys : List OrderKey, E (.rowNumber keys) ↔ ∀ k ∈ keys, E k.expr
  binary : ∀ (op : BinaryOp) (a b : Expr), E (.binary op a b) ↔ E a ∧ E b
  constant : ∀ (v : Literal) (type : DataType), E (.constant v type)

variable {P : Query → Prop} {E : Expr → Prop}

theorem Expr.below_hereditary : Hereditary (Below P) :=
  ⟨below_unnamed, below_stripCasts, below_rowNumber, below_binary, below_constant⟩

namespace Expr.Hereditary

variable (hE : Hereditary E)
include hE

theorem congr {a b : Expr} (h : a.unnamed = b.unnamed) : E a ↔ E b := by rw [← hE.unnamed, h, hE.unnamed]

/-! ## Row numbers and bounds -/

theorem numberingKeys (keys : List OrderKey) :
    (∀ k ∈ numberingKeys keys, E k.expr) ↔ ∀ k ∈ keys, E k.expr := by
  have hkeys : (∀ k ∈ keys.map fun key : OrderKey => ({ key with expr := key.expr.unnamed } : OrderKey), E k.expr) ↔
      ∀ k ∈ keys, E k.expr := by
    simp only [List.forall_mem_map, hE.unnamed]
  unfold QueryTree.numberingKeys
  simp only
  split
  · -- Without sort keys the row number is over a constant.
    rename_i hnil
    rw [← hkeys, List.isEmpty_iff.1 hnil]
    simp [Expr.int, hE.constant]
  · exact hkeys

theorem of_integer? {e : Expr} {n : Int64} (h : e.integer? = some n) : E e := by
  cases e with
  | constant v type => exact hE.constant v type
  | _ => cases h

theorem lastRow (offset limit : Expr) : E (lastRow offset limit) ↔ E offset ∧ E limit := by
  unfold Expr.lastRow
  simp only
  split
  · rename_i o l ho hl
    have hboth : E offset ∧ E limit := ⟨hE.of_integer? ho, hE.of_integer? hl⟩
    split
    · exact iff_of_true (hE.constant _ _) hboth
    · rw [hE.binary]
  · rw [hE.binary]

theorem pagingBounds {rowNumber : Expr} (hr : E rowNumber) {offset limit : Option Expr} (ho : offset.isSome = true) :
    (∀ e ∈ pagingBounds rowNumber offset limit, E e) ↔ (∀ e ∈ limit, E e) ∧ ∀ e ∈ offset, E e := by
  obtain ⟨o, rfl⟩ := Option.isSome_iff_exists.1 ho
  cases limit with
  | none => simp [Expr.pagingBounds, hE.binary, hr]
  | some l => simp [Expr.pagingBounds, hE.binary, hE.lastRow, hr, and_comm]

theorem conjunction (es : List Expr) : (∀ e ∈ conjunction es, E e) ↔ ∀ e ∈ es, E e := by
  have hfold : ∀ (es : List Expr) (joined : Option Expr),
      (∀ e ∈ es.foldl (fun joined e => some (conjoin joined e)) joined, E e) ↔
        (∀ e ∈ joined, E e) ∧ ∀ e ∈ es, E e := by
    intro es
    induction es with
    | nil => simp
    | cons e es ih =>
      intro joined
      rw [List.foldl_cons, ih, List.forall_mem_cons, ← and_assoc]
      refine and_congr_left fun _ => ?_
      cases joined <;> simp [conjoin, hE.binary]
  rw [Expr.conjunction, hfold]
  simp

end Expr.Hereditary

namespace Query

variable {t : String} {q p c n n' : Query} {copies added shown slots : List Expr} {rowNumber e e' : Expr}

/-! ## Push-down -/

theorem Reaches.output (h : Reaches t c e e') : ∃ name type, e' = .output t name type := by
  cases h with
  | slot h => obtain ⟨i, slot, name, -, -, rfl, -⟩ := h; exact ⟨name, _, rfl⟩
  | wildcard name type _ _ => exact ⟨name, type, rfl⟩

theorem Copies.forall_iff (hE : Expr.Hereditary E) {es : List Expr} (h : Copies es copies) :
    (∀ e ∈ copies, E e) ↔ ∀ e ∈ es, E e := by
  have hun (es : List Expr) : (∀ e ∈ es, E e) ↔ ∀ e ∈ es.map Expr.unnamed, E e := by
    simp only [List.forall_mem_map, hE.unnamed]
  rw [hun copies, hun es, h.values]

namespace Moved

theorem projection (h : Moved t q p c copies added) : c.projection = copies ++ added := by rw [h.child]

/-- Slots and sort keys of the nested query are made of slots, sort keys and members of the old one. -/
theorem inherits (hE : Expr.Hereditary E) (h : Moved t q p c copies added) (hslots : ∀ e ∈ q.projection, E e)
    (hkeys : ∀ k ∈ q.orderBy, E k.expr) (hmembers : ∀ m ∈ q.members, E m.2) :
    (∀ e ∈ c.projection, E e) ∧ ∀ k ∈ c.orderBy, E k.expr := by
  have hadded : ∀ slot ∈ added, E slot := fun slot hs => by
    obtain ⟨e, he, hun⟩ := h.sources slot hs
    rw [hE.congr hun, hE.stripCasts]
    rcases List.mem_append.1 he with he | he
    · obtain ⟨k, hk, rfl⟩ := List.mem_map.1 he; exact hkeys k hk
    · obtain ⟨m, hm', rfl⟩ := List.mem_map.1 he; exact hmembers m hm'
  refine ⟨?_, fun k hk => (h.sortKeys k hk).elim (hkeys k) (hadded _)⟩
  rw [h.projection]
  exact List.forall_mem_append.2 ⟨(h.copies.forall_iff hE).2 hslots, hadded⟩

theorem below (h : Moved t q p c copies added) (hq : q.Below P) (hm : ∀ m ∈ q.members, m.2.Below P) : c.Below P := by
  rw [Query.below_iff] at hq ⊢
  obtain ⟨htables, hslots, hpred, hkeys, hl, ho⟩ := hq
  obtain ⟨hslots', hkeys'⟩ := h.inherits Expr.below_hereditary hslots hkeys hm
  refine ⟨?_, hslots', ?_, hkeys', ?_, ?_⟩ <;> rw [h.child] <;> assumption

/-- Nothing is lost, as what is lifted is among the slots, unless it is a column. -/
theorem below_iff (hP : ∀ c d : Query, c.beq d = true → (P c ↔ P d)) (h : Moved t q p c copies added) :
    c.Below P ↔ q.Below P ∧ ∀ m ∈ q.members, m.2.Below P := by
  refine ⟨fun hc => ?_, fun hq => h.below hq.1 hq.2⟩
  rw [Query.below_iff] at hc ⊢
  -- What a lifted expression refers to is a slot of its value, and so over the same queries up to equality.
  have hreaches {e e' : Expr} (hr : Reaches t c e e') : e.Below P := by
    cases hr with
    | slot hl =>
      obtain ⟨i, slot, name, hi, -, -, hv⟩ := hl
      exact (hv.below_iff hP).1 (hc.2.1 slot (List.mem_of_getElem? hi))
    | wildcard _ _ _ he => exact Expr.below_of_isColumn he
  have hkeys : ∀ k ∈ q.orderBy, k.expr.Below P := fun k hk => by
    obtain ⟨k', -, -, hr⟩ := forall₂_mem_left h.keys hk; exact hreaches hr
  have hmembers : ∀ m ∈ q.members, m.2.Below P := fun m hm => by
    obtain ⟨m', -, -, hr⟩ := forall₂_mem_left h.members hm; exact hreaches hr
  have hslots : ∀ e ∈ q.projection, e.Below P := by
    rw [← h.copies.forall_iff Expr.below_hereditary]
    exact fun e he => hc.2.1 e (by rw [h.projection]; exact List.mem_append_left _ he)
  rw [h.child] at hc
  exact ⟨⟨hc.1, hslots, hc.2.2.1, hkeys, hc.2.2.2.2⟩, hmembers⟩

/-- The sort keys of the enclosing query are references to the nested one. -/
theorem keys_output (h : Moved t q p c copies added) {k : OrderKey} (hk : k ∈ p.orderBy) :
    ∃ name type, k.expr = .output t name type := by
  obtain ⟨k', -, -, hr⟩ := forall₂_mem_left h.keys.flip hk
  exact hr.output

/-- So are its members. -/
theorem members_output (h : Moved t q p c copies added) {m : String × Expr} (hm : m ∈ p.members) :
    ∃ name type, m.2 = .output t name type := by
  obtain ⟨m', -, -, hr⟩ := forall₂_mem_left h.members.flip hm
  exact hr.output

theorem below_keys (h : Moved t q p c copies added) : ∀ k ∈ p.orderBy, k.expr.Below P := fun k hk => by
  obtain ⟨name, type, heq⟩ := h.keys_output hk
  rw [heq]; exact Expr.below_output _ _ _

theorem below_members (h : Moved t q p c copies added) : ∀ m ∈ p.members, m.2.Below P := fun m hm => by
  obtain ⟨name, type, heq⟩ := h.members_output hm
  rw [heq]; exact Expr.below_output _ _ _

end Moved

theorem Fixed.below (h : Fixed t shown slots) : ∀ slot ∈ slots, slot.Below P := fun slot hs => by
  obtain ⟨e, -, he⟩ := List.mem_map.1 (h.refers slot hs)
  exact Expr.below_of_isColumn (by rw [← he]; rfl)

/-! ## Numbering -/

namespace Numbered

/-- The row number is made of the sort keys. -/
theorem inherits (hE : Expr.Hereditary E) (h : Numbered t n n' added rowNumber)
    (hadded : ∀ slot ∈ added, slot.unnamed = .rowNumber (numberingKeys n.orderBy)) (hslots : ∀ e ∈ n.projection, E e)
    (hkeys : ∀ k ∈ n.orderBy, E k.expr) : ∀ e ∈ n'.projection, E e := by
  rw [h.eq]
  refine List.forall_mem_append.2 ⟨hslots, fun slot hs => ?_⟩
  rw [← hE.unnamed, hadded slot hs, hE.rowNumber, hE.numberingKeys]; exact hkeys

theorem below (h : Numbered t n n' added rowNumber)
    (hadded : ∀ slot ∈ added, slot.unnamed = .rowNumber (numberingKeys n.orderBy)) (hn : n.Below P) : n'.Below P := by
  rw [Query.below_iff] at hn ⊢
  have hslots := h.inherits Expr.below_hereditary hadded hn.2.1 hn.2.2.2.1
  refine ⟨?_, hslots, ?_, ?_, ?_, ?_⟩ <;> rw [h.eq]
  · exact hn.1
  · exact hn.2.2.1
  all_goals simp

/-- Paging aside nothing is lost, as the order is in the row number. -/
theorem below_iff (hP : ∀ c d : Query, c.beq d = true → (P c ↔ P d)) (h : Numbered t n n' added rowNumber)
    (hadded : ∀ slot ∈ added, slot.unnamed = .rowNumber (numberingKeys n.orderBy)) :
    n.Below P ↔ n'.Below P ∧ (∀ e ∈ n.limit, e.Below P) ∧ ∀ e ∈ n.offset, e.Below P := by
  refine ⟨fun hn => ⟨h.below hadded hn, ((Query.below_iff n).1 hn).2.2.2.2⟩, fun ⟨hn', hpaging⟩ => ?_⟩
  rw [Query.below_iff] at hn' ⊢
  have hkeys : ∀ k ∈ n.orderBy, k.expr.Below P := by
    obtain ⟨i, slot, name, hi, -, -, hv⟩ := h.column
    have hslot := (hv.below_iff hP).1 (hn'.2.1 slot (List.mem_of_getElem? hi))
    rwa [Expr.below_rowNumber, Expr.below_hereditary.numberingKeys] at hslot
  rw [h.eq] at hn'
  exact ⟨hn'.1, fun e he => hn'.2.1 e (List.mem_append_left _ he), hn'.2.2.1, hkeys, hpaging⟩

end Numbered

namespace Replacement

variable {r : Query}

/-- Of the queries that are left some are below the numbered one, the rest in LIMIT and OFFSET. -/
theorem below_iff (w : Replacement q r) (ho : q.offset.isSome = true) :
    r.Below P ↔ P w.numbered ∧ (∀ e ∈ q.limit, e.Below P) ∧ ∀ e ∈ q.offset, e.Below P := by
  have hslots : ∀ e ∈ r.projection, e.Below P := by
    rcases w.output with ⟨hnil, -⟩ | ⟨-, hfixed⟩
    · simp [hnil]
    · exact hfixed.below
  have hkeys : ∀ k ∈ r.orderBy, k.expr.Below P := by
    rw [w.orderBy]
    split
    · simp
    · exact w.moved.below_keys
  have hrow : w.rowNumber.Below P := by
    obtain ⟨i, slot, name, -, -, heq, -⟩ := w.numbering.column
    rw [heq]; exact Expr.below_output _ _ _
  have htable : (∀ t ∈ [Table.nested w.numbered], t.Below P) ↔ P w.numbered := by simp [Table.Below, Table.children]
  rw [Query.below_iff, w.tables, htable, w.predicate, Expr.below_hereditary.conjunction,
    Expr.below_hereditary.pagingBounds hrow ho, w.limit, w.offset, iff_true_intro hslots, iff_true_intro hkeys]
  simp

end Replacement

end Query
end QueryTree
