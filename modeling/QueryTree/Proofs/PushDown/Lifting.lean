/-
Lifting of expressions through a nested query. A lifted expression refers to a slot of the nested
query that has the same value, or to a column of its wildcard; the nested query gains a slot at the
end where it had neither, and nothing else of it changes but names in its sort keys.
-/
import QueryTree.Query.Nesting
import QueryTree.Proofs.Names

namespace QueryTree

/-! ## Lists related element by element -/

section Lists

variable {α β γ : Type} {R : α → β → Prop} {S : α → γ → Prop} {T : β → γ → Prop}

theorem forall₂_mem_left : ∀ {xs : List α} {ys : List β} {x : α}, List.Forall₂ R xs ys → x ∈ xs → ∃ y ∈ ys, R x y
  | _, _, x, .cons hR hRs, h => by
    rcases List.mem_cons.1 h with rfl | h
    · exact ⟨_, List.mem_cons_self .., hR⟩
    · obtain ⟨y, hy, h⟩ := forall₂_mem_left hRs h
      exact ⟨y, List.mem_cons_of_mem _ hy, h⟩

/-- What related elements have in common, all elements of one list have if those of the other do. -/
theorem forall_iff_of_forall₂ {P : α → Prop} {Q : β → Prop} : ∀ {xs : List α} {ys : List β}, List.Forall₂ R xs ys →
    (∀ x ∈ xs, ∀ y, R x y → (P x ↔ Q y)) → ((∀ x ∈ xs, P x) ↔ ∀ y ∈ ys, Q y)
  | _, _, .nil, _ => by simp
  | _, _, .cons hR hRs, h => by
    rw [List.forall_mem_cons] at h
    rw [List.forall_mem_cons, List.forall_mem_cons, h.1 _ hR, forall_iff_of_forall₂ hRs h.2]

theorem forall₂_join (hT : ∀ {x y z}, R x y → S x z → T y z) : ∀ {xs : List α} {ys : List β} {zs : List γ},
    List.Forall₂ R xs ys → List.Forall₂ S xs zs → List.Forall₂ T ys zs
  | _, _, _, .nil, .nil => .nil
  | _, _, _, .cons hR hRs, .cons hS hSs => .cons (hT hR hS) (forall₂_join hT hRs hSs)

end Lists

/-! ## Expressions of the same value -/

/-- The least equivalence that makes names and casts that change at most nullability transparent and
holds between structurally equal expressions. -/
inductive Expr.SameValue : Expr → Expr → Prop
  | refl (e : Expr) : SameValue e e
  | symm {a b : Expr} : SameValue a b → SameValue b a
  | trans {a b c : Expr} : SameValue a b → SameValue b c → SameValue a c
  | named (name : String) (e : Expr) : SameValue (.named name e) e
  | casts (e : Expr) : SameValue e.stripCasts e
  | equiv {a b : Expr} : a.equiv b = true → SameValue a b

namespace Expr

theorem sameValue_unnamed : ∀ e : Expr, e.unnamed.SameValue e
  | .named name inner => (sameValue_unnamed inner).trans (.symm (.named name inner))
  | .column .. | .star _ | .output .. | .constant .. | .parameter .. | .rowNumber _ | .cast ..
  | .binary .. | .not _ | .call .. | .exist _ => .refl _

theorem SameValue.of_unnamed_eq {a b : Expr} (h : a.unnamed = b.unnamed) : a.SameValue b :=
  (sameValue_unnamed a).symm.trans (h ▸ sameValue_unnamed b)

/-- Names on the left are not looked at. -/
theorem unnamed_equiv : ∀ a b : Expr, a.unnamed.equiv b = a.equiv b
  | .named _ inner, b => by rw [unnamed, equiv]; exact unnamed_equiv inner b
  | .column .., _ | .star _, _ | .output .., _ | .constant .., _ | .parameter .., _ | .rowNumber _, _
  | .cast .., _ | .binary .., _ | .not _, _ | .call .., _ | .exist _, _ => rfl

theorem isNamed_unnamed : ∀ e : Expr, e.unnamed.isNamed = false
  | named _ inner => isNamed_unnamed inner
  | column .. | star _ | output .. | constant .. | parameter .. | rowNumber _ | cast .. | binary ..
  | not _ | call .. | exist _ => rfl

/-- What equals a row number is one. -/
theorem numbersRows_of_equiv {a b : Expr} (h : a.equiv b = true) (hb : b.numbersRows = true) :
    a.numbersRows = true := by
  rw [← unnamed_equiv] at h
  have ha := isNamed_unnamed a
  unfold numbersRows at hb ⊢
  generalize a.unnamed = u at h ha ⊢
  cases u with
  | rowNumber => rfl
  | named => cases ha
  | _ =>
    rw [equiv] at h
    split at h
    · rename_i heq
      rw [heq] at hb
      cases hb
    · cases h

end Expr

namespace Query

/-! ## Slots that hold a value -/

theorem slotOf_eq_some {e : Expr} {q : Query} {i : Nat} (h : q.slotOf e = some i) :
    ∃ slot, q.projection[i]? = some slot ∧ slot.equiv e = true := by
  obtain ⟨hlt, heq, -⟩ := List.findIdx?_eq_some_iff_getElem.1 h
  exact ⟨_, List.getElem?_eq_getElem hlt, heq⟩

/-- Whether a value has a slot depends on the slots alone, whatever they are named. -/
theorem slotOf_congr {q r : Query} (h : q.projection.map Expr.unnamed = r.projection.map Expr.unnamed)
    (e : Expr) : q.slotOf e = r.slotOf e := by
  have hq : ∀ es : List Expr, es.findIdx? (·.equiv e) = (es.map Expr.unnamed).findIdx? (·.equiv e) := by
    intro es
    rw [List.findIdx?_map]
    congr 1
    funext x; exact (Expr.unnamed_equiv x e).symm
  rw [slotOf, slotOf, hq q.projection, hq r.projection, h]

theorem slotOf_isSome {q : Query} {slot e : Expr} (hs : slot ∈ q.projection) (he : slot.equiv e = true) :
    (q.slotOf e).isSome = true := List.findIdx?_isSome.trans (List.any_eq_true.2 ⟨slot, hs, he⟩)

/-- The query outputs the value of `e`, leaving casts aside that change at most nullability. -/
def covers (q : Query) (e : Expr) : Bool := (q.slotOf e).isSome || (q.slotOf e.stripCasts).isSome

/-! ## A new slot -/

@[simp] theorem slotFor_unnamed (e : Expr) (q : Query) : (q.slotFor e).unnamed = e.unnamed := by
  unfold slotFor; split <;> simp

/-- Keys of the same directions and values, position by position. -/
def SameKeys (keys keys' : List OrderKey) : Prop :=
  List.Forall₂ (fun k k' => k'.direction = k.direction ∧ k'.expr.SameValue k.expr) keys keys'

theorem SameKeys.refl (keys : List OrderKey) : SameKeys keys keys :=
  List.forall₂_same.2 fun _ _ => ⟨rfl, .refl _⟩

theorem SameKeys.trans {ks ls ms : List OrderKey} (h : SameKeys ks ls) (h' : SameKeys ls ms) : SameKeys ks ms := by
  induction h generalizing ms with
  | nil => exact h'
  | cons hk _ ih =>
    cases h' with
    | cons hl h' => exact .cons ⟨hl.1.trans hk.1, hl.2.trans hk.2⟩ (ih h')

theorem sameKeys_modify {e e' : Expr} (he : e'.SameValue e) : ∀ {keys : List OrderKey} {i : Nat},
    keys.findIdx? (·.expr.equiv e) = some i → SameKeys keys (keys.modify i ({ · with expr := e' }))
  | [], _, h => by cases h
  | k :: keys, i, h => by
    rw [List.findIdx?_cons] at h
    split at h
    · rename_i hk
      cases h
      exact .cons ⟨rfl, he.trans (.symm (.equiv hk))⟩ (SameKeys.refl keys)
    · obtain ⟨j, hj, rfl⟩ := Option.map_eq_some_iff.1 h
      exact .cons ⟨rfl, .refl _⟩ (sameKeys_modify he hj)

/-- Keys that are replaced are so by the new expression. -/
theorem mem_modify_expr {e : Expr} : ∀ {keys : List OrderKey} {i : Nat} {k : OrderKey},
    k ∈ keys.modify i ({ · with expr := e }) → k ∈ keys ∨ k.expr = e
  | [], _, _, h => by simp at h
  | k₀ :: keys, 0, k, h => by
    rw [List.modify_zero_cons, List.mem_cons] at h
    rcases h with rfl | h
    · exact .inr rfl
    · exact .inl (List.mem_cons_of_mem _ h)
  | k₀ :: keys, i + 1, k, h => by
    rw [List.modify_succ_cons, List.mem_cons] at h
    rcases h with rfl | h
    · exact .inl (List.mem_cons_self ..)
    · exact (mem_modify_expr h).imp_left (List.mem_cons_of_mem _)

theorem findIdx?_of_keyToName {e : Expr} {q : Query} {i : Nat} (h : q.keyToName e = some i) :
    q.orderBy.findIdx? (·.expr.equiv e) = some i := by
  unfold keyToName at h
  split at h
  · cases h
  · exact h

/-- In a query with a name, no slot has had the name of a new one. -/
theorem slotFor_free {e : Expr} {q : Query} {name : String} (hname : q.name.isSome = true)
    (h : (q.slotFor e).outputName = some name) : Text.lowercase name ∉ q.slotNames.map Text.lowercase := by
  rw [slotFor, if_pos hname] at h
  by_cases hstar : e.isStar = true
  · -- A wildcard has no name.
    rw [distinctlyNamed, if_pos hstar] at h
    cases e with
    | star => cases h
    | _ => cases hstar
  · obtain ⟨free, hfree, -, hnot⟩ := distinctlyNamed_outputName (by simpa using hstar) q
    rw [hfree] at h
    cases h
    exact hnot

/-- The new slot for a value. A sort key without a name gets one with its slot. -/
def newSlot (e : Expr) (q : Query) : Expr :=
  q.slotFor (if (q.keyToName e).isSome && !e.isNamed then e.withName (q.freeSlotName slotStem) else e)

@[simp] theorem newSlot_unnamed (e : Expr) (q : Query) : (q.newSlot e).unnamed = e.unnamed := by
  rw [newSlot, slotFor_unnamed]
  split
  · exact Expr.withName_unnamed _ _
  · rfl

theorem appendValue_eq (e : Expr) (q : Query) : q.appendValue e =
    { q with
      projection := q.projection ++ [q.newSlot e]
      orderBy := match q.keyToName e with
        | some i => q.orderBy.modify i ({ · with expr := q.newSlot e })
        | none => q.orderBy } := rfl

/-- A value is appended in one slot; beyond it, only names in sort keys change. -/
theorem appendValue_spec (e : Expr) (q : Query) : ∃ slot keys, slot.unnamed = e.unnamed ∧
    q.appendValue e = { q with projection := q.projection ++ [slot], orderBy := keys } ∧
    SameKeys q.orderBy keys ∧
    (q.name.isSome = true → SlotsNamed q.projection → SlotsNamed (q.projection ++ [slot])) ∧
    ∀ k ∈ keys, k ∈ q.orderBy ∨ k.expr = slot := by
  refine ⟨q.newSlot e, _, newSlot_unnamed e q, appendValue_eq e q, ?_, fun hname h => ?_, ?_⟩
  · rcases hk : q.keyToName e with _ | i
    · exact SameKeys.refl _
    · exact sameKeys_modify (.of_unnamed_eq (newSlot_unnamed e q)) (findIdx?_of_keyToName hk)
  · rw [newSlot, slotFor, if_pos hname]
    exact slotsNamed_distinctlyNamed h _
  · rcases q.keyToName e with _ | i
    · exact fun k hk => .inl hk
    · exact fun k hk => mem_modify_expr hk

/-! ## Slots shown to the enclosing query -/

/-- `c'` is `c` with more slots, up to names in sort keys. -/
structure Widened (c c' : Query) (added : List Expr) : Prop where
  eq : c' = { c with projection := c.projection ++ added, orderBy := c'.orderBy }
  keys : SameKeys c.orderBy c'.orderBy
  unchanged : added = [] → c'.orderBy = c.orderBy
  named : c.name.isSome = true → SlotsNamed c.projection → SlotsNamed c'.projection

namespace Widened

variable {c c' c'' : Query} {added added' : List Expr}

theorem projection (h : Widened c c' added) : c'.projection = c.projection ++ added := congrArg Query.projection h.eq

theorem name (h : Widened c c' added) : c'.name = c.name := by rw [h.eq]

theorem starred (h : Widened c c' added) : c'.starred = c.starred := by rw [h.eq]

theorem refl (c : Query) : Widened c c [] :=
  ⟨by cases c; rw [List.append_nil], SameKeys.refl _, fun _ => rfl, fun _ h => h⟩

theorem trans (h : Widened c c' added) (h' : Widened c' c'' added') : Widened c c'' (added ++ added') := by
  refine ⟨?_, h.keys.trans h'.keys, fun hnil => ?_, fun hn hs => h'.named (by rw [h.name]; exact hn) (h.named hn hs)⟩
  · calc c'' = { c' with projection := c'.projection ++ added', orderBy := c''.orderBy } := h'.eq
      _ = { c with projection := c'.projection ++ added', orderBy := c''.orderBy } := by rw [h.eq]
      _ = _ := by rw [h.projection, List.append_assoc]
  · rw [List.append_eq_nil_iff] at hnil
    rw [h'.unchanged hnil.2, h.unchanged hnil.1]

end Widened

/-- The new slots hold values of `es`, and a sort key that changes has come to refer to one of them. -/
structure Gains (es : List Expr) (c c' : Query) (added : List Expr) : Prop extends Widened c c' added where
  sources : ∀ slot ∈ added, ∃ e ∈ es, slot.unnamed = e.stripCasts.unnamed
  sortKeys : ∀ k ∈ c'.orderBy, k ∈ c.orderBy ∨ k.expr ∈ added

namespace Gains

variable {es es' : List Expr} {c c' c'' : Query} {added added' : List Expr}

theorem refl (es : List Expr) (c : Query) : Gains es c c [] := ⟨.refl c, by simp, fun _ hk => .inl hk⟩

theorem trans (h : Gains es c c' added) (h' : Gains es' c' c'' added') : Gains (es ++ es') c c'' (added ++ added') where
  toWidened := h.toWidened.trans h'.toWidened
  sources := List.forall_mem_append.2
    ⟨fun slot hs => (h.sources slot hs).imp fun _ he => ⟨List.mem_append_left _ he.1, he.2⟩,
      fun slot hs => (h'.sources slot hs).imp fun _ he => ⟨List.mem_append_right _ he.1, he.2⟩⟩
  sortKeys := fun k hk => by
    rcases h'.sortKeys k hk with hk | hk
    · exact (h.sortKeys k hk).imp_right (List.mem_append_left _)
    · exact .inr (List.mem_append_right _ hk)

end Gains

/-- `e'` refers to a slot of `c`, the nested query `t`, that has the value of `e`. -/
def LiftedTo (t : String) (c : Query) (e e' : Expr) : Prop :=
  ∃ (i : Nat) (slot : Expr) (name : String), c.projection[i]? = some slot ∧ slot.outputName = some name ∧
    e' = .output t name slot.type ∧ slot.SameValue e

theorem LiftedTo.widen {t : String} {c c' : Query} {added : List Expr} {e e' : Expr} (h : LiftedTo t c e e')
    (hw : Widened c c' added) : LiftedTo t c' e e' := by
  obtain ⟨i, slot, name, hi, hrest⟩ := h
  refine ⟨i, slot, name, ?_, hrest⟩
  rw [hw.projection, List.getElem?_append_left (List.getElem?_eq_some_iff.1 hi).1, hi]

/-- `e'` refers to what `c`, the nested query `t`, outputs for `e`. -/
inductive Reaches (t : String) (c : Query) (e : Expr) : Expr → Prop
  | slot {e' : Expr} : LiftedTo t c e e' → Reaches t c e e'
  | wildcard (name : String) (type : DataType) :
      c.starred = true → e.unnamed.isColumn = true → Reaches t c e (.output t name type)

namespace Reaches

variable {t : String} {c c' : Query} {added : List Expr} {e e' : Expr}

theorem widen (h : Reaches t c e e') (hw : Widened c c' added) : Reaches t c' e e' := by
  cases h with
  | slot h => exact .slot (h.widen hw)
  | wildcard name type hs he => exact .wildcard name type (hw.starred.trans hs) he

/-- Nothing but the slots and the wildcard of the nested query has a part in it. -/
theorem congr (h : Reaches t c e e') (hp : c'.projection = c.projection) (hs : c'.starred = c.starred) :
    Reaches t c' e e' := by
  cases h with
  | slot h => exact .slot (by rw [LiftedTo, hp]; exact h)
  | wildcard name type hc he => exact .wildcard name type (hs.trans hc) he

theorem lifted (h : Reaches t c e e') (hs : c.starred = false) : LiftedTo t c e e' := by
  cases h with
  | slot h => exact h
  | wildcard name type hs' he => rw [hs] at hs'; cases hs'

end Reaches

theorem slotOf_projection {q r : Query} (h : q.projection = r.projection) (e : Expr) : q.slotOf e = r.slotOf e := by
  rw [slotOf, slotOf, h]

theorem covers_projection {q r : Query} (h : q.projection = r.projection) (e : Expr) : q.covers e = r.covers e := by
  rw [covers, covers, slotOf_projection h, slotOf_projection h]

/-- A value has its slot at the end if it is new, and else where it was. -/
theorem addSlot_spec (e : Expr) (c : Query) :
    ∃ added, Gains [e] c (c.addSlot e).2 added ∧ (added = [] ↔ (c.slotOf e.stripCasts).isSome = true) ∧
      (∀ slot ∈ added, slot = (c.addSlot e).1) ∧
      ∃ i : Nat, (c.addSlot e).2.projection[i]? = some (c.addSlot e).1 ∧ (c.addSlot e).1.SameValue e := by
  simp only [addSlot, project]
  rcases h : c.slotOf e.stripCasts with _ | i
  · obtain ⟨slot, keys, hun, heq, hkeys, hnamed, hsort⟩ := appendValue_spec e.stripCasts c
    simp only [heq, h, Bool.false_eq_true, if_false]
    refine ⟨[slot], ⟨⟨rfl, hkeys, fun h => (List.cons_ne_nil _ _ h).elim, hnamed⟩, by simpa using hun,
      by simpa using hsort⟩, by simp, by simp, c.projection.length, ?_, ?_⟩
    · simp
    · simpa using (Expr.SameValue.of_unnamed_eq hun).trans (.casts e)
  · obtain ⟨slot, hi, heq⟩ := slotOf_eq_some h
    simp only [Bool.false_eq_true, if_false, h, List.getD_eq_getElem?_getD, hi, Option.getD_some]
    exact ⟨[], .refl _ c, by simp, by simp, i, hi, (Expr.SameValue.equiv heq).trans (.casts e)⟩

/-- The slot for a value has been there before, or is new and in a query with a name has a name that no
slot has had. -/
theorem addSlot_cases (e : Expr) {c : Query} (hname : c.name.isSome = true) :
    ((c.addSlot e).1 ∈ c.projection ∧ (c.addSlot e).1.equiv e.stripCasts = true) ∨
      (c.addSlot e).1.unnamed = e.stripCasts.unnamed ∧ ∀ name, (c.addSlot e).1.outputName = some name →
        Text.lowercase name ∉ c.slotNames.map Text.lowercase := by
  simp only [addSlot, project, Bool.false_eq_true, if_false]
  rcases hs : c.slotOf e.stripCasts with _ | i
  · right
    simp only [appendValue_eq, List.getD_eq_getElem?_getD, List.getElem?_concat_length, Option.getD_some]
    exact ⟨newSlot_unnamed _ c, fun name hn => slotFor_free hname hn⟩
  · left
    obtain ⟨slot, hi, heq⟩ := slotOf_eq_some hs
    simp only [List.getD_eq_getElem?_getD, hi, Option.getD_some]
    exact ⟨List.mem_of_getElem? hi, heq⟩

theorem isColumn_of_owner {e : Expr} {table : String} (h : e.owner = some table) : e.isColumn = true := by
  cases e <;> first | rfl | cases h

/-- A value is shown in a slot, unless the wildcard has it already. The slot is new only if no slot
has the value. -/
theorem showSlot_spec (wildcard : Option String) (e : Expr) (c : Query) :
    ∃ added, Gains [e] c (c.showSlot wildcard e).2 added ∧ (∀ slot ∈ added, slot = (c.showSlot wildcard e).1) ∧
      ((c.starred = true ∧ e.unnamed.isColumn = true) ∨
        ∃ i : Nat, (c.showSlot wildcard e).2.projection[i]? = some (c.showSlot wildcard e).1 ∧
          (c.showSlot wildcard e).1.SameValue e) ∧
      (c.starred = false → (added = [] ↔ c.covers e = true)) := by
  unfold showSlot covers
  rcases h : c.slotOf e with _ | i
  · simp only
    split
    · rename_i hstar
      simp only [Bool.and_eq_true, beq_iff_eq] at hstar
      obtain ⟨table, htable⟩ := Option.isSome_iff_exists.1 hstar.1.2
      exact ⟨[], .refl _ c, by simp, .inl ⟨hstar.1.1, isColumn_of_owner (hstar.2.trans htable)⟩,
        fun hc => by simp [hc] at hstar⟩
    · obtain ⟨added, hw, hadded, hnew, hslot⟩ := addSlot_spec e c
      exact ⟨added, hw, hnew, .inr hslot, fun _ => by rw [hadded, Option.isSome_none, Bool.false_or]⟩
  · obtain ⟨slot, hi, heq⟩ := slotOf_eq_some h
    simp only [List.getD_eq_getElem?_getD, hi, Option.getD_some]
    exact ⟨[], .refl _ c, by simp, .inr ⟨i, hi, .equiv heq⟩, by simp⟩

/-! ## Lifting -/

section Lifting

variable {σ ε α β : Type}

theorem run_bind_ok {x : StateT σ (Except ε) α} {f : α → StateT σ (Except ε) β} {s : σ} {r : β × σ}
    (h : (x >>= f).run s = .ok r) : ∃ a s', x.run s = .ok (a, s') ∧ (f a).run s' = .ok r := by
  rw [StateT.run_bind] at h
  rcases hx : x.run s with e | ⟨a, s'⟩
  · rw [hx] at h; cases h
  · rw [hx] at h; exact ⟨a, s', rfl, h⟩

end Lifting

theorem lift_ok {t : String} {e e' : Expr} (h : e.lift t = .ok e') :
    ∃ name, e.outputName = some name ∧ e' = .output t name e.type := by
  unfold Expr.lift Expr.lift? at h
  rcases hn : e.outputName with _ | name
  · rw [hn] at h; cases h
  · rw [hn] at h; cases h; exact ⟨name, rfl, rfl⟩

theorem run_liftThrough (t : String) (wildcard : Option String) (e : Expr) (c : Query) :
    (liftThrough t wildcard e).run c =
      ((c.showSlot wildcard e).1.lift t).map fun e' => (e', (c.showSlot wildcard e).2) := rfl

/-- What is lifted is what the nested query shows. -/
theorem shown_of_liftThrough {t : String} {wildcard : Option String} {e e' : Expr} {c c' : Query}
    (h : (liftThrough t wildcard e).run c = .ok (e', c')) :
    (c.showSlot wildcard e).1.lift t = .ok e' ∧ c' = (c.showSlot wildcard e).2 := by
  rw [run_liftThrough] at h
  rcases hl : (c.showSlot wildcard e).1.lift t with err | lifted
  · rw [hl] at h
    cases h
  · rw [hl] at h
    cases h
    exact ⟨rfl, rfl⟩

theorem liftThrough_ok {t : String} {wildcard : Option String} {e e' : Expr} {c c' : Query}
    (h : (liftThrough t wildcard e).run c = .ok (e', c')) :
    ∃ added, Gains [e] c c' added ∧ (∀ slot ∈ added, slot.outputName.isSome = true) ∧ Reaches t c' e e' ∧
      (c.starred = false → (added = [] ↔ c.covers e = true)) := by
  obtain ⟨added, hw, hnew, hshown, hc⟩ := showSlot_spec wildcard e c
  obtain ⟨hlift, rfl⟩ := shown_of_liftThrough h
  obtain ⟨name, hname, rfl⟩ := lift_ok hlift
  refine ⟨added, hw, fun slot hm => by rw [hnew slot hm, hname]; rfl, ?_, hc⟩
  rcases hshown with ⟨hs, he⟩ | ⟨i, hi, hv⟩
  · exact .wildcard name _ (hw.starred.trans hs) he
  · exact .slot ⟨i, _, name, hi, hname, rfl, hv⟩

/-- Expressions at some place in the elements of a list are lifted one after the other. -/
theorem mapM_liftThrough_ok {α : Type} {t : String} {wildcard : Option String} (get : α → Expr)
    (put : α → Expr → α) : ∀ {xs ys : List α} {c c' : Query},
      (xs.mapM fun x => return put x (← liftThrough t wildcard (get x))).run c = .ok (ys, c') →
      ∃ added, Gains (xs.map get) c c' added ∧ (∀ slot ∈ added, slot.outputName.isSome = true) ∧
        List.Forall₂ (fun x y => ∃ e', y = put x e' ∧ Reaches t c' (get x) e') xs ys ∧
        (c.starred = false → (added = [] ↔ ∀ x ∈ xs, c.covers (get x) = true))
  | [], ys, c, c', h => by
    cases h
    exact ⟨[], .refl _ c, by simp, .nil, by simp⟩
  | x :: xs, ys, c, c', h => by
    rw [List.mapM_cons] at h
    obtain ⟨y, c₁, hy, h⟩ := run_bind_ok h
    obtain ⟨e', c₂, he', hy⟩ := run_bind_ok hy
    cases hy
    obtain ⟨ys', c₂, hys, h⟩ := run_bind_ok h
    cases h
    obtain ⟨added, hw, hslots, hl, hadded⟩ := liftThrough_ok he'
    obtain ⟨added', hw', hslots', hl', hadded'⟩ := mapM_liftThrough_ok get put hys
    refine ⟨added ++ added', hw.trans hw', List.forall_mem_append.2 ⟨hslots, hslots'⟩,
      .cons ⟨e', rfl, hl.widen hw'.toWidened⟩ hl', fun hs => ?_⟩
    -- As long as nothing is added, what is covered stays the same.
    rw [List.append_eq_nil_iff, List.forall_mem_cons, hadded hs, hadded' (hw.starred.trans hs)]
    refine and_congr_right fun hx => ?_
    have hsame : c₁.projection = c.projection := by rw [hw.projection, (hadded hs).2 hx, List.append_nil]
    simp only [covers_projection hsame]

/-! ## Lifting that succeeds -/

theorem lift_of_outputName {t : String} {e : Expr} {name : String} (h : e.outputName = some name) :
    e.lift t = .ok (.output t name e.type) := by
  unfold Expr.lift Expr.lift?
  rw [h]; rfl

theorem run_bind_of_ok {σ ε α β : Type} {x : StateT σ (Except ε) α} {f : α → StateT σ (Except ε) β} {s s' : σ}
    {a : α} (h : x.run s = .ok (a, s')) : (x >>= f).run s = (f a).run s' := by
  rw [StateT.run_bind, h]; rfl

theorem liftThrough_of_slot {t : String} {wildcard : Option String} {e : Expr} {c : Query} {i : Nat}
    (h : c.slotOf e = some i) (hnamed : ∀ slot ∈ c.projection, slot.outputName.isSome = true) :
    ∃ e', (liftThrough t wildcard e).run c = .ok (e', c) := by
  obtain ⟨slot, hi, -⟩ := slotOf_eq_some h
  obtain ⟨name, hname⟩ := Option.isSome_iff_exists.1 (hnamed slot (List.mem_of_getElem? hi))
  have hshown : c.showSlot wildcard e = (slot, c) := by
    unfold showSlot; rw [h]; simp [List.getD_eq_getElem?_getD, hi]
  refine ⟨.output t name slot.type, ?_⟩
  rw [run_liftThrough, hshown, lift_of_outputName hname]
  rfl

/-- Where each expression has what it needs, all are lifted and the nested query stays as it is. -/
theorem mapM_liftThrough_exists {α : Type} {t : String} {wildcard : Option String} {c : Query} (get : α → Expr)
    (put : α → Expr → α) : ∀ {xs : List α}, (∀ x ∈ xs, ∃ e', (liftThrough t wildcard (get x)).run c = .ok (e', c)) →
      ∃ ys, (xs.mapM fun x => return put x (← liftThrough t wildcard (get x))).run c = .ok (ys, c) ∧
        List.Forall₂ (fun x y => ∃ e', y = put x e' ∧ (liftThrough t wildcard (get x)).run c = .ok (e', c)) xs ys
  | [], _ => ⟨[], rfl, .nil⟩
  | x :: xs, h => by
    obtain ⟨e', he⟩ := h x (List.mem_cons_self ..)
    obtain ⟨ys, hys, hl⟩ := mapM_liftThrough_exists get put fun y hy => h y (List.mem_cons_of_mem _ hy)
    refine ⟨put x e' :: ys, ?_, .cons ⟨e', rfl, he⟩ hl⟩
    have hx : (do return put x (← liftThrough t wildcard (get x)) : StateT Query (Except Error) α).run c =
        .ok (put x e', c) := by rw [run_bind_of_ok he]; rfl
    rw [List.mapM_cons, run_bind_of_ok hx, run_bind_of_ok hys]
    rfl

end Query
end QueryTree
