/-
What it does to a query to add a value to its projection. A slot that holds the value is found, or one is
appended, and a sort key that equals the value comes to refer to it. Idle casts, which change at most whether
NULL is allowed, are dropped first, but only those above all names: structurally equal expressions share a
slot exactly if as many are dropped from the one as from the other.
-/
import QueryTree.Proofs.Equality.Laws
import QueryTree.Proofs.PushDown.Lifting

namespace QueryTree

/-! ## Idle casts -/

namespace Expr

theorem type_unnamed : ∀ e : Expr, e.unnamed.type = e.type
  | named _ inner => by rw [unnamed, type, type_unnamed inner]
  | column .. | star _ | output .. | constant .. | parameter .. | rowNumber _ | cast .. | binary ..
  | not _ | call .. | exist _ => rfl

/-- The type is made from parts that structural equality compares. -/
theorem type_of_equiv : ∀ {a b : Expr}, a.equiv b = true → a.type = b.type
  | named _ inner, b, h => by rw [type, type_of_equiv (a := inner) (by rwa [equiv] at h)]
  | binary op left right, b, h => by
    rw [equiv] at h
    rw [← type_unnamed b]
    split at h
    · rename_i heq
      simp only [Bool.and_eq_true, beq_iff_eq] at h
      obtain ⟨⟨rfl, hleft⟩, hright⟩ := h
      rw [heq, type, type, type_of_equiv hleft, type_of_equiv hright]
    · cases h
  | column .., b, h | output .., b, h | constant .., b, h | parameter .., b, h | cast .., b, h | call .., b, h => by
    rw [equiv] at h
    rw [← type_unnamed b]
    split at h
    · rename_i heq
      simp only [Bool.and_eq_true, beq_iff_eq] at h
      rw [heq]
      simp [type, h]
    · cases h
  | star _, b, h | rowNumber _, b, h | not _, b, h | exist _, b, h => by
    rw [equiv] at h
    rw [← type_unnamed b]
    split at h
    · rename_i heq
      rw [heq]
      rfl
    · cases h

/-- The casts that are dropped from an expression: idle ones on top of it, above all names. -/
def idleCasts : Expr → Nat
  | cast operand t => if t.isNumber && t.kind == operand.type.kind then operand.idleCasts + 1 else 0
  | _ => 0

/-- The casts on top, idle or not, above names and below. -/
def castDepth : Expr → Nat
  | named _ inner => inner.castDepth
  | cast operand _ => operand.castDepth + 1
  | _ => 0

theorem castDepth_unnamed : ∀ e : Expr, e.unnamed.castDepth = e.castDepth
  | named _ inner => by rw [unnamed, castDepth, castDepth_unnamed inner]
  | column .. | star _ | output .. | constant .. | parameter .. | rowNumber _ | cast .. | binary ..
  | not _ | call .. | exist _ => rfl

theorem castDepth_of_equiv : ∀ {a b : Expr}, a.equiv b = true → a.castDepth = b.castDepth
  | named _ inner, b, h => by rw [castDepth, castDepth_of_equiv (a := inner) (by rwa [equiv] at h)]
  | cast operand _, b, h => by
    rw [equiv] at h
    rw [← castDepth_unnamed b]
    split at h
    · rename_i heq
      rw [Bool.and_eq_true] at h
      rw [heq, castDepth, castDepth, castDepth_of_equiv h.2]
    · cases h
  | column .., b, h | output .., b, h | constant .., b, h | parameter .., b, h | call .., b, h | star _, b, h
  | rowNumber _, b, h | not _, b, h | exist _, b, h | binary .., b, h => by
    rw [equiv] at h
    rw [← castDepth_unnamed b]
    split at h
    · rename_i heq
      rw [heq]
      rfl
    · cases h

/-- What is left when casts are dropped is as many casts less deep. -/
theorem castDepth_stripCasts (e : Expr) : e.stripCasts.castDepth + e.idleCasts = e.castDepth := by
  induction e using stripCasts.induct with
  | case1 operand t h ih => rw [stripCasts, idleCasts, if_pos h, if_pos h, castDepth, ← ih, Nat.add_assoc]
  | case2 operand t h => rw [stripCasts, idleCasts, if_neg h, if_neg h, Nat.add_zero]
  | case3 e h => cases e <;> first | rfl | exact absurd rfl (h _ _)

theorem stripCasts_of_idleCasts {e : Expr} (h : e.idleCasts = 0) : e.stripCasts = e := by
  cases e with
  | cast operand t =>
    rw [idleCasts] at h
    rw [stripCasts]
    split at h
    · cases h
    · rename_i hidle
      rw [if_neg hidle]
  | _ => rfl

theorem exists_cast_of_idleCasts {e : Expr} {n : Nat} (h : e.idleCasts = n + 1) :
    ∃ operand t, e = cast operand t ∧ operand.idleCasts = n ∧ e.stripCasts = operand.stripCasts := by
  cases e with
  | cast operand t =>
    rw [idleCasts] at h
    split at h
    · rename_i hidle
      exact ⟨operand, t, rfl, Nat.succ.inj h, by rw [stripCasts, if_pos hidle]⟩
    · cases h
  | _ => cases h

theorem stripCasts_equiv {n : Nat} : ∀ {a b : Expr}, a.equiv b = true → a.idleCasts = n → b.idleCasts = n →
    a.stripCasts.equiv b.stripCasts = true := by
  induction n with
  | zero =>
    intro a b h ha hb
    rwa [stripCasts_of_idleCasts ha, stripCasts_of_idleCasts hb]
  | succ n ih =>
    intro a b h ha hb
    obtain ⟨x, t, rfl, hx, hax⟩ := exists_cast_of_idleCasts ha
    obtain ⟨y, t', rfl, hy, hby⟩ := exists_cast_of_idleCasts hb
    simp only [equiv, unnamed, Bool.and_eq_true, beq_iff_eq] at h
    rw [hax, hby]
    exact ih h.2 hx hy

/-- Casts that are dropped make a difference where not as many are dropped from both sides. -/
theorem stripCasts_equiv_iff {a b : Expr} (h : a.equiv b = true) :
    a.stripCasts.equiv b.stripCasts = true ↔ a.idleCasts = b.idleCasts := by
  constructor
  · intro hstripped
    have ha := castDepth_stripCasts a
    have hb := castDepth_stripCasts b
    rw [← castDepth_of_equiv h, ← castDepth_of_equiv hstripped] at hb
    omega
  · intro hcasts
    exact stripCasts_equiv h hcasts rfl

end Expr

/-! ## Sort keys that come to refer to slots -/

/-- The key is what it was, or has come to refer to one of the slots, which equals it. -/
def OrderKey.RefersTo (slots : List Expr) (k k' : OrderKey) : Prop :=
  k' = k ∨ k'.direction = k.direction ∧ k.expr.equiv k'.expr = true ∧ k'.expr ∈ slots

namespace OrderKey.RefersTo

variable {slots slots' : List Expr} {k k' k'' : OrderKey}

theorem mono (hsub : slots ⊆ slots') (h : k.RefersTo slots k') : k.RefersTo slots' k' := by
  rcases h with rfl | ⟨hd, hequal, hmem⟩
  · exact .inl rfl
  · exact .inr ⟨hd, hequal, hsub hmem⟩

theorem trans (h : k.RefersTo slots k') (h' : k'.RefersTo slots k'') : k.RefersTo slots k'' := by
  rcases h with rfl | ⟨hd, hequal, hmem⟩
  · exact h'
  · rcases h' with rfl | ⟨hd', hequal', hmem'⟩
    · exact .inr ⟨hd, hequal, hmem⟩
    · exact .inr ⟨hd'.trans hd, Expr.equiv_trans hequal hequal', hmem'⟩

end OrderKey.RefersTo

namespace Query

theorem refersTo_modify {slots : List Expr} {e slot : Expr} (hun : slot.unnamed = e.unnamed) (hmem : slot ∈ slots) :
    ∀ {keys : List OrderKey} {i : Nat}, keys.findIdx? (·.expr.equiv e) = some i →
      List.Forall₂ (OrderKey.RefersTo slots) keys (keys.modify i ({ · with expr := slot }))
  | [], _, h => by cases h
  | k :: keys, i, h => by
    have hsame : List.Forall₂ (OrderKey.RefersTo slots) keys keys := List.forall₂_same.2 fun _ _ => .inl rfl
    rw [List.findIdx?_cons] at h
    split at h
    · rename_i hk
      cases h
      have hequal : k.expr.equiv slot = true := by rw [← Expr.equiv_unnamed, hun, Expr.equiv_unnamed, hk]
      exact .cons (.inr ⟨rfl, hequal, hmem⟩) hsame
    · obtain ⟨j, hj, rfl⟩ := Option.map_eq_some_iff.1 h
      exact .cons (.inl rfl) (refersTo_modify hun hmem hj)

/-! ## Adding a value -/

/-- What it does to a query to append a slot for a value that has none. -/
structure Appended (e : Expr) (q r : Query) (slot : Expr) : Prop where
  value : slot.unnamed = e.unnamed
  eq : r = { q with projection := q.projection ++ [slot], orderBy := r.orderBy }
  keys : List.Forall₂ (OrderKey.RefersTo [slot]) q.orderBy r.orderBy

theorem appended_appendValue (e : Expr) (q : Query) : ∃ slot, Appended e q (q.appendValue e) slot := by
  refine ⟨q.newSlot e, newSlot_unnamed e q, appendValue_eq e q, ?_⟩
  rw [appendValue_eq]
  rcases hk : q.keyToName e with _ | i
  · exact List.forall₂_same.2 fun _ _ => .inl rfl
  · exact refersTo_modify (newSlot_unnamed e q) (List.mem_singleton_self _) (findIdx?_of_keyToName hk)

/-- A value is found in a slot, or gets one at the end. -/
theorem project_cases (e : Expr) (explicit : Bool) (q : Query) :
    (∃ i, q.slotOf e.stripCasts = some i ∧
      q.project e explicit = (i, if explicit then { q with starred := false } else q)) ∨
    (q.slotOf e.stripCasts = none ∧ (q.project e explicit).1 = q.projection.length ∧
      ∃ slot, Appended e.stripCasts (if explicit then { q with starred := false } else q)
        (q.project e explicit).2 slot) := by
  unfold project
  simp only
  generalize hq : (if explicit then { q with starred := false } else q) = q'
  have hslots : q'.projection = q.projection := by
    rw [← hq]
    split
    · rfl
    · rfl
  rw [slotOf_projection hslots.symm, ← hslots]
  rcases hs : q'.slotOf e.stripCasts with _ | i
  · exact .inr ⟨rfl, rfl, appended_appendValue e.stripCasts q'⟩
  · exact .inl ⟨i, rfl, rfl⟩

/-- The same with regard to slots alone. -/
theorem project_slots (e : Expr) (explicit : Bool) (q : Query) :
    (q.slotOf e.stripCasts = some (q.project e explicit).1 ∧ (q.project e explicit).2.projection = q.projection) ∨
    (q.slotOf e.stripCasts = none ∧ (q.project e explicit).1 = q.projection.length ∧
      ∃ slot, slot.unnamed = e.stripCasts.unnamed ∧ (q.project e explicit).2.projection = q.projection ++ [slot]) := by
  have hslots : (if explicit then { q with starred := false } else q).projection = q.projection := by
    split
    · rfl
    · rfl
  rcases project_cases e explicit q with ⟨i, hi, heq⟩ | ⟨hnone, hlength, slot, happended⟩
  · rw [heq]
    exact .inl ⟨hi, hslots⟩
  · refine .inr ⟨hnone, hlength, slot, happended.value, ?_⟩
    rw [happended.eq, hslots]

/-- The same with regard to sort keys alone. -/
theorem project_keys (e : Expr) (explicit : Bool) (q : Query) :
    List.Forall₂ (OrderKey.RefersTo (q.project e explicit).2.projection) q.orderBy
      (q.project e explicit).2.orderBy := by
  have hkeys : (if explicit then { q with starred := false } else q).orderBy = q.orderBy := by
    split
    · rfl
    · rfl
  rcases project_cases e explicit q with ⟨i, -, heq⟩ | ⟨-, -, slot, happended⟩
  · rw [heq, hkeys]
    exact List.forall₂_same.2 fun _ _ => .inl rfl
  · have hslot : [slot] ⊆ (q.project e explicit).2.projection := by
      rw [happended.eq]
      exact List.subset_append_right _ _
    rw [← hkeys]
    exact happended.keys.imp fun _ _ hk => hk.mono hslot

/-! ## Equal values -/

theorem equiv_congr_of_equiv {a b : Expr} (ha : a.Below (Everywhere Keyed)) (h : a.equiv b = true) (x : Expr) :
    x.equiv a = x.equiv b := by
  rw [Bool.eq_iff_iff]
  exact ⟨fun hx => Expr.equiv_trans hx h, fun hx => Expr.equiv_trans hx (Expr.equiv_symm ha h)⟩

/-- What equals a value is found where the value is. -/
theorem slotOf_of_equiv {a b : Expr} (ha : a.Below (Everywhere Keyed)) (h : a.equiv b = true) (q : Query) :
    q.slotOf a = q.slotOf b := by
  unfold slotOf
  congr 1
  funext x
  exact equiv_congr_of_equiv ha h x

/-- A value that equals itself is found in the slot that was appended for it. -/
theorem slotOf_concat {e slot : Expr} {q r : Query} (hnone : q.slotOf e = none) (hself : e.equiv e = true)
    (hun : slot.unnamed = e.unnamed) (hr : r.projection = q.projection ++ [slot]) :
    r.slotOf e = some q.projection.length := by
  have hslot : slot.equiv e = true := by rw [← Expr.unnamed_equiv, hun, Expr.unnamed_equiv, hself]
  rw [slotOf] at hnone
  rw [slotOf, hr, List.findIdx?_append, hnone]
  simp [hslot]

/-- Two expressions in one slot are structurally equal. -/
theorem equiv_of_slotOf {a b : Expr} {q : Query} {i : Nat}
    (hkeyed : ∀ slot ∈ q.projection, slot.Below (Everywhere Keyed)) (ha : q.slotOf a = some i)
    (hb : q.slotOf b = some i) : a.equiv b = true := by
  obtain ⟨slot, hi, hequal⟩ := slotOf_eq_some ha
  obtain ⟨slot', hi', hequal'⟩ := slotOf_eq_some hb
  obtain rfl : slot = slot' := Option.some.inj (hi.symm.trans hi')
  exact Expr.equiv_trans (Expr.equiv_symm (hkeyed slot (List.mem_of_getElem? hi)) hequal) hequal'

/-- The second of two values gets the slot of the first, and nothing new, exactly if they are structurally
equal without the casts that are dropped. -/
theorem project_again_iff {a b : Expr} {q : Query} (explicit explicit' : Bool) (ha : a.Below (Everywhere Keyed))
    (hkeyed : ∀ slot ∈ q.projection, slot.Below (Everywhere Keyed)) :
    (((q.project a explicit).2.project b explicit').1 = (q.project a explicit).1 ∧
      ((q.project a explicit).2.project b explicit').2.projection = (q.project a explicit).2.projection) ↔
    a.stripCasts.equiv b.stripCasts = true := by
  have ha' : a.stripCasts.Below (Everywhere Keyed) := (Expr.below_stripCasts a).2 ha
  have hfirst := project_slots a explicit q
  generalize q.project a explicit = first at hfirst ⊢
  have hsecond := project_slots b explicit' first.2
  generalize first.2.project b explicit' = second at hsecond ⊢
  constructor
  · rintro ⟨hindex, hsame⟩
    -- Nothing new: the second value has been found, in the slot of the first.
    have hb : first.2.slotOf b.stripCasts = some first.1 := by
      rcases hsecond with ⟨hfound, -⟩ | ⟨-, -, slot, -, hslots⟩
      · rw [hfound, hindex]
      · rw [hslots] at hsame
        simp at hsame
    rcases hfirst with ⟨hfound, hslots⟩ | ⟨-, hlength, slot, hun, hslots⟩
    · rw [slotOf_projection hslots] at hb
      exact equiv_of_slotOf hkeyed hfound hb
    · obtain ⟨slot', hi, hequal⟩ := slotOf_eq_some hb
      rw [hslots, hlength, List.getElem?_concat_length] at hi
      cases hi
      rwa [← Expr.unnamed_equiv, hun, Expr.unnamed_equiv] at hequal
  · intro hequal
    have hself : a.stripCasts.equiv a.stripCasts = true := Expr.equiv_trans hequal (Expr.equiv_symm ha' hequal)
    have hfound : first.2.slotOf b.stripCasts = some first.1 := by
      rw [← slotOf_of_equiv ha' hequal]
      rcases hfirst with ⟨hfound, hslots⟩ | ⟨hnone, hlength, slot, hun, hslots⟩
      · rw [slotOf_projection hslots, hfound]
      · rw [slotOf_concat hnone hself hun hslots, hlength]
    rcases hsecond with ⟨hagain, hsame⟩ | ⟨hnone, -⟩
    · exact ⟨Option.some.inj (hagain.symm.trans hfound), hsame⟩
    · rw [hfound] at hnone
      cases hnone

end Query

/-- Two structurally equal expressions share a slot, and the second one changes nothing, exactly if as many
idle casts are dropped from the one as from the other. -/
theorem project_twice_iff {a b : Expr} {q : Query} (explicit explicit' : Bool) (hequal : a.equiv b = true)
    (ha : a.Below (Query.Everywhere Query.Keyed))
    (hkeyed : ∀ slot ∈ q.projection, slot.Below (Query.Everywhere Query.Keyed)) :
    (((q.project a explicit).2.project b explicit').1 = (q.project a explicit).1 ∧
      ((q.project a explicit).2.project b explicit').2.projection = (q.project a explicit).2.projection) ↔
    a.idleCasts = b.idleCasts :=
  (Query.project_again_iff explicit explicit' ha hkeyed).trans (Expr.stripCasts_equiv_iff hequal)

/-- One cast is dropped from each side. The name below the first does not matter. -/
theorem project_twice_of_named_operand :
    let id := Expr.column "p" (some ⟨1⟩) "Id" .int32
    let a := Expr.cast (.named "number" id) ⟨.int32, true⟩
    let b := Expr.cast id ⟨.int32, true⟩
    let q : Query := {
      tables := [.base "People" none "p" (some ⟨1⟩)]
      projection := [.column "p" (some ⟨1⟩) "Name" .text] }
    a.equiv b = true ∧ a.idleCasts = b.idleCasts ∧ ((q.project a true).2.project b false).1 = 1 ∧
      ((q.project a true).2.project b false).2.projection = (q.project a true).2.projection := by
  intro id a b q
  have hleaf (e : Expr) (he : e.children = []) : e.Below (Query.Everywhere Query.Keyed) := by
    intro c hc
    rw [he] at hc
    cases hc
  have hiff := project_twice_iff (a := a) (b := b) (q := q) true false (by decide) (hleaf a rfl) (by
    intro slot hslot
    rw [List.mem_singleton.1 hslot]
    exact hleaf _ rfl)
  have hcasts : a.idleCasts = b.idleCasts := rfl
  obtain ⟨hindex, hsame⟩ := hiff.2 hcasts
  exact ⟨by decide, hcasts, hindex.trans (by decide), hsame⟩

/-- Under a name the cast stays: the value is projected with it, and then once more without it. -/
theorem project_twice_differs_below_name :
    let id := Expr.column "p" (some ⟨1⟩) "Id" .int32
    let b := Expr.cast id .int32
    let a := Expr.named "number" b
    let q : Query := { tables := [.base "People" none "p" (some ⟨1⟩)] }
    a.equiv b = true ∧ (q.project a true).1 = 0 ∧ ((q.project a true).2.project b true).1 = 1 ∧
      ((q.project a true).2.project b true).2.projection = [a, id] := by
  intro id b a q
  exact ⟨by decide, by decide, by decide, rfl⟩

end QueryTree
