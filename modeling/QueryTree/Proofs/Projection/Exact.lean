/-
What adding a value leaves alone. The slots that were there keep their places, and with them every index
that has been handed out. A new slot comes at the end, and one sort key at most comes to refer to it.
-/
import QueryTree.Proofs.Projection

namespace QueryTree

/-- The casts that are dropped change at most whether NULL is allowed. -/
theorem Expr.kind_stripCasts (e : Expr) : e.stripCasts.type.kind = e.type.kind := by
  induction e using stripCasts.induct with
  | case1 operand t h ih =>
    have hkind : t.kind = operand.type.kind := by
      rw [Bool.and_eq_true, beq_iff_eq] at h
      exact h.2
    rw [stripCasts, if_pos h, ih, type, hkind]
  | case2 operand t h => rw [stripCasts, if_neg h]
  | case3 e h => cases e <;> first | rfl | exact absurd rfl (h _ _)

/-- The keys are what they were, or one that equals the slot has come to refer to it. -/
def OneRefersTo (slot : Expr) (keys keys' : List OrderKey) : Prop :=
  keys' = keys ∨ ∃ i k, keys[i]? = some k ∧ k.expr.equiv slot = true ∧ keys' = keys.set i { k with expr := slot }

theorem oneRefersTo_modify {e slot : Expr} (hun : slot.unnamed = e.unnamed) {keys : List OrderKey} {i : Nat}
    (h : keys.findIdx? (·.expr.equiv e) = some i) :
    OneRefersTo slot keys (keys.modify i ({ · with expr := slot })) := by
  obtain ⟨hlt, hequal, -⟩ := List.findIdx?_eq_some_iff_getElem.1 h
  have hi : keys[i]? = some keys[i] := List.getElem?_eq_getElem hlt
  refine .inr ⟨i, keys[i], hi, ?_, ?_⟩
  · rw [← Expr.equiv_unnamed, hun, Expr.equiv_unnamed, hequal]
  · rw [List.modify_eq_set_getElem?, hi]
    rfl

namespace Query

variable {e : Expr} {q : Query} {i : Nat}

/-- The value has slot `i` and no slot before it. -/
structure FirstSlot (e : Expr) (q : Query) (i : Nat) : Prop where
  holds : ∃ slot, q.projection[i]? = some slot ∧ slot.equiv e = true
  before : ∀ j < i, ∀ slot, q.projection[j]? = some slot → slot.equiv e = false

theorem firstSlot_of_slotOf (h : q.slotOf e = some i) : FirstSlot e q i where
  holds := slotOf_eq_some h
  before := by
    intro j hj slot hslot
    obtain ⟨hi, -, hbefore⟩ := List.findIdx?_eq_some_iff_getElem.1 h
    obtain ⟨hlt, rfl⟩ := List.getElem?_eq_some_iff.1 hslot
    simpa using hbefore j hj

theorem oneRefersTo_appendValue (e : Expr) (q : Query) :
    OneRefersTo (q.newSlot e) q.orderBy (q.appendValue e).orderBy := by
  rw [appendValue_eq]
  rcases hk : q.keyToName e with _ | i
  · exact .inl rfl
  · exact oneRefersTo_modify (newSlot_unnamed e q) (findIdx?_of_keyToName hk)

/-- A value that has a slot gets the first one and nothing changes but the wildcard, which `explicit` turns
off. Else it gets a slot at the end, and one key at most changes. Either way, what is in the slot has the
value's type, NULL aside. -/
theorem project_exact (e : Expr) (explicit : Bool) (q : Query) :
    ∃ i r slot, q.project e explicit = (i, r) ∧ r.projection[i]? = some slot ∧ slot.type.kind = e.type.kind ∧
      (FirstSlot e.stripCasts q i ∧ r = { q with starred := q.starred && !explicit } ∨
        (∀ old ∈ q.projection, old.equiv e.stripCasts = false) ∧ i = q.projection.length ∧
          slot.unnamed = e.stripCasts.unnamed ∧ ∃ keys, OneRefersTo slot q.orderBy keys ∧
            r = { q with
              projection := q.projection ++ [slot]
              orderBy := keys
              starred := q.starred && !explicit }) := by
  have hwildcard : (if explicit then { q with starred := false } else q) =
      { q with starred := q.starred && !explicit } := by
    cases q
    cases explicit
    · simp
    · simp
  unfold project
  simp only
  rw [hwildcard]
  generalize hq : { q with starred := q.starred && !explicit } = q'
  have hslots : q'.projection = q.projection := by rw [← hq]
  rcases hs : q'.slotOf e.stripCasts with _ | i
  · have hnew : ∀ old ∈ q.projection, old.equiv e.stripCasts = false := by
      rw [slotOf_projection hslots] at hs
      exact List.findIdx?_eq_none_iff.1 hs
    have hkind : (q'.newSlot e.stripCasts).type.kind = e.type.kind := by
      rw [← Expr.type_unnamed, newSlot_unnamed, Expr.type_unnamed, Expr.kind_stripCasts]
    refine ⟨_, _, q'.newSlot e.stripCasts, rfl, List.getElem?_concat_length .., hkind,
      .inr ⟨hnew, congrArg List.length hslots, newSlot_unnamed .., (q'.appendValue e.stripCasts).orderBy, ?_, ?_⟩⟩
    · rw [← hq]
      exact oneRefersTo_appendValue _ _
    · rw [← hq]
      rfl
  · obtain ⟨slot, hi, hequal⟩ := slotOf_eq_some hs
    have hkind : slot.type.kind = e.type.kind := by rw [Expr.type_of_equiv hequal, Expr.kind_stripCasts]
    refine ⟨i, q', slot, rfl, hi, hkind, .inl ⟨?_, rfl⟩⟩
    rw [slotOf_projection hslots] at hs
    exact firstSlot_of_slotOf hs

/-- The key is first in the order though second in age: of two that equal the value, the first is changed. -/
example :
    let sum := Expr.binary .add (.column "p" none "Id" .int32) (.int 1)
    let q : Query := { name := some "t", starred := false, orderBy := [⟨sum, .desc⟩, ⟨sum, .asc⟩] }
    q.project sum false = (0, { q with
      projection := [.named "c" sum]
      orderBy := [⟨.named "c" sum, .desc⟩, ⟨sum, .asc⟩] }) := by
  rfl

end Query

end QueryTree
