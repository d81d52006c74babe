/-
An interpretation over the integers, for base tables of any columns and contents. Columns are looked
up by name, casts keep the number, truth values are one and zero; what has no number, such as texts
and calls, is zero.
-/
import QueryTree.Proofs.Rows.Meaning

namespace QueryTree

mutual

def Expr.intValue : Expr → Scope Int → Int
  | .named _ inner, s => inner.intValue s
  | .column table _ name _, s => (s.answers table name).headD 0
  | .output query name _, s => (s.answers query name).headD 0
  | .constant (.integer n) _, _ => n.toInt
  | .cast operand _, s => operand.intValue s
  | .binary .add left right, s => left.intValue s + right.intValue s
  | .binary .greaterThan left right, s => if left.intValue s > right.intValue s then 1 else 0
  | .binary .lessThanOrEqual left right, s => if left.intValue s ≤ right.intValue s then 1 else 0
  | .binary .and left right, s => if left.intValue s ≠ 0 ∧ right.intValue s ≠ 0 then 1 else 0
  | .rowNumber keys, s =>
    (sortBy (compareBy compare (intKeys keys)) (scopesOf s.outer s.peers)).findIdx (·.place == s.place) + 1
  | .constant .., _ | .binary .., _ | .star _, _ | .parameter .., _ | .not _, _ | .call .., _ | .exist _, _ => 0

def intKeys : List OrderKey → List ((Scope Int → Int) × Direction)
  | [] => []
  | ⟨e, direction⟩ :: keys => (e.intValue, direction) :: intKeys keys

end

theorem intKeys_eq_map (keys : List OrderKey) : intKeys keys = keys.map fun k => (k.expr.intValue, k.direction) := by
  induction keys with
  | nil => rfl
  | cons k keys ih => cases k; simp [intKeys, ih]

namespace Expr

theorem intValue_unnamed : ∀ (e : Expr) (s : Scope Int), e.unnamed.intValue s = e.intValue s
  | named _ inner, s => by rw [unnamed, intValue, intValue_unnamed inner]
  | column .., _ | star _, _ | output .., _ | constant .., _ | parameter .., _ | rowNumber _, _ | cast .., _
  | binary .., _ | not _, _ | call .., _ | exist _, _ => rfl

theorem intValue_stripCasts (e : Expr) (s : Scope Int) : e.stripCasts.intValue s = e.intValue s := by
  fun_induction stripCasts e with
  | case1 operand t h ih => rw [ih, intValue]
  | case2 => rfl
  | case3 => rfl

end Expr

mutual

theorem Expr.intValue_of_equiv : ∀ {a b : Expr}, a.equiv b = true → ∀ s : Scope Int, a.intValue s = b.intValue s
  | .named _ inner, b, h, s => by
    rw [Expr.equiv] at h
    rw [Expr.intValue]
    exact Expr.intValue_of_equiv h s
  | .column .., b, h, s | .output .., b, h, s | .constant .., b, h, s | .parameter .., b, h, s => by
    rw [Expr.equiv] at h
    rw [← Expr.intValue_unnamed b]
    split at h
    · rename_i heq
      simp only [Bool.and_eq_true, beq_iff_eq] at h
      rw [heq]
      simp only [h, Expr.intValue]
    · cases h
  | .star _, b, h, s | .not _, b, h, s | .call .., b, h, s | .exist _, b, h, s => by
    rw [Expr.equiv] at h
    rw [← Expr.intValue_unnamed b]
    split at h
    · rename_i heq
      rw [heq]; rfl
    · cases h
  | .rowNumber _, b, h, s => by
    rw [Expr.equiv] at h
    rw [← Expr.intValue_unnamed b]
    split at h
    · rename_i heq
      rw [heq, Expr.intValue, Expr.intValue, intKeys_of_equiv h]
    · cases h
  | .cast .., b, h, s => by
    rw [Expr.equiv] at h
    rw [← Expr.intValue_unnamed b]
    split at h
    · rename_i heq
      rw [Bool.and_eq_true] at h
      rw [heq, Expr.intValue, Expr.intValue, Expr.intValue_of_equiv h.2]
    · cases h
  | .binary op _ _, b, h, s => by
    rw [Expr.equiv] at h
    rw [← Expr.intValue_unnamed b]
    split at h
    · rename_i heq
      simp only [Bool.and_eq_true, beq_iff_eq] at h
      rw [heq, ← h.1.1]
      cases op <;> simp only [Expr.intValue, Expr.intValue_of_equiv h.1.2 s, Expr.intValue_of_equiv h.2 s]
    · cases h

theorem intKeys_of_equiv : ∀ {ks ls : List OrderKey}, keysEquiv ks ls = true → intKeys ks = intKeys ls
  | [], [], _ => rfl
  | ⟨e, d⟩ :: ks, ⟨e', d'⟩ :: ls, h => by
    rw [keysEquiv] at h
    simp only [Bool.and_eq_true, beq_iff_eq] at h
    rw [intKeys, intKeys, h.1.1, intKeys_of_equiv h.2, funext (Expr.intValue_of_equiv h.1.2)]
  | [], _ :: _, h => by simp [keysEquiv] at h
  | _ :: _, [], h => by simp [keysEquiv] at h

end

namespace Interpretation

/-- The integers as values. -/
def integers (columns : Option String → String → List String) (contents : Option String → String → List (List Int)) :
    Interpretation Int where
  columns
  contents
  null := 0
  number := id
  eval := Expr.intValue
  holds v := v != 0
  count := Int.toNat
  compare := Ord.compare

theorem integers_numbering (columns : Option String → String → List String)
    (contents : Option String → String → List (List Int)) : (integers columns contents).Numbering where
  compare := inferInstanceAs (Std.TransOrd Int)
  named _ _ _ := by simp only [integers, Expr.intValue]
  equiv h s := Expr.intValue_of_equiv h s
  casts := Expr.intValue_stripCasts
  output _ h := by simp only [integers, Expr.intValue, h, List.headD_cons]
  integer _ _ _ := by simp only [integers, Expr.intValue, id]
  count n := by simp [integers]
  add ha hb := by simp only [integers, Expr.intValue] at *; rw [ha, hb]; rfl
  greaterThan ha hb := by
    simp only [integers, Expr.intValue, id] at *
    rw [ha, hb]; split <;> simp [*]
  lessThanOrEqual ha hb := by
    simp only [integers, Expr.intValue, id] at *
    rw [ha, hb]; split <;> simp [*]
  and _ _ _ := by
    simp only [integers, Expr.intValue]
    split <;> simp_all
  rowNumber keys s := by
    simp only [integers, Expr.intValue, position, compareKeys, intKeys_eq_map, id, Nat.cast_add, Nat.cast_one]

/-- Names, some of them equal, and numbers. -/
def people : Interpretation Int :=
  integers (fun _ _ => ["Name", "Id"]) fun _ _ => [[1, 3], [2, 1], [2, 4], [3, 2]]

theorem people_numbering : people.Numbering := integers_numbering ..

end Interpretation

end QueryTree
