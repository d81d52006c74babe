/-
Structural equality as equality of trees. Erasing takes away what structural equality passes over: the
names at every depth and the query sources of columns. Queries under EXISTS stay as they are. Two
expressions are structurally equal exactly if they are one tree after erasing.
-/
import Mathlib.Logic.Relation
import QueryTree.Proofs.Equality.Same
import QueryTree.Proofs.PushDown.Lifting

namespace QueryTree

/-! ## Erasing -/

mutual

/-- The expression without its names and query sources. -/
def Expr.erased : Expr → Expr
  | .named _ e => e.erased
  | .column t _ n ty => .column t none n ty
  | .rowNumber ks => .rowNumber (keysErased ks)
  | .cast e ty => .cast e.erased ty
  | .binary op l r => .binary op l.erased r.erased
  | .not e => .not e.erased
  | .call f as ty => .call f (exprsErased as) ty
  | e => e

def exprsErased : List Expr → List Expr
  | [] => []
  | e :: es => e.erased :: exprsErased es

def keysErased : List OrderKey → List OrderKey
  | [] => []
  | ⟨e, d⟩ :: ks => ⟨e.erased, d⟩ :: keysErased ks

end

@[simp] theorem exprsErased_eq_map (es : List Expr) : exprsErased es = es.map Expr.erased := by
  induction es <;> simp [exprsErased, *]

@[simp] theorem keysErased_eq_map (ks : List OrderKey) :
    keysErased ks = ks.map fun k => { k with expr := k.expr.erased } := by
  induction ks with
  | nil => rfl
  | cons k ks ih => cases k; simp [keysErased, ih]

namespace Expr

@[simp] theorem erased_unnamed : ∀ e : Expr, e.unnamed.erased = e.erased
  | .named _ inner => by rw [unnamed, erased]; exact erased_unnamed inner
  | .column .. | .star _ | .output .. | .constant .. | .parameter .. | .rowNumber _ | .cast .. | .binary ..
  | .not _ | .call .. | .exist _ => rfl

theorem operands_erased {e : Expr} (h : e.isNamed = false) : e.erased.operands = e.operands.map erased := by
  cases e with
  | named => cases h
  | _ => simp [erased, operands]

theorem children_erased (e : Expr) : e.erased.children = e.children := by
  induction e using induct with
  | h e ih =>
    cases e with
    | named name inner => exact ih inner (List.mem_singleton_self _)
    | rowNumber keys =>
      simp only [operands, List.forall_mem_map] at ih
      simp only [erased, children, keysErased_eq_map, keyChildren_eq_flatMap, List.flatMap_map]
      exact List.flatMap_congr ih
    | call function args type =>
      simp only [erased, children, exprsErased_eq_map, exprChildren_eq_flatMap, List.flatMap_map]
      exact List.flatMap_congr ih
    | binary op left right =>
      simp only [operands, List.forall_mem_cons] at ih
      rw [erased, children, children, ih.1, ih.2.1]
    | cast operand type => exact ih operand (List.mem_singleton_self _)
    | not operand => exact ih operand (List.mem_singleton_self _)
    | column | star | output | constant | parameter | exist => rfl

/-! ## Structural equality -/

/-- One tree after erasing. Floating-point values are compared by their bits, queries under EXISTS part by
part. -/
def SameErased (a b : Expr) : Prop := a.erased.Same (· = ·) (fun q r => (q == r) = true) b.erased

/-- Names on the right are not looked at either. -/
theorem equiv_unnamed (a b : Expr) : a.equiv b.unnamed = a.equiv b := by
  induction a using induct with
  | h a ih =>
    cases a with
    | named name inner => exact ih inner (List.mem_singleton_self _)
    | _ => rw [equiv, equiv, unnamed_unnamed]

/-- Without names on top, structural equality compares the heads, and the operands one by one. -/
theorem equiv_iff_operands {a b : Expr} (ha : a.isNamed = false) (hb : b.isNamed = false) :
    a.equiv b = true ↔ a.erased.SameHead (· = ·) (fun q r => (q == r) = true) b.erased ∧
      List.Forall₂ (fun x y => x.equiv y = true) a.operands b.operands := by
  -- `equiv` takes the names off `b` first, and it has none.
  cases a with
  | named => cases ha
  | column =>
    cases b with
    | named => cases hb
    | column => simp [equiv, unnamed, erased, SameHead, operands, and_assoc]
    | _ => exact iff_of_false (by simp [equiv, unnamed]) fun h => h.1
  | star =>
    cases b with
    | named => cases hb
    | star => simp [equiv, unnamed, erased, SameHead, operands]
    | _ => exact iff_of_false (by simp [equiv, unnamed]) fun h => h.1
  | output =>
    cases b with
    | named => cases hb
    | output => simp [equiv, unnamed, erased, SameHead, operands, and_assoc]
    | _ => exact iff_of_false (by simp [equiv, unnamed]) fun h => h.1
  | constant =>
    cases b with
    | named => cases hb
    | constant => simp [equiv, unnamed, erased, SameHead, operands, and_comm]
    | _ => exact iff_of_false (by simp [equiv, unnamed]) fun h => h.1
  | parameter =>
    cases b with
    | named => cases hb
    | parameter => simp [equiv, unnamed, erased, SameHead, operands]
    | _ => exact iff_of_false (by simp [equiv, unnamed]) fun h => h.1
  | rowNumber =>
    cases b with
    | named => cases hb
    | rowNumber => simp [equiv, unnamed, erased, SameHead, operands, keysEquiv_iff, Function.comp_def]
    | _ => exact iff_of_false (by simp [equiv, unnamed]) fun h => h.1
  | cast =>
    cases b with
    | named => cases hb
    | cast => simp [equiv, unnamed, erased, SameHead, operands]
    | _ => exact iff_of_false (by simp [equiv, unnamed]) fun h => h.1
  | binary =>
    cases b with
    | named => cases hb
    | binary => simp [equiv, unnamed, erased, SameHead, operands, and_assoc]
    | _ => exact iff_of_false (by simp [equiv, unnamed]) fun h => h.1
  | not =>
    cases b with
    | named => cases hb
    | not => simp [equiv, unnamed, erased, SameHead, operands]
    | _ => exact iff_of_false (by simp [equiv, unnamed]) fun h => h.1
  | call =>
    cases b with
    | named => cases hb
    | call => simp [equiv, unnamed, erased, SameHead, operands, exprsEquiv_iff]
    | _ => exact iff_of_false (by simp [equiv, unnamed]) fun h => h.1
  | exist =>
    cases b with
    | named => cases hb
    | exist => simp [equiv, unnamed, erased, SameHead, operands]
    | _ => exact iff_of_false (by simp [equiv, unnamed]) fun h => h.1

/-- Without names on top, erased trees are the same if the heads are, and the operands one by one. -/
theorem same_erased_iff {L : Literal → Literal → Prop} {R : Query → Query → Prop} {a b : Expr}
    (ha : a.isNamed = false) (hb : b.isNamed = false) : a.erased.Same L R b.erased ↔
      a.erased.SameHead L R b.erased ∧ List.Forall₂ (fun x y => x.erased.Same L R y.erased) a.operands b.operands := by
  rw [same_iff, operands_erased ha, operands_erased hb, List.forall₂_map_left_iff, List.forall₂_map_right_iff]

theorem equiv_iff (a : Expr) : ∀ b : Expr, a.equiv b = true ↔ a.SameErased b := by
  induction a using induct with
  | h a ih =>
    intro b
    by_cases ha : a.isNamed = true
    · cases a with
      | named name inner => exact ih inner (List.mem_singleton_self _) b
      | _ => cases ha
    · have ha : a.isNamed = false := Bool.eq_false_iff.2 ha
      have hb := isNamed_unnamed b
      rw [← equiv_unnamed, equiv_iff_operands ha hb, forall₂_congr_of_mem ih, SameErased, ← erased_unnamed b,
        same_erased_iff ha hb]
      rfl

/-- Without EXISTS only the trees count. -/
theorem sameErased_iff_eq {a b : Expr} (h : a.children = []) : a.SameErased b ↔ a.erased = b.erased := by
  rw [SameErased, ← same_eq_iff]
  exact same_congr (by rw [children_erased, h])

/-! ## Names put on and taken off -/

/-- A name is put on one part of the expression, or taken off. Queries under EXISTS are not entered. -/
inductive Renamed : Expr → Expr → Prop
  | wrap (name : String) (e : Expr) : Renamed e (.named name e)
  | unwrap (name : String) (e : Expr) : Renamed (.named name e) e
  | operand {e e' x y : Expr} {i : Nat} : e.operands[i]? = some x → Renamed x y → e.setOperand? i y = some e' →
      Renamed e e'

/-- Replacing an operand leaves the head and the other operands. -/
theorem setOperand?_spec {e e' y : Expr} {i : Nat} (h : e.setOperand? i y = some e') :
    e.SameHead (· = ·) (· = ·) e' ∧ e'.operands = e.operands.set i y := by
  unfold setOperand? at h
  obtain ⟨hi, h⟩ := Option.ite_none_right_eq_some.1 h
  cases h
  cases e with
  | rowNumber keys =>
    constructor
    · refine List.ext_getElem (by simp) fun n _ _ => ?_
      simp only [List.getElem_map, List.getElem_modify]
      split <;> rfl
    · refine List.ext_getElem (by simp [operands]) fun n _ _ => ?_
      simp only [operands, List.getElem_map, List.getElem_modify, List.getElem_set]
      split <;> rfl
  | call => exact ⟨⟨rfl, rfl⟩, rfl⟩
  | binary op left right =>
    simp only [operands, List.length_cons, List.length_nil] at hi
    obtain rfl | rfl : i = 0 ∨ i = 1 := by omega
    · exact ⟨rfl, rfl⟩
    · exact ⟨rfl, rfl⟩
  | named | cast | not =>
    simp only [operands, List.length_cons, List.length_nil] at hi
    obtain rfl : i = 0 := by omega
    exact ⟨by simp [SameHead], rfl⟩
  | column | star | output | constant | parameter | exist => cases hi

theorem erased_congr {a b : Expr} (hhead : a.SameHead (· = ·) (· = ·) b)
    (hoperands : a.operands.map erased = b.operands.map erased) : a.erased = b.erased := by
  cases a with
  | rowNumber ks =>
    cases b with
    | rowNumber ls =>
      rw [erased, erased, keysErased_eq_map, keysErased_eq_map]
      refine congrArg rowNumber (keys_ext ?_ ?_)
      · rw [SameHead] at hhead
        simpa [Function.comp_def] using hhead
      · simpa [operands, Function.comp_def] using hoperands
    | _ => cases hhead
  | _ => cases b <;> simp_all [SameHead, operands, erased]

theorem Renamed.erased_eq {e e' : Expr} (h : e.Renamed e') : e'.erased = e.erased := by
  induction h with
  | wrap | unwrap => rfl
  | @operand e e' x y i hx hxy h ih =>
    obtain ⟨hhead, hoperands⟩ := setOperand?_spec h
    obtain ⟨hi, rfl⟩ := List.getElem?_eq_some_iff.1 hx
    have hi' : i < (e.operands.map erased).length := by simpa using hi
    have hget : (e.operands.map erased)[i] = e.operands[i].erased := List.getElem_map erased
    refine (erased_congr hhead ?_).symm
    rw [hoperands, List.map_set, ih, ← hget, List.set_getElem_self]

theorem equiv_congr {a a' b b' : Expr} (ha : a'.erased = a.erased) (hb : b'.erased = b.erased) :
    a'.equiv b' = a.equiv b := by
  rw [Bool.eq_iff_iff, equiv_iff, equiv_iff, SameErased, SameErased, ha, hb]

/-- Two expressions are structurally equal exactly if they are one tree without their names and query
sources. Hence names put on and taken off, as often as one likes, never change a comparison. -/
theorem equal_up_to_names (a b : Expr) :
    (a.equiv b = true ↔ a.SameErased b) ∧
      (a.children = [] → (a.equiv b = true ↔ a.erased = b.erased)) ∧
      ∀ a' b' : Expr, Relation.ReflTransGen Renamed a a' → Relation.ReflTransGen Renamed b b' →
        a'.equiv b' = a.equiv b := by
  have herased {e e' : Expr} (h : Relation.ReflTransGen Renamed e e') : e'.erased = e.erased := by
    induction h with
    | refl => rfl
    | tail _ hstep ih => rw [hstep.erased_eq, ih]
  refine ⟨equiv_iff a b, fun h => ?_, fun a' b' ha hb => equiv_congr (herased ha) (herased hb)⟩
  rw [equiv_iff, sameErased_iff_eq h]

/-- `COALESCE(c.Discount AS x, 0.5)` and `COALESCE(c.Discount, 0.5) AS total`, where the columns have
different sources, and both without their names. -/
theorem equal_up_to_names_coalesce :
    let half := constant (.double ⟨0x3fe0000000000000⟩) ⟨.double, false⟩
    let discount (source : UInt32) := column "c" (some ⟨source⟩) "Discount" ⟨.double, true⟩
    let coalesce (e : Expr) := call "COALESCE" [e, half] ⟨.double, false⟩
    (coalesce (named "x" (discount 1))).equiv (named "total" (coalesce (discount 2))) = true ∧
      (coalesce (discount 1)).equiv (coalesce (discount 2)) = true := by
  intro half discount coalesce
  obtain ⟨-, htrees, hnames⟩ := equal_up_to_names (coalesce (named "x" (discount 1)))
    (named "total" (coalesce (discount 2)))
  have hequal := (htrees rfl).2 rfl
  refine ⟨hequal, (hnames _ _ ?_ ?_).trans hequal⟩
  · exact .single (.operand (i := 0) rfl (.unwrap "x" _) rfl)
  · exact .single (.unwrap "total" _)

end Expr

end QueryTree
