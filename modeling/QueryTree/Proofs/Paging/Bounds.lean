/-
Bounds on row numbers. In the order of the sort keys, the rows whose number is within the bounds are
those that OFFSET and LIMIT leave, whether the last number is folded or left as a sum.
-/
import QueryTree.Proofs.Paging.Numbering
import QueryTree.Proofs.Rows.Positions

namespace QueryTree

variable {V : Type} {I : Interpretation V} {outer : List (List (Part V))}

/-! ## Bounds -/

namespace Expr

/-- The last row that LIMIT leaves, whether the sum is folded or not. -/
theorem eval_lastRow (hI : I.Numbering) {offset limit : Expr} {o l : Nat} (ho : I.Counts offset o)
    (hl : I.Counts limit l) (s : Scope V) : I.eval (lastRow offset limit) s = I.number (o + l : Nat) := by
  have hsum : I.eval (.binary .add offset limit) s = I.number (o + l : Nat) := by
    rw [hI.add (ho.eval_eq hI.toCounting s) (hl.eval_eq hI.toCounting s), Nat.cast_add]
  unfold lastRow
  simp only
  split
  · rename_i x y hx hy
    split
    · -- In range the folded sum is exact; out of range it is not folded.
      rename_i hrange
      rw [Bool.and_eq_true, decide_eq_true_eq, decide_eq_true_eq] at hrange
      rw [hI.integer, Int64.toInt_ofInt_of_le hrange.1 (lt_of_le_of_lt hrange.2 (by decide)), ho.integer hx,
        hl.integer hy, Nat.cast_add]
    · exact hsum
  · exact hsum

/-- The bounds are met by the rows that OFFSET and LIMIT leave. -/
theorem holds_pagingBounds (hI : I.Numbering) {rowNumber offset : Expr} {limit : Option Expr} {o : Nat}
    (ho : I.Counts offset o) (hl : ∀ e, limit = some e → ∃ l, I.Counts e l) {s : Scope V} {n : Nat}
    (hn : I.eval rowNumber s = I.number n) :
    (Expr.conjunction (rowNumber.pagingBounds (some offset) limit)).all (fun e => I.holds (I.eval e s)) =
      (decide (o < n) && limit.all fun e => decide (n ≤ o + I.bound outer e)) := by
  have hgt : I.holds (I.eval (.binary .greaterThan rowNumber offset) s) = decide (o < n) := by
    rw [hI.greaterThan hn (ho.eval_eq hI.toCounting s)]
    simp
  rcases limit with _ | limit
  · simpa [pagingBounds, conjunction, conjoin] using hgt
  · obtain ⟨l, hl⟩ := hl limit rfl
    have hle : I.holds (I.eval (.binary .lessThanOrEqual rowNumber (lastRow offset limit)) s) = decide (n ≤ o + l) := by
      rw [hI.lessThanOrEqual hn (eval_lastRow hI ho hl s)]
      simp only [Nat.cast_le]
    change I.holds (I.eval (.binary .and (.binary .greaterThan rowNumber offset)
      (.binary .lessThanOrEqual rowNumber (lastRow offset limit))) s) = _
    rw [hI.and, hgt, hle, Option.all_some, hl.bound_eq hI.toCounting]

end Expr

/-! ## Numbers of rows -/

theorem compareKeys_numberingKeys (hI : I.Counting) (keys : List OrderKey) (a b : Scope V) :
    I.compareKeys (numberingKeys keys) a b = I.compareKeys keys a b := by
  have := hI.compare
  unfold numberingKeys
  simp only
  split
  · rename_i hempty
    obtain rfl : keys = [] := by simpa using hempty
    -- The key that stands in for none is the same for all rows.
    have hone : ∀ s : Scope V, I.eval (.int 1) s = I.number 1 := fun s => hI.integer 1 .int32 s
    change (I.compare (I.eval (.int 1) a) (I.eval (.int 1) b)).then .eq = .eq
    rw [hone, hone, (Std.ReflCmp.compare_self : I.compare (I.number 1) (I.number 1) = _)]
    rfl
  · refine Query.SameKeys.compareKeys_eq hI.toLawful ?_ a b
    exact List.forall₂_map_right_iff.2 (List.forall₂_same.2 fun k _ => ⟨rfl, Expr.sameValue_unnamed k.expr⟩)

namespace Query

variable [DecidableEq V]

/-- In the order of the sort keys, the rows whose number is within the bounds are those of the page. -/
theorem filter_position_sortBy (hI : I.Numbering) {q : Query} {offset : Expr} {o : Nat}
    (hoffset : q.offset = some offset) (ho : I.Counts offset o) (hl : ∀ e, q.limit = some e → ∃ l, I.Counts e l) :
    (sortBy (I.compareKeys q.orderBy) (q.scopes I outer)).filter (fun s =>
      decide (o < I.position (numberingKeys q.orderBy) s) && q.limit.all fun e =>
        decide (I.position (numberingKeys q.orderBy) s ≤ o + I.bound outer e)) =
      q.page I outer (sortBy (I.compareKeys q.orderBy) (q.scopes I outer)) := by
  have hsort : sortBy (I.compareKeys (numberingKeys q.orderBy)) (q.scopes I outer) =
      sortBy (I.compareKeys q.orderBy) (q.scopes I outer) :=
    sortBy_congr fun a _ b _ => compareKeys_numberingKeys hI.toCounting q.orderBy a b
  have hpos : (sortBy (I.compareKeys q.orderBy) (q.scopes I outer)).map (I.position (numberingKeys q.orderBy)) =
      List.range' 1 (sortBy (I.compareKeys q.orderBy) (q.scopes I outer)).length := by
    rw [← hsort]; exact map_position _
  rcases hlimit : q.limit with _ | limit
  · simp only [page, hoffset, hlimit, Option.elim_some, Option.elim_none, Option.all_none, Bool.and_true,
      ho.bound_eq hI.toCounting, ← filter_lt_position o hpos, Nat.zero_add]
  · obtain ⟨l, hl⟩ := hl limit hlimit
    simp only [page, hoffset, hlimit, Option.elim_some, Option.all_some, ho.bound_eq hI.toCounting,
      hl.bound_eq hI.toCounting, ← filter_position hpos o l]

end Query
end QueryTree
