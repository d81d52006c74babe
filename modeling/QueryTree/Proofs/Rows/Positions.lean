/-
Row numbers. The rows of a FROM list, sorted by the keys that they are numbered by, have the numbers
one, two, three and so on, so bounds on the number cut out what OFFSET and LIMIT would.
-/
import QueryTree.Proofs.Rows.Nested

namespace QueryTree

/-! ## Numbered lists -/

section Numbered

variable {α : Type} {pos : α → Nat}

theorem filter_lt_position : ∀ {l : List α} {n : Nat} (o : Nat), l.map pos = List.range' (n + 1) l.length →
    (l.filter fun a => n + o < pos a) = l.drop o
  | [], n, o, _ => by simp
  | a :: l, n, 0, h => by
    rw [List.drop_zero, List.filter_eq_self]
    intro b hb
    have hmem : pos b ∈ List.range' (n + 1) (a :: l).length := h ▸ List.mem_map_of_mem hb
    rw [List.mem_range'_1] at hmem
    simpa using hmem.1
  | a :: l, n, o + 1, h => by
    rw [List.map_cons, List.length_cons, List.range'_succ, List.cons.injEq] at h
    rw [List.filter_cons_of_neg (by simp [h.1]), List.drop_succ_cons, ← filter_lt_position o h.2]
    exact List.filter_congr fun b _ => by rw [Nat.add_assoc, Nat.add_comm 1]

theorem filter_position_le : ∀ {l : List α} {n : Nat} (m : Nat), l.map pos = List.range' (n + 1) l.length →
    (l.filter fun a => pos a ≤ n + m) = l.take m
  | [], n, m, _ => by simp
  | a :: l, n, 0, h => by
    rw [List.take_zero, List.filter_eq_nil_iff]
    intro b hb
    have hmem : pos b ∈ List.range' (n + 1) (a :: l).length := h ▸ List.mem_map_of_mem hb
    rw [List.mem_range'_1] at hmem
    simpa using hmem.1
  | a :: l, n, m + 1, h => by
    rw [List.map_cons, List.length_cons, List.range'_succ, List.cons.injEq] at h
    rw [List.filter_cons_of_pos (by simp [h.1]), List.take_succ_cons, ← filter_position_le m h.2]
    exact congrArg _ (List.filter_congr fun b _ => by rw [Nat.add_assoc, Nat.add_comm 1])

/-- Where elements are numbered from one, bounds on the number cut out a part of the list. -/
theorem filter_position {l : List α} (h : l.map pos = List.range' 1 l.length) (o m : Nat) :
    (l.filter fun a => o < pos a && pos a ≤ o + m) = (l.drop o).take m := by
  have hdrop : (l.drop o).map pos = List.range' (o + 1) (l.drop o).length := by
    rw [List.map_drop, h, List.drop_range', List.length_drop, Nat.mul_one, Nat.add_comm]
  calc (l.filter fun a => o < pos a && pos a ≤ o + m)
      = (l.filter fun a => 0 + o < pos a).filter fun a => pos a ≤ o + m := by
        rw [List.filter_filter]
        exact List.filter_congr fun a _ => by rw [Nat.zero_add, Bool.and_comm]
    _ = (l.drop o).filter fun a => pos a ≤ o + m := by rw [filter_lt_position o h]
    _ = (l.drop o).take m := filter_position_le m hdrop

end Numbered

/-! ## Positions -/

section Positions

variable {V : Type} {I : Interpretation V} {outer rows : List (List (Part V))}

theorem map_place_scopesOf : (scopesOf outer rows).map Scope.place = List.range rows.length := by
  rw [scopesOf, List.map_map, List.range_eq_range', ← List.zipIdx_map_snd 0 rows]
  rfl

/-- In the order of the keys, rows are numbered one after the other. -/
theorem map_position (keys : List OrderKey) :
    (sortBy (I.compareKeys keys) (scopesOf outer rows)).map (I.position keys) =
      List.range' 1 (sortBy (I.compareKeys keys) (scopesOf outer rows)).length := by
  have hperm := sortBy_perm (I.compareKeys keys) (scopesOf outer rows)
  have hnodup : ((sortBy (I.compareKeys keys) (scopesOf outer rows)).map Scope.place).Nodup :=
    (hperm.map Scope.place).nodup_iff.2 (map_place_scopesOf ▸ List.nodup_range)
  refine List.ext_getElem (by simp) fun i hi _ => ?_
  rw [List.length_map] at hi
  obtain ⟨-, houter, hpeers⟩ := mem_scopesOf (hperm.mem_iff.1 (List.getElem_mem hi))
  rw [List.getElem_map, List.getElem_range', Interpretation.position, houter, hpeers, Nat.one_mul, Nat.add_comm]
  congr 1
  -- Places tell rows apart, so no row ahead of this one has its place.
  rw [List.findIdx_eq hi]
  refine ⟨beq_self_eq_true _, fun j hj => ?_⟩
  rw [beq_eq_false_iff_ne]
  intro heq
  have hplaces : ∀ k (hk : k < (sortBy (I.compareKeys keys) (scopesOf outer rows)).length),
      ((sortBy (I.compareKeys keys) (scopesOf outer rows)).map Scope.place)[k]? = some
        (sortBy (I.compareKeys keys) (scopesOf outer rows))[k].place := fun k hk => by
    rw [List.getElem?_map, List.getElem?_eq_getElem hk, Option.map_some]
  have hji := (List.getElem?_inj (by simpa using hj.trans hi) hnodup).1
    ((hplaces j (hj.trans hi)).trans (heq ▸ (hplaces i hi).symm))
  exact hj.ne hji

end Positions

end QueryTree
