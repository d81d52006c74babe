/-
Stable sorting by several keys. A comparison by keys is a total preorder whenever the comparison of
values is one; a stable sort is determined by its groups of equal elements, hence sorting commutes
with filtering and with the removal of duplicates.
-/
import QueryTree.Tree
import Mathlib.Tactic

namespace QueryTree

/-! ## Comparison by several keys -/

section Keys

variable {α β V : Type}

/-- Compares by the first key whose values differ, each key in its own direction. -/
def compareBy (cmp : V → V → Ordering) : List ((α → V) × Direction) → α → α → Ordering
  | [], _, _ => .eq
  | (value, .asc) :: keys, a, b => (cmp (value a) (value b)).then (compareBy cmp keys a b)
  | (value, .desc) :: keys, a, b => (cmp (value b) (value a)).then (compareBy cmp keys a b)

/-- Two lists of keys that have the same directions and, where each is asked, the same values. -/
theorem compareBy_congr {cmp : V → V → Ordering} {f : α → β} {a b : α} :
    ∀ {ks : List ((α → V) × Direction)} {ls : List ((β → V) × Direction)},
      List.Forall₂ (fun k l => k.2 = l.2 ∧ k.1 a = l.1 (f a) ∧ k.1 b = l.1 (f b)) ks ls →
      compareBy cmp ks a b = compareBy cmp ls (f a) (f b)
  | [], [], .nil => rfl
  | (v, d) :: ks, (w, e) :: ls, .cons ⟨hd, ha, hb⟩ h => by
    subst hd
    simp only at ha hb
    cases d <;> simp only [compareBy, ha, hb, compareBy_congr h]

theorem transCmp_value (cmp : V → V → Ordering) [Std.TransCmp cmp] (value : α → V) :
    Std.TransCmp fun a b => cmp (value a) (value b) where
  eq_swap {a b} := (Std.OrientedCmp.eq_swap : cmp (value a) (value b) = _)
  isLE_trans {_ _ _} := Std.TransCmp.isLE_trans

instance transCmp_compareBy (cmp : V → V → Ordering) [Std.TransCmp cmp] :
    ∀ keys : List ((α → V) × Direction), Std.TransCmp (compareBy cmp keys)
  | [] => { eq_swap := rfl, isLE_trans := fun _ _ => rfl }
  | (value, .asc) :: keys => by
    have := transCmp_value cmp value
    have := transCmp_compareBy cmp keys
    exact inferInstanceAs (Std.TransCmp (compareLex (fun a b => cmp (value a) (value b)) (compareBy cmp keys)))
  | (value, .desc) :: keys => by
    have := transCmp_value (fun a b => cmp b a) value
    have := transCmp_compareBy cmp keys
    exact inferInstanceAs (Std.TransCmp (compareLex (fun a b => cmp (value b) (value a)) (compareBy cmp keys)))

end Keys

/-! ## Stable sorting -/

section Sorting

variable {α β : Type}

/-- Sorts by a comparison; what compares equal stays in its order. -/
def sortBy (cmp : α → α → Ordering) (l : List α) : List α := l.mergeSort fun a b => (cmp a b).isLE

/-- Elements that compare equal to `a`. -/
def tiesWith (cmp : α → α → Ordering) (a b : α) : Bool := cmp a b == .eq

theorem sortBy_perm (cmp : α → α → Ordering) (l : List α) : (sortBy cmp l).Perm l :=
  List.mergeSort_perm l _

theorem map_sortBy {cmp : α → α → Ordering} {cmp' : β → β → Ordering} {f : α → β} {l : List α}
    (h : ∀ a ∈ l, ∀ b ∈ l, cmp a b = cmp' (f a) (f b)) : (sortBy cmp l).map f = sortBy cmp' (l.map f) :=
  List.map_mergeSort fun a ha b hb => by rw [h a ha b hb]

theorem sortBy_congr {cmp cmp' : α → α → Ordering} {l : List α} (h : ∀ a ∈ l, ∀ b ∈ l, cmp a b = cmp' a b) :
    sortBy cmp l = sortBy cmp' l := by
  simpa using map_sortBy (f := id) h

theorem sortBy_of_pairwise {cmp : α → α → Ordering} {l : List α}
    (h : l.Pairwise fun a b => (cmp a b).isLE = true) : sortBy cmp l = l :=
  List.mergeSort_of_pairwise h

variable (cmp : α → α → Ordering) [Std.TransCmp cmp]

theorem isLE_total (a b : α) : ((cmp a b).isLE || (cmp b a).isLE) = true := by
  rw [(Std.OrientedCmp.eq_swap : cmp b a = _)]
  cases cmp a b <;> rfl

theorem sortBy_pairwise (l : List α) : (sortBy cmp l).Pairwise fun a b => (cmp a b).isLE = true :=
  List.pairwise_mergeSort (fun _ _ _ => Std.TransCmp.isLE_trans) (isLE_total cmp) l

theorem tiesWith_self (a : α) : tiesWith cmp a a = true := by
  rw [tiesWith, (Std.ReflCmp.compare_self : cmp a a = _)]; rfl

/-- Stability: of the elements that compare equal, none changes places. -/
theorem filter_tiesWith_sortBy (a : α) : ∀ l : List α,
    (sortBy cmp l).filter (tiesWith cmp a) = l.filter (tiesWith cmp a)
  | [] => by simp [sortBy]
  | b :: l => by
    obtain ⟨l₁, l₂, hcons, hl, hlt⟩ := List.mergeSort_cons (fun _ _ _ => Std.TransCmp.isLE_trans)
      (isLE_total cmp) b l
    have ih := filter_tiesWith_sortBy a l
    rw [sortBy, hl, List.filter_append] at ih
    rw [sortBy, hcons, List.filter_append]
    by_cases hb : tiesWith cmp a b = true
    · -- What stands ahead of `b` is less than `b`, so none of it ties with `a`.
      have h₁ : l₁.filter (tiesWith cmp a) = [] := by
        rw [List.filter_eq_nil_iff]
        intro c hc hac
        have hcb : (cmp b c).isLE = true := by
          rw [tiesWith, beq_iff_eq] at hb hac
          rw [Std.TransCmp.congr_left (Std.OrientedCmp.eq_symm hb), hac]; rfl
        have := hlt c hc
        simp [hcb] at this
      rw [h₁, List.nil_append] at ih ⊢
      rw [List.filter_cons_of_pos hb, List.filter_cons_of_pos hb, ih]
    · rw [List.filter_cons_of_neg hb, List.filter_cons_of_neg hb, ih]

/-- A sorted list is determined by its groups of equal elements. -/
theorem eq_of_filter_tiesWith : ∀ {xs ys : List α},
    xs.Pairwise (fun a b => (cmp a b).isLE = true) → ys.Pairwise (fun a b => (cmp a b).isLE = true) →
    (∀ a, xs.filter (tiesWith cmp a) = ys.filter (tiesWith cmp a)) → xs = ys
  | [], [], _, _, _ => rfl
  | [], y :: ys, _, _, h => by
    have := h y
    rw [List.filter_cons_of_pos (tiesWith_self cmp _)] at this
    cases this
  | x :: xs, [], _, _, h => by
    have := h x
    rw [List.filter_cons_of_pos (tiesWith_self cmp _)] at this
    cases this
  | x :: xs, y :: ys, hx, hy, h => by
    -- Each head is somewhere in the other list, so the two tie, and their group begins with both.
    have hyx : y ∈ x :: xs := by
      have := List.mem_filter.2 ⟨List.mem_cons_self (a := y) (l := ys), tiesWith_self cmp y⟩
      rw [← h y] at this
      exact (List.mem_filter.1 this).1
    have hxy : x ∈ y :: ys := by
      have := List.mem_filter.2 ⟨List.mem_cons_self (a := x) (l := xs), tiesWith_self cmp x⟩
      rw [h x] at this
      exact (List.mem_filter.1 this).1
    have hle : (cmp x y).isLE = true := by
      rcases List.mem_cons.1 hyx with rfl | hm
      · rw [(Std.ReflCmp.compare_self : cmp y y = _)]; rfl
      · exact (List.pairwise_cons.1 hx).1 y hm
    have hge : (cmp y x).isLE = true := by
      rcases List.mem_cons.1 hxy with rfl | hm
      · rw [(Std.ReflCmp.compare_self : cmp x x = _)]; rfl
      · exact (List.pairwise_cons.1 hy).1 x hm
    have htie : tiesWith cmp x y = true := by
      rw [tiesWith, Std.OrientedCmp.isLE_antisymm hle hge]; rfl
    have hhead := h x
    rw [List.filter_cons_of_pos (tiesWith_self cmp x), List.filter_cons_of_pos htie] at hhead
    obtain rfl : x = y := (List.cons.inj hhead).1
    refine congrArg (x :: ·) (eq_of_filter_tiesWith (List.pairwise_cons.1 hx).2 (List.pairwise_cons.1 hy).2
      fun a => ?_)
    have := h a
    by_cases ha : tiesWith cmp a x = true
    · rw [List.filter_cons_of_pos ha, List.filter_cons_of_pos ha] at this
      exact (List.cons.inj this).2
    · rwa [List.filter_cons_of_neg ha, List.filter_cons_of_neg ha] at this

theorem filter_sortBy (p : α → Bool) (l : List α) : (sortBy cmp l).filter p = sortBy cmp (l.filter p) := by
  refine eq_of_filter_tiesWith cmp ((sortBy_pairwise cmp l).filter p) (sortBy_pairwise cmp _) fun a => ?_
  rw [List.filter_comm, filter_tiesWith_sortBy, filter_tiesWith_sortBy, List.filter_comm]

theorem eraseDups_sublist [BEq α] : ∀ l : List α, l.eraseDups.Sublist l
  | [] => .slnil
  | a :: l => by
    rw [List.eraseDups_cons]
    exact .cons_cons a ((eraseDups_sublist _).trans List.filter_sublist)
  termination_by l => l.length
  decreasing_by exact Nat.lt_succ_of_le (List.length_filter_le _ _)

theorem eraseDups_filter [BEq α] [LawfulBEq α] (p : α → Bool) : ∀ l : List α,
    (l.filter p).eraseDups = l.eraseDups.filter p
  | [] => rfl
  | a :: l => by
    have ih := eraseDups_filter p (l.filter fun b => !b == a)
    by_cases ha : p a = true
    · rw [List.filter_cons_of_pos ha, List.eraseDups_cons, List.eraseDups_cons, List.filter_cons_of_pos ha,
        ← ih, List.filter_comm]
    · -- No element that passes equals `a`, so those equal to `a` go unseen.
      have hl : (l.filter fun b => !b == a).filter p = l.filter p := by
        rw [List.filter_filter]
        refine List.filter_congr fun b _ => ?_
        rcases hb : b == a with _ | _
        · simp
        · rw [eq_of_beq hb]; simp [ha]
      rw [List.filter_cons_of_neg ha, List.eraseDups_cons, List.filter_cons_of_neg ha, ← ih, hl]
  termination_by l => l.length
  decreasing_by exact Nat.lt_succ_of_le (List.length_filter_le _ _)

/-- Removing duplicates and sorting can be done in either order. -/
theorem eraseDups_sortBy [BEq α] [LawfulBEq α] (l : List α) :
    (sortBy cmp l).eraseDups = sortBy cmp l.eraseDups := by
  refine eq_of_filter_tiesWith cmp ((sortBy_pairwise cmp l).sublist (eraseDups_sublist _)) (sortBy_pairwise cmp _)
    fun a => ?_
  rw [filter_tiesWith_sortBy, ← eraseDups_filter, ← eraseDups_filter, filter_tiesWith_sortBy]

theorem nodup_eraseDups [BEq α] [LawfulBEq α] : ∀ l : List α, l.eraseDups.Nodup
  | [] => List.nodup_nil
  | a :: l => by
    rw [List.eraseDups_cons, List.nodup_cons]
    exact ⟨by simp, nodup_eraseDups _⟩
  termination_by l => l.length
  decreasing_by exact Nat.lt_succ_of_le (List.length_filter_le _ _)

theorem eraseDups_of_nodup [BEq α] [LawfulBEq α] : ∀ {l : List α}, l.Nodup → l.eraseDups = l
  | [], _ => rfl
  | a :: l, h => by
    obtain ⟨ha, hl⟩ := List.nodup_cons.1 h
    have hne : (l.filter fun b => !b == a) = l := by
      rw [List.filter_eq_self]
      rintro b hb
      simp only [Bool.not_eq_true', beq_eq_false_iff_ne]
      rintro rfl; exact ha hb
    rw [List.eraseDups_cons, hne, eraseDups_of_nodup hl]

end Sorting

end QueryTree
