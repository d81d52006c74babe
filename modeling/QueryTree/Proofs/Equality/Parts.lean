/-
Queries part by part. The parts of a query are all queries right below it, those in members and in the memo
included; equality compares two queries table by table and clause by clause, and member by member under the
names of the members. What equality has of a query follows by induction on parts.
-/
import QueryTree.Proofs.Equality.Same
import QueryTree.Proofs.Everywhere

namespace QueryTree

/-! ## Induction on parts -/

namespace Query

/-- The expressions of a query, clause by clause. The memo comes last. -/
def clauses (q : Query) : List (List Expr) :=
  [q.projection, q.predicate.toList, q.orderBy.map (·.expr), q.limit.toList, q.offset.toList, q.memo.entries]

theorem forall_parts_iff {q : Query} {P : Query → Prop} : (∀ c ∈ q.parts, P c) ↔ (∀ t ∈ q.tables, t.Below P) ∧
    (∀ es ∈ q.clauses, ∀ e ∈ es, e.Below P) ∧ ∀ m ∈ q.members, m.2.Below P := by
  simp only [parts, children, exprs, clauses, Table.Below, Expr.Below, List.forall_mem_append, List.forall_mem_flatMap,
    List.forall_mem_cons, List.not_mem_nil, false_imp_iff, implies_true, and_true]
  exact iff_of_eq (by ac_rfl)

end Query

theorem Expr.sizeOf_child {e : Expr} {c : Query} (h : c ∈ e.children) : sizeOf c < sizeOf e := by
  induction e using Expr.induct with
  | h e ih =>
    rcases mem_children_iff.1 h with rfl | ⟨x, hx, hc⟩
    · simp
    · exact (ih x hx hc).trans (sizeOf_operand hx)

theorem Table.sizeOf_child {c : Query} : ∀ {t : Table}, c ∈ t.children → sizeOf c < sizeOf t
  | .base .., h => by cases h
  | .join _ target condition, h => by
    simp only [children, List.mem_append, List.mem_flatMap, Option.mem_toList] at h
    simp only [join.sizeOf_spec]
    rcases h with h | ⟨e, rfl, hc⟩
    · have := sizeOf_child h
      omega
    · have := Expr.sizeOf_child hc
      simp only [Option.some.sizeOf_spec]
      omega
  | .nested q, h => by
    rw [List.mem_singleton.1 h]
    simp

namespace Query

theorem sizeOf_clause {q : Query} {es : List Expr} (h : es ∈ q.clauses) {e : Expr} (he : e ∈ es) :
    sizeOf e < sizeOf q := by
  rcases q with ⟨tables, projection, predicate, orderBy, limit, offset, _, _, _, _, ⟨entries, _⟩, members⟩
  have hoption {o : Option Expr} (h : e ∈ o.toList) : sizeOf e < sizeOf o := by
    rw [Option.mem_toList.1 h]
    simp
  simp only [clauses, List.mem_cons, List.not_mem_nil, or_false] at h
  simp only [mk.sizeOf_spec, StarMemo.mk.sizeOf_spec]
  rcases h with rfl | rfl | rfl | rfl | rfl | rfl
  · have := List.sizeOf_lt_of_mem he
    omega
  · have := hoption he
    omega
  · obtain ⟨k, hk, rfl⟩ := List.mem_map.1 he
    have := List.sizeOf_lt_of_mem hk
    have : sizeOf k.expr < sizeOf k := by cases k; simp; omega
    omega
  · have := hoption he
    omega
  · have := hoption he
    omega
  · have := List.sizeOf_lt_of_mem he
    omega

theorem sizeOf_part {q : Query} : ∀ c ∈ q.parts, sizeOf c < sizeOf q := by
  refine forall_parts_iff.2 ⟨fun t ht c hc => ?_, fun es hes e he c hc => ?_, fun m hm c hc => ?_⟩
  · have := Table.sizeOf_child hc
    have := List.sizeOf_lt_of_mem ht
    have : sizeOf q.tables < sizeOf q := by cases q; simp; omega
    omega
  · exact (Expr.sizeOf_child hc).trans (sizeOf_clause hes he)
  · have := Expr.sizeOf_child hc
    have := List.sizeOf_lt_of_mem hm
    have : sizeOf m.2 < sizeOf m := by cases m; simp
    have : sizeOf q.members < sizeOf q := by cases q; simp
    omega

/-- What holds of a query if it holds of its parts holds of all queries. -/
theorem induct_parts {P : Query → Prop} (h : ∀ q : Query, (∀ c ∈ q.parts, P c) → P q) (q : Query) : P q :=
  h q fun c _ => induct_parts h c
termination_by sizeOf q
decreasing_by exact sizeOf_part c ‹_›

end Query

/-! ## Members -/

/-- Each member on the left has an equal expression on the right. -/
def MembersEqual (ms ns : List (String × Expr)) : Prop :=
  ∀ m ∈ ms, ∃ e, ns.lookup m.1 = some e ∧ m.2.beq e = true

theorem membersBeq_iff : ∀ {ms ns : List (String × Expr)}, membersBeq ms ns = true ↔ MembersEqual ms ns
  | [], _ => by simp [membersBeq, MembersEqual]
  | (member, e) :: ms, ns => by
    rw [membersBeq, Bool.and_eq_true, membersBeq_iff, MembersEqual, MembersEqual, List.forall_mem_cons]
    refine and_congr_left fun _ => ?_
    cases ns.lookup member <;> simp

/-! ## Equality clause by clause -/

namespace Query

/-- Equality of two queries, part by part. -/
@[mk_iff]
structure PartsEqual (q r : Query) : Prop where
  tables : List.Forall₂ (fun t u => t.beq u = true) q.tables r.tables
  clauses : List.Forall₂ (List.Forall₂ fun a b => a.beq b = true) q.clauses r.clauses
  directions : q.orderBy.map (·.direction) = r.orderBy.map (·.direction)
  flags : (q.distinct, q.name, q.starred, q.wildcardChoice) = (r.distinct, r.name, r.starred, r.wildcardChoice)
  length : q.members.length = r.members.length
  members : MembersEqual q.members r.members

theorem beq_iff {q r : Query} : q.beq r = true ↔ q.PartsEqual r := by
  have hclauses : List.Forall₂ (List.Forall₂ fun a b => a.beq b = true) q.clauses r.clauses ↔
      exprsBeq q.projection r.projection = true ∧ optionBeq q.predicate r.predicate = true ∧
        List.Forall₂ (fun a b => a.beq b = true) (q.orderBy.map (·.expr)) (r.orderBy.map (·.expr)) ∧
        optionBeq q.limit r.limit = true ∧ optionBeq q.offset r.offset = true ∧
        exprsBeq q.memo.entries r.memo.entries = true := by
    simp only [clauses, List.forall₂_cons, List.Forall₂.nil, and_true, exprsBeq_iff, optionBeq_iff]
  rw [partsEqual_iff, hclauses]
  rcases q with ⟨_, _, _, _, _, _, _, _, _, _, ⟨_, _⟩, _⟩
  simp only [beq, Bool.and_eq_true, beq_iff_eq, tablesBeq_iff, keysBeq_iff, membersBeq_iff,
    Prod.mk.injEq]
  tauto

end Query

end QueryTree
