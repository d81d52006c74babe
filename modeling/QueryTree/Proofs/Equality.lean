/-
What equal queries and structurally equal expressions have in common: their children are equal one by
one, and the same slots number rows.
-/
import QueryTree.Proofs.Equality.Erased

namespace QueryTree

/-- Queries that are equal one by one. -/
def QueriesEqual (cs ds : List Query) : Prop := List.Forall₂ (fun c d => c.beq d = true) cs ds

namespace QueriesEqual

theorem nil : QueriesEqual [] [] := List.Forall₂.nil

theorem singleton {q r : Query} (h : q.beq r = true) : QueriesEqual [q] [r] := List.Forall₂.cons h .nil

theorem append {as bs cs ds : List Query} (h : QueriesEqual as bs) (h' : QueriesEqual cs ds) :
    QueriesEqual (as ++ cs) (bs ++ ds) := List.rel_append h h'

end QueriesEqual

/-! ## Equal trees -/

theorem Expr.children_of_beq {a b : Expr} (h : a.beq b = true) : QueriesEqual a.children b.children :=
  Expr.Same.children a b ((Expr.beq_iff a b).1 h)

theorem exprsChildren_of_beq {as bs : List Expr} (h : List.Forall₂ (fun a b => a.beq b = true) as bs) :
    QueriesEqual (as.flatMap Expr.children) (bs.flatMap Expr.children) :=
  List.rel_flatMap h fun _ _ hab => Expr.children_of_beq hab

theorem Table.children_of_beq : ∀ {t u : Table}, t.beq u = true → QueriesEqual t.children u.children
  | .base .., u, h => by
    cases u with
    | base => exact .nil
    | _ => simp [Table.beq] at h
  | .join _ t a, u, h => by
    cases u with
    | join _ u b =>
      simp only [Table.beq, Bool.and_eq_true, optionBeq_iff] at h
      exact (Table.children_of_beq h.1.2).append (exprsChildren_of_beq h.2)
    | _ => simp [Table.beq] at h
  | .nested q, u, h => by
    cases u with
    | nested r =>
      rw [Table.beq] at h
      exact .singleton h
    | _ => simp [Table.beq] at h

theorem Query.children_of_beq {q r : Query} (h : q.beq r = true) : QueriesEqual q.children r.children := by
  rcases q with ⟨tables, projection, predicate, orderBy, limit, offset, _, _, _, _, ⟨_, _⟩, _⟩
  simp only [Query.beq, Bool.and_eq_true, tablesBeq_iff, exprsBeq_iff, optionBeq_iff, keysBeq_iff] at h
  obtain ⟨⟨⟨⟨⟨⟨⟨⟨⟨⟨⟨⟨htables, hprojection⟩, hpredicate⟩, -, hkeys⟩, hlimit⟩, hoffset⟩, -⟩, -⟩, -⟩, -⟩, -⟩, -⟩, -⟩ := h
  have hbelow : QueriesEqual (tables.flatMap Table.children) (r.tables.flatMap Table.children) :=
    List.rel_flatMap htables fun _ _ htu => Table.children_of_beq htu
  refine hbelow.append (exprsChildren_of_beq ?_)
  have houter := List.rel_append (List.rel_append hprojection hpredicate) hkeys
  exact List.rel_append (List.rel_append houter hlimit) hoffset

/-! ## Structurally equal expressions -/

theorem Expr.children_of_equiv {a b : Expr} (h : a.equiv b = true) : QueriesEqual a.children b.children := by
  rw [← Expr.children_erased a, ← Expr.children_erased b]
  exact Expr.Same.children _ _ ((Expr.equiv_iff a b).1 h)

/-- What equal queries share is shared by the queries in expressions of the same value. -/
theorem Expr.SameValue.below_iff {P : Query → Prop} (hP : ∀ c d : Query, c.beq d = true → (P c ↔ P d))
    {a b : Expr} (h : a.SameValue b) : a.Below P ↔ b.Below P := by
  induction h with
  | refl _ => exact Iff.rfl
  | symm _ ih => exact ih.symm
  | trans _ _ ih ih' => exact ih.trans ih'
  | named _ _ => exact Iff.rfl
  | casts e => rw [Expr.below_stripCasts]
  | equiv h => exact forall_iff_of_forall₂ (Expr.children_of_equiv h) fun c _ d => hP c d

/-! ## Row numbers -/

theorem Expr.numbersRows_of_beq : ∀ {a b : Expr}, a.beq b = true → a.numbersRows = b.numbersRows
  | .named _ a, b, h => by
    cases b with
    | named _ b =>
      rw [Expr.beq, Bool.and_eq_true] at h
      exact Expr.numbersRows_of_beq (a := a) (b := b) h.2
    | _ => simp [Expr.beq] at h
  | .column .., b, h | .star _, b, h | .output .., b, h | .constant .., b, h | .parameter .., b, h
  | .rowNumber _, b, h | .cast .., b, h | .binary .., b, h | .not _, b, h | .call .., b, h | .exist _, b, h => by
    cases b <;> first | rfl | simp [Expr.beq] at h

theorem any_numbersRows_of_beq : ∀ {as bs : List Expr}, exprsBeq as bs = true →
    as.any Expr.numbersRows = bs.any Expr.numbersRows
  | [], [], _ => rfl
  | a :: as, b :: bs, h => by
    rw [exprsBeq, Bool.and_eq_true] at h
    rw [List.any_cons, List.any_cons, Expr.numbersRows_of_beq h.1, any_numbersRows_of_beq h.2]
  | [], _ :: _, h | _ :: _, [], h => by simp [exprsBeq] at h

theorem Query.needsNumbering_of_beq {q r : Query} (h : q.beq r = true) : q.needsNumbering = r.needsNumbering := by
  rcases q with ⟨_, _, _, _, _, offset, _, _, _, _, ⟨_, _⟩, _⟩
  simp only [Query.beq, Bool.and_eq_true] at h
  obtain ⟨⟨⟨⟨⟨⟨⟨⟨⟨⟨⟨⟨-, hprojection⟩, -⟩, -⟩, -⟩, hoffset⟩, -⟩, -⟩, -⟩, -⟩, -⟩, -⟩, -⟩ := h
  have hpaged : offset.isSome = r.offset.isSome := by
    cases offset <;> cases ho : r.offset <;> simp_all [optionBeq]
  rw [Query.needsNumbering, Query.needsNumbering, ← any_numbersRows_of_beq hprojection, ← hpaged]

end QueryTree
