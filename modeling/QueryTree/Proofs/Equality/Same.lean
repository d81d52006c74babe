/-
Sameness of expressions. Two expressions are the same if they agree in their heads and operand by operand,
where constant values are compared by one relation and queries under EXISTS by another. Equality part by
part, structural equality and equal digests are all of this kind, so what they have in common follows from
what the two relations have in common.
-/
import QueryTree.Proofs.Children

namespace QueryTree

/-! ## Induction on operands and on parts -/

namespace Expr

theorem sizeOf_operand {e x : Expr} (h : x ∈ e.operands) : sizeOf x < sizeOf e := by
  cases e with
  | rowNumber keys =>
    obtain ⟨k, hk, rfl⟩ := List.mem_map.1 h
    have hlt := List.sizeOf_lt_of_mem hk
    have hkey : sizeOf k.expr < sizeOf k := by cases k; simp; omega
    simp only [rowNumber.sizeOf_spec]
    omega
  | call function args type =>
    have hlt := List.sizeOf_lt_of_mem (show x ∈ args from h)
    simp only [call.sizeOf_spec]
    omega
  | named | cast | binary | not => simp [operands] at h; grind
  | column | star | output | constant | parameter | exist => cases h

/-- What holds of an expression if it holds of its operands holds of all expressions. -/
theorem induct {P : Expr → Prop} (h : ∀ e : Expr, (∀ x ∈ e.operands, P x) → P e) (e : Expr) : P e :=
  h e fun x _ => induct h x
termination_by sizeOf e
decreasing_by exact sizeOf_operand ‹_›

theorem mem_children_iff {e : Expr} {c : Query} : c ∈ e.children ↔ e = .exist c ∨ ∃ x ∈ e.operands, c ∈ x.children := by
  cases e <;> simp [children, operands, eq_comm]

end Expr

/-! ## Relations that hold both ways, and that chain, from one place on -/

section Lists

variable {α : Type} {R S : α → α → Prop}

theorem forall₂_imp_of_mem {as bs : List α} (h : ∀ a ∈ as, ∀ b, R a b → S a b) (hR : List.Forall₂ R as bs) :
    List.Forall₂ S as bs :=
  ((List.forall₂_and_left _ _).2 ⟨h, hR⟩).imp fun _ b hab => hab.1 b hab.2

theorem forall₂_congr_of_mem {as bs : List α} (h : ∀ a ∈ as, ∀ b, R a b ↔ S a b) :
    List.Forall₂ R as bs ↔ List.Forall₂ S as bs := by
  constructor
  · exact forall₂_imp_of_mem fun a ha b => (h a ha b).1
  · exact forall₂_imp_of_mem fun a ha b => (h a ha b).2

/-- Whatever `a` is related to is related to `a`. -/
def SymmAt (R : α → α → Prop) (a : α) : Prop := ∀ b, R a b → R b a

/-- What is related to something that `a` is related to, `a` is related to. -/
def TransAt (R : α → α → Prop) (a : α) : Prop := ∀ b c, R a b → R b c → R a c

theorem SymmAt.forall₂ : ∀ {as : List α}, (∀ a ∈ as, SymmAt R a) → SymmAt (List.Forall₂ R) as
  | [], _, _, .nil => .nil
  | _ :: _, h, _, .cons hb hbs =>
    .cons ((List.forall_mem_cons.1 h).1 _ hb) (SymmAt.forall₂ (List.forall_mem_cons.1 h).2 _ hbs)

theorem TransAt.forall₂ : ∀ {as : List α}, (∀ a ∈ as, TransAt R a) → TransAt (List.Forall₂ R) as
  | [], _, _, _, .nil, .nil => .nil
  | _ :: _, h, _, _, .cons hb hbs, .cons hc hcs =>
    .cons ((List.forall_mem_cons.1 h).1 _ _ hb hc) (TransAt.forall₂ (List.forall_mem_cons.1 h).2 _ _ hbs hcs)

end Lists

/-! ## Sameness -/

/-- The same constructor with the same fields, operands apart. Values of constants are compared by `L`,
queries under EXISTS by `R`. -/
def Expr.SameHead (L : Literal → Literal → Prop) (R : Query → Query → Prop) : Expr → Expr → Prop
  | .column t s n ty, .column t' s' n' ty' => t = t' ∧ s = s' ∧ n = n' ∧ ty = ty'
  | .named n _, .named n' _ => n = n'
  | .star t, .star t' => t = t'
  | .output q n ty, .output q' n' ty' => q = q' ∧ n = n' ∧ ty = ty'
  | .constant v ty, .constant v' ty' => L v v' ∧ ty = ty'
  | .parameter n ty, .parameter n' ty' => n = n' ∧ ty = ty'
  | .rowNumber ks, .rowNumber ks' => ks.map (·.direction) = ks'.map (·.direction)
  | .cast _ ty, .cast _ ty' => ty = ty'
  | .binary op _ _, .binary op' _ _ => op = op'
  | .not _, .not _ => True
  | .call f _ ty, .call f' _ ty' => f = f' ∧ ty = ty'
  | .exist q, .exist q' => R q q'
  | _, _ => False

/-- The same head and, one by one, the same operands. -/
inductive Expr.Same (L : Literal → Literal → Prop) (R : Query → Query → Prop) : Expr → Expr → Prop
  | intro {a b : Expr} : a.SameHead L R b → List.Forall₂ (Expr.Same L R) a.operands b.operands → Same L R a b

variable {L L' : Literal → Literal → Prop} {R R' : Query → Query → Prop}

namespace Expr

theorem keys_ext : ∀ {ks ls : List OrderKey}, ks.map (·.direction) = ls.map (·.direction) →
    ks.map (·.expr) = ls.map (·.expr) → ks = ls
  | [], [], _, _ => rfl
  | ⟨a, d⟩ :: ks, ⟨b, d'⟩ :: ls, hd, he => by
    simp only [List.map_cons, List.cons.injEq] at hd he
    rw [hd.1, he.1, keys_ext hd.2 he.2]
  | [], _ :: _, h, _ | _ :: _, [], h, _ => by cases h

theorem same_iff {a b : Expr} :
    a.Same L R b ↔ a.SameHead L R b ∧ List.Forall₂ (Same L R) a.operands b.operands := by
  constructor
  · rintro ⟨hhead, hoperands⟩
    exact ⟨hhead, hoperands⟩
  · rintro ⟨hhead, hoperands⟩
    exact .intro hhead hoperands

theorem SameHead.symmAt {a : Expr} (hL : ∀ v, SymmAt L v) (hR : ∀ q, a = .exist q → SymmAt R q) :
    SymmAt (SameHead L R) a := by
  intro b h
  cases a with
  | constant v =>
    cases b with
    | constant => exact ⟨hL v _ h.1, h.2.symm⟩
    | _ => cases h
  | exist q =>
    cases b with
    | exist => exact hR q rfl _ h
    | _ => cases h
  | _ => cases b <;> simp_all [SameHead]

theorem SameHead.transAt {a : Expr} (hL : ∀ v, TransAt L v) (hR : ∀ q, a = .exist q → TransAt R q) :
    TransAt (SameHead L R) a := by
  intro b c h h'
  cases a with
  | constant v =>
    cases b with
    | constant =>
      cases c with
      | constant => exact ⟨hL v _ _ h.1 h'.1, h.2.trans h'.2⟩
      | _ => cases h'
    | _ => cases h
  | exist q =>
    cases b with
    | exist =>
      cases c with
      | exist => exact hR q rfl _ _ h h'
      | _ => cases h'
    | _ => cases h
  | _ => cases b <;> first | cases h; done | cases c <;> simp_all [SameHead]

theorem SameHead.mono (hL : ∀ v w, L v w → L' v w) {a b : Expr} (hR : ∀ q, a = .exist q → ∀ r, R q r → R' q r)
    (h : a.SameHead L R b) : a.SameHead L' R' b := by
  cases a with
  | constant v =>
    cases b with
    | constant => exact ⟨hL _ _ h.1, h.2⟩
    | _ => cases h
  | exist q =>
    cases b with
    | exist => exact hR q rfl _ h
    | _ => cases h
  | _ => cases b <;> exact h

/-- Sameness up to equality is equality. -/
theorem same_eq_iff (a : Expr) : ∀ b : Expr, a.Same (· = ·) (· = ·) b ↔ a = b := by
  induction a using Expr.induct with
  | h a ih =>
    intro b
    rw [same_iff, forall₂_congr_of_mem ih, List.forall₂_eq_eq_eq]
    constructor
    · rintro ⟨hhead, hoperands⟩
      cases a with
      | rowNumber keys =>
        cases b with
        | rowNumber keys' => exact congrArg rowNumber (keys_ext hhead hoperands)
        | _ => cases hhead
      | _ => cases b <;> simp_all [SameHead, operands]
    · rintro rfl
      refine ⟨?_, rfl⟩
      cases a <;> simp [SameHead]

theorem Same.symmAt (hL : ∀ v, SymmAt L v) (a : Expr) (hR : ∀ c ∈ a.children, SymmAt R c) :
    SymmAt (Same L R) a := by
  induction a using Expr.induct with
  | h a ih =>
    intro b h
    obtain ⟨hhead, hoperands⟩ := same_iff.1 h
    refine .intro (SameHead.symmAt hL ?_ b hhead) (SymmAt.forall₂ ?_ _ hoperands)
    · intro q hq
      exact hR q (mem_children_iff.2 (.inl hq))
    · intro x hx
      exact ih x hx fun c hc => hR c (mem_children_iff.2 (.inr ⟨x, hx, hc⟩))

theorem Same.transAt (hL : ∀ v, TransAt L v) (a : Expr) (hR : ∀ c ∈ a.children, TransAt R c) :
    TransAt (Same L R) a := by
  induction a using Expr.induct with
  | h a ih =>
    intro b c h h'
    obtain ⟨hhead, hoperands⟩ := same_iff.1 h
    obtain ⟨hhead', hoperands'⟩ := same_iff.1 h'
    refine .intro (SameHead.transAt hL ?_ b c hhead hhead') (TransAt.forall₂ ?_ _ _ hoperands hoperands')
    · intro q hq
      exact hR q (mem_children_iff.2 (.inl hq))
    · intro x hx
      exact ih x hx fun d hd => hR d (mem_children_iff.2 (.inr ⟨x, hx, hd⟩))

theorem Same.mono (hL : ∀ v w, L v w → L' v w) (a : Expr) (hR : ∀ q ∈ a.children, ∀ r, R q r → R' q r) :
    ∀ b : Expr, a.Same L R b → a.Same L' R' b := by
  induction a using Expr.induct with
  | h a ih =>
    intro b h
    obtain ⟨hhead, hoperands⟩ := same_iff.1 h
    refine .intro (hhead.mono hL ?_) (forall₂_imp_of_mem ?_ hoperands)
    · intro q hq
      exact hR q (mem_children_iff.2 (.inl hq))
    · intro x hx
      exact ih x hx fun q hq => hR q (mem_children_iff.2 (.inr ⟨x, hx, hq⟩))

/-- Without EXISTS it does not matter how queries are compared. -/
theorem same_congr {a b : Expr} (h : a.children = []) : a.Same L R b ↔ a.Same L R' b := by
  have hnone (S : Query → Query → Prop) (q : Query) (hq : q ∈ a.children) (r : Query) : S q r := by
    rw [h] at hq
    cases hq
  constructor
  · exact Same.mono (fun _ _ h => h) a (fun q hq r _ => hnone R' q hq r) b
  · exact Same.mono (fun _ _ h => h) a (fun q hq r _ => hnone R q hq r) b

theorem children_eq (e : Expr) : (∃ q, e = .exist q) ∨ e.children = e.operands.flatMap children := by
  cases e <;> simp [children, operands, List.flatMap_map]

/-- The queries under EXISTS are related one by one. -/
theorem Same.children (a : Expr) : ∀ b : Expr, a.Same L R b → List.Forall₂ R a.children b.children := by
  induction a using Expr.induct with
  | h a ih =>
    intro b h
    obtain ⟨hhead, hoperands⟩ := same_iff.1 h
    have hbelow : List.Forall₂ R (a.operands.flatMap Expr.children) (b.operands.flatMap Expr.children) := by
      refine List.rel_flatMap (R := fun x y => List.Forall₂ R x.children y.children) ?_ fun _ _ hxy => hxy
      exact forall₂_imp_of_mem ih hoperands
    rcases children_eq a with ⟨q, rfl⟩ | ha
    · cases b with
      | exist r => exact .cons hhead .nil
      | _ => cases hhead
    · rcases children_eq b with ⟨r, rfl⟩ | hb
      · cases a with
        | exist q => exact .cons hhead .nil
        | _ => cases hhead
      · rw [ha, hb]
        exact hbelow

end Expr

/-! ## Lists that are compared one by one -/

theorem exprsBeq_iff : ∀ {as bs : List Expr},
    exprsBeq as bs = true ↔ List.Forall₂ (fun a b => a.beq b = true) as bs
  | [], [] => by simp [exprsBeq]
  | a :: as, b :: bs => by rw [exprsBeq, Bool.and_eq_true, List.forall₂_cons, exprsBeq_iff]
  | [], _ :: _ | _ :: _, [] => by simp [exprsBeq]

theorem exprsEquiv_iff : ∀ {as bs : List Expr},
    exprsEquiv as bs = true ↔ List.Forall₂ (fun a b => a.equiv b = true) as bs
  | [], [] => by simp [exprsEquiv]
  | a :: as, b :: bs => by rw [exprsEquiv, Bool.and_eq_true, List.forall₂_cons, exprsEquiv_iff]
  | [], _ :: _ | _ :: _, [] => by simp [exprsEquiv]

theorem keysBeq_iff : ∀ {ks ls : List OrderKey}, keysBeq ks ls = true ↔
    ks.map (·.direction) = ls.map (·.direction) ∧
      List.Forall₂ (fun a b => a.beq b = true) (ks.map (·.expr)) (ls.map (·.expr))
  | [], [] => by simp [keysBeq]
  | ⟨a, d⟩ :: ks, ⟨b, d'⟩ :: ls => by
    rw [keysBeq, OrderKey.beq]
    simp only [Bool.and_eq_true, beq_iff_eq, keysBeq_iff, List.map_cons, List.cons.injEq, List.forall₂_cons]
    tauto
  | [], _ :: _ | _ :: _, [] => by simp [keysBeq]

theorem keysEquiv_iff : ∀ {ks ls : List OrderKey}, keysEquiv ks ls = true ↔
    ks.map (·.direction) = ls.map (·.direction) ∧
      List.Forall₂ (fun a b => a.equiv b = true) (ks.map (·.expr)) (ls.map (·.expr))
  | [], [] => by simp [keysEquiv]
  | ⟨a, d⟩ :: ks, ⟨b, d'⟩ :: ls => by
    rw [keysEquiv]
    simp only [Bool.and_eq_true, beq_iff_eq, keysEquiv_iff, List.map_cons, List.cons.injEq, List.forall₂_cons]
    tauto
  | [], _ :: _ | _ :: _, [] => by simp [keysEquiv]

theorem optionBeq_iff {a b : Option Expr} :
    optionBeq a b = true ↔ List.Forall₂ (fun a b => a.beq b = true) a.toList b.toList := by
  cases a <;> cases b <;> simp [optionBeq]

theorem tablesBeq_iff : ∀ {ts us : List Table},
    tablesBeq ts us = true ↔ List.Forall₂ (fun t u => t.beq u = true) ts us
  | [], [] => by simp [tablesBeq]
  | t :: ts, u :: us => by rw [tablesBeq, Bool.and_eq_true, List.forall₂_cons, tablesBeq_iff]
  | [], _ :: _ | _ :: _, [] => by simp [tablesBeq]

/-! ## Equality part by part -/

namespace Expr

/-- Equality part by part: values of constants are compared as numbers. -/
theorem beq_iff (a : Expr) : ∀ b : Expr,
    a.beq b = true ↔ a.Same (fun v w => v.valueEq w = true) (fun q r => q.beq r = true) b := by
  induction a using Expr.induct with
  | h a ih =>
    intro b
    rw [same_iff, ← forall₂_congr_of_mem ih]
    -- Where the constructors differ the heads do.
    cases a with
    | column =>
      cases b with
      | column =>
        simp only [beq, Bool.and_eq_true, beq_iff_eq, and_assoc, operands, SameHead, List.Forall₂.nil, and_true]
      | _ => exact iff_of_false (by simp [beq]) fun h => h.1
    | star =>
      cases b with
      | star => simp only [beq, beq_iff_eq, operands, SameHead, List.Forall₂.nil, and_true]
      | _ => exact iff_of_false (by simp [beq]) fun h => h.1
    | output =>
      cases b with
      | output =>
        simp only [beq, Bool.and_eq_true, beq_iff_eq, and_assoc, operands, SameHead, List.Forall₂.nil, and_true]
      | _ => exact iff_of_false (by simp [beq]) fun h => h.1
    | constant =>
      cases b with
      | constant => simp only [beq, Bool.and_eq_true, beq_iff_eq, operands, SameHead, List.Forall₂.nil, and_true]
      | _ => exact iff_of_false (by simp [beq]) fun h => h.1
    | parameter =>
      cases b with
      | parameter => simp only [beq, Bool.and_eq_true, beq_iff_eq, operands, SameHead, List.Forall₂.nil, and_true]
      | _ => exact iff_of_false (by simp [beq]) fun h => h.1
    | exist =>
      cases b with
      | exist => simp only [beq, operands, SameHead, List.Forall₂.nil, and_true]
      | _ => exact iff_of_false (by simp [beq]) fun h => h.1
    | named =>
      cases b with
      | named =>
        simp only [beq, Bool.and_eq_true, beq_iff_eq, operands, SameHead, List.forall₂_cons, List.Forall₂.nil, and_true]
      | _ => exact iff_of_false (by simp [beq]) fun h => h.1
    | not =>
      cases b with
      | not => simp only [beq, operands, SameHead, List.forall₂_cons, List.Forall₂.nil, and_true, true_and]
      | _ => exact iff_of_false (by simp [beq]) fun h => h.1
    | cast =>
      cases b with
      | cast =>
        rw [beq, Bool.and_eq_true, beq_iff_eq, operands, operands, SameHead, List.forall₂_cons, and_comm]
        simp only [List.Forall₂.nil, and_true]
      | _ => exact iff_of_false (by simp [beq]) fun h => h.1
    | binary =>
      cases b with
      | binary =>
        simp only [beq, Bool.and_eq_true, beq_iff_eq, and_assoc, operands, SameHead, List.forall₂_cons,
          List.Forall₂.nil, and_true]
      | _ => exact iff_of_false (by simp [beq]) fun h => h.1
    | rowNumber =>
      cases b with
      | rowNumber =>
        rw [beq, keysBeq_iff]
        rfl
      | _ => exact iff_of_false (by simp [beq]) fun h => h.1
    | call =>
      cases b with
      | call =>
        simp only [beq, Bool.and_eq_true, beq_iff_eq, exprsBeq_iff, operands, SameHead, and_assoc, and_comm,
          and_left_comm]
      | _ => exact iff_of_false (by simp [beq]) fun h => h.1

end Expr

end QueryTree
