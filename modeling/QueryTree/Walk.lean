/-
Read-only walks over a tree. A walk enters a query, sees its projection, its tables (the target of a
join ahead of the condition), WHERE, ORDER BY, LIMIT and OFFSET, and leaves it. An expression is
seen before its operands. A visitor that is done enters and sees nothing more; queries already
entered are still left.
-/
import QueryTree.Expr

namespace QueryTree

/-- What a walk does with its state on the way. -/
structure Visitor (σ : Type) where
  enter : Query → σ → σ := fun _ s => s
  leave : Query → σ → σ := fun _ s => s
  see : Expr → σ → σ := fun _ s => s
  done : σ → Bool := fun _ => false

variable {σ : Type}

mutual

def Expr.walk (v : Visitor σ) : Expr → σ → σ
  | e@(.named _ inner), s => if v.done s then s else inner.walk v (v.see e s)
  | e@(.rowNumber keys), s => if v.done s then s else walkKeys v keys (v.see e s)
  | e@(.cast operand _), s => if v.done s then s else operand.walk v (v.see e s)
  | e@(.binary _ left right), s =>
    if v.done s then s else right.walk v (left.walk v (v.see e s))
  | e@(.not operand), s => if v.done s then s else operand.walk v (v.see e s)
  | e@(.call _ args _), s => if v.done s then s else walkExprs v args (v.see e s)
  | e@(.exist query), s => if v.done s then s else query.walk v (v.see e s)
  | e@(.column _ _ _ _), s | e@(.star _), s | e@(.output _ _ _), s | e@(.constant _ _), s
  | e@(.parameter _ _), s => if v.done s then s else v.see e s

def Table.walk (v : Visitor σ) : Table → σ → σ
  | .base _ _ _ _, s => s
  | .join _ target condition, s => walkOption v condition (target.walk v s)
  | .nested query, s => query.walk v s

def Query.walk (v : Visitor σ) : Query → σ → σ
  | q@{ tables, projection, predicate, orderBy, limit, offset, .. }, s =>
    if v.done s then s
    else
      let s := walkExprs v projection (v.enter q s)
      let s := walkOption v predicate (walkTables v tables s)
      let s := walkKeys v orderBy s
      v.leave q (walkOption v offset (walkOption v limit s))

def walkExprs (v : Visitor σ) : List Expr → σ → σ
  | [], s => s
  | e :: es, s => walkExprs v es (e.walk v s)

def walkOption (v : Visitor σ) : Option Expr → σ → σ
  | none, s => s
  | some e, s => e.walk v s

def walkKeys (v : Visitor σ) : List OrderKey → σ → σ
  | [], s => s
  | ⟨e, _⟩ :: ks, s => walkKeys v ks (e.walk v s)

def walkTables (v : Visitor σ) : List Table → σ → σ
  | [], s => s
  | t :: ts, s => walkTables v ts (t.walk v s)

end

@[simp] theorem walkExprs_eq_foldl (v : Visitor σ) (es : List Expr) (s : σ) :
    walkExprs v es s = es.foldl (fun s e => e.walk v s) s := by
  induction es generalizing s <;> simp [walkExprs, *]

@[simp] theorem walkOption_eq_elim (v : Visitor σ) (e : Option Expr) (s : σ) :
    walkOption v e s = e.elim s fun e => e.walk v s := by
  cases e <;> rfl

@[simp] theorem walkKeys_eq_foldl (v : Visitor σ) (keys : List OrderKey) (s : σ) :
    walkKeys v keys s = keys.foldl (fun s k => k.expr.walk v s) s := by
  induction keys generalizing s with
  | nil => rfl
  | cons k keys ih => cases k; simp [walkKeys, ih]

@[simp] theorem walkTables_eq_foldl (v : Visitor σ) (ts : List Table) (s : σ) :
    walkTables v ts s = ts.foldl (fun s t => t.walk v s) s := by
  induction ts generalizing s <;> simp [walkTables, *]

/-! ## Counting queries -/

/-- The number of queries in a tree, the root included. -/
def Query.count (q : Query) : Nat := q.walk { enter := fun _ n => n + 1 } 0

/-! ## Events -/

/-- A step of a walk. -/
inductive WalkEvent
  | enter (query : Query)
  | leave (query : Query)
  | see (expr : Expr)

def WalkEvent.isSee : WalkEvent → Bool
  | see _ => true
  | _ => false

/-- Records the steps of a walk. With a bound it is done once that many expressions are seen. -/
def recorder (bound : Option Nat) : Visitor (List WalkEvent) where
  enter q events := events ++ [.enter q]
  leave q events := events ++ [.leave q]
  see e events := events ++ [.see e]
  done events := bound.any (· ≤ events.countP WalkEvent.isSee)

/-- The steps of a walk over a query until `bound` expressions are seen. -/
def Query.events (bound : Option Nat) (q : Query) : List WalkEvent := q.walk (recorder bound) []

def Expr.events (bound : Option Nat) (e : Expr) : List WalkEvent := e.walk (recorder bound) []

end QueryTree
