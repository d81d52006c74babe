/-
Equality of trees part by part. Floating-point values are compared as numbers, so a tree that holds
a NaN differs from itself. The index of a memo takes no part, nor does the order of members.
-/
import QueryTree.Tree

namespace QueryTree

mutual

def Expr.beq : Expr → Expr → Bool
  | .column t s n ty, .column t' s' n' ty' => t == t' && s == s' && n == n' && ty == ty'
  | .named n e, .named n' e' => n == n' && e.beq e'
  | .star t, .star t' => t == t'
  | .output q n ty, .output q' n' ty' => q == q' && n == n' && ty == ty'
  | .constant v ty, .constant v' ty' => v.valueEq v' && ty == ty'
  | .parameter n ty, .parameter n' ty' => n == n' && ty == ty'
  | .rowNumber ks, .rowNumber ks' => keysBeq ks ks'
  | .cast e ty, .cast e' ty' => e.beq e' && ty == ty'
  | .binary op l r, .binary op' l' r' => op == op' && l.beq l' && r.beq r'
  | .not e, .not e' => e.beq e'
  | .call f as ty, .call f' as' ty' => f == f' && exprsBeq as as' && ty == ty'
  | .exist q, .exist q' => q.beq q'
  | _, _ => false

def OrderKey.beq : OrderKey → OrderKey → Bool
  | ⟨e, d⟩, ⟨e', d'⟩ => e.beq e' && d == d'

def Table.beq : Table → Table → Bool
  | .base t s n src, .base t' s' n' src' => t == t' && s == s' && n == n' && src == src'
  | .join k t c, .join k' t' c' => k == k' && t.beq t' && optionBeq c c'
  | .nested q, .nested q' => q.beq q'
  | _, _ => false

def Query.beq : Query → Query → Bool
  | ⟨tables, projection, predicate, orderBy, limit, offset, distinct, name, starred, wildcardChoice,
      ⟨entries, _⟩, members⟩, q =>
    tablesBeq tables q.tables && exprsBeq projection q.projection
      && optionBeq predicate q.predicate && keysBeq orderBy q.orderBy
      && optionBeq limit q.limit && optionBeq offset q.offset
      && distinct == q.distinct && name == q.name
      && starred == q.starred && wildcardChoice == q.wildcardChoice
      && exprsBeq entries q.memo.entries
      && members.length == q.members.length && membersBeq members q.members

def exprsBeq : List Expr → List Expr → Bool
  | [], [] => true
  | e :: es, e' :: es' => e.beq e' && exprsBeq es es'
  | _, _ => false

def optionBeq : Option Expr → Option Expr → Bool
  | none, none => true
  | some e, some e' => e.beq e'
  | _, _ => false

def keysBeq : List OrderKey → List OrderKey → Bool
  | [], [] => true
  | k :: ks, k' :: ks' => k.beq k' && keysBeq ks ks'
  | _, _ => false

def tablesBeq : List Table → List Table → Bool
  | [], [] => true
  | t :: ts, t' :: ts' => t.beq t' && tablesBeq ts ts'
  | _, _ => false

/-- Each member of the first list has an equal expression in the second. -/
def membersBeq : List (String × Expr) → List (String × Expr) → Bool
  | [], _ => true
  | (member, e) :: rest, others =>
    (match others.lookup member with
      | some e' => e.beq e'
      | none => false) && membersBeq rest others

end

instance : BEq Expr := ⟨Expr.beq⟩

instance : BEq Query := ⟨Query.beq⟩

end QueryTree
