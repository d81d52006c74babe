/-
Structural equality: two expressions that stand for the same value, whatever names they carry.
-/
import QueryTree.Equality
import QueryTree.Expr

namespace QueryTree

mutual

/-- Equality without regard to names and to the query sources of columns. Floating-point values are
compared by their bits, queries under `EXISTS` part by part. -/
def Expr.equiv : Expr → Expr → Bool
  | .named _ e, other => e.equiv other
  | .column t _ n ty, other => match other.unnamed with
    | .column t' _ n' ty' => t == t' && n == n' && ty == ty'
    | _ => false
  | .star t, other => match other.unnamed with
    | .star t' => t == t'
    | _ => false
  | .output q n ty, other => match other.unnamed with
    | .output q' n' ty' => q == q' && n == n' && ty == ty'
    | _ => false
  | .constant v ty, other => match other.unnamed with
    | .constant v' ty' => ty == ty' && v == v'
    | _ => false
  | .parameter n ty, other => match other.unnamed with
    | .parameter n' ty' => n == n' && ty == ty'
    | _ => false
  | .rowNumber ks, other => match other.unnamed with
    | .rowNumber ks' => keysEquiv ks ks'
    | _ => false
  | .cast e ty, other => match other.unnamed with
    | .cast e' ty' => ty == ty' && e.equiv e'
    | _ => false
  | .binary op l r, other => match other.unnamed with
    | .binary op' l' r' => op == op' && l.equiv l' && r.equiv r'
    | _ => false
  | .not e, other => match other.unnamed with
    | .not e' => e.equiv e'
    | _ => false
  | .call f as ty, other => match other.unnamed with
    | .call f' as' ty' => f == f' && ty == ty' && exprsEquiv as as'
    | _ => false
  | .exist q, other => match other.unnamed with
    | .exist q' => q == q'
    | _ => false

def exprsEquiv : List Expr → List Expr → Bool
  | [], [] => true
  | e :: es, e' :: es' => e.equiv e' && exprsEquiv es es'
  | _, _ => false

/-- Keys are equal position by position, direction included. -/
def keysEquiv : List OrderKey → List OrderKey → Bool
  | [], [] => true
  | ⟨e, d⟩ :: ks, k' :: ks' => d == k'.direction && e.equiv k'.expr && keysEquiv ks ks'
  | _, _ => false

end

end QueryTree
