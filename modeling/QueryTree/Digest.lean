/-
Digests: the data that a hash of an expression is made of. Structurally equal expressions have equal
digests.
-/
import QueryTree.Tree

namespace QueryTree

/-! ## Leaves -/

/-- One piece of the data that a hash is made of. -/
inductive Atom
  | tag (number : Nat)
  | count (n : Nat)
  | flag (b : Bool)
  | text (s : String)
  | word (w : UInt64)
  deriving DecidableEq, Hashable

def Kind.digest (k : Kind) : List Atom := [.tag k.ctorIdx]

def DataType.digest (t : DataType) : List Atom := t.kind.digest ++ [.flag t.nullable]

def Literal.digest : Literal → List Atom
  | null => [.tag 0]
  | boolean b => [.tag 1, .flag b]
  | integer n => [.tag 2, .word n.toUInt64]
  | double x => [.tag 3, .word x.bits]
  | text s => [.tag 4, .text s]

/-! ## Expressions -/

mutual

/-- The data of an expression without its names. A query under `EXISTS` gives only its name. -/
def Expr.digest : Expr → List Atom
  | .named _ e => e.digest
  | .column t _ n ty => .tag 0 :: .text t :: .text n :: ty.digest
  | .star t => [.tag 1, .text t]
  | .output q n ty => .tag 2 :: .text q :: .text n :: ty.digest
  | .constant v ty => .tag 3 :: ty.digest ++ v.digest
  | .parameter n ty => .tag 4 :: .text n :: ty.digest
  | .rowNumber ks => .tag 5 :: .count ks.length :: keysDigest ks
  | .cast e ty => .tag 6 :: ty.digest ++ e.digest
  | .binary op l r => .tag 7 :: .tag op.ctorIdx :: l.digest ++ r.digest
  | .not e => .tag 8 :: e.digest
  | .call f as ty => .tag 9 :: .text f :: ty.digest ++ .count as.length :: exprsDigest as
  | .exist q => match q.name with
    | none => [.tag 10, .flag false]
    | some name => [.tag 10, .flag true, .text name]

def exprsDigest : List Expr → List Atom
  | [] => []
  | e :: es => e.digest ++ exprsDigest es

def keysDigest : List OrderKey → List Atom
  | [] => []
  | ⟨e, d⟩ :: ks => .tag d.ctorIdx :: e.digest ++ keysDigest ks

end

@[simp] theorem exprsDigest_eq_flatMap (es : List Expr) :
    exprsDigest es = es.flatMap Expr.digest := by
  induction es <;> simp [exprsDigest, *]

@[simp] theorem keysDigest_eq_flatMap (keys : List OrderKey) :
    keysDigest keys = keys.flatMap fun k => .tag k.direction.ctorIdx :: k.expr.digest := by
  induction keys with
  | nil => rfl
  | cons k keys ih => cases k; simp [keysDigest, ih]

def Expr.hash (e : Expr) : UInt64 := Hashable.hash e.digest

end QueryTree
