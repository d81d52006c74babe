/-
The memo of columns bound through a wildcard: an expression is found by the first entry that is
structurally equal to it. The index only narrows the search.
-/
import QueryTree.Digest
import QueryTree.Equivalence

namespace QueryTree.StarMemo

/-- Notes that the entry at position `i` has hash `hash`. -/
def note (index : Std.HashMap UInt64 (List Nat)) (hash : UInt64) (i : Nat) :
    Std.HashMap UInt64 (List Nat) :=
  index.insert hash (index.getD hash [] ++ [i])

def indexOf (entries : List Expr) : Std.HashMap UInt64 (List Nat) :=
  entries.zipIdx.foldl (fun index (e, i) => note index e.hash i) ∅

/-- The position of the first entry that is structurally equal to `e`. -/
def find? (e : Expr) (memo : StarMemo Expr) : Option Nat :=
  if memo.index.isEmpty then memo.entries.findIdx? (·.equiv e)
  else (memo.index.getD e.hash []).find? fun i => memo.entries[i]?.any (·.equiv e)

/-- Appends an entry. The first `threshold` entries go without index. -/
def add (threshold : Nat) (e : Expr) (memo : StarMemo Expr) : StarMemo Expr :=
  let entries := memo.entries ++ [e]
  let index :=
    if !memo.index.isEmpty then note memo.index e.hash memo.entries.length
    else if threshold ≤ entries.length then indexOf entries
    else memo.index
  { entries, index }

/-- The entry for `e`, which is added if there is none. -/
def remember (threshold : Nat) (e : Expr) (memo : StarMemo Expr) : Expr × StarMemo Expr :=
  match memo.find? e with
  | some i => (memo.entries.getD i e, memo)
  | none => (e, memo.add threshold e)

end QueryTree.StarMemo
