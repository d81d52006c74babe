/-
Association lists with one value per key, in order of first use of the key.
-/

namespace QueryTree.Assoc

/-- Gives `key` the value `value`, in place of the one it has. -/
def put {κ ν : Type} [BEq κ] (key : κ) (value : ν) : List (κ × ν) → List (κ × ν)
  | [] => [(key, value)]
  | (k, v) :: rest => if k == key then (key, value) :: rest else (k, v) :: put key value rest

end QueryTree.Assoc
