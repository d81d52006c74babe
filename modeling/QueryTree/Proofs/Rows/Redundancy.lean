/-
Sort keys that make no difference. A comparison by keys is over with the first key that tells the rows apart, so a
key that follows an equal one of the same direction is asked only where it cannot tell. Keys of this kind may be
left out, and a key may give way to an expression that equals it.
-/
import QueryTree.Proofs.Projection
import QueryTree.Proofs.Rows.Integers
import QueryTree.Query.Clauses

namespace QueryTree

/-- First by the ones, then by the others. -/
theorem compareBy_append {α V : Type} (cmp : V → V → Ordering) (ks ls : List ((α → V) × Direction)) (a b : α) :
    compareBy cmp (ks ++ ls) a b = (compareBy cmp ks a b).then (compareBy cmp ls a b) := by
  induction ks with
  | nil => exact Ordering.eq_then.symm
  | cons k ks ih =>
    obtain ⟨value, _ | _⟩ := k
    · rw [List.cons_append, compareBy, compareBy, ih, Ordering.then_assoc]
    · rw [List.cons_append, compareBy, compareBy, ih, Ordering.then_assoc]

/-- What has been asked, and left a tie, leaves the tie when it is asked again. -/
theorem then_then_self (first same rest : Ordering) :
    (first.then (same.then rest)).then same = first.then (same.then rest) := by
  cases first <;> cases same <;> simp

namespace Interpretation

variable {V : Type} {I : Interpretation V}

/-- Structurally equal expressions have equal values, whatever these are and however they compare. -/
def RespectsEquality (I : Interpretation V) : Prop :=
  ∀ {a b : Expr}, a.equiv b = true → ∀ s : Scope V, I.eval a s = I.eval b s

theorem compareKeys_append (keys more : List OrderKey) (a b : Scope V) :
    I.compareKeys (keys ++ more) a b = (I.compareKeys keys a b).then (I.compareKeys more a b) := by
  rw [compareKeys, List.map_append]
  exact compareBy_append ..

theorem compareKeys_singleton (hI : I.RespectsEquality) {k key : OrderKey} (hd : k.direction = key.direction)
    (hequal : k.expr.equiv key.expr = true) (a b : Scope V) : I.compareKeys [k] a b = I.compareKeys [key] a b := by
  refine compareBy_congr (f := id) ?_
  exact .cons ⟨hd, hI hequal a, hI hequal b⟩ .nil

/-- Where the keys leave a tie, so does a key that is among them. -/
theorem compareKeys_then_self (hI : I.RespectsEquality) {keys : List OrderKey} {k key : OrderKey} (hk : k ∈ keys)
    (hd : k.direction = key.direction) (hequal : k.expr.equiv key.expr = true) (a b : Scope V) :
    (I.compareKeys keys a b).then (I.compareKeys [key] a b) = I.compareKeys keys a b := by
  -- The equal key has decided between the rows, unless one ahead of it has.
  obtain ⟨before, after, rfl⟩ := List.append_of_mem hk
  have hsplit : I.compareKeys (before ++ k :: after) a b =
      (I.compareKeys before a b).then ((I.compareKeys [k] a b).then (I.compareKeys after a b)) := by
    rw [compareKeys_append, ← List.singleton_append, compareKeys_append]
  rw [hsplit, ← compareKeys_singleton hI hd hequal, then_then_self]

theorem compareKeys_addKey (hI : I.RespectsEquality) (key : OrderKey) (keys : List OrderKey) (a b : Scope V) :
    I.compareKeys (Query.addKey key keys).2 a b = I.compareKeys (keys ++ [key]) a b := by
  unfold Query.addKey
  split
  · rename_i k hfound
    have hsame := List.find?_some hfound
    rw [Bool.and_eq_true, beq_iff_eq] at hsame
    rw [compareKeys_append]
    exact (compareKeys_then_self hI (List.mem_of_find?_eq_some hfound) hsame.1 hsame.2 a b).symm
  · rfl

theorem compareKeys_foldl_addKey (hI : I.RespectsEquality) (a b : Scope V) : ∀ (more keys : List OrderKey),
    I.compareKeys (more.foldl (fun keys key => (Query.addKey key keys).2) keys) a b = I.compareKeys (keys ++ more) a b
  | [], keys => by rw [List.foldl_nil, List.append_nil]
  | key :: more, keys => by
    calc I.compareKeys ((key :: more).foldl (fun keys key => (Query.addKey key keys).2) keys) a b
        = I.compareKeys ((Query.addKey key keys).2 ++ more) a b := by
          rw [List.foldl_cons, compareKeys_foldl_addKey hI a b more]
      _ = I.compareKeys ((keys ++ [key]) ++ more) a b := by
          rw [compareKeys_append, compareKeys_addKey hI, ← compareKeys_append]
      _ = I.compareKeys (keys ++ key :: more) a b := by rw [List.append_assoc, List.singleton_append]

/-- Keys that come to refer to slots sort as before. -/
theorem compareKeys_of_refersTo (hI : I.RespectsEquality) {slots : List Expr} {keys keys' : List OrderKey}
    (h : List.Forall₂ (OrderKey.RefersTo slots) keys keys') (a b : Scope V) :
    I.compareKeys keys' a b = I.compareKeys keys a b := by
  refine (compareBy_congr (f := id) ?_).symm
  rw [List.forall₂_map_left_iff, List.forall₂_map_right_iff]
  refine h.imp fun k k' hrefers => ?_
  rcases hrefers with rfl | ⟨hd, hequal, -⟩
  · exact ⟨rfl, rfl, rfl⟩
  · exact ⟨hd.symm, hI hequal a, hI hequal b⟩

/-- Rows compare by keys that are put ahead, then by the present ones, though duplicates of keys ahead are left out;
by the present keys, then by one that is added, though it may be left out; and by the present keys still when a value
is added to the projection and a key comes to refer to it. -/
theorem compareKeys_after_changes (hI : I.RespectsEquality) (q : Query) :
    (∀ items : List OrderKey, I.compareKeys (q.orderFirst items).orderBy = I.compareKeys (items ++ q.orderBy)) ∧
      (∀ key : OrderKey, I.compareKeys (q.orderAlso key).2.orderBy = I.compareKeys (q.orderBy ++ [key])) ∧
        ∀ (e : Expr) (explicit : Bool), I.compareKeys (q.project e explicit).2.orderBy = I.compareKeys q.orderBy := by
  refine ⟨fun items => ?_, fun key => ?_, fun e explicit => ?_⟩
  · funext a b
    exact compareKeys_foldl_addKey hI a b q.orderBy items
  · funext a b
    exact compareKeys_addKey hI key q.orderBy a b
  · funext a b
    exact compareKeys_of_refersTo hI (q.project_keys e explicit) a b

/-- Both keys that are put ahead have stood further back, one of them without its name. The last key stays, as its
direction is another. -/
theorem compareKeys_after_changes_people :
    let name := Expr.column "p" (some ⟨1⟩) "Name" .text
    let id := Expr.column "p" (some ⟨1⟩) "Id" .int32
    let q : Query := { orderBy := [⟨name, .asc⟩, ⟨id, .desc⟩, ⟨name, .desc⟩] }
    let items : List OrderKey := [⟨id, .desc⟩, ⟨.named "n" name, .asc⟩]
    people.RespectsEquality ∧ (q.orderFirst items).orderBy = items ++ [⟨name, .desc⟩] ∧
      people.compareKeys (items ++ [⟨name, .desc⟩]) = people.compareKeys (items ++ q.orderBy) := by
  intro name id q items
  have hpeople : people.RespectsEquality := fun h s => people_numbering.equiv h s
  have hkeys : (q.orderFirst items).orderBy = items ++ [⟨name, .desc⟩] := rfl
  obtain ⟨hfirst, -, -⟩ := compareKeys_after_changes hpeople q
  exact ⟨hpeople, hkeys, hkeys ▸ hfirst items⟩

end Interpretation

end QueryTree
