/-
The index of a memo against its entries. An index is either empty or has, for each hash, the positions
of all entries with that hash, in increasing order. As structurally equal expressions have one digest,
and so one hash, such an index finds the first equal entry, and the memo is no more than a list.
-/
import QueryTree.Proofs.Binding.References
import QueryTree.Proofs.Equality.Digests
import QueryTree.Proofs.Wildcards

namespace QueryTree

namespace StarMemo

/-! ## Buckets -/

/-- The positions of the entries that have a hash, in increasing order. -/
def bucket (hash : UInt64) (entries : List Expr) : List Nat :=
  (entries.zipIdx.filter fun (e, _) => e.hash == hash).map Prod.snd

theorem bucket_concat (hash : UInt64) (entries : List Expr) (e : Expr) :
    bucket hash (entries ++ [e]) = bucket hash entries ++ if e.hash == hash then [entries.length] else [] := by
  rw [bucket, bucket, List.zipIdx_append, List.filter_append, List.map_append]
  by_cases he : (e.hash == hash) = true
  · rw [if_pos he]
    simp [he]
  · rw [if_neg he]
    simp [he]

theorem getD_note (index : Std.HashMap UInt64 (List Nat)) (hash hash' : UInt64) (i : Nat) :
    (note index hash i).getD hash' [] = index.getD hash' [] ++ if hash == hash' then [i] else [] := by
  rw [note, Std.HashMap.getD_insert]
  by_cases h : (hash == hash') = true
  · rw [if_pos h, if_pos h, eq_of_beq h]
  · rw [if_neg h, if_neg h, List.append_nil]

/-- Noting entries one after the other adds the position of each to the bucket of its hash. -/
theorem getD_foldl_note (hash : UInt64) : ∀ (es : List (Expr × Nat)) (index : Std.HashMap UInt64 (List Nat)),
    (es.foldl (fun index (e, i) => note index e.hash i) index).getD hash [] =
      index.getD hash [] ++ (es.filter fun (e, _) => e.hash == hash).map Prod.snd
  | [], index => by simp
  | (e, i) :: es, index => by
    rw [List.foldl_cons, getD_foldl_note hash es, getD_note, List.append_assoc, List.filter_cons]
    by_cases he : (e.hash == hash) = true
    · rw [if_pos he, if_pos he, List.map_cons, List.singleton_append]
    · rw [if_neg he, if_neg he, List.nil_append]

theorem getD_indexOf (hash : UInt64) (entries : List Expr) : (indexOf entries).getD hash [] = bucket hash entries := by
  rw [indexOf, getD_foldl_note, Std.HashMap.getD_empty, List.nil_append, bucket]

/-! ## Consistent memos -/

/-- The index, unless it is empty, has all positions of each hash in order. -/
def Consistent (memo : StarMemo Expr) : Prop :=
  memo.index.isEmpty = true ∨ ∀ hash, memo.index.getD hash [] = bucket hash memo.entries

theorem consistent_of_entries (entries : List Expr) : Consistent { entries } := .inl Std.HashMap.isEmpty_empty

variable {memo : StarMemo Expr}

/-- In the bucket of its hash an expression finds the entry that it would find in the whole list. -/
theorem find?_bucket (e : Expr) (entries : List Expr) :
    (bucket e.hash entries).find? (fun i => entries[i]?.any (·.equiv e)) = entries.findIdx? (·.equiv e) := by
  rw [bucket, List.find?_map, List.find?_filter, List.findIdx?_eq_fst_find?_zipIdx]
  congr 1
  refine List.find?_congr fun x hx => ?_
  have hi : entries[x.2]? = some x.1 := List.mem_zipIdx_iff_getElem?.1 hx
  simp only [Function.comp_apply, hi, Option.any_some, beq_iff_eq]
  by_cases heq : x.1.equiv e = true
  · simp [heq, Expr.hash_of_equiv heq]
  · simp [heq]

/-- The index only narrows the search. -/
theorem Consistent.find?_eq (h : memo.Consistent) (e : Expr) : memo.find? e = memo.entries.findIdx? (·.equiv e) := by
  unfold find?
  by_cases hempty : memo.index.isEmpty = true
  · rw [if_pos hempty]
  · rw [if_neg hempty, (h.resolve_left hempty) e.hash, find?_bucket]

theorem Consistent.add (h : memo.Consistent) (threshold : Nat) (e : Expr) : (memo.add threshold e).Consistent := by
  unfold StarMemo.add
  simp only
  by_cases hempty : memo.index.isEmpty = true
  · by_cases hlong : threshold ≤ (memo.entries ++ [e]).length
    · right
      simp only [hempty, Bool.not_true, Bool.false_eq_true, if_false, if_pos hlong]
      exact fun hash => getD_indexOf hash _
    · left
      simp only [hempty, Bool.not_true, Bool.false_eq_true, if_false, if_neg hlong]
  · right
    intro hash
    simp only [hempty, Bool.not_false, if_true]
    rw [getD_note, (h.resolve_left hempty) hash, bucket_concat]

/-! ## Lists as memos -/

/-- What a list gives for `e`: the first entry that is structurally equal to it. Without one `e` itself
is appended. -/
def scan (e : Expr) (entries : List Expr) : Expr × List Expr :=
  match entries.find? (·.equiv e) with
  | some entry => (entry, entries)
  | none => (e, entries ++ [e])

/-- A memo gives what its list of entries gives, whatever the threshold, and stays consistent. -/
theorem Consistent.remember (h : memo.Consistent) (threshold : Nat) (e : Expr) :
    ((memo.remember threshold e).1, (memo.remember threshold e).2.entries) = scan e memo.entries ∧
      (memo.remember threshold e).2.Consistent := by
  unfold StarMemo.remember scan
  rw [List.find?_eq_bind_findIdx?_getElem?, ← h.find?_eq e]
  rcases hf : memo.find? e with _ | i
  · exact ⟨rfl, h.add threshold e⟩
  · obtain ⟨entry, hi, -⟩ := equiv_of_find? hf
    refine ⟨?_, h⟩
    simp only [Option.bind_some, hi, List.getD_eq_getElem?_getD, Option.getD_some]

end StarMemo

/-! ## Consistent trees -/

namespace Query

/-- The memo is consistent, and so are those of the queries nested in the tables. -/
def Consistent (q : Query) : Prop := q.memo.Consistent ∧ ∀ x : Query, x.Nested q → x.memo.Consistent

variable {q q' x : Query}

theorem Consistent.nested (h : q.Consistent) {t : Table} (ht : t ∈ q.tables) (hx : t.query? = some x) : x.Consistent :=
  ⟨h.2 x (.table ht hx), fun _ hy => h.2 _ (.deeper ht hx hy)⟩

theorem Grows.memo_consistent (h : q.Grows q') : q.memo.Consistent → q'.memo.Consistent := by
  induction h with
  | refl _ => exact id
  | trans _ _ h h' => exact h' ∘ h
  | slot q _ =>
    rename_i e _
    obtain ⟨added, keys, heq⟩ := addSlot_eq e q
    rw [heq]; exact id
  | memo q threshold _ => exact fun hq => (hq.remember threshold _).2
  | table _ _ _ _ => exact id

/-- What binding changes keeps memos consistent. -/
theorem Grows.consistent (h : q.Grows q') (hq : q.Consistent) : q'.Consistent := by
  refine ⟨h.memo_consistent hq.1, fun x' hx' => ?_⟩
  obtain ⟨x, hx, hg⟩ := h.nested hx'
  exact hg.memo_consistent (hq.2 x hx)

theorem memo_consistent_local : Local fun q => q.Orderly ∧ q.memo.Consistent where
  memo h := h.1.memo
  fresh name := ⟨orderly_local.fresh name, StarMemo.consistent_of_entries []⟩
  congr h hname hmemo hchoice htables hslots :=
    ⟨orderly_local.congr h.1 hname hmemo hchoice htables hslots, hmemo ▸ h.2⟩
  projectNothing h := ⟨orderly_local.projectNothing h.1, h.2⟩
  project e explicit q h := by
    refine ⟨orderly_local.project e explicit h.1, ?_⟩
    obtain ⟨slots, keys, starred, heq⟩ := project_eq e explicit q
    rw [heq]
    exact h.2
  remember threshold e _ he h := ⟨orderly_local.remember threshold he h.1, (h.2.remember threshold e).2⟩
  appendTable t _ h := ⟨orderly_local.appendTable t h.1, h.2⟩
  detachTable name q h := by
    refine ⟨orderly_local.detachTable name h.1, ?_⟩
    unfold detachTable
    split <;> exact h.2
  chooseWildcard hany h := ⟨orderly_local.chooseWildcard hany h.1, h.2⟩
  pushedDown hmoved h := by
    obtain ⟨hparent, hchild⟩ := orderly_local.pushedDown hmoved h.1
    refine ⟨⟨hparent, ?_⟩, hchild, ?_⟩
    · rw [hmoved.parent]
      exact StarMemo.consistent_of_entries []
    · rw [hmoved.child]
      exact h.2

/-- The operations leave no other memos than consistent ones. -/
theorem Assembled.consistent (h : q.Assembled) : q.Consistent :=
  have hall := h.everywhere memo_consistent_local
  ⟨(hall q .root).2, fun x hx => (hall x hx.within).2⟩

end Query
end QueryTree
