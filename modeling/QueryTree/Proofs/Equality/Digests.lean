/-
What a digest tells of an expression. It can be read back: from the front of a sequence of data an
expression is recovered but for its names, the query sources of columns, and all of a query under EXISTS
except its name. So digests agree exactly where trees agree up to these, and in particular where structural
equality holds.
-/
import QueryTree.Digest
import QueryTree.Proofs.Equality.Erased

namespace QueryTree

/-! ## Leaves -/

theorem Kind.ctorIdx_injective {k k' : Kind} (h : k.ctorIdx = k'.ctorIdx) : k = k' := by
  cases k <;> cases k' <;> first | rfl | cases h

theorem BinaryOp.ctorIdx_injective {op op' : BinaryOp} (h : op.ctorIdx = op'.ctorIdx) : op = op' := by
  cases op <;> cases op' <;> first | rfl | cases h

theorem Direction.ctorIdx_injective {d d' : Direction} (h : d.ctorIdx = d'.ctorIdx) : d = d' := by
  cases d <;> cases d' <;> first | rfl | cases h

theorem DataType.digest_append_inj {t u : DataType} {xs ys : List Atom} :
    t.digest ++ xs = u.digest ++ ys ↔ t = u ∧ xs = ys := by
  constructor
  · intro h
    simp only [digest, Kind.digest, List.cons_append, List.nil_append, List.cons.injEq, Atom.tag.injEq,
      Atom.flag.injEq] at h
    obtain ⟨hkind, hnullable, hrest⟩ := h
    refine ⟨?_, hrest⟩
    cases t; cases u
    simp only [mk.injEq]
    exact ⟨Kind.ctorIdx_injective hkind, hnullable⟩
  · rintro ⟨rfl, rfl⟩
    rfl

theorem Literal.digest_append_inj {v w : Literal} {xs ys : List Atom} :
    v.digest ++ xs = w.digest ++ ys ↔ v = w ∧ xs = ys := by
  constructor
  · intro h
    cases v <;> cases w <;> simp [digest] at h ⊢
    case integer.integer n m =>
      cases n; cases m
      exact ⟨congrArg Int64.ofUInt64 h.1, h.2⟩
    case double.double x y =>
      cases x; cases y
      exact ⟨congrArg Double.mk h.1, h.2⟩
    all_goals exact h
  · rintro ⟨rfl, rfl⟩
    rfl

/-! ## Reading back -/

/-- What the digest says of a name that may be absent. -/
def nameDigest : Option String → List Atom
  | none => [.flag false]
  | some name => [.flag true, .text name]

theorem nameDigest_append_inj {n m : Option String} {xs ys : List Atom}
    (h : nameDigest n ++ xs = nameDigest m ++ ys) : n = m ∧ xs = ys := by
  cases n <;> cases m <;> simp [nameDigest] at h ⊢ <;> exact h

namespace Expr

@[simp] theorem digest_unnamed : ∀ e : Expr, e.unnamed.digest = e.digest
  | .named _ inner => by rw [unnamed, digest]; exact digest_unnamed inner
  | .column .. | .star _ | .output .. | .constant .. | .parameter .. | .rowNumber _ | .cast .. | .binary ..
  | .not _ | .call .. | .exist _ => rfl

/-- One tree after erasing. Of a query under EXISTS only the name counts. -/
def SameDigested (a b : Expr) : Prop := a.erased.Same (· = ·) (fun q r => q.name = r.name) b.erased

theorem digest_exist (q : Query) : (exist q).digest = .tag 10 :: nameDigest q.name := by
  rw [digest]
  cases q.name <;> rfl

/-- The number of the constructor below the names on top. -/
def shape : Expr → Nat
  | named _ inner => inner.shape
  | column .. => 0
  | star _ => 1
  | output .. => 2
  | constant .. => 3
  | parameter .. => 4
  | rowNumber _ => 5
  | cast .. => 6
  | binary .. => 7
  | not _ => 8
  | call .. => 9
  | exist _ => 10

/-- A digest begins with the number of the constructor. -/
theorem head?_digest : ∀ e : Expr, e.digest.head? = some (.tag e.shape)
  | named _ inner => head?_digest inner
  | exist q => by rw [digest_exist]; rfl
  | column .. | star _ | output .. | constant .. | parameter .. | rowNumber _ | cast .. | binary .. | not _
  | call .. => rfl

theorem shape_eq_of_digest {a b : Expr} {xs ys : List Atom} (h : a.digest ++ xs = b.digest ++ ys) :
    a.shape = b.shape := by
  have hhead := congrArg List.head? h
  simpa [List.head?_append, head?_digest] using hhead

/-- From the front of a sequence that starts with a digest, an expression can be read back. -/
def ReadBack (a : Expr) : Prop :=
  ∀ (b : Expr) (xs ys : List Atom), a.digest ++ xs = b.digest ++ ys → a.SameDigested b ∧ xs = ys

theorem readBack_list : ∀ {as bs : List Expr} {xs ys : List Atom}, (∀ a ∈ as, a.ReadBack) → as.length = bs.length →
    as.flatMap digest ++ xs = bs.flatMap digest ++ ys → List.Forall₂ SameDigested as bs ∧ xs = ys
  | [], [], _, _, _, _, h => ⟨.nil, h⟩
  | a :: as, b :: bs, xs, ys, has, hlength, h => by
    obtain ⟨ha, has⟩ := List.forall_mem_cons.1 has
    rw [List.flatMap_cons, List.flatMap_cons, List.append_assoc, List.append_assoc] at h
    obtain ⟨hhead, htail⟩ := ha b _ _ h
    obtain ⟨hsame, hrest⟩ := readBack_list has (Nat.succ.inj hlength) htail
    exact ⟨.cons hhead hsame, hrest⟩

theorem readBack_keys : ∀ {ks ls : List OrderKey} {xs ys : List Atom}, (∀ k ∈ ks, k.expr.ReadBack) →
    ks.length = ls.length → keysDigest ks ++ xs = keysDigest ls ++ ys →
    ks.map (·.direction) = ls.map (·.direction) ∧ List.Forall₂ SameDigested (ks.map (·.expr)) (ls.map (·.expr)) ∧
      xs = ys
  | [], [], _, _, _, _, h => ⟨rfl, .nil, h⟩
  | ⟨a, d⟩ :: ks, ⟨b, d'⟩ :: ls, xs, ys, hks, hlength, h => by
    obtain ⟨ha, hks⟩ := List.forall_mem_cons.1 hks
    simp only [keysDigest, List.cons_append, List.append_assoc, List.cons.injEq, Atom.tag.injEq] at h
    obtain ⟨hhead, htail⟩ := ha b _ _ h.2
    obtain ⟨hdirections, hsame, hrest⟩ := readBack_keys hks (Nat.succ.inj hlength) htail
    refine ⟨?_, .cons hhead hsame, hrest⟩
    rw [List.map_cons, List.map_cons, hdirections, Direction.ctorIdx_injective h.1]

theorem readBack_of_operands {a : Expr} (hnamed : a.isNamed = false) (ih : ∀ x ∈ a.operands, x.ReadBack) {b : Expr}
    (hb : b.isNamed = false) {xs ys : List Atom} (h : a.digest ++ xs = b.digest ++ ys) :
    a.SameDigested b ∧ xs = ys := by
  have hshape := shape_eq_of_digest h
  rw [SameDigested, same_erased_iff hnamed hb]
  -- What stands before the operands gives the head, and each operand is read back before the next.
  cases a with
  | named => cases hnamed
  | column =>
    cases b with
    | named => cases hb
    | column =>
      simp only [digest, List.cons_append, List.cons.injEq, Atom.text.injEq, true_and, DataType.digest_append_inj] at h
      simp [erased, SameHead, operands, h]
    | _ => cases hshape
  | star =>
    cases b with
    | named => cases hb
    | star =>
      simp only [digest, List.cons_append, List.nil_append, List.cons.injEq, Atom.text.injEq, true_and] at h
      simp [erased, SameHead, operands, h]
    | _ => cases hshape
  | output =>
    cases b with
    | named => cases hb
    | output =>
      simp only [digest, List.cons_append, List.cons.injEq, Atom.text.injEq, true_and, DataType.digest_append_inj] at h
      simp [erased, SameHead, operands, h]
    | _ => cases hshape
  | constant =>
    cases b with
    | named => cases hb
    | constant =>
      simp only [digest, List.cons_append, List.append_assoc, List.cons.injEq, true_and, DataType.digest_append_inj,
        Literal.digest_append_inj] at h
      simp [erased, SameHead, operands, h]
    | _ => cases hshape
  | parameter =>
    cases b with
    | named => cases hb
    | parameter =>
      simp only [digest, List.cons_append, List.cons.injEq, Atom.text.injEq, true_and, DataType.digest_append_inj] at h
      simp [erased, SameHead, operands, h]
    | _ => cases hshape
  | exist =>
    cases b with
    | named => cases hb
    | exist =>
      rw [digest_exist, digest_exist, List.cons_append, List.cons_append, List.cons.injEq] at h
      simp [erased, SameHead, operands, nameDigest_append_inj h.2]
    | _ => cases hshape
  | not x =>
    cases b with
    | named => cases hb
    | not y =>
      rw [digest, digest, List.cons_append, List.cons_append, List.cons.injEq] at h
      obtain ⟨hsame, hrest⟩ := ih x (List.mem_singleton_self x) y xs ys h.2
      exact ⟨⟨trivial, .cons hsame .nil⟩, hrest⟩
    | _ => cases hshape
  | cast x type =>
    cases b with
    | named => cases hb
    | cast y type' =>
      simp only [digest, List.cons_append, List.append_assoc, List.cons.injEq, true_and,
        DataType.digest_append_inj] at h
      obtain ⟨hsame, hrest⟩ := ih x (List.mem_singleton_self x) y xs ys h.2
      exact ⟨⟨h.1, .cons hsame .nil⟩, hrest⟩
    | _ => cases hshape
  | binary op x y =>
    cases b with
    | named => cases hb
    | binary op' x' y' =>
      simp only [digest, List.cons_append, List.append_assoc, List.cons.injEq, true_and, Atom.tag.injEq] at h
      obtain ⟨hsame, hrest⟩ := ih x (by simp [operands]) x' _ _ h.2
      obtain ⟨hsame', hrest⟩ := ih y (by simp [operands]) y' _ _ hrest
      exact ⟨⟨BinaryOp.ctorIdx_injective h.1, .cons hsame (.cons hsame' .nil)⟩, hrest⟩
    | _ => cases hshape
  | call f as type =>
    cases b with
    | named => cases hb
    | call f' bs type' =>
      simp only [digest, List.cons_append, List.append_assoc, List.cons.injEq, true_and, Atom.text.injEq,
        DataType.digest_append_inj, Atom.count.injEq, exprsDigest_eq_flatMap] at h
      obtain ⟨hf, htype, hlength, hargs⟩ := h
      obtain ⟨hsame, hrest⟩ := readBack_list ih hlength hargs
      exact ⟨⟨⟨hf, htype⟩, hsame⟩, hrest⟩
    | _ => cases hshape
  | rowNumber ks =>
    cases b with
    | named => cases hb
    | rowNumber ls =>
      simp only [digest, List.cons_append, List.cons.injEq, true_and, Atom.count.injEq] at h
      obtain ⟨hdirections, hsame, hrest⟩ := readBack_keys (List.forall_mem_map.1 ih) h.1 h.2
      refine ⟨⟨?_, hsame⟩, hrest⟩
      simpa [erased, SameHead, Function.comp_def] using hdirections
    | _ => cases hshape

theorem readBack (a : Expr) : a.ReadBack := by
  induction a using induct with
  | h a ih =>
    intro b xs ys h
    by_cases ha : a.isNamed = true
    · cases a with
      | named name inner => exact ih inner (List.mem_singleton_self _) b xs ys h
      | _ => cases ha
    · rw [← digest_unnamed b] at h
      have := readBack_of_operands (Bool.eq_false_iff.2 ha) ih (isNamed_unnamed b) h
      rwa [SameDigested, erased_unnamed] at this

theorem digest_erased (e : Expr) : e.erased.digest = e.digest := by
  induction e using induct with
  | h e ih =>
    cases e with
    | named name inner => exact ih inner (List.mem_singleton_self _)
    | rowNumber keys =>
      simp only [operands, List.forall_mem_map] at ih
      simp only [erased, digest, keysErased_eq_map, keysDigest_eq_flatMap, List.length_map, List.flatMap_map]
      congr 2
      exact List.flatMap_congr fun k hk => by rw [ih k hk]
    | call function args type =>
      simp only [erased, digest, exprsErased_eq_map, exprsDigest_eq_flatMap, List.length_map, List.flatMap_map]
      rw [List.flatMap_congr (show ∀ x ∈ args, x.erased.digest = x.digest from ih)]
    | binary op left right =>
      simp only [operands, List.forall_mem_cons] at ih
      rw [erased, digest, digest, ih.1, ih.2.1]
    | cast operand type => rw [erased, digest, digest, ih operand (List.mem_singleton_self _)]
    | not operand => rw [erased, digest, digest, ih operand (List.mem_singleton_self _)]
    | column | star | output | constant | parameter | exist => rfl

theorem keysDigest_congr : ∀ {ks ls : List OrderKey}, ks.map (·.direction) = ls.map (·.direction) →
    ks.map (·.expr.digest) = ls.map (·.expr.digest) → keysDigest ks = keysDigest ls
  | [], [], _, _ => rfl
  | ⟨a, d⟩ :: ks, ⟨b, d'⟩ :: ls, hd, he => by
    simp only [List.map_cons, List.cons.injEq] at hd he
    rw [keysDigest, keysDigest, hd.1, he.1, keysDigest_congr hd.2 he.2]
  | [], _ :: _, h, _ | _ :: _, [], h, _ => by cases h

theorem digest_congr {a b : Expr} (hhead : a.SameHead (· = ·) (fun q r => q.name = r.name) b)
    (hoperands : a.operands.map digest = b.operands.map digest) : a.digest = b.digest := by
  cases a with
  | rowNumber ks =>
    cases b with
    | rowNumber ls =>
      have hlength : ks.length = ls.length := by simpa using congrArg List.length hhead
      rw [digest, digest, hlength, keysDigest_congr hhead (by simpa [operands, Function.comp_def] using hoperands)]
    | _ => cases hhead
  | call function as type =>
    cases b with
    | call function' bs type' =>
      obtain ⟨rfl, rfl⟩ := hhead
      have hlength : as.length = bs.length := by simpa [operands] using congrArg List.length hoperands
      rw [operands, operands] at hoperands
      rw [digest, digest, hlength, exprsDigest_eq_flatMap, exprsDigest_eq_flatMap, List.flatMap_def, List.flatMap_def,
        hoperands]
    | _ => cases hhead
  | exist q =>
    cases b with
    | exist r => rw [digest_exist, digest_exist, show q.name = r.name from hhead]
    | _ => cases hhead
  | _ => cases b <;> simp_all [SameHead, operands, digest]

theorem Same.digest_eq (a : Expr) :
    ∀ b : Expr, a.Same (· = ·) (fun q r => q.name = r.name) b → a.digest = b.digest := by
  induction a using induct with
  | h a ih =>
    intro b h
    obtain ⟨hhead, hoperands⟩ := same_iff.1 h
    refine digest_congr hhead ?_
    rw [← List.forall₂_eq_eq_eq, List.forall₂_map_left_iff, List.forall₂_map_right_iff]
    exact forall₂_imp_of_mem ih hoperands

/-- Digests agree exactly where the trees do, apart from what lies in queries under EXISTS. -/
theorem digest_eq_iff {a b : Expr} : a.digest = b.digest ↔ a.SameDigested b := by
  constructor
  · intro h
    exact (readBack a b [] [] (by rw [h])).1
  · intro h
    rw [← digest_erased a, ← digest_erased b]
    exact Same.digest_eq _ _ h

end Expr

theorem Query.name_of_beq {q r : Query} (h : q.beq r = true) : q.name = r.name := by
  rcases q with ⟨_, _, _, _, _, _, _, name, _, _, ⟨_, _⟩, _⟩
  simp only [Query.beq, Bool.and_eq_true, beq_iff_eq] at h
  exact h.1.1.1.1.1.2

namespace Expr

/-- The digest looks at no more than structural equality does. -/
theorem digest_of_equiv {a b : Expr} (h : a.equiv b = true) : a.digest = b.digest := by
  refine digest_eq_iff.2 (Same.mono (fun _ _ h => h) _ (fun q _ r hqr => ?_) _ ((equiv_iff a b).1 h))
  exact Query.name_of_beq hqr

theorem hash_of_equiv {a b : Expr} (h : a.equiv b = true) : a.hash = b.hash := by
  rw [hash, hash, digest_of_equiv h]

/-- Structurally equal expressions feed any hasher the same data. Digests agree exactly where the trees do
without names and query sources, floating-point values by their bits and queries under EXISTS by their names,
so that without EXISTS equal digests are structural equality. -/
theorem hash_consistent (a b : Expr) :
    (a.equiv b = true → a.digest = b.digest ∧ a.hash = b.hash ∧
      ∀ (State : Type) (feed : State → Atom → State) (start : State),
        a.digest.foldl feed start = b.digest.foldl feed start) ∧
    (a.digest = b.digest ↔ a.SameDigested b) ∧
    (a.children = [] → (a.digest = b.digest ↔ a.equiv b = true)) := by
  refine ⟨fun h => ?_, digest_eq_iff, fun h => ?_⟩
  · have hdigest := digest_of_equiv h
    refine ⟨hdigest, hash_of_equiv h, fun State feed start => ?_⟩
    rw [hdigest]
  · rw [digest_eq_iff, equiv_iff]
    exact same_congr (by rw [children_erased, h])

/-- A call over a row number, EXISTS and a NaN, with names at different places. Next to it the two zeros. -/
theorem hash_consistent_named :
    let key (source : Option Source) := column "c" source "Id" .int32
    let listed := exist { name := some "s" }
    let nan := constant (.double ⟨0x7ff8000000000000⟩) ⟨.double, false⟩
    let zero (bits : UInt64) := constant (.double ⟨bits⟩) ⟨.double, false⟩
    (call "F" [named "n" (rowNumber [⟨named "k" (key (some ⟨1⟩)), .desc⟩]), listed, nan] .int64).hash =
      (named "f" (call "F" [rowNumber [⟨key none, .desc⟩], named "e" listed, nan] .int64)).hash ∧
    (zero 0).digest ≠ (zero 0x8000000000000000).digest := by
  intro key listed nan zero
  have hquery : ({ name := some "s" } : Query) == { name := some "s" } := by
    show Query.beq _ _ = true
    simp [Query.beq, tablesBeq, exprsBeq, optionBeq, keysBeq, membersBeq]
  have hequal : (call "F" [named "n" (rowNumber [⟨named "k" (key (some ⟨1⟩)), .desc⟩]), listed, nan] .int64).equiv
      (named "f" (call "F" [rowNumber [⟨key none, .desc⟩], named "e" listed, nan] .int64)) = true := by
    simp [equiv, unnamed, exprsEquiv, keysEquiv, key, listed, nan, hquery]
  have hzeros : (zero 0).equiv (zero 0x8000000000000000) = false := by decide
  refine ⟨((hash_consistent _ _).1 hequal).2.1, fun h => ?_⟩
  rw [((hash_consistent _ _).2.2 rfl).1 h] at hzeros
  cases hzeros

end Expr

end QueryTree
