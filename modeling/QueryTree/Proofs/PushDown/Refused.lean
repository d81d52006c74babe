/-
Push-downs that fail. In a nested query every slot but a wildcard has a name, and what has a name can
be referred to from outside. So a push-down fails at a sort key or a member that is a wildcard and
at nothing else, and the operations that begin with one fail with it alone.
-/
import QueryTree.Proofs.Failure
import QueryTree.Proofs.Projection

namespace QueryTree

namespace Expr

/-- A cast of a wildcard stays: a row is no number. -/
theorem unnamed_of_stripCasts {table : String} :
    ∀ {e : Expr}, e.stripCasts.unnamed = .star table → e.unnamed = .star table
  | cast operand t, h => by
    rw [stripCasts] at h
    split at h
    · rename_i hcast
      have hrow : operand.type = .row := by
        rw [← type_unnamed, unnamed_of_stripCasts h, type]
      rw [hrow, Bool.and_eq_true, beq_iff_eq] at hcast
      obtain ⟨hnumber, hkind⟩ := hcast
      rw [DataType.isNumber, hkind] at hnumber
      cases hnumber
    · exact h
  | column .., h | named .., h | star _, h | output .., h | constant .., h | parameter .., h | rowNumber _, h
  | binary .., h | not _, h | call .., h | exist _, h => h

theorem eq_star_of_isStar {e : Expr} (h : e.isStar = true) : ∃ table, e = .star table := by
  cases e with
  | star table => exact ⟨table, rfl⟩
  | _ => cases h

/-- Nothing but the same wildcard, under whatever name, equals a wildcard. -/
theorem unnamed_eq_of_star_equiv {e slot : Expr} (hs : slot.isStar = true) (h : slot.equiv e = true) :
    e.unnamed = slot := by
  obtain ⟨table, rfl⟩ := eq_star_of_isStar hs
  rw [equiv] at h
  split at h
  · rename_i table' he
    rw [he, beq_iff_eq.1 h]
  · cases h

end Expr

namespace Query

/-! ## What is shown of a value -/

theorem unnamed_of_addSlot_isStar {e : Expr} {c : Query} (h : (c.addSlot e).1.isStar = true) :
    e.unnamed = (c.addSlot e).1 := by
  obtain ⟨table, ht⟩ := Expr.eq_star_of_isStar h
  rw [ht]
  apply Expr.unnamed_of_stripCasts
  rw [← ht]
  revert h
  simp only [addSlot, project, Bool.false_eq_true, if_false]
  rcases hs : c.slotOf e.stripCasts with _ | i
  · simp only [appendValue_eq, List.getD_eq_getElem?_getD, List.getElem?_concat_length, Option.getD_some]
    intro h
    obtain ⟨table, ht⟩ := Expr.eq_star_of_isStar h
    rw [← newSlot_unnamed e.stripCasts c, ht]
    rfl
  · obtain ⟨slot, hi, heq⟩ := slotOf_eq_some hs
    simp only [List.getD_eq_getElem?_getD, hi, Option.getD_some]
    exact fun h => Expr.unnamed_eq_of_star_equiv h heq

/-- Only a wildcard is shown as a wildcard. -/
theorem unnamed_of_showSlot_isStar {wildcard : Option String} {e : Expr} {c : Query}
    (h : (c.showSlot wildcard e).1.isStar = true) : e.unnamed = (c.showSlot wildcard e).1 := by
  revert h
  unfold showSlot
  rcases hs : c.slotOf e with _ | i
  · simp only
    split
    · exact fun _ => rfl
    · exact unnamed_of_addSlot_isStar
  · obtain ⟨slot, hi, heq⟩ := slotOf_eq_some hs
    simp only [List.getD_eq_getElem?_getD, hi, Option.getD_some]
    exact fun h => Expr.unnamed_eq_of_star_equiv h heq

/-- What is shown of a value is a slot, or a column of the wildcard. -/
theorem showSlot_outputName {wildcard : Option String} {e : Expr} {c : Query} (hname : c.name.isSome = true)
    (hslots : SlotsNamed c.projection) (h : (c.showSlot wildcard e).1.isStar = false) :
    (c.showSlot wildcard e).1.outputName.isSome = true := by
  obtain ⟨added, hgains, -, hshown, -⟩ := showSlot_spec wildcard e c
  have hnamed : SlotsNamed (c.showSlot wildcard e).2.projection := hgains.named hname hslots
  revert hshown hnamed h
  unfold showSlot
  rcases hs : c.slotOf e with _ | i
  · simp only
    split
    · rename_i hcovered
      intro _ _ _
      rw [Bool.and_eq_true, beq_iff_eq, Bool.and_eq_true] at hcovered
      obtain ⟨⟨-, hwild⟩, howner⟩ := hcovered
      obtain ⟨table, htable⟩ := Option.isSome_iff_exists.1 hwild
      apply outputName_of_column
      rw [Expr.unnamed_unnamed]
      exact isColumn_of_owner (howner.trans htable)
    · intro hstar _ hnamed
      obtain ⟨-, -, -, -, i, hi, -⟩ := addSlot_spec e c
      exact hnamed.named _ (List.mem_of_getElem? hi) hstar
  · obtain ⟨slot, hi, -⟩ := slotOf_eq_some hs
    simp only [List.getD_eq_getElem?_getD, hi, Option.getD_some]
    exact fun hstar _ hnamed => hnamed.named _ (List.mem_of_getElem? hi) hstar

/-! ## Lifting that fails -/

theorem run_bind_error {σ ε α β : Type} {x : StateT σ (Except ε) α} {f : α → StateT σ (Except ε) β} {s : σ} {err : ε}
    (h : (x >>= f).run s = .error err) :
    x.run s = .error err ∨ ∃ a s', x.run s = .ok (a, s') ∧ (f a).run s' = .error err := by
  rw [StateT.run_bind] at h
  rcases hx : x.run s with e | ⟨a, s'⟩
  · rw [hx] at h
    cases h
    exact .inl rfl
  · rw [hx] at h
    exact .inr ⟨a, s', rfl, h⟩

/-- The failure at a wildcard `e` that is to be referred to from outside the nested query `t`. -/
def RefusedAt (t : String) (err : Error) (e : Expr) : Prop :=
  e.unnamed.isStar = true ∧ err = .unliftable t e.unnamed.toSql

theorem liftThrough_error {t : String} {wildcard : Option String} {e : Expr} {c : Query} {err : Error}
    (hname : c.name.isSome = true) (hslots : SlotsNamed c.projection)
    (h : (liftThrough t wildcard e).run c = .error err) : RefusedAt t err e := by
  rw [run_liftThrough] at h
  rcases hstar : (c.showSlot wildcard e).1.isStar
  · obtain ⟨name, hn⟩ := Option.isSome_iff_exists.1 (showSlot_outputName hname hslots hstar)
    rw [lift_of_outputName hn] at h
    cases h
  · have he := unnamed_of_showSlot_isStar hstar
    obtain ⟨table, htable⟩ := Expr.eq_star_of_isStar hstar
    rw [RefusedAt, he, hstar]
    rw [htable] at h ⊢
    cases h
    exact ⟨rfl, rfl⟩

theorem mapM_liftThrough_error {α : Type} {t : String} {wildcard : Option String} {err : Error} (get : α → Expr)
    (put : α → Expr → α) : ∀ {xs : List α} {c : Query}, c.name.isSome = true → SlotsNamed c.projection →
      (xs.mapM fun x => return put x (← liftThrough t wildcard (get x))).run c = .error err →
      ∃ x ∈ xs, RefusedAt t err (get x)
  | [], _, _, _, h => by cases h
  | x :: xs, c, hname, hslots, h => by
    rw [List.mapM_cons] at h
    rcases run_bind_error h with hx | ⟨y, c₁, hy, h⟩
    · -- The element itself is refused.
      rcases run_bind_error hx with he | ⟨e', c₂, -, hput⟩
      · exact ⟨x, List.mem_cons_self .., liftThrough_error hname hslots he⟩
      · cases hput
    · obtain ⟨e', c₂, he', hy⟩ := run_bind_ok hy
      cases hy
      obtain ⟨added, hgains, -⟩ := liftThrough_ok he'
      rcases run_bind_error h with hxs | ⟨ys, c₃, -, hcons⟩
      · have hname' : c₁.name.isSome = true := by rw [hgains.name]; exact hname
        obtain ⟨z, hz, hrefused⟩ := mapM_liftThrough_error get put hname' (hgains.named hname hslots) hxs
        exact ⟨z, List.mem_cons_of_mem _ hz, hrefused⟩
      · cases hcons

/-! ## Push-down -/

/-- What a push-down has to refer to from outside: the sort keys and the members. -/
def carried (q : Query) : List Expr := q.orderBy.map (·.expr) ++ q.members.map (·.2)

theorem pushedDown_error {t : String} {q : Query} {err : Error} (h : q.pushedDown t = .error err) :
    ∃ e ∈ q.carried, RefusedAt t err e := by
  obtain ⟨copies, hcopies, hfirst⟩ := firstChild_spec t q
  have hname : (q.firstChild t).name.isSome = true := by rw [hfirst]; rfl
  have hslots : SlotsNamed (q.firstChild t).projection := by rw [hfirst]; exact hcopies.named
  unfold pushedDown at h
  simp only at h
  generalize hrun : StateT.run _ (q.firstChild t) = r at h
  rcases r with err' | ⟨⟨keys, members⟩, c⟩
  · cases h
    rcases run_bind_error hrun with hkeys | ⟨keys, c₁, hkeys, hrun⟩
    · obtain ⟨k, hk, hrefused⟩ :=
        mapM_liftThrough_error OrderKey.expr (fun key e => { key with expr := e }) hname hslots hkeys
      exact ⟨k.expr, List.mem_append_left _ (List.mem_map_of_mem hk), hrefused⟩
    · obtain ⟨added, hgains, -⟩ := mapM_liftThrough_ok OrderKey.expr (fun key e => { key with expr := e }) hkeys
      have hname' : c₁.name.isSome = true := by rw [hgains.name]; exact hname
      rcases run_bind_error hrun with hmembers | ⟨members, c₂, -, hpair⟩
      · obtain ⟨m, hm, hrefused⟩ :=
          mapM_liftThrough_error Prod.snd (fun m e => (m.1, e)) hname' (hgains.named hname hslots) hmembers
        exact ⟨m.2, List.mem_append_right _ (List.mem_map_of_mem hm), hrefused⟩
      · cases hpair
  · cases h

/-- Without a wildcard to refer to, a query can be pushed down. -/
theorem pushedDown_of_noStar (t : String) {q : Query} (h : ∀ e ∈ q.carried, e.unnamed.isStar = false) :
    ∃ p, q.pushedDown t = .ok p := by
  rcases hp : q.pushedDown t with err | p
  · obtain ⟨e, he, hstar, -⟩ := pushedDown_error hp
    rw [h e he] at hstar
    cases hstar
  · exact ⟨p, rfl⟩

end Query

namespace Edit

variable {α : Type}

/-! ## Operations that begin with a push-down -/

/-- Without a wildcard among the sort keys and members the operation succeeds; where it fails, it does so
because one of them is a wildcard. -/
structure FailsAtWildcard (act : Edit α) (d : Draft) : Prop where
  succeeds : (∀ e ∈ d.query.carried, e.unnamed.isStar = false) → ∃ a d', act d = .ok a d'
  refused : ∀ err d', act d = .error err d' → ∃ t, d.session.createSubqueryName = .ok t d'.session ∧
    ∃ e ∈ d.query.carried, Query.RefusedAt t err e

theorem failsAtWildcard_total {act : Edit α} (h : act.Total) (d : Draft) : FailsAtWildcard act d where
  succeeds _ := h d
  refused err d' herr := by
    obtain ⟨a, d'', ha⟩ := h d
    rw [ha] at herr
    cases herr

theorem bind_of_ok {β : Type} {x : Edit α} {f : α → Edit β} {a : α} {d d' : Draft} (h : x d = .ok a d') :
    (x >>= f) d = f a d' := by
  show EStateM.bind x f d = _
  unfold EStateM.bind
  rw [h]

theorem bind_of_error {β : Type} {x : Edit α} {f : α → Edit β} {err : Error} {d d' : Draft} (h : x d = .error err d') :
    (x >>= f) d = .error err d' := by
  show EStateM.bind x f d = _
  unfold EStateM.bind
  rw [h]

theorem pushDown_of_pushedDown_error {q : Query} {s s' : Session} {t : String} {err : Error}
    (ht : s.createSubqueryName = .ok t s') (h : q.pushedDown t = .error err) :
    pushDown ⟨q, s⟩ = .error err ⟨q, s'⟩ := by
  have hname : onSession Session.createSubqueryName ⟨q, s⟩ = .ok t ⟨q, s'⟩ := by
    unfold onSession
    rw [ht]
  unfold pushDown
  rw [bind_of_ok hname, query_bind]
  simp only [h]
  rfl

theorem failsAtWildcard_pushDown {d : Draft} (hstem : d.session.settings.subqueryStem ≠ "") :
    FailsAtWildcard pushDown d := by
  obtain ⟨q, s⟩ := d
  obtain ⟨t, s', ht, -⟩ := createSubqueryName_exists hstem
  constructor
  · intro h
    obtain ⟨p, hp⟩ := Query.pushedDown_of_noStar t h
    exact ⟨(), ⟨p, s'⟩, pushDown_of_pushedDown ht hp⟩
  · intro err d' herr
    rcases hp : q.pushedDown t with err' | p
    · rw [pushDown_of_pushedDown_error ht hp] at herr
      cases herr
      exact ⟨t, ht, Query.pushedDown_error hp⟩
    · rw [pushDown_of_pushedDown ht hp] at herr
      cases herr

theorem FailsAtWildcard.bind_total {x : Edit Unit} {rest : Unit → Edit α} {d : Draft} (hx : FailsAtWildcard x d)
    (hrest : Total (rest ())) : FailsAtWildcard (x >>= rest) d := by
  obtain ⟨hsucceeds, hrefused⟩ := hx
  constructor
  · intro h
    obtain ⟨⟨⟩, d', hd⟩ := hsucceeds h
    rw [bind_of_ok hd]
    exact hrest d'
  · intro err d' herr
    rcases hr : x d with ⟨⟨⟩, d₁⟩ | ⟨err', d₁⟩
    · obtain ⟨a, d₂, ha⟩ := hrest d₁
      rw [bind_of_ok hr, ha] at herr
      cases herr
    · rw [bind_of_error hr] at herr
      cases herr
      exact hrefused err d' hr

/-- A push-down that is done only where it has to be, ahead of what cannot fail. -/
theorem failsAtWildcard_whenThen {p : Prop} [Decidable p] {rest : Unit → Edit α} {d : Draft}
    (hstem : d.session.settings.subqueryStem ≠ "") (hrest : Total (rest ())) :
    FailsAtWildcard (if p then pushDown >>= rest else rest ()) d := by
  by_cases hp : p
  · rw [if_pos hp]
    exact (failsAtWildcard_pushDown hstem).bind_total hrest
  · rw [if_neg hp]
    exact failsAtWildcard_total hrest d

/-- To look at the query first does no harm. -/
theorem failsAtWildcard_query_bind {f : Query → Edit α} {d : Draft} (hf : FailsAtWildcard (f d.query) d) :
    FailsAtWildcard (query >>= f) d where
  succeeds h := by
    rw [query_bind]
    exact hf.succeeds h
  refused err d' herr := by
    rw [query_bind] at herr
    exact hf.refused err d' herr

/-- With a stem to make names from, a push-down and each operation that may begin with one fail only at a
wildcard among the sort keys and members, which cannot be referred to from outside. -/
theorem pushDown_fails_at_wildcard {d : Draft} (hstem : d.session.settings.subqueryStem ≠ "") :
    FailsAtWildcard pushDown d ∧
    (∀ limit, FailsAtWildcard (limitTo limit) d) ∧
    (∀ offset, FailsAtWildcard (startAfter offset) d) ∧
    (∀ distinct, FailsAtWildcard (distinctRows distinct) d) ∧
    ∀ e, FailsAtWildcard (projectOnly e) d := by
  refine ⟨failsAtWildcard_pushDown hstem, fun limit => ?_, fun offset => ?_, fun distinct => ?_, fun e => ?_⟩
  · exact failsAtWildcard_query_bind (failsAtWildcard_whenThen hstem (total_modifyQuery _))
  · exact failsAtWildcard_query_bind (failsAtWildcard_whenThen hstem (total_modifyQuery _))
  · exact failsAtWildcard_query_bind (failsAtWildcard_whenThen hstem (total_modifyQuery _))
  · exact failsAtWildcard_query_bind <| failsAtWildcard_whenThen hstem <|
      (total_modifyQuery _).bind fun _ _ => ⟨_, _, rfl⟩

/-- A limited query that is sorted by a number, a cast, a row number and a condition on a nested query. -/
theorem pushDown_fails_at_wildcard_computed :
    let q : Query :=
      { tables := [.base "People" none "p" (some ⟨1⟩)]
        projection := [.column "p" (some ⟨1⟩) "Name" .text]
        orderBy := [⟨.int 1, .asc⟩, ⟨.cast (.int 2) .int32, .desc⟩, ⟨.rowNumber [⟨.int 1, .asc⟩], .asc⟩,
          ⟨.exist { tables := [.base "Pets" none "e" none] }, .asc⟩]
        limit := some (.int 10)
        members := [("Size", .named "s" (.call "LENGTH" [.column "p" (some ⟨1⟩) "Name" .text] .int32))] }
    ({ query := q, session := {} } : Draft).session.settings.subqueryStem ≠ "" ∧
      ∃ i d, projectOnly (.call "COUNT" [.int 1] .int32) ⟨q, {}⟩ = .ok i d := by
  intro q
  have hstem : ({ query := q, session := {} } : Draft).session.settings.subqueryStem ≠ "" := by decide
  exact ⟨hstem, ((pushDown_fails_at_wildcard hstem).2.2.2.2 _).succeeds (by decide)⟩

end Edit
end QueryTree
