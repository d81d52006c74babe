/-
The two queries that a push-down leaves. The nested one has the slots of the old query, in their
order, then slots for what the enclosing one refers to beyond them; the enclosing one has the sort
keys and members, lifted. Without a wildcard these all refer to slots.
-/
import QueryTree.Edit
import QueryTree.Proofs.PushDown.Lifting

namespace QueryTree

/-! ## Copies of slots -/

theorem Expr.isStar_of_outputName {e : Expr} (h : e.outputName.isSome = true) : e.isStar = false := by
  cases e <;> first | rfl | cases h

theorem Expr.isStar_of_isColumn {e : Expr} (h : e.isColumn = true) : e.isStar = false := by
  cases e <;> first | rfl | cases h

theorem Expr.isStar_of_unnamed {e : Expr} (h : e.unnamed.isStar = false) : e.isStar = false := by
  cases e <;> first | rfl | exact h

theorem SlotsNamed.not_mem_of_append {xs ys : List Expr} {e : Expr} {name : String}
    (h : SlotsNamed (xs ++ e :: ys)) (hn : e.outputName = some name) :
    Text.lowercase name ∉ (xs.filterMap Expr.outputName).map Text.lowercase := by
  have hd := h.distinct
  rw [List.filterMap_append, List.filterMap_cons, hn, List.map_append, List.nodup_append] at hd
  exact fun hm => hd.2.2 _ hm _ (List.mem_cons_self ..) rfl

namespace Query

theorem slotFor_isStar (e : Expr) (q : Query) : (q.slotFor e).isStar = e.isStar := by
  unfold slotFor
  split
  · by_cases he : e.isStar = true
    · rw [distinctlyNamed, if_pos he]
    · rw [Bool.not_eq_true] at he
      obtain ⟨name, -, hs, -⟩ := distinctlyNamed_outputName he q
      rw [hs, he]
  · rfl

theorem slotsNamed_slotFor {q : Query} (hname : q.name.isSome = true) (h : SlotsNamed q.projection) (e : Expr) :
    SlotsNamed (q.projection ++ [q.slotFor e]) := by
  rw [slotFor, if_pos hname]
  exact slotsNamed_distinctlyNamed h e

/-- What is named already, differently from the slots ahead of it, keeps its name. -/
theorem slotFor_of_slotsNamed {q : Query} {e : Expr} {es : List Expr} (h : SlotsNamed (q.projection ++ e :: es)) :
    q.slotFor e = e := by
  unfold slotFor
  split
  · by_cases he : e.isStar = true
    · rw [distinctlyNamed, if_pos he]
    · obtain ⟨name, hname⟩ := Option.isSome_iff_exists.1
        (h.named e (List.mem_append_right _ (List.mem_cons_self ..)) (by simpa using he))
      exact distinctlyNamed_of_free hname (h.not_mem_of_append hname)
  · rfl

/-- The slots `copies` hold the values of `es`. -/
structure Copies (es copies : List Expr) : Prop where
  values : copies.map Expr.unnamed = es.map Expr.unnamed
  stars : copies.map Expr.isStar = es.map Expr.isStar
  named : SlotsNamed copies
  unchanged : SlotsNamed es → copies = es

theorem Copies.noStar {es copies : List Expr} (h : Copies es copies) (hes : ∀ e ∈ es, e.isStar = false) :
    ∀ e ∈ copies, e.isStar = false := fun e he => by
  have hmem : e.isStar ∈ es.map Expr.isStar := h.stars ▸ List.mem_map_of_mem he
  obtain ⟨x, hx, heq⟩ := List.mem_map.1 hmem
  rw [← heq, hes x hx]

theorem foldl_appendSlot : ∀ (es : List Expr) (c : Query), ∃ copies,
    es.foldl (fun child e => child.appendSlot e) c = { c with projection := c.projection ++ copies } ∧
    copies.map Expr.unnamed = es.map Expr.unnamed ∧ copies.map Expr.isStar = es.map Expr.isStar ∧
    (c.name.isSome = true → SlotsNamed c.projection → SlotsNamed (c.projection ++ copies)) ∧
    (SlotsNamed (c.projection ++ es) → copies = es)
  | [], c => ⟨[], by cases c; simp, rfl, rfl, by simp, fun _ => rfl⟩
  | e :: es, c => by
    obtain ⟨copies, heq, hv, hs, hn, hu⟩ := foldl_appendSlot es (c.appendSlot e)
    refine ⟨c.slotFor e :: copies, ?_, by simp [hv], by simp [hs, slotFor_isStar], fun hname h => ?_, fun h => ?_⟩
    · rw [List.foldl_cons, heq]; simp [appendSlot]
    · simpa [appendSlot] using hn hname (slotsNamed_slotFor hname h e)
    · have he := slotFor_of_slotsNamed h
      rw [he, hu (by simpa [appendSlot, he] using h)]

theorem firstChild_spec (t : String) (q : Query) : ∃ copies, Copies q.projection copies ∧
    q.firstChild t =
      { projection := copies, orderBy := q.orderBy, name := some t, starred := q.starred || q.projection.isEmpty } := by
  obtain ⟨copies, heq, hv, hs, hn, hu⟩ := foldl_appendSlot q.projection { name := some t }
  refine ⟨copies, ⟨hv, hs, by simpa using hn rfl slotsNamed_nil, hu⟩, ?_⟩
  rw [firstChild, heq]
  simp

/-! ## Push-down -/

/-- The wildcard is part of what the query outputs, or all of it. -/
def wild (q : Query) : Bool := q.starred || q.projection.isEmpty

/-- The slots have the values of all sort keys and members. -/
def Covered (q : Query) : Prop :=
  (∀ k ∈ q.orderBy, q.covers k.expr = true) ∧ ∀ m ∈ q.members, q.covers m.2 = true

instance (q : Query) : Decidable q.Covered := inferInstanceAs (Decidable (_ ∧ _))

/-- Of `q`, pushed down under the name `t`, there are left `p` and below it `c`, with copies of the
slots of `q` and the slots `added` for sort keys and members. -/
structure Moved (t : String) (q p c : Query) (copies added : List Expr) : Prop where
  parent : p =
    { tables := [.nested c], orderBy := p.orderBy, name := q.name, starred := true, wildcardChoice := some t,
      members := p.members }
  child : c =
    { q with projection := copies ++ added, orderBy := c.orderBy, name := some t, starred := q.wild, members := [] }
  copies : Copies q.projection copies
  named : SlotsNamed c.projection
  addedNamed : ∀ slot ∈ added, slot.outputName.isSome = true
  sources : ∀ slot ∈ added, ∃ e ∈ q.orderBy.map (·.expr) ++ q.members.map (·.2), slot.unnamed = e.stripCasts.unnamed
  sortKeys : ∀ k ∈ c.orderBy, k ∈ q.orderBy ∨ k.expr ∈ added
  unordered : q.limit = none → q.offset = none → c.orderBy = []
  ordered : q.limit.isSome = true ∨ q.offset.isSome = true → SameKeys q.orderBy c.orderBy
  unchanged : q.limit.isSome = true ∨ q.offset.isSome = true → added = [] → c.orderBy = q.orderBy
  keys : List.Forall₂ (fun k k' => k'.direction = k.direction ∧ Reaches t c k.expr k'.expr) q.orderBy p.orderBy
  members : List.Forall₂ (fun m m' => m'.1 = m.1 ∧ Reaches t c m.2 m'.2) q.members p.members
  added_eq_nil : q.wild = false → (added = [] ↔ q.Covered)

/-- The same without a wildcard: what is lifted refers to slots. -/
structure Sunk (t : String) (q p c : Query) (copies added : List Expr) : Prop where
  parent : p =
    { tables := [.nested c], orderBy := p.orderBy, name := q.name, starred := true, wildcardChoice := some t,
      members := p.members }
  child : c = { q with projection := copies ++ added, orderBy := c.orderBy, name := some t, members := [] }
  copies : Copies q.projection copies
  named : SlotsNamed c.projection
  addedNamed : ∀ slot ∈ added, slot.outputName.isSome = true
  unordered : q.limit = none → q.offset = none → c.orderBy = []
  ordered : q.limit.isSome = true ∨ q.offset.isSome = true → SameKeys q.orderBy c.orderBy
  unchanged : q.limit.isSome = true ∨ q.offset.isSome = true → added = [] → c.orderBy = q.orderBy
  keys : List.Forall₂ (fun k k' => k'.direction = k.direction ∧ LiftedTo t c k.expr k'.expr) q.orderBy p.orderBy
  members : List.Forall₂ (fun m m' => m'.1 = m.1 ∧ LiftedTo t c m.2 m'.2) q.members p.members
  added_eq_nil : added = [] ↔ q.Covered

theorem covers_congr {q r : Query} (h : q.projection.map Expr.unnamed = r.projection.map Expr.unnamed)
    (e : Expr) : q.covers e = r.covers e := by
  rw [covers, covers, slotOf_congr h, slotOf_congr h]

/-- What is lifted in a push-down, and what it leaves. -/
theorem pushedDown_run {t : String} {q p : Query} (h : q.pushedDown t = .ok p) : ∃ keys c₁ members c,
    (q.orderBy.mapM fun (key : OrderKey) =>
        return { key with expr := ← liftThrough t q.wildcardTable key.expr }).run
      (q.firstChild t) = .ok (keys, c₁) ∧
    (q.members.mapM fun (m : String × Expr) => return (m.1, ← liftThrough t q.wildcardTable m.2)).run c₁ =
      .ok (members, c) ∧
    p = { tables := [.nested { c with
                      tables := q.tables
                      predicate := q.predicate
                      limit := q.limit
                      offset := q.offset
                      distinct := q.distinct
                      wildcardChoice := q.wildcardChoice
                      memo := q.memo
                      orderBy := if q.limit.isNone && q.offset.isNone then [] else c.orderBy }]
          orderBy := keys
          name := q.name
          starred := true
          wildcardChoice := some t
          members } := by
  unfold pushedDown at h
  simp only at h
  generalize hrun : StateT.run _ (q.firstChild t) = r at h
  rcases r with err | ⟨⟨keys, members⟩, c⟩
  · cases h
  -- the sort keys first, and then the members
  obtain ⟨keys', c₁, hkeys, hrun⟩ := run_bind_ok hrun
  obtain ⟨members', c', hmembers, hrun⟩ := run_bind_ok hrun
  cases hrun
  cases h
  exact ⟨keys, c₁, members, c, hkeys, hmembers, rfl⟩

/-- A limit or an offset has the sort keys stay. -/
theorem paged_keeps {q : Query} (h : q.limit.isSome = true ∨ q.offset.isSome = true) :
    (q.limit.isNone && q.offset.isNone) = false := by
  rcases h with hlimit | hoffset
  · rw [Option.isNone_eq_false_iff.2 hlimit, Bool.false_and]
  · rw [Option.isNone_eq_false_iff.2 hoffset, Bool.and_false]

theorem pushedDown_moved {t : String} {q p : Query} (h : q.pushedDown t = .ok p) :
    ∃ c copies added, Moved t q p c copies added := by
  obtain ⟨copies, hcopies, hfirst⟩ := firstChild_spec t q
  obtain ⟨keys, c₁, members, c₂, hkeys, hmembers, rfl⟩ := pushedDown_run h
  rw [hfirst] at hkeys
  generalize hc₀ :
    ({ projection := copies, orderBy := q.orderBy, name := some t, starred := q.starred || q.projection.isEmpty } :
      Query) = c₀ at hkeys
  obtain ⟨added, hw, hslots, hl, hadded⟩ :=
    mapM_liftThrough_ok OrderKey.expr (fun key e => { key with expr := e }) hkeys
  obtain ⟨added', hw', hslots', hl', hadded'⟩ := mapM_liftThrough_ok Prod.snd (fun m e => (m.1, e)) hmembers
  have hwide := hw.trans hw'
  -- The first child has the slots of `q` up to names, so it covers what `q` covers.
  have hcover : ∀ e, c₀.covers e = q.covers e := covers_congr (by rw [← hc₀]; exact hcopies.values)
  have hnamed : SlotsNamed c₂.projection := hwide.named (by rw [← hc₀]; rfl) (by rw [← hc₀]; exact hcopies.named)
  have hkeys' : c₀.orderBy = q.orderBy := by rw [← hc₀]
  have hstarred : c₀.starred = q.wild := by rw [← hc₀]; rfl
  refine ⟨_, copies, added ++ added', rfl, ?_, hcopies, hnamed, List.forall_mem_append.2 ⟨hslots, hslots'⟩,
    hwide.sources, fun k hk => ?_, fun hl ho => by rw [hl, ho]; rfl, fun hpaged => ?_, fun hpaged hnil => ?_,
    ?_, ?_, fun hwild => ?_⟩
  · rw [hwide.eq, ← hc₀]; simp [wild]
  · have hk : k ∈ c₂.orderBy := by
      revert hk; split
      · intro hk; cases hk
      · exact id
    rw [← hkeys']; exact hwide.sortKeys k hk
  · rw [paged_keeps hpaged, ← hkeys']; exact hwide.keys
  · rw [paged_keeps hpaged, ← hkeys']; exact hwide.unchanged hnil
  · refine hl.imp fun k k' ⟨e', hk, hlift⟩ => ?_
    rw [hk]; exact ⟨rfl, (hlift.widen hw'.toWidened).congr rfl rfl⟩
  · refine hl'.imp fun m m' ⟨e', hm, hlift⟩ => ?_
    rw [hm]; exact ⟨rfl, hlift.congr rfl rfl⟩
  · rw [List.append_eq_nil_iff, hadded (hstarred.trans hwild),
      hadded' (hw.starred.trans (hstarred.trans hwild)), Covered]
    simp only [hcover]
    refine and_congr_right fun hk => ?_
    have hsame : c₁.projection = c₀.projection := by
      rw [hw.projection, (hadded (hstarred.trans hwild)).2 fun k hk' => (hcover _).trans (hk k hk'), List.append_nil]
    simp only [covers_projection hsame, hcover]

theorem Moved.sunk {t : String} {q p c : Query} {copies added : List Expr} (h : Moved t q p c copies added)
    (hs : q.starred = false) (hp : q.projection ≠ []) : Sunk t q p c copies added := by
  have hwild : q.wild = false := by simpa [wild, hs] using hp
  have hchild := h.child
  rw [hwild, ← hs] at hchild
  have hc : c.starred = false := by rw [hchild, hs]
  exact { h with
    child := hchild
    keys := h.keys.imp fun _ _ hk => ⟨hk.1, hk.2.lifted hc⟩
    members := h.members.imp fun _ _ hm => ⟨hm.1, hm.2.lifted hc⟩
    added_eq_nil := h.added_eq_nil hwild }

theorem pushedDown_ok {t : String} {q p : Query} (hs : q.starred = false) (hp : q.projection ≠ [])
    (h : q.pushedDown t = .ok p) : ∃ c copies added, Sunk t q p c copies added := by
  obtain ⟨c, copies, added, hmoved⟩ := pushedDown_moved h
  exact ⟨c, copies, added, hmoved.sunk hs hp⟩

/-! ## How the nested query comes about -/

theorem liftThrough_state {t : String} {wildcard : Option String} {e e' : Expr} {c c' : Query}
    (h : (liftThrough t wildcard e).run c = .ok (e', c')) : c' = c ∨ c' = (c.addSlot e).2 := by
  rw [(shown_of_liftThrough h).2]
  unfold showSlot
  split
  · exact .inl rfl
  · split
    · exact .inl rfl
    · exact .inr rfl

/-- What every slot keeps that is added, lifting keeps. -/
theorem mapM_liftThrough_keeps {α : Type} {t : String} {wildcard : Option String} {Q : Query → Prop} (get : α → Expr)
    (put : α → Expr → α) : ∀ {xs ys : List α} {c c' : Query},
      (xs.mapM fun x => return put x (← liftThrough t wildcard (get x))).run c = .ok (ys, c') →
      (∀ x ∈ xs, ∀ c, Q c → Q (c.addSlot (get x)).2) → Q c → Q c'
  | [], _, _, _, h, _, hc => by cases h; exact hc
  | x :: xs, ys, c, c', h, hslot, hc => by
    rw [List.mapM_cons] at h
    obtain ⟨y, c₁, hy, h⟩ := run_bind_ok h
    obtain ⟨e', c₂, he', hy⟩ := run_bind_ok hy
    cases hy
    obtain ⟨ys', c₂, hys, h⟩ := run_bind_ok h
    cases h
    rw [List.forall_mem_cons] at hslot
    refine mapM_liftThrough_keeps get put hys hslot.2 ?_
    rcases liftThrough_state he' with rfl | rfl
    · exact hc
    · exact hslot.1 c hc

theorem nested_eq_of_tables {p c d : Query} (hc : p.tables = [.nested c]) (hd : p.tables = [.nested d]) : c = d :=
  Table.nested.inj (List.cons.inj (hc.symm.trans hd)).1

/-- The nested query starts out with copies of slots and keys, and gains slots for keys and members. -/
theorem pushedDown_child {Q : Query → Prop} {t : String} {q p : Query} (h : q.pushedDown t = .ok p)
    (hfirst : Q (q.firstChild t))
    (hslot : ∀ e ∈ q.orderBy.map (·.expr) ++ q.members.map (·.2), ∀ c, Q c → Q (c.addSlot e).2) :
    ∃ c child, Q c ∧ p.tables = [.nested child] ∧ child.projection = c.projection ∧
      child.orderBy = if q.limit.isNone && q.offset.isNone then [] else c.orderBy := by
  obtain ⟨keys, c₁, members, c, hkeys, hmembers, rfl⟩ := pushedDown_run h
  rw [List.forall_mem_append, List.forall_mem_map, List.forall_mem_map] at hslot
  have hc₁ : Q c₁ := mapM_liftThrough_keeps OrderKey.expr (fun key e => { key with expr := e }) hkeys hslot.1 hfirst
  have hc : Q c := mapM_liftThrough_keeps Prod.snd (fun m e => (m.1, e)) hmembers hslot.2 hc₁
  exact ⟨c, _, hc, rfl, rfl, rfl⟩

/-! ## Push-down that succeeds -/

/-- What a push-down leaves where all keys are lifted without a new slot and there are no members. -/
theorem pushedDown_exists {t : String} {q : Query} (hm : q.members = [])
    (h : ∀ k ∈ q.orderBy,
      ∃ e', (liftThrough t q.wildcardTable k.expr).run (q.firstChild t) = .ok (e', q.firstChild t)) :
    ∃ keys, q.pushedDown t = .ok
        { tables := [.nested { q.firstChild t with
                      tables := q.tables
                      predicate := q.predicate
                      limit := q.limit
                      offset := q.offset
                      distinct := q.distinct
                      wildcardChoice := q.wildcardChoice
                      memo := q.memo
                      orderBy := if q.limit.isNone && q.offset.isNone then [] else (q.firstChild t).orderBy }]
          orderBy := keys
          name := q.name
          starred := true
          wildcardChoice := some t
          members := [] } ∧
      List.Forall₂ (fun k k' => ∃ e', k' = { k with expr := e' } ∧
        (liftThrough t q.wildcardTable k.expr).run (q.firstChild t) = .ok (e', q.firstChild t)) q.orderBy keys := by
  obtain ⟨keys, hkeys, hl⟩ := mapM_liftThrough_exists OrderKey.expr (fun key e => { key with expr := e }) h
  refine ⟨keys, ?_, hl⟩
  unfold pushedDown
  simp only [hm]
  rw [run_bind_of_ok hkeys]
  rfl

end Query

namespace Edit

theorem bind_ok {α β : Type} {x : Edit α} {f : α → Edit β} {b : β} {d d'' : Draft}
    (h : (x >>= f) d = .ok b d'') : ∃ a d', x d = .ok a d' ∧ f a d' = .ok b d'' := by
  change EStateM.bind x f d = _ at h
  unfold EStateM.bind at h
  rcases hx : x d with ⟨a, d'⟩ | ⟨e, d'⟩
  · rw [hx] at h; exact ⟨a, d', rfl, h⟩
  · rw [hx] at h; cases h

theorem query_bind {β : Type} (f : Query → Edit β) (d : Draft) : (query >>= f) d = f d.query d := rfl

theorem pushDown_ok {d d' : Draft} (h : pushDown d = .ok () d') :
    ∃ t, d.session.createSubqueryName = .ok t d'.session ∧ d.query.pushedDown t = .ok d'.query := by
  obtain ⟨t, d₁, ht, h⟩ := bind_ok h
  unfold onSession at ht
  rcases hs : d.session.createSubqueryName with ⟨t', s⟩ | ⟨e, s⟩
  · rw [hs] at ht
    cases ht
    obtain ⟨q, d₂, hq, h⟩ := bind_ok h
    cases hq
    simp only at h
    rcases hp : d.query.pushedDown t with err | p
    · rw [hp] at h; cases h
    · rw [hp] at h; cases h; exact ⟨t, rfl, hp⟩
  · rw [hs] at ht; cases ht

theorem createSubqueryName_exists {s : Session} (h : s.settings.subqueryStem ≠ "") :
    ∃ t s', s.createSubqueryName = .ok t s' ∧ s'.settings = s.settings := by
  have hstem : s.settings.subqueryStem.isEmpty = false := by simpa using h
  change ∃ t s', Session.createName s.settings.subqueryStem s = .ok t s' ∧ _
  unfold Session.createName
  rw [hstem]
  exact ⟨_, _, rfl, rfl⟩

theorem pushDown_of_pushedDown {q p : Query} {s s' : Session} {t : String} (ht : s.createSubqueryName = .ok t s')
    (h : q.pushedDown t = .ok p) : pushDown ⟨q, s⟩ = .ok () ⟨p, s'⟩ := by
  have hname : onSession Session.createSubqueryName ⟨q, s⟩ = .ok t ⟨q, s'⟩ := by
    unfold onSession; rw [ht]
  change EStateM.bind _ _ _ = _
  unfold EStateM.bind
  rw [hname]
  simp only [query_bind, h]
  rfl

end Edit
end QueryTree
