/-
References to outputs of nested queries after the paging pass. Numbering moves expressions one level
down, where the same tables answer them, and refers back to the slots that they get; a wildcard that
is expanded is left with the columns that are bound. So references do not dangle afterwards as long as
those to such a wildcard name columns that are bound.
-/
import QueryTree.Proofs.Paging.Enumerated

namespace QueryTree

/-! ## References -/

mutual

/-- The outputs of nested queries that an expression refers to, by the names of query and column. What
stands under EXISTS refers from there. -/
def Expr.refs : Expr → List (String × String)
  | .output query name _ => [(query, name)]
  | .named _ inner => inner.refs
  | .rowNumber keys => keyRefs keys
  | .cast operand _ => operand.refs
  | .binary _ left right => left.refs ++ right.refs
  | .not operand => operand.refs
  | .call _ args _ => exprRefs args
  | .column _ _ _ _ | .star _ | .constant _ _ | .parameter _ _ | .exist _ => []

def exprRefs : List Expr → List (String × String)
  | [] => []
  | e :: es => e.refs ++ exprRefs es

def keyRefs : List OrderKey → List (String × String)
  | [] => []
  | ⟨e, _⟩ :: keys => e.refs ++ keyRefs keys

end

theorem keyRefs_eq_flatMap (keys : List OrderKey) : keyRefs keys = keys.flatMap fun k => k.expr.refs := by
  induction keys with
  | nil => rfl
  | cons k keys ih => cases k; rw [keyRefs, ih, List.flatMap_cons]

namespace Expr

theorem refs_unnamed : ∀ e : Expr, e.unnamed.refs = e.refs
  | .named _ inner => refs_unnamed inner
  | .column .. | .star _ | .output .. | .constant .. | .parameter .. | .rowNumber _ | .cast .. | .binary ..
  | .not _ | .call .. | .exist _ => rfl

theorem refs_stripCasts (e : Expr) : e.stripCasts.refs = e.refs := by
  induction e using stripCasts.induct with
  | case1 operand t h ih => rw [stripCasts, if_pos h, ih, refs]
  | case2 operand t h => rw [stripCasts, if_neg h]
  | case3 e h => cases e <;> first | rfl | exact absurd rfl (h _ _)

theorem refs_hereditary (A : String × String → Prop) : Hereditary fun e => ∀ r ∈ e.refs, A r where
  unnamed e := by rw [refs_unnamed]
  stripCasts e := by rw [refs_stripCasts]
  rowNumber keys := by rw [refs, keyRefs_eq_flatMap, List.forall_mem_flatMap]
  binary op a b := by rw [refs, List.forall_mem_append]
  constant v type := by simp [refs]

section Pass

variable {σ : Type} {f : Query → StateM σ Query}

mutual

/-- What a pass does under EXISTS is no matter of references. -/
theorem refs_mapQueriesM : ∀ (e : Expr) (s : σ), (e.mapQueriesM f s).1.refs = e.refs
  | .named _ inner, s => refs_mapQueriesM inner s
  | .rowNumber keys, s => refs_keysMapQueriesM keys s
  | .cast operand _, s => refs_mapQueriesM operand s
  | .binary _ left right, s => congrArg₂ (· ++ ·) (refs_mapQueriesM left s) (refs_mapQueriesM right _)
  | .not operand, s => refs_mapQueriesM operand s
  | .call _ args _, s => refs_exprsMapQueriesM args s
  | .column .., _ | .star _, _ | .output .., _ | .constant .., _ | .parameter .., _ | .exist _, _ => rfl

theorem refs_exprsMapQueriesM : ∀ (es : List Expr) (s : σ), exprRefs (exprsMapQueriesM f es s).1 = exprRefs es
  | [], _ => rfl
  | e :: es, s => congrArg₂ (· ++ ·) (refs_mapQueriesM e s) (refs_exprsMapQueriesM es _)

theorem refs_keysMapQueriesM : ∀ (keys : List OrderKey) (s : σ), keyRefs (keysMapQueriesM f keys s).1 = keyRefs keys
  | [], _ => rfl
  | ⟨e, _⟩ :: keys, s => congrArg₂ (· ++ ·) (refs_mapQueriesM e s) (refs_keysMapQueriesM keys _)

end

theorem Passed.refs {e e' : Expr} (h : Expr.Passed f e e') : e'.refs = e.refs := by
  obtain ⟨s, rfl⟩ := h; exact refs_mapQueriesM e s

end Pass

end Expr

namespace Query

/-- The query outputs a column of this name, through a slot or its wildcard. -/
def Outputs (c : Query) (name : String) : Prop :=
  c.starred = true ∨ ∃ slot ∈ c.projection, slot.outputName = some name

/-- The same for a query that may be without projection: then it outputs all that its tables have. -/
def Offers (c : Query) (name : String) : Prop := c.projection = [] ∨ c.Outputs name

/-- A nested query among the tables, through joins, offers what is referred to. -/
def Answers (q : Query) (r : String × String) : Prop :=
  ∃ t ∈ q.tables, ∃ c ∈ t.query?, c.name = some r.1 ∧ c.Offers r.2

/-- All references in the expression are answered by `q`. -/
abbrev Answered (q : Query) (e : Expr) : Prop := ∀ r ∈ e.refs, q.Answers r

/-- No reference in the projection, the condition and the sort keys dangles. -/
structure Linked (q : Query) : Prop where
  slots : ∀ e ∈ q.projection, q.Answered e
  condition : ∀ e ∈ q.predicate, q.Answered e
  keys : ∀ k ∈ q.orderBy, q.Answered k.expr

/-- No reference dangles in the whole tree. -/
def Intact (q : Query) : Prop := ∀ x ∈ q.queries, x.Linked

section Decidability

variable (q : Query)

instance (name : String) : Decidable (q.Offers name) :=
  inferInstanceAs (Decidable (_ = [] ∨ _ = true ∨ ∃ slot ∈ q.projection, slot.outputName = some name))

instance (r : String × String) : Decidable (q.Answers r) :=
  inferInstanceAs (Decidable (∃ t ∈ q.tables, ∃ c ∈ t.query?, c.name = some r.1 ∧ c.Offers r.2))

instance : Decidable q.Linked :=
  decidable_of_iff ((∀ e ∈ q.projection, q.Answered e) ∧ (∀ e ∈ q.predicate, q.Answered e) ∧
    ∀ k ∈ q.orderBy, q.Answered k.expr) ⟨fun ⟨hs, hc, hk⟩ => ⟨hs, hc, hk⟩, fun ⟨hs, hc, hk⟩ => ⟨hs, hc, hk⟩⟩

instance : Decidable q.Intact := inferInstanceAs (Decidable (∀ x ∈ q.queries, x.Linked))

end Decidability

theorem intact_iff (q : Query) : q.Intact ↔ q.Linked ∧ q.Below Intact := forall_mem_queries

variable {t : String} {q p c n n' : Query} {copies added shown slots : List Expr} {rowNumber e e' : Expr}

theorem Answers.congr (ht : p.tables = q.tables) {r : String × String} (h : q.Answers r) : p.Answers r := by
  rw [Answers, ht]; exact h

/-- A query over a nested one answers for what this outputs. -/
theorem answers_of_nested {r : String × String} (hp : p.tables = [.nested c]) (hc : c.name = some t) (ht : r.1 = t)
    (h : c.Outputs r.2) : p.Answers r :=
  ⟨.nested c, by rw [hp]; exact List.mem_singleton_self _, c, rfl, by rw [hc, ht], .inr h⟩

/-! ## Numbering one query -/

theorem Reaches.outputs (h : Reaches t c e e') : ∃ name type, e' = .output t name type ∧ c.Outputs name := by
  cases h with
  | slot h =>
    obtain ⟨i, slot, name, hi, hname, rfl, -⟩ := h
    exact ⟨name, slot.type, rfl, .inr ⟨slot, List.mem_of_getElem? hi, hname⟩⟩
  | wildcard name type hs _ => exact ⟨name, type, rfl, .inl hs⟩

/-- Sort keys that are lifted in a push-down refer to what the nested query outputs. -/
theorem Moved.refs_keys (h : Moved t q p c copies added) {k : OrderKey} (hk : k ∈ p.orderBy) {r : String × String}
    (hr : r ∈ k.expr.refs) : r.1 = t ∧ c.Outputs r.2 := by
  obtain ⟨k', -, -, hreach⟩ := forall₂_mem_left h.keys.flip hk
  obtain ⟨m, type, heq, hout⟩ := hreach.outputs
  rw [heq, Expr.refs, List.mem_singleton] at hr
  subst hr
  exact ⟨rfl, hout⟩

/-- The tables answer for what comes down to them. -/
theorem Moved.linked (h : Moved t q p c copies added) (hq : q.Linked) (hm : ∀ m ∈ q.members, q.Answered m.2) :
    c.Linked := by
  have htables : c.tables = q.tables := by rw [h.child]
  obtain ⟨hslots, hkeys⟩ := h.inherits (Expr.refs_hereditary q.Answers) hq.slots hq.keys hm
  refine ⟨fun e he r hr => (hslots e he r hr).congr htables, fun e he r hr => ?_,
    fun k hk r hr => (hkeys k hk r hr).congr htables⟩
  rw [h.child] at he
  exact (hq.condition e he r hr).congr htables

/-- A wildcard that is expanded refers to columns that are shown. -/
theorem Fixed.refs (h : Fixed t shown slots) {e : Expr} (he : e ∈ slots) {r : String × String} (hr : r ∈ e.refs) :
    r.1 = t ∧ ∃ b ∈ shown, b.outputName = some r.2 := by
  obtain ⟨b, hb, heq⟩ := List.mem_map.1 (h.refers e he)
  rw [← Expr.refs_unnamed, ← heq, Expr.refs, List.mem_singleton] at hr
  subst hr
  obtain ⟨name, hname⟩ := Option.isSome_iff_exists.1 (h.named b hb)
  exact ⟨rfl, b, hb, by rw [hname]; rfl⟩

theorem outputs_of_mem_outputs {count : Option Nat} {b : Expr} {name : String} (hb : b ∈ c.outputs count)
    (hname : b.outputName = some name) : c.Outputs name := by
  unfold outputs at hb
  rcases List.mem_append.1 hb with hb | hb
  · refine .inr ⟨b, ?_, hname⟩
    cases count with
    | none => exact hb
    | some n => exact List.mem_of_mem_take hb
  · by_cases hs : c.starred = true
    · exact .inl hs
    · rw [if_neg hs] at hb; cases hb

theorem Isolated.intact (h : Isolated c n) (hc : c.Intact) (hm : c.members = []) : n.Intact := by
  cases h with
  | plain _ => exact hc
  | @distinct u m e copies added slots _ _ hmoved hfixed =>
    -- `e` is the DISTINCT query, moved down without its page; `m` over it has the page and no condition.
    rw [intact_iff] at hc
    have hunpaged : { c with limit := none, offset := none }.Linked := ⟨hc.1.slots, hc.1.condition, hc.1.keys⟩
    have hbelow : { c with limit := none, offset := none }.Below Intact := by
      have := hc.2
      rw [below_iff] at this ⊢
      exact ⟨this.1, this.2.1, this.2.2.1, this.2.2.2.1, by simp, by simp⟩
    have he : e.Intact := (intact_iff e).2
      ⟨hmoved.linked hunpaged (by simp [hm]), hmoved.below hbelow (by simp [hm])⟩
    have hname : e.name = some u := by rw [hmoved.child]
    have htables : { m with projection := slots, starred := false, limit := c.limit, offset := c.offset }.tables =
        [.nested e] := hmoved.passes.tables
    refine (intact_iff _).2 ⟨⟨fun slot hs r hr => ?_, fun x hx => ?_, fun k hk r hr => ?_⟩, ?_⟩
    · obtain ⟨hu, b, hb, hbname⟩ := hfixed.refs hs hr
      exact answers_of_nested htables hname hu (outputs_of_mem_outputs hb hbname)
    · change x ∈ m.predicate at hx
      rw [hmoved.passes.predicate] at hx; cases hx
    · obtain ⟨hu, hout⟩ := hmoved.refs_keys hk hr
      exact answers_of_nested htables hname hu hout
    · have hpaging := ((below_iff c).1 hc.2).2.2.2.2
      refine (below_iff _).2 ⟨fun x hx => ?_, hfixed.below, fun x hx => ?_, hmoved.below_keys, hpaging⟩
      · rw [htables, List.mem_singleton] at hx
        rw [hx]
        intro y hy; rw [List.mem_singleton.1 hy]; exact he
      · change x ∈ m.predicate at hx
        rw [hmoved.passes.predicate] at hx; cases hx

theorem Numbered.intact (h : Numbered t n n' added rowNumber)
    (hadded : ∀ slot ∈ added, slot.unnamed = .rowNumber (numberingKeys n.orderBy)) (hn : n.Intact) : n'.Intact := by
  rw [intact_iff] at hn ⊢
  have htables : n'.tables = n.tables := by rw [h.eq]
  have hslots := h.inherits (Expr.refs_hereditary n.Answers) hadded hn.1.slots hn.1.keys
  refine ⟨⟨fun e he r hr => (hslots e he r hr).congr htables, fun e he r hr => ?_, fun k hk => ?_⟩, h.below hadded hn.2⟩
  · rw [h.eq] at he
    exact (hn.1.condition e he r hr).congr htables
  · rw [h.eq] at hk; cases hk

/-! ## What is output -/

theorem Numbered.outputs (h : Numbered t n n' added rowNumber) {name : String} (hn : n.Outputs name) :
    n'.Outputs name := by
  rw [h.eq]
  exact hn.imp_right fun ⟨slot, hs, hname⟩ => ⟨slot, List.mem_append_left _ hs, hname⟩

theorem Isolated.outputs_wild (h : Isolated c n) (hd : c.distinct = false) (hs : c.starred = true) {name : String} :
    n.Outputs name := by
  cases h with
  | plain _ => exact .inl hs
  | distinct hdistinct _ _ _ => rw [hd] at hdistinct; cases hdistinct

/-- The slots of a DISTINCT query are paged, and the first ones under their names. -/
theorem Isolated.outputs_slot (h : Isolated c n) (hnamed : SlotsNamed c.projection) {slot : Expr} {name : String}
    (hs : slot ∈ c.projection) (hname : slot.outputName = some name) : n.Outputs name := by
  cases h with
  | plain _ => exact .inr ⟨slot, hs, hname⟩
  | @distinct u m e copies added slots _ _ hmoved hfixed =>
    have hcopies : copies = c.projection := hmoved.copies.unchanged hnamed
    have hslots : references u e.projection ⊆ slots := (hfixed.starts _ _ rfl hmoved.named).subset
    refine .inr ⟨.output u name slot.type, hslots (List.mem_map.2 ⟨slot, ?_, by rw [hname]; rfl⟩), rfl⟩
    rw [hmoved.projection, hcopies]
    exact List.mem_append_left _ hs

/-- So are the columns bound through its wildcard, if no slot is added that may have the name of one. -/
theorem Isolated.outputs_bound (h : Isolated c n) (hd : c.distinct = true) (hs : c.starred = true)
    (hm : c.members = []) (hnamed : SlotsNamed c.projection) (hdistinguished : Distinguished c.bound)
    (hshown : ∀ k ∈ c.orderBy, c.wildcardCovers k.expr = true ∨ c.covers k.expr = true) {b : Expr} {name : String}
    (hb : b ∈ c.bound) (hname : b.outputName = some name) : n.Outputs name := by
  cases h with
  | plain hplain => rw [hd] at hplain; cases hplain
  | @distinct u m e copies added slots _ hp hmoved hfixed =>
    have hwild : { c with limit := none, offset := none }.wild = true := by rw [wild, hs, Bool.true_or]
    have hadded : added = [] := hmoved.added_eq_nil_of_shown hp <| by
      rw [hm, List.map_nil, List.append_nil, List.forall_mem_map]
      exact fun k hk => (hshown k hk).symm.imp id fun hcovers => ⟨hwild, hcovers⟩
    have hcopies : copies = c.projection := hmoved.copies.unchanged hnamed
    have hoffered : e.outputs none = c.bound := by
      rw [hmoved.child, hadded, List.append_nil, hcopies, outputs, hwild]
      rfl
    rw [hoffered] at hfixed
    exact .inr ⟨.output u name b.type,
      hfixed.all hdistinguished (List.mem_map.2 ⟨b, hb, by rw [hname]; rfl⟩), rfl⟩

/-! ## What the pass asks of a query -/

/-- The pass leaves of the query's wildcard the columns that are bound. -/
def Expands (c : Query) : Prop := c.needsNumbering = true ∧ c.wild = true ∧ c.bound ≠ []

/-- If the wildcard is expanded, `name` is that of a column bound, without another to clash with. -/
def Retains (c : Query) (name : String) : Prop :=
  c.Expands → Distinguished c.bound ∧ ∃ b ∈ c.bound, b.outputName = some name

/-- The query offers `name`, and goes on to do so if its wildcard is expanded. -/
structure Lasts (c : Query) (name : String) : Prop where
  offers : c.Offers name
  retains : c.Retains name

/-- Nested queries retain all that is referred to. -/
def Definite (q : Query) : Prop :=
  ∀ e ∈ q.terms, ∀ r ∈ e.refs, ∀ t ∈ q.tables, ∀ c ∈ t.query?, c.name = some r.1 → c.Retains r.2

/-- What is moved when the rows are numbered has no reference that dangles: LIMIT and OFFSET have no
references, and members do as slots do. What is referred to of a DISTINCT query with a wildcard is among its slots
and the columns that are bound. -/
structure Fit (q : Query) : Prop where
  paging : ∀ e ∈ q.limit.toList ++ q.offset.toList, e.refs = []
  members : ∀ m ∈ q.members, q.Answered m.2 ∧ m.2.Below Intact
  distinct : q.distinct = true → q.wild = true → q.Enumerated

instance (q : Query) : Decidable q.Expands := inferInstanceAs (Decidable (_ ∧ _ ∧ ¬ q.bound = []))

instance (c : Query) (name : String) : Decidable (c.Retains name) := inferInstanceAs (Decidable (_ → _ ∧ _))

instance (q : Query) : Decidable q.Definite := inferInstanceAs (Decidable (∀ _ ∈ _, _))

instance (q : Query) : Decidable q.Fit :=
  decidable_of_iff ((∀ e ∈ q.limit.toList ++ q.offset.toList, e.refs = []) ∧
    (∀ m ∈ q.members, q.Answered m.2 ∧ ∀ c ∈ m.2.children, c.Intact) ∧
    (q.distinct = true → q.wild = true → q.Enumerated))
    ⟨fun ⟨hp, hm, hd⟩ => ⟨hp, hm, hd⟩, fun ⟨hp, hm, hd⟩ => ⟨hp, hm, hd⟩⟩

/-! ## One query -/

namespace Replacement

variable {r : Query} (w : Replacement q r)
include w

theorem answers {ref : String × String} (ht : ref.1 = w.t) (h : w.numbered.Outputs ref.2) : r.Answers ref := by
  have hname : w.numbered.name = some w.t := by rw [w.numbering.eq]; exact w.numbering.name
  exact answers_of_nested w.tables hname ht h

theorem intact_numbered (hq : q.Intact) (hm : ∀ m ∈ q.members, q.Answered m.2 ∧ m.2.Below Intact) :
    w.numbered.Intact := by
  obtain ⟨hlinked, hbelow⟩ := (intact_iff q).1 hq
  have hchild : w.child.Intact := (intact_iff w.child).2
    ⟨w.moved.linked hlinked fun m h => (hm m h).1, w.moved.below hbelow fun m h => (hm m h).2⟩
  exact w.numbering.intact w.numbersRows (w.isolated.intact hchild (by rw [w.moved.child]))

/-- The slots that are pushed down stay visible. -/
theorem outputs_slot {slot : Expr} {name : String} (hs : slot ∈ w.child.projection)
    (hname : slot.outputName = some name) : w.numbered.Outputs name :=
  w.numbering.outputs (w.isolated.outputs_slot w.moved.named hs hname)

/-- So does the wildcard, and under DISTINCT what is bound through it. -/
theorem outputs_wild (ho : q.offset.isSome = true) (hwild : q.wild = true) {name : String}
    (h : q.distinct = true → q.Enumerated ∧ ∃ b ∈ q.memo.entries, b.outputName = some name) :
    w.numbered.Outputs name := by
  have hchild := w.moved.child
  have hstarred : w.child.starred = true := by rw [hchild]; exact hwild
  refine w.numbering.outputs ?_
  cases hd : q.distinct with
  | false =>
    have hplain : w.child.distinct = false := by rw [hchild]; exact hd
    exact w.isolated.outputs_wild hplain hstarred
  | true =>
    obtain ⟨henumerated, b, hb, hname⟩ := h hd
    have hmemo : q.memo.entries ≠ [] := List.ne_nil_of_mem hb
    obtain ⟨hnamed, hdistinguished, hshown⟩ := henumerated.bound hmemo
    have hmoved : w.child = { q with name := some w.t, starred := true, members := [] } :=
      henumerated.moved hwild hmemo (.inr ho) w.pushed w.moved
    have hisolated := w.isolated
    rw [hmoved] at hisolated
    refine hisolated.outputs_bound hd rfl rfl hnamed hdistinguished (fun k hk => ?_) (List.mem_append_right _ hb) hname
    exact (hshown k.expr (List.mem_append_left _ (List.mem_map_of_mem hk))).imp_right And.right

/-- The output refers to copies of slots and to columns that are bound. -/
theorem refs_slots {e : Expr} (he : e ∈ r.projection) {ref : String × String} (hr : ref ∈ e.refs) :
    ref.1 = w.t ∧ ((∃ slot ∈ w.child.projection, slot.outputName = some ref.2) ∨
      q.wild = true ∧ ∃ b ∈ q.memo.entries, b.outputName = some ref.2) := by
  rcases w.output with ⟨hnil, -⟩ | ⟨-, hfixed⟩
  · rw [hnil] at he; cases he
  obtain ⟨ht, b, hb, hname⟩ := hfixed.refs he hr
  refine ⟨ht, ?_⟩
  rw [w.moved.outputs_eq] at hb
  rcases List.mem_append.1 hb with hb | hb
  · refine .inl ⟨b, ?_, hname⟩
    rw [w.moved.projection]
    exact List.mem_append_left _ hb
  · by_cases hwild : q.wild = true
    · rw [if_pos hwild] at hb
      exact .inr ⟨hwild, b, hb, hname⟩
    · rw [if_neg hwild] at hb; cases hb

/-- The sort keys, if any are left, refer to slots and to columns of the wildcard that have none. -/
theorem refs_keys {k : OrderKey} (hk : k ∈ r.orderBy) {ref : String × String} (hr : ref ∈ k.expr.refs) :
    ref.1 = w.t ∧ ((∃ slot ∈ w.child.projection, slot.outputName = some ref.2) ∨ q.wild = true ∧ q.name = none ∧
      ∃ k₀ ∈ q.orderBy, q.wildcardCovers k₀.expr = true ∧ q.covers k₀.expr = false ∧
        k₀.expr.unnamed.outputName = some ref.2) := by
  rw [w.orderBy] at hk
  split at hk
  · cases hk
  rename_i hunnamed
  have hname : q.name = none := by simpa using hunnamed
  obtain ⟨c, htables, hnamed⟩ := pushedDown_named w.pushed
  obtain rfl : c = w.child := nested_eq_of_tables htables w.moved.passes.tables
  -- The key is what one of `q` has been lifted to.
  have hlifted : List.Forall₂ (fun e e' => (e, e') ∈ q.lifted w.parent) (q.orderBy.map (·.expr))
      (w.parent.orderBy.map (·.expr)) :=
    List.forall₂_iff_zip.2 ⟨by simpa using w.moved.keys.length_eq, fun hmem => List.mem_append_left _ hmem⟩
  obtain ⟨e, he, hmem⟩ := forall₂_mem_left hlifted.flip (List.mem_map_of_mem hk)
  obtain ⟨k₀, hk₀, rfl⟩ := List.mem_map.1 he
  obtain ⟨name, type, heq, hcases⟩ := hnamed _ hmem
  change k.expr = .output w.t name type at heq
  rw [heq, Expr.refs, List.mem_singleton] at hr
  subst hr
  exact ⟨rfl, hcases.imp_right fun ⟨hwild, hcovers, hfree, hcolumn⟩ => ⟨hwild, hname, k₀, hk₀, hcovers, hfree, hcolumn⟩⟩

theorem linked (ho : q.offset.isSome = true) (hfit : q.Fit) : r.Linked := by
  have hanswered := Expr.refs_hereditary r.Answers
  have hrow : r.Answered w.rowNumber := by
    obtain ⟨i, slot, name, hi, hname, heq, -⟩ := w.numbering.column
    intro ref hr
    rw [heq, Expr.refs, List.mem_singleton] at hr
    rw [hr]
    exact w.answers rfl (.inr ⟨slot, List.mem_of_getElem? hi, hname⟩)
  -- Limit and offset become bounds of the enclosing query, where nothing lifts them.
  have hpaging : ∀ e ∈ q.limit.toList ++ q.offset.toList, r.Answered e := fun e he ref hr => by
    rw [hfit.paging e he] at hr; cases hr
  refine ⟨fun e he ref hr => ?_, ?_, fun k hk ref hr => ?_⟩
  · obtain ⟨ht, ⟨slot, hs, hname⟩ | ⟨hwild, hbound⟩⟩ := w.refs_slots he hr
    · exact w.answers ht (w.outputs_slot hs hname)
    · exact w.answers ht (w.outputs_wild ho hwild fun hd => ⟨hfit.distinct hd hwild, hbound⟩)
  · rw [w.predicate]
    refine (hanswered.conjunction _).2 ((hanswered.pagingBounds hrow ho).2 ⟨fun e he => ?_, fun e he => ?_⟩)
    · exact hpaging e (List.mem_append_left _ (Option.mem_toList.2 he))
    · exact hpaging e (List.mem_append_right _ (Option.mem_toList.2 he))
  · obtain ⟨ht, ⟨slot, hs, hname⟩ | ⟨hwild, hnone, k₀, hk₀, hcovers, hfree, hname⟩⟩ := w.refs_keys hk hr
    · exact w.answers ht (w.outputs_slot hs hname)
    · refine w.answers ht (w.outputs_wild ho hwild fun hd => ?_)
      have henumerated := hfit.distinct hd hwild
      rcases henumerated.sorted hnone k₀ hk₀ hcovers with hslot | hbound
      · rw [hfree] at hslot; cases hslot
      · rw [hname] at hbound
        exact ⟨henumerated, hbound⟩

/-- Numbering leaves no reference that dangles. -/
theorem intact (ho : q.offset.isSome = true) (hq : q.Intact) (hfit : q.Fit) : r.Intact := by
  have hpaging := ((Query.below_iff q).1 ((intact_iff q).1 hq).2).2.2.2.2
  exact (intact_iff r).2 ⟨w.linked ho hfit, (w.below_iff ho).2 ⟨w.intact_numbered hq hfit.members, hpaging⟩⟩

/-- What lasts in a query whose slots have names is still offered. -/
theorem offers (hneeds : q.needsNumbering = true) (hnamed : SlotsNamed q.projection) {name : String}
    (h : q.Lasts name) : r.Offers name := by
  rcases w.output with ⟨-, hs⟩ | ⟨-, hfixed⟩
  · exact .inr (.inl hs)
  have hcopies : w.copies = q.projection := w.moved.copies.unchanged hnamed
  rw [w.moved.outputs_eq, hcopies] at hfixed
  have hrefers {shown : List Expr} (hsub : references w.t shown ⊆ r.projection)
      (hmem : ∃ e ∈ shown, e.outputName = some name) : r.Offers name := by
    obtain ⟨e, he, hname⟩ := hmem
    exact .inr (.inr ⟨.output w.t name e.type, hsub (List.mem_map.2 ⟨e, he, by rw [hname]; rfl⟩), rfl⟩)
  cases hwild : q.wild with
  | false =>
    obtain ⟨hstarred, hprojection⟩ : q.starred = false ∧ q.projection ≠ [] := by simpa [wild] using hwild
    rw [hwild, if_neg Bool.false_ne_true, List.append_nil] at hfixed
    refine hrefers (by rw [hfixed.exact hnamed]; exact List.Subset.refl _) ?_
    rcases h.offers with hnil | hs | hslot
    · exact absurd hnil hprojection
    · rw [hstarred] at hs; cases hs
    · exact hslot
  | true =>
    rw [hwild, if_pos rfl] at hfixed
    by_cases hbound : q.bound = []
    · -- Nothing is bound, so the wildcard is expanded to no slots at all: an empty projection offers all names.
      left
      refine List.eq_nil_iff_forall_not_mem.2 fun slot hs => ?_
      have hmem := hfixed.refers slot hs
      rw [show q.projection ++ q.memo.entries = [] from hbound] at hmem
      cases hmem
    · obtain ⟨hd, hmem⟩ := h.retains ⟨hneeds, hwild, hbound⟩
      exact hrefers (hfixed.all hd) hmem

end Replacement

/-! ## Queries below -/

section Below

variable {σ : Type} {f : Query → StateM σ Query} {ok : σ → Prop} {q' : Query}

/-- What is below a query has no part in what it outputs, and in whether its wildcard is expanded. -/
theorem PassedBelow.lasts (h : PassedBelow f ok q q') {name : String} (hq : q.Lasts name) : q'.Lasts name := by
  have hstarred : q'.starred = q.starred := by rw [h.same]
  have hslots : q'.projection.map heading = q.projection.map heading :=
    map_eq_of_forall₂ (fun _ _ he => Prod.ext he.outputName he.type) h.projection
  have hbound := bound_headings h
  have hmem {es es' : List Expr} (heq : es'.map heading = es.map heading) :
      (∃ e ∈ es', e.outputName = some name) ↔ ∃ e ∈ es, e.outputName = some name := by
    have hfst (es : List Expr) : (∃ e ∈ es, e.outputName = some name) ↔
        some name ∈ (es.map heading).map Prod.fst := by simp [heading]
    rw [hfst, hfst, heq]
  have hnil {es es' : List Expr} (heq : es'.map heading = es.map heading) : es' = [] ↔ es = [] := by
    rw [← List.map_eq_nil_iff (f := heading), heq, List.map_eq_nil_iff]
  refine ⟨?_, fun ⟨hneeds, hwild, hb⟩ => ?_⟩
  · rw [Offers, Outputs, hnil hslots, hstarred, hmem hslots]; exact hq.offers
  · have hexpands : q.Expands := by
      refine ⟨h.needsNumbering ▸ hneeds, ?_, mt (hnil hbound).2 hb⟩
      rw [wild, Bool.or_eq_true, List.isEmpty_iff] at hwild ⊢
      rwa [hnil hslots, hstarred] at hwild
    obtain ⟨hd, hname⟩ := hq.retains hexpands
    exact ⟨hd.congr hbound, (hmem hbound).2 hname⟩

/-- What was answered is answered, by queries below that the pass has left as they should be. -/
theorem PassedBelow.answers (hback : ∀ q s, ok (f q s).2 → ok s) (h : PassedBelow f ok q q') (hq : q.Definite)
    (hchildren : ∀ c ∈ q.children, ∀ {c'}, Passed f ok c c' →
      c'.name = c.name ∧ (c.name.isSome = true → ∀ {name}, c.Lasts name → c'.Offers name))
    {e : Expr} (he : e ∈ q.terms) (hanswered : q.Answered e) : q'.Answered e := by
  intro r hr
  obtain ⟨t, ht, c, hc, hname, hoffers⟩ := hanswered r hr
  obtain ⟨t', ht', hpassed⟩ := forall₂_mem_left h.tables ht
  -- The query that answers is a child, and so has been treated before `q` is.
  have hmem : c ∈ q.children := List.mem_append_left _ (List.mem_flatMap.2 ⟨t, ht, Table.mem_children_of_query? hc⟩)
  have hrel := hpassed.query? hback
  rw [Option.mem_def.1 hc] at hrel
  generalize hc' : t'.query? = o at hrel
  cases hrel with
  | some hpassed =>
    obtain ⟨hname', hlasts⟩ := hchildren c hmem hpassed
    exact ⟨t', ht', _, hc', hname'.trans hname, hlasts (by rw [hname]; rfl) ⟨hoffers, hq e he r hr t ht c hc hname⟩⟩

theorem PassedBelow.linked (h : PassedBelow f ok q q') (hq : q.Linked)
    (hanswered : ∀ e ∈ q.terms, q.Answered e → q'.Answered e) : q'.Linked := by
  have hpassed {e e' : Expr} (he : Expr.Passed f e e') (hterm : e ∈ q.terms) (ha : q.Answered e) : q'.Answered e' := by
    rw [Answered, he.refs]; exact hanswered e hterm ha
  refine ⟨fun e' he' => ?_, fun e' he' => ?_, fun k' hk' => ?_⟩
  · obtain ⟨e, he, hp⟩ := forall₂_mem_left h.projection.flip he'
    exact hpassed hp (mem_terms.2 (.inl he)) (hq.slots e he)
  · obtain ⟨e, he, hp⟩ := forall₂_mem_left h.predicate.flip (Option.mem_toList.2 he')
    rw [Option.mem_toList] at he
    exact hpassed hp (mem_terms.2 (.inr (.inl he))) (hq.condition e he)
  · obtain ⟨e, he, hp⟩ := forall₂_mem_left h.orderBy.flip (List.mem_map_of_mem hk')
    obtain ⟨k, hk, rfl⟩ := List.mem_map.1 he
    exact hpassed hp (mem_terms.2 (.inr (.inr (.inl ⟨k, hk, rfl⟩)))) (hq.keys k hk)

theorem PassedBelow.fit {ok : PagingPass → Prop} (h : PassedBelow PagingPass.step ok q q') (hq : q.Fit)
    (hanswered : ∀ e ∈ q.terms, q.Answered e → q'.Answered e) : q'.Fit := by
  have hmembers : q'.members = q.members := by rw [h.same]
  have hstarred : q'.starred = q.starred := by rw [h.same]
  have hdistinct : q'.distinct = q.distinct := by rw [h.same]
  have hslots : q'.projection = [] ↔ q.projection = [] := by
    rw [← List.length_eq_zero_iff, ← h.projection.length_eq, List.length_eq_zero_iff]
  refine ⟨fun e' he' => ?_, fun m hm => ?_, ?_⟩
  · rcases List.mem_append.1 he' with he' | he'
    · obtain ⟨e, he, hp⟩ := forall₂_mem_left h.limit.flip he'
      rw [Expr.Passed.refs hp]; exact hq.paging e (List.mem_append_left _ he)
    · obtain ⟨e, he, hp⟩ := forall₂_mem_left h.offset.flip he'
      rw [Expr.Passed.refs hp]; exact hq.paging e (List.mem_append_right _ he)
  · rw [hmembers] at hm
    obtain ⟨ha, hb⟩ := hq.members m hm
    exact ⟨hanswered m.2 (mem_terms.2 (by tauto)) ha, hb⟩
  · have hwild : q'.wild = q.wild := by
      rw [Bool.eq_iff_iff, wild, wild, Bool.or_eq_true, Bool.or_eq_true, List.isEmpty_iff, List.isEmpty_iff, hslots,
        hstarred]
    rw [hdistinct, hwild]
    exact fun hd hw => h.enumerated (hq.distinct hd hw)

end Below

/-! ## The pass -/

/-- The pass leaves no reference that dangles, and tables that offer what was referred to. -/
theorem intact_of_passed (q : Query) : q.Sound →
    (∀ x ∈ q.queries, x.Linked ∧ x.Definite ∧ (x.needsNumbering = true → x.Fit)) → ∀ {r : Query},
    Passed PagingPass.step PagingPass.Goes q r →
      r.Intact ∧ r.name = q.name ∧ (q.name.isSome = true → ∀ {name}, q.Lasts name → r.Offers name) := by
  induction q using Query.induct with
  | h q ih =>
    intro hsound hq r h
    obtain ⟨q', hpassed, htreated⟩ := h.treated
    obtain ⟨⟨hlinked, hdefinite, hfit⟩, hbelow⟩ := forall_mem_queries.1 hq
    obtain ⟨horder, hsounds, -⟩ := (sound_iff q).1 hsound
    have hanswered : ∀ e ∈ q.terms, q.Answered e → q'.Answered e := fun e he =>
      hpassed.answers PagingPass.goes_back hdefinite
        (fun c hc _ hpassed => (ih c hc (hsounds c hc) (hbelow c hc) hpassed).2) he
    -- Only then is `q` itself treated, over children that are as they should be.
    have hintact : q'.Intact := (intact_iff q').2 ⟨hpassed.linked hlinked hanswered, fun c' hc' => by
      obtain ⟨c, hc, hp⟩ := forall₂_mem_left hpassed.children.flip hc'
      exact (ih c hc (hsounds c hc) (hbelow c hc) hp).1⟩
    have hname : q'.name = q.name := by rw [hpassed.same]
    cases htreated with
    | kept _ => exact ⟨hintact, hname, fun _ _ hlasts => (hpassed.lasts hlasts).offers⟩
    | replaced hneeds hd =>
      obtain ⟨w⟩ := Edit.replacement_of_ok hd
      have hoffset : q'.offset.isSome = true := (needsNumbering_iff.1 hneeds).1
      have hfit' : q'.Fit := hpassed.fit (hfit (hpassed.needsNumbering ▸ hneeds)) hanswered
      refine ⟨w.intact hoffset hintact hfit', w.name.trans hname, fun hn _ hlasts => ?_⟩
      exact w.offers hneeds ((orderly_local.passedBelow hpassed horder).slots (hname ▸ hn)) (hpassed.lasts hlasts)

end Query

/-- References that a composed tree answers it still answers after a pass that succeeds, as long as
those to a wildcard that the pass expands name columns bound there, and what is moved has no reference
that dangles. -/
theorem replacePaging_linked {dialect : Dialect} {named n : Nat} {q : Query} {s : Session} (hq : q.Composed)
    (hlinked : ∀ x, .enter x ∈ q.events none → x.Linked) (hdefinite : ∀ x, .enter x ∈ q.events none → x.Definite)
    (hfit : ∀ x, .enter x ∈ q.events none → x.needsNumbering = true → x.Fit)
    (h : (dialect.replacePaging named q s).result = .ok n) :
    ∀ x, .enter x ∈ (dialect.replacePaging named q s).query.events none → x.Linked := by
  simp only [Query.enter_mem_events] at hlinked hdefinite hfit ⊢
  by_cases hd : dialect.hasOffset = false ∧ dialect.hasWindows = true
  · exact (q.intact_of_passed hq.sound (fun x hx => ⟨hlinked x hx, hdefinite x hx, hfit x hx⟩)
      (Dialect.passed_of_ok hd.1 hd.2 h)).1
  · -- Any other dialect has no need of the pass.
    have hskip : (dialect.hasOffset || !dialect.hasWindows) = true := by
      revert hd; cases dialect.hasOffset <;> cases dialect.hasWindows <;> simp
    rw [Dialect.replacePaging, if_pos hskip]
    exact hlinked

/-- A page of different people over another such page: the identifier, which both are sorted by, is bound through
both wildcards. -/
theorem replacePaging_linked_over_wildcard :
    let inner := Expr.column "p" (some ⟨1⟩) "Id" .int32
    let outer := Expr.output "t" "Id" .int32
    let people : Query := {
      tables := [.base "People" none "p" (some ⟨1⟩)]
      orderBy := [⟨inner, .asc⟩]
      offset := some (.int 3)
      distinct := true
      name := some "t"
      starred := true
      memo := { entries := [inner] } }
    let q : Query := {
      tables := [.nested people]
      orderBy := [⟨outer, .desc⟩]
      offset := some (.int 1)
      distinct := true
      starred := true
      memo := { entries := [outer] } }
    let r := Dialect.withoutOffset.replacePaging 0 q {}
    q.Composed ∧ (∀ x, .enter x ∈ q.events none → x.Linked) ∧ (∀ x, .enter x ∈ q.events none → x.Definite) ∧
      (∀ x, .enter x ∈ q.events none → x.needsNumbering = true → x.Fit) ∧ r.result = .ok 2 ∧
      ∀ x, .enter x ∈ r.query.events none → x.Linked := by
  intro inner outer people q r
  have hpeople : Query.Composed { people with memo := {} } :=
    (Query.Composed.fresh (some "t")).apply (.appendTable (.base "People" none "p" (some ⟨1⟩)))
      |>.apply (.switchWildcard true)
      |>.apply (.orderAlso ⟨inner, .asc⟩)
      |>.apply (.distinctRows true)
      |>.apply (.startAfter (some (.int 3)))
  have hbound : Query.Composed { tables := [.nested people], starred := true, memo := { entries := [outer] } } :=
    (Query.Composed.fresh none).applyTo (.appendTable (.nested { people with memo := {} })) hpeople
      |>.apply (.switchWildcard true)
      |>.apply (.resolveColumn {} "Id" .int32 ⟨1⟩)
  have hq : q.Composed := hbound.apply (.orderAlso ⟨outer, .desc⟩)
    |>.apply (.distinctRows true)
    |>.apply (.startAfter (some (.int 1)))
  have hrun : r.result = .ok 2 := by decide +kernel
  have hlinked : ∀ x, .enter x ∈ q.events none → x.Linked := by simp only [Query.enter_mem_events]; decide +kernel
  have hdefinite : ∀ x, .enter x ∈ q.events none → x.Definite := by simp only [Query.enter_mem_events]; decide +kernel
  have hfit : ∀ x, .enter x ∈ q.events none → x.needsNumbering = true → x.Fit := by
    simp only [Query.enter_mem_events]; decide +kernel
  exact ⟨hq, hlinked, hdefinite, hfit, hrun, replacePaging_linked hq hlinked hdefinite hfit hrun⟩

/-- A DISTINCT query with a wildcard, in some order: the wildcard below the page is lost, and the sort key
goes on to refer to a column of it. -/
theorem replacePaging_unlinks_sort_key :
    let q : Query := {
      tables := [.base "People" none "p" (some ⟨1⟩)]
      orderBy := [⟨.column "p" (some ⟨1⟩) "Name" .text, .asc⟩]
      offset := some (.int 2)
      distinct := true
      starred := true }
    let r := Dialect.withoutOffset.replacePaging 0 q {}
    q.Composed ∧ (∀ x, .enter x ∈ q.events none → x.Linked) ∧ r.result = .ok 1 ∧
      ¬ ∀ x, .enter x ∈ r.query.events none → x.Linked := by
  intro q r
  have hq : q.Composed := (Query.Composed.fresh none).apply (.appendTable (.base "People" none "p" (some ⟨1⟩)))
    |>.apply (.switchWildcard true)
    |>.apply (.orderAlso ⟨.column "p" (some ⟨1⟩) "Name" .text, .asc⟩)
    |>.apply (.distinctRows true)
    |>.apply (.startAfter (some (.int 2)))
  simp only [Query.enter_mem_events]
  exact ⟨hq, by decide +kernel⟩

end QueryTree
