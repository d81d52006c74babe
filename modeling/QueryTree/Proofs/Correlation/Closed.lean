/-
Trees from which no reference leads out, past given scopes, and what becomes of them when one query is
pushed down or has its paging replaced. Expressions move below a new query, which finds all that the
old one did, and what is written anew refers to the query that they have moved to.
-/
import QueryTree.Proofs.Correlation.Search
import QueryTree.Proofs.Paging.Placement

namespace QueryTree

/-! ## Queries that find more -/

/-- `u` serves and mentions what `t` does. -/
structure Table.Subsumes (u t : Table) : Prop where
  serves : ∀ s, t.serves s = true → u.serves s = true
  mentions : ∀ name, t.mentions name = true → u.mentions name = true

theorem Table.Subsumes.refl (t : Table) : t.Subsumes t := ⟨fun _ => id, fun _ => id⟩

/-- `p` serves and mentions what `q` does. -/
structure Query.Subsumes (p q : Query) : Prop where
  serves : ∀ s, q.serves s = true → p.serves s = true
  mentions : ∀ name, q.mentions name = true → p.mentions name = true

namespace Query.Subsumes

variable {p q r c : Query}

theorem trans (h : r.Subsumes p) (h' : p.Subsumes q) : r.Subsumes q :=
  ⟨fun s hs => h.serves s (h'.serves s hs), fun name hn => h.mentions name (h'.mentions name hn)⟩

theorem of_tables (h : ∀ t ∈ q.tables, ∃ u ∈ p.tables, u.Subsumes t) : p.Subsumes q := by
  refine ⟨fun s hs => ?_, fun name hn => ?_⟩
  · rw [serves_eq_any, List.any_eq_true] at hs ⊢
    obtain ⟨t, ht, hs⟩ := hs
    obtain ⟨u, hu, hut⟩ := h t ht
    exact ⟨u, hu, hut.serves s hs⟩
  · rw [mentions_eq_any, List.any_eq_true] at hn ⊢
    obtain ⟨t, ht, hn⟩ := hn
    obtain ⟨u, hu, hut⟩ := h t ht
    exact ⟨u, hu, hut.mentions name hn⟩

theorem of_eq (h : p.tables = q.tables) : p.Subsumes q := of_tables fun t ht => ⟨t, h ▸ ht, .refl t⟩

/-- A query over a nested one finds what this does. -/
theorem of_nested (hp : p.tables = [.nested c]) (h : c.Subsumes q) : p.Subsumes q := by
  refine ⟨fun s hs => ?_, fun name hn => ?_⟩
  · simpa [serves_eq_any, hp, Table.serves] using h.serves s hs
  · have hc := h.mentions name hn
    simp [mentions_eq_any name p, hp, Table.mentions, hc]

theorem finds (h : p.Subsumes q) {e : Expr} (he : q.Finds e) : p.Finds e := by
  rw [← provides_iff] at he ⊢
  cases e with
  | column table source name type =>
    rw [provides, Bool.or_eq_true, Option.any_eq_true] at he ⊢
    exact he.imp (Exists.imp fun s => And.imp_right (h.serves s)) (h.mentions table)
  | output query name type => exact h.mentions query he
  | star table => exact h.mentions table he
  | _ => rfl

end Query.Subsumes

theorem Query.finds_output {p c : Query} {t : String} (hp : p.tables = [.nested c]) (hc : c.name = some t)
    (name : String) (type : DataType) : p.Finds (.output t name type) :=
  ⟨.nested c, by rw [hp]; exact List.mem_singleton_self _, by simp [Table.mentions, hc]⟩

/-- What one of the scopes finds one of the others does. -/
def ScopesSubsume (scopes' scopes : List Query) : Prop := ∀ e : Expr, e.Unresolved scopes' → e.Unresolved scopes

namespace ScopesSubsume

variable {p q : Query} {scopes scopes' : List Query}

theorem refl (scopes : List Query) : ScopesSubsume scopes scopes := fun _ => id

theorem cons (hp : p.Subsumes q) (h : ScopesSubsume scopes' scopes) : ScopesSubsume (p :: scopes') (q :: scopes) := by
  rintro e ⟨href, hout⟩
  rw [List.forall_mem_cons] at hout
  obtain ⟨-, hscopes⟩ := h e ⟨href, hout.2⟩
  exact ⟨href, List.forall_mem_cons.2 ⟨fun hq => hout.1 (hp.finds hq), hscopes⟩⟩

theorem skip (p : Query) (h : ScopesSubsume scopes' scopes) : ScopesSubsume (p :: scopes') scopes :=
  fun e ⟨href, hout⟩ => h e ⟨href, (List.forall_mem_cons.1 hout).2⟩

theorem under (h : ScopesSubsume scopes' scopes) : ∀ chain : List Query,
    ScopesSubsume (chain ++ scopes') (chain ++ scopes)
  | [] => h
  | _ :: chain => (under h chain).cons (.of_eq rfl)

end ScopesSubsume

/-! ## Closed trees -/

/-- What the queries around it find is all that the tree needs. -/
def Query.ClosedIn (scopes : List Query) (q : Query) : Prop := ¬q.LeadsOut scopes

def Table.ClosedIn (scopes : List Query) (t : Table) : Prop := ¬t.LeadsOut scopes

def Expr.ClosedIn (scopes : List Query) (e : Expr) : Prop := ¬e.LeadsOut scopes

section ClosedIn

variable {p q : Query} {scopes scopes' : List Query}

theorem Query.ClosedIn.mono (h : ScopesSubsume scopes' scopes) (hq : q.ClosedIn scopes) : q.ClosedIn scopes' :=
  fun ⟨e, chain, hoccurs, hout⟩ => hq ⟨e, chain, hoccurs, h.under chain e hout⟩

theorem Expr.ClosedIn.mono (h : ScopesSubsume scopes' scopes) {e : Expr} (he : e.ClosedIn scopes) :
    e.ClosedIn scopes' := by
  rintro (⟨x, hx, hout⟩ | ⟨c, hc, hout⟩)
  · exact he (.inl ⟨x, hx, h x hout⟩)
  · exact Query.ClosedIn.mono h (fun hc' => he (.inr ⟨c, hc, hc'⟩)) hout

theorem Table.ClosedIn.mono (h : ScopesSubsume scopes' scopes) {t : Table} (ht : t.ClosedIn scopes) :
    t.ClosedIn scopes' := by
  rintro (⟨e, he, x, hx, hout⟩ | ⟨c, hc, hout⟩)
  · exact ht (.inl ⟨e, he, x, hx, h x hout⟩)
  · exact Query.ClosedIn.mono h (fun hc' => ht (.inr ⟨c, hc, hc'⟩)) hout

theorem Expr.closedIn_iff {e : Expr} : e.ClosedIn scopes ↔ ¬e.Unresolved scopes ∧
    (∀ o ∈ e.operands, o.ClosedIn scopes) ∧ ∀ q, e = .exist q → q.ClosedIn scopes := by
  rw [ClosedIn, leadsOut_iff]
  simp only [not_or, not_exists, not_and, Query.ClosedIn, ClosedIn]

theorem Table.closedIn_nested : (Table.nested q).ClosedIn scopes ↔ q.ClosedIn scopes :=
  not_congr Table.leadsOut_nested

theorem Query.closedIn_iff : q.ClosedIn scopes ↔
    (∀ e ∈ q.projection, e.ClosedIn (q :: scopes)) ∧ (∀ t ∈ q.tables, t.ClosedIn (q :: scopes)) ∧
      (∀ e ∈ q.predicate, e.ClosedIn (q :: scopes)) ∧ (∀ k ∈ q.orderBy, k.expr.ClosedIn (q :: scopes)) ∧
        (∀ e ∈ q.limit, e.ClosedIn (q :: scopes)) ∧ ∀ e ∈ q.offset, e.ClosedIn (q :: scopes) := by
  rw [ClosedIn, leadsOut_iff_parts]
  simp only [not_or, not_exists, not_and, Table.ClosedIn, Expr.ClosedIn]

/-- The parts of a closed query are closed in all scopes with one that finds as much. -/
theorem Query.ClosedIn.parts (hq : q.ClosedIn scopes) (h : ScopesSubsume scopes' (q :: scopes)) :
    (∀ e ∈ q.projection, e.ClosedIn scopes') ∧ (∀ t ∈ q.tables, t.ClosedIn scopes') ∧
      (∀ e ∈ q.predicate, e.ClosedIn scopes') ∧ (∀ k ∈ q.orderBy, k.expr.ClosedIn scopes') ∧
        (∀ e ∈ q.limit, e.ClosedIn scopes') ∧ ∀ e ∈ q.offset, e.ClosedIn scopes' := by
  obtain ⟨hslots, htables, hpred, hkeys, hlimit, hoffset⟩ := closedIn_iff.1 hq
  exact ⟨fun e he => (hslots e he).mono h, fun t ht => (htables t ht).mono h, fun e he => (hpred e he).mono h,
    fun k hk => (hkeys k hk).mono h, fun e he => (hlimit e he).mono h, fun e he => (hoffset e he).mono h⟩

namespace Expr

theorem closedIn_unnamed : ∀ e : Expr, e.unnamed.ClosedIn scopes ↔ e.ClosedIn scopes
  | .named name inner => by
    rw [unnamed, closedIn_unnamed inner, closedIn_iff (e := .named name inner)]
    simp [Unresolved, isReference, operands]
  | .column .. | .star _ | .output .. | .constant .. | .parameter .. | .rowNumber _ | .cast .. | .binary ..
  | .not _ | .call .. | .exist _ => Iff.rfl

theorem closedIn_stripCasts (e : Expr) : e.stripCasts.ClosedIn scopes ↔ e.ClosedIn scopes := by
  induction e using stripCasts.induct with
  | case1 operand t h ih =>
    rw [stripCasts, if_pos h, ih, closedIn_iff (e := .cast operand t)]
    simp [Unresolved, isReference, operands]
  | case2 operand t h => rw [stripCasts, if_neg h]
  | case3 e h => cases e <;> first | exact Iff.rfl | exact absurd rfl (h _ _)

theorem closedIn_hereditary (scopes : List Query) : Hereditary (ClosedIn scopes) where
  unnamed := closedIn_unnamed
  stripCasts := closedIn_stripCasts
  rowNumber keys := by rw [closedIn_iff]; simp [Unresolved, isReference, operands]
  binary op a b := by rw [closedIn_iff]; simp [Unresolved, isReference, operands]
  constant v type := by rw [closedIn_iff]; simp [Unresolved, isReference, operands]

theorem closedIn_output {t name : String} {type : DataType} (h : p.Finds (.output t name type)) :
    (output t name type).ClosedIn (p :: scopes) := by
  rw [closedIn_iff]
  refine ⟨fun hout => hout.2 p (List.mem_cons_self ..) h, by simp [operands], ?_⟩
  rintro q ⟨⟩

end Expr

end ClosedIn

/-! ## Rewriting one query -/

namespace Query

variable {t : String} {q p c n n' : Query} {copies added shown slots : List Expr} {rowNumber : Expr}
  {scopes : List Query}

/-- What goes down finds the tables where it comes to. -/
theorem Moved.closed_child (h : Moved t q p c copies added) (hm : q.members = []) (hq : q.ClosedIn scopes) (x : Query) :
    c.ClosedIn (x :: scopes) := by
  have hsub : ScopesSubsume (c :: x :: scopes) (q :: scopes) :=
    ((ScopesSubsume.refl scopes).skip x).cons (.of_eq (by rw [h.child]))
  obtain ⟨hslots, htables, hpred, hkeys, hlimit, hoffset⟩ := hq.parts hsub
  obtain ⟨hslots', hkeys'⟩ := h.inherits (Expr.closedIn_hereditary _) hslots hkeys (by simp [hm])
  rw [closedIn_iff]
  generalize c :: x :: scopes = scopes' at htables hpred hlimit hoffset hslots' hkeys' ⊢
  refine ⟨hslots', ?_, ?_, hkeys', ?_, ?_⟩ <;> rw [h.child] <;> assumption

theorem Moved.closed_keys (h : Moved t q p c copies added) (hn : n.tables = [.nested n']) (hname : n'.name = some t) :
    ∀ k ∈ p.orderBy, k.expr.ClosedIn (n :: scopes) := fun k hk => by
  obtain ⟨name, type, heq⟩ := h.keys_output hk
  rw [heq]
  exact Expr.closedIn_output (finds_output hn hname name type)

theorem Moved.closed (h : Moved t q p c copies added) (hm : q.members = []) (hq : q.ClosedIn scopes) :
    p.ClosedIn scopes := by
  have hc := h.closed_child hm hq p
  rw [closedIn_iff, h.passes.projection, h.passes.tables, h.passes.predicate]
  refine ⟨by simp, by simpa [Table.closedIn_nested] using hc, by simp, h.closed_keys h.passes.tables h.passes.name,
    ?_, ?_⟩ <;>
    rw [h.parent] <;> simp

theorem Fixed.closed (h : Fixed t shown slots) (hn : n.tables = [.nested n']) (hname : n'.name = some t) :
    ∀ e ∈ slots, e.ClosedIn (n :: scopes) := fun e he => by
  obtain ⟨b, -, heq⟩ := List.mem_map.1 (h.refers e he)
  rw [← Expr.closedIn_unnamed, ← heq]
  exact Expr.closedIn_output (finds_output hn hname _ _)

theorem Isolated.subsumes (h : Isolated c n) : n.Subsumes c := by
  cases h with
  | plain _ => exact .of_eq rfl
  | distinct _ _ hmoved _ => exact .of_nested hmoved.passes.tables (.of_eq (by rw [hmoved.child]))

/-- Of a DISTINCT query the columns are found in the query below, and the page goes where all is found
that was before. -/
theorem Isolated.closed (h : Isolated c n) (hm : c.members = []) (hc : c.ClosedIn scopes) : n.ClosedIn scopes := by
  have hsubsumes := h.subsumes
  cases h with
  | plain _ => exact hc
  | @distinct u m e copies added slots _ _ hmoved hfixed =>
    set n : Query := { m with projection := slots, starred := false, limit := c.limit, offset := c.offset }
    have hunpaged : { c with limit := none, offset := none }.ClosedIn scopes := by
      obtain ⟨hslots, htables, hpred, hkeys, -, -⟩ := hc.parts ((ScopesSubsume.refl scopes).cons (.of_eq rfl) :
        ScopesSubsume ({ c with limit := none, offset := none } :: scopes) (c :: scopes))
      exact closedIn_iff.2 ⟨hslots, htables, hpred, hkeys, by simp, by simp⟩
    have he : e.ClosedIn (n :: scopes) := hmoved.closed_child hm hunpaged n
    have htables : n.tables = [.nested e] := hmoved.passes.tables
    obtain ⟨-, -, -, -, hlimit, hoffset⟩ := hc.parts ((ScopesSubsume.refl scopes).cons hsubsumes)
    refine closedIn_iff.2 ⟨hfixed.closed htables hmoved.passes.name, ?_, fun x hx => ?_,
      hmoved.closed_keys htables hmoved.passes.name, hlimit, hoffset⟩
    · rw [htables, List.forall_mem_singleton, Table.closedIn_nested]
      exact he
    · change x ∈ m.predicate at hx
      rw [hmoved.passes.predicate] at hx
      cases hx

theorem Numbered.subsumes (h : Numbered t n n' added rowNumber) : n'.Subsumes n := .of_eq (by rw [h.eq])

theorem Numbered.closed (h : Numbered t n n' added rowNumber)
    (hadded : ∀ slot ∈ added, slot.unnamed = .rowNumber (numberingKeys n.orderBy)) (hn : n.ClosedIn scopes) :
    n'.ClosedIn scopes := by
  obtain ⟨hslots, htables, hpred, hkeys, -, -⟩ := hn.parts ((ScopesSubsume.refl scopes).cons h.subsumes)
  refine closedIn_iff.2 ⟨h.inherits (Expr.closedIn_hereditary _) hadded hslots hkeys, ?_, ?_, ?_, ?_, ?_⟩
  · intro t ht; exact htables t (by rw [h.eq] at ht; exact ht)
  · intro e he; exact hpred e (by rw [h.eq] at he; exact he)
  all_goals rw [h.eq]; simp

namespace Replacement

variable {r : Query}

theorem name_numbered (w : Replacement q r) : w.numbered.name = some w.t := by
  rw [w.numbering.eq]; exact w.numbering.name

theorem subsumes (w : Replacement q r) : r.Subsumes q :=
  .of_nested w.tables <| w.numbering.subsumes.trans <| w.isolated.subsumes.trans <| .of_eq (by rw [w.moved.child])

/-- What is left of the paging are bounds over the numbered query, which is found there. -/
theorem closed (w : Replacement q r) (ho : q.offset.isSome = true) (hm : q.members = []) (hq : q.ClosedIn scopes) :
    r.ClosedIn scopes := by
  have hnumbered : w.numbered.ClosedIn (r :: scopes) :=
    w.numbering.closed w.numbersRows (w.isolated.closed (by rw [w.moved.child]) (w.moved.closed_child hm hq r))
  obtain ⟨-, -, -, -, hlimit, hoffset⟩ := hq.parts ((ScopesSubsume.refl scopes).cons w.subsumes)
  have hrow : w.rowNumber.ClosedIn (r :: scopes) := by
    obtain ⟨i, slot, name, -, -, heq, -⟩ := w.numbering.column
    rw [heq]
    exact Expr.closedIn_output (finds_output w.tables w.name_numbered name _)
  refine closedIn_iff.2 ⟨?_, ?_, ?_, ?_, by simp [w.limit], by simp [w.offset]⟩
  · rcases w.output with ⟨hnil, -⟩ | ⟨-, hfixed⟩
    · simp [hnil]
    · exact hfixed.closed w.tables w.name_numbered
  · rw [w.tables, List.forall_mem_singleton, Table.closedIn_nested]
    exact hnumbered
  · rw [w.predicate, (Expr.closedIn_hereditary _).conjunction, (Expr.closedIn_hereditary _).pagingBounds hrow ho]
    exact ⟨hlimit, hoffset⟩
  · rw [w.orderBy]
    split
    · simp
    · exact w.moved.closed_keys w.tables w.name_numbered

end Replacement

end Query

end QueryTree
