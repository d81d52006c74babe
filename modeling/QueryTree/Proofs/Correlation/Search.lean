/-
The search for references that lead out of a tree. The walk keeps the enclosing queries on a stack and
stops at the first such reference; the specification says where references stand and which queries
enclose them, and knows neither of a stack nor of an order.
-/
import QueryTree.Proofs.Children
import QueryTree.Scope

namespace QueryTree

/-! ## What a query finds -/

/-- One of the tables is what a reference refers to: for a column it satisfies the query source, or is
or contains what has the name; for other references it is or contains what has the name. -/
def Query.Finds (q : Query) : Expr → Prop
  | .column table source _ _ =>
    (∃ s ∈ source, ∃ t ∈ q.tables, t.serves s = true) ∨ ∃ t ∈ q.tables, t.mentions table = true
  | .output query _ _ => ∃ t ∈ q.tables, t.mentions query = true
  | .star table => ∃ t ∈ q.tables, t.mentions table = true
  | _ => True

theorem Query.provides_iff {q : Query} {e : Expr} : q.provides e = true ↔ q.Finds e := by
  have hmentions (name : String) : q.mentions name = true ↔ ∃ t ∈ q.tables, t.mentions name = true := by
    rw [mentions_eq_any, List.any_eq_true]
  cases e with
  | column table source name type =>
    rw [provides, Finds, Bool.or_eq_true, hmentions, Option.any_eq_true]
    simp only [serves_eq_any, List.any_eq_true, Option.mem_def]
  | output query name type => exact hmentions query
  | star table => exact hmentions table
  | _ => exact iff_of_true rfl trivial

/-! ## Where expressions stand -/

/-- The conditions of the joins in an entry of a FROM list. -/
def Table.conditions : Table → List Expr
  | .base _ _ _ _ | .nested _ => []
  | .join _ target condition => target.conditions ++ condition.toList

/-- All places of a query where an expression stands. -/
def Query.slots (q : Query) : List Expr := q.tables.flatMap Table.conditions ++ q.exprs

/-- `x` is `e` or stands in one of its operands. -/
inductive Expr.PartOf (x : Expr) : Expr → Prop
  | self : PartOf x x
  | operand {e o : Expr} : o ∈ e.operands → PartOf x o → PartOf x e

/-- `e` stands in a tree. The queries that enclose it, from the one in whose slot it is to the root,
are `chain`. -/
inductive Query.Occurs (e : Expr) : List Query → Query → Prop
  | here {q : Query} {slot : Expr} : slot ∈ q.slots → e.PartOf slot → Occurs e [q] q
  | deeper {q c : Query} {chain : List Query} : c ∈ q.children → Occurs e chain c → Occurs e (chain ++ [q]) q

/-! ## References that lead out -/

/-- A reference that none of the scopes finds. -/
def Expr.Unresolved (scopes : List Query) (e : Expr) : Prop :=
  e.isReference = true ∧ ∀ scope ∈ scopes, ¬scope.Finds e

/-- A reference in the tree is found neither within it nor by the scopes around it. -/
def Query.LeadsOut (scopes : List Query) (q : Query) : Prop :=
  ∃ e chain, q.Occurs e chain ∧ e.Unresolved (chain ++ scopes)

/-- The same for an expression with the queries under EXISTS in it. -/
def Expr.LeadsOut (scopes : List Query) (e : Expr) : Prop :=
  (∃ x : Expr, x.PartOf e ∧ x.Unresolved scopes) ∨ ∃ c ∈ e.children, c.LeadsOut scopes

/-- The same for the joins and the nested query of a table. -/
def Table.LeadsOut (scopes : List Query) (t : Table) : Prop :=
  (∃ e ∈ t.conditions, ∃ x : Expr, x.PartOf e ∧ x.Unresolved scopes) ∨ ∃ c ∈ t.children, c.LeadsOut scopes

section LeadsOut

variable {scopes : List Query}

theorem Expr.partOf_iff {x e : Expr} : x.PartOf e ↔ x = e ∨ ∃ o ∈ e.operands, x.PartOf o := by
  constructor
  · rintro (_ | ⟨ho, hx⟩)
    · exact .inl rfl
    · exact .inr ⟨_, ho, hx⟩
  · rintro (rfl | ⟨o, ho, hx⟩)
    · exact .self
    · exact .operand ho hx

/-- A query leads out where a slot of it does, or a query right below. -/
theorem Query.leadsOut_iff {q : Query} : q.LeadsOut scopes ↔
    (∃ slot ∈ q.slots, ∃ x : Expr, x.PartOf slot ∧ x.Unresolved (q :: scopes)) ∨
      ∃ c ∈ q.children, c.LeadsOut (q :: scopes) := by
  constructor
  · rintro ⟨e, chain, hoccurs | ⟨hc, hoccurs⟩, hout⟩
    · exact .inl ⟨_, ‹_›, e, ‹_›, hout⟩
    · rw [List.append_assoc] at hout
      exact .inr ⟨_, hc, e, _, hoccurs, hout⟩
  · rintro (⟨slot, hslot, x, hx, hout⟩ | ⟨c, hc, e, chain, hoccurs, hout⟩)
    · exact ⟨x, [q], .here hslot hx, hout⟩
    · refine ⟨e, chain ++ [q], .deeper hc hoccurs, ?_⟩
      rw [List.append_assoc]
      exact hout

theorem exists_mem_flatMap {α β : Type} {f : α → List β} {P : β → Prop} {as : List α} :
    (∃ b ∈ as.flatMap f, P b) ↔ ∃ a ∈ as, ∃ b ∈ f a, P b := by
  simp only [List.mem_flatMap]
  constructor
  · rintro ⟨b, ⟨a, ha, hb⟩, h⟩
    exact ⟨a, ha, b, hb, h⟩
  · rintro ⟨a, ha, b, hb, h⟩
    exact ⟨b, ⟨a, ha, hb⟩, h⟩

/-- An expression leads out where it does itself, or one of its operands, or the query under it. -/
theorem Expr.leadsOut_iff {e : Expr} : e.LeadsOut scopes ↔ e.Unresolved scopes ∨
    (∃ o ∈ e.operands, o.LeadsOut scopes) ∨ ∃ q, e = .exist q ∧ q.LeadsOut scopes := by
  have hself : (∃ x : Expr, x.PartOf e ∧ x.Unresolved scopes) ↔
      e.Unresolved scopes ∨ ∃ o ∈ e.operands, ∃ x : Expr, x.PartOf o ∧ x.Unresolved scopes := by
    constructor
    · rintro ⟨x, hx, hout⟩
      rcases partOf_iff.1 hx with rfl | ⟨o, ho, hx⟩
      · exact .inl hout
      · exact .inr ⟨o, ho, x, hx, hout⟩
    · rintro (hout | ⟨o, ho, x, hx, hout⟩)
      · exact ⟨e, .self, hout⟩
      · exact ⟨x, .operand ho hx, hout⟩
  have hchildren : (∃ c ∈ e.children, c.LeadsOut scopes) ↔
      (∃ o ∈ e.operands, ∃ c ∈ o.children, c.LeadsOut scopes) ∨ ∃ q, e = .exist q ∧ q.LeadsOut scopes := by
    cases e <;>
      simp [Expr.children, Expr.operands, exists_mem_flatMap, or_and_right, exists_or, -List.mem_flatMap]
  simp only [LeadsOut, and_or_left, exists_or]
  rw [hself, hchildren]
  exact iff_of_eq (by ac_rfl)

theorem Table.leadsOut_join {kind : JoinKind} {target : Table} {condition : Option Expr} :
    (join kind target condition).LeadsOut scopes ↔
      target.LeadsOut scopes ∨ ∃ e ∈ condition, e.LeadsOut scopes := by
  simp only [LeadsOut, conditions, children, Expr.LeadsOut, List.mem_append, or_and_right, exists_or,
    Option.mem_toList, Option.mem_def, exists_mem_flatMap, and_or_left]
  exact iff_of_eq (by ac_rfl)

theorem Table.leadsOut_nested {q : Query} : (nested q).LeadsOut scopes ↔ q.LeadsOut scopes := by
  simp [LeadsOut, conditions, children]

theorem Query.leadsOut_iff_parts {q : Query} : q.LeadsOut scopes ↔
    (∃ e ∈ q.projection, e.LeadsOut (q :: scopes)) ∨ (∃ t ∈ q.tables, t.LeadsOut (q :: scopes)) ∨
      (∃ e ∈ q.predicate, e.LeadsOut (q :: scopes)) ∨ (∃ k ∈ q.orderBy, k.expr.LeadsOut (q :: scopes)) ∨
        (∃ e ∈ q.limit, e.LeadsOut (q :: scopes)) ∨ ∃ e ∈ q.offset, e.LeadsOut (q :: scopes) := by
  rw [leadsOut_iff]
  simp only [slots, children, exprs, Expr.LeadsOut, Table.LeadsOut, List.mem_append, or_and_right, exists_or,
    exists_mem_flatMap, and_or_left, Option.mem_toList, Option.mem_def, List.mem_map, exists_exists_and_eq_and]
  exact iff_of_eq (by ac_rfl)

end LeadsOut

/-! ## The search -/

/-- A stretch of the search finds something exactly if `P` holds of the scopes around it. It leaves the
scopes as they are, and does nothing once something is found. -/
structure Searches (f : ScopeChain → ScopeChain) (P : List Query → Prop) : Prop where
  done : ∀ c, c.unresolved.isSome = true → f c = c
  scopes : ∀ c, (f c).scopes = c.scopes
  found : ∀ c, c.unresolved.isSome = false → ((f c).unresolved.isSome = true ↔ P c.scopes)

namespace Searches

variable {f g : ScopeChain → ScopeChain} {P Q : List Query → Prop}

theorem congr (h : Searches f P) (hf : ∀ c, g c = f c) (hP : ∀ scopes, Q scopes ↔ P scopes) : Searches g Q := by
  obtain rfl : g = f := funext hf
  exact ⟨h.done, h.scopes, fun c hc => (h.found c hc).trans (hP c.scopes).symm⟩

theorem nothing : Searches id fun _ => False :=
  ⟨fun _ _ => rfl, fun _ => rfl, fun c hc => iff_of_false (by simp [hc]) not_false⟩

/-- One stretch after the other. -/
theorem comp (hf : Searches f P) (hg : Searches g Q) :
    Searches (fun c => g (f c)) fun scopes => P scopes ∨ Q scopes := by
  refine ⟨fun c hc => ?_, fun c => by rw [hg.scopes, hf.scopes], fun c hc => ?_⟩
  · rw [hf.done c hc, hg.done c hc]
  · rw [← hf.found c hc]
    by_cases h : (f c).unresolved.isSome = true
    · rw [hg.done _ h]
      exact iff_of_true h (.inl h)
    · rw [hg.found _ (by simpa using h), hf.scopes]
      exact (or_iff_right h).symm

/-- An expression is seen ahead of its operands. -/
theorem see (e : Expr) (hg : Searches g P) :
    Searches (fun c => if outerReferenceSearch.done c then c else g (outerReferenceSearch.see e c))
      fun scopes => e.Unresolved scopes ∨ P scopes := by
  have hstep : Searches (fun c => if outerReferenceSearch.done c then c else outerReferenceSearch.see e c)
      (Expr.Unresolved · e) := by
    refine ⟨fun c hc => if_pos hc, fun c => ?_, fun c hc => ?_⟩
    · by_cases h : outerReferenceSearch.done c = true
      · rw [if_pos h]
      · rw [if_neg h]
        show (if _ then _ else _ : ScopeChain).scopes = c.scopes
        split <;> rfl
    · have hout : (e.isReference && !c.scopes.any (·.provides e)) = true ↔ e.Unresolved c.scopes := by
        simp [Expr.Unresolved, Query.provides_iff, ← Bool.not_eq_true]
      simp only [outerReferenceSearch, hc, Bool.false_eq_true, if_false]
      rw [← hout]
      by_cases h : (e.isReference && !c.scopes.any (·.provides e)) = true
      · rw [if_pos h]
        exact iff_of_true rfl h
      · rw [if_neg h]
        exact iff_of_false (by simp [hc]) h
  refine (hstep.comp hg).congr (fun c => ?_) fun _ => Iff.rfl
  by_cases h : outerReferenceSearch.done c = true
  · rw [if_pos h, if_pos h]
    exact (hg.done c h).symm
  · rw [if_neg h, if_neg h]

/-- An expression is searched if what stands below it is. -/
theorem expr {e : Expr} (hg : Searches g P)
    (hwalk : ∀ c, e.walk outerReferenceSearch c =
      if outerReferenceSearch.done c then c else g (outerReferenceSearch.see e c))
    (hP : ∀ scopes, P scopes ↔ (∃ o ∈ e.operands, o.LeadsOut scopes) ∨ ∃ q, e = .exist q ∧ q.LeadsOut scopes) :
    Searches (e.walk outerReferenceSearch) (Expr.LeadsOut · e) :=
  (hg.see e).congr hwalk fun scopes => by rw [Expr.leadsOut_iff, hP scopes]

/-- A query that is entered is left again, whatever is found in it. -/
theorem enter (q : Query) (hg : Searches g P) :
    Searches (fun c => if outerReferenceSearch.done c then c
      else outerReferenceSearch.leave q (g (outerReferenceSearch.enter q c))) fun scopes => P (q :: scopes) := by
  refine ⟨fun c hc => if_pos hc, fun c => ?_, fun c hc => ?_⟩
  · by_cases h : outerReferenceSearch.done c = true
    · rw [if_pos h]
    · rw [if_neg h]
      show (g (outerReferenceSearch.enter q c)).scopes.tail = c.scopes
      rw [hg.scopes]; rfl
  · simp only [outerReferenceSearch, hc, Bool.false_eq_true, if_false]
    exact hg.found { c with scopes := q :: c.scopes } hc

end Searches

mutual

theorem Expr.searches : ∀ e : Expr, Searches (e.walk outerReferenceSearch) (Expr.LeadsOut · e)
  | .named name inner => (Expr.searches inner).expr (fun _ => rfl) fun _ => by simp [Expr.operands]
  | .rowNumber keys => (searches_walkKeys keys).expr (fun _ => rfl) fun _ => by simp [Expr.operands]
  | .cast operand type => (Expr.searches operand).expr (fun _ => rfl) fun _ => by simp [Expr.operands]
  | .binary op left right =>
    ((Expr.searches left).comp (Expr.searches right)).expr (fun _ => rfl) fun _ => by simp [Expr.operands]
  | .not operand => (Expr.searches operand).expr (fun _ => rfl) fun _ => by simp [Expr.operands]
  | .call function args type => (searches_walkExprs args).expr (fun _ => rfl) fun _ => by simp [Expr.operands]
  | .exist query => (Query.searches query).expr (fun _ => rfl) fun _ => by simp [Expr.operands]
  | .column .. | .star _ | .output .. | .constant .. | .parameter .. =>
    Searches.nothing.expr (fun _ => rfl) fun _ => by simp [Expr.operands]

theorem Table.searches : ∀ t : Table, Searches (t.walk outerReferenceSearch) (Table.LeadsOut · t)
  | .base table schema name source => Searches.nothing.congr (fun _ => rfl) fun scopes => by
    simp [Table.LeadsOut, Table.conditions, Table.children]
  | .join _ target condition => ((Table.searches target).comp (searches_walkOption condition)).congr (fun _ => rfl)
    fun _ => Table.leadsOut_join
  | .nested query => (Query.searches query).congr (fun _ => rfl) fun _ => Table.leadsOut_nested

theorem Query.searches : ∀ q : Query, Searches (q.walk outerReferenceSearch) (Query.LeadsOut · q)
  | ⟨tables, projection, predicate, orderBy, limit, offset, d, n, s, w, memo, members⟩ =>
    (searches_walkExprs projection).comp ((searches_walkTables tables).comp ((searches_walkOption predicate).comp
      ((searches_walkKeys orderBy).comp ((searches_walkOption limit).comp (searches_walkOption offset))))) |>.enter
        ⟨tables, projection, predicate, orderBy, limit, offset, d, n, s, w, memo, members⟩ |>.congr (fun _ => rfl)
      fun _ => Query.leadsOut_iff_parts

theorem searches_walkExprs : ∀ es : List Expr,
    Searches (walkExprs outerReferenceSearch es) fun scopes => ∃ e ∈ es, e.LeadsOut scopes
  | [] => Searches.nothing.congr (fun _ => rfl) fun _ => by simp
  | e :: es => ((Expr.searches e).comp (searches_walkExprs es)).congr (fun _ => rfl) fun _ => by simp

theorem searches_walkOption : ∀ e : Option Expr,
    Searches (walkOption outerReferenceSearch e) fun scopes => ∃ x ∈ e, x.LeadsOut scopes
  | none => Searches.nothing.congr (fun _ => rfl) fun _ => by simp
  | some e => (Expr.searches e).congr (fun _ => rfl) fun _ => by simp

theorem searches_walkKeys : ∀ keys : List OrderKey,
    Searches (walkKeys outerReferenceSearch keys) fun scopes => ∃ k ∈ keys, k.expr.LeadsOut scopes
  | [] => Searches.nothing.congr (fun _ => rfl) fun _ => by simp
  | ⟨e, _⟩ :: keys => ((Expr.searches e).comp (searches_walkKeys keys)).congr (fun _ => rfl) fun _ => by simp

theorem searches_walkTables : ∀ ts : List Table,
    Searches (walkTables outerReferenceSearch ts) fun scopes => ∃ t ∈ ts, t.LeadsOut scopes
  | [] => Searches.nothing.congr (fun _ => rfl) fun _ => by simp
  | t :: ts => ((Table.searches t).comp (searches_walkTables ts)).congr (fun _ => rfl) fun _ => by simp

end

theorem Query.hasOuterReference_iff_leadsOut {q : Query} : q.hasOuterReference = true ↔ q.LeadsOut [] :=
  (Query.searches q).found {} rfl

/-- The search comes to a reference that leads out exactly if there is one that none of the queries which
enclose it, up to the root, finds. -/
theorem Query.hasOuterReference_iff (q : Query) : q.hasOuterReference = true ↔
    ∃ e chain, q.Occurs e chain ∧ e.isReference = true ∧ ∀ scope ∈ chain, ¬scope.Finds e := by
  rw [hasOuterReference_iff_leadsOut]
  simp only [LeadsOut, Expr.Unresolved, List.append_nil]

end QueryTree
