/-
A wildcard over one nested query and nothing else. The slots of a composed query with a name have names that differ,
so the references to them differ too: none is found in the slot of another and none is given a name of its own. The
expansion therefore repeats the slots one to one, and a count cuts the list short.
-/
import QueryTree.Proofs.Composed
import QueryTree.Proofs.Paging.Injection

namespace QueryTree

theorem SlotsNamed.sublist {slots part : List Expr} (h : SlotsNamed slots) (hsub : part.Sublist slots) :
    SlotsNamed part where
  named e he := h.named e (hsub.subset he)
  distinct := h.distinct.sublist ((hsub.filterMap _).map _)

namespace Query

variable {t : String} {q c : Query}

/-- The query has nothing in its output but a wildcard over the nested query `t`, and has bound no column through
it. Whatever else it has, such as a name, WHERE or ORDER BY, is left open. -/
structure OnlyWildcard (t : String) (q c : Query) : Prop where
  starred : q.starred = true
  projection : q.projection = []
  memo : q.memo.entries = []
  tables : q.tables = [.nested c]
  name : c.name = some t

/-- The column refers to the slot of the nested query `t` by the name of the slot. -/
def RefersToSlot (t : String) (slot column : Expr) : Prop :=
  ∃ name, slot.outputName = some name ∧ column = .output t name slot.type

theorem forall₂_references : ∀ {slots : List Expr}, (∀ e ∈ slots, e.outputName.isSome = true) →
    List.Forall₂ (RefersToSlot t) slots (references t slots)
  | [], _ => .nil
  | slot :: slots, h => by
    obtain ⟨hslot, hslots⟩ := List.forall_mem_cons.1 h
    obtain ⟨name, hname⟩ := Option.isSome_iff_exists.1 hslot
    refine .cons ⟨name, hname, ?_⟩ (forall₂_references hslots)
    show Expr.output t (slot.outputName.getD "") slot.type = _
    rw [hname, Option.getD_some]

/-- What is output under names that differ is repeated in its order. -/
theorem expandStarTo_of_slotsNamed {count : Option Nat} (h : OnlyWildcard t q c) (hslots : SlotsNamed (c.outputs count))
    (hnamed : ∀ e ∈ c.outputs count, e.outputName.isSome = true) :
    expandStarTo count q = .ok () { q with projection := references t (c.outputs count), starred := false } := by
  have hslots' : SlotsNamed (q.projection ++ references t (c.outputs count)) := by
    rw [h.projection]
    exact slotsNamed_references hslots hnamed
  have hrun := foldl_project_references (c.outputs count) hslots' (by simp [h.projection])
  rw [h.projection, List.nil_append] at hrun
  unfold expandStarTo
  rw [h.starred, h.tables]
  simp only [h.name, mapM_lift_named hnamed, h.memo, List.append_nil, hrun]
  rw [h.tables]

end Query

/-- A wildcard over a composed query that has slots alone is replaced by one reference for each slot, in order and
under the name of the slot. A count keeps the first so many of them. -/
theorem expandStar_one_to_one {t : String} {q c : Query} (h : Query.OnlyWildcard t q c) (hc : c.Composed)
    (hplain : c.starred = false) (hstar : ∀ slot ∈ c.projection, slot.isStar = false) :
    ∃ columns, List.Forall₂ (Query.RefersToSlot t) c.projection columns ∧
      Query.expandStar q = .ok () { q with projection := columns, starred := false } ∧
      ∀ k : Nat, Query.expandStarTo (some k) q = .ok () { q with projection := columns.take k, starred := false } := by
  have hslots : SlotsNamed c.projection := (hc.sound c .root).slots (by rw [h.name]; rfl)
  have hnamed : ∀ e ∈ c.projection, e.outputName.isSome = true := fun e he => hslots.named e he (hstar e he)
  have houtputs : c.outputs none = c.projection := by
    rw [Query.outputs, hplain]
    exact List.append_nil _
  have houtputs' (k : Nat) : c.outputs (some k) = c.projection.take k := by
    rw [Query.outputs, hplain]
    exact List.append_nil _
  refine ⟨Query.references t c.projection, Query.forall₂_references hnamed, ?_, fun k => ?_⟩
  · rw [← houtputs] at hslots hnamed ⊢
    exact Query.expandStarTo_of_slotsNamed h hslots hnamed
  · have hfirst : Query.references t (c.outputs (some k)) = (Query.references t c.projection).take k := by
      rw [houtputs', Query.references, Query.references, List.map_take]
    rw [← hfirst]
    refine Query.expandStarTo_of_slotsNamed h ?_ ?_
    · rw [houtputs']
      exact hslots.sublist (List.take_sublist k _)
    · rw [houtputs']
      exact fun e he => hnamed e (List.mem_of_mem_take he)

/-- The slots have names that differ in case and number, and one of them is a sort key as well. -/
theorem expandStar_one_to_one_recased :
    let people := ({ name := some "t" } : Query).appendTable (.base "People" none "p" (some ⟨1⟩))
    let c := ((people.project (.column "p" (some ⟨1⟩) "Name" .text) false).2.project
      (.column "p" (some ⟨1⟩) "NAME" .text) false).2
    let q : Query := {
      tables := [.nested c]
      name := some "u"
      starred := true
      orderBy := [⟨.output "t" "NAME0" .text, .desc⟩] }
    Query.OnlyWildcard "t" q c ∧ c.Composed ∧ c.starred = false ∧ (∀ slot ∈ c.projection, slot.isStar = false) ∧
      Query.expandStar q = .ok () { q with
        projection := [.output "t" "Name" .text, .output "t" "NAME0" .text]
        starred := false } := by
  intro people c q
  have hpeople : people.Composed := (Query.Composed.fresh (some "t")).apply (.appendTable _)
  have hc : c.Composed := hpeople.apply (.project (.column "p" (some ⟨1⟩) "Name" .text) false)
    |>.apply (.project (.column "p" (some ⟨1⟩) "NAME" .text) false)
  have hq : Query.OnlyWildcard "t" q c := ⟨rfl, rfl, rfl, rfl, rfl⟩
  have hstar : ∀ slot ∈ c.projection, slot.isStar = false := by decide +kernel
  have hslots : c.projection.map (fun slot => (slot.outputName, slot.type)) =
      [(some "Name", .text), (some "NAME0", .text)] := by decide +kernel
  obtain ⟨columns, hcolumns, hrun, -⟩ := expandStar_one_to_one hq hc rfl hstar
  refine ⟨hq, hc, rfl, hstar, ?_⟩
  have hcolumns : columns = [.output "t" "Name" .text, .output "t" "NAME0" .text] := by
    generalize c.projection = slots at hcolumns hslots
    -- There are two slots, so there are two columns.
    obtain _ | ⟨⟨name, hname, rfl⟩, _ | ⟨⟨name', hname', rfl⟩, _ | _⟩⟩ := hcolumns
    · simp at hslots
    · simp at hslots
    · simp only [List.map_cons, List.map_nil, hname, hname', List.cons.injEq, Prod.mk.injEq, Option.some.injEq,
        and_true] at hslots
      obtain ⟨⟨rfl, htype⟩, rfl, htype'⟩ := hslots
      rw [htype, htype']
    · simp at hslots
  rw [hrun, hcolumns]

end QueryTree
