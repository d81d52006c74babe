/-
The output of a query over a nested one, once the wildcard is expanded: references to what the nested
query outputs, under the names that this has there as long as they do not clash. References to slots
read the columns that they name.
-/
import QueryTree.Query.StarExpansion
import QueryTree.Proofs.PushDown.Rows

namespace QueryTree

namespace Query

/-! ## References to slots -/

/-- References to slots of the nested query `t`. -/
def references (t : String) (slots : List Expr) : List Expr :=
  slots.map fun e => .output t (e.outputName.getD "") e.type

/-- What is lifted has names. -/
theorem mapM_lift_ok {t : String} : ∀ {slots lifted : List Expr}, slots.mapM (·.lift t) = .ok lifted →
    (∀ e ∈ slots, e.outputName.isSome = true) ∧ lifted = references t slots
  | [], lifted, h => by cases h; exact ⟨by simp, rfl⟩
  | e :: slots, lifted, h => by
    rw [List.mapM_cons] at h
    rcases he : e.lift t with err | e'
    · rw [he] at h; cases h
    rw [he] at h
    rcases hs : slots.mapM (·.lift t) with err | rest
    · rw [hs] at h; cases h
    rw [hs] at h
    cases h
    obtain ⟨name, hname, rfl⟩ := lift_ok he
    obtain ⟨hall, rfl⟩ := mapM_lift_ok hs
    refine ⟨List.forall_mem_cons.2 ⟨by rw [hname]; rfl, hall⟩, ?_⟩
    rw [references, references, List.map_cons, hname]; rfl

theorem outputName_references {t : String} {slots : List Expr} (h : ∀ e ∈ slots, e.outputName.isSome = true) :
    (references t slots).map Expr.outputName = slots.map Expr.outputName := by
  rw [references, List.map_map]
  refine List.map_congr_left fun e he => ?_
  obtain ⟨name, hname⟩ := Option.isSome_iff_exists.1 (h e he)
  rw [Function.comp_apply, hname]; rfl

theorem slotsNamed_references {t : String} {slots : List Expr} (h : SlotsNamed slots)
    (hall : ∀ e ∈ slots, e.outputName.isSome = true) : SlotsNamed (references t slots) := by
  refine ⟨fun e he _ => ?_, ?_⟩
  · obtain ⟨slot, -, rfl⟩ := List.mem_map.1 he; rfl
  · have hnames : ∀ es : List Expr, es.filterMap Expr.outputName = (es.map Expr.outputName).filterMap id := fun es => by
      rw [List.filterMap_map]; rfl
    rw [hnames, outputName_references hall, ← hnames]
    exact h.distinct

theorem references_noStar {t : String} {slots : List Expr} : ∀ e ∈ references t slots, e.isStar = false := by
  intro e he
  obtain ⟨slot, -, rfl⟩ := List.mem_map.1 he; rfl

/-- A reference under a name that no slot has is appended as it is. -/
theorem project_reference {t name : String} {type : DataType} {q : Query} {es : List Expr}
    (h : SlotsNamed (q.projection ++ .output t name type :: es))
    (hrefs : ∀ e ∈ q.projection, ∃ name type, e = .output t name type) :
    (q.project (.output t name type) false).2 = { q with projection := q.projection ++ [.output t name type] } := by
  -- A slot of this value would be a reference to the same name.
  have hnone : q.slotOf (.output t name type) = none := by
    refine List.findIdx?_eq_none_iff.2 fun e he => ?_
    obtain ⟨name', type', rfl⟩ := hrefs e he
    have hne : name' ≠ name := by
      rintro rfl
      exact h.not_mem_of_append rfl
        (List.mem_map_of_mem (List.mem_filterMap.2 ⟨_, he, rfl⟩))
    simp [Expr.equiv, Expr.unnamed, hne]
  have hslot : q.slotFor (.output t name type) = .output t name type := slotFor_of_slotsNamed h
  have hkey : q.keyToName (.output t name type) = none := rfl
  rw [project]
  simp only [Bool.false_eq_true, if_false, Expr.stripCasts, hnone, appendValue, hkey, Option.isSome_none,
    Bool.false_and, hslot]

theorem foldl_project_references {t : String} : ∀ (slots : List Expr) {q : Query},
    SlotsNamed (q.projection ++ references t slots) → (∀ e ∈ q.projection, ∃ name type, e = .output t name type) →
    (references t slots).foldl (fun q e => (q.project e false).2) q =
      { q with projection := q.projection ++ references t slots }
  | [], q, _, _ => by cases q; simp [references]
  | slot :: slots, q, h, hrefs => by
    have hfirst := project_reference h hrefs
    rw [references, List.map_cons, List.foldl_cons, hfirst]
    have hrest := foldl_project_references slots (q := { q with
      projection := q.projection ++ [.output t (slot.outputName.getD "") slot.type] }) (by simpa [references] using h)
      (by
        refine List.forall_mem_append.2 ⟨hrefs, ?_⟩
        intro e he; rw [List.mem_singleton] at he; exact ⟨_, _, he⟩)
    rw [references] at hrest
    rw [hrest]; simp

/-- References add slots that refer to the same columns, and nothing else. -/
theorem foldl_project_gains {t : String} : ∀ (es : List Expr) (q : Query), ∃ slots,
    (references t es).foldl (fun q e => (q.project e false).2) q = { q with projection := q.projection ++ slots } ∧
      ∀ slot ∈ slots, slot.unnamed ∈ references t es
  | [], q => ⟨[], by cases q; simp [references], by simp⟩
  | e :: es, q => by
    have hcons : references t (e :: es) = .output t (e.outputName.getD "") e.type :: references t es := rfl
    obtain ⟨slots, heq, hslots⟩ :=
      foldl_project_gains (t := t) es (q.project (.output t (e.outputName.getD "") e.type) false).2
    -- A reference is a column, so no sort key has to be addressed by name on its account.
    obtain ⟨first, hfirst, hun⟩ : ∃ first, (q.project (.output t (e.outputName.getD "") e.type) false).2 =
        { q with projection := q.projection ++ first } ∧
          ∀ slot ∈ first, slot.unnamed = .output t (e.outputName.getD "") e.type := by
      simp only [project, Bool.false_eq_true, if_false, Expr.stripCasts]
      split
      · exact ⟨[], by cases q; simp, by simp⟩
      · exact ⟨_, rfl, by simp [keyToName, Expr.unnamed, Expr.isColumn]⟩
    refine ⟨first ++ slots, ?_, List.forall_mem_append.2 ⟨fun slot hs => ?_, fun slot hs => ?_⟩⟩
    · rw [hcons, List.foldl_cons, heq, hfirst]; simp
    · rw [hun slot hs, hcons]; exact List.mem_cons_self ..
    · rw [hcons]; exact List.mem_cons_of_mem _ (hslots slot hs)

/-- Whatever is output under names that clash is one column. -/
def Distinguished (es : List Expr) : Prop := ∀ a ∈ es, ∀ b ∈ es, ∀ m ∈ a.outputName, ∀ n ∈ b.outputName,
  Name.clash m n = true → m = n ∧ a.type = b.type

instance (es : List Expr) : Decidable (Distinguished es) := inferInstanceAs (Decidable (∀ _ ∈ _, _))

theorem mem_project_reference {t name : String} {type : DataType} {q : Query}
    (h : ∀ e ∈ q.projection, ∃ name' type', e = .output t name' type' ∧
      (Name.clash name' name = true → name' = name ∧ type' = type)) :
    (q.project (.output t name type) false).2.projection = q.projection ∧ .output t name type ∈ q.projection ∨
      (q.project (.output t name type) false).2.projection = q.projection ++ [.output t name type] := by
  simp only [project, Bool.false_eq_true, if_false, Expr.stripCasts]
  rcases hs : q.slotOf (.output t name type) with _ | i
  · right
    -- A slot of that name would hold the reference, and no slot does.
    have hfree : Text.lowercase name ∉ q.slotNames.map Text.lowercase := by
      intro hmem
      obtain ⟨name', hname', hlower⟩ := List.mem_map.1 hmem
      obtain ⟨e, he, hen⟩ := List.mem_filterMap.1 hname'
      obtain ⟨name'', type', rfl, hclash⟩ := h e he
      cases hen
      obtain ⟨rfl, rfl⟩ := hclash ((Name.clash_iff ..).2 hlower)
      have hsome := slotOf_isSome he (e := .output t name' type') (by simp [Expr.equiv, Expr.unnamed])
      rw [hs] at hsome; cases hsome
    have hslot : q.slotFor (.output t name type) = .output t name type := by
      unfold slotFor; split
      · exact distinctlyNamed_of_free rfl hfree
      · rfl
    have hkey : q.keyToName (.output t name type) = none := rfl
    simp only [appendValue, hkey, Option.isSome_none, Bool.false_and, Bool.false_eq_true, if_false, hslot]
  · left
    obtain ⟨slot, hi, heq⟩ := slotOf_eq_some hs
    obtain ⟨name', type', rfl, -⟩ := h slot (List.mem_of_getElem? hi)
    simp only [Expr.equiv, Expr.unnamed, Bool.and_eq_true, beq_iff_eq] at heq
    obtain ⟨⟨-, rfl⟩, rfl⟩ := heq
    exact ⟨rfl, List.mem_of_getElem? hi⟩

/-- References to distinguished columns become slots as they are. -/
theorem mem_foldl_project {t : String} {all : List Expr} (hall : ∀ e ∈ all, e.outputName.isSome = true)
    (hd : Distinguished all) : ∀ (es : List Expr) {q : Query}, es ⊆ all → q.projection ⊆ references t all →
      ∀ e ∈ q.projection ++ references t es,
        e ∈ ((references t es).foldl (fun q e => (q.project e false).2) q).projection
  | [], q, _, _, e, h => by simpa [references] using h
  | x :: es, q, hsub, hq, e, h => by
    obtain ⟨hx, hes⟩ := List.cons_subset.1 hsub
    obtain ⟨name, hname⟩ := Option.isSome_iff_exists.1 (hall x hx)
    have hcons : references t (x :: es) = .output t name x.type :: references t es := by
      rw [references, List.map_cons, hname]; rfl
    have hrefs : ∀ e ∈ q.projection, ∃ name' type', e = .output t name' type' ∧
        (Name.clash name' name = true → name' = name ∧ type' = x.type) := fun e he => by
      obtain ⟨y, hy, rfl⟩ := List.mem_map.1 (hq he)
      obtain ⟨name', hname'⟩ := Option.isSome_iff_exists.1 (hall y hy)
      exact ⟨name', y.type, by rw [hname']; rfl, hd y hy x hx _ hname' _ hname⟩
    have hmem : Expr.output t name x.type ∈ references t all :=
      List.mem_map.2 ⟨x, hx, by rw [hname]; rfl⟩
    rw [hcons] at h ⊢
    rw [List.foldl_cons]
    -- A reference finds its own slot, or gets one at the end: no other column has its name.
    rcases mem_project_reference hrefs with ⟨hsame, hin⟩ | happend
    · refine mem_foldl_project hall hd es hes (hsame ▸ hq) e ?_
      rw [hsame]
      rcases List.mem_append.1 h with h | h
      · exact List.mem_append_left _ h
      rcases List.mem_cons.1 h with rfl | h
      · exact List.mem_append_left _ hin
      · exact List.mem_append_right _ h
    · refine mem_foldl_project hall hd es hes ?_ e ?_
      · rw [happend]
        exact List.append_subset.2 ⟨hq, List.cons_subset.2 ⟨hmem, List.nil_subset _⟩⟩
      · rw [happend, List.append_assoc, List.singleton_append]; exact h

/-- `slots` are what an empty projection becomes once the nested query `t` shows `shown`. -/
structure Fixed (t : String) (shown slots : List Expr) : Prop where
  named : ∀ e ∈ shown, e.outputName.isSome = true
  refers : ∀ slot ∈ slots, slot.unnamed ∈ references t shown
  all : Distinguished shown → references t shown ⊆ slots
  exact : SlotsNamed shown → slots = references t shown
  starts : ∀ first rest, shown = first ++ rest → SlotsNamed first → references t first <+: slots

/-- A wildcard that is expanded becomes references to what the nested query shows. -/
theorem expandStarTo_ok {t : String} {p p' c : Query} {count : Option Nat} (hp : Passes t p c)
    (hmemo : p.memo.entries = []) (h : expandStarTo count p = .ok () p') :
    ∃ slots, Fixed t (c.outputs count) slots ∧ p' = { p with projection := slots, starred := false } := by
  unfold expandStarTo at h
  rw [hp.starred, hp.tables] at h
  simp only [hp.name, hmemo, List.append_nil] at h
  rcases hl : (c.outputs count).mapM (·.lift t) with err | lifted
  · rw [hl] at h; cases h
  rw [hl] at h
  obtain ⟨hall, rfl⟩ := mapM_lift_ok hl
  -- The references are projected one by one, and none replaces another.
  obtain ⟨slots, heq, hslots⟩ := foldl_project_gains (t := t) (c.outputs count) p
  rw [hp.projection, List.nil_append] at heq
  simp only [heq] at h
  cases h
  refine ⟨slots, ⟨hall, hslots, fun hd => ?_, fun hn => ?_, fun first rest hshown hn => ?_⟩, by rw [hp.tables]⟩
  · have hmem := mem_foldl_project (t := t) hall hd (c.outputs count) (q := p) (List.Subset.refl _)
      (by rw [hp.projection]; simp)
    rw [heq, hp.projection] at hmem
    exact hmem
  · have hrefs := foldl_project_references (t := t) (c.outputs count) (q := p)
      (by rw [hp.projection]; exact slotsNamed_references hn hall) (by rw [hp.projection]; simp)
    rw [heq, hp.projection] at hrefs
    exact congrArg projection hrefs
  · -- The first ones become slots as they are, and the rest can only add to them.
    have hfirst : ∀ e ∈ first, e.outputName.isSome = true := fun e he =>
      hall e (by rw [hshown]; exact List.mem_append_left _ he)
    have hrefs := foldl_project_references (t := t) first (q := p)
      (by rw [hp.projection]; exact slotsNamed_references hn hfirst) (by rw [hp.projection]; simp)
    obtain ⟨more, hmore, -⟩ := foldl_project_gains (t := t) rest { p with projection := references t first }
    rw [hp.projection, List.nil_append] at hrefs
    rw [hshown, references, List.map_append, List.foldl_append, ← references, ← references, hrefs, hmore] at heq
    exact ⟨more, congrArg projection heq⟩

/-! ## Columns that references read -/

section Rows

variable {V : Type} {I : Interpretation V} {outer : List (List (Part V))}

/-- The expressions refer to the columns of the nested query `t`, from the first on. -/
def Reads (I : Interpretation V) (t : String) (c : Query) (es : List Expr) : Prop :=
  ∀ (i : Nat) (e : Expr), es[i]? = some e →
    ∃ name type, e = .output t name type ∧ (c.columnNames I)[i]? = some (some name)

theorem Reads.widen {t : String} {c c' : Query} {es : List Expr} (h : c.columnNames I <+: c'.columnNames I)
    (hr : c.Reads I t es) : c'.Reads I t es := by
  intro i e he
  obtain ⟨name, type, heq, hi⟩ := hr i e he
  exact ⟨name, type, heq, getElem?_of_prefix h hi⟩

theorem reads_references {t : String} {c : Query} {slots : List Expr}
    (hall : ∀ e ∈ slots, e.outputName.isSome = true) (h : slots.map Expr.outputName <+: c.columnNames I) :
    c.Reads I t (references t slots) := by
  intro i e he
  obtain ⟨slot, hslot, rfl⟩ : ∃ slot, slots[i]? = some slot ∧ .output t (slot.outputName.getD "") slot.type = e := by
    simpa [references] using he
  obtain ⟨name, hname⟩ := Option.isSome_iff_exists.1 (hall slot (List.mem_of_getElem? hslot))
  refine ⟨name, slot.type, by rw [hname]; rfl, getElem?_of_prefix h ?_⟩
  rw [List.getElem?_map, hslot, Option.map_some, hname]

theorem Reads.length_le {t : String} {c : Query} {es : List Expr} (h : c.Reads I t es) :
    es.length ≤ (c.columnNames I).length := by
  by_contra hlt
  rw [not_le] at hlt
  obtain ⟨name, type, -, hn⟩ := h _ _ (List.getElem?_eq_getElem hlt)
  exact lt_irrefl _ (List.getElem?_eq_some_iff.1 hn).1

variable [DecidableEq V]

theorem outputRow_of_reads (hI : I.Lawful) {t : String} {p c : Query} (hp : p.Explicit) (ht : p.tables = [.nested c])
    (hc : c.Addressable I outer t) (hr : c.Reads I t p.projection) {s : Scope V} (hs : s ∈ p.scopes I outer) :
    p.outputRow I s = s.only.take p.projection.length := by
  obtain ⟨hrow, hmem⟩ := row_eq_asRow ht hs
  rw [hp.outputRow_eq]
  refine List.ext_getElem? fun i => ?_
  rcases he : p.projection[i]? with _ | e
  · have hi := List.getElem?_eq_none_iff.1 he
    rw [List.getElem?_map, he, List.getElem?_take_eq_none hi]; rfl
  · have hi := (List.getElem?_eq_some_iff.1 he).1
    obtain ⟨name, type, rfl, hn⟩ := hr i e he
    have hlt : i < s.only.length := by
      rw [hc.width _ hmem]; exact (List.getElem?_eq_some_iff.1 hn).1
    rw [List.getElem?_map, he, List.getElem?_take_of_lt hi, List.getElem?_eq_getElem hlt, Option.map_some,
      eval_output hI hc.name hc.differ hrow hn (List.getElem?_eq_getElem hlt) type]

end Rows

end Query
end QueryTree
