/-
What a walk records. The tree alone says which steps a walk makes that nothing stops. A walk that is done after some
number of expressions has made the first of these steps, up to the last of the expressions, and then leaves the queries
that are still open, the innermost first.
-/
import QueryTree.Proofs.Correlation.Search

namespace QueryTree

/-! ## The steps of a whole walk -/

mutual

/-- The steps of a walk over an expression to its end. -/
def Expr.trail : Expr → List WalkEvent
  | e@(.named _ inner) => .see e :: inner.trail
  | e@(.rowNumber keys) => .see e :: keysTrail keys
  | e@(.cast operand _) => .see e :: operand.trail
  | e@(.binary _ left right) => .see e :: (left.trail ++ right.trail)
  | e@(.not operand) => .see e :: operand.trail
  | e@(.call _ args _) => .see e :: exprsTrail args
  | e@(.exist query) => .see e :: query.trail
  | e@(.column _ _ _ _) | e@(.star _) | e@(.output _ _ _) | e@(.constant _ _) | e@(.parameter _ _) => [.see e]

def Table.trail : Table → List WalkEvent
  | .base _ _ _ _ => []
  | .join _ target condition => target.trail ++ optionTrail condition
  | .nested query => query.trail

def Query.trail : Query → List WalkEvent
  | q@{ tables, projection, predicate, orderBy, limit, offset, .. } =>
    .enter q :: (exprsTrail projection ++ (tablesTrail tables ++ (optionTrail predicate ++
      (keysTrail orderBy ++ (optionTrail limit ++ optionTrail offset)))) ++ [.leave q])

def exprsTrail : List Expr → List WalkEvent
  | [] => []
  | e :: es => e.trail ++ exprsTrail es

def optionTrail : Option Expr → List WalkEvent
  | none => []
  | some e => e.trail

def keysTrail : List OrderKey → List WalkEvent
  | [] => []
  | ⟨e, _⟩ :: keys => e.trail ++ keysTrail keys

def tablesTrail : List Table → List WalkEvent
  | [] => []
  | t :: ts => t.trail ++ tablesTrail ts

end

/-- The number of expressions seen. -/
def seen (events : List WalkEvent) : Nat := events.countP WalkEvent.isSee

@[simp] theorem seen_append (events events' : List WalkEvent) : seen (events ++ events') = seen events + seen events' :=
  List.countP_append

@[simp] theorem seen_enter (q : Query) (events : List WalkEvent) : seen (.enter q :: events) = seen events :=
  List.countP_cons_of_neg Bool.false_ne_true

@[simp] theorem seen_see (e : Expr) (events : List WalkEvent) : seen (.see e :: events) = seen events + 1 :=
  List.countP_cons_of_pos rfl

@[simp] theorem seen_nil : seen [] = 0 := rfl

@[simp] theorem seen_leaves (opened : List Query) : seen (opened.map .leave) = 0 := by
  rw [seen, List.countP_map]
  exact List.countP_eq_zero.2 fun _ _ => Bool.false_ne_true

theorem seen_entered (q : Query) (trail : List WalkEvent) : seen (.enter q :: (trail ++ [.leave q])) = seen trail := by
  rw [seen_enter, seen_append]
  rfl

theorem recorder_enter (bound : Option Nat) (q : Query) (events : List WalkEvent) :
    (recorder bound).enter q events = events ++ [.enter q] := rfl

theorem recorder_leave (bound : Option Nat) (q : Query) (events : List WalkEvent) :
    (recorder bound).leave q events = events ++ [.leave q] := rfl

/-- There is a bound, and it is reached. -/
theorem done_recorder {bound : Option Nat} {events : List WalkEvent} :
    (recorder bound).done events = true ↔ ∃ n ∈ bound, n ≤ seen events := by
  cases bound <;> simp [recorder, seen]

theorem not_done_recorder {bound : Option Nat} {events : List WalkEvent} (h : ∀ n ∈ bound, seen events < n) :
    ¬(recorder bound).done events = true := by
  rw [done_recorder]
  rintro ⟨n, hn, hle⟩
  exact absurd (h n hn) (Nat.not_lt.2 hle)

/-! ## Open queries -/

/-- The expression stands in a slot of the innermost query that is open, or in one of `roots` where none is. -/
def Expr.OwnedBy (roots : List Expr) (opened : List Query) (e : Expr) : Prop :=
  ∃ slot ∈ opened.head?.elim roots Query.slots, e.PartOf slot

/-- From the queries `opened`, innermost first, the events lead to the queries `opened'`: what is left is the innermost
query, and what is seen belongs to it. Outside of all queries are the expressions `roots`. -/
inductive Leads (roots : List Expr) : List Query → List WalkEvent → List Query → Prop
  | nil {opened : List Query} : Leads roots opened [] opened
  | enter {q : Query} {opened opened' : List Query} {events : List WalkEvent} :
      Leads roots (q :: opened) events opened' → Leads roots opened (.enter q :: events) opened'
  | leave {q : Query} {opened opened' : List Query} {events : List WalkEvent} :
      Leads roots opened events opened' → Leads roots (q :: opened) (.leave q :: events) opened'
  | see {e : Expr} {opened opened' : List Query} {events : List WalkEvent} : e.OwnedBy roots opened →
      Leads roots opened events opened' → Leads roots opened (.see e :: events) opened'

section Open

variable {roots : List Expr} {opened opened' opened'' : List Query} {events events' : List WalkEvent}

theorem Expr.PartOf.of_operand {o e slot : Expr} (ho : o ∈ e.operands) (h : e.PartOf slot) : o.PartOf slot := by
  induction h with
  | self => exact .operand ho .self
  | operand hx _ ih => exact .operand hx ih

theorem Expr.OwnedBy.operand {o e : Expr} (h : e.OwnedBy roots opened) (ho : o ∈ e.operands) :
    o.OwnedBy roots opened := by
  obtain ⟨slot, hslot, hpart⟩ := h
  exact ⟨slot, hslot, hpart.of_operand ho⟩

theorem Query.ownedBy_slot {q : Query} {e : Expr} (he : e ∈ q.slots) : e.OwnedBy roots (q :: opened) := ⟨e, he, .self⟩

namespace Leads

theorem append (h : Leads roots opened events opened') (h' : Leads roots opened' events' opened'') :
    Leads roots opened (events ++ events') opened'' := by
  induction h with
  | nil => exact h'
  | enter _ ih => exact .enter (ih h')
  | leave _ ih => exact .leave (ih h')
  | see howned _ ih => exact .see howned (ih h')

/-- Open queries may be left one by one. -/
theorem leaves (below : List Query) : ∀ opened : List Query, Leads roots (opened ++ below) (opened.map .leave) below
  | [] => .nil
  | _ :: opened => .leave (leaves below opened)

/-- Where an expression is seen, it belongs to the innermost of the queries that are open there. -/
theorem owned {e : Expr} : ∀ {events : List WalkEvent} {opened : List Query},
    Leads roots opened (events ++ .see e :: events') opened' →
      ∃ within, Leads roots opened events within ∧ e.OwnedBy roots within
  | [], _, h => by
    cases h with
    | see howned _ => exact ⟨_, .nil, howned⟩
  | _ :: _, _, h => by
    cases h with
    | enter h =>
      obtain ⟨within, hleads, howned⟩ := owned h
      exact ⟨within, .enter hleads, howned⟩
    | leave h =>
      obtain ⟨within, hleads, howned⟩ := owned h
      exact ⟨within, .leave hleads, howned⟩
    | see hfirst h =>
      obtain ⟨within, hleads, howned⟩ := owned h
      exact ⟨within, .see hfirst hleads, howned⟩

end Leads

end Open

/-! ## Stretches of a walk -/

/-- A stretch of a recording walk, begun while the queries `opened` are open. It makes the steps of `trail`, as far as
the bound allows; a walk that is done by then only leaves what it has entered. -/
structure Records (roots : List Expr) (opened : List Query)
    (walk : Option Nat → List WalkEvent → List WalkEvent) (trail : List WalkEvent) : Prop where
  leads : Leads roots opened trail opened
  done : ∀ bound events, (recorder bound).done events = true → walk bound events = events
  ends : ∀ bound events, (∀ n ∈ bound, seen events + seen trail < n) → walk bound events = events ++ trail
  stops : ∀ n events, seen events < n → n ≤ seen events + seen trail → ∃ before e after within,
    trail = before ++ .see e :: after ∧ seen events + seen before + 1 = n ∧
      Leads roots opened (before ++ [.see e]) (within ++ opened) ∧
      walk (some n) events = events ++ (before ++ .see e :: within.map .leave)

namespace Records

variable {roots : List Expr} {opened : List Query} {f g : Option Nat → List WalkEvent → List WalkEvent}
  {trail trail' : List WalkEvent}

theorem congr (h : Records roots opened f trail) (hg : ∀ bound events, g bound events = f bound events) :
    Records roots opened g trail := by
  obtain rfl : g = f := funext fun bound => funext (hg bound)
  exact h

theorem nothing : Records roots opened (fun _ events => events) [] where
  leads := .nil
  done _ _ _ := rfl
  ends _ events _ := (List.append_nil events).symm
  stops _ _ hlt hle := absurd hle (Nat.not_le.2 hlt)

/-- One stretch after the other. -/
theorem comp (hf : Records roots opened f trail) (hg : Records roots opened g trail') :
    Records roots opened (fun bound events => g bound (f bound events)) (trail ++ trail') where
  leads := hf.leads.append hg.leads
  done bound events h := by rw [hf.done bound events h, hg.done bound events h]
  ends bound events h := by
    simp only [seen_append] at h
    have hfirst : ∀ n ∈ bound, seen events + seen trail < n := fun n hn => by
      have := h n hn
      omega
    rw [hf.ends bound events hfirst, hg.ends bound _ fun n hn => by rw [seen_append, Nat.add_assoc]; exact h n hn,
      List.append_assoc]
  stops n events hlt hle := by
    rw [seen_append] at hle
    by_cases hfirst : n ≤ seen events + seen trail
    · obtain ⟨before, e, after, within, rfl, hcount, hleads, hwalk⟩ := hf.stops n events hlt hfirst
      -- The bound is reached, so nothing is left for the second stretch.
      have hdone : (recorder (some n)).done (f (some n) events) = true := by
        rw [done_recorder, hwalk]
        exact ⟨n, rfl, by simp only [seen_append, seen_see, seen_leaves]; omega⟩
      refine ⟨before, e, after ++ trail', within, by simp, hcount, hleads, ?_⟩
      rw [hg.done _ _ hdone, hwalk]
    · have hwalk : f (some n) events = events ++ trail := hf.ends (some n) events (by simpa using hfirst)
      obtain ⟨before, e, after, within, rfl, hcount, hleads, hwalk'⟩ := hg.stops n (events ++ trail)
        (by rw [seen_append]; omega) (by rw [seen_append]; omega)
      rw [seen_append] at hcount
      refine ⟨trail ++ before, e, after, within, by simp, by rw [seen_append]; omega, ?_, ?_⟩
      · rw [List.append_assoc]
        exact hf.leads.append hleads
      · rw [hwalk, hwalk']
        simp only [List.append_assoc]

/-- An expression is seen ahead of its operands. -/
theorem see {e : Expr} (howned : e.OwnedBy roots opened) (hg : Records roots opened g trail) :
    Records roots opened (fun bound events => if (recorder bound).done events then events
      else g bound ((recorder bound).see e events)) (.see e :: trail) := by
  have hstep : Records roots opened (fun bound events => if (recorder bound).done events then events
      else events ++ [.see e]) [.see e] := by
    refine ⟨.see howned .nil, fun bound events h => if_pos h, fun bound events h => if_neg ?_,
      fun n events hlt hle => ⟨[], e, [], [], rfl, ?_, .see howned .nil, if_neg ?_⟩⟩
    · exact not_done_recorder fun n hn => Nat.lt_of_succ_lt (h n hn)
    · rw [seen_see, seen_nil] at hle
      rw [seen_nil]
      omega
    · exact not_done_recorder (by simpa using hlt)
  refine (hstep.comp hg).congr fun bound events => ?_
  by_cases h : (recorder bound).done events = true
  · rw [if_pos h, if_pos h, hg.done bound events h]
  · rw [if_neg h, if_neg h]
    rfl

/-- A query that is entered is left again, wherever the walk within it stops. -/
theorem enter (q : Query) (hg : Records roots (q :: opened) g trail) :
    Records roots opened (fun bound events => if (recorder bound).done events then events
      else (recorder bound).leave q (g bound ((recorder bound).enter q events)))
      (.enter q :: (trail ++ [.leave q])) where
  leads := .enter (hg.leads.append (.leave .nil))
  done bound events h := if_pos h
  ends bound events h := by
    rw [seen_entered] at h
    rw [if_neg (not_done_recorder fun n hn => Nat.lt_of_le_of_lt (Nat.le_add_right ..) (h n hn))]
    rw [recorder_enter, recorder_leave, hg.ends bound _ fun n hn => by simpa using h n hn]
    simp
  stops n events hlt hle := by
    rw [seen_entered] at hle
    obtain ⟨before, e, after, within, rfl, hn, hleads, hwalk⟩ := hg.stops n (events ++ [.enter q])
      (by simpa using hlt) (by simpa using hle)
    refine ⟨.enter q :: before, e, after ++ [.leave q], within ++ [q], by simp, by simpa using hn, ?_, ?_⟩
    · rw [List.append_assoc]
      exact .enter hleads
    · rw [if_neg (not_done_recorder (by simpa using hlt))]
      rw [recorder_enter, recorder_leave, hwalk]
      simp

end Records

mutual

theorem Expr.records {roots : List Expr} {opened : List Query} : ∀ e : Expr, e.OwnedBy roots opened →
    Records roots opened (fun bound => e.walk (recorder bound)) e.trail
  | .named _ inner, h =>
    ((Expr.records inner (h.operand (by simp [Expr.operands]))).see h).congr fun _ _ => rfl
  | .rowNumber keys, h =>
    ((records_walkKeys keys fun k hk => h.operand (List.mem_map_of_mem hk)).see h).congr fun _ _ => rfl
  | .cast operand _, h =>
    ((Expr.records operand (h.operand (by simp [Expr.operands]))).see h).congr fun _ _ => rfl
  | .binary _ left right, h =>
    (((Expr.records left (h.operand (by simp [Expr.operands]))).comp
      (Expr.records right (h.operand (by simp [Expr.operands])))).see h).congr fun _ _ => rfl
  | .not operand, h =>
    ((Expr.records operand (h.operand (by simp [Expr.operands]))).see h).congr fun _ _ => rfl
  | .call _ args _, h =>
    ((records_walkExprs args fun e he => h.operand he).see h).congr fun _ _ => rfl
  | .exist query, h => ((Query.records query).see h).congr fun _ _ => rfl
  | .column .., h | .star _, h | .output .., h | .constant .., h | .parameter .., h =>
    (Records.nothing.see h).congr fun _ _ => rfl

theorem Table.records {roots : List Expr} {opened : List Query} : ∀ t : Table,
    (∀ e ∈ t.conditions, e.OwnedBy roots opened) → Records roots opened (fun bound => t.walk (recorder bound)) t.trail
  | .base .., _ => Records.nothing.congr fun _ _ => rfl
  | .join _ target condition, h =>
    ((Table.records target fun e he => h e (List.mem_append_left _ he)).comp (records_walkOption condition
      fun e he => h e (List.mem_append_right _ (Option.mem_toList.2 he)))).congr fun _ _ => rfl
  | .nested query, _ => Query.records query

theorem Query.records {roots : List Expr} {opened : List Query} : ∀ q : Query,
    Records roots opened (fun bound => q.walk (recorder bound)) q.trail
  | ⟨tables, projection, predicate, orderBy, limit, offset, d, n, s, w, memo, members⟩ => by
    let q : Query := ⟨tables, projection, predicate, orderBy, limit, offset, d, n, s, w, memo, members⟩
    have hexprs : ∀ e ∈ q.exprs, e.OwnedBy roots (q :: opened) := fun e he =>
      Query.ownedBy_slot (List.mem_append_right _ he)
    have hconditions : ∀ t ∈ tables, ∀ e ∈ t.conditions, e.OwnedBy roots (q :: opened) := fun t ht e he =>
      Query.ownedBy_slot (List.mem_append_left _ (List.mem_flatMap_of_mem ht he))
    simp only [Query.exprs, q, List.forall_mem_append, List.forall_mem_map, Option.mem_toList] at hexprs
    obtain ⟨⟨⟨⟨hprojection, hpredicate⟩, hkeys⟩, hlimit⟩, hoffset⟩ := hexprs
    exact (((records_walkExprs projection hprojection).comp ((records_walkTables tables hconditions).comp
      ((records_walkOption predicate hpredicate).comp ((records_walkKeys orderBy hkeys).comp
        ((records_walkOption limit hlimit).comp (records_walkOption offset hoffset)))))).enter q).congr fun _ _ => rfl

theorem records_walkExprs {roots : List Expr} {opened : List Query} : ∀ es : List Expr,
    (∀ e ∈ es, e.OwnedBy roots opened) →
      Records roots opened (fun bound => walkExprs (recorder bound) es) (exprsTrail es)
  | [], _ => Records.nothing.congr fun _ _ => rfl
  | e :: es, h => ((Expr.records e (h e (List.mem_cons_self ..))).comp (records_walkExprs es
      fun x hx => h x (List.mem_cons_of_mem _ hx))).congr fun _ _ => rfl

theorem records_walkOption {roots : List Expr} {opened : List Query} : ∀ e : Option Expr,
    (∀ x ∈ e, x.OwnedBy roots opened) →
      Records roots opened (fun bound => walkOption (recorder bound) e) (optionTrail e)
  | none, _ => Records.nothing.congr fun _ _ => rfl
  | some e, h => (Expr.records e (h e rfl)).congr fun _ _ => rfl

theorem records_walkKeys {roots : List Expr} {opened : List Query} : ∀ keys : List OrderKey,
    (∀ k ∈ keys, k.expr.OwnedBy roots opened) →
      Records roots opened (fun bound => walkKeys (recorder bound) keys) (keysTrail keys)
  | [], _ => Records.nothing.congr fun _ _ => rfl
  | ⟨e, d⟩ :: keys, h => ((Expr.records e (h ⟨e, d⟩ (List.mem_cons_self ..))).comp (records_walkKeys keys
      fun x hx => h x (List.mem_cons_of_mem _ hx))).congr fun _ _ => rfl

theorem records_walkTables {roots : List Expr} {opened : List Query} : ∀ ts : List Table,
    (∀ t ∈ ts, ∀ e ∈ t.conditions, e.OwnedBy roots opened) →
      Records roots opened (fun bound => walkTables (recorder bound) ts) (tablesTrail ts)
  | [], _ => Records.nothing.congr fun _ _ => rfl
  | t :: ts, h => ((Table.records t (h t (List.mem_cons_self ..))).comp (records_walkTables ts
      fun x hx => h x (List.mem_cons_of_mem _ hx))).congr fun _ _ => rfl

end

/-! ## Walks that are stopped -/

/-- What is recorded with a bound, beside what is recorded without one. -/
structure StopsInTime (roots : List Expr) (events : Option Nat → List WalkEvent) : Prop where
  /-- Nothing may be seen, and nothing is entered. -/
  nothing : events (some 0) = []
  /-- There are not so many expressions, and the walk goes to its end. -/
  toEnd : ∀ n, seen (events none) < n → events (some n) = events none
  /-- The last expression that may be seen is there. The walk ends with it, and leaves what is open. -/
  upTo : ∀ n, 1 ≤ n → n ≤ seen (events none) → ∃ before e after opened,
    events none = before ++ .see e :: after ∧ seen (before ++ [.see e]) = n ∧
      Leads roots [] (before ++ [.see e]) opened ∧ events (some n) = before ++ .see e :: opened.map .leave
  /-- Each query that is entered is left again, and no query before those that are entered within it. -/
  nested : ∀ bound, Leads roots [] (events bound) []
  /-- Where an expression is seen, the innermost query that is open is the one that it stands in. -/
  inside : ∀ bound before e after, events bound = before ++ .see e :: after →
    ∃ opened, Leads roots [] before opened ∧ e.OwnedBy roots opened

theorem Records.unbounded {roots : List Expr} {opened : List Query} {trail : List WalkEvent}
    {walk : Option Nat → List WalkEvent → List WalkEvent} (h : Records roots opened walk trail) :
    walk none [] = trail :=
  h.ends none [] (by simp)

theorem Records.stopsInTime {roots : List Expr} {walk : Option Nat → List WalkEvent → List WalkEvent}
    {trail : List WalkEvent} (h : Records roots [] walk trail) : StopsInTime roots fun bound => walk bound [] := by
  have hwhole : walk none [] = trail := h.unbounded
  have hends (n : Nat) (hn : seen trail < n) : walk (some n) [] = trail := h.ends (some n) [] (by simpa using hn)
  -- A walk that stops still leaves the queries that it is in.
  have hnested : ∀ bound, Leads roots [] (walk bound []) [] := by
    rintro (_ | n)
    · rw [hwhole]
      exact h.leads
    rcases Nat.eq_zero_or_pos n with rfl | hpos
    · rw [h.done _ _ rfl]
      exact .nil
    by_cases hle : n ≤ seen trail
    · obtain ⟨before, e, -, within, -, -, hleads, hwalk⟩ := h.stops n [] hpos (by simpa using hle)
      have hevents : walk (some n) [] = before ++ [.see e] ++ within.map .leave := by rw [hwalk]; simp
      rw [hevents]
      exact hleads.append (.leaves [] within)
    · rw [hends n (by omega)]
      exact h.leads
  constructor
  case nothing => exact h.done _ _ rfl
  case toEnd =>
    intro n hn
    rw [hwhole] at hn ⊢
    exact hends n hn
  case upTo =>
    intro n hpos hle
    rw [hwhole] at hle ⊢
    obtain ⟨before, e, after, within, htrail, hn, hleads, hwalk⟩ := h.stops n [] hpos (by simpa using hle)
    refine ⟨before, e, after, within, htrail, ?_, by simpa using hleads, by simpa using hwalk⟩
    simpa using hn
  case nested => exact hnested
  case inside =>
    intro bound before e after hevents
    have hleads := hnested bound
    rw [hevents] at hleads
    exact hleads.owned

/-- A walk that nothing stops makes the steps that the tree prescribes. With a bound on the expressions that may be
seen, it makes these steps up to the last such expression, and leaves the queries that are open then. Nothing is entered
or seen afterwards. -/
theorem walks_stop_in_time :
    (∀ q : Query, q.events none = q.trail ∧ StopsInTime [] fun bound => q.events bound) ∧
    ∀ e : Expr, e.events none = e.trail ∧ StopsInTime [e] fun bound => e.events bound := by
  refine ⟨fun q => ?_, fun e => ?_⟩
  · have hrecords : Records [] [] (fun bound => q.walk (recorder bound)) q.trail := Query.records q
    exact ⟨hrecords.unbounded, hrecords.stopsInTime⟩
  · have howned : e.OwnedBy [e] [] := ⟨e, List.mem_singleton_self e, .self⟩
    have hrecords := Expr.records e howned
    exact ⟨hrecords.unbounded, hrecords.stopsInTime⟩

/-- The walk stops in the nested query. The second slot and WHERE are not seen, but both queries are left. -/
example :
    let nested : Query := { projection := [.int 1, .int 2], name := some "t" }
    let q : Query := { tables := [.nested nested], predicate := some (.int 3) }
    q.events (some 1) = [.enter q, .enter nested, .see (.int 1), .leave nested, .leave q] := by
  rfl

end QueryTree
