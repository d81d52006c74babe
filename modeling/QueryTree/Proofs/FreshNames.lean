/-
Names that a session gives out. Whatever names were given out and reserved before, a stem gets the first
name that is free: the stem itself, else the stem with the least number that is left. The search goes on
after the number that the stem got last, and no number behind it is free.
-/
import QueryTree.Session
import QueryTree.Proofs.Names

namespace QueryTree

/-! ## Association lists -/

theorem lookup_cons_ite {ν : Type} (k key : String) (value : ν) (entries : List (String × ν)) :
    List.lookup k ((key, value) :: entries) = if k = key then some value else entries.lookup k := by
  rw [List.lookup_cons]
  by_cases hk : k = key
  · rw [beq_iff_eq.2 hk, if_pos hk]
  · rw [beq_false_of_ne hk, if_neg hk]

theorem Assoc.lookup_put {ν : Type} (k key : String) (value : ν) : ∀ entries : List (String × ν),
    (put key value entries).lookup k = if k = key then some value else entries.lookup k
  | [] => lookup_cons_ite k key value []
  | (key', v) :: entries => by
    rw [put]
    by_cases hkey : key' = key
    · subst hkey
      rw [if_pos (beq_self_eq_true key'), lookup_cons_ite, lookup_cons_ite]
      by_cases hk : k = key'
      · rw [if_pos hk, if_pos hk]
      · rw [if_neg hk, if_neg hk, if_neg hk]
    · rw [if_neg (by simpa using hkey), lookup_cons_ite, lookup_cons_ite, lookup_put k key value entries]
      by_cases hk : k = key'
      · subst hk
        rw [if_pos rfl, if_pos rfl, if_neg hkey]
      · rw [if_neg hk, if_neg hk]

namespace Name

theorem numbered_injective (stem : String) : Function.Injective (numbered stem) := by
  intro m n h
  exact lowercase_numbered_injective stem (congrArg Text.lowercase h)

end Name

namespace Session

/-! ## Calls -/

/-- What a caller asks of a session as to names. -/
inductive Call
  | create (stem : String)
  | createSubquery
  | reserve (name : String)

/-- What has become of a name. -/
inductive Event
  | issued (name : String)
  | reserved (name : String)

def Event.name : Event → String
  | issued name | reserved name => name

/-- The event of a request for a name, none if the request fails, and the session that it leaves. -/
def answered : EStateM.Result Error Session String → List Event × Session
  | .ok name s => ([.issued name], s)
  | .error _ s => ([], s)

def Call.run (s : Session) : Call → List Event × Session
  | create stem => answered (createName stem s)
  | createSubquery => answered (createSubqueryName s)
  | reserve name => ([.reserved name], s.reserve name)

/-- The events of calls made one after the other, and the session that they leave. -/
def run (s : Session) : List Call → List Event × Session
  | [] => ([], s)
  | c :: calls =>
    let (events, s) := c.run s
    let (later, s) := s.run calls
    (events ++ later, s)

/-! ## Names that are free -/

/-- The first name for a stem that is not among the used ones. -/
inductive FirstUnused (used : List String) (stem : String) : String → Prop
  | bare : stem ∉ used → FirstUnused used stem stem
  | numbered {n : Nat} : stem ∈ used → Name.numbered stem n ∉ used → (∀ m < n, Name.numbered stem m ∈ used) →
      FirstUnused used stem (Name.numbered stem n)

theorem FirstUnused.not_mem {used : List String} {stem name : String} (h : FirstUnused used stem name) :
    name ∉ used := by
  cases h with
  | bare hfree => exact hfree
  | numbered _ hfree _ => exact hfree

theorem FirstUnused.unique {used : List String} {stem name name' : String} (h : FirstUnused used stem name)
    (h' : FirstUnused used stem name') : name = name' := by
  rcases h with hfree | ⟨hused, hfree, hbelow⟩ <;> rcases h' with hfree' | ⟨hused', hfree', hbelow'⟩
  · rfl
  · exact absurd hused' hfree
  · exact absurd hused hfree'
  · rename_i n n'
    rcases Nat.lt_trichotomy n n' with hlt | rfl | hlt
    · exact absurd (hbelow' n hlt) hfree
    · rfl
    · exact absurd (hbelow n' hlt) hfree'

/-- No name is issued that was issued or reserved earlier. -/
def NoneReissued (events : List Event) : Prop :=
  events.Pairwise fun earlier later => ∀ name, later = .issued name → earlier.name ≠ name

theorem noneReissued_concat {events : List Event} {e : Event} (h : NoneReissued events)
    (he : ∀ name, e = .issued name → name ∉ events.map Event.name) : NoneReissued (events ++ [e]) := by
  refine List.pairwise_append.2 ⟨h, List.pairwise_singleton _ e, ?_⟩
  intro earlier hearlier later hlater name hname heq
  rw [List.mem_singleton.1 hlater] at hname
  exact he name hname (heq ▸ List.mem_map_of_mem hearlier)

/-! ## What a session keeps -/

/-- A session as it is after some events. The number to try next for a stem has no free one behind it. -/
structure After (settings : Settings) (events : List Event) (s : Session) : Prop where
  settings : s.settings = settings
  taken : ∀ name, name ∈ s.taken ↔ name ∈ events.map Event.name
  passed : ∀ stem, ∀ m < (s.numbers.lookup stem).getD 0, Name.numbered stem m ∈ events.map Event.name
  distinct : NoneReissued events

variable {settings : Settings} {events : List Event} {s : Session}

theorem after_nothing (settings : Settings) : After settings [] { settings } where
  settings := rfl
  taken _ := Iff.rfl
  passed _ m hm := absurd hm (Nat.not_lt_zero m)
  distinct := List.Pairwise.nil

theorem createName_empty (s : Session) : Session.createName "" s = .error .emptyStem s := rfl

theorem createName_eq {stem : String} (hstem : stem ≠ "") (s : Session) :
    let (name, next) := Name.firstFree (· == ·) s.taken stem ((s.numbers.lookup stem).getD 0)
    Session.createName stem s =
      .ok name { s with taken := s.taken ++ [name], numbers := Assoc.put stem next s.numbers } := by
  have hempty : ¬stem.isEmpty = true := by simpa using hstem
  unfold Session.createName
  rw [if_neg hempty]
  rfl

/-- The name is the first one unused, and the number to go on from is right behind it. -/
theorem After.firstFree (h : After settings events s) (stem : String) :
    ∃ name next, Name.firstFree (· == ·) s.taken stem ((s.numbers.lookup stem).getD 0) = (name, next) ∧
      FirstUnused (events.map Event.name) stem name ∧
      ∀ m < next, Name.numbered stem m ∈ events.map Event.name ∨ Name.numbered stem m = name := by
  have hsame : ∀ a b : String, (a == b) = true ↔ id a = id b := fun a b => beq_iff_eq
  generalize hstart : (s.numbers.lookup stem).getD 0 = start
  have hpassed : ∀ m < start, Name.numbered stem m ∈ events.map Event.name := by
    intro m hm
    exact h.passed stem m (hstart ▸ hm)
  -- The bare stem goes first; once it is taken, the numbers go on from where the last search ended.
  by_cases hstem : stem ∈ s.taken
  · have hmem : id stem ∈ s.taken.map id := by rwa [List.map_id]
    obtain ⟨n, hn, -, hfree, hbetween⟩ := Name.firstFree_of_mem hsame (Name.numbered_injective stem) hmem start
    rw [List.map_id] at hfree
    simp only [List.map_id, id, h.taken] at hfree hbetween
    have hbelow : ∀ m < n, Name.numbered stem m ∈ events.map Event.name := by
      intro m hm
      rcases Nat.lt_or_ge m start with hlt | hge
      · exact hpassed m hlt
      · exact hbetween m hge hm
    refine ⟨Name.numbered stem n, n + 1, hn, .numbered ((h.taken stem).1 hstem) hfree hbelow, ?_⟩
    intro m hm
    rcases Nat.lt_or_eq_of_le (Nat.le_of_lt_succ hm) with hlt | rfl
    · exact .inl (hbelow m hlt)
    · exact .inr rfl
  · have hmem : id stem ∉ s.taken.map id := by rwa [List.map_id]
    refine ⟨stem, start, Name.firstFree_of_not_mem hsame hmem start, .bare (mt (h.taken stem).2 hstem), ?_⟩
    intro m hm
    exact .inl (hpassed m hm)

/-- A stem that is not empty gets the first name that is unused. -/
theorem After.createName (h : After settings events s) {stem : String} (hstem : stem ≠ "") :
    ∃ name s', Session.createName stem s = .ok name s' ∧ FirstUnused (events.map Event.name) stem name ∧
      After settings (events ++ [.issued name]) s' := by
  obtain ⟨name, next, hfree, hunused, hnext⟩ := h.firstFree stem
  have hok := createName_eq hstem s
  rw [hfree] at hok
  refine ⟨name, _, hok, hunused, ?_⟩
  refine ⟨h.settings, ?_, ?_, noneReissued_concat h.distinct ?_⟩
  · intro name'
    simp only [List.mem_append, List.map_append, h.taken, List.map_cons, List.map_nil, Event.name]
  · intro stem' m hm
    rw [Assoc.lookup_put] at hm
    rw [List.map_append, List.mem_append, List.map_singleton, List.mem_singleton, Event.name]
    by_cases heq : stem' = stem
    · rw [if_pos heq] at hm
      exact heq ▸ hnext m hm
    · rw [if_neg heq] at hm
      exact .inl (h.passed stem' m hm)
  · intro name' hname
    cases hname
    exact hunused.not_mem

theorem After.reserve (h : After settings events s) (name : String) :
    After settings (events ++ [Event.reserved name]) (s.reserve name) := by
  have hnames : (events ++ [Event.reserved name]).map Event.name = events.map Event.name ++ [name] := List.map_append
  have hdistinct : NoneReissued (events ++ [Event.reserved name]) :=
    noneReissued_concat h.distinct fun _ heq => nomatch heq
  have hpassed : ∀ stem, ∀ m < (s.numbers.lookup stem).getD 0,
      Name.numbered stem m ∈ (events ++ [Event.reserved name]).map Event.name := by
    intro stem m hm
    rw [hnames]
    exact List.mem_append_left _ (h.passed stem m hm)
  unfold Session.reserve
  by_cases htaken : s.isTaken name = true
  · -- The name is among the used ones already.
    rw [if_pos htaken]
    refine ⟨h.settings, ?_, hpassed, hdistinct⟩
    intro name'
    have hname : name ∈ events.map Event.name := (h.taken name).1 (List.contains_iff_mem.1 htaken)
    rw [h.taken, hnames, List.mem_append, List.mem_singleton]
    constructor
    · exact .inl
    · rintro (hused | rfl)
      · exact hused
      · exact hname
  · rw [if_neg htaken]
    refine ⟨h.settings, ?_, hpassed, hdistinct⟩
    intro name'
    rw [hnames]
    simp only [List.mem_append, h.taken]

/-- A request adds its event, and one for the empty stem nothing. -/
theorem After.answered (h : After settings events s) (stem : String) :
    After settings (events ++ (answered (Session.createName stem s)).1)
      (Session.answered (Session.createName stem s)).2 := by
  by_cases hstem : stem = ""
  · subst hstem
    rw [createName_empty, Session.answered, List.append_nil]
    exact h
  · obtain ⟨name, s', hok, -, hafter⟩ := h.createName hstem
    rw [hok]
    exact hafter

theorem createSubqueryName_eq (s : Session) :
    createSubqueryName s = Session.createName s.settings.subqueryStem s := rfl

theorem After.call (h : After settings events s) (c : Call) : After settings (events ++ (c.run s).1) (c.run s).2 := by
  cases c with
  | create stem => exact h.answered stem
  | createSubquery =>
    rw [Call.run, createSubqueryName_eq]
    exact h.answered _
  | reserve name => exact h.reserve name

theorem After.run : ∀ {events : List Event} {s : Session}, After settings events s → ∀ calls : List Call,
    After settings (events ++ (s.run calls).1) (s.run calls).2
  | events, s, h, [] => by
    rw [Session.run, List.append_nil]
    exact h
  | events, s, h, c :: calls => by
    have hrest := (h.call c).run calls
    rw [List.append_assoc] at hrest
    exact hrest

/-- After any calls a stem gets the first name that was neither issued nor reserved, whatever the
settings. The empty stem gets none and changes nothing, names for subqueries are made from the configured
stem, and no name that was issued or reserved is ever issued again. -/
theorem first_unused_after_calls (settings : Settings) (calls : List Call) :
    let r := run { settings } calls
    (∀ stem, stem ≠ "" → ∃ name s', Session.createName stem r.2 = .ok name s' ∧
      FirstUnused (r.1.map Event.name) stem name) ∧
    Session.createName "" r.2 = .error .emptyStem r.2 ∧
    createSubqueryName r.2 = Session.createName settings.subqueryStem r.2 ∧
    NoneReissued r.1 := by
  intro r
  have h : After settings r.1 r.2 := (after_nothing settings).run calls
  refine ⟨?_, createName_empty _, ?_, h.distinct⟩
  · intro stem hstem
    obtain ⟨name, s', hok, hunused, -⟩ := h.createName hstem
    exact ⟨name, s', hok, hunused⟩
  · rw [createSubqueryName_eq, h.settings]

/-- A number that the caller has reserved is passed over, and so is one that the stem got before. -/
theorem first_unused_beside_reserved :
    let r := run {} [.reserve "t1", .create "t", .createSubquery, .create "t0"]
    r.1.map Event.name = ["t1", "t", "t0", "t00"] ∧ "t" ≠ "" ∧
      ∃ s', Session.createName "t" r.2 = .ok "t2" s' := by
  intro r
  have hused : r.1.map Event.name = ["t1", "t", "t0", "t00"] := by decide
  have hstem : "t" ≠ "" := by decide
  refine ⟨hused, hstem, ?_⟩
  obtain ⟨name, s', hok, hunused⟩ := (first_unused_after_calls {} _).1 "t" hstem
  rw [hused] at hunused
  have hname : name = "t2" := hunused.unique (@FirstUnused.numbered _ _ 2 (by decide) (by decide) (by decide))
  exact ⟨s', hname ▸ hok⟩

end Session
end QueryTree
