/-
Queries composed by the operations of this library. What an operation is given may hold composed
queries under EXISTS, and these are part of the tree, also where no walk sees them. In every query of
such a tree that has a name the slots have names that differ, and memos hold columns.
-/
import QueryTree.Proofs.Everywhere

namespace QueryTree

/-! ## Composed queries -/

/-- A query that the operations compose: an empty query, a part of a composed query, what is left of
one when a part in its tables is put back changed, and what an operation leaves of one. -/
inductive Query.Composed : Query → Prop
  | fresh (name : Option String) : Composed { name }
  | part {q c : Query} : Composed q → c ∈ q.parts → Composed c
  | withPart {q c : Query} {t : Table} (i : Nat) : Composed q → Composed c → q.tables[i]? = some t →
      Composed { q with tables := q.tables.set i (t.withUnjoined (.nested c)) }
  | operation {q : Query} (op : Operation) (s : Session) : Composed q → (∀ c ∈ op.given, Composed c) →
      Composed (op.run s q)

namespace Query.Composed

/-- What an operation leaves that is given no queries. -/
theorem apply {q : Query} (op : Operation) (h : q.Composed) (hgiven : op.given = [] := by rfl) :
    (op.run {} q).Composed := by
  refine .operation op {} h ?_
  rw [hgiven]
  exact fun c hc => absurd hc List.not_mem_nil

/-- What an operation leaves that is given one query, as a table or under EXISTS. -/
theorem applyTo {q c : Query} (op : Operation) (h : q.Composed) (hc : c.Composed) (hgiven : op.given = [c] := by rfl) :
    (op.run {} q).Composed := by
  refine .operation op {} h ?_
  rw [hgiven]
  simpa using hc

end Query.Composed

/-! ## Sound trees -/

/-- Whether slots have names that differ is seen from their names, and from which of them are wildcards. -/
theorem SlotsNamed.of_shape {xs ys : List Expr} (h : SlotsNamed xs)
    (hs : ys.map (fun e => (e.outputName, e.isStar)) = xs.map fun e => (e.outputName, e.isStar)) : SlotsNamed ys := by
  refine ⟨fun y hy hstar => ?_, ?_⟩
  · have hmem := List.mem_map_of_mem (f := fun e : Expr => (e.outputName, e.isStar)) hy
    rw [hs] at hmem
    obtain ⟨x, hx, heq⟩ := List.mem_map.1 hmem
    obtain ⟨hname, hxs⟩ := Prod.mk.inj heq
    rw [← hname]
    exact h.named x hx (hxs.trans hstar)
  · have hnames : ∀ es : List Expr,
        es.filterMap Expr.outputName = (es.map fun e => (e.outputName, e.isStar)).filterMap Prod.fst := fun es => by
      rw [List.filterMap_map]; rfl
    rw [hnames, hs, ← hnames]
    exact h.distinct

namespace Query

/-- With a name to address them by, the slots have names that differ. The memo holds columns. -/
structure Orderly (q : Query) : Prop where
  slots : q.name.isSome = true → SlotsNamed q.projection
  memo : ∀ e ∈ q.memo.entries, e.isColumn = true

/-- Every query of the tree is in order. -/
def Sound (q : Query) : Prop := ∀ x : Query, x.Within q → x.Orderly

/-- Slots get names that differ, and nothing but columns is remembered. -/
theorem orderly_local : Local Orderly where
  memo h := h.memo
  fresh _ := ⟨fun _ => slotsNamed_nil, by simp⟩
  congr {q r} h hname hmemo _ _ hslots := by
    refine ⟨fun hr => (h.slots (hname ▸ hr)).of_shape hslots, ?_⟩
    rw [hmemo]
    exact h.memo
  projectNothing h := ⟨fun _ => slotsNamed_nil, h.memo⟩
  project e explicit q h := by
    obtain ⟨slots, keys, starred, heq⟩ := project_eq e explicit q
    constructor
    · intro hname
      rw [project_name] at hname
      exact slotsNamed_project e explicit (h.slots hname) hname
    · rw [heq]
      exact h.memo
  remember threshold e q he h := by
    refine ⟨h.slots, ?_⟩
    rcases StarMemo.remember_cases threshold e q.memo with ⟨entry, -, -, heq⟩ | ⟨-, heq⟩
    · rw [heq]
      exact h.memo
    · rw [heq]
      exact List.forall_mem_append.2 ⟨h.memo, by simpa using he⟩
  appendTable _ _ h := ⟨h.slots, h.memo⟩
  detachTable name q h := by
    unfold detachTable
    split
    · exact h
    · exact ⟨h.slots, h.memo⟩
  chooseWildcard _ h := ⟨h.slots, h.memo⟩
  pushedDown {t q p c copies added} hmoved h := by
    constructor
    · rw [hmoved.parent]
      exact ⟨fun _ => slotsNamed_nil, by simp⟩
    · refine ⟨fun _ => hmoved.named, ?_⟩
      rw [hmoved.child]
      exact h.memo

/-- In a sound tree a memo has no queries below it. -/
theorem sound_iff (q : Query) : q.Sound ↔ q.Orderly ∧ q.Below Sound ∧ ∀ m ∈ q.members, m.2.Below Sound := by
  rw [below_terms_iff]
  exact everywhere_iff orderly_local q

namespace Sound

variable {q r : Query}

theorem tables (h : q.Sound) : ∀ t ∈ q.tables, t.Below Sound := Everywhere.tables orderly_local h

theorem memo (h : q.Sound) : ∀ e ∈ q.memo.entries, e.isColumn = true := ((sound_iff q).1 h).1.memo

theorem grows (hg : q.Grows r) (h : q.Sound) : r.Sound := Everywhere.grows orderly_local hg h

/-- Any table may make room for a query. -/
theorem withPart {c : Query} {t : Table} {i : Nat} (h : q.Sound) (hc : c.Sound) (ht : q.tables[i]? = some t) :
    { q with tables := q.tables.set i (t.withUnjoined (.nested c)) }.Sound := by
  obtain ⟨horder, htables, hterms⟩ := (everywhere_iff orderly_local q).1 h
  refine (everywhere_iff orderly_local _).2 ⟨⟨horder.slots, horder.memo⟩, fun u hu => ?_, hterms⟩
  rcases List.mem_or_eq_of_mem_set hu with hu | rfl
  · exact htables u hu
  · exact Table.below_withUnjoined hc (htables t (List.mem_of_getElem? ht))

end Sound

theorem Composed.sound {q : Query} (h : q.Composed) : q.Sound := by
  induction h with
  | fresh name => exact everywhere_fresh orderly_local name
  | part _ hc ih => exact ((everywhere_iff_parts _).1 ih).2 _ hc
  | withPart _ _ _ ht ih ih' => exact ih.withPart ih' ht
  | operation op s _ _ ih hgiven => exact Everywhere.run orderly_local s ih op hgiven

end Query

/-! ## Names that do not clash -/

theorem SlotsNamed.clash_eq_false {slots : List Expr} (h : SlotsNamed slots) {i j : Nat} {a b : Expr} {m n : String}
    (hij : i ≠ j) (ha : slots[i]? = some a) (hb : slots[j]? = some b) (hm : a.outputName = some m)
    (hn : b.outputName = some n) : Name.clash m n = false := by
  rw [← Bool.not_eq_true, Name.clash_iff]
  obtain ⟨hi, rfl⟩ := List.getElem?_eq_some_iff.1 ha
  obtain ⟨hj, rfl⟩ := List.getElem?_eq_some_iff.1 hb
  rcases Nat.lt_or_gt_of_ne hij with hlt | hlt
  · exact List.pairwise_iff_getElem.1 h.pairwise i j hi hj hlt m hm n hn
  · exact (List.pairwise_iff_getElem.1 h.pairwise j i hj hi hlt n hn m hm).symm

/-- In a composed tree, a query with a name has a name for every slot but wildcards, and no two of its
slots have names that clash. -/
theorem slot_names_of_composed {q x : Query} (hq : q.Composed) (hx : x.Within q) (hname : x.name.isSome = true) :
    (∀ e ∈ x.projection, e.isStar = false → e.outputName.isSome = true) ∧
      ∀ (i j : Nat) (a b : Expr) (m n : String), i ≠ j → x.projection[i]? = some a → x.projection[j]? = some b →
        a.outputName = some m → b.outputName = some n → Name.clash m n = false := by
  have hslots : SlotsNamed x.projection := (hq.sound x hx).slots hname
  exact ⟨hslots.named, fun i j a b m n hij ha hb hm hn => hslots.clash_eq_false hij ha hb hm hn⟩

/-- Two columns of a nested query whose names differ in case alone: the second slot gets a name of its own. -/
theorem slot_names_of_recased :
    let people := ({ name := some "t" } : Query).appendTable (.base "People" none "p" (some ⟨1⟩))
    let t := ((people.project (.column "p" (some ⟨1⟩) "Name" .text) false).2.project
      (.column "p" (some ⟨1⟩) "NAME" .text) false).2
    let q := ({} : Query).appendTable (.nested t)
    q.Composed ∧ t.Within q ∧ t.name.isSome = true ∧
      t.projection.map Expr.outputName = [some "Name", some "NAME0"] ∧
      (∀ e ∈ t.projection, e.isStar = false → e.outputName.isSome = true) ∧
      ∀ (i j : Nat) (a b : Expr) (m n : String), i ≠ j → t.projection[i]? = some a → t.projection[j]? = some b →
        a.outputName = some m → b.outputName = some n → Name.clash m n = false := by
  intro people t q
  have ht : t.Composed := (Query.Composed.fresh (some "t")).apply (.appendTable (.base "People" none "p" (some ⟨1⟩)))
    |>.apply (.project (.column "p" (some ⟨1⟩) "Name" .text) false)
    |>.apply (.project (.column "p" (some ⟨1⟩) "NAME" .text) false)
  have hq : q.Composed := (Query.Composed.fresh none).applyTo (.appendTable (.nested t)) ht
  have hwithin : t.Within q := .part (by simp [Query.parts, Query.children, q, Query.appendTable, Table.children]) .root
  exact ⟨hq, hwithin, rfl, by decide +kernel, slot_names_of_composed hq hwithin rfl⟩

end QueryTree
