/-
JSON and back. What is written of a tree is read as the bare tree, if none of the floating-point values in
it, at any depth, is infinite or a NaN.
-/
import QueryTree.Proofs.Restored.Bare

namespace QueryTree

/-! ## Leaves -/

namespace Json

@[simp] theorem text?_text (s : String) : (text s).text? = some s := rfl

@[simp] theorem list?_list (items : List Json) : (list items).list? = some items := rfl

@[simp] theorem variant?_object (tag : String) (content : Json) :
    (object [(tag, content)]).variant? = some (tag, some content) := rfl

@[simp] theorem record?_object (names : List String) (fields : List (String × Json)) :
    (object fields).record? names = some fun name => (fields.lookup name).getD null := rfl

end Json

theorem Kind.ofJson?_text (k : Kind) : ofJson? (.text k.jsonName) = some k := by cases k <;> rfl

theorem BinaryOp.ofJson?_text (op : BinaryOp) : ofJson? (.text op.jsonName) = some op := by cases op <;> rfl

theorem Direction.ofJson?_text (d : Direction) : ofJson? (.text d.jsonName) = some d := by cases d <;> rfl

theorem JoinKind.ofJson?_text (k : JoinKind) : ofJson? (.text k.jsonName) = some k := by cases k <;> rfl

theorem DataType.ofJson?_toJson (t : DataType) : ofJson? t.toJson = some t := by
  simp [ofJson?, toJson, List.lookup_cons, Json.bool?, Kind.ofJson?_text]

theorem Source.ofJson?_toJson (s : Source) : ofJson? s.toJson = some s := by
  have hbound : s.id.toNat ≤ 4294967295 := by
    have := s.id.toNat_lt
    omega
  simp [ofJson?, toJson, Json.int?, hbound]

theorem Literal.ofJson?_toJson {v : Literal} (h : ∀ x, v = double x → x.isFinite = true) :
    ofJson? v.toJson = some v := by
  cases v with
  | null => rfl
  | boolean b => rfl
  | integer n =>
    have hlow := n.minValue_le_toInt
    have hhigh := n.toInt_le
    simp only [ofJson?, toJson, Json.variant?, Json.int?, hlow, hhigh, decide_true, Bool.and_self, if_true,
      Option.map_some, Int64.ofInt_toInt]
  | double x => simp [ofJson?, toJson, Json.double?, h x rfl]
  | text s => rfl

/-! ## Lists and absent values -/

section Lists

variable {α : Type} {write : α → Json} {read : Json → Option α} {f : α → α}

theorem mapM_read {as : List α} (h : ∀ a ∈ as, read (write a) = some (f a)) :
    (as.map write).mapM read = some (as.map f) := by
  induction as with
  | nil => rfl
  | cons a as ih =>
    obtain ⟨ha, has⟩ := List.forall_mem_cons.1 h
    simp [ha, ih has]

theorem optional?_ofOption {o : Option α} (hnull : ∀ a, write a ≠ .null) (h : ∀ a ∈ o, read (write a) = some (f a)) :
    (Json.ofOption write o).optional? read = some (o.map f) := by
  cases o with
  | none => rfl
  | some a =>
    have hread : (write a).optional? read = (read (write a)).map some := by
      have := hnull a
      unfold Json.optional?
      split
      · contradiction
      · rfl
    simp [Json.ofOption, hread, h a rfl]

end Lists

/-! ## Nesting -/

namespace Json

theorem depth_le_itemsDepth {j : Json} : ∀ {items : List Json}, j ∈ items → j.depth ≤ itemsDepth items
  | i :: items, h => by
    rw [itemsDepth]
    rcases List.mem_cons.1 h with rfl | h
    · omega
    · have := depth_le_itemsDepth h
      omega

theorem depth_le_fieldsDepth {name : String} {j : Json} : ∀ {fields : List (String × Json)}, (name, j) ∈ fields →
    j.depth ≤ fieldsDepth fields
  | (_, i) :: fields, h => by
    rw [fieldsDepth]
    rcases List.mem_cons.1 h with heq | h
    · cases heq
      omega
    · have := depth_le_fieldsDepth h
      omega

end Json

/-! ## Finite values -/

/-- None of its constants is an infinity or a NaN. Queries under EXISTS are not looked at. -/
def Expr.Finite (e : Expr) : Prop := ∀ x ty, (constant (.double x) ty).PartOf e → x.isFinite = true

/-- None of the constants in a query is an infinity or a NaN, wherever its expressions stand. Queries below
it are not looked at. -/
def Query.Finite (q : Query) : Prop := ∀ e ∈ q.slots ++ q.members.map (·.2) ++ q.memo.entries, e.Finite

theorem Expr.finite_iff {e : Expr} : e.Finite ↔
    (∀ x ty, e = constant (.double x) ty → x.isFinite = true) ∧ ∀ o ∈ e.operands, o.Finite := by
  constructor
  · intro h
    exact ⟨fun x ty he => h x ty (he ▸ .self), fun o ho x ty hx => h x ty (.operand ho hx)⟩
  · rintro ⟨hself, hoperands⟩ x ty hx
    cases hx with
    | self => exact hself x ty rfl
    | operand ho hx => exact hoperands _ ho x ty hx

/-! ## Trees -/

/-- At sufficient depth what is written of `e` is read as the bare expression. -/
def Expr.ReadsBare (e : Expr) : Prop := ∀ depth, e.toJson.depth < depth → readExpr depth e.toJson = some e.bare

def Table.ReadsBare (t : Table) : Prop := ∀ depth, t.toJson.depth < depth → readTable depth t.toJson = some t.bare

def Query.ReadsBare (q : Query) : Prop := ∀ depth, q.toJson.depth < depth → readQuery depth q.toJson = some q.bare

theorem Expr.toJson_ne_null (e : Expr) : e.toJson ≠ .null := by cases e <;> simp [toJson]

theorem mapM_readExpr (depth : Nat) {es : List Expr} (h : ∀ e ∈ es, e.ReadsBare)
    (hd : Json.itemsDepth (es.map Expr.toJson) < depth) :
    (es.map Expr.toJson).mapM (readExpr depth) = some (es.map Expr.bare) :=
  mapM_read fun e he => h e he depth ((Json.depth_le_itemsDepth (List.mem_map_of_mem he)).trans_lt hd)

theorem mapM_readTable (depth : Nat) {ts : List Table} (h : ∀ t ∈ ts, t.ReadsBare)
    (hd : Json.itemsDepth (ts.map Table.toJson) < depth) :
    (ts.map Table.toJson).mapM (readTable depth) = some (ts.map Table.bare) :=
  mapM_read fun t ht => h t ht depth ((Json.depth_le_itemsDepth (List.mem_map_of_mem ht)).trans_lt hd)

/-- A key is nested one deeper than its expression. -/
theorem mapM_readKey (depth : Nat) {keys : List OrderKey} (h : ∀ k ∈ keys, k.expr.ReadsBare)
    (hd : Json.itemsDepth (keys.map OrderKey.toJson) < depth) :
    (keys.map OrderKey.toJson).mapM (readKey depth) = some (keys.map OrderKey.bare) := by
  refine mapM_read fun ⟨e, direction⟩ hk => ?_
  have hdepth := (Json.depth_le_itemsDepth (List.mem_map_of_mem hk)).trans_lt hd
  simp only [OrderKey.toJson, Json.depth, Json.fieldsDepth] at hdepth
  obtain ⟨depth, rfl⟩ : ∃ d, depth = d + 1 := ⟨depth - 1, by omega⟩
  have he := h _ hk depth (by simp only; omega)
  simp only at he
  simp [OrderKey.toJson, readKey, List.lookup_cons, he, Direction.ofJson?_text, OrderKey.bare]

theorem mapM_readMember (depth : Nat) {members : List (String × Expr)} (h : ∀ m ∈ members, m.2.ReadsBare)
    (hd : Json.fieldsDepth (members.map fun (member, e) => (member, e.toJson)) < depth) :
    ((members.map fun (member, e) => (member, e.toJson)).mapM fun (member, j) => return (member, ← readExpr depth j)) =
      some (members.map fun (member, e) => (member, e.bare)) := by
  induction members with
  | nil => rfl
  | cons m members ih =>
    obtain ⟨hm, hmembers⟩ := List.forall_mem_cons.1 h
    rw [List.map_cons, Json.fieldsDepth] at hd
    have he := hm depth (by omega)
    have hrest := ih hmembers (by omega)
    simp only [bind_pure_comp, Option.map_eq_map] at hrest ⊢
    simp [he, hrest]

/-- A join condition, WHERE, LIMIT or OFFSET. -/
theorem optional?_readExpr (depth : Nat) {o : Option Expr} (h : ∀ e ∈ o, e.ReadsBare)
    (hd : (Json.ofOption Expr.toJson o).depth < depth) :
    (Json.ofOption Expr.toJson o).optional? (readExpr depth) = some (o.map Expr.bare) := by
  refine optional?_ofOption Expr.toJson_ne_null fun e he => h e he depth ?_
  rw [he] at hd
  exact hd

theorem optional?_source (source : Option Source) :
    (Json.ofOption Source.toJson source).optional? Source.ofJson? = some source := by
  have hnull (s : Source) : s.toJson ≠ .null := by simp [Source.toJson]
  rw [optional?_ofOption (f := id) hnull fun s _ => s.ofJson?_toJson, Option.map_id, id]

theorem optional?_text (text : Option String) : (Json.ofOption .text text).optional? Json.text? = some text := by
  cases text <;> rfl

theorem Expr.readsBare {e : Expr} (hfinite : e.Finite) (hbelow : e.Below Query.ReadsBare) : e.ReadsBare := by
  induction e using induct with
  | h e ih =>
    obtain ⟨hconstant, hfinite⟩ := finite_iff.1 hfinite
    have hoperands : ∀ x ∈ e.operands, x.ReadsBare := fun x hx =>
      ih x hx (hfinite x hx) fun c hc => hbelow c (mem_children_iff.2 (.inr ⟨x, hx, hc⟩))
    intro depth hd
    -- One level of the depth is spent on the expression itself.
    obtain ⟨depth, rfl⟩ : ∃ d, depth = d + 1 := ⟨depth - 1, by omega⟩
    cases e with
    | column table source name type =>
      simp [toJson, readExpr, List.lookup_cons, optional?_source,
        DataType.ofJson?_toJson, bare]
    | named name inner =>
      simp only [toJson, Json.depth, Json.fieldsDepth] at hd
      have hinner := hoperands inner (List.mem_singleton_self _) depth (by omega)
      simp [toJson, readExpr, List.lookup_cons, hinner, bare]
    | star => simp [toJson, readExpr, List.lookup_cons, bare]
    | output | parameter =>
      simp [toJson, readExpr, List.lookup_cons, DataType.ofJson?_toJson, bare]
    | constant value type =>
      have hvalue : Literal.ofJson? value.toJson = some value :=
        Literal.ofJson?_toJson fun x hx => hconstant x type (congrArg (constant · type) hx)
      simp [toJson, readExpr, List.lookup_cons, hvalue, DataType.ofJson?_toJson, bare]
    | rowNumber keys =>
      simp only [toJson, keysJson_eq_map, Json.depth, Json.fieldsDepth] at hd
      have hkeys := mapM_readKey depth (fun k hk => hoperands _ (List.mem_map_of_mem hk)) (by omega)
      simp [toJson, readExpr, List.lookup_cons, hkeys, bare]
    | cast operand type =>
      simp only [toJson, Json.depth, Json.fieldsDepth] at hd
      have hoperand := hoperands operand (List.mem_singleton_self _) depth (by omega)
      simp [toJson, readExpr, List.lookup_cons, hoperand, DataType.ofJson?_toJson, bare]
    | binary op left right =>
      simp only [toJson, Json.depth, Json.fieldsDepth] at hd
      have hleft := hoperands left List.mem_cons_self depth (by omega)
      have hright := hoperands right (List.mem_cons_of_mem _ (List.mem_singleton_self _)) depth (by omega)
      simp [toJson, readExpr, List.lookup_cons, hleft, hright, BinaryOp.ofJson?_text, bare]
    | not operand =>
      simp only [toJson, Json.depth, Json.fieldsDepth] at hd
      have hoperand := hoperands operand (List.mem_singleton_self _) depth (by omega)
      simp [toJson, readExpr, hoperand, bare]
    | call function args type =>
      simp only [toJson, exprsJson_eq_map, Json.depth, Json.fieldsDepth] at hd
      have hargs := mapM_readExpr depth hoperands (by simp only [operands]; omega)
      simp only [operands] at hargs
      simp [toJson, readExpr, List.lookup_cons, hargs,
        DataType.ofJson?_toJson, bare]
    | exist q =>
      simp only [toJson, Json.depth, Json.fieldsDepth] at hd
      have hq := hbelow q (List.mem_singleton_self _) depth (by omega)
      simp [toJson, readExpr, List.lookup_cons, hq, bare]

theorem Table.readsBare : ∀ {t : Table}, (∀ e ∈ t.conditions, e.Finite) → t.Below Query.ReadsBare → t.ReadsBare
  | .base table schema name source, _, _, depth, hd => by
    obtain ⟨depth, rfl⟩ : ∃ d, depth = d + 1 := ⟨depth - 1, by omega⟩
    simp [toJson, readTable, List.lookup_cons, optional?_text, optional?_source, bare]
  | .join kind target condition, hfinite, hbelow, depth, hd => by
    obtain ⟨depth, rfl⟩ : ∃ d, depth = d + 1 := ⟨depth - 1, by omega⟩
    obtain ⟨htarget, hcondition⟩ := List.forall_mem_append.1 hbelow
    simp only [toJson, optionJson_eq_ofOption, Json.depth, Json.fieldsDepth] at hd
    have ht := readsBare (fun e he => hfinite e (List.mem_append_left _ he)) htarget depth (by omega)
    have hc : ∀ e ∈ condition, e.ReadsBare := fun e he => by
      have he := Option.mem_toList.2 he
      exact Expr.readsBare (hfinite e (List.mem_append_right _ he)) fun c hc =>
        hcondition c (List.mem_flatMap_of_mem he hc)
    have hc := optional?_readExpr depth hc (by omega)
    simp [toJson, readTable, List.lookup_cons, JoinKind.ofJson?_text, ht, hc, bare]
  | .nested q, _, hbelow, depth, hd => by
    obtain ⟨depth, rfl⟩ : ∃ d, depth = d + 1 := ⟨depth - 1, by omega⟩
    simp only [toJson, Json.depth, Json.fieldsDepth] at hd
    have hq := hbelow q (List.mem_singleton_self q) depth (by omega)
    simp [toJson, readTable, hq, bare]

namespace Query

/-- What is written of a query, field by field. -/
def jsonFields (q : Query) : List (String × Json) :=
  [("tables", .list (q.tables.map Table.toJson)), ("projection", .list (q.projection.map Expr.toJson)),
    ("predicate", .ofOption Expr.toJson q.predicate), ("order_by", .list (q.orderBy.map OrderKey.toJson)),
    ("limit", .ofOption Expr.toJson q.limit), ("offset", .ofOption Expr.toJson q.offset),
    ("is_distinct", .bool q.distinct), ("alias", .ofOption .text q.name),
    ("is_star_projected", .bool q.starred), ("star_table", .ofOption .text q.wildcardChoice),
    ("star_bindings", .object [("entries", .list (q.memo.entries.map Expr.toJson))]),
    ("member_projections", .object (q.members.map fun (member, e) => (member, e.toJson)))]

theorem toJson_eq (q : Query) : q.toJson = .object q.jsonFields := by
  rcases q with ⟨_, _, _, _, _, _, _, _, _, _, ⟨_, _⟩, _⟩
  simp only [toJson, jsonFields, tablesJson_eq_map, exprsJson_eq_map, optionJson_eq_ofOption, keysJson_eq_map,
    membersJson_eq_map]

theorem nodup_jsonFields (q : Query) : (q.jsonFields.map Prod.fst).Nodup := by
  show List.Nodup ["tables", "projection", "predicate", "order_by", "limit", "offset", "is_distinct", "alias",
    "is_star_projected", "star_table", "star_bindings", "member_projections"]
  decide

theorem readsBare (q : Query) : q.Everywhere Finite → q.ReadsBare := by
  induction q using induct_parts with
  | h q ih =>
    intro h depth hd
    obtain ⟨hroot, hparts⟩ := (everywhere_iff_parts q).1 h
    obtain ⟨hfinite, hclauses, hmembers⟩ := forall_expressions_iff.1 hroot
    obtain ⟨htables, hbelow, hmembersBelow⟩ := forall_parts_iff.1 fun c hc => ih c hc (hparts c hc)
    have hexprs (es : List Expr) (hes : es ∈ q.clauses) : ∀ e ∈ es, e.ReadsBare := fun e he =>
      Expr.readsBare (hclauses es hes e he) (hbelow es hes e he)
    simp only [clauses, List.forall_mem_cons, List.not_mem_nil, false_imp_iff, implies_true, and_true,
      Option.mem_toList, List.forall_mem_map] at hexprs
    obtain ⟨hprojection, hpredicate, hkeys, hlimit, hoffset, hmemo⟩ := hexprs
    obtain ⟨depth, rfl⟩ : ∃ d, depth = d + 1 := ⟨depth - 1, by omega⟩
    rw [toJson_eq] at hd ⊢
    -- Each field is found under its name and nested less deep than the query.
    obtain ⟨field, hrecord⟩ : ∃ field, ∀ names, (Json.object q.jsonFields).record? names = some field :=
      ⟨_, fun _ => rfl⟩
    have hfields : ∀ f ∈ q.jsonFields, field f.1 = f.2 ∧ f.2.depth < depth := by
      intro f hf
      have hfield : field = fun name => (q.jsonFields.lookup name).getD .null := (Option.some.inj (hrecord [])).symm
      have := Json.depth_le_fieldsDepth hf
      rw [Json.depth] at hd
      refine ⟨?_, by omega⟩
      simp only [hfield, lookup_of_mem q.nodup_jsonFields hf, Option.getD_some]
    simp only [jsonFields, List.forall_mem_cons, List.not_mem_nil, false_imp_iff, implies_true, and_true, Json.depth,
      Json.fieldsDepth] at hfields
    obtain ⟨⟨ftables, dtables⟩, ⟨fprojection, dprojection⟩, ⟨fpredicate, dpredicate⟩, ⟨fkeys, dkeys⟩, ⟨flimit, dlimit⟩,
      ⟨foffset, doffset⟩, ⟨fdistinct, -⟩, ⟨fname, -⟩, ⟨fstarred, -⟩, ⟨fchoice, -⟩, ⟨fmemo, dmemo⟩, fmembers,
      dmembers⟩ :=
      hfields
    have rtables := mapM_readTable depth (fun t ht => Table.readsBare (hfinite t ht) (htables t ht)) (by omega)
    have rprojection := mapM_readExpr depth hprojection (by omega)
    have rpredicate := optional?_readExpr depth hpredicate dpredicate
    have rkeys := mapM_readKey depth hkeys (by omega)
    have rlimit := optional?_readExpr depth hlimit dlimit
    have roffset := optional?_readExpr depth hoffset doffset
    have rmemo := mapM_readExpr depth hmemo (by omega)
    have rmembers := mapM_readMember depth (fun m hm => Expr.readsBare (hmembers m hm) (hmembersBelow m hm))
      (Nat.lt_of_succ_lt dmembers)
    rw [readQuery, bare_eq]
    refine Option.bind_eq_some_iff.2 ⟨field, hrecord _, ?_⟩
    refine Option.bind_eq_some_iff.2 ⟨_, congrArg (Json.record? ["entries"]) fmemo, ?_⟩
    refine Option.bind_eq_some_iff.2 ⟨_, congrArg Json.object? fmembers, ?_⟩
    refine Option.bind_eq_some_iff.2 ⟨_, congrArg Json.list? ftables, ?_⟩
    refine Option.bind_eq_some_iff.2 ⟨_, rtables, ?_⟩
    refine Option.bind_eq_some_iff.2 ⟨_, congrArg Json.list? fprojection, ?_⟩
    refine Option.bind_eq_some_iff.2 ⟨_, rprojection, ?_⟩
    refine Option.bind_eq_some_iff.2 ⟨_, fpredicate ▸ rpredicate, ?_⟩
    refine Option.bind_eq_some_iff.2 ⟨_, congrArg Json.list? fkeys, ?_⟩
    refine Option.bind_eq_some_iff.2 ⟨_, rkeys, ?_⟩
    refine Option.bind_eq_some_iff.2 ⟨_, flimit ▸ rlimit, ?_⟩
    refine Option.bind_eq_some_iff.2 ⟨_, foffset ▸ roffset, ?_⟩
    refine Option.bind_eq_some_iff.2 ⟨_, congrArg Json.bool? fdistinct, ?_⟩
    refine Option.bind_eq_some_iff.2 ⟨_, fname ▸ optional?_text q.name, ?_⟩
    refine Option.bind_eq_some_iff.2 ⟨_, congrArg Json.bool? fstarred, ?_⟩
    refine Option.bind_eq_some_iff.2 ⟨_, fchoice ▸ optional?_text q.wildcardChoice, ?_⟩
    refine Option.bind_eq_some_iff.2 ⟨_, rfl, ?_⟩
    refine Option.bind_eq_some_iff.2 ⟨_, rmemo, ?_⟩
    exact Option.bind_eq_some_iff.2 ⟨_, rmembers, rfl⟩

end Query
end QueryTree
