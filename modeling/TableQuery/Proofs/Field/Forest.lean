import TableQuery.Access.Visibility
import TableQuery.Field.JoinPlan
import TableQuery.Proofs.Checked

/-!
# Joins in a row

The joins of a description are a forest, and the clauses of a statement are a row. `Join.preorder` puts the joins in
a row, each before those that hang on it. The walk that makes a plan goes along this row and adds to the plan what
each join has (`JoinPlan.addJoins_eq`). It stops at a join that the dialect does not have, and at a qualifier or a
column name that the plan has already; so it reaches the end just if there is none of these in the whole forest.

## What is proved

`JoinPlan.flattens`: which forests have a plan, and what the plan is. A bare name in the condition of a join means a
table that was joined before, or the base table.
-/

namespace TableQuery

/-! ## The forest in a row -/

/-- A join in its place in the forest. -/
structure JoinNode where
  /-- The name of the table that the join hangs on. -/
  parent : Bytes
  /-- How many joins there are between it and the base table. -/
  depth : Nat
  join : Join

namespace JoinNode

/-- The name that qualifies the joined table's columns. -/
def qualifier (n : JoinNode) : Bytes := n.join.qualifier

/-- The columns that the join exposes, in their place in the forest. -/
def exposed (n : JoinNode) : List JoinColumn :=
  n.join.columns.map fun column => { column, qualifier := n.qualifier, depth := n.depth }

/-- A join hangs directly on another. -/
structure HangsOn (n above : JoinNode) : Prop where
  among : n.join ∈ above.join.joins
  parent : n.parent = above.qualifier
  depth : n.depth = above.depth + 1

end JoinNode

namespace Join

mutual

/-- A join and all that hangs on it, each join before those that hang on it. -/
def preorder (parent : Bytes) (depth : Nat) : Join → List JoinNode
  | mk table tableAlias type condition columns joins =>
    let join := mk table tableAlias type condition columns joins
    { parent, depth, join } :: preorderOf join.qualifier (depth + 1) joins

/-- The joins of a list and all that hangs on them. -/
def preorderOf (parent : Bytes) (depth : Nat) : List Join → List JoinNode
  | [] => []
  | j :: rest => j.preorder parent depth ++ preorderOf parent depth rest

end

end Join

namespace Table

/-- The joins of a description in a row. -/
def joinNodes (t : Table) : List JoinNode := Join.preorderOf t.base 0 t.joins

/-- The columns that the joins of a description expose, each in its place. -/
def joinColumns (t : Table) : List JoinColumn := t.joinNodes.flatMap JoinNode.exposed

/-- A forest of joins that can be put into one statement. -/
structure JoinsFit (t : Table) (d : Dialect) : Prop where
  supported : ∀ n ∈ t.joinNodes, n.join.type = .full → d.supports .fullJoin = true
  qualifiers : (t.base :: t.joinNodes.map JoinNode.qualifier).Nodup
  names : ((Join.allColumnsOf t.joins).map Column.name).Nodup

end Table

/-! ## Places -/

namespace Join

/-- Each join of a row is at the top or hangs on an earlier one. -/
def Grown (top : JoinNode → Prop) (nodes : List JoinNode) : Prop :=
  ∀ before n after, nodes = before ++ n :: after → top n ∨ ∃ above ∈ before, n.HangsOn above

/-- A join at the top of a list. -/
structure AtTop (parent : Bytes) (depth : Nat) (joins : List Join) (n : JoinNode) : Prop where
  among : n.join ∈ joins
  parent : n.parent = parent
  depth : n.depth = depth

variable {top top' : JoinNode → Prop} {parent : Bytes} {depth : Nat}

theorem Grown.append {nodes nodes' : List JoinNode} (h : Grown top nodes) (h' : Grown top nodes') :
    Grown top (nodes ++ nodes') := by
  intro before n after split
  rcases List.append_eq_append_iff.mp split with ⟨more, rfl, rest⟩ | ⟨more, first, rest⟩
  · rcases h' more n after rest with atTop | ⟨above, mem, hangs⟩
    · exact .inl atTop
    · exact .inr ⟨above, List.mem_append_right _ mem, hangs⟩
  · cases more with
    | nil =>
      rw [List.append_nil] at first
      rw [List.nil_append] at rest
      rcases h' [] n after rest.symm with atTop | ⟨above, mem, -⟩
      · exact .inl atTop
      · cases mem
    | cons m more =>
      rw [List.cons_append] at rest
      obtain ⟨rfl, -⟩ := List.cons.inj rest
      exact h before n more first

theorem Grown.mono {nodes : List JoinNode} (h : Grown top nodes) (wider : ∀ n, top n → top' n) :
    Grown top' nodes := by
  intro before n after split
  exact (h before n after split).imp_left (wider n)

mutual

theorem grown_preorder (parent : Bytes) (depth : Nat) (j : Join) :
    Grown (AtTop parent depth [j]) (j.preorder parent depth) := by
  cases j with
  | mk table tableAlias type condition columns joins =>
    intro before n after split
    rw [preorder] at split
    cases before with
    | nil =>
      obtain ⟨rfl, -⟩ := List.cons.inj split
      exact .inl ⟨List.mem_singleton.mpr rfl, rfl, rfl⟩
    | cons first before =>
      obtain ⟨rfl, rest⟩ := List.cons.inj split
      right
      rcases grown_preorderOf _ _ joins before n after rest with atTop | ⟨above, mem, hangs⟩
      · exact ⟨_, List.mem_cons_self, atTop.among, atTop.parent, atTop.depth⟩
      · exact ⟨above, List.mem_cons_of_mem _ mem, hangs⟩

theorem grown_preorderOf (parent : Bytes) (depth : Nat) (js : List Join) :
    Grown (AtTop parent depth js) (preorderOf parent depth js) := by
  cases js with
  | nil =>
    intro before n after split
    rw [preorderOf] at split
    cases before <;> cases split
  | cons j js =>
    rw [preorderOf]
    refine Grown.append ((grown_preorder parent depth j).mono fun n atTop => ?_)
      ((grown_preorderOf parent depth js).mono fun n atTop => ?_)
    · exact ⟨List.mem_cons.mpr (.inl (List.mem_singleton.mp atTop.among)), atTop.parent, atTop.depth⟩
    · exact ⟨List.mem_cons_of_mem _ atTop.among, atTop.parent, atTop.depth⟩

end

mutual

theorem columns_preorder (parent : Bytes) (depth : Nat) (j : Join) :
    ((j.preorder parent depth).flatMap JoinNode.exposed).map JoinColumn.column = j.allColumns := by
  cases j with
  | mk table tableAlias type condition columns joins =>
    have own (n : JoinNode) : n.exposed.map JoinColumn.column = n.join.columns := by
      unfold JoinNode.exposed
      rw [List.map_map]
      exact List.map_id _
    rw [preorder, List.flatMap_cons, List.map_append, own, columns_preorderOf, allColumns]
    rfl

theorem columns_preorderOf (parent : Bytes) (depth : Nat) (js : List Join) :
    ((preorderOf parent depth js).flatMap JoinNode.exposed).map JoinColumn.column = allColumnsOf js := by
  cases js with
  | nil => rfl
  | cons j js =>
    rw [preorderOf, List.flatMap_append, List.map_append, columns_preorder, columns_preorderOf, allColumnsOf]

end

end Join

/-- What the joins expose are all their columns. -/
theorem Table.columns_joinColumns (t : Table) : t.joinColumns.map JoinColumn.column = Join.allColumnsOf t.joins :=
  Join.columns_preorderOf t.base 0 t.joins

/-! ## Clauses -/

namespace JoinNode

/-- A name in the condition of a join: a dotted one as it is, a bare one within a table. -/
def reference (table name : Bytes) : Bytes :=
  if name.contains Ascii.dot then name else table ++ Ascii.dot :: name

/-- What the clause of a join says. Of a pair of columns, a bare name on the left belongs to the table that the join
hangs on, and one on the right to the joined table. -/
structure Clause (d : Dialect) (n : JoinNode) (c : JoinClause) : Prop where
  type : c.type = n.join.type
  table : c.table = n.join.table
  tableAlias : c.tableAlias = n.join.tableAlias
  pair : ∀ left right, n.join.condition = .columns left right → c.condition = .text
    (d.quoteIdentifier (reference n.parent left) ++ " = " ++ d.quoteIdentifier (reference n.qualifier right))
  trusted : ∀ s, n.join.condition = .sql s → c.condition = .trusted s

/-- The clause of a join. -/
def clause (d : Dialect) (n : JoinNode) : JoinClause where
  type := n.join.type
  table := n.join.table
  tableAlias := n.join.tableAlias
  condition := JoinPlan.condition d n.parent n.join

theorem clause_clause (d : Dialect) (n : JoinNode) : n.Clause d (n.clause d) where
  type := rfl
  table := rfl
  tableAlias := rfl
  pair := by
    intro left right pair
    have qualified (name table : Bytes) :
        JoinPlan.qualified d name table = .text (d.quoteIdentifier (reference table name)) := by
      unfold JoinPlan.qualified reference
      split_ifs <;> rfl
    unfold clause JoinPlan.condition
    rw [pair]
    dsimp only
    rw [qualified, qualified]
    rfl
  trusted := by
    intro s trusted
    unfold clause JoinPlan.condition
    rw [trusted]

end JoinNode

/-! ## The walk -/

namespace JoinPlan

variable {d : Dialect} {p q : JoinPlan}

/-- The names of the columns that a plan exposes. -/
def names (p : JoinPlan) : List Bytes := p.columns.map fun c => c.column.name

/-- No qualifier and no column name of a plan is used twice. -/
structure Distinct (p : JoinPlan) : Prop where
  qualifiers : p.qualifiers.Nodup
  names : p.names.Nodup

/-- A plan with the joins of a row added to it. -/
def extend (d : Dialect) (p : JoinPlan) (nodes : List JoinNode) : JoinPlan :=
  { p with
    clauses := p.clauses ++ nodes.map (JoinNode.clause d)
    columns := p.columns ++ nodes.flatMap JoinNode.exposed }

/-- Adds a join without those that hang on it. -/
def addNode (d : Dialect) (p : JoinPlan) (n : JoinNode) : Checked JoinPlan := do
  let p ← p.addClause d n.parent n.join
  n.join.columns.foldlM (addColumn n.qualifier n.depth) p

mutual

theorem addJoin_eq (d : Dialect) (parent : Bytes) (depth : Nat) (p : JoinPlan) (j : Join) :
    addJoin d parent depth p j = (j.preorder parent depth).foldlM (addNode d) p := by
  cases j with
  | mk table tableAlias type condition columns joins =>
    rw [addJoin, Join.preorder, List.foldlM_cons, addNode, bind_assoc]
    simp only [addJoins_eq]
    rfl

/-- The walk through a forest adds its joins one by one, in preorder. -/
theorem addJoins_eq (d : Dialect) (parent : Bytes) (depth : Nat) (p : JoinPlan) (js : List Join) :
    addJoins d parent depth p js = (Join.preorderOf parent depth js).foldlM (addNode d) p := by
  cases js with
  | nil => rfl
  | cons j js =>
    rw [addJoins, Join.preorderOf, List.foldlM_append, addJoin_eq]
    simp only [addJoins_eq]

end

/-! ## One step -/

theorem qualifiers_extend (d : Dialect) (p : JoinPlan) (nodes : List JoinNode) :
    (p.extend d nodes).qualifiers = p.qualifiers ++ nodes.map JoinNode.qualifier := by
  unfold qualifiers extend
  rw [List.map_append, List.map_map, List.cons_append]
  rfl

theorem names_extend (d : Dialect) (p : JoinPlan) (nodes : List JoinNode) :
    (p.extend d nodes).names = p.names ++ (nodes.flatMap JoinNode.exposed).map fun c => c.column.name := by
  unfold names extend
  rw [List.map_append]

theorem extend_extend (d : Dialect) (p : JoinPlan) (nodes nodes' : List JoinNode) :
    (p.extend d nodes).extend d nodes' = p.extend d (nodes ++ nodes') := by
  unfold extend
  rw [List.map_append, List.flatMap_append, ← List.append_assoc, ← List.append_assoc]

/-- What holds of a plan held before joins were added to it. -/
theorem Distinct.of_extend {nodes : List JoinNode} (h : (p.extend d nodes).Distinct) : p.Distinct where
  qualifiers := by
    have all := h.qualifiers
    rw [qualifiers_extend] at all
    exact (List.nodup_append.mp all).1
  names := by
    have all := h.names
    rw [names_extend] at all
    exact (List.nodup_append.mp all).1

theorem addClause_eq_ok {n : JoinNode} (hp : p.qualifiers.Nodup) :
    p.addClause d n.parent n.join = .ok q ↔ (n.join.type = .full → d.supports .fullJoin = true)
      ∧ (p.qualifiers ++ [n.qualifier]).Nodup ∧ q = { p with clauses := p.clauses ++ [n.clause d] } := by
  have fresh : (p.qualifiers ++ [n.qualifier]).Nodup ↔ ¬p.qualifiers.contains n.join.qualifier = true := by
    rw [← List.concat_eq_append, List.nodup_concat, and_iff_left hp, List.contains_iff_mem]
    rfl
  have supported : Checked.Succeeds (if n.join.type = .full then d.require .fullJoin else .ok ())
      ↔ (n.join.type = .full → d.supports .fullJoin = true) := by
    unfold Dialect.require
    split_ifs with full has
    · exact iff_of_true (Checked.succeeds_ok _) fun _ => has
    · exact iff_of_false (Checked.not_succeeds_error _) fun h => has (h full)
    · exact iff_of_true (Checked.succeeds_ok _) fun h => absurd h full
  have steps : p.addClause d n.parent n.join
      = ((if n.join.type = .full then d.require .fullJoin else .ok ()) >>= fun _ =>
        if p.qualifiers.contains n.join.qualifier then .error (qualifierTaken n.join.qualifier)
        else .ok { p with clauses := p.clauses ++ [n.clause d] }) := by
    unfold addClause
    split_ifs <;> rfl
  rw [steps, Checked.bind_eq_ok, fresh, ← supported]
  constructor
  · rintro ⟨done, required, h⟩
    split_ifs at h with taken
    exact ⟨⟨done, required⟩, taken, (Except.ok.inj h).symm⟩
  · rintro ⟨⟨done, required⟩, free, rfl⟩
    exact ⟨done, required, if_neg free⟩

theorem addColumn_eq_ok {qualifier : Bytes} {depth : Nat} {column : Column} :
    addColumn qualifier depth p column = .ok q ↔ column.name ∉ p.names
      ∧ q = { p with columns := p.columns ++ [{ column, qualifier, depth }] } := by
  have fresh : column.name ∉ p.names ↔ p.columns.find? (fun c => c.column.name == column.name) = none := by
    rw [List.find?_eq_none, names, List.mem_map, not_exists]
    simp only [beq_iff_eq, not_and]
  rw [fresh]
  unfold addColumn
  cases p.columns.find? fun c => c.column.name == column.name with
  | some other => exact iff_of_false nofun fun h => nomatch h.1
  | none => exact ⟨fun h => ⟨rfl, (Except.ok.inj h).symm⟩, fun h => congrArg Except.ok h.2.symm⟩

theorem addColumns_eq_ok {qualifier : Bytes} {depth : Nat} {columns : List Column} (hp : p.names.Nodup) :
    columns.foldlM (addColumn qualifier depth) p = .ok q ↔ (p.names ++ columns.map Column.name).Nodup
      ∧ q = { p with columns := p.columns ++ columns.map fun column => { column, qualifier, depth } } := by
  induction columns generalizing p with
  | nil =>
    rw [List.map_nil, List.map_nil, List.append_nil, List.append_nil, and_iff_right hp]
    exact ⟨fun h => (Except.ok.inj h).symm, fun h => congrArg Except.ok h.symm⟩
  | cons column columns ih =>
    have names_add : names { p with columns := p.columns ++ [{ column, qualifier, depth }] }
        = p.names ++ [column.name] := by
      unfold names
      rw [List.map_append]
      rfl
    have regroup : p.names ++ (column :: columns).map Column.name
        = p.names ++ [column.name] ++ columns.map Column.name := by
      rw [List.map_cons, List.append_assoc, List.singleton_append]
    rw [List.foldlM_cons, Checked.bind_eq_ok, regroup]
    constructor
    · rintro ⟨next, added, rest⟩
      obtain ⟨fresh, rfl⟩ := addColumn_eq_ok.mp added
      have distinct : (p.names ++ [column.name]).Nodup := by
        rw [← List.concat_eq_append, List.nodup_concat]
        exact ⟨fresh, hp⟩
      rw [ih (names_add ▸ distinct), names_add] at rest
      refine ⟨rest.1, ?_⟩
      rw [rest.2, List.map_cons, List.append_assoc]
      rfl
    · rintro ⟨distinct, rfl⟩
      have first : (p.names ++ [column.name]).Nodup := (List.nodup_append.mp distinct).1
      have fresh : column.name ∉ p.names := by
        rw [← List.concat_eq_append, List.nodup_concat] at first
        exact first.1
      refine ⟨_, addColumn_eq_ok.mpr ⟨fresh, rfl⟩, ?_⟩
      rw [ih (names_add ▸ first), names_add, List.map_cons, List.append_assoc p.columns]
      exact ⟨distinct, rfl⟩

/-- A join is added to a plan that does not have its qualifier, or the name of one of its columns, if the dialect has
joins of its type. -/
theorem addNode_eq_ok {n : JoinNode} (hp : p.Distinct) :
    addNode d p n = .ok q ↔ (n.join.type = .full → d.supports .fullJoin = true) ∧ (p.extend d [n]).Distinct
      ∧ q = p.extend d [n] := by
  have distinct : (p.extend d [n]).Distinct ↔ (p.qualifiers ++ [n.qualifier]).Nodup
      ∧ (p.names ++ n.join.columns.map Column.name).Nodup := by
    have own : ([n].flatMap JoinNode.exposed).map (fun c => c.column.name) = n.join.columns.map Column.name := by
      rw [List.flatMap_singleton, JoinNode.exposed, List.map_map]
      rfl
    rw [← own, ← names_extend d, ← List.map_singleton, ← qualifiers_extend d]
    exact ⟨fun h => ⟨h.qualifiers, h.names⟩, fun h => ⟨h.1, h.2⟩⟩
  have extended : p.extend d [n] = { p with
      clauses := p.clauses ++ [n.clause d]
      columns := p.columns ++ n.join.columns.map fun column =>
        { column, qualifier := n.qualifier, depth := n.depth } } := by
    unfold extend
    rw [List.flatMap_singleton]
    rfl
  have unnamed : names { p with clauses := p.clauses ++ [n.clause d] } |>.Nodup := hp.names
  rw [distinct, extended, addNode, Checked.bind_eq_ok]
  constructor
  · rintro ⟨next, clause, columns⟩
    obtain ⟨supported, qualifiers, rfl⟩ := (addClause_eq_ok hp.qualifiers).mp clause
    obtain ⟨names, rfl⟩ := (addColumns_eq_ok unnamed).mp columns
    exact ⟨supported, ⟨qualifiers, names⟩, rfl⟩
  · rintro ⟨supported, ⟨qualifiers, names⟩, rfl⟩
    exact ⟨_, (addClause_eq_ok hp.qualifiers).mpr ⟨supported, qualifiers, rfl⟩,
      (addColumns_eq_ok unnamed).mpr ⟨names, rfl⟩⟩

/-! ## The whole walk -/

/-- A row of joins is added to a plan just if the dialect has them all and no name is used twice. -/
theorem addNodes_eq_ok {nodes : List JoinNode} (hp : p.Distinct) :
    nodes.foldlM (addNode d) p = .ok q ↔ (∀ n ∈ nodes, n.join.type = .full → d.supports .fullJoin = true)
      ∧ (p.extend d nodes).Distinct ∧ q = p.extend d nodes := by
  induction nodes generalizing p with
  | nil =>
    have unchanged : p.extend d [] = p := by
      unfold extend
      rw [List.map_nil, List.flatMap_nil, List.append_nil, List.append_nil]
    rw [unchanged]
    constructor
    · rintro ⟨⟩
      exact ⟨List.forall_mem_nil _, hp, rfl⟩
    · rintro ⟨-, -, rfl⟩
      rfl
  | cons n nodes ih =>
    have regroup : p.extend d (n :: nodes) = (p.extend d [n]).extend d nodes := by
      rw [extend_extend, List.singleton_append]
    rw [List.foldlM_cons, Checked.bind_eq_ok, regroup, List.forall_mem_cons]
    constructor
    · rintro ⟨next, first, rest⟩
      obtain ⟨supported, distinct, rfl⟩ := (addNode_eq_ok hp).mp first
      obtain ⟨others, all, rfl⟩ := (ih distinct).mp rest
      exact ⟨⟨supported, others⟩, all, rfl⟩
    · rintro ⟨⟨supported, others⟩, all, rfl⟩
      have distinct : (p.extend d [n]).Distinct := all.of_extend
      exact ⟨_, (addNode_eq_ok hp).mpr ⟨supported, distinct, rfl⟩, (ih distinct).mpr ⟨others, all, rfl⟩⟩

theorem names_joinNodes (t : Table) (d : Dialect) :
    (({ base := t.base } : JoinPlan).extend d t.joinNodes).names = (Join.allColumnsOf t.joins).map Column.name := by
  rw [names_extend, ← t.columns_joinColumns, List.map_map]
  rfl

/-- A description has a plan of its joins just if they fit, and the plan has them in preorder. -/
theorem ofTable_eq_ok {t : Table} :
    ofTable t d = .ok p ↔ t.JoinsFit d ∧ p = ({ base := t.base } : JoinPlan).extend d t.joinNodes := by
  have start : ({ base := t.base } : JoinPlan).Distinct := ⟨List.nodup_singleton _, List.nodup_nil⟩
  have fits : t.JoinsFit d ↔ (∀ n ∈ t.joinNodes, n.join.type = .full → d.supports .fullJoin = true)
      ∧ (({ base := t.base } : JoinPlan).extend d t.joinNodes).Distinct := by
    have qualifiers := qualifiers_extend d { base := t.base } t.joinNodes
    have names := names_joinNodes t d
    constructor
    · rintro ⟨supported, apart, named⟩
      exact ⟨supported, by rw [qualifiers]; exact apart, by rw [names]; exact named⟩
    · rintro ⟨supported, apart, named⟩
      exact ⟨supported, by rw [qualifiers] at apart; exact apart, by rw [names] at named; exact named⟩
  rw [ofTable, addJoins_eq, fits, and_assoc]
  exact addNodes_eq_ok start

/-- The clauses of a plan are those of the joins, in preorder. -/
theorem clauses_ofTable {t : Table} (h : ofTable t d = .ok p) : p.clauses = t.joinNodes.map (JoinNode.clause d) := by
  rw [(ofTable_eq_ok.mp h).2]
  rfl

/-- The columns of a plan are those of the joins, each in its place. -/
theorem columns_ofTable {t : Table} (h : ofTable t d = .ok p) : p.columns = t.joinColumns := by
  rw [(ofTable_eq_ok.mp h).2]
  rfl

/-- No two columns of a plan have one name. -/
theorem nodup_names {t : Table} (h : ofTable t d = .ok p) : p.names.Nodup := by
  obtain ⟨fits, rfl⟩ := ofTable_eq_ok.mp h
  rw [names_joinNodes]
  exact fits.names

/-- What the plan of a description's joins is. The clauses and the columns follow the forest in preorder, and the
condition of a clause refers to the base table or to a table that was joined before. -/
structure Flattens (t : Table) (d : Dialect) (p : JoinPlan) : Prop where
  clauses : List.Forall₂ (JoinNode.Clause d) t.joinNodes p.clauses
  columns : p.columns = t.joinColumns
  declared : p.columns.map JoinColumn.column = Join.allColumnsOf t.joins
  once : p.names.Nodup
  earlier : ∀ before n after, t.joinNodes = before ++ n :: after →
    Join.AtTop t.base 0 t.joins n ∨ ∃ above ∈ before, n.HangsOn above

/-- Which forests of joins have a plan, and what the plan is. -/
theorem flattens (t : Table) (d : Dialect) :
    (Checked.Succeeds (ofTable t d) ↔ t.JoinsFit d) ∧ ∀ p, ofTable t d = .ok p → Flattens t d p := by
  refine ⟨⟨?_, fun fits => ⟨_, ofTable_eq_ok.mpr ⟨fits, rfl⟩⟩⟩, fun p made => ?_⟩
  · rintro ⟨p, made⟩
    exact (ofTable_eq_ok.mp made).1
  · obtain ⟨fits, rfl⟩ := ofTable_eq_ok.mp made
    have clauses : List.Forall₂ (JoinNode.Clause d) t.joinNodes (t.joinNodes.map (JoinNode.clause d)) := by
      rw [List.forall₂_map_right_iff, List.forall₂_same]
      exact fun n _ => n.clause_clause d
    exact ⟨clauses, rfl, t.columns_joinColumns, nodup_names made, Join.grown_preorderOf _ _ _⟩

/-- Orders with their customers, the regions of these, and the carriers. -/
def deliveries : Table where
  name := "orders"
  base := "orders"
  columns := [{ name := "id", type := .number }]
  joins :=
    [.mk "customers" "c" .left (.columns "customer_id" "id") [{ name := "customerName", field := "name" }]
      [.mk "regions" [] .full (.columns "region_id" "id") [{ name := "regionName", field := "name" }] []],
      .mk "carriers" [] .left (.sql ⟨"carriers.id = orders.carrier_id"⟩) [] []]

theorem flattens_deliveries : deliveries.JoinsFit .postgresql ∧ ¬deliveries.JoinsFit .mysql
    ∧ ∃ p, ofTable deliveries .postgresql = .ok p ∧ Flattens deliveries .postgresql p
      ∧ p.clauses.map (fun c => (c.toSql .postgresql).sql) =
        ["LEFT JOIN \"customers\" AS \"c\" ON \"orders\".\"customer_id\" = \"c\".\"id\"",
          "FULL JOIN \"regions\" ON \"c\".\"region_id\" = \"regions\".\"id\"",
          "LEFT JOIN \"carriers\" ON (carriers.id = orders.carrier_id)"]
      ∧ p.columns.map JoinColumn.qualifier = ["c", "regions"] ∧ p.columns.map JoinColumn.depth = [0, 1] := by
  obtain ⟨p, made⟩ : Checked.Succeeds (ofTable deliveries .postgresql) := ⟨_, rfl⟩
  have refused : ofTable deliveries .mysql = .error (.dialect "fullJoin" "mysql") := by rfl
  refine ⟨(flattens _ _).1.mp ⟨p, made⟩, fun fits => ?_, p, made, (flattens _ _).2 p made, ?_⟩
  · obtain ⟨q, other⟩ := (flattens _ _).1.mpr fits
    rw [refused] at other
    cases other
  · cases made
    decide

end JoinPlan

end TableQuery
