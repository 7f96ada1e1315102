import TableQuery.Proofs.Field.Lookup
import TableQuery.Proofs.Text.Cut

/-!
# Columns of joins by their qualifier

A column of a join that a column of the base table shadows can still be asked for with the qualifier of its join in
front. The name is first looked up in full, and only then cut, at its first dot. What stands before the dot is compared
with the name of the table that a column is read through, which is another than the join's if the source of the column
says so.

## What is proved

`Resolver.reaches_joined_iff`: a column's name after the qualifier of its join finds the column, shadowed or not,
exactly if nothing has the whole as its name, the qualifier has no dot, and the column is read through the join. This
leaves out columns whose name a column of the base table has that is itself read through the join.
-/

namespace TableQuery

/-! ## Names in full -/

/-- A name that no column and no subquery of a description has. -/
structure Table.Unnamed (t : Table) (name : Bytes) : Prop where
  columns : ∀ c ∈ t.allColumns, c.name ≠ name
  subqueries : ∀ s ∈ t.subqueries, s.name ≠ name

namespace Resolver

variable {r : Resolver} {qualifier : Bytes} {t : Table} {d : Dialect}

namespace Describes

variable (hr : r.Describes qualifier t d)
include hr

/-- The names that find nothing in full are those that nothing has. -/
theorem resolvePlain_eq_none {name : Bytes} : r.resolvePlain name = none ↔ t.Unnamed name := by
  constructor
  · intro none
    refine ⟨?_, ?_⟩
    · rintro c mem rfl
      obtain ⟨f, found⟩ := hr.exists_resolvePlain mem
      rw [none] at found
      cases found
    · rintro s mem rfl
      obtain ⟨f, hf, made⟩ := Checked.exists_mem_mapM (addSubqueries_eq hr.subqueries) mem
      unfold resolvePlain at none
      simp only [Option.or_eq_none_iff, find?_eq_none] at none
      exact none.2.2.2 f hf (ofSubquery_name made)
  · intro unnamed
    rw [Option.eq_none_iff_forall_ne_some]
    intro f found
    obtain ⟨mem, named⟩ := resolvePlain_eq_some found
    refine hr.forall_known (P := fun f => f.name ≠ name) ?_ ?_ f mem named
    · intro c among baseNames table
      rw [ofColumn_name]
      exact unnamed.columns c among
    · intro s among f made
      rw [ofSubquery_name made]
      exact unnamed.subqueries s among

/-! ## Names with a qualifier -/

/-- The field of a column of a join. -/
theorem mem_joinFields {n : JoinNode} {c : Column} (joined : n ∈ t.joinNodes) (mem : c ∈ n.join.columns) :
    Field.ofColumn d [qualifierOr qualifier t, t.base] n.qualifier c ∈ r.joinFields := by
  unfold joinFields
  rw [JoinPlan.columns_ofTable hr.joins, hr.dialect, hr.baseQualifier, hr.table]
  exact List.mem_map.mpr ⟨⟨c, n.qualifier, n.depth⟩,
    List.mem_flatMap.mpr ⟨n, joined, List.mem_map_of_mem mem⟩, rfl⟩

theorem qualifier_ne_base {n : JoinNode} (joined : n ∈ t.joinNodes) : n.qualifier ≠ t.base := by
  have distinct := (JoinPlan.ofTable_eq_ok.mp hr.joins).1.qualifiers
  rw [List.nodup_cons] at distinct
  intro same
  exact distinct.1 (same ▸ List.mem_map_of_mem joined)

theorem mem_joined_or_shadowed {f : Field} : f ∈ r.joinFields ↔ f ∈ r.joined ∨ f ∈ r.shadowed := by
  rw [hr.joined, hr.shadowed, List.mem_filter, List.mem_filter, ← and_or_left]
  cases r.shadows f <;> simp

/-- Of the fields that a join's column and its table mean, the base table's own apart, there is no other. -/
theorem eq_of_isMeant {f g : Field} (mem : f ∈ r.joinFields) (other : g ∈ r.fields ++ r.shadowed)
    (own : ∀ b ∈ r.declared, isMeant f.qualifier f.name b = false) (meant : isMeant f.qualifier f.name g = true) :
    g = f := by
  have joined (h : g ∈ r.joinFields) : g = f :=
    List.inj_on_of_nodup_map hr.nodup_joinFields h mem (isMeant_iff.mp meant).2.2
  simp only [fields, List.mem_append] at other
  rcases other with ((h | h) | h) | h
  · rw [own g h] at meant
    cases meant
  · exact joined (hr.mem_joined_or_shadowed.mpr (.inl h))
  · have read := (isMeant_iff.mp meant).1
    rw [hr.not_isTableColumn h] at read
    cases read
  · exact joined (hr.mem_joined_or_shadowed.mpr (.inr h))

omit hr in
/-- A name with a qualifier finds the first field that it means, or else a column by the base table's own name. -/
theorem resolveQualified_eq (r : Resolver) (table column : Bytes) :
    r.resolveQualified table column = ((r.fields ++ r.shadowed).find? (isMeant table column)).or
      (if table == r.table.base && r.baseQualifier != r.table.base then find? column r.baseFields else none) := by
  rw [List.find?_append, Option.or_assoc]
  rfl

/-- A join's column is found by its own table and name, unless these mean a column of the base table too. -/
theorem resolveQualified_of_mem_joinFields {f : Field} (mem : f ∈ r.joinFields) (read : f.isTableColumn = true)
    (own : ∀ b ∈ r.declared, isMeant f.qualifier f.name b = false) :
    r.resolveQualified f.qualifier f.name = some f := by
  have among : f ∈ r.fields ++ r.shadowed := by
    simp only [fields, List.mem_append]
    rcases hr.mem_joined_or_shadowed.mp mem with h | h
    · exact .inl (.inl (.inr h))
    · exact .inr h
  have meant : isMeant f.qualifier f.name f = true := isMeant_iff.mpr ⟨read, rfl, rfl⟩
  obtain ⟨g, first⟩ := Option.isSome_iff_exists.mp (List.find?_isSome.mpr ⟨f, among, meant⟩)
  rw [resolveQualified_eq, first, Option.some_or,
    hr.eq_of_isMeant mem (List.mem_of_find?_eq_some first) own (List.find?_some first)]

/-- The field that a name with a qualifier finds is read through it, where it is not the base table's name. -/
theorem qualifier_of_resolveQualified {table column : Bytes} {f : Field}
    (found : r.resolveQualified table column = some f) (other : table ≠ t.base) : f.qualifier = table := by
  rw [resolveQualified_eq, Option.or_eq_some_iff] at found
  rcases found with first | ⟨-, base⟩
  · exact (isMeant_iff.mp (List.find?_some first)).2.1
  · rw [hr.table, beq_eq_false_iff_ne.mpr other] at base
    cases base

/-- A field found by its own name after a qualifier was not found by the whole, and the name was cut between the
two. -/
theorem resolve_eq_some_iff {table : Bytes} {f : Field} :
    r.resolve (table ++ Ascii.dot :: f.name) = some f ↔ Ascii.dot ∉ table
      ∧ t.Unnamed (table ++ Ascii.dot :: f.name) ∧ r.resolveQualified table f.name = some f := by
  unfold resolve
  constructor
  · intro found
    rw [Option.or_eq_some_iff, Option.bind_eq_some_iff] at found
    rcases found with plain | ⟨none, ⟨before, rest⟩, split, found⟩
    · have length := congrArg List.length (resolvePlain_eq_some plain).2
      rw [List.length_append, List.length_cons] at length
      omega
    · dsimp only at found
      obtain rfl := (resolveQualified_eq_some found).2
      obtain ⟨absent, split⟩ := Bytes.cut_eq_some.mp split
      obtain rfl := List.append_cancel_right split
      exact ⟨absent, hr.resolvePlain_eq_none.mp none, found⟩
  · rintro ⟨absent, unnamed, found⟩
    rw [hr.resolvePlain_eq_none.mpr unnamed, Bytes.cut_eq_some.mpr ⟨absent, rfl⟩, Option.none_or, Option.bind_some]
    exact found

end Describes

/-- A column of a join is found by its name after the join's qualifier, whether or not a column of the base table
shadows it, just if the name is cut where the qualifier ends, the column is read through the join, and nothing has the
whole as its name. Where a column of the base table has the same name and is itself read through the join, nothing is
said. -/
theorem reaches_joined_iff (made : ofTableAs qualifier t d = .ok r) {n : JoinNode} (joined : n ∈ t.joinNodes)
    {c : Column} (mem : c ∈ n.join.columns) (read : c.computed = false)
    (apart : ∀ b ∈ t.columns, b.computed = false → b.name = c.name →
      b.tableOr (qualifierOr qualifier t) ≠ n.qualifier) :
    r.resolve (n.qualifier ++ Ascii.dot :: c.name)
        = some (Field.ofColumn d [qualifierOr qualifier t, t.base] n.qualifier c)
      ↔ Ascii.dot ∉ n.qualifier ∧ c.tableOr n.qualifier = n.qualifier
        ∧ t.Unnamed (n.qualifier ++ Ascii.dot :: c.name) := by
  have hr := describes made
  let baseNames := [qualifierOr qualifier t, t.base]
  obtain ⟨-, column, through⟩ := Field.of_ofColumn d baseNames n.qualifier c
  have named := ofColumn_name d baseNames n.qualifier c
  rw [read, Bool.not_false] at column
  rw [← named, hr.resolve_eq_some_iff, ← through read]
  constructor
  · rintro ⟨absent, unnamed, found⟩
    exact ⟨absent, hr.qualifier_of_resolveQualified found (hr.qualifier_ne_base joined), unnamed⟩
  · rintro ⟨absent, own, unnamed⟩
    refine ⟨absent, unnamed, ?_⟩
    have found := hr.resolveQualified_of_mem_joinFields (hr.mem_joinFields joined mem) column ?_
    · rwa [own] at found
    · intro f declared
      rw [(addFields_eq hr.declared).1] at declared
      obtain ⟨b, hb, rfl⟩ := List.mem_map.mp declared
      obtain ⟨-, columnB, throughB⟩ := Field.of_ofColumn d baseNames (qualifierOr qualifier t) b
      rw [← Bool.not_eq_true, isMeant_iff, columnB, Bool.not_eq_true', ofColumn_name, own, named]
      rintro ⟨readB, tableB, nameB⟩
      exact apart b hb readB nameB ((throughB readB).symm.trans tableB)

/-- Orders with the customers and the teams of these. The columns `name` of the customers and `id` of the teams are
shadowed. -/
def contacts : Table where
  name := "orders"
  base := "orders"
  columns :=
    [{ name := "id", type := .number }, { name := "name" }, { name := "nick", field := "c.nickname" },
      { name := "c.total", computed := true, expression := some ⟨"price * amount"⟩ }]
  joins :=
    [.mk "customers" "c" .left (.columns "customer_id" "id") [{ name := "name" }, { name := "city", field := "c.town" }]
      [.mk "teams" [] .left (.columns "team_id" "id") [{ name := "id", type := .number }] []]]

theorem reaches_joined_iff_contacts : ∃ r, ofTableAs [] contacts .sqlite = .ok r
    ∧ (∀ n ∈ contacts.joinNodes, ∀ c ∈ n.join.columns, r.resolve (n.qualifier ++ Ascii.dot :: c.name)
      = some (Field.ofColumn .sqlite ["orders", "orders"] n.qualifier c))
    ∧ ["c.name", "c.city", "teams.id"].map (fun name => (r.resolve name).map fun f => f.expression.sql)
      = ["\"c\".\"name\"", "\"c\".\"town\"", "\"teams\".\"id\""].map (fun sql => some (Bytes.ofString sql)) := by
  obtain ⟨r, made⟩ : Checked.Succeeds (ofTableAs [] contacts .sqlite) := ⟨_, rfl⟩
  have apart : ∀ n ∈ contacts.joinNodes, ∀ c ∈ n.join.columns, c.computed = false ∧ ∀ b ∈ contacts.columns,
      b.computed = false → b.name = c.name → b.tableOr (qualifierOr [] contacts) ≠ n.qualifier := by decide
  have named : ∀ n ∈ contacts.joinNodes, ∀ c ∈ n.join.columns, Ascii.dot ∉ n.qualifier
      ∧ c.tableOr n.qualifier = n.qualifier
      ∧ ∀ b ∈ contacts.allColumns, b.name ≠ n.qualifier ++ Ascii.dot :: c.name := by decide
  refine ⟨r, made, fun n joined c mem => ?_, ?_⟩
  · obtain ⟨read, apart⟩ := apart n joined c mem
    obtain ⟨absent, own, unnamed⟩ := named n joined c mem
    exact (reaches_joined_iff made joined mem read apart).mpr ⟨absent, own, unnamed, List.forall_mem_nil _⟩
  · cases made
    decide

/-- Some column of a join is not what its name after the join's qualifier finds. -/
def Misses (t : Table) : Prop :=
  ∃ r, ofTableAs [] t .sqlite = .ok r ∧ ∃ n ∈ t.joinNodes, ∃ c ∈ n.join.columns, c.computed = false
    ∧ r.resolve (n.qualifier ++ Ascii.dot :: c.name) ≠ some (Field.ofColumn .sqlite [t.base, t.base] n.qualifier c)

theorem misses_of_expression {t : Table} {n : JoinNode} {c : Column} {r : Resolver}
    (made : ofTableAs [] t .sqlite = .ok r) (joined : t.joinNodes.head? = some n) (mem : n.join.columns = [c])
    (read : c.computed = false)
    (other : (r.resolve (n.qualifier ++ Ascii.dot :: c.name)).map (fun f => f.expression.sql)
      ≠ some (Field.ofColumn .sqlite [t.base, t.base] n.qualifier c).expression.sql) : Misses t := by
  refine ⟨r, made, n, List.mem_of_mem_head? joined, c, mem ▸ List.mem_singleton_self c, read, fun same => other ?_⟩
  rw [same]
  rfl

/-- Orders with these columns and joins. -/
def ordersWith (columns : List Column) (joins : List Join) : Table :=
  { name := "orders", base := "orders", columns, joins }

/-- The users of orders, under the alias `u`. -/
def usersWith (columns : List Column) (joins : List Join) : Join :=
  .mk "users" "u" .left (.columns "user_id" "id") columns joins

theorem misses_joined :
    -- a column of the orders has the whole name
    Misses (ordersWith [{ name := "u.name", field := "nickname" }] [usersWith [{ name := "name" }] []])
    -- a column of the orders has the same name, and is read through the join
    ∧ Misses (ordersWith [{ name := "name", field := "u.nickname" }] [usersWith [{ name := "name" }] []])
    -- the column is read through another join
    ∧ Misses (ordersWith [] [usersWith [{ name := "city", field := "a.city" }]
        [.mk "addresses" "a" .left (.columns "address_id" "id") [] []]])
    -- the name of the joined table has a dot
    ∧ Misses (ordersWith [] [.mk "public.teams" [] .left (.columns "team_id" "id") [{ name := "title" }] []]) := by
  refine ⟨?_, ?_, ?_, ?_⟩
  · exact misses_of_expression rfl rfl rfl rfl (by decide)
  · exact misses_of_expression rfl rfl rfl rfl (by decide)
  · exact misses_of_expression rfl rfl rfl rfl (by decide)
  · exact misses_of_expression rfl rfl rfl rfl (by decide)

end Resolver

end TableQuery
