import TableQuery.Proofs.Field.Resolver
import TableQuery.Proofs.Sql.Phrase
import TableQuery.Proofs.Text.Name
import TableQuery.Proofs.Validation.Column

/-!
# Fields in step

What a description says goes into statements as quoted names, as bound literals, as the names of database functions,
and as trusted SQL. Names are phrases of a dialect, and literals are values. The other two are as their author wrote
them (`Table.writtenTexts`). Validation has the functions be identifiers, which are quiet; trusted SQL is quiet or not
(`Table.Quiet`).

## What is proved

`Resolver.Describes.wordedIn`: beside the phrases of the dialect, the expressions, the selections and the conditions of
joins have no other texts, for every dialect and for each of the roles that a caller may have
(`Table.writtenTexts_visibleTo`), and no values but the literals of subqueries, each in its seat.
`Table.quiet_of_validate`: validation leaves nothing but the trusted SQL to be seen to.
-/

namespace TableQuery

variable {d : Dialect} {texts : List Bytes}

/-! ## Trusted SQL of a description -/

/-- The trusted SQL of a join's condition. -/
def JoinCondition.trusted? : JoinCondition → Option TrustedSql
  | columns _ _ => none
  | sql trusted => some trusted

namespace Join

mutual

/-- The trusted SQL in the conditions of a join and of all that hangs on it. -/
def conditionTexts : Join → List TrustedSql
  | mk _ _ _ condition _ joins => condition.trusted?.toList ++ conditionTextsOf joins

/-- The trusted SQL in the conditions of the joins of a list and of all that hangs on them. -/
def conditionTextsOf : List Join → List TrustedSql
  | [] => []
  | j :: rest => j.conditionTexts ++ conditionTextsOf rest

end

mutual

theorem conditionTexts_restrict (roles : List Bytes) (j : Join) :
    (j.restrict roles).conditionTexts = j.conditionTexts := by
  cases j with
  | mk table tableAlias type condition columns joins =>
    rw [restrict, conditionTexts, conditionTexts, conditionTextsOf_restrictList]

theorem conditionTextsOf_restrictList (roles : List Bytes) (js : List Join) :
    conditionTextsOf (restrictList roles js) = conditionTextsOf js := by
  cases js with
  | nil => rfl
  | cons j js =>
    rw [restrictList, conditionTextsOf, conditionTextsOf, conditionTexts_restrict, conditionTextsOf_restrictList]

end

end Join

namespace Table

/-- All trusted SQL of a description: in the expressions of its fields and in the conditions of its joins. -/
def trustedTexts (t : Table) : List TrustedSql := t.expressionTexts ++ Join.conditionTextsOf t.joins

/-- Whatever a description has written into SQL without quotes is quiet. -/
structure Quiet (t : Table) : Prop where
  trusted : ∀ s ∈ t.trustedTexts, Placeholder.Quiet s.sql
  transforms : ∀ c ∈ t.allColumns, ∀ name ∈ c.dbTransforms, Placeholder.Quiet name

theorem quiet_transforms_of_validate {t : Table} {catalog : Option Catalog} (h : t.validate catalog = .ok ()) :
    ∀ c ∈ t.allColumns, ∀ name ∈ c.dbTransforms, Placeholder.Quiet name := by
  intro c mem name among
  have plain : Name.alphabet.all Placeholder.isPlain = true := by decide +kernel
  have dotted := (Name.isSafeIdentifier_iff.mp (isSafeIdentifier_of_validate h c mem name among)).2
  exact Placeholder.quiet_of_isPlain fun b hb => List.all_eq_true.mp plain b (dotted.mem_alphabet b hb)

/-- Validation leaves nothing but the trusted SQL to be seen to. -/
theorem quiet_of_validate {t : Table} {catalog : Option Catalog} (h : t.validate catalog = .ok ())
    (trusted : ∀ s ∈ t.trustedTexts, Placeholder.Quiet s.sql) : t.Quiet where
  trusted := trusted
  transforms := quiet_transforms_of_validate h

/-- The texts that a description has written into SQL without quotes: trusted SQL in parentheses, and the calls of
database functions. -/
def writtenTexts (t : Table) : List Bytes :=
  t.trustedTexts.map (fun s => (Fragment.trusted s).sql)
    ++ t.allColumns.flatMap fun c => c.dbTransforms.map fun name => name ++ [Ascii.leftParen]

theorem mem_writtenTexts_of_trusted {t : Table} {s : TrustedSql} (mem : s ∈ t.trustedTexts) :
    (Fragment.trusted s).sql ∈ t.writtenTexts :=
  List.mem_append_left _ (List.mem_map_of_mem mem)

theorem mem_writtenTexts_of_transform {t : Table} {c : Column} {name : Bytes} (mem : c ∈ t.allColumns)
    (among : name ∈ c.dbTransforms) : name ++ [Ascii.leftParen] ∈ t.writtenTexts :=
  List.mem_append_right _ (List.mem_flatMap.mpr ⟨c, mem, List.mem_map_of_mem among⟩)

theorem forall_writtenTexts {t : Table} {P : Bytes → Prop} (trusted : ∀ s ∈ t.trustedTexts, P (Fragment.trusted s).sql)
    (transforms : ∀ c ∈ t.allColumns, ∀ name ∈ c.dbTransforms, P (name ++ [Ascii.leftParen])) :
    ∀ text ∈ t.writtenTexts, P text := by
  unfold writtenTexts
  rw [List.forall_mem_append, List.forall_mem_map, List.forall_mem_flatMap]
  refine ⟨trusted, fun c mem => ?_⟩
  rw [List.forall_mem_map]
  exact transforms c mem

theorem Quiet.writtenTexts {t : Table} (h : t.Quiet) : ∀ text ∈ t.writtenTexts, Placeholder.Quiet text := by
  have opening : Placeholder.Quiet [Ascii.leftParen] := by decide
  have closing : Placeholder.Quiet [Ascii.rightParen] := by decide
  exact forall_writtenTexts (fun s mem => opening.append ((h.trusted s mem).append closing))
    fun c mem name among => (h.transforms c mem name among).append opening

/-- What a caller may not see is written into SQL as before. -/
theorem writtenTexts_visibleTo (t : Table) (roles : List Bytes) :
    (t.visibleTo roles).writtenTexts = t.writtenTexts := by
  have joins : Join.conditionTextsOf (t.visibleTo roles).joins = Join.conditionTextsOf t.joins :=
    Join.conditionTextsOf_restrictList roles t.joins
  have transforms (c : Column) : (c.restrict roles).dbTransforms = c.dbTransforms := by
    unfold Column.restrict
    split_ifs <;> rfl
  unfold writtenTexts trustedTexts
  rw [expressionTexts_visibleTo, joins, allColumns_visibleTo, List.flatMap_map]
  simp only [transforms]

end Table

/-! ## Subqueries -/

theorem Operand.wordedAt_toSql (o : Operand) (texts : List Bytes) (before after : Bytes) :
    (o.toSql d).WordedAt d texts {o.seats before after} before after := by
  cases o with
  | column name => exact (Fragment.wordedIn_identifier d name).at before after
  | literal v => exact Fragment.wordedAt_value ⟨before, v, after⟩ (List.suffix_refl _) (List.prefix_refl _)

theorem Correlation.wordedIn_toSql (c : Correlation) : (c.toSql d).WordedIn d texts {c.seats d} := by
  have sides := Comparison.wordedIn_apply c.op (c.left.wordedAt_toSql texts (c.op.frame d).opening
      ((c.op.frame d).between ++ (c.right.toSql d).sql ++ (c.op.frame d).closing))
    (c.right.wordedAt_toSql texts ((c.op.frame d).opening ++ (c.left.toSql d).sql ++ (c.op.frame d).between)
      (c.op.frame d).closing)
  rw [Seat.singleton_mul] at sides
  exact sides

namespace Predicate

theorem wordedIn_orTrue {f : Fragment} {seats : Language Seat} (h : f.WordedIn d texts seats) :
    (orTrue f).WordedIn d texts seats := by
  unfold orTrue
  split
  · next none => exact Fragment.wordedIn_alwaysTrue.of_row (h.nil_mem none)
  · exact h

theorem flatten_seats (ps : List Predicate) :
    (ps.map fun p => p.comparisons.flatMap (Correlation.seats d)).flatten
      = (comparisonsOf ps).flatMap (Correlation.seats d) := by
  induction ps with
  | nil => rfl
  | cons p ps ih => rw [List.map_cons, List.flatten_cons, ih, comparisonsOf, List.flatMap_append]

mutual

theorem wordedIn_toSql (p : Predicate) :
    (p.toSql d).WordedIn d texts {p.comparisons.flatMap (Correlation.seats d)} := by
  cases p with
  | compare c =>
    rw [comparisons, List.flatMap_singleton]
    exact c.wordedIn_toSql
  | all children =>
    rw [toSql, comparisons, ← flatten_seats, ← Seat.prod_singletons]
    exact wordedIn_orTrue (Fragment.wordedIn_all (allWordedIn_listToSql children))
  | any children =>
    rw [toSql, comparisons, ← flatten_seats, ← Seat.prod_singletons]
    exact wordedIn_orTrue (Fragment.wordedIn_any (allWordedIn_listToSql children))
  | not child =>
    rw [toSql, comparisons]
    exact Fragment.wordedIn_not (wordedIn_toSql child)

theorem allWordedIn_listToSql (ps : List Predicate) :
    Fragment.AllWordedIn (listToSql d ps) d texts
      ((ps.map fun p => p.comparisons.flatMap (Correlation.seats d)).map fun row => {row}) := by
  cases ps with
  | nil => exact .nil
  | cons p ps => exact .cons (wordedIn_toSql p) (allWordedIn_listToSql ps)

end

end Predicate

namespace Subquery

variable {s : Subquery}

theorem wordedIn_correlation (written : ∀ t, s.filter = some t → (Fragment.trusted t).sql ∈ texts) :
    (s.correlation d).WordedIn d texts {s.seats d} := by
  unfold correlation seats comparisons
  split
  · next p predicate =>
    rw [predicate]
    exact p.wordedIn_toSql
  · next none =>
    rw [none]
    split_ifs with listed
    · have parts : Fragment.AllWordedIn (s.conditions.map (Correlation.toSql d)) d texts
          ((s.conditions.map (Correlation.seats d)).map fun row => {row}) := by
        rw [List.map_map]
        exact Fragment.allWordedIn_map fun c _ => c.wordedIn_toSql
      have all := Fragment.wordedIn_all parts
      rw [Seat.prod_singletons, ← List.flatMap_def] at all
      exact all
    · rw [Bool.not_eq_true', Bool.not_eq_false, List.isEmpty_iff] at listed
      rw [listed]
      split
      · next t filter =>
        split_ifs
        · exact Fragment.wordedIn_alwaysTrue
        · exact Fragment.wordedIn_trusted (written t filter)
      · exact Fragment.wordedIn_alwaysTrue

/-- The expression of a subquery has no text but its filter, and its values are in the seats of its literals. -/
theorem wordedIn_toSql {f : Fragment} (h : s.toSql d = .ok f)
    (written : ∀ t, s.filter = some t → (Fragment.trusted t).sql ∈ texts) : f.WordedIn d texts {s.seats d} := by
  have correlation : (s.correlation d).WordedIn d texts {s.seats d} := wordedIn_correlation written
  have table : Phrase d (d.quoteName s.table) := .name _
  have row : Phrase d (d.quoteName (Ascii.underscore :: s.name)) := .name _
  have around {before between after : Bytes} (hbefore : Phrase d before)
      (hbetween : Phrase d between) (hafter : Phrase d after) :
      ((Fragment.text (before ++ d.quoteName s.table ++ between) ++ s.correlation d).add after).WordedIn d texts
        {s.seats d} :=
    (correlation.behind (Fragment.wordedIn_text texts ((hbefore.append table).append hbetween))).add hafter
  unfold toSql at h
  split at h
  · cases h
    exact around (.word (by decide)) (.word (by decide)) (.word (by decide))
  · cases h
    exact around (.word (by decide)) (.word (by decide)) (.word (by decide))
  · obtain ⟨-, -, h⟩ := Checked.bind_eq_ok.mp h
    cases h
    have opening : Phrase d "(SELECT row_to_json(" := .word (by decide)
    have closing : Phrase d " LIMIT 1) " := .word (by decide)
    exact around ((opening.append row).append (.word (by decide))) (.word (by decide))
      ((closing.append row).append (.word (by decide)))

end Subquery

/-! ## Fields -/

namespace Field

/-- The seats that a field brings wherever it is written: those of the literals of its subquery. -/
def seats (d : Dialect) (f : Field) : List Seat :=
  match f.origin with
  | .column _ => []
  | .subquery s => if f.scalar then s.seats d else []

/-- All SQL that a field gives rise to is worded so. -/
structure WordedIn (f : Field) (d : Dialect) (texts : List Bytes) : Prop where
  expression : f.expression.WordedIn d texts {f.seats d}
  selected : f.selectExpression.WordedIn d texts {f.seats d}
  /-- The trusted SQL of a subquery that fetches a row, which is written where it is selected. -/
  filter : ∀ s, f.origin = .subquery s → ∀ t, s.filter = some t → (Fragment.trusted t).sql ∈ texts

theorem wordedIn_applyTransforms {names : List Bytes} {e : Fragment} {seats : Language Seat}
    (h : e.WordedIn d texts seats) (written : ∀ name ∈ names, name ++ [Ascii.leftParen] ∈ texts) :
    (applyTransforms names e).WordedIn d texts seats :=
  List.foldlRecOn (motive := (Fragment.WordedIn · d texts seats)) names _ h fun _ inside name mem =>
    (inside.behind (Fragment.wordedIn_text_of_mem (written name mem))).add (.word (by decide))

theorem wordedIn_ofColumn {baseNames : List Bytes} {table : Bytes} {c : Column}
    (trusted : ∀ s, c.expression = some s → (Fragment.trusted s).sql ∈ texts)
    (transforms : ∀ name ∈ c.dbTransforms, name ++ [Ascii.leftParen] ∈ texts) :
    (ofColumn d baseNames table c).WordedIn d texts := by
  unfold ofColumn
  split_ifs
  · have expression : (ofComputed c).expression.WordedIn d texts 1 := by
      unfold ofComputed
      split
      · next s hs => exact Fragment.wordedIn_trusted (trusted s hs)
      · exact Fragment.wordedIn_text texts (.word (by decide))
    exact ⟨expression, wordedIn_applyTransforms expression transforms, nofun⟩
  · have expression : (ofTableColumn d baseNames table c).expression.WordedIn d texts 1 :=
      Fragment.wordedIn_identifier d _
    exact ⟨expression, wordedIn_applyTransforms expression transforms, nofun⟩

theorem wordedIn_ofSubquery {s : Subquery} {f : Field} (h : ofSubquery d s = .ok f)
    (written : ∀ t, s.filter = some t → (Fragment.trusted t).sql ∈ texts) : f.WordedIn d texts := by
  have filter : ∀ s', FieldOrigin.subquery s = .subquery s' →
      ∀ t, s'.filter = some t → (Fragment.trusted t).sql ∈ texts := by
    rintro s' same
    cases same
    exact written
  unfold ofSubquery at h
  split at h
  · cases h
    exact ⟨Fragment.wordedIn_empty, Fragment.wordedIn_empty, filter⟩
  · obtain ⟨expression, made, h⟩ := Checked.bind_eq_ok.mp h
    cases h
    have built := Subquery.wordedIn_toSql made written
    exact ⟨built, built, filter⟩

end Field

/-! ## Joins -/

/-- A clause is its condition after a text of keywords and names. -/
theorem JoinClause.exists_toSql_eq (clause : JoinClause) (d : Dialect) (texts : List Bytes) :
    ∃ named : Fragment, named.WordedIn d texts 1 ∧ clause.toSql d = named ++ clause.condition := by
  have keyword : Phrase d (keyword clause.type) := .word (by cases clause.type <;> decide)
  have joined := ((Fragment.wordedIn_text texts keyword).add (.word (by decide) : Phrase d " ")).add
    (.name clause.table)
  unfold toSql
  dsimp only
  split_ifs
  · exact ⟨_, ((joined.add (.word (by decide))).add (Phrase.name _)).add (.word (by decide)), rfl⟩
  · exact ⟨_, joined.add (.word (by decide)), rfl⟩

theorem JoinClause.wordedIn_toSql {clause : JoinClause} (h : clause.condition.WordedIn d texts 1) :
    (clause.toSql d).WordedIn d texts 1 := by
  obtain ⟨named, built, joined⟩ := clause.exists_toSql_eq d texts
  rw [joined]
  exact h.behind built

namespace Join

mutual

theorem conditionTexts_preorder (parent : Bytes) (depth : Nat) (j : Join) :
    ((j.preorder parent depth).flatMap fun n => n.join.condition.trusted?.toList) = j.conditionTexts := by
  cases j with
  | mk table tableAlias type condition columns joins =>
    rw [preorder, List.flatMap_cons, conditionTexts_preorderOf, conditionTexts]
    rfl

/-- The trusted conditions of the joins in a row are those of the forest. -/
theorem conditionTexts_preorderOf (parent : Bytes) (depth : Nat) (js : List Join) :
    ((preorderOf parent depth js).flatMap fun n => n.join.condition.trusted?.toList) = conditionTextsOf js := by
  cases js with
  | nil => rfl
  | cons j js =>
    rw [preorderOf, List.flatMap_append, conditionTexts_preorder, conditionTexts_preorderOf, conditionTextsOf]

end

end Join

namespace JoinPlan

theorem wordedIn_qualified (d : Dialect) (name qualifier : Bytes) :
    (qualified d name qualifier).WordedIn d texts 1 := by
  unfold qualified
  split_ifs <;> exact Fragment.wordedIn_identifier d _

theorem wordedIn_condition {parent : Bytes} {j : Join}
    (written : ∀ s, j.condition.trusted? = some s → (Fragment.trusted s).sql ∈ texts) :
    (condition d parent j).WordedIn d texts 1 := by
  unfold condition
  split
  · next trusted raw =>
    exact Fragment.wordedIn_trusted (written trusted (by rw [raw]; rfl))
  · exact (wordedIn_qualified d _ _).behind ((wordedIn_qualified d _ _).add (.word (by decide)))

/-- The condition of each clause of a plan is worded so, and has no values. -/
def WordedIn (p : JoinPlan) (d : Dialect) (texts : List Bytes) : Prop :=
  ∀ clause ∈ p.clauses, clause.condition.WordedIn d texts 1

/-- Each clause of a plan is that of a join of the forest. -/
theorem wordedIn_ofTable {t : Table} {p : JoinPlan} (h : ofTable t d = .ok p)
    (written : ∀ s ∈ Join.conditionTextsOf t.joins, (Fragment.trusted s).sql ∈ texts) : p.WordedIn d texts := by
  unfold WordedIn
  rw [clauses_ofTable h, List.forall_mem_map]
  intro n mem
  refine wordedIn_condition fun s raw => written s ?_
  rw [← Join.conditionTexts_preorderOf t.base 0]
  exact List.mem_flatMap.mpr ⟨n, mem, Option.mem_toList.mpr raw⟩

end JoinPlan

/-! ## All fields -/

namespace Resolver

variable {r : Resolver}

/-- Every field that look-up may return is worded so in its dialect, and so is every join. -/
structure WordedIn (r : Resolver) (texts : List Bytes) : Prop where
  fields : ∀ f ∈ r.known, f.WordedIn r.dialect texts
  joins : r.joins.WordedIn r.dialect texts

/-- The fields of a description have no text but those that it has written into SQL, and no value but the literals of
its subqueries. -/
theorem Describes.wordedIn {qualifier : Bytes} {t : Table} (hr : r.Describes qualifier t d) :
    r.WordedIn t.writtenTexts where
  fields := by
    rw [hr.dialect]
    refine hr.forall_known (P := (Field.WordedIn · d t.writtenTexts)) ?_ ?_
    · intro c mem baseNames table
      refine Field.wordedIn_ofColumn (fun s hs => Table.mem_writtenTexts_of_trusted ?_)
        fun name => Table.mem_writtenTexts_of_transform mem
      exact List.mem_append_left _ (List.mem_append_left _ (List.mem_filterMap.mpr ⟨c, mem, hs⟩))
    · intro s mem f made
      refine Field.wordedIn_ofSubquery made fun u hu => Table.mem_writtenTexts_of_trusted ?_
      exact List.mem_append_left _ (List.mem_append_right _ (List.mem_filterMap.mpr ⟨s, mem, hu⟩))
  joins := by
    rw [hr.dialect]
    exact JoinPlan.wordedIn_ofTable hr.joins fun s mem =>
      Table.mem_writtenTexts_of_trusted (List.mem_append_right _ mem)

namespace WordedIn

variable (h : r.WordedIn texts)
include h

theorem expression_of_resolve {name : Bytes} {f : Field} (found : r.resolve name = some f) :
    f.expression.WordedIn r.dialect texts {f.seats r.dialect} :=
  (h.fields f (mem_of_resolve found)).expression

end WordedIn

end Resolver

end TableQuery
