import TableQuery.Proofs.Field.Resolver
import TableQuery.Proofs.Sql.Row
import TableQuery.Statement.Condition

/-!
# The meaning of filter trees

A filter tree becomes text, with parentheses only where the recorded connectives ask for them. Read by the
precedence of SQL, that text says of every row what the tree says: a group of all its children, or of any.

Two kinds of leaves are left out of a tree without a word: one that names no field, and one whose value is
the date preset without a range. A group that loses all of its children this way is left out as well
(`FilterTree.prune`). Every other leaf is a comparison, read as one atom, or the two ends of a range of days.

## What is proved

`FilterTree.expresses_toSql`, by induction over the tree with one companion for its lists: a tree of which nothing
is left gives no text, and any other gives a text that means what is left of it. `Condition.expresses_toSqlBy` is
the base of the induction. `boolean_structure` puts it together with the predicates of subqueries.

What holds of every leaf, and of conjunctions and disjunctions of what it holds of (`Fragment.Composes`), holds of all
the filters of a request and of a description: `Resolver.forall_requestFilters` and its companions.

Trusted SQL that has placeholders of its own cannot be given values, and a database refuses a statement with
it. Then the meaning is none on both sides.
-/

namespace TableQuery

variable {strict : Prop} {σ : List Token → Truth}

/-! ## Leaves -/

namespace Condition

/-- The condition that a leaf gives, by who wrote it. -/
def toSqlBy (author : Author) (r : Resolver) (limits : Limits) (day : Day) (c : Condition) :
    Checked Fragment :=
  match author with
  | .request => c.ofRequest r limits day
  | .description => c.ofDescription r day

/-- Whether a leaf is left out: it names no field, or the preset without a range. -/
def isIgnored (r : Resolver) (c : Condition) : Bool :=
  match r.resolve c.field with
  | none => true
  | some f => r.preset? f c.value == some .custom

/-- The value that a leaf binds: a request's is checked first, a description's is taken as it is. -/
def boundValue (author : Author) (limits : Limits) (f : Field) (c : Condition) : Checked Json :=
  match author with
  | .request => limits.checkValue f.name f.type c.op c.value
  | .description => .ok c.value

/-- The comparisons that a leaf stands for: the ends of a preset's range, or the one of its operator. -/
def comparisons (author : Author) (r : Resolver) (limits : Limits) (day : Day) (c : Condition) :
    List Fragment :=
  match r.resolve c.field with
  | none => []
  | some f =>
    match r.preset? f c.value with
    | some preset =>
      (preset.rangeOn day).toList.flatMap fun range =>
        [Operator.binary f.expression ">=" (.str range.start.toIso),
          Operator.binary f.expression "<" (.str range.stop.toIso)]
    | none =>
      match (do c.op.apply f.expression (← c.boundValue author limits f) r.dialect f.name) with
      | .ok comparison => [comparison]
      | .error _ => []

end Condition

/-- What a leaf says of a row: all of its comparisons. -/
def Condition.truth? (σ : List Token → Truth) (author : Author) (r : Resolver) (limits : Limits)
    (day : Day) (c : Condition) : Option Truth :=
  ((c.comparisons author r limits day).mapM (Fragment.atom? σ)).map Truth.all

/-! ## Trees -/

/-- How a group reads its children. -/
def LogicalOp.over : LogicalOp → List Truth → Truth
  | .and => Truth.all
  | .or => Truth.any

namespace FilterTree

mutual

/-- A tree without the leaves that are left out, and without the groups that this leaves empty. -/
def prune (ignored : Condition → Bool) : FilterTree → Option FilterTree
  | leaf c => if ignored c then none else some (leaf c)
  | group op children =>
    match pruneList ignored children with
    | [] => none
    | kept => some (group op kept)

/-- What is left of each tree of a list. -/
def pruneList (ignored : Condition → Bool) : List FilterTree → List FilterTree
  | [] => []
  | t :: rest => (t.prune ignored).toList ++ pruneList ignored rest

end

mutual

/-- What a tree says of a row, given what its leaves say. -/
def value (leafValue : Condition → Option Truth) : FilterTree → Option Truth
  | leaf c => leafValue c
  | group op children => (valuesOf leafValue children).map op.over

/-- What each tree of a list says of a row. -/
def valuesOf (leafValue : Condition → Option Truth) : List FilterTree → Option (List Truth)
  | [] => some []
  | t :: rest => do
    let v ← t.value leafValue
    return v :: (← valuesOf leafValue rest)

end

end FilterTree

/-! ## What becomes of a leaf -/

namespace Condition

/-- The condition of a leaf on a known field: the range of the preset that its value names, or else the comparison of
its operator with the value that is bound. -/
inductive Becomes (c : Condition) (r : Resolver) (day : Day) (f : Field) (bound : Checked Json) (g : Fragment) :
    Prop where
  | preset (p : DatePreset) (named : r.preset? f c.value = some p) (made : g = p.toSql day f.expression)
  | comparison (v : Json) (plain : r.preset? f c.value = none) (ok : bound = .ok v)
      (applied : c.op.apply f.expression v r.dialect f.name = .ok g)

variable {r : Resolver} {limits : Limits} {day : Day} {c : Condition} {g : Fragment}

/-- A request's leaf is left out if it names no field, and is refused on a field that may not be filtered. -/
theorem ofRequest_eq_ok (h : c.ofRequest r limits day = .ok g) :
    r.resolve c.field = none ∧ g = .empty ∨ ∃ f, r.resolve c.field = some f ∧ r.mayFilter f = true
      ∧ c.Becomes r day f (c.boundValue .request limits f) g := by
  unfold ofRequest at h
  cases found : r.resolve c.field with
  | none =>
    rw [found] at h
    cases h
    exact .inl ⟨rfl, rfl⟩
  | some f =>
    rw [found] at h
    dsimp only at h
    split_ifs at h with refused
    refine .inr ⟨f, rfl, by simpa using refused, ?_⟩
    cases named : r.preset? f c.value with
    | some p =>
      rw [named] at h
      cases h
      exact .preset p named rfl
    | none =>
      rw [named] at h
      obtain ⟨v, ok, applied⟩ := Checked.bind_eq_ok.mp h
      exact .comparison v named ok applied

theorem ofDescription_eq_ok (h : c.ofDescription r day = .ok g) :
    ∃ f, r.resolve c.field = some f ∧ c.Becomes r day f (c.boundValue .description {} f) g := by
  unfold ofDescription at h
  obtain ⟨f, required, h⟩ := Checked.bind_eq_ok.mp h
  refine ⟨f, Resolver.resolve_of_require required, ?_⟩
  cases named : r.preset? f c.value with
  | some p =>
    rw [named] at h
    cases h
    exact .preset p named rfl
  | none =>
    rw [named] at h
    exact .comparison c.value named rfl h

end Condition

/-! ## The meaning of a leaf -/

/-- The meaning of a condition: none without text, and none within if a database refuses it. -/
def Fragment.meaning (σ : List Token → Truth) (f : Fragment) : Option (Option Truth) :=
  if f.isEmpty then none else some (f.truth? σ)

theorem Fragment.meaning_of_filled {f : Fragment} (filled : f.isEmpty = false) :
    f.meaning σ = some (f.truth? σ) := by
  rw [meaning, filled]
  rfl

/-- A condition that may be put together with others and has a given meaning. -/
structure Fragment.Expresses (strict : Prop) (σ : List Token → Truth) (f : Fragment)
    (asked : Option (Option Truth)) : Prop where
  reads : f.Reads strict
  meaning : f.meaning σ = asked

namespace Condition

/-- The condition of a range of days means both of its ends. -/
theorem expresses_range {e : Fragment} (he : e.IsOperand strict) (range : DateRange) :
    (range.toSql e).Expresses strict σ (some
      (([Operator.binary e ">=" (.str range.start.toIso), Operator.binary e "<" (.str range.stop.toIso)].mapM
        (Fragment.atom? σ)).map Truth.all)) := by
  unfold DateRange.toSql
  have lower : (Operator.binary e ">=" (.str range.start.toIso)).IsTest strict :=
    Operator.isTest_sign (opens_of_scan rfl) he _
  have upper : (Operator.binary e "<" (.str range.stop.toIso)).IsTest strict :=
    Operator.isTest_sign (opens_of_scan rfl) he _
  generalize Operator.binary e ">=" (.str range.start.toIso) = low at lower ⊢
  generalize Operator.binary e "<" (.str range.stop.toIso) = high at upper ⊢
  have reads : ∀ g ∈ [low, high], g.Reads strict :=
    List.forall_mem_cons.mpr ⟨lower.reads, List.forall_mem_singleton.mpr upper.reads⟩
  have kept : Fragment.present [low, high] = [low, high] := by
    simp [Fragment.present, lower.filled, upper.filled]
  have some : Fragment.present [low, high] ≠ [] := by
    rw [kept]
    exact List.cons_ne_nil _ _
  have filled : (Fragment.all [low, high]).isEmpty = false := by
    rw [Bool.eq_false_iff]
    exact fun empty => some (Fragment.isEmpty_combine.mp empty)
  refine ⟨Fragment.reads_all reads, ?_⟩
  rw [Fragment.meaning_of_filled filled, Fragment.truth?_all reads some, kept, List.mapM_cons,
    List.mapM_cons, List.mapM_cons, List.mapM_cons, lower.atom?_eq, upper.atom?_eq]
  rfl

/-- The condition of an operator means its one comparison. -/
theorem expresses_test {f : Fragment} (h : f.IsTest strict) :
    f.Expresses strict σ (some (([f].mapM (Fragment.atom? σ)).map Truth.all)) := by
  refine ⟨h.reads, ?_⟩
  rw [Fragment.meaning_of_filled h.filled, List.mapM_cons, List.mapM_nil, h.atom?_eq]
  cases f.truth? σ with
  | none => rfl
  | some v => exact congrArg (fun v => Option.some (Option.some v)) (Truth.and_true v).symm

theorem rangeOn_eq_none {p : DatePreset} {day : Day} : p.rangeOn day = none ↔ p = .custom := by
  cases p <;> simp [DatePreset.rangeOn]

variable {r : Resolver} {qualifier : Bytes} {t : Table} {d : Dialect}

/-- What a leaf on a known field asks for. -/
theorem expresses_known {author : Author} {limits : Limits} {day : Day} {c : Condition} {field : Field}
    {f : Fragment} (he : field.expression.IsOperand strict) (found : r.resolve c.field = some field)
    (h : c.Becomes r day field (c.boundValue author limits field) f) :
    f.Expresses strict σ
      (if c.isIgnored r then none else some (c.truth? σ author r limits day)) := by
  have ignored : c.isIgnored r = (r.preset? field c.value == some .custom) := by rw [isIgnored, found]
  unfold truth? comparisons
  rw [ignored, found]
  dsimp only
  cases h with
  | preset p named made =>
    subst made
    rw [named]
    unfold DatePreset.toSql
    cases range : p.rangeOn day with
    | none =>
      rw [rangeOn_eq_none.mp range]
      exact ⟨Fragment.reads_empty, rfl⟩
    | some days =>
      have ranged : (some p == some DatePreset.custom) = false := by
        rw [beq_eq_false_iff_ne]
        intro custom
        rw [rangeOn_eq_none.mpr (Option.some.inj custom)] at range
        cases range
      dsimp only
      rw [ranged, range, Option.toList_some, List.flatMap_singleton]
      exact expresses_range he days
  | comparison v plain ok applied =>
    rw [plain, ok]
    dsimp only
    rw [show (Except.ok v >>= fun v => c.op.apply field.expression v r.dialect field.name) = .ok f from applied]
    exact expresses_test (Operator.isTest_apply he applied)

/-- The condition of a leaf has text just if the leaf is not left out, and means what the leaf says. -/
theorem expresses_toSqlBy (hr : r.Describes qualifier t d)
    (trusted : ∀ s ∈ t.expressionTexts, s.Closes strict) {author : Author} {limits : Limits} {day : Day}
    {c : Condition} {f : Fragment} (h : c.toSqlBy author r limits day = .ok f) :
    f.Expresses strict σ
      (if c.isIgnored r then none else some (c.truth? σ author r limits day)) := by
  cases author with
  | request =>
    rcases ofRequest_eq_ok h with ⟨unknown, rfl⟩ | ⟨field, found, -, becomes⟩
    · have ignored : c.isIgnored r = true := by rw [isIgnored, unknown]
      rw [ignored]
      exact ⟨Fragment.reads_empty, rfl⟩
    · exact expresses_known (hr.isOperand_of_resolve trusted found) found becomes
  | description =>
    obtain ⟨field, found, becomes⟩ := ofDescription_eq_ok h
    exact expresses_known (hr.isOperand_of_resolve trusted found) found becomes

end Condition

/-! ## Leaves of filter trees -/

namespace FilterTree

mutual

/-- The conditions at the leaves of a tree. -/
def leaves : FilterTree → List Condition
  | leaf condition => [condition]
  | group _ children => leavesOf children

/-- The conditions at the leaves of the trees of a list. -/
def leavesOf : List FilterTree → List Condition
  | [] => []
  | t :: rest => t.leaves ++ leavesOf rest

end

theorem mem_leavesOf {trees : List FilterTree} {c : Condition} :
    c ∈ leavesOf trees ↔ ∃ tree ∈ trees, c ∈ tree.leaves := by
  induction trees with
  | nil => simp [leavesOf]
  | cons tree trees ih => rw [leavesOf, List.mem_append, ih, List.exists_mem_cons_iff]

end FilterTree

/-! ## What all leaves have in common -/

/-- A conjunction of conditions with a property has it, and so has a disjunction. -/
structure Fragment.Composes (P : Fragment → Prop) : Prop where
  all {parts : List Fragment} (parts_have : ∀ f ∈ parts, P f) : P (.all parts)
  any {parts : List Fragment} (parts_have : ∀ f ∈ parts, P f) : P (.any parts)

section Leaves

variable {P : Fragment → Prop}

namespace FilterTree

variable {leaf : Condition → Checked Fragment}

theorem listToSql_cons_eq_ok {tree : FilterTree} {trees : List FilterTree} {fs : List Fragment}
    (h : listToSql leaf (tree :: trees) = .ok fs) :
    ∃ f rest, tree.toSql leaf = .ok f ∧ listToSql leaf trees = .ok rest ∧ fs = f :: rest := by
  rw [listToSql] at h
  obtain ⟨f, hf, h⟩ := Checked.bind_eq_ok.mp h
  obtain ⟨rest, hrest, h⟩ := Checked.bind_eq_ok.mp h
  cases h
  exact ⟨f, rest, hf, hrest, rfl⟩

mutual

/-- The condition of a tree has what those of its leaves have. -/
theorem forall_toSql (composes : Fragment.Composes P) (leaves : ∀ c f, leaf c = .ok f → P f) {tree : FilterTree}
    {f : Fragment} (h : tree.toSql leaf = .ok f) : P f := by
  cases tree with
  | leaf c =>
    rw [toSql] at h
    exact leaves c f h
  | group op children =>
    rw [toSql] at h
    obtain ⟨parts, hparts, h⟩ := Checked.bind_eq_ok.mp h
    cases op with
    | and =>
      cases h
      exact composes.all (forall_listToSql composes leaves hparts)
    | or =>
      cases h
      exact composes.any (forall_listToSql composes leaves hparts)

theorem forall_listToSql (composes : Fragment.Composes P) (leaves : ∀ c f, leaf c = .ok f → P f)
    {trees : List FilterTree} {parts : List Fragment} (h : listToSql leaf trees = .ok parts) : ∀ f ∈ parts, P f := by
  cases trees with
  | nil =>
    rw [listToSql] at h
    cases h
    exact List.forall_mem_nil _
  | cons tree rest =>
    obtain ⟨part, parts, hpart, hparts, rfl⟩ := listToSql_cons_eq_ok h
    exact List.forall_mem_cons.mpr
      ⟨forall_toSql composes leaves hpart, forall_listToSql composes leaves hparts⟩

end

end FilterTree

namespace Resolver

variable (composes : Fragment.Composes P) {r : Resolver} {day : Day} {f : Fragment}
include composes

section Request

variable {limits : Limits} (leaves : ∀ c f, Condition.ofRequest r limits day c = .ok f → P f)
include leaves

theorem forall_requestFilters {filters : List (Bytes × FilterParam)}
    (h : r.requestFilters limits day filters = .ok f) : P f := by
  unfold requestFilters at h
  obtain ⟨parts, hparts, h⟩ := Checked.bind_eq_ok.mp h
  cases h
  refine composes.all fun g mem => ?_
  obtain ⟨filter, -, made⟩ := Checked.exists_of_mem_mapM hparts mem
  exact leaves _ g made

theorem forall_requestGroups {groups : List FilterTree} (h : r.requestGroups limits day groups = .ok f) : P f := by
  unfold requestGroups at h
  obtain ⟨parts, hparts, h⟩ := Checked.bind_eq_ok.mp h
  cases h
  exact composes.all (FilterTree.forall_listToSql composes leaves hparts)

end Request

/-- A description's filters always apply if they are static. -/
theorem forall_staticFilters
    (leaves : ∀ filter ∈ r.table.filters, ∀ g, filter.condition.ofDescription r day = .ok g → P g)
    (h : r.staticFilters day = .ok f) : P f := by
  unfold staticFilters at h
  obtain ⟨parts, hparts, h⟩ := Checked.bind_eq_ok.mp h
  cases h
  refine composes.all fun g mem => ?_
  obtain ⟨filter, among, made⟩ := Checked.exists_of_mem_mapM hparts mem
  exact leaves filter (List.mem_of_mem_filter among) g made

end Resolver

end Leaves

/-! ## The meaning of a tree -/

namespace FilterTree

variable {leaf : Condition → Checked Fragment} {ignored : Condition → Bool}
  {leafValue : Condition → Option Truth}

/-- What conditions of trees have in common with the trees that are left: how many have text, and what these
mean. -/
structure ListExpresses (strict : Prop) (σ : List Token → Truth) (fs : List Fragment)
    (asked : List FilterTree) (leafValue : Condition → Option Truth) : Prop where
  reads : ∀ f ∈ fs, f.Reads strict
  present : Fragment.present fs = [] ↔ asked = []
  meanings : (Fragment.present fs).mapM (Fragment.truth? σ) = valuesOf leafValue asked

/-- A group of trees means its connective over what is left of them. -/
theorem expresses_group {fs : List Fragment} {asked : List FilterTree} (op : LogicalOp)
    (h : ListExpresses strict σ fs asked leafValue) :
    (match op with
      | .and => Fragment.all fs
      | .or => Fragment.any fs).Expresses strict σ
      ((match asked with
        | [] => none
        | kept => some (group op kept)).map (value leafValue)) := by
  have reads : (match op with
      | .and => Fragment.all fs
      | .or => Fragment.any fs).Reads strict := by
    cases op with
    | and => exact Fragment.reads_all h.reads
    | or => exact Fragment.reads_any h.reads
  refine ⟨reads, ?_⟩
  cases asked with
  | nil =>
    have none := h.present.mpr rfl
    have empty : (match op with
        | .and => Fragment.all fs
        | .or => Fragment.any fs).isEmpty = true := by
      cases op <;> exact Fragment.isEmpty_combine.mpr none
    rw [Fragment.meaning, empty]
    rfl
  | cons first rest =>
    have some : Fragment.present fs ≠ [] := fun none => List.cons_ne_nil _ _ (h.present.mp none)
    have filled : (match op with
        | .and => Fragment.all fs
        | .or => Fragment.any fs).isEmpty = false := by
      rw [Bool.eq_false_iff]
      cases op <;> exact fun empty => some (Fragment.isEmpty_combine.mp empty)
    rw [Fragment.meaning_of_filled filled, Option.map_some, value, ← h.meanings]
    cases op with
    | and => rw [Fragment.truth?_all h.reads some]; rfl
    | or => rw [Fragment.truth?_any h.reads some]; rfl

mutual

/-- The condition of a tree means what is left of the tree, if the condition of each leaf does. -/
theorem expresses_toSql
    (hleaf : ∀ c f, leaf c = .ok f →
      f.Expresses strict σ (if ignored c then none else some (leafValue c)))
    {tree : FilterTree} {f : Fragment} (h : tree.toSql leaf = .ok f) :
    f.Expresses strict σ ((tree.prune ignored).map (value leafValue)) := by
  cases tree with
  | leaf c =>
    have base := hleaf c f h
    rw [prune]
    split_ifs at base ⊢ with ign
    · exact base
    · exact base
  | group op children =>
    rw [toSql] at h
    obtain ⟨fs, hfs, h⟩ := Checked.bind_eq_ok.mp h
    cases h
    exact expresses_group op (listExpresses_listToSql hleaf hfs)

/-- The conditions of trees mean what is left of the trees, if the condition of each leaf does. -/
theorem listExpresses_listToSql
    (hleaf : ∀ c f, leaf c = .ok f →
      f.Expresses strict σ (if ignored c then none else some (leafValue c)))
    {trees : List FilterTree} {fs : List Fragment} (h : listToSql leaf trees = .ok fs) :
    ListExpresses strict σ fs (pruneList ignored trees) leafValue := by
  cases trees with
  | nil =>
    rw [listToSql] at h
    cases h
    rw [pruneList]
    exact ⟨nofun, ⟨fun _ => rfl, fun _ => rfl⟩, rfl⟩
  | cons t rest =>
    obtain ⟨f, more, hf, hmore, rfl⟩ := listToSql_cons_eq_ok h
    have head := expresses_toSql hleaf hf
    have tail := listExpresses_listToSql hleaf hmore
    have reads := List.forall_mem_cons.mpr ⟨head.reads, tail.reads⟩
    have meaning := head.meaning
    rw [pruneList]
    cases kept : t.prune ignored with
    | none =>
      have empty : f.isEmpty = true := by
        cases filled : f.isEmpty with
        | true => rfl
        | false =>
          rw [kept, Fragment.meaning_of_filled filled] at meaning
          cases meaning
      have gone : Fragment.present (f :: more) = Fragment.present more := by
        rw [Fragment.present, List.filter_cons, empty]
        rfl
      refine ⟨reads, ?_, ?_⟩
      · rw [gone]
        exact tail.present
      · rw [gone]
        exact tail.meanings
    | some first =>
      have filled : f.isEmpty = false := by
        cases empty : f.isEmpty with
        | false => rfl
        | true =>
          rw [kept, Fragment.meaning, empty] at meaning
          cases meaning
      rw [kept, Fragment.meaning_of_filled filled] at meaning
      have here : Fragment.present (f :: more) = f :: Fragment.present more := by
        rw [Fragment.present, List.filter_cons, filled]
        rfl
      refine ⟨reads, ?_, ?_⟩
      · rw [here]
        exact ⟨fun eq => absurd eq (List.cons_ne_nil _ _), fun eq => absurd eq (List.cons_ne_nil _ _)⟩
      · have truth := Option.some.inj meaning
        rw [here, List.mapM_cons, truth, tail.meanings]
        rfl

end

end FilterTree

/-! ## Both sides -/

/-- The Boolean structure of filters is kept. A tree of a request or a description that compiles gives no text
if nothing of it is left, and a text that means what is left otherwise; a database refuses the text only for
placeholders in trusted SQL. A predicate always gives a text, which means what the predicate says. -/
theorem boolean_structure (qualifier : Bytes) {t : Table} {d : Dialect} {r : Resolver}
    (hr : Resolver.ofTableAs qualifier t d = .ok r)
    (trusted : ∀ s ∈ t.expressionTexts, s.Closes strict) (hσ : KnowsConstants σ) :
    (∀ (author : Author) (limits : Limits) (day : Day) (tree : FilterTree) (f : Fragment),
      tree.toSql (Condition.toSqlBy author r limits day) = .ok f →
      f.meaning σ
          = (tree.prune (Condition.isIgnored r)).map
              (FilterTree.value (Condition.truth? σ author r limits day))
        ∧ (strict → f.meaning σ ≠ some none))
    ∧ ∀ p : Predicate, (p.toSql d).isEmpty = false ∧ (p.toSql d).truth? σ = some (p.value σ d) := by
  constructor
  · intro author limits day tree f h
    have expresses := FilterTree.expresses_toSql
      (fun c f leaf => Condition.expresses_toSqlBy (σ := σ) (Resolver.describes hr) trusted leaf) h
    refine ⟨expresses.meaning, fun s => ?_⟩
    have accepted : f.truth? σ ≠ none := by
      rw [Fragment.truth?_eq expresses.reads.lexes, if_pos (expresses.reads.tight s)]
      exact Option.some_ne_none _
    rw [Fragment.meaning]
    split_ifs
    · exact nofun
    · exact fun refused => accepted (Option.some.inj refused)
  · intro p
    have means := Predicate.means_toSql hσ d p
    exact ⟨means.filled, means.truth⟩

/-- A table with a column, and a computed one whose expression holds an `OR`. -/
def notes : Table where
  name := "notes"
  base := "notes"
  columns := [{ name := "id" }, { name := "open", computed := true, expression := some ⟨"due OR late"⟩ }]

/-- A tree with a leaf that names no field, beside one on a computed column. -/
def openNotes : FilterTree :=
  .group .or [.leaf { field := "id", value := .str "7" },
    .group .and [.leaf { field := "open", value := .str "yes" }, .leaf { field := "gone" }]]

/-- Of a row whose `id` is 7 the tree is true, by the first of its leaves. -/
theorem boolean_structure_openNotes :
    ∃ r f, Resolver.ofTableAs [] notes .sqlite = .ok r
      ∧ openNotes.toSql (Condition.toSqlBy .request r {} 0) = .ok f
      ∧ f.sql = Bytes.ofString "\"notes\".\"id\" = ? OR (due OR late) = ?"
      ∧ f.meaning (Row.atom ⟨fun _ => Json.same, fun _ _ _ => false⟩ ⟨fun _ => .str "7", fun _ => .unknown⟩)
          = some (some .true) := by
  refine ⟨_, _, rfl, rfl, rfl, ?_⟩
  have closes : ∀ s ∈ notes.expressionTexts, s.Closes True := by
    intro s mem
    rw [List.mem_singleton.mp mem]
    exact ⟨_, lex_eq_some_iff.mp rfl, fun _ => rfl⟩
  have structured := (boolean_structure [] (t := notes) (d := .sqlite) rfl closes
    (Row.knowsConstants_atom (c := ⟨fun _ => Json.same, fun _ _ _ => false⟩)
      (ρ := ⟨fun _ => .str "7", fun _ => .unknown⟩))).1 .request {} 0 openNotes _ rfl
  exact structured.1.trans rfl

end TableQuery
