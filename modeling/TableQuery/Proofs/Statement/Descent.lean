import TableQuery.Proofs.Statement.Walk
import TableQuery.Proofs.Statement.WellNamed

/-!
# The rows of a walk

A walk begins at roots and goes from a row to its children: the rows whose parent key equals its child key. A path is
given by the places of its rows in the base table, so rows that are alike are still different rows, and a row that is
its own ancestor is on paths of any length (`Walks`). The recursive table has, level by level, a row for each path of
as many steps (`ComesOf`), until the bound on the depth lets no row go on.

## What is proved

`Resolver.forall₂_level`: the rows of each level are, one for one, the paths of as many steps, in the order in which
`pathsOf` lists them. The induction is on the level; `Resolver.forall₂_next` is its step, and `Resolver.next_eq_nil`
says that the level after the greatest depth has no rows.

`Resolver.answers_walkStatement`: a database answers the statement of a walk just if its names are clear, whatever rows
the base table has. The recursive table then is `IsCensus`: no row is deeper than the greatest depth, and each depth
down to it has one row for each path. The answer is the rows that the scope keeps.
-/

namespace TableQuery

/-! ## Paths in a table -/

/-- The row in which a path ends, the path being the places of its rows, the last one first. -/
def Relation.last? (T : Relation) (path : List ℕ) : Option (List Json) := path.head?.bind fun i => T.rows[i]?

/-- A path of steps from a row to a child of it, begun at a root. -/
inductive Walks (T : Relation) (root : List Json → Prop) (child : List Json → List Json → Prop) : List ℕ → Prop where
  | root {i : ℕ} {row : List Json} (found : T.rows[i]? = some row) (starts : root row) : Walks T root child [i]
  | step {i : ℕ} {path : List ℕ} {up row : List Json} (walk : Walks T root child path) (above : T.last? path = some up)
      (found : T.rows[i]? = some row) (below : child up row) : Walks T root child (i :: path)

section Paths

variable (T : Relation) (root : List Json → Prop) (child : List Json → List Json → Prop)

/-- The row in a place meets a test. -/
def Relation.Has (i : ℕ) (p : List Json → Prop) : Prop := ∃ row, T.rows[i]? = some row ∧ p row

open Classical in
/-- The paths of as many steps. -/
noncomputable def pathsOf : ℕ → List (List ℕ)
  | 0 => ((List.range T.rows.length).filter fun i => T.Has i root).map fun i => [i]
  | k + 1 => (List.range T.rows.length).flatMap fun i =>
    ((pathsOf k).filter fun path => ∃ up, T.last? path = some up ∧ T.Has i (child up)).map (i :: ·)

variable {T root child}

theorem Relation.Has.mem_range {i : ℕ} {p : List Json → Prop} (h : T.Has i p) : i ∈ List.range T.rows.length := by
  obtain ⟨row, found, -⟩ := h
  exact List.mem_range.mpr (List.getElem?_eq_some_iff.mp found).1

theorem mem_pathsOf {k : ℕ} {path : List ℕ} :
    path ∈ pathsOf T root child k ↔ Walks T root child path ∧ path.length = k + 1 := by
  induction k generalizing path with
  | zero =>
    simp only [pathsOf, List.mem_map, List.mem_filter, decide_eq_true_eq]
    constructor
    · rintro ⟨i, ⟨-, row, found, starts⟩, rfl⟩
      exact ⟨.root found starts, rfl⟩
    · rintro ⟨walk, length⟩
      cases walk with
      | root found starts => exact ⟨_, ⟨Relation.Has.mem_range ⟨_, found, starts⟩, _, found, starts⟩, rfl⟩
      | step walk above found below =>
        rw [List.length_cons, Nat.succ_inj, List.length_eq_zero_iff] at length
        subst length
        cases walk
  | succ k ih =>
    simp only [pathsOf, List.mem_flatMap, List.mem_map, List.mem_filter, decide_eq_true_eq]
    constructor
    · rintro ⟨i, -, path, ⟨mem, up, above, row, found, below⟩, rfl⟩
      obtain ⟨walk, length⟩ := ih.mp mem
      exact ⟨walk.step above found below, congrArg Nat.succ length⟩
    · rintro ⟨walk, length⟩
      cases walk with
      | root found starts => cases length
      | step walk above found below =>
        exact ⟨_, Relation.Has.mem_range ⟨_, found, below⟩, _,
          ⟨ih.mpr ⟨walk, Nat.succ.inj length⟩, _, above, _, found, below⟩, rfl⟩

theorem nodup_pathsOf (k : ℕ) : (pathsOf T root child k).Nodup := by
  induction k with
  | zero => exact (List.nodup_range.filter _).map fun i j same => List.singleton_inj.mp same
  | succ k ih =>
    rw [pathsOf, List.nodup_flatMap]
    constructor
    · intro i _
      exact (ih.filter _).map (List.cons_injective)
    · refine List.nodup_range.pairwise_of_forall_ne fun i _ j _ other => ?_
      rw [Function.onFun, List.disjoint_left]
      intro path mem mem'
      obtain ⟨_, -, rfl⟩ := List.mem_map.mp mem
      obtain ⟨_, -, same⟩ := List.mem_map.mp mem'
      exact other (List.cons.inj same).1.symm

/-- The rows of a table and their places. -/
theorem forall₂_places (T : Relation) :
    List.Forall₂ (fun row i => T.rows[i]? = some row) T.rows (List.range T.rows.length) := by
  rw [List.forall₂_iff_get]
  refine ⟨List.length_range.symm, fun i h h' => ?_⟩
  simp

end Paths

/-! ## The rows of an arm -/

namespace Arm

variable {db : Database} {tables : Tables} {a : Arm} {T tree : Relation} {name name' : Bytes}

/-- The rows of a selection from one table. -/
theorem rows_of_one (h : a.ranges? tables = some [(name, T)]) :
    a.rows db tables = (T.rows.filter fun row => a.conditions.all fun condition =>
        db.verdict [⟨name, T.columns, row⟩] condition == .true).map fun row =>
      a.items.flatMap (ArmItem.values db [⟨name, T.columns, row⟩]) := by
  have each : combinations [(name, T)] = T.rows.map fun row => [⟨name, T.columns, row⟩] := List.map_eq_flatMap.symm
  rw [rows, h, Option.getD_some, each, List.filter_map, List.map_map]
  rfl

/-- The rows of a selection from two tables: for each row of the first, those of the second that go with it. -/
theorem rows_of_two (h : a.ranges? tables = some [(name, T), (name', tree)]) :
    a.rows db tables = T.rows.flatMap fun row =>
      (tree.rows.filter fun up => a.conditions.all fun condition =>
        db.verdict [⟨name, T.columns, row⟩, ⟨name', tree.columns, up⟩] condition == .true).map fun up =>
      a.items.flatMap (ArmItem.values db [⟨name, T.columns, row⟩, ⟨name', tree.columns, up⟩]) := by
  have each (row : List Json) : (combinations [(name', tree)]).map (fun vars => ⟨name, T.columns, row⟩ :: vars)
      = tree.rows.map fun up => [⟨name, T.columns, row⟩, ⟨name', tree.columns, up⟩] := by
    have one : combinations [(name', tree)] = tree.rows.map fun up => [⟨name', tree.columns, up⟩] :=
      List.map_eq_flatMap.symm
    rw [one, List.map_map]
    rfl
  rw [rows, h, Option.getD_some, combinations]
  simp only [each, List.filter_flatMap, List.map_flatMap, List.filter_map, List.map_map]
  rfl

end Arm

namespace Resolver

/-! ## Roots and children -/

/-- A row that the walk starts with: one that meets its start condition, or, if it has none, one without a parent. -/
def IsRoot (r : Resolver) (w : TreeWalk) (parent : Bytes) (db : Database) (T : Relation) (row : List Json) : Prop :=
  match w.startWith with
  | none => (valueIn T.columns row parent).isNull = true
  | some start => ∃ c condition, r.baseColumn? start.field = some c
    ∧ start.op.apply (walkColumn r.dialect TreeWalk.rootName (bareSource c)) start.value r.dialect start.field
      = .ok condition
    ∧ condition.Keeps (db.atoms [⟨TreeWalk.rootName, T.columns, row⟩])

/-- A row whose parent key equals the other row's child key; nulls are equal to nothing. -/
def IsChild (r : Resolver) (parent child : Bytes) (db : Database) (T : Relation) (up row : List Json) : Prop :=
  db.collation.equals (walkTokens r.dialect TreeWalk.childName parent) (valueIn T.columns row parent)
    (valueIn T.columns up child) = .true

variable {r : Resolver} {w : TreeWalk} {parent child : Bytes} {roots scope statement : Fragment} {db : Database}
  {T : Relation} {row up : List Json} {k : ℕ}

theorem walkTokens_of_notMem {d : Dialect} {table column : Bytes} (plain : Ascii.dot ∉ table)
    (clear : Ascii.dot ∉ column) : walkTokens d table column = dottedTokens d.nameQuote [table, column] := by
  rw [walkTokens, Bytes.splitOn_append plain, Bytes.splitOn_of_notMem clear]

/-- A condition that is one atom says of rows what it keeps of them. -/
theorem verdict_of_isTest {f : Fragment} (h : f.IsTest True) {vars : List RangeVar} :
    db.verdict vars f.bound = .true ↔ f.Keeps (db.atoms vars) := by
  have atom : truth (db.atoms vars) f.bound = db.atoms vars f.bound := truth_atom (h.test.toIsAtom.fillAll f.params)
  have aligned : f.Aligned := h.spells.tight trivial
  rw [h.keeps_iff_bound, and_iff_right aligned, Database.verdict, atom]

theorem verdict_roots (found : r.rootCondition w parent = .ok roots) (clear : Ascii.dot ∉ parent) :
    db.verdict [⟨TreeWalk.rootName, T.columns, row⟩] roots.bound = .true ↔ r.IsRoot w parent db T row := by
  have plain : Ascii.dot ∉ TreeWalk.rootName := by decide
  unfold rootCondition at found
  unfold IsRoot
  cases start : w.startWith with
  | none =>
    rw [start] at found
    cases found
    have operand : (walkColumn r.dialect TreeWalk.rootName parent).IsOperand True := Fragment.isOperand_identifier _ _
    have column : (walkColumn r.dialect TreeWalk.rootName parent).Spells True _ := spells_walkColumn _ _ _
    have tokens : (walkColumn r.dialect TreeWalk.rootName parent).bound
        = dottedTokens r.dialect.nameQuote [TreeWalk.rootName, parent] := by
      rw [Fragment.bound, column.raw, walkTokens_of_notMem plain clear]
      exact fillAll_of_slotsOf_eq_zero (slotsOf_dotted _ _) _
    rw [Operator.bound_isNull operand (operand.spells.tight trivial), tokens, Database.verdict_isNull _ rfl,
      Truth.ofBool_eq_true]
    rfl
  | some condition =>
    rw [start] at found
    dsimp only at found ⊢
    split at found
    · next c column =>
      rw [verdict_of_isTest (Operator.isTest_apply (Fragment.isOperand_identifier _ _) found)]
      constructor
      · exact fun keeps => ⟨c, roots, column, found, keeps⟩
      · rintro ⟨c', f, column', applied, keeps⟩
        rw [column] at column'
        cases column'
        rw [found] at applied
        cases applied
        exact keeps
    · cases found

theorem verdict_link {columns : List Bytes} (clear : Ascii.dot ∉ parent) :
    db.verdict [⟨TreeWalk.childName, T.columns, row⟩, ⟨TreeWalk.treeName, columns, up⟩]
        (linkTokens r.dialect parent child)
      = db.collation.equals (walkTokens r.dialect TreeWalk.childName parent) (valueIn T.columns row parent)
        (valueIn columns up child) := by
  have plain : Ascii.dot ∉ TreeWalk.childName := by decide
  rw [linkTokens, walkTokens_of_notMem plain clear]
  exact Database.verdict_equal _ _ _ _

/-! ## What the arms give -/

/-- A row of the recursive table that comes of a path: the row in which the path ends, and then the path's depth. -/
def ComesOf (T : Relation) (k : ℕ) (row : List Json) (path : List ℕ) : Prop :=
  ∃ last extra, T.last? path = some last ∧ row = last ++ .int k :: extra

theorem exists_values_rootArm (db : Database) (d : Dialect) (base depth path child : Bytes) (condition : List Token)
    (columns : List Bytes) (row : List Json) : ∃ extra,
    (rootArm d base depth path child condition).items.flatMap (ArmItem.values db [⟨TreeWalk.rootName, columns, row⟩])
      = row ++ .int 0 :: extra := by
  cases path with
  | nil => exact ⟨[], rfl⟩
  | cons b path => exact ⟨[_], rfl⟩

theorem exists_values_nextArm (db : Database) (d : Dialect) (base depth path child parent : Bytes) (limit : ℤ)
    {vars : List RangeVar} {columns : List Bytes} {row : List Json}
    (h : columnValue (⟨TreeWalk.childName, columns, row⟩ :: vars) TreeWalk.treeName depth = .int k) : ∃ extra,
    (nextArm d base depth path child parent limit).items.flatMap
        (ArmItem.values db (⟨TreeWalk.childName, columns, row⟩ :: vars))
      = row ++ .int (k + 1 : ℕ) :: extra := by
  have one : Numeral.integer? "1" = some 1 := rfl
  have deeper : db.eval (⟨TreeWalk.childName, columns, row⟩ :: vars) (inTreeTokens d depth ++ [.sign "+", .word "1"])
      = .int (k + 1 : ℕ) := Database.eval_plus h one
  cases path with
  | nil =>
    refine ⟨[], ?_⟩
    rw [← deeper]
    rfl
  | cons b path =>
    refine ⟨[db.eval (⟨TreeWalk.childName, columns, row⟩ :: vars) (nextPathValue d (b :: path) child)], ?_⟩
    rw [← deeper]
    rfl

/-! ## Level by level -/

section Levels

variable {tables : Tables} (found : r.rootCondition w parent = .ok roots) (base : tables r.table.base = some T)
  (fits : r.FitsWalk w parent child T) (clear : r.WellNamed w parent child)

include found base clear in
/-- The first level has a row for each root. -/
theorem forall₂_first : List.Forall₂ (ComesOf T 0) ((r.recursion w parent child roots scope).seed.rows db tables)
    (pathsOf T (r.IsRoot w parent db T) (r.IsChild parent child db T) 0) := by
  rw [recursion, Arm.rows_of_one (ranges?_rootArm base), pathsOf]
  refine List.rel_map (R := fun row i => T.rows[i]? = some row) (fun row i place => ?_)
    (List.rel_filter (fun row i place => ?_) (forall₂_places T))
  · obtain ⟨extra, values⟩ := exists_values_rootArm db r.dialect r.table.base w.depthName w.pathName child
      roots.bound T.columns row
    exact ⟨row, extra, place, values⟩
  · have condition : (((rootArm r.dialect r.table.base w.depthName w.pathName child roots.bound).conditions.all fun c =>
        db.verdict [⟨TreeWalk.rootName, T.columns, row⟩] c == .true) = true) ↔ r.IsRoot w parent db T row := by
      change (db.verdict _ roots.bound == .true && true) = true ↔ _
      rw [Bool.and_true, beq_iff_eq, verdict_roots found clear.parent]
    simp only [condition, decide_eq_true_eq]
    constructor
    · exact fun starts => ⟨row, place, starts⟩
    · rintro ⟨row', place', starts⟩
      rw [place] at place'
      cases place'
      exact starts

theorem length_of_last? {path : List ℕ} {last : List Json} (fits : r.FitsWalk w parent child T)
    (h : T.last? path = some last) : T.columns.length = last.length := by
  obtain ⟨i, -, place⟩ := Option.bind_eq_some_iff.mp h
  exact fits.full last (List.mem_of_getElem? place)

theorem depth_of_comesOf {path : List ℕ} (fits : r.FitsWalk w parent child T) (h : ComesOf T k row path) :
    valueIn (treeColumns w T.columns) row w.depthName = .int k := by
  obtain ⟨last, extra, ends, rfl⟩ := h
  exact valueIn_next (length_of_last? fits ends) fits.depth _

include fits in
/-- A row of the base table goes with a row of the recursive table if it is a child of its base row, and that is not at
the greatest depth. -/
theorem conditions_nextArm (db : Database) {path : List ℕ} {last : List Json} (clear : Ascii.dot ∉ parent)
    (ends : T.last? path = some last) (limit : ℤ) (k : ℕ) (row extra : List Json) :
    ((nextArm r.dialect r.table.base w.depthName w.pathName child parent limit).conditions.all fun c =>
        db.verdict [⟨TreeWalk.childName, T.columns, row⟩,
          ⟨TreeWalk.treeName, treeColumns w T.columns, last ++ .int k :: extra⟩] c == .true) = true
      ↔ r.IsChild parent child db T last row ∧ k < limit := by
  have deep : db.verdict [⟨TreeWalk.childName, T.columns, row⟩,
      ⟨TreeWalk.treeName, treeColumns w T.columns, last ++ .int k :: extra⟩]
        (inTreeTokens r.dialect w.depthName ++ [.sign "<", .slot (some (.int limit))])
      = .ofBool (decide (k < limit)) :=
    Database.verdict_below (depth_of_comesOf fits ⟨last, extra, ends, rfl⟩)
  have key : valueIn (treeColumns w T.columns) (last ++ .int k :: extra) child = valueIn T.columns last child :=
    valueIn_append (length_of_last? fits ends) fits.child
  change (db.verdict _ (linkTokens r.dialect parent child) == .true
    && (db.verdict _ (inTreeTokens r.dialect w.depthName ++ _) == .true && true)) = true ↔ _
  rw [deep, verdict_link clear, key, Bool.and_true, Bool.and_eq_true, beq_iff_eq, beq_iff_eq, Truth.ofBool_eq_true,
    decide_eq_true_eq]
  rfl

include base clear in
/-- The next rows: each row of the base table with those rows that came last and that it goes with. -/
theorem next_recursion (columns : List Bytes) (rows : List (List Json)) :
    (r.recursion w parent child roots scope).next db tables columns rows
      = T.rows.flatMap fun row =>
        (rows.filter fun up =>
          (nextArm r.dialect r.table.base w.depthName w.pathName child parent w.maxDepth.toInt).conditions.all fun c =>
            db.verdict [⟨TreeWalk.childName, T.columns, row⟩, ⟨TreeWalk.treeName, columns, up⟩] c == .true).map
          fun up =>
        (nextArm r.dialect r.table.base w.depthName w.pathName child parent w.maxDepth.toInt).items.flatMap
          (ArmItem.values db [⟨TreeWalk.childName, T.columns, row⟩, ⟨TreeWalk.treeName, columns, up⟩]) :=
  Arm.rows_of_two (ranges?_nextArm clear.base base)

include base fits clear in
/-- The next level has a row for each child of a row of the level before, above the greatest depth. -/
theorem forall₂_next {rows : List (List Json)} (deep : (k : ℤ) < w.maxDepth.toInt)
    (level : List.Forall₂ (ComesOf T k) rows (pathsOf T (r.IsRoot w parent db T) (r.IsChild parent child db T) k)) :
    List.Forall₂ (ComesOf T (k + 1))
      ((r.recursion w parent child roots scope).next db tables (treeColumns w T.columns) rows)
      (pathsOf T (r.IsRoot w parent db T) (r.IsChild parent child db T) (k + 1)) := by
  classical
  rw [next_recursion base clear, pathsOf]
  refine List.rel_flatMap (forall₂_places T) fun row i place =>
    List.rel_map (R := ComesOf T k) (fun up path comes => ?_) (List.rel_filter (fun up path comes => ?_) level)
  · have depth : columnValue [⟨TreeWalk.childName, T.columns, row⟩, ⟨TreeWalk.treeName, treeColumns w T.columns, up⟩]
        TreeWalk.treeName w.depthName = .int k := depth_of_comesOf fits comes
    obtain ⟨extra, values⟩ := exists_values_nextArm db r.dialect r.table.base w.depthName w.pathName child parent
      w.maxDepth.toInt depth
    exact ⟨row, extra, place, values⟩
  · obtain ⟨last, extra, ends, rfl⟩ := comes
    have goes := conditions_nextArm fits db clear.parent ends w.maxDepth.toInt k row extra
    refine goes.trans (Iff.trans ?_ decide_eq_true_iff.symm)
    rw [and_iff_left deep]
    constructor
    · exact fun below => ⟨last, ends, row, place, below⟩
    · rintro ⟨last', ends', row', place', below⟩
      rw [ends] at ends'
      rw [place] at place'
      cases ends'
      cases place'
      exact below

theorem exists_comesOf {rows : List (List Json)} {paths : List (List ℕ)} (level : List.Forall₂ (ComesOf T k) rows paths)
    (mem : row ∈ rows) : ∃ path, ComesOf T k row path := by
  obtain ⟨i, bound, rfl⟩ := List.getElem_of_mem mem
  exact ⟨_, level.get bound (level.length_eq ▸ bound)⟩

include base fits clear in
/-- No level follows the greatest depth. -/
theorem next_eq_nil {rows : List (List Json)} {paths : List (List ℕ)} (deep : ¬(k : ℤ) < w.maxDepth.toInt)
    (level : List.Forall₂ (ComesOf T k) rows paths) :
    (r.recursion w parent child roots scope).next db tables (treeColumns w T.columns) rows = [] := by
  rw [next_recursion base clear, List.flatMap_eq_nil_iff]
  intro row _
  rw [List.map_eq_nil_iff, List.filter_eq_nil_iff]
  intro up mem goes
  obtain ⟨path, last, extra, ends, rfl⟩ := exists_comesOf level mem
  exact deep ((conditions_nextArm fits db clear.parent ends w.maxDepth.toInt k row extra).mp goes).2

include base clear in
/-- No rows come of none. -/
theorem next_nil (columns : List Bytes) : (r.recursion w parent child roots scope).next db tables columns [] = [] := by
  rw [next_recursion base clear, List.flatMap_eq_nil_iff]
  exact fun row _ => rfl

include found base fits clear in
/-- Each level down to the greatest depth has a row for each path of as many steps. -/
theorem forall₂_level (reached : (k : ℤ) ≤ w.maxDepth.toInt) :
    List.Forall₂ (ComesOf T k)
      (((r.recursion w parent child roots scope).next db tables (treeColumns w T.columns))^[k]
        ((r.recursion w parent child roots scope).seed.rows db tables))
      (pathsOf T (r.IsRoot w parent db T) (r.IsChild parent child db T) k) := by
  induction k with
  | zero => exact forall₂_first found base clear
  | succ k ih =>
    rw [Function.iterate_succ_apply']
    exact forall₂_next base fits clear (by omega) (ih (by omega))

end Levels

/-! ## The whole table -/

/-- Whether a value is this integer. -/
def isDepth (k : ℕ) : Json → Bool
  | .int n => n == k
  | _ => false

/-- The rows of a recursive table are the paths from the roots: none is deeper than the limit, and the rows of each
depth down to it are, one for one, the paths of as many steps, each ending in the row of the base table it shows. -/
structure IsCensus (T : Relation) (root : List Json → Prop) (child : List Json → List Json → Prop) (depth : Bytes)
    (limit : ℤ) (tree : Relation) : Prop where
  bounded : ∀ row ∈ tree.rows, ∃ k : ℕ, k ≤ limit ∧ valueIn tree.columns row depth = .int k
  exact : ∀ k : ℕ, k ≤ limit → ∃ paths : List (List ℕ), paths.Nodup
    ∧ (∀ path, path ∈ paths ↔ Walks T root child path ∧ path.length = k + 1)
    ∧ List.Forall₂ (fun row path => T.last? path = some (row.take T.columns.length))
      (tree.rows.filter fun row => isDepth k (valueIn tree.columns row depth)) paths

/-- Of the levels one after the other, a test that one level meets and no other does leaves that level. -/
theorem filter_levels {α : Type} {level : ℕ → List α} {p : α → Bool} {n k : ℕ} (inside : k < n)
    (meets : ∀ a ∈ level k, p a = true) (others : ∀ j < n, j ≠ k → ∀ a ∈ level j, p a = false) :
    ((List.range n).flatMap level).filter p = level k := by
  induction n with
  | zero => exact absurd inside (Nat.not_lt_zero k)
  | succ n ih =>
    rw [List.range_succ, List.flatMap_append, List.filter_append, List.flatMap_singleton]
    obtain before | rfl := Nat.lt_succ_iff_lt_or_eq.mp inside
    · have last : (level n).filter p = [] :=
        List.filter_eq_nil_iff.mpr fun a mem => Bool.eq_false_iff.mp (others n (Nat.lt_succ_self n) (by omega) a mem)
      rw [ih before fun j bound => others j (Nat.lt_succ_of_lt bound), last, List.append_nil]
    · have first : ((List.range k).flatMap level).filter p = [] := by
        rw [List.filter_eq_nil_iff]
        intro a mem
        obtain ⟨j, bound, mem⟩ := List.mem_flatMap.mp mem
        rw [List.mem_range] at bound
        exact Bool.eq_false_iff.mp (others j (by omega) (by omega) a mem)
      rw [first, List.nil_append, List.filter_eq_self.mpr meets]

theorem isCensus_of_levels {root : List Json → Prop} {child' : List Json → List Json → Prop}
    (fits : r.FitsWalk w parent child T) {level : ℕ → List (List Json)} {limit : ℕ}
    (levels : ∀ k ≤ limit, List.Forall₂ (ComesOf T k) (level k) (pathsOf T root child' k)) :
    IsCensus T root child' w.depthName limit
      { columns := treeColumns w T.columns, rows := (List.range (limit + 1)).flatMap level } := by
  have depth (k : ℕ) (reached : k ≤ limit) (row : List Json) (mem : row ∈ level k) :
      valueIn (treeColumns w T.columns) row w.depthName = .int k := by
    obtain ⟨path, comes⟩ := exists_comesOf (levels k reached) mem
    exact depth_of_comesOf fits comes
  constructor
  · intro row mem
    obtain ⟨k, bound, mem⟩ := List.mem_flatMap.mp mem
    have reached : k ≤ limit := Nat.lt_succ_iff.mp (List.mem_range.mp bound)
    exact ⟨k, Int.ofNat_le.mpr reached, depth k reached row mem⟩
  · intro k reached
    have reached : k ≤ limit := Int.ofNat_le.mp reached
    refine ⟨pathsOf T root child' k, nodup_pathsOf k, fun path => mem_pathsOf, ?_⟩
    have same : ((List.range (limit + 1)).flatMap level).filter
        (fun row => isDepth k (valueIn (treeColumns w T.columns) row w.depthName)) = level k := by
      refine filter_levels (Nat.lt_succ_of_le reached) (fun row mem => ?_) fun j bound other row mem => ?_
      · rw [depth k reached row mem]
        exact beq_self_eq_true (k : ℤ)
      · rw [depth j (Nat.lt_succ_iff.mp bound) row mem]
        exact beq_eq_false_iff_ne.mpr fun same => other (Int.ofNat_inj.mp same)
    rw [same]
    refine (levels k reached).imp ?_
    rintro row path ⟨last, extra, ends, rfl⟩
    rw [List.take_left' (length_of_last? fits ends).symm, ends]

/-! ## The answer -/

theorem le_maxDepth_of_requireWalk (h : r.requireWalk = .ok w) : 0 ≤ w.maxDepth.toInt := by
  unfold requireWalk at h
  split at h
  · cases h
  · split_ifs at h with shallow
    obtain ⟨-, -, h⟩ := Checked.bind_eq_ok.mp h
    cases h
    rw [Int32.lt_iff_toInt_lt] at shallow
    have one : (1 : Int32).toInt = 1 := rfl
    omega

/-- The selection from the recursive table keeps the rows that the scope keeps. -/
theorem keeps_recursion (hs : scope.Reads True) (columns : List Bytes) (row : List Json) :
    (r.recursion w parent child roots scope).keeps db columns row
      = decide (scope.Keeps (db.atoms [⟨TreeWalk.treeName, columns, row⟩])) := by
  have aligned : scope.Aligned := hs.tight trivial
  rw [Bool.eq_iff_iff, decide_eq_true_iff, Fragment.Keeps, Fragment.truth?_eq hs.lexes, if_pos aligned, Option.some_inj,
    Recursion.keeps, recursion]
  cases empty : scope.isEmpty with
  | true => simp
  | false => simp [Database.verdict]

/-- A database answers the statement of a walk just if its names are clear, on every base table, whatever the parents
in it are. The recursive table then has no row deeper than the walk's greatest depth and, at each depth down to it, one
row for each path of as many steps from a root. The answer is those rows that the scope keeps. -/
theorem answers_walkStatement (hs : scope.Reads True) (h : r.walkStatement scope = .ok statement) :
    ∃ w parent child, r.requireWalk = .ok w ∧ r.keyColumn w.parentKey = .ok parent ∧ r.keyColumn w.childKey = .ok child
      ∧ ∀ (db : Database) (tables : Tables) (T : Relation), tables r.table.base = some T → r.FitsWalk w parent child T →
        ((∃ tree answer, statement.Answers db tables tree answer) ↔ r.WellNamed w parent child)
        ∧ ∀ tree answer, statement.Answers db tables tree answer →
          IsCensus T (r.IsRoot w parent db T) (r.IsChild parent child db T) w.depthName w.maxDepth.toInt tree
          ∧ answer.Perm (tree.rows.filter fun row =>
            scope.Keeps (db.atoms [⟨TreeWalk.treeName, tree.columns, row⟩])) := by
  obtain ⟨w, parent, child, roots, ts, walk, parentKey, childKey, found, tokens, read⟩ := read_walkStatement hs h
  refine ⟨w, parent, child, walk, parentKey, childKey, fun db tables T base fits => ?_⟩
  obtain ⟨limit, reach⟩ := Int.eq_ofNat_of_zero_le (le_maxDepth_of_requireWalk walk)
  let q := r.recursion w parent child roots scope
  let level (k : ℕ) := (q.next db tables (treeColumns w T.columns))^[k] (q.seed.rows db tables)
  have levels (clear : r.WellNamed w parent child) (k : ℕ) (reached : k ≤ limit) :
      List.Forall₂ (ComesOf T k) (level k) (pathsOf T (r.IsRoot w parent db T) (r.IsChild parent child db T) k) :=
    forall₂_level found base fits clear (by omega)
  have all (clear : r.WellNamed w parent child) {rows : List (List Json)} :
      Levels (q.next db tables (treeColumns w T.columns)) (q.seed.rows db tables) rows
        ↔ rows = (List.range (limit + 1)).flatMap level := by
    apply levels_iff (next_nil base clear _)
    rw [Function.iterate_succ_apply']
    exact next_eq_nil base fits clear (by omega) (levels clear limit le_rfl)
  constructor
  · constructor
    · rintro ⟨tree, answer, ts', q', tokens', read', taken, -, -⟩
      rw [tokens] at tokens'
      cases tokens'
      rw [read] at read'
      cases read'
      exact ((taken_iff found base fits).mp taken).1
    · intro clear
      exact ⟨⟨treeColumns w T.columns, _⟩, _, ts, q, tokens, read, (taken_iff found base fits).mpr ⟨clear, rfl⟩,
        (all clear).mpr rfl, rfl⟩
  · rintro ⟨columns, rows⟩ answer ⟨ts', q', tokens', read', taken, run, rfl⟩
    rw [tokens] at tokens'
    cases tokens'
    rw [read] at read'
    cases read'
    obtain ⟨clear, rfl⟩ := (taken_iff found base fits).mp taken
    obtain rfl := (all clear).mp run
    constructor
    · rw [reach]
      exact isCensus_of_levels fits (levels clear)
    · refine (db.sort_perm _ _).trans (List.Perm.of_eq ?_)
      exact List.filter_congr fun row _ => keeps_recursion hs _ row

/-- Categories that are walked from the first one, four steps deep. -/
def categories : Table where
  name := "categories"
  base := "categories"
  columns := [{ name := "id", type := .number }, { name := "parentId", field := "parent_id", type := .number }]
  walk := some {
    parentKey := "parentId"
    childKey := "id"
    maxDepth := 4
    startWith := some { field := "id", value := .int 1 }
    pathName := "path" }

/-- Three categories, each the parent of the next one and the last the parent of the first. -/
def ring : Relation where
  columns := ["id", "parent_id"]
  rows := [[.int 1, .int 3], [.int 2, .int 1], [.int 3, .int 2]]

/-- A database with these categories only. -/
def onlyRing : Tables := fun name => if name = "categories" then some ring else none

/-- A database that compares numbers, and leaves rows in the order they come. -/
def unsorted : Database where
  collation := Keyset.byNumber
  below_int := fun _ _ _ => rfl
  value := fun _ _ => .null
  other := fun _ _ => .unknown
  sort := fun _ table => table.rows
  sort_perm := fun _ table => List.Perm.refl table.rows

/-- Round the ring, the walk ends after four steps. -/
theorem answers_walkStatement_ring :
    ∃ r statement, Resolver.ofTableAs TreeWalk.treeName categories .sqlite = .ok r
      ∧ r.walkStatement .empty = .ok statement
      ∧ ∃ tree answer, statement.Answers unsorted onlyRing tree answer
        ∧ ∀ row ∈ tree.rows, ∃ k : ℕ, (k : ℤ) ≤ 4 ∧ valueIn tree.columns row "depth" = .int k := by
  suffices all : ∀ r statement, Resolver.ofTableAs TreeWalk.treeName categories .sqlite = .ok r →
      r.walkStatement .empty = .ok statement →
      ∃ tree answer, statement.Answers unsorted onlyRing tree answer
        ∧ ∀ row ∈ tree.rows, ∃ k : ℕ, (k : ℤ) ≤ 4 ∧ valueIn tree.columns row "depth" = .int k from
    ⟨_, _, rfl, rfl, all _ _ rfl rfl⟩
  intro r statement made h
  obtain ⟨w, parent, child, walk, parentKey, childKey, answers⟩ := answers_walkStatement Fragment.reads_empty h
  cases made
  cases walk
  cases parentKey
  cases childKey
  obtain ⟨taken, census⟩ := answers unsorted onlyRing ring rfl
    { distinct := by decide
      full := by decide
      parent := by decide
      child := by decide
      start := by
        rintro _ c ⟨⟩ found
        cases found
        decide
      depth := by decide
      path := by decide }
  obtain ⟨tree, answer, answered⟩ := taken.mpr
    { base := by decide
      parent := by decide
      start := by
        rintro _ c ⟨⟩ - found
        cases found
        decide
      path := by decide }
  exact ⟨tree, answer, answered, (census tree answer answered).1.bounded⟩

end Resolver

end TableQuery
