import TableQuery.Proofs.Statement.Recursion

/-!
# Which walks a database takes

A database takes the statement of a walk if every name in it is that of one column, and the recursive table is not read
before it is begun. A base table called as the recursive table is read as that table instead. A column with a dot in its
name is written as a dotted name after the tables of the walk, but as one name after the recursive table.

## What is proved

`Resolver.taken_iff`: on a base table that has the walk's columns, a database takes the statement just if the base table
has another name than the recursive table, no dot cuts a column's name where it is written, and the columns that the
walk adds have different names (`Resolver.WellNamed`).
-/

namespace TableQuery

namespace Resolver

section Names

variable {d : Dialect} {table column : Bytes} {ts : List Token}

theorem namesIn_inTree (ends : goesOn ts = false) :
    namesIn (inTreeTokens d column ++ ts) = [TreeWalk.treeName, column] :: namesIn ts :=
  namesIn_dotted d.nameQuote_ne_quote _ _ ends

theorem namesIn_walkTokens (plain : Ascii.dot ∉ table) (ends : goesOn ts = false) :
    namesIn (walkTokens d table column ++ ts) = (table :: Bytes.splitOn Ascii.dot column) :: namesIn ts := by
  rw [walkTokens, Bytes.splitOn_append plain]
  exact namesIn_dotted d.nameQuote_ne_quote _ _ ends

theorem namesIn_castTokens (plain : Ascii.dot ∉ table) :
    namesIn (castTokens d (walkTokens d table column)) = [table :: Bytes.splitOn Ascii.dot column] := by
  have inside : namesIn (walkTokens d table column ++ [.word "AS", .word d.textType])
      = [table :: Bytes.splitOn Ascii.dot column] := namesIn_walkTokens plain rfl
  change namesIn (walkTokens d table column ++ [.word "AS", .word d.textType]) ++ [] = _
  rw [inside, List.append_nil]

theorem namesIn_linkTokens (parent child : Bytes) :
    namesIn (linkTokens d parent child)
      = [TreeWalk.childName :: Bytes.splitOn Ascii.dot parent, [TreeWalk.treeName, child]] := by
  have plain : Ascii.dot ∉ TreeWalk.childName := by decide
  have known : namesIn (inTreeTokens d child ++ []) = [[TreeWalk.treeName, child]] := namesIn_inTree rfl
  rw [linkTokens, namesIn_walkTokens plain rfl]
  exact congrArg (_ :: ·) known

theorem namesIn_nextPathValue (path child : Bytes) :
    namesIn (nextPathValue d path child)
      = [[TreeWalk.treeName, path], TreeWalk.childName :: Bytes.splitOn Ascii.dot child] := by
  have plain : Ascii.dot ∉ TreeWalk.childName := by decide
  rw [nextPathValue, List.append_assoc, namesIn_inTree rfl]
  exact congrArg (_ :: ·) (namesIn_castTokens plain)

end Names

/-! ## What a database takes -/

/-- The column of the path, if there is one. -/
def pathColumns (path : Bytes) : List Bytes := if !path.isEmpty then [path] else []

/-- The columns of the recursive table: those of the base table and what the walk adds. -/
def treeColumns (w : TreeWalk) (columns : List Bytes) : List Bytes := columns ++ w.depthName :: pathColumns w.pathName

variable {tables : Tables} {T tree : Relation} {d : Dialect} {base depth path child parent : Bytes}
  {condition : List Token} {limit : ℤ}

theorem ranges?_rootArm (found : tables base = some T) :
    (rootArm d base depth path child condition).ranges? tables = some [(TreeWalk.rootName, T)] := by
  change (((tables base).map _).bind fun a => some [a]) = _
  rw [found]
  rfl

theorem ranges?_nextArm (other : base ≠ TreeWalk.treeName) (found : tables base = some T) :
    (nextArm d base depth path child parent limit).ranges? (Function.update tables TreeWalk.treeName (some tree))
      = some [(TreeWalk.childName, T), (TreeWalk.treeName, tree)] := by
  change (((Function.update tables TreeWalk.treeName (some tree) base).map _).bind fun a =>
    ((Function.update tables TreeWalk.treeName (some tree) TreeWalk.treeName).map _).bind fun b => some [a, b]) = _
  rw [Function.update_of_ne other, found, Function.update_self]
  rfl

/-- The first arm is taken if its condition names columns of the base table, and no dot cuts the path's column. -/
theorem columns?_rootArm {names : List (Option Bytes)} (found : tables base = some T)
    (key : T.columns.count child = 1) :
    (rootArm d base depth path child condition).columns? tables = some names
      ↔ ((namesIn condition).all (knows [(TreeWalk.rootName, T.columns)]) = true ∧ (path ≠ [] → Ascii.dot ∉ child))
        ∧ (T.columns ++ depth :: pathColumns path).map some = names := by
  have plain : Ascii.dot ∉ TreeWalk.rootName := by decide
  have fresh : TreeWalk.rootName ∉ ([] : List (Bytes × List Bytes)).map Prod.fst := List.not_mem_nil
  have cast : knows [(TreeWalk.rootName, T.columns)] (TreeWalk.rootName :: Bytes.splitOn Ascii.dot child) = true
      ↔ Ascii.dot ∉ child := by
    rw [knows_splitOn, knows_cons_self fresh, and_iff_left key]
  have conditions : ((rootArm d base depth path child condition).conditions.all fun c =>
      (namesIn c).all (knows [(TreeWalk.rootName, T.columns)]))
        = (namesIn condition).all (knows [(TreeWalk.rootName, T.columns)]) := Bool.and_true _
  have once : ([TreeWalk.rootName] : List Bytes).Nodup := List.nodup_singleton _
  have items : (rootArm d base depth path child condition).items.all
      (ArmItem.isKnown [(TreeWalk.rootName, T.columns)]) = true ↔ (path ≠ [] → Ascii.dot ∉ child) := by
    cases path with
    | nil => exact iff_of_true rfl (absurd rfl)
    | cons b path =>
      rw [forall_prop_of_true (List.cons_ne_nil b path), ← cast]
      change ((namesIn (castTokens d (walkTokens d TreeWalk.rootName child))).all
        (knows [(TreeWalk.rootName, T.columns)]) && true) = true ↔ _
      rw [namesIn_castTokens plain, List.all_cons, List.all_nil, Bool.and_true, Bool.and_true]
  have outputs : (rootArm d base depth path child condition).items.flatMap
      (ArmItem.columns [(TreeWalk.rootName, T.columns)]) = (T.columns ++ depth :: pathColumns path).map some := by
    rw [List.map_append]
    cases path <;> rfl
  have shape : [(TreeWalk.rootName, T)].map (Prod.map id Relation.columns) = [(TreeWalk.rootName, T.columns)] := rfl
  rw [Arm.columns?_eq_some (ranges?_rootArm found) shape, ← conditions, items, outputs]
  exact and_congr_left fun _ => and_iff_right once

/-- The tables that the second arm ranges over, and their columns. -/
def nextShape (columns treeColumns : List Bytes) : List (Bytes × List Bytes) :=
  [(TreeWalk.childName, columns), (TreeWalk.treeName, treeColumns)]

section NextArm

variable {columns more : List Bytes} {column : Bytes}

theorem knows_inBase (key : columns.count column = 1) (more : List Bytes) :
    knows (nextShape columns more) (TreeWalk.childName :: Bytes.splitOn Ascii.dot column) = true
      ↔ Ascii.dot ∉ column := by
  have apart : TreeWalk.childName ≠ TreeWalk.treeName := by decide
  have fresh : TreeWalk.childName ∉ [(TreeWalk.treeName, more)].map Prod.fst := by
    rw [List.map_singleton, List.mem_singleton]
    exact apart
  rw [nextShape, knows_splitOn, knows_cons_self fresh, and_iff_left key]

theorem knows_inTree (columns more : List Bytes) (column : Bytes) :
    knows (nextShape columns more) [TreeWalk.treeName, column] = true ↔ more.count column = 1 := by
  have apart : TreeWalk.childName ≠ TreeWalk.treeName := by decide
  have fresh : TreeWalk.treeName ∉ ([] : List (Bytes × List Bytes)).map Prod.fst := List.not_mem_nil
  rw [nextShape, knows_cons_of_ne apart, knows_cons_self fresh]

/-- The link names the parent key in the base table and the child key in the recursive table, the bound the depth. -/
theorem knows_conditions_nextArm (key : columns.count parent = 1) :
    ((nextArm d base depth path child parent limit).conditions.all fun c =>
        (namesIn c).all (knows (nextShape columns more))) = true
      ↔ (Ascii.dot ∉ parent ∧ more.count child = 1) ∧ more.count depth = 1 := by
  rw [← knows_inBase key more, ← knows_inTree columns more child, ← knows_inTree columns more depth]
  change ((namesIn (linkTokens d parent child)).all _ && ((namesIn (inTreeTokens d depth ++ _)).all _ && true)) = true
    ↔ _
  rw [namesIn_linkTokens, namesIn_inTree rfl, Bool.and_true, Bool.and_eq_true]
  change (_ && (_ && true)) = true ∧ (_ && true) = true ↔ _
  rw [Bool.and_true, Bool.and_true, Bool.and_eq_true]

/-- The items name the depth, and if there is a path, that of the parent and the child key of the base table. -/
theorem knows_items_nextArm (key : columns.count child = 1) :
    (nextArm d base depth path child parent limit).items.all (ArmItem.isKnown (nextShape columns more)) = true
      ↔ more.count depth = 1 ∧ (path ≠ [] → more.count path = 1 ∧ Ascii.dot ∉ child) := by
  rw [← knows_inTree columns more depth, ← knows_inTree columns more path, ← knows_inBase key more]
  cases path with
  | nil =>
    rw [and_iff_left (absurd rfl)]
    change ((namesIn (inTreeTokens d depth ++ _)).all _ && true) = true ↔ _
    rw [namesIn_inTree rfl, Bool.and_true]
    change (_ && true) = true ↔ _
    rw [Bool.and_true]
  | cons b path =>
    rw [forall_prop_of_true (List.cons_ne_nil b path)]
    change ((namesIn (inTreeTokens d depth ++ _)).all _
      && ((namesIn (nextPathValue d (b :: path) child)).all _ && true)) = true ↔ _
    rw [namesIn_inTree rfl, namesIn_nextPathValue, Bool.and_true, Bool.and_eq_true]
    change (_ && true) = true ∧ (_ && (_ && true)) = true ↔ _
    rw [Bool.and_true, Bool.and_true, Bool.and_eq_true]

/-- The second arm has the columns of the base table and then columns without a name. -/
theorem columns_items_nextArm :
    (nextArm d base depth path child parent limit).items.flatMap (ArmItem.columns (nextShape columns more))
      = columns.map some ++ none :: (pathColumns path).map (fun _ => none) := by
  cases path with
  | nil => rfl
  | cons b path => rfl

/-- The second arm is taken if its names are those of one column each, and no dot cuts them. -/
theorem columns?_nextArm {names : List (Option Bytes)} (other : base ≠ TreeWalk.treeName)
    (found : tables base = some T) (key : T.columns.count parent = 1) (key' : T.columns.count child = 1) :
    (nextArm d base depth path child parent limit).columns? (Function.update tables TreeWalk.treeName (some tree))
        = some names
      ↔ (Ascii.dot ∉ parent ∧ tree.columns.count child = 1 ∧ tree.columns.count depth = 1
          ∧ (path ≠ [] → tree.columns.count path = 1 ∧ Ascii.dot ∉ child))
        ∧ T.columns.map some ++ none :: (pathColumns path).map (fun _ => none) = names := by
  have once : ([TreeWalk.childName, TreeWalk.treeName] : List Bytes).Nodup := by decide
  have shape : [(TreeWalk.childName, T), (TreeWalk.treeName, tree)].map (Prod.map id Relation.columns)
      = nextShape T.columns tree.columns := rfl
  rw [Arm.columns?_eq_some (ranges?_nextArm other found) shape, knows_conditions_nextArm key,
    knows_items_nextArm key', columns_items_nextArm]
  refine and_congr_left fun _ => ?_
  constructor
  · rintro ⟨-, ⟨⟨hparent, hchild⟩, hdepth⟩, -, hpath⟩
    exact ⟨hparent, hchild, hdepth, hpath⟩
  · rintro ⟨hparent, hchild, hdepth, hpath⟩
    exact ⟨once, ⟨⟨hparent, hchild⟩, hdepth⟩, hdepth, hpath⟩

end NextArm

/-- A base table for a walk: its columns have different names, each row has a value for each of them, the walk's columns
are among them, and none is called as the columns that the walk adds. -/
structure FitsWalk (r : Resolver) (w : TreeWalk) (parent child : Bytes) (T : Relation) : Prop where
  distinct : T.columns.Nodup
  full : ∀ row ∈ T.rows, T.columns.length = row.length
  parent : parent ∈ T.columns
  child : child ∈ T.columns
  start : ∀ start c, w.startWith = some start → r.baseColumn? start.field = some c → bareSource c ∈ T.columns
  depth : w.depthName ∉ T.columns
  path : w.pathName ≠ [] → w.pathName ∉ T.columns

/-- The names in the statement are clear: the base table is not called as the recursive table is, no column that the
statement names after a table of the walk has a dot, and the two columns that the walk adds have different names. The
walk's start names a column unless an empty list decides it, and its child key is named only in a path. -/
structure WellNamed (r : Resolver) (w : TreeWalk) (parent child : Bytes) : Prop where
  base : r.table.base ≠ TreeWalk.treeName
  parent : Ascii.dot ∉ parent
  start : ∀ start c, w.startWith = some start → start.op.isOutright start.value = false →
    r.baseColumn? start.field = some c → Ascii.dot ∉ bareSource c
  path : w.pathName ≠ [] → Ascii.dot ∉ child ∧ w.pathName ≠ w.depthName

section Taken

variable {r : Resolver} {w : TreeWalk} {parent child : Bytes} {roots scope : Fragment} {T : Relation} {tables : Tables}
  {columns : List Bytes}

theorem knows_rootNames (fits : r.FitsWalk w parent child T) (found : r.rootCondition w parent = .ok roots) :
    (namesIn roots.bound).all (knows [(TreeWalk.rootName, T.columns)]) = true
      ↔ (w.startWith = none → Ascii.dot ∉ parent) ∧ ∀ start c, w.startWith = some start →
        start.op.isOutright start.value = false → r.baseColumn? start.field = some c → Ascii.dot ∉ bareSource c := by
  have fresh : TreeWalk.rootName ∉ ([] : List (Bytes × List Bytes)).map Prod.fst := List.not_mem_nil
  have known (column : Bytes) (mem : column ∈ T.columns) :
      [TreeWalk.rootName :: Bytes.splitOn Ascii.dot column].all (knows [(TreeWalk.rootName, T.columns)]) = true
        ↔ Ascii.dot ∉ column := by
    rw [List.all_cons, List.all_nil, Bool.and_true, knows_splitOn, knows_cons_self fresh,
      and_iff_left (List.count_eq_one_of_mem fits.distinct mem)]
  rw [(names_of_rootCondition found).2, rootNames]
  cases start : w.startWith with
  | none =>
    dsimp only
    rw [known parent fits.parent]
    simp
  | some condition =>
    dsimp only
    rw [and_iff_right nofun]
    constructor
    · rintro known' start' c ⟨⟩ asks found'
      rw [if_neg (Bool.eq_false_iff.mp asks), found', Option.toList_some, List.map_singleton,
        known _ (fits.start _ c start found')] at known'
      exact known'
    · intro clear
      cases outright : condition.op.isOutright condition.value with
      | true => rfl
      | false =>
        rw [if_neg Bool.false_ne_true]
        cases found' : r.baseColumn? condition.field with
        | none => rfl
        | some c =>
          rw [Option.toList_some, List.map_singleton, known _ (fits.start _ c start found')]
          exact clear condition c rfl outright found'

theorem count_treeColumns (w : TreeWalk) (columns : List Bytes) (column : Bytes) :
    (treeColumns w columns).count column
      = columns.count column + ((pathColumns w.pathName).count column + if w.depthName = column then 1 else 0) := by
  rw [treeColumns, List.count_append, List.count_cons]
  simp only [beq_iff_eq]

/-- The depth is the name of one column just if the path has another name. -/
theorem count_depth (fits : r.FitsWalk w parent child T) :
    (treeColumns w T.columns).count w.depthName = 1 ↔ (w.pathName ≠ [] → w.pathName ≠ w.depthName) := by
  rw [count_treeColumns, List.count_eq_zero_of_not_mem fits.depth, if_pos rfl, pathColumns]
  cases path : w.pathName with
  | nil => exact iff_of_true rfl (absurd rfl)
  | cons b more => simp [List.count_cons, List.count_nil]

theorem count_child (fits : r.FitsWalk w parent child T) : (treeColumns w T.columns).count child = 1 := by
  have depth : w.depthName ≠ child := fun same => fits.depth (same ▸ fits.child)
  have path : (pathColumns w.pathName).count child = 0 := by
    rw [pathColumns]
    split_ifs with some
    · have filled : w.pathName ≠ [] := by simpa using some
      rw [List.count_eq_zero, List.mem_singleton]
      exact fun same => fits.path filled (same ▸ fits.child)
    · rfl
  rw [count_treeColumns, List.count_eq_one_of_mem fits.distinct fits.child, if_neg depth, path]

theorem count_path (fits : r.FitsWalk w parent child T) (filled : w.pathName ≠ []) (other : w.pathName ≠ w.depthName) :
    (treeColumns w T.columns).count w.pathName = 1 := by
  have some : pathColumns w.pathName = [w.pathName] := if_pos (by simpa using filled)
  rw [count_treeColumns, List.count_eq_zero_of_not_mem (fits.path filled), if_neg other.symm, some,
    List.count_singleton_self]

/-- Which walks a database takes, whatever the dialect, the scope and the rows of the base table are. -/
theorem taken_iff (found : r.rootCondition w parent = .ok roots) (base : tables r.table.base = some T)
    (fits : r.FitsWalk w parent child T) :
    (r.recursion w parent child roots scope).Taken tables columns
      ↔ r.WellNamed w parent child ∧ columns = treeColumns w T.columns := by
  have known := knows_rootNames fits found
  have parentKey := List.count_eq_one_of_mem fits.distinct fits.parent
  have childKey := List.count_eq_one_of_mem fits.distinct fits.child
  constructor
  · intro taken
    have other : r.table.base ≠ TreeWalk.treeName := fun same => taken.fresh (List.mem_singleton.mpr same.symm)
    obtain ⟨⟨conditions, path⟩, names⟩ := (columns?_rootArm base childKey).mp taken.seed
    obtain ⟨more, step, -⟩ := taken.step
    obtain ⟨⟨hparent, -, hdepth, -⟩, -⟩ := (columns?_nextArm other base parentKey childKey).mp step
    obtain rfl : treeColumns w T.columns = columns := List.map_injective_iff.mpr (Option.some_injective _) names
    exact ⟨⟨other, hparent, (known.mp conditions).2, fun some => ⟨path some, (count_depth fits).mp hdepth some⟩⟩, rfl⟩
  · rintro ⟨clear, rfl⟩
    have depthKey := (count_depth fits).mpr fun some => (clear.path some).2
    have inTree (column : Bytes) (key : (treeColumns w T.columns).count column = 1) :
        (namesIn (inTreeTokens r.dialect column)).all (knows [(TreeWalk.treeName, treeColumns w T.columns)])
          = true := by
      have name : namesIn (inTreeTokens r.dialect column ++ []) = [[TreeWalk.treeName, column]] := namesIn_inTree rfl
      rw [List.append_nil] at name
      rw [name, List.all_cons, List.all_nil, Bool.and_true, knows_cons_self List.not_mem_nil, key]
    refine ⟨?_, ?_, ?_, ?_, ?_⟩
    · exact fun same => clear.base (List.mem_singleton.mp same).symm
    · change [r.table.base, TreeWalk.treeName].count TreeWalk.treeName = 1
      rw [List.count_cons_of_ne clear.base, List.count_singleton_self]
    · exact (columns?_rootArm base childKey).mpr
        ⟨⟨known.mpr ⟨fun _ => clear.parent, clear.start⟩, fun some => (clear.path some).1⟩, rfl⟩
    · refine ⟨_, (columns?_nextArm clear.base base parentKey childKey).mpr
        ⟨⟨clear.parent, count_child fits, depthKey, fun some => ⟨count_path fits some (clear.path some).2,
          (clear.path some).1⟩⟩, rfl⟩, ?_⟩
      simp [treeColumns]
    · intro key mem
      obtain rfl | mem := List.mem_cons.mp mem
      · exact inTree _ depthKey
      · rw [List.mem_singleton.mp mem]
        exact inTree _ (count_child fits)

end Taken

end Resolver

end TableQuery
