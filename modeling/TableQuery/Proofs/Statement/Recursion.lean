import TableQuery.Proofs.Sql.Recursion
import TableQuery.Proofs.Statement.Tree

/-!
# The recursive table of a walk

What a database reads when it takes the statement of a walk: a table of two arms, of which the first selects the roots
and the second the children of the rows that came last, and a selection from it (`Resolver.recursion`).

## What is proved

`Resolver.read_walkStatement`: the statement reads so, whatever the description, the dialect and the scope are.

`Resolver.names_of_rootCondition`: the condition of the roots names one column of the base table, and no other.
-/

namespace TableQuery

theorem Dialect.nameQuote_ne_quote (d : Dialect) : d.nameQuote ≠ Ascii.quote := by cases d <;> decide

/-! ## Values without placeholders -/

mutual

theorem Token.fill_of_slots_eq_zero {t : Token} (h : t.slots = 0) (values : List Json) : t.fill values = t := by
  cases t with
  | slot v => cases h
  | group content => exact congrArg Token.group (fillAll_of_slotsOf_eq_zero h values)
  | _ => rfl

/-- Tokens without placeholders take no values. -/
theorem fillAll_of_slotsOf_eq_zero {ts : List Token} (h : slotsOf ts = 0) (values : List Json) :
    fillAll values ts = ts := by
  cases ts with
  | nil => rfl
  | cons t rest =>
    rw [slotsOf, Nat.add_eq_zero_iff] at h
    rw [fillAll, Token.fill_of_slots_eq_zero h.1, fillAll_of_slotsOf_eq_zero h.2]

end

namespace Resolver

variable {r : Resolver} {w : TreeWalk} {parent child : Bytes} {roots scope statement : Fragment}

/-! ## The arms -/

/-- The selection of the roots. -/
def rootArm (d : Dialect) (base depth path child : Bytes) (condition : List Token) : Arm where
  items := .all TreeWalk.rootName :: .expression [.word "0"] (some depth)
    :: if !path.isEmpty then [.expression (castTokens d (walkTokens d TreeWalk.rootName child)) (some path)] else []
  sources := [(TreeWalk.rootName, base)]
  conditions := [condition]

/-- The path of a child. -/
def nextPathValue (d : Dialect) (path child : Bytes) : List Token :=
  inTreeTokens d path ++ [.sign "||", .quoted Ascii.quote "/", .sign "||"]
    ++ castTokens d (walkTokens d TreeWalk.childName child)

/-- The selection of the children of the rows that came last. -/
def nextArm (d : Dialect) (base depth path child parent : Bytes) (limit : ℤ) : Arm where
  items := .all TreeWalk.childName :: .expression (inTreeTokens d depth ++ [.sign "+", .word "1"]) none
    :: if !path.isEmpty then [.expression (nextPathValue d path child) none] else []
  sources := [(TreeWalk.childName, base), (TreeWalk.treeName, TreeWalk.treeName)]
  conditions := [linkTokens d parent child, inTreeTokens d depth ++ [.sign "<", .slot (some (.int limit))]]

/-- The recursive table of a walk and the selection from it. -/
def recursion (r : Resolver) (w : TreeWalk) (parent child : Bytes) (roots scope : Fragment) : Recursion where
  name := TreeWalk.treeName
  seed := rootArm r.dialect r.table.base w.depthName w.pathName child roots.bound
  step := nextArm r.dialect r.table.base w.depthName w.pathName child parent w.maxDepth.toInt
  condition := if scope.isEmpty then none else some scope.bound
  keys := [inTreeTokens r.dialect w.depthName, inTreeTokens r.dialect child]

/-! ## Reading the arms -/

theorem read_arm {items tables condition : List Token} {sources : List (Bytes × Bytes)} {on : List (List Token)}
    (hitems : items.all (fun t => !t.isWord "FROM") = true) (htables : tables.all (fun t => !t.isWhere) = true)
    (h : readSources tables = some (sources, on)) :
    Arm.read (.word "SELECT" :: (items ++ .word "FROM" :: (tables ++ .keyword .whereClause :: condition)))
      = some {
        items := (items.splitOnP Token.isComma).map ArmItem.read
        sources
        conditions := on ++ [condition] } := by
  have select : (Token.word "SELECT").isWord "SELECT" = true := rfl
  rw [Arm.read, if_pos select, cutAt_append hitems rfl, Option.bind_some]
  dsimp only
  rw [cutAt_append htables rfl, Option.bind_some]
  dsimp only
  rw [h]
  rfl

theorem read_rootArm (d : Dialect) (base depth path child : Bytes) (condition : List Token) :
    Arm.read (rootArmTokens d base depth path child condition) = some (rootArm d base depth path child condition) := by
  have items : (rootTokens d depth path child).all (fun t => !t.isWord "FROM") = true := by
    unfold rootTokens rootPathTokens
    split_ifs <;> rfl
  have split : ((rootTokens d depth path child).splitOnP Token.isComma).map ArmItem.read
      = (rootArm d base depth path child condition).items := by
    unfold rootTokens rootPathTokens rootArm
    split_ifs <;> rfl
  rw [rootArmTokens, read_arm items rfl rfl, split]
  rfl

theorem not_isWhere_linkTokens (d : Dialect) (parent child : Bytes) :
    (linkTokens d parent child).all (fun t => !t.isWhere) = true := by
  have steady : (linkTokens d parent child).all Token.isSteady = true := by
    have key := isSteady_of_isOperand (isOperand_dotted d.nameQuote
      (Bytes.splitOn Ascii.dot (TreeWalk.childName ++ Ascii.dot :: parent)))
    rw [linkTokens, List.all_append, walkTokens, key]
    rfl
  rw [List.all_eq_true]
  intro t mem
  have key := (clauseless_steady steady t mem).1
  simpa [Token.isWhere] using key

theorem read_nextArm (d : Dialect) (base depth path child parent : Bytes) (limit : ℤ) :
    Arm.read (nextArmTokens d base depth path child parent ++ [.slot (some (.int limit))])
      = some (nextArm d base depth path child parent limit) := by
  have items : (nextTokens d depth path child).all (fun t => !t.isWord "FROM") = true := by
    unfold nextTokens nextPathTokens
    split_ifs <;> rfl
  have split : ((nextTokens d depth path child).splitOnP Token.isComma).map ArmItem.read
      = (nextArm d base depth path child parent limit).items := by
    unfold nextTokens nextPathTokens nextArm
    split_ifs <;> rfl
  have tables : (joinTokens d base ++ linkTokens d parent child).all (fun t => !t.isWhere) = true := by
    rw [List.all_append, not_isWhere_linkTokens]
    rfl
  have sources : readSources (joinTokens d base ++ linkTokens d parent child)
      = some ([(TreeWalk.childName, base), (TreeWalk.treeName, TreeWalk.treeName)], [linkTokens d parent child]) := rfl
  have shape : nextArmTokens d base depth path child parent ++ [.slot (some (.int limit))]
      = Token.word "SELECT" :: (nextTokens d depth path child ++ Token.word "FROM" ::
        (joinTokens d base ++ linkTokens d parent child ++ Token.keyword .whereClause ::
          (inTreeTokens d depth ++ [Token.sign "<", Token.slot (some (.int limit))]))) := by
    simp only [nextArmTokens, List.append_assoc, List.cons_append, List.nil_append]
  rw [shape, read_arm items tables sources, split]
  rfl

/-! ## The condition of the roots -/

/-- The column that the condition of the roots names; none if an empty list decides it. -/
def rootNames (r : Resolver) (w : TreeWalk) (parent : Bytes) : List (List Bytes) :=
  match w.startWith with
  | none => [TreeWalk.rootName :: Bytes.splitOn Ascii.dot parent]
  | some start =>
    if start.op.isOutright start.value then []
    else (r.baseColumn? start.field).toList.map fun c => TreeWalk.rootName :: Bytes.splitOn Ascii.dot (bareSource c)

/-- A condition on a column of the walk names the column and has no other word. -/
theorem names_of_spells {f : Fragment} {d : Dialect} {table column : Bytes} (plain : Ascii.dot ∉ table) {t : Token}
    {us : List Token} (spells : f.Spells True (walkTokens d table column ++ t :: us)) (ends : t.isOperand = false)
    (nameless : areNameless (t :: us) = true) :
    f.bound.all (fun t => !t.isWord "UNION") = true
      ∧ namesIn f.bound = [table :: Bytes.splitOn Ascii.dot column] := by
  have bound : f.bound = walkTokens d table column ++ fillAll f.params (t :: us) := by
    have slotless : slotsOf (walkTokens d table column) = 0 := slotsOf_dotted _ _
    rw [Fragment.bound, spells.raw, fillAll_append, slotless, List.drop_zero, fillAll_of_slotsOf_eq_zero slotless]
  have filled : areNameless (fillAll f.params (t :: us)) = true := (areNameless_fillAll _ _).trans nameless
  constructor
  · rw [bound, List.all_append, not_isWord_of_areNameless filled, Bool.and_true]
    exact not_isWord_dotted _ _ _
  · have stops : goesOn (fillAll f.params (t :: us)) = false := by
      rw [fillAll]
      exact goesOn_of_not_isOperand ((Token.isOperand_fill _ t).trans ends) _
    rw [bound, walkTokens, Bytes.splitOn_append plain, namesIn_dotted d.nameQuote_ne_quote _ _ stops,
      namesIn_of_areNameless filled]

theorem names_of_rootCondition (h : r.rootCondition w parent = .ok roots) :
    roots.bound.all (fun t => !t.isWord "UNION") = true ∧ namesIn roots.bound = r.rootNames w parent := by
  have plain : Ascii.dot ∉ TreeWalk.rootName := by decide
  unfold rootCondition at h
  unfold rootNames
  cases start : w.startWith with
  | none =>
    rw [start] at h
    cases h
    have operand : (walkColumn r.dialect TreeWalk.rootName parent).IsOperand True := Fragment.isOperand_identifier _ _
    have column : (walkColumn r.dialect TreeWalk.rootName parent).Spells True _ := spells_walkColumn _ _ _
    have spells := Operator.spells_isNull operand
    rw [column.raw] at spells
    exact names_of_spells plain spells rfl rfl
  | some condition =>
    rw [start] at h
    dsimp only at h ⊢
    split at h
    · next c found =>
      rw [found]
      have operand : (walkColumn r.dialect TreeWalk.rootName (bareSource c)).IsOperand True :=
        Fragment.isOperand_identifier _ _
      cases outright : condition.op.isOutright condition.value with
      | true =>
        obtain rfl | rfl := Operator.constant_of_isOutright h outright
        · exact ⟨rfl, rfl⟩
        · exact ⟨rfl, rfl⟩
      | false =>
        obtain ⟨t, us, spells, ends, nameless⟩ := Operator.spells_apply operand h outright
        have column : (walkColumn r.dialect TreeWalk.rootName (bareSource c)).Spells True _ := spells_walkColumn _ _ _
        rw [column.raw] at spells
        exact names_of_spells plain spells ends nameless
    · cases h

/-! ## Reading the statement -/

theorem slotsOf_rootTokens (d : Dialect) (depth path child : Bytes) : slotsOf (rootTokens d depth path child) = 0 := by
  have column : slotsOf (walkTokens d TreeWalk.rootName child) = 0 := slotsOf_dotted _ _
  unfold rootTokens rootPathTokens castTokens
  split_ifs
  · simp [slotsOf, Token.slots, slotsOf_append, column]
  · rfl

theorem slotsOf_nextTokens (d : Dialect) (depth path child : Bytes) : slotsOf (nextTokens d depth path child) = 0 := by
  have column : slotsOf (walkTokens d TreeWalk.childName child) = 0 := slotsOf_dotted _ _
  have inTree (name : Bytes) : slotsOf (inTreeTokens d name) = 0 := rfl
  unfold nextTokens nextPathTokens castTokens
  split_ifs
  · simp [slotsOf, Token.slots, slotsOf_append, column, inTree]
  · rfl

theorem slotsOf_linkTokens (d : Dialect) (parent child : Bytes) : slotsOf (linkTokens d parent child) = 0 := by
  have column : slotsOf (walkTokens d TreeWalk.childName parent) = 0 := slotsOf_dotted _ _
  rw [linkTokens, slotsOf_append, column]
  rfl

theorem slotsOf_nextArmTokens (d : Dialect) (base depth path child parent : Bytes) :
    slotsOf (nextArmTokens d base depth path child parent) = 0 := by
  have inTree (name : Bytes) : slotsOf (inTreeTokens d name) = 0 := rfl
  have tables : slotsOf (joinTokens d base) = 0 := rfl
  simp [nextArmTokens, slotsOf, Token.slots, slotsOf_append, slotsOf_nextTokens, slotsOf_linkTokens, inTree, tables]

theorem rootArmTokens_eq (d : Dialect) (base depth path child : Bytes) (condition : List Token) :
    rootArmTokens d base depth path child condition = rootArmTokens d base depth path child [] ++ condition := by
  simp only [rootArmTokens, List.append_assoc, List.cons_append, List.nil_append]

theorem slotsOf_rootArmTokens (d : Dialect) (base depth path child : Bytes) (condition : List Token) :
    slotsOf (rootArmTokens d base depth path child condition) = slotsOf condition := by
  simp [rootArmTokens, slotsOf, Token.slots, slotsOf_append, slotsOf_rootTokens]

/-- The tokens of both arms, with the values that are bound in them. -/
theorem fillAll_walkTable (aligned : roots.Aligned) :
    fillAll (r.walkTable w parent child roots).params (r.walkTableTokens w parent child roots.raw)
      = rootArmTokens r.dialect r.table.base w.depthName w.pathName child roots.bound ++ .word "UNION" :: .word "ALL"
        :: (nextArmTokens r.dialect r.table.base w.depthName w.pathName child parent
          ++ [.slot (some (.int w.maxDepth.toInt))]) := by
  generalize step : nextArmTokens r.dialect r.table.base w.depthName w.pathName child parent = next
  have first (condition : List Token) : rootArmTokens r.dialect r.table.base w.depthName w.pathName child condition
      = rootArmTokens r.dialect r.table.base w.depthName w.pathName child [] ++ condition := rootArmTokens_eq ..
  have slotless : slotsOf (rootArmTokens r.dialect r.table.base w.depthName w.pathName child []) = 0 :=
    slotsOf_rootArmTokens ..
  have none : slotsOf (.word "UNION" :: .word "ALL" :: next) = 0 := by
    simp [slotsOf, Token.slots, ← step, slotsOf_nextArmTokens]
  have count : slotsOf (rootArmTokens r.dialect r.table.base w.depthName w.pathName child roots.raw)
      = roots.params.length := (slotsOf_rootArmTokens ..).trans aligned
  rw [walkTableTokens, params_walkTable, step, List.append_assoc, fillAll_append_append count, first, fillAll_append,
    slotless, List.drop_zero, fillAll_of_slotsOf_eq_zero slotless, ← Fragment.bound, ← first, fillAll_append,
    fillAll_of_slotsOf_eq_zero none, none]
  rfl

theorem readArms_arms (d : Dialect) (base depth path child parent : Bytes) {condition : List Token}
    (single : condition.all (fun t => !t.isWord "UNION") = true) (limit : ℤ) :
    Recursion.readArms (rootArmTokens d base depth path child condition ++ .word "UNION" :: .word "ALL"
        :: (nextArmTokens d base depth path child parent ++ [.slot (some (.int limit))]))
      = some (rootArm d base depth path child condition, nextArm d base depth path child parent limit) := by
  have first : (rootArmTokens d base depth path child condition).all (fun t => !t.isWord "UNION") = true := by
    rw [rootArmTokens_eq, List.all_append, single, Bool.and_true]
    unfold rootArmTokens rootTokens rootPathTokens
    split_ifs <;> rfl
  have all : (Token.word "ALL").isWord "ALL" = true := rfl
  rw [Recursion.readArms, cutAt_append first rfl]
  dsimp only
  rw [if_pos all, read_rootArm, read_nextArm]
  rfl

/-- The selection from the recursive table reads as its arms do. -/
theorem read_selection (d : Dialect) {arms rest : List Token} {seed step : Arm} {condition : Option (List Token)}
    {keys : List (List Token)} (harms : Recursion.readArms arms = some (seed, step))
    (hrest : Recursion.readEnd rest = some (condition, keys)) :
    Recursion.read (rowTokens d arms ++ rest) = some ⟨TreeWalk.treeName, seed, step, condition, keys⟩ := by
  have words : Recursion.words.map Bytes.toUpper = Recursion.words ∧ TreeWalk.treeName = TreeWalk.treeName := ⟨rfl, rfl⟩
  change (if Recursion.words.map Bytes.toUpper = Recursion.words ∧ TreeWalk.treeName = TreeWalk.treeName then
    Recursion.readParts TreeWalk.treeName arms rest else none) = _
  rw [if_pos words, Recursion.readParts, harms, hrest]
  rfl

/-- What a database reads of the statement of a walk. -/
theorem read_walkStatement (hs : scope.Reads True) (h : r.walkStatement scope = .ok statement) :
    ∃ w parent child roots ts, r.requireWalk = .ok w ∧ r.keyColumn w.parentKey = .ok parent
      ∧ r.keyColumn w.childKey = .ok child ∧ r.rootCondition w parent = .ok roots ∧ statement.tokens? = some ts
      ∧ Recursion.read ts = some (r.recursion w parent child roots scope) := by
  obtain ⟨w, parent, child, roots, walk, parentKey, childKey, found, same⟩ := walkStatement_eq_ok h
  have start : roots.Spells True roots.raw := spells_roots found
  have table := spells_walkTable r w parent child start
  have arms := readArms_arms r.dialect r.table.base w.depthName w.pathName child parent
    (names_of_rootCondition found).1 w.maxDepth.toInt
  rw [← fillAll_walkTable (start.tight trivial)] at arms
  cases empty : scope.isEmpty with
  | true =>
    have tokens := (tokens?_selection_of_isEmpty r.dialect w.depthName child table empty).mpr ⟨table.tight trivial, rfl⟩
    have end' : Recursion.readEnd (.keyword .orderClause :: .word "BY" :: keyTokens r.dialect w.depthName child)
        = some (none, [inTreeTokens r.dialect w.depthName, inTreeTokens r.dialect child]) := rfl
    refine ⟨w, parent, child, roots, _, walk, parentKey, childKey, found, same.trans tokens,
      (read_selection r.dialect arms end').trans ?_⟩
    rw [recursion, if_pos empty]
  | false =>
    have tokens := (tokens?_selection r.dialect w.depthName child table hs empty).mpr
      ⟨⟨table.tight trivial, hs.tight trivial⟩, rfl⟩
    have end' : Recursion.readEnd (.keyword .whereClause ::
        (scope.bound ++ .keyword .orderClause :: .word "BY" :: keyTokens r.dialect w.depthName child))
        = some (some scope.bound, [inTreeTokens r.dialect w.depthName, inTreeTokens r.dialect child]) := by
      have inside : (Token.keyword .whereClause :: scope.bound).all (fun t => !t.isOrder) = true := by
        have clauseless := keyword?_ne_fillAll (fun t mem => (hs.clauseless t mem).2) scope.params
        rw [List.all_cons, List.all_eq_true.mpr fun t mem => by simpa [Token.isOrder] using clauseless t mem]
        rfl
      rw [← List.cons_append, Recursion.readEnd, cutAt_append inside rfl]
      rfl
    refine ⟨w, parent, child, roots, _, walk, parentKey, childKey, found, same.trans tokens,
      (read_selection r.dialect arms end').trans ?_⟩
    rw [recursion, if_neg (Bool.eq_false_iff.mp empty)]

end Resolver

end TableQuery
