import TableQuery.Proofs.Field.Resolver
import TableQuery.Statement.Tree

/-!
# The statement of a walk

A walk's statement is one recursive table in parentheses, and a selection from it. So among the tokens outside of
parentheses there is one `WHERE` at most, that of the selection, and it stands before the request's scope; the
conditions of the roots and of the steps are inside the parentheses.

## What is proved

`Resolver.keeps_of_keepsLast`: a row that the last selection of the statement keeps is kept by the scope.
-/

namespace TableQuery

variable {strict : Prop} {σ : List Token → Truth}

/-! ## The filter of a statement -/

namespace Resolver

variable {r : Resolver} {f scope statement : Fragment} {ts : List Token}

/-- A column of the recursive table. -/
def inTree (d : Dialect) (column : Bytes) : Bytes :=
  d.quoteName TreeWalk.treeName ++ Ascii.dot :: d.quoteName column

/-- The tokens of a column of the recursive table. -/
def inTreeTokens (d : Dialect) (column : Bytes) : List Token :=
  dottedTokens d.nameQuote [TreeWalk.treeName, column]

theorem lexes_inTree (d : Dialect) (column : Bytes) : Lexes (inTree d column) (inTreeTokens d column) := by
  have dot : Opens [Ascii.dot] [Token.mark Ascii.dot] := opens_of_scan rfl
  have whole := ((lexes_quoteName d TreeWalk.treeName).opens rfl dot).append (lexes_quoteName d column)
  rw [List.append_assoc] at whole
  exact whole

/-- The tokens of a column of one of the tables of the walk. -/
def walkTokens (d : Dialect) (table column : Bytes) : List Token :=
  dottedTokens d.nameQuote (Bytes.splitOn Ascii.dot (table ++ Ascii.dot :: column))

theorem spells_walkColumn (d : Dialect) (table column : Bytes) :
    (walkColumn d table column).Spells strict (walkTokens d table column) :=
  Fragment.spells_identifier d _

theorem spells_asSqlText (d : Dialect) (table column : Bytes) :
    (asSqlText d (walkColumn d table column)).Spells strict (castTokens d (walkTokens d table column)) :=
  (spells_walkColumn d table column).castText d

/-- The path of a root. -/
def rootPath (d : Dialect) (path child : Bytes) : Fragment :=
  if !path.isEmpty then
    ((Fragment.text ", " ++ asSqlText d (walkColumn d TreeWalk.rootName child)).add " AS ").add (d.quoteName path)
  else .empty

/-- The tokens of a root's path, with the comma before it. -/
def rootPathTokens (d : Dialect) (path child : Bytes) : List Token :=
  if !path.isEmpty then
    Token.mark Ascii.comma :: (castTokens d (walkTokens d TreeWalk.rootName child)
      ++ [Token.word "AS", Token.quoted d.nameQuote path])
  else []

theorem spells_rootPath (d : Dialect) (path child : Bytes) (h : f.Spells strict ts) :
    (f ++ rootPath d path child).Spells strict (ts ++ rootPathTokens d path child) := by
  have comma : Opens ", " [Token.mark Ascii.comma] := opens_of_scan rfl
  have named : Opens " AS " [Token.word "AS"] := opens_of_scan rfl
  unfold rootPath rootPathTokens
  split_ifs
  · have cast := h.between rfl comma rfl (spells_asSqlText d TreeWalk.rootName child)
    have whole := cast.add rfl (named.append (lexes_quoteName d path)) rfl
    simp only [List.append_assoc, List.singleton_append] at whole
    apply whole.of_eq
    · simp only [Fragment.sql_add, Fragment.sql_append, Fragment.text, List.append_assoc]
    · simp only [Fragment.params_add, Fragment.params_append, Fragment.text, List.nil_append]
  · rw [List.append_nil]
    exact h.of_eq (List.append_nil _) (List.append_nil _)

/-- The path of a child. -/
def nextPath (d : Dialect) (path child : Bytes) : Fragment :=
  if !path.isEmpty then
    ((Fragment.text ", ").add (inTree d path)).add " || '/' || " ++ asSqlText d (walkColumn d TreeWalk.childName child)
  else .empty

/-- The tokens of a child's path, with the comma before it. -/
def nextPathTokens (d : Dialect) (path child : Bytes) : List Token :=
  if !path.isEmpty then
    Token.mark Ascii.comma :: (inTreeTokens d path
      ++ [Token.sign "||", Token.quoted Ascii.quote "/", Token.sign "||"]
      ++ castTokens d (walkTokens d TreeWalk.childName child))
  else []

theorem spells_nextPath (d : Dialect) (path child : Bytes) (h : f.Spells strict ts) :
    (f ++ nextPath d path child).Spells strict (ts ++ nextPathTokens d path child) := by
  have comma : Opens ", " [Token.mark Ascii.comma] := opens_of_scan rfl
  have bars : Opens " || '/' || " [Token.sign "||", Token.quoted Ascii.quote "/", Token.sign "||"] := opens_of_scan rfl
  unfold nextPath nextPathTokens
  split_ifs
  · have known := h.add rfl (comma.append (lexes_inTree d path)) rfl
    have whole := known.between rfl bars rfl (spells_asSqlText d TreeWalk.childName child)
    simp only [List.append_assoc, List.singleton_append] at whole
    rw [List.append_assoc]
    apply whole.of_eq
    · simp only [Fragment.sql_add, Fragment.sql_append, Fragment.text, List.append_assoc]
    · simp only [Fragment.params_add, Fragment.params_append, Fragment.text, List.nil_append]
  · rw [List.append_nil]
    exact h.of_eq (List.append_nil _) (List.append_nil _)

theorem spells_roots {w : TreeWalk} {parent : Bytes} (h : r.rootCondition w parent = .ok f) :
    f.Spells strict f.raw := by
  unfold rootCondition at h
  cases start : w.startWith with
  | none =>
    rw [start] at h
    cases h
    exact (Operator.isTest_isNull (Fragment.isOperand_identifier _ _)).spells
  | some condition =>
    rw [start] at h
    dsimp only at h
    split at h
    · exact (Operator.isTest_apply (Fragment.isOperand_identifier _ _) h).spells
    · cases h

/-- The rows the walk starts with, at depth 0. -/
def rootsPart (d : Dialect) (base depth path child : Bytes) (roots : Fragment) : Fragment :=
  ((Fragment.text
      (Bytes.ofString "SELECT " ++ d.quoteName TreeWalk.rootName ++ ".*, 0 AS " ++ d.quoteName depth)
    ++ rootPath d path child).add
    (Bytes.ofString " FROM " ++ d.quoteName base ++ " " ++ d.quoteName TreeWalk.rootName ++ " WHERE "))
    ++ roots

/-- What a walk selects of its roots. -/
def rootTokens (d : Dialect) (depth path child : Bytes) : List Token :=
  [Token.quoted d.nameQuote TreeWalk.rootName, Token.mark Ascii.dot, Token.sign "*", Token.mark Ascii.comma,
    Token.word "0", Token.word "AS", Token.quoted d.nameQuote depth] ++ rootPathTokens d path child

/-- The tokens of the selection of the roots. -/
def rootArmTokens (d : Dialect) (base depth path child : Bytes) (condition : List Token) : List Token :=
  Token.word "SELECT" :: (rootTokens d depth path child ++ Token.word "FROM" ::
    ([Token.quoted d.nameQuote base, Token.quoted d.nameQuote TreeWalk.rootName]
      ++ Token.keyword .whereClause :: condition))

theorem spells_rootsPart (d : Dialect) (base depth path child : Bytes) {roots : Fragment}
    (h : roots.Spells strict ts) :
    (rootsPart d base depth path child roots).Spells strict (rootArmTokens d base depth path child ts) := by
  have select : Opens "SELECT " [Token.word "SELECT"] := opens_of_scan rfl
  have zero : Opens ".*, 0 AS " [Token.mark Ascii.dot, Token.sign "*", Token.mark Ascii.comma, Token.word "0",
    Token.word "AS"] := opens_of_scan rfl
  have from' : Opens " FROM " [Token.word "FROM"] := opens_of_scan rfl
  have blank : Opens " " [] := opens_of_scan rfl
  have filter : Opens " WHERE " [Token.keyword .whereClause] := opens_of_scan rfl
  have fields := ((select.append (lexes_quoteName d TreeWalk.rootName)).opens rfl zero).append
    (lexes_quoteName d depth)
  have tables := (((from'.append (lexes_quoteName d base)).opens rfl blank).append
    (lexes_quoteName d TreeWalk.rootName)).opens rfl filter
  have whole := (spells_rootPath d path child (.text fields rfl)).between rfl tables rfl h
  simpa only [rootsPart, rootArmTokens, rootTokens, List.append_assoc, List.cons_append, List.nil_append] using whole

/-- The children of the rows found so far, one level deeper, after the rows found so far. -/
def stepPart (d : Dialect) (base depth path child parent : Bytes) (rootsPart : Fragment) : Fragment :=
  ((rootsPart.add
      (Bytes.ofString " UNION ALL SELECT " ++ d.quoteName TreeWalk.childName ++ ".*, " ++ inTree d depth ++ " + 1")
    ++ nextPath d path child).add
    (Bytes.ofString " FROM " ++ d.quoteName base ++ " " ++ d.quoteName TreeWalk.childName ++ " INNER JOIN "
      ++ d.quoteName TreeWalk.treeName ++ " ON ")
    ++ walkColumn d TreeWalk.childName parent).add
    (Bytes.ofString " = " ++ inTree d child ++ " WHERE " ++ inTree d depth ++ " < ")

/-- What a walk selects of the children of a row. -/
def nextTokens (d : Dialect) (depth path child : Bytes) : List Token :=
  [Token.quoted d.nameQuote TreeWalk.childName, Token.mark Ascii.dot, Token.sign "*", Token.mark Ascii.comma]
    ++ (inTreeTokens d depth ++ [Token.sign "+", Token.word "1"]) ++ nextPathTokens d path child

/-- A row is the child of another. -/
def linkTokens (d : Dialect) (parent child : Bytes) : List Token :=
  walkTokens d TreeWalk.childName parent ++ .sign "=" :: inTreeTokens d child

/-- The tables that children are selected from, up to the condition on which they are joined. -/
def joinTokens (d : Dialect) (base : Bytes) : List Token :=
  [.quoted d.nameQuote base, .quoted d.nameQuote TreeWalk.childName, .word "INNER", .word "JOIN",
    .quoted d.nameQuote TreeWalk.treeName, .word "ON"]

/-- The tokens of the selection of the children, before the greatest depth. -/
def nextArmTokens (d : Dialect) (base depth path child parent : Bytes) : List Token :=
  Token.word "SELECT" :: (nextTokens d depth path child ++ Token.word "FROM" ::
    (joinTokens d base ++ linkTokens d parent child ++ Token.keyword .whereClause ::
      (inTreeTokens d depth ++ [Token.sign "<"])))

theorem spells_stepPart (d : Dialect) (base depth path child parent : Bytes) {roots : Fragment}
    (h : roots.Spells strict ts) : (stepPart d base depth path child parent roots).Spells strict
      (ts ++ .word "UNION" :: .word "ALL" :: nextArmTokens d base depth path child parent) := by
  have union : Opens " UNION ALL SELECT " [Token.word "UNION", Token.word "ALL", Token.word "SELECT"] :=
    opens_of_scan rfl
  have comma : Opens ".*, " [Token.mark Ascii.dot, Token.sign "*", Token.mark Ascii.comma] := opens_of_scan rfl
  have one : Lexes " + 1" [Token.sign "+", Token.word "1"] := lex_eq_some_iff.mp rfl
  have from' : Opens " FROM " [Token.word "FROM"] := opens_of_scan rfl
  have blank : Opens " " [] := opens_of_scan rfl
  have join : Opens " INNER JOIN " [Token.word "INNER", Token.word "JOIN"] := opens_of_scan rfl
  have on : Opens " ON " [Token.word "ON"] := opens_of_scan rfl
  have equals : Opens " = " [Token.sign "="] := opens_of_scan rfl
  have filter : Opens " WHERE " [Token.keyword .whereClause] := opens_of_scan rfl
  have below : Opens " < " [Token.sign "<"] := opens_of_scan rfl
  have fields := (((union.append (lexes_quoteName d TreeWalk.childName)).opens rfl comma).append
    (lexes_inTree d depth)).append rfl one
  have tables := (((((from'.append (lexes_quoteName d base)).opens rfl blank).append
    (lexes_quoteName d TreeWalk.childName)).opens rfl join).append
      (lexes_quoteName d TreeWalk.treeName)).opens rfl on
  have limit := ((((equals.append (lexes_inTree d child)).opens rfl filter).append
    (lexes_inTree d depth)).opens rfl below).lexes
  have rows := (spells_nextPath d path child (h.add rfl fields rfl)).between rfl tables rfl
    (spells_walkColumn d TreeWalk.childName parent)
  have whole := rows.add rfl limit rfl
  simpa only [stepPart, nextArmTokens, nextTokens, joinTokens, linkTokens, List.append_assoc, List.cons_append,
    List.nil_append] using whole

/-- The two selections, with the greatest depth bound in the second. -/
def walkTable (r : Resolver) (w : TreeWalk) (parent child : Bytes) (roots : Fragment) : Fragment :=
  (stepPart r.dialect r.table.base w.depthName w.pathName child parent
    (rootsPart r.dialect r.table.base w.depthName w.pathName child roots)).bind (.int w.maxDepth.toInt)

/-- The tokens of both arms, without the values that are bound in them. -/
def walkTableTokens (r : Resolver) (w : TreeWalk) (parent child : Bytes) (condition : List Token) : List Token :=
  rootArmTokens r.dialect r.table.base w.depthName w.pathName child condition ++ .word "UNION" :: .word "ALL"
    :: nextArmTokens r.dialect r.table.base w.depthName w.pathName child parent ++ [.slot none]

theorem spells_walkTable (r : Resolver) (w : TreeWalk) (parent child : Bytes) {roots : Fragment}
    (h : roots.Spells strict ts) :
    (r.walkTable w parent child roots).Spells strict (r.walkTableTokens w parent child ts) :=
  (spells_stepPart r.dialect r.table.base w.depthName w.pathName child parent
    (spells_rootsPart r.dialect r.table.base w.depthName w.pathName child h)).bind _

theorem params_walkTable (r : Resolver) (w : TreeWalk) (parent child : Bytes) (roots : Fragment) :
    (r.walkTable w parent child roots).params = roots.params ++ [.int w.maxDepth.toInt] := by
  unfold walkTable stepPart rootsPart rootPath nextPath
  split_ifs
  · simp only [asSqlText, walkColumn, Fragment.identifier, Fragment.params_bind, Fragment.params_add,
      Fragment.params_append, Fragment.text, List.nil_append, List.append_nil]
  · simp only [walkColumn, Fragment.identifier, Fragment.params_bind, Fragment.params_add,
      Fragment.params_append, Fragment.text, Fragment.empty, List.nil_append, List.append_nil]

/-! ## The statement -/

/-- All rows of the recursive table. -/
def allRows (d : Dialect) (table : Fragment) : Fragment :=
  ((Fragment.text (Bytes.ofString "WITH RECURSIVE " ++ d.quoteName TreeWalk.treeName ++ " AS (") ++ table).add
    ")").add (Bytes.ofString " SELECT * FROM " ++ d.quoteName TreeWalk.treeName)

/-- The selection from the recursive table, restricted by a scope. -/
def selection (d : Dialect) (depth child : Bytes) (table scope : Fragment) : Fragment :=
  (if scope.isEmpty then allRows d table else (allRows d table).add " WHERE " ++ scope).add
    (Bytes.ofString " ORDER BY " ++ inTree d depth ++ ", " ++ inTree d child)

/-- The column behind a field of the base table is the one that declares it. -/
theorem baseColumn?_eq_some_iff {name : Bytes} {c : Column} :
    r.baseColumn? name = some c ↔ ∃ f, r.resolve name = some f ∧ f.source = .base ∧ f.origin = .column c := by
  unfold baseColumn?
  constructor
  · intro some
    split at some
    · next found =>
      cases some
      exact ⟨_, found, rfl, rfl⟩
    · cases some
  · rintro ⟨f, found, source, origin⟩
    cases f
    subst source
    subst origin
    rw [found]

/-- A walk that passes the checks is the one that the table describes. -/
theorem walk_of_requireWalk {w : TreeWalk} (h : r.requireWalk = .ok w) : r.table.walk = some w := by
  unfold requireWalk at h
  split at h
  · cases h
  · next walks =>
    split_ifs at h
    obtain ⟨-, -, h⟩ := Checked.bind_eq_ok.mp h
    cases h
    exact walks

/-- The statement of a walk is the selection from its table, with the same text and values. -/
theorem walkStatement_eq_ok (h : r.walkStatement scope = .ok statement) :
    ∃ w parent child roots, r.requireWalk = .ok w ∧ r.keyColumn w.parentKey = .ok parent
      ∧ r.keyColumn w.childKey = .ok child ∧ r.rootCondition w parent = .ok roots
      ∧ statement.tokens?
        = (selection r.dialect w.depthName child (r.walkTable w parent child roots) scope).tokens? := by
  unfold walkStatement at h
  obtain ⟨w, walk, h⟩ := Checked.bind_eq_ok.mp h
  obtain ⟨parent, parentKey, h⟩ := Checked.bind_eq_ok.mp h
  obtain ⟨child, childKey, h⟩ := Checked.bind_eq_ok.mp h
  obtain ⟨roots, found, h⟩ := Checked.bind_eq_ok.mp h
  cases h
  have opened : Bytes.ofString " AS (SELECT " = Bytes.ofString " AS (" ++ Bytes.ofString "SELECT " := rfl
  refine ⟨w, parent, child, roots, walk, parentKey, childKey, found, Fragment.tokens?_congr ?_ ?_⟩
  · unfold selection allRows walkTable stepPart rootsPart rootPath nextPath inTree
    rw [opened]
    split
    · simp only [Fragment.sql_add, Fragment.sql_append, Fragment.sql_bind, Fragment.text, List.append_assoc,
        List.cons_append, List.nil_append]
    · simp only [Fragment.sql_add, Fragment.sql_append, Fragment.sql_bind, Fragment.text, List.append_assoc,
        List.cons_append, List.nil_append]
  · unfold selection allRows walkTable stepPart rootsPart rootPath nextPath
    split
    · simp only [Fragment.params_add, Fragment.params_append, Fragment.params_bind, Fragment.text,
        List.append_assoc, List.nil_append]
      rfl
    · simp only [Fragment.params_add, Fragment.params_append, Fragment.params_bind, Fragment.text,
        List.append_assoc, List.nil_append]
      rfl

/-- The tokens before the filter: the recursive table is one of them. -/
def rowTokens (d : Dialect) (table : List Token) : List Token :=
  let tree := Token.quoted d.nameQuote TreeWalk.treeName
  [Token.word "WITH", Token.word "RECURSIVE", tree, Token.word "AS", Token.group table, Token.word "SELECT",
    Token.sign "*", Token.word "FROM", tree]

theorem spells_allRows (d : Dialect) {table : Fragment} (h : table.Spells strict ts) :
    (allRows d table).Spells strict (rowTokens d ts) := by
  have start : Opens "WITH RECURSIVE " [Token.word "WITH", Token.word "RECURSIVE"] := opens_of_scan rfl
  have named : Lexes " AS " [Token.word "AS"] := (opens_of_scan rfl).lexes
  have select : Opens " SELECT * FROM " [Token.word "SELECT", Token.sign "*", Token.word "FROM"] :=
    opens_of_scan rfl
  have tree := lexes_quoteName d TreeWalk.treeName
  have inside := Fragment.Spells.call ((start.append tree).append rfl named) rfl h
  apply (inside.add rfl (select.append tree) rfl).of_eq
  · unfold allRows
    simp only [Fragment.sql_add, Fragment.sql_append, Fragment.text, List.append_assoc]
    rfl
  · rfl

/-- The columns that the selection is ordered by. -/
def keyTokens (d : Dialect) (depth child : Bytes) : List Token :=
  inTreeTokens d depth ++ .mark Ascii.comma :: inTreeTokens d child

theorem lexes_keys (d : Dialect) (depth child : Bytes) :
    Lexes (Bytes.ofString " ORDER BY " ++ inTree d depth ++ ", " ++ inTree d child)
      (.keyword .orderClause :: .word "BY" :: keyTokens d depth child) := by
  have order : Opens " ORDER BY " [Token.keyword .orderClause, Token.word "BY"] := opens_of_scan rfl
  have comma : Opens ", " [Token.mark Ascii.comma] := opens_of_scan rfl
  exact ((order.append (lexes_inTree d depth)).opens rfl comma).append (lexes_inTree d child)

/-- The tokens of the selection: the scope stands between the only `WHERE` and the first `ORDER` outside of the
recursive table. -/
theorem spells_selection (d : Dialect) (depth child : Bytes) {table scope : Fragment}
    (ht : table.Spells strict ts) (hs : scope.Reads strict) (filled : scope.isEmpty = false) :
    (selection d depth child table scope).Spells strict
      (rowTokens d ts ++ .keyword .whereClause ::
        (scope.raw ++ .keyword .orderClause :: .word "BY" :: keyTokens d depth child)) := by
  have filter : Opens " WHERE " [Token.keyword .whereClause] := opens_of_scan rfl
  have restricted := (spells_allRows d ht).between rfl filter rfl hs.spells
  have sorted := restricted.add rfl (lexes_keys d depth child) rfl
  rw [selection, if_neg (Bool.eq_false_iff.mp filled)]
  simpa only [List.append_assoc, List.cons_append, List.nil_append] using sorted

/-- The tokens of the selection without a scope. -/
theorem spells_selection_of_isEmpty (d : Dialect) (depth child : Bytes) {table scope : Fragment}
    (ht : table.Spells strict ts) (empty : scope.isEmpty = true) :
    (selection d depth child table scope).Spells strict
      (rowTokens d ts ++ .keyword .orderClause :: .word "BY" :: keyTokens d depth child) := by
  rw [selection, if_pos empty]
  exact (spells_allRows d ht).add rfl (lexes_keys d depth child) rfl

theorem slotsOf_rowTokens (d : Dialect) (ts : List Token) : slotsOf (rowTokens d ts) = slotsOf ts := by
  simp [rowTokens, slotsOf, Token.slots]

/-- A database takes the selection if the table and the scope have a value for each placeholder, and then reads these
tokens. -/
theorem tokens?_selection (d : Dialect) (depth child : Bytes) {table scope : Fragment}
    (ht : table.Spells strict ts) (hs : scope.Reads strict) (filled : scope.isEmpty = false) {tokens : List Token} :
    (selection d depth child table scope).tokens? = some tokens
      ↔ (slotsOf ts = table.params.length ∧ scope.Aligned)
        ∧ rowTokens d (fillAll table.params ts) ++ .keyword .whereClause ::
            (scope.bound ++ .keyword .orderClause :: .word "BY" :: keyTokens d depth child) = tokens := by
  have spells := spells_selection d depth child ht hs filled
  have params : (selection d depth child table scope).params = table.params ++ (scope.params ++ []) := by
    rw [selection, if_neg (Bool.eq_false_iff.mp filled)]
    simp only [allRows, Fragment.params_add, Fragment.params_append, Fragment.text, List.nil_append,
      List.append_nil]
  have after : slotsOf (Token.keyword .orderClause :: .word "BY" :: keyTokens d depth child) = 0 := rfl
  have lexes := spells.lexes
  rw [← spells.raw] at lexes
  have sums : (selection d depth child table scope).Aligned ↔ slotsOf ts = table.params.length ∧ scope.Aligned := by
    have roomTable := ht.room
    have roomScope := hs.room
    rw [Fragment.Aligned, spells.raw, params, slotsOf_append, slotsOf_rowTokens, slotsOf, Token.slots_keyword,
      slotsOf_append, after, List.append_nil, List.length_append, Fragment.Aligned]
    omega
  rw [Fragment.tokens?_eq lexes, Option.ite_none_right_eq_some, sums, Option.some_inj]
  refine and_congr_right fun aligned => ?_
  have rest : fillAll (scope.params ++ [])
      (scope.raw ++ Token.keyword .orderClause :: .word "BY" :: keyTokens d depth child)
      = scope.bound ++ Token.keyword .orderClause :: .word "BY" :: keyTokens d depth child :=
    fillAll_append_append aligned.2
  have rows : slotsOf (rowTokens d ts) = table.params.length := (slotsOf_rowTokens d ts).trans aligned.1
  rw [Fragment.bound, spells.raw, params, fillAll_append_append rows, ← rest]
  rfl

/-- The same without a scope. -/
theorem tokens?_selection_of_isEmpty (d : Dialect) (depth child : Bytes) {table scope : Fragment}
    (ht : table.Spells strict ts) (empty : scope.isEmpty = true) {tokens : List Token} :
    (selection d depth child table scope).tokens? = some tokens
      ↔ slotsOf ts = table.params.length
        ∧ rowTokens d (fillAll table.params ts) ++ .keyword .orderClause :: .word "BY" :: keyTokens d depth child
          = tokens := by
  have spells := spells_selection_of_isEmpty d depth child ht empty
  have params : (selection d depth child table scope).params = table.params ++ [] := by
    rw [selection, if_pos empty]
    simp only [allRows, Fragment.params_add, Fragment.params_append, Fragment.text, List.nil_append,
      List.append_nil]
  have after : slotsOf (Token.keyword .orderClause :: .word "BY" :: keyTokens d depth child) = 0 := rfl
  have lexes := spells.lexes
  rw [← spells.raw] at lexes
  rw [Fragment.tokens?_eq lexes, Option.ite_none_right_eq_some, Fragment.Aligned, spells.raw, params, slotsOf_append,
    slotsOf_rowTokens, after, Nat.add_zero, List.append_nil, Option.some_inj]
  refine and_congr_right fun aligned => ?_
  have rows : slotsOf (rowTokens d ts) = table.params.length := (slotsOf_rowTokens d ts).trans aligned
  rw [Fragment.bound, spells.raw, params, fillAll_append_append rows]
  rfl

end Resolver

end TableQuery
