import TableQuery.Proofs.Json.Members
import TableQuery.Proofs.Request.Cursor
import TableQuery.Proofs.Statement.Continuation

/-!
# Walks from page to page

A walk starts with the empty token and asks for page after page, each with the token that came with the one
before. What is left to come after a page are the rows that its last row precedes, so each page takes the next
rows off the arranged ones.

## What is proved

`Keyset.exists_walk`: a walk ends, and its pages one after the other are all rows in their order, each once, also where
it is requests that ask for the pages.
-/

namespace TableQuery

namespace Keyset

/-! ## The walk -/

/-- What a database answers for a page: of the rows that the continuation keeps, in the page's order, as many as
are fetched. -/
def answer (d : Dialect) (c : Collation) (rows : List Row) (result : Row → Json) (k : Keyset) : List Json :=
  ((arrange d c k.order (rows.filter fun ρ => k.continuation.Keeps (ρ.atom c))).take
    k.fetchLimit.toInt.toNat).map result

/-- The pages from a token on, if there are no more than a number of steps and each token asks for a page. -/
def walk (ask : Bytes → Checked Keyset) (fetch : Keyset → List Json) : Nat → Bytes → Option (List (List Json))
  | 0, _ => none
  | steps + 1, token => do
    let k ← (ask token).toOption
    let page := finish k (fetch k)
    match page.nextCursor with
    | none => some [page.rows]
    | some next => (walk ask fetch steps next).map fun pages => page.rows :: pages

/-- The page of a request is that of its token. -/
theorem ofRequest_eq {r : Resolver} {requested : List SortKey} {order : List OrderTerm}
    (h : activeOrder r requested = .ok order) (token : Bytes) (pageSize : Option Int64) :
    ofRequest r (some token) pageSize requested
      = ofToken r.dialect order (r.table.pagination.clampSize pageSize) token := by
  unfold ofRequest
  rw [h]
  rfl

/-! ## Rows that can be walked over -/

/-- The terms of an order have different fields and tell the rows apart; the database orders the values of each,
and returns them with the row, so that they can be written into a token and read again. -/
structure Walkable (c : Collation) (order : List OrderTerm) (rows : List Row) (result : Row → Json) : Prop where
  distinct : (order.map OrderTerm.field).Nodup
  operands : ∀ t ∈ order, t.expression.IsOperand True
  ordered : Ordered c order rows
  /-- What a term promises not to be null is not. -/
  never : ∀ t ∈ order, t.nullable = false → ∀ ρ ∈ rows, (t.valueIn ρ).isNull = false
  differ : rows.Pairwise fun x y => agree c order x y = false
  returned : ∀ ρ ∈ rows, ∀ t ∈ order, ((result ρ).get? (boundaryName t.field)).getD .null = t.valueIn ρ
  survives : ∀ ρ ∈ rows, Json.parse? (boundaryOf order (result ρ)).compact = some (boundaryOf order (result ρ))

variable {d : Dialect} {c : Collation} {order : List OrderTerm} {size : Int64} {rows : List Row}
  {result : Row → Json}

namespace Walkable

/-- The boundary that a row leaves has the row's values. -/
theorem get?_boundaryOf (h : Walkable c order rows result) {b : Row} (hb : b ∈ rows) {t : OrderTerm}
    (ht : t ∈ order) : (boundaryOf order (result b)).get? t.field = some (t.valueIn b) := by
  unfold boundaryOf
  apply Json.get?_record
  · rw [List.map_map]
    exact h.distinct
  · rw [← h.returned b hb t ht]
    exact List.mem_map_of_mem ht

/-- The token of a row asks for the page after it. -/
theorem ofToken_encode (h : Walkable c order rows result) {b : Row} (hb : b ∈ rows) :
    ofToken d order size (Cursor.encode (boundaryOf order (result b))) = .ok
      { order, continuation := continuationAfter d order (boundaryOf order (result b)), pageSize := size
        fetchLimit := size + 1 } := by
  have decoded := Cursor.decode_encode (o := boundaryOf order (result b)) rfl (h.survives b hb)
  have filled : (Cursor.encode (boundaryOf order (result b))).isEmpty = false := by
    rw [Bool.eq_false_iff]
    intro empty
    rw [List.isEmpty_iff.mp empty, Cursor.decode_nil] at decoded
    cases decoded
  unfold ofToken
  rw [filled, if_neg Bool.false_ne_true, decoded]
  rfl

end Walkable

/-! ## What is left after a token -/

/-- After a token these rows are left, in their order. -/
def Leaves (d : Dialect) (c : Collation) (order : List OrderTerm) (size : Int64) (rows : List Row) (token : Bytes)
    (rest : List Row) : Prop :=
  ∃ continuation,
    ofToken d order size token = .ok { order, continuation, pageSize := size, fetchLimit := size + 1 }
      ∧ arrange d c order (rows.filter fun ρ => continuation.Keeps (ρ.atom c)) = rest

/-- After the empty token all rows are left. -/
theorem leaves_nil : Leaves d c order size rows [] (arrange d c order rows) := by
  refine ⟨.empty, rfl, ?_⟩
  rw [List.filter_eq_self.mpr]
  intro ρ _
  exact decide_eq_true (Or.inl rfl)

/-- After the token of a row those rows are left that are arranged after it. -/
theorem leaves_encode (h : Walkable c order rows result) {before rest : List Row} {b : Row}
    (split : arrange d c order rows = before ++ b :: rest) (more : rest ≠ []) :
    Leaves d c order size rows (Cursor.encode (boundaryOf order (result b))) rest := by
  have perm := perm_arrange d c order rows
  have strict := strict_arrange (d := d) h.ordered h.differ
  have ranks := ranks_precedes (d := d) h.ordered
  rw [split] at perm strict
  have inRows (ρ : Row) (mem : ρ ∈ before ++ b :: rest) : ρ ∈ rows := perm.subset mem
  have hb : b ∈ rows := inRows b (List.mem_append_right _ List.mem_cons_self)
  rw [List.pairwise_append, List.pairwise_cons] at strict
  obtain ⟨-, ⟨after, sorted⟩, earlier⟩ := strict
  have keyed : order ≠ [] := by
    rintro rfl
    obtain ⟨ρ, hρ⟩ := List.exists_mem_of_ne_nil rest more
    have none := after ρ hρ
    cases none
  refine ⟨_, h.ofToken_encode hb, ?_⟩
  -- The database filters and sorts anew for each page: first the filter is that of coming after the row, then the
  -- rows that come after it are the rest, and there is one way to arrange them.
  have keeps : rows.filter (fun ρ => (continuationAfter d order (boundaryOf order (result b))).Keeps (ρ.atom c))
      = rows.filter fun ρ => precedes d c order b ρ := by
    refine List.filter_congr fun ρ mem => ?_
    rw [Bool.eq_iff_iff, decide_eq_true_iff]
    exact keeps_continuationAfter h.ordered hb mem h.operands (fun t ht null => h.never t ht null ρ mem) keyed
      fun t ht => h.get?_boundaryOf hb ht
  have kept : (before ++ b :: rest).filter (fun ρ => precedes d c order b ρ) = rest := by
    have none : before.filter (fun ρ => precedes d c order b ρ) = [] := by
      rw [List.filter_eq_nil_iff]
      intro ρ mem back
      have first := earlier ρ mem b List.mem_cons_self
      rw [ranks.asymm ρ b (inRows ρ (List.mem_append_left _ mem)) hb first] at back
      cases back
    have all : rest.filter (fun ρ => precedes d c order b ρ) = rest := List.filter_eq_self.mpr after
    rw [List.filter_append, none, List.nil_append, List.filter_cons, ranks.irrefl hb, all]
    rfl
  rw [keeps]
  apply arrange_eq h.ordered
  · rw [← kept]
    exact perm.symm.filter _
  · exact fun ρ mem => inRows ρ (List.mem_append_right _ (List.mem_cons_of_mem b mem))
  · exact sorted

/-! ## One page -/

section Page

variable (one : 1 ≤ size) (room : size < Int64.maxValue)
include one room

theorem toInt_size_bounds : 1 ≤ size.toInt ∧ size.toInt < 2 ^ 63 - 1 := by
  have greatest : Int64.maxValue.toInt = 2 ^ 63 - 1 := rfl
  have unit : (1 : Int64).toInt = 1 := rfl
  rw [Int64.lt_iff_toInt_lt, greatest] at room
  rw [Int64.le_iff_toInt_le, unit] at one
  exact ⟨one, room⟩

theorem toNat_fetchLimit : (size + 1).toInt.toNat = size.toInt.toNat + 1 := by
  have bounds := toInt_size_bounds one room
  have unit : (1 : Int64).toInt = 1 := rfl
  rw [Int64.toInt_add, unit, Int.bmod_eq_of_le] <;> omega

/-- Among the numbers of rows that may be fetched, the size of the page is compared as a number. -/
theorem ofNat_le_size {n : Nat} (fetched : n ≤ size.toInt.toNat + 1) :
    Int64.ofNat n ≤ size ↔ n ≤ size.toInt.toNat := by
  have bounds := toInt_size_bounds one room
  have small : n < 2 ^ 63 := by omega
  rw [Int64.le_iff_toInt_le, Int64.toInt_ofNat_of_lt small]
  omega

/-- A page that holds all that is fetched is the last one. -/
theorem finish_last {k : Keyset} {found : List Json} (sized : k.pageSize = size)
    (few : found.length ≤ size.toInt.toNat) : finish k found = { rows := found } := by
  unfold finish
  rw [sized, if_pos ((ofNat_le_size one room (by omega)).mpr few)]

/-- A page is cut after its last row where one more is fetched, and the token is that row's. -/
theorem finish_cut {k : Keyset} {kept : List Json} {last beyond : Json} (sized : k.pageSize = size)
    (full : kept.length + 1 = size.toInt.toNat) :
    finish k (kept ++ [last, beyond])
      = { rows := kept ++ [last], nextCursor := some (Cursor.encode (boundaryOf k.order last)) } := by
  have length : (kept ++ [last, beyond]).length = size.toInt.toNat + 1 := by
    rw [List.length_append, ← full]
    rfl
  have exceeds : ¬Int64.ofNat (kept ++ [last, beyond]).length ≤ size := by
    rw [ofNat_le_size one room (by omega)]
    omega
  have cut : (kept ++ [last, beyond]).take size.toInt.toNat = kept ++ [last] := by
    rw [← full, List.take_append, List.take_of_length_le (Nat.le_succ _), Nat.add_sub_cancel_left]
    rfl
  unfold finish
  rw [sized, if_neg exceeds, cut]
  simp only [List.getLast?_append, List.getLast?_singleton, Option.some_or, Option.map_some]

end Page

/-! ## The whole walk -/

theorem exists_split {l : List Row} {n : Nat} (one : 1 ≤ n) (long : n < l.length) :
    ∃ kept last beyond more, l = kept ++ last :: beyond :: more ∧ kept.length + 1 = n := by
  have inside : n - 1 < l.length := by omega
  have next : n - 1 + 1 < l.length := by omega
  refine ⟨l.take (n - 1), l[n - 1], l[n - 1 + 1], l.drop (n - 1 + 1 + 1), ?_, ?_⟩
  · rw [← List.drop_eq_getElem_cons next, ← List.drop_eq_getElem_cons inside, List.take_append_drop]
  · rw [List.length_take]
    omega

/-- From any token on, the pages are what is left, and there are no more of them than rows. -/
theorem exists_walk_of_leaves (h : Walkable c order rows result) (one : 1 ≤ size) (room : size < Int64.maxValue)
    {before rest : List Row} {token : Bytes} (split : arrange d c order rows = before ++ rest)
    (left : Leaves d c order size rows token rest) {steps : Nat} (enough : rest.length < steps) :
    ∃ pages, walk (ofToken d order size) (answer d c rows result) steps token = some pages
      ∧ pages.flatten = rest.map result := by
  -- Each page takes rows off the rest, so the rest and the token that leaves it change with the step.
  induction steps generalizing before rest token with
  | zero => exact absurd enough (Nat.not_lt_zero _)
  | succ steps ih =>
    obtain ⟨continuation, asked, arranged⟩ := left
    have bounds := toInt_size_bounds one room
    have fetched : answer d c rows result { order, continuation, pageSize := size, fetchLimit := size + 1 }
        = (rest.take (size.toInt.toNat + 1)).map result := by
      unfold answer
      rw [arranged, toNat_fetchLimit one room]
    unfold walk
    rw [asked, Except.toOption, Option.bind_eq_bind, Option.bind_some]
    dsimp only
    rw [fetched]
    by_cases few : rest.length ≤ size.toInt.toNat
    · have whole : rest.take (size.toInt.toNat + 1) = rest := List.take_of_length_le (by omega)
      rw [whole, finish_last one room rfl (by rwa [List.length_map])]
      refine ⟨[rest.map result], rfl, ?_⟩
      rw [List.flatten_singleton]
    · obtain ⟨kept, last, beyond, more, rfl, full⟩ := exists_split (by omega) (Nat.lt_of_not_le few)
      have cut : (kept ++ last :: beyond :: more).take (size.toInt.toNat + 1) = kept ++ [last, beyond] := by
        have two : kept.length + 1 + 1 - kept.length = 2 := by omega
        rw [← full, List.take_append, List.take_of_length_le (by omega), two]
        rfl
      rw [cut, List.map_append, List.map_cons, List.map_singleton,
        finish_cut one room rfl (by rwa [List.length_map])]
      have here : arrange d c order rows = before ++ kept ++ last :: beyond :: more := by
        rw [split, List.append_assoc]
      have there : arrange d c order rows = before ++ kept ++ [last] ++ beyond :: more := by
        rw [here, List.append_assoc (before ++ kept)]
        rfl
      have fewer : (beyond :: more).length < steps := by
        rw [List.length_append, List.length_cons] at enough
        omega
      obtain ⟨pages, walked, flat⟩ := ih there (leaves_encode h here (List.cons_ne_nil _ _)) fewer
      dsimp only
      rw [walked, Option.map_some]
      refine ⟨_, rfl, ?_⟩
      rw [List.flatten_cons, flat]
      simp only [List.map_append, List.map_cons, List.append_assoc, List.cons_append, List.nil_append]

/-- A walk over rows ends, and its pages, one after the other, are all the rows in their order, each once. So it is for
the requests that ask for pages of this size in this order. -/
theorem exists_walk (h : Walkable c order rows result) (one : 1 ≤ size) (room : size < Int64.maxValue) :
    ∃ pages, walk (ofToken d order size) (answer d c rows result) (rows.length + 1) [] = some pages
      ∧ pages.flatten = (arrange d c order rows).map result
      ∧ (arrange d c order rows).Perm rows
      ∧ (arrange d c order rows).Pairwise (fun x y => precedes d c order x y = true)
      ∧ ∀ (r : Resolver) (pageSize : Option Int64) (requested : List SortKey), r.dialect = d →
        activeOrder r requested = .ok order → r.table.pagination.clampSize pageSize = size →
        walk (fun token => ofRequest r (some token) pageSize requested) (answer d c rows result) (rows.length + 1) []
          = some pages := by
  have perm := perm_arrange d c order rows
  have all : arrange d c order rows = [] ++ arrange d c order rows := rfl
  obtain ⟨pages, walked, flat⟩ := exists_walk_of_leaves h one room all leaves_nil
    (Nat.lt_succ_of_le perm.length_eq.le)
  refine ⟨pages, walked, flat, perm, strict_arrange h.ordered h.differ, ?_⟩
  rintro r pageSize requested rfl active rfl
  simpa only [ofRequest_eq active] using walked

/-! ## A walk over games -/

section Games

variable (d : Dialect) (direction : SortDirection)

/-- Games by their score in a direction, and among equals the first to come. -/
def ranking : List OrderTerm :=
  [{ field := "score", expression := Fragment.identifier d "game.score", direction },
    { field := "id", expression := Fragment.identifier d "game.id", nullable := false }]

/-- A game, by the values of its columns. -/
def game (score : Json) (id : Int) : Row where
  value
    | [_, _, .quoted _ column] => if column = Bytes.ofString "score" then score else .int id
    | _ => .null
  other _ := .unknown

/-- Three games, one without a score and two with the same. -/
def games : List Row := [game (.int 7) 3, game .null 1, game (.int 7) 2]

/-- Whole numbers compared as such. -/
def byNumber : Collation where
  equal _
    | .int a, .int b => a == b
    | _, _ => false
  below _
    | .int a, .int b => a < b
    | _, _ => false

/-- A game as the database returns it. -/
def returned (ρ : Row) : Json := .record ((ranking d direction).map fun t => (boundaryName t.field, t.valueIn ρ))

theorem orders_byNumber (e : List Token) {S : Json → Prop} (numbers : ∀ v, S v → ∃ n, v = .int n) :
    byNumber.Orders e S := by
  constructor
  · intro v w hv hw
    obtain ⟨m, rfl⟩ := numbers v hv
    obtain ⟨n, rfl⟩ := numbers w hw
    simp only [byNumber, decide_eq_true_eq, decide_eq_false_iff_not]
    omega
  · intro v w x hv hw hx
    obtain ⟨m, rfl⟩ := numbers v hv
    obtain ⟨n, rfl⟩ := numbers w hw
    obtain ⟨l, rfl⟩ := numbers x hx
    simp only [byNumber, decide_eq_true_eq]
    omega
  · intro v w hv hw
    obtain ⟨m, rfl⟩ := numbers v hv
    obtain ⟨n, rfl⟩ := numbers w hw
    simp only [byNumber, decide_eq_false_iff_not, beq_iff_eq]
    omega
  · intro v w x hv hw hx
    obtain ⟨m, rfl⟩ := numbers v hv
    obtain ⟨n, rfl⟩ := numbers w hw
    obtain ⟨l, rfl⟩ := numbers x hx
    simp only [byNumber, beq_iff_eq]
    omega

theorem valueIn_ranking {t : OrderTerm} (mem : t ∈ ranking d direction) (score : Json) (id : Int) :
    t.nullable = true ∧ t.valueIn (game score id) = score
      ∨ t.nullable = false ∧ t.valueIn (game score id) = .int id := by
  simp only [ranking, List.mem_cons, List.not_mem_nil, or_false] at mem
  rcases mem with rfl | rfl
  · refine .inl ⟨rfl, ?_⟩
    cases d <;> rfl
  · refine .inr ⟨rfl, ?_⟩
    cases d <;> rfl

theorem boundaryOf_returned (score : Json) (id : Int) :
    boundaryOf (ranking d direction) (returned d direction (game score id))
      = .record [("score", score), ("id", .int id)] := by
  cases d <;> rfl

theorem exists_game {ρ : Row} (mem : ρ ∈ games) : ∃ score id, ρ = game score id ∧ (score = .null ∨ score = .int 7) := by
  simp only [games, List.mem_cons, List.not_mem_nil, or_false] at mem
  rcases mem with rfl | rfl | rfl
  · exact ⟨_, _, rfl, .inr rfl⟩
  · exact ⟨_, _, rfl, .inl rfl⟩
  · exact ⟨_, _, rfl, .inr rfl⟩

theorem walkable_games : Walkable byNumber (ranking d direction) games (returned d direction) where
  distinct := (by decide +kernel : ([Bytes.ofString "score", Bytes.ofString "id"] : List Bytes).Nodup)
  operands := by
    simp only [ranking, List.forall_mem_cons]
    exact ⟨Fragment.isOperand_identifier _ _, Fragment.isOperand_identifier _ _, List.forall_mem_nil _⟩
  ordered := by
    intro t ht
    apply orders_byNumber
    rintro v ⟨⟨ρ, hρ, rfl⟩, present⟩
    obtain ⟨score, id, rfl, known⟩ := exists_game hρ
    rcases valueIn_ranking d direction ht score id with ⟨-, value⟩ | ⟨-, value⟩
    · rw [value] at present ⊢
      rcases known with rfl | rfl
      · cases present
      · exact ⟨7, rfl⟩
    · exact ⟨id, value⟩
  never := by
    intro t ht never ρ hρ
    obtain ⟨score, id, rfl, -⟩ := exists_game hρ
    rcases valueIn_ranking d direction ht score id with ⟨nullable, -⟩ | ⟨-, value⟩
    · rw [never] at nullable
      cases nullable
    · rw [value]
      rfl
  differ := by cases d <;> cases direction <;> decide +kernel
  returned := by
    intro ρ _ t ht
    have distinct : (((ranking d direction).map fun t => (boundaryName t.field, t.valueIn ρ)).map Prod.fst).Nodup :=
      (by decide +kernel : [boundaryName "score", boundaryName "id"].Nodup)
    have found := Json.get?_record distinct (List.mem_map_of_mem ht)
    unfold returned
    rw [found, Option.getD_some]
  survives := by
    simp only [games, List.forall_mem_cons, boundaryOf_returned]
    exact ⟨rfl, rfl, rfl, List.forall_mem_nil _⟩

end Games

/-- Games with their scores, as a table whose `id` identifies them. -/
def scores : Table where
  name := "game"
  base := "game"
  columns := [{ name := "id", type := .number, nullable := false }, { name := "score", type := .number }]

/-- Requests for the games by their score, one game a page, walk over all three in this order. -/
def WalksOver (d : Dialect) (direction : SortDirection) (sorted : List Row) : Prop :=
  ∃ r pages, Resolver.ofTable scores d = .ok r
    ∧ walk (fun token => ofRequest r (some token) (some 1) [{ field := "score", direction }, { field := "id" }])
      (answer d byNumber games (returned d direction)) 4 [] = some pages
    ∧ pages.flatten = sorted.map (returned d direction)

/-- SQLite has the game without a score at the end where the scores descend, and MySQL at the start where they ascend,
as both take null to be below every score. PostgreSQL takes it to be above, and has it at the start where they descend
and at the end where they ascend. -/
theorem exists_walk_games :
    WalksOver .sqlite .desc [game (.int 7) 2, game (.int 7) 3, game .null 1]
      ∧ WalksOver .mysql .asc [game .null 1, game (.int 7) 2, game (.int 7) 3]
      ∧ WalksOver .postgresql .desc [game .null 1, game (.int 7) 2, game (.int 7) 3]
      ∧ WalksOver .postgresql .asc [game (.int 7) 2, game (.int 7) 3, game .null 1] := by
  have one : (1 : Int64) ≤ 1 := by decide
  have room : (1 : Int64) < Int64.maxValue := by decide
  have walks {d : Dialect} {direction : SortDirection} {sorted : List Row} {r : Resolver}
      (hr : Resolver.ofTable scores d = .ok r) (same : r.dialect = d)
      (size : r.table.pagination.clampSize (some 1) = 1)
      (active : activeOrder r [{ field := "score", direction }, { field := "id" }] = .ok (ranking d direction))
      (perm : games.Perm sorted)
      (strict : sorted.Pairwise fun x y => precedes d byNumber (ranking d direction) x y = true) :
      WalksOver d direction sorted := by
    have walkable := walkable_games d direction
    obtain ⟨pages, -, flat, -, -, requests⟩ := exists_walk walkable one room
    refine ⟨r, pages, hr, requests r (some 1) _ same active size, ?_⟩
    rw [flat, arrange_eq walkable.ordered perm (fun ρ mem => perm.symm.subset mem) strict]
  have nullLast : ([game (.int 7) 3, game .null 1] ++ [game (.int 7) 2]).Perm
      ([game (.int 7) 2] ++ [game (.int 7) 3, game .null 1]) := List.perm_append_comm
  have nullFirst : ([game (.int 7) 3] ++ [game .null 1, game (.int 7) 2]).Perm
      ([game .null 1, game (.int 7) 2] ++ [game (.int 7) 3]) := List.perm_append_comm
  exact ⟨walks rfl rfl rfl rfl nullLast (by decide +kernel), walks rfl rfl rfl rfl nullFirst (by decide +kernel),
    walks rfl rfl rfl rfl nullFirst (by decide +kernel), walks rfl rfl rfl rfl nullLast (by decide +kernel)⟩

end Keyset

end TableQuery
