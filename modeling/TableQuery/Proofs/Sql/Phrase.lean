import TableQuery.Proofs.Sql.Nesting
import TableQuery.Proofs.Sql.Quoted
import TableQuery.Proofs.Sql.Seat
import TableQuery.Sql.Operator
import TableQuery.Sql.Order

/-!
# Wording

The texts that statements are written with are fixed words, names in quotes, and numbers: the phrases of a dialect
(`Phrase`). A fragment is worded in a dialect (`Fragment.WordedIn`) if it is put together from phrases, from some other
texts, and from values, which are put in their seats, in one of the rows that they may have. Each operation that builds
fragments keeps to the texts of what it is given, and has the rows of its parts one after the other, which is one lemma
for each.

What stands around a value may be put there by another operation than the one that binds it, so the wording of a part
is told between the texts that it will stand between (`Fragment.WordedAt`).

## What is proved

`Phrase.quiet`: phrases have no placeholders, whatever the names in them. So a fragment is built from the other texts
(`Fragment.WordedIn.builtFrom`). `Operator.wordedIn_apply` and `Comparison.wordedIn_apply`: what a filter or a
comparison makes of its sides has no other text but theirs, and its values are in the seats that the column, the sign
and the words make.
-/

namespace TableQuery

/-! ## Phrases -/

/-- The fixed words of statements: keywords, functions, types, signs and what stands between them. -/
def Phrase.words : List Bytes :=
  ["(", ")", ".", ", ", " ", " AND ", " OR ", "NOT ", "1=1", "1=0", "NULL",
    "=", "<>", ">", ">=", "<", "<=", "LIKE", "ILIKE", "IN", "NOT IN", " (", " ESCAPE '!'", " IS NULL",
    " IS NOT NULL", " BETWEEN ", "LOWER(", ") LIKE LOWER(", " ASC", " DESC",
    "SELECT ", "*", " AS ", " FROM ", " ON ", " = ", " WHERE ", " GROUP BY ", " HAVING ", " ORDER BY ", " LIMIT ",
    " OFFSET ", "LEFT JOIN", "RIGHT JOIN", "INNER JOIN", "FULL JOIN",
    "(SELECT count(*) FROM ", "EXISTS (SELECT 1 FROM ", "(SELECT row_to_json(", ") FROM (SELECT * FROM ",
    " LIMIT 1) ", "CAST(", "CHAR", "TEXT", "coalesce(", ", '')", "to_tsvector(CAST(", " AS regconfig), ",
    " || ' ' || ", ") @@ plainto_tsquery(CAST(", "count(*)", "count(", "sum(", "avg(", "min(", "max(",
    "WITH RECURSIVE ", " AS (SELECT ", ".*, 0 AS ", " UNION ALL SELECT ", ".*, ", " + 1", " || '/' || ",
    " INNER JOIN ", " < ", " SELECT * FROM "]

/-- The texts that a dialect's statements are written with: fixed words, names in its quotes, and numbers. -/
inductive Phrase (d : Dialect) : Bytes → Prop where
  | word {s : Bytes} (fixed : s ∈ Phrase.words) : Phrase d s
  | name (name : Bytes) : Phrase d (d.quoteName name)
  | number (n : Int) : Phrase d (Bytes.ofInt n)
  | append {s t : Bytes} (first : Phrase d s) (second : Phrase d t) : Phrase d (s ++ t)

namespace Phrase

variable {d : Dialect} {s : Bytes}

/-- A phrase has no placeholders, and closes its quotes. -/
theorem quiet (h : Phrase d s) : Placeholder.Quiet s := by
  have fixed : ∀ s ∈ words, Placeholder.Quiet s := by decide
  induction h with
  | word mem => exact fixed _ mem
  | name name => exact Placeholder.quiet_quoteName d name
  | number n => exact Placeholder.quiet_ofInt n
  | append _ _ first second => exact first.append second

theorem join {sep : UInt8} (between : Phrase d [sep]) {pieces : List Bytes} (some : pieces ≠ [])
    (h : ∀ piece ∈ pieces, Phrase d piece) : Phrase d (Bytes.join [sep] pieces) := by
  induction pieces with
  | nil => exact absurd rfl some
  | cons piece pieces ih =>
    rw [List.forall_mem_cons] at h
    cases pieces with
    | nil =>
      rw [Bytes.join, List.intercalate_singleton]
      exact h.1
    | cons next pieces =>
      rw [Bytes.join_cons_cons]
      exact .append h.1 (between.append (ih (List.cons_ne_nil next pieces) h.2))

/-- A dotted name is quoted part by part. -/
theorem identifier (dotted : Bytes) : Phrase d (d.quoteIdentifier dotted) := by
  refine join (.word (by decide)) ?_ ?_
  · exact List.map_eq_nil_iff.not.mpr (Bytes.splitOn_ne_nil Ascii.dot dotted)
  · rw [List.forall_mem_map]
    exact fun name _ => .name name

end Phrase

/-- A segment that is a phrase of a dialect, or one of these texts. -/
def Segment.IsWorded (d : Dialect) (texts : List Bytes) : Segment → Prop
  | text sql => Phrase d sql ∨ sql ∈ texts
  | value _ => True

theorem Segment.IsWorded.isAmong {d : Dialect} {texts : List Bytes} {segment : Segment}
    (worded : segment.IsWorded d texts) : segment.IsAmong texts := by
  cases segment with
  | text sql => exact worded.imp_left Phrase.quiet
  | value v => trivial

/-! ## Wording -/

namespace Fragment

/-- A fragment that stands between two texts can be put together from phrases of a dialect, these texts, and values in a
row of these seats. -/
def WordedAt (f : Fragment) (d : Dialect) (texts : List Bytes) (seats : Language Seat) (before after : Bytes) : Prop :=
  ∃ segments row, f.MadeOf segments ∧ (∀ segment ∈ segments, segment.IsWorded d texts) ∧ row ∈ seats
    ∧ Segment.Seated after before segments row

/-- So can a fragment wherever it stands: the seats of its values lie within it. -/
def WordedIn (f : Fragment) (d : Dialect) (texts : List Bytes) (seats : Language Seat) : Prop :=
  f.WordedAt d texts seats [] []

variable {d : Dialect} {texts : List Bytes} {seats seats' : Language Seat} {f g : Fragment} {sql before after : Bytes}

theorem WordedIn.builtFrom (h : f.WordedIn d texts seats) : f.BuiltFrom texts := by
  obtain ⟨segments, row, made, worded, -⟩ := h
  exact ⟨segments, made, fun segment mem => (worded segment mem).isAmong⟩

theorem WordedIn.at (h : f.WordedIn d texts seats) (before after : Bytes) :
    f.WordedAt d texts seats before after := by
  obtain ⟨segments, row, made, worded, mem, seated⟩ := h
  have around := seated.around before after
  rw [List.append_nil] at around
  exact ⟨segments, row, made, worded, mem, around⟩

theorem WordedIn.mono (h : f.WordedIn d texts seats) (among : ∀ row ∈ seats, row ∈ seats') :
    f.WordedIn d texts seats' := by
  obtain ⟨segments, row, made, worded, mem, seated⟩ := h
  exact ⟨segments, row, made, worded, among row mem, seated⟩

theorem WordedIn.params_eq {row : List Seat} (h : f.WordedIn d texts {row}) : f.params = row.map Seat.value := by
  obtain ⟨segments, other, made, -, same, seated⟩ := h
  rw [made.text_and_values.2, seated.values, same]

/-- A row that is known is one of the rows that there may be. -/
theorem WordedIn.of_row {row : List Seat} (h : f.WordedIn d texts {row}) (mem : row ∈ seats) :
    f.WordedIn d texts seats := by
  refine h.mono fun other same => ?_
  rw [same]
  exact mem

/-- What may be left out adds its rows to those that there may be. -/
theorem WordedIn.mul_of_nil_mem (h : f.WordedIn d texts seats) (mem : [] ∈ seats') :
    f.WordedIn d texts (seats * seats') := by
  refine h.mono fun row here => ?_
  rw [← List.append_nil row]
  exact Language.append_mem_mul here mem

/-- A fragment without text has no values. -/
theorem WordedIn.nil_mem (h : f.WordedIn d texts seats) (none : f.isEmpty = true) : [] ∈ seats := by
  obtain ⟨segments, row, made, worded, mem, seated⟩ := h
  have nothing : segments.flatMap Segment.sql = [] := by
    rw [← made.text_and_values.1]
    exact List.isEmpty_iff.mp none
  rw [← seated.eq_nil nothing]
  exact mem

/-! ## Building -/

theorem wordedIn_empty : empty.WordedIn d texts 1 :=
  ⟨[], [], .empty, List.forall_mem_nil _, Language.nil_mem_one, .nil _⟩

theorem wordedIn_text (texts : List Bytes) (phrase : Phrase d sql) : (text sql).WordedIn d texts 1 :=
  ⟨[.text sql], [], .text sql, List.forall_mem_singleton.mpr (.inl phrase), Language.nil_mem_one, .text sql (.nil _)⟩

theorem wordedIn_text_of_mem (mem : sql ∈ texts) : (text sql).WordedIn d texts 1 :=
  ⟨[.text sql], [], .text sql, List.forall_mem_singleton.mpr (.inr mem), Language.nil_mem_one, .text sql (.nil _)⟩

theorem wordedIn_identifier (d : Dialect) (dotted : Bytes) : (identifier d dotted).WordedIn d texts 1 :=
  wordedIn_text texts (.identifier dotted)

/-- Trusted SQL is among the texts in its parentheses. -/
theorem wordedIn_trusted {t : TrustedSql} (mem : (trusted t).sql ∈ texts) : (trusted t).WordedIn d texts 1 :=
  wordedIn_text_of_mem mem

/-- A value stands where its seat is. -/
theorem wordedAt_value (seat : Seat) (ends : seat.before <:+ before) (starts : seat.after <+: after) :
    (value seat.value).WordedAt d texts {[seat]} before after :=
  ⟨[.value seat.value], [seat], .value _, List.forall_mem_singleton.mpr trivial, rfl, .value ends starts (.nil _)⟩

namespace WordedAt

theorem append (h : f.WordedAt d texts seats before (g.sql ++ after))
    (h' : g.WordedAt d texts seats' (before ++ f.sql) after) :
    (f ++ g).WordedAt d texts (seats * seats') before after := by
  obtain ⟨segments, row, made, worded, mem, seated⟩ := h
  obtain ⟨more, others, made', worded', mem', seated'⟩ := h'
  rw [made'.text_and_values.1] at seated
  rw [made.text_and_values.1] at seated'
  exact ⟨_, _, made.append made', List.forall_mem_append.mpr ⟨worded, worded'⟩, Language.append_mem_mul mem mem',
    seated.append seated'⟩

theorem add (h : f.WordedAt d texts seats before (sql ++ after)) (phrase : Phrase d sql) :
    (f.add sql).WordedAt d texts seats before after := by
  obtain ⟨segments, row, made, worded, mem, seated⟩ := h
  exact ⟨_, row, made.add sql, List.forall_mem_append.mpr ⟨worded, List.forall_mem_singleton.mpr (.inl phrase)⟩, mem,
    seated.add⟩

theorem bind (h : f.WordedAt d texts seats before (Ascii.question :: after)) (seat : Seat)
    (ends : seat.before <:+ before ++ f.sql) (starts : seat.after <+: after) :
    (f.bind seat.value).WordedAt d texts (seats * {[seat]}) before after := by
  obtain ⟨segments, row, made, worded, mem, seated⟩ := h
  rw [made.text_and_values.1] at ends
  exact ⟨_, _, made.bind _, List.forall_mem_append.mpr ⟨worded, List.forall_mem_singleton.mpr trivial⟩,
    Language.append_mem_mul mem rfl, seated.append (.value ends starts (.nil _))⟩

end WordedAt

namespace WordedIn

theorem add (h : f.WordedIn d texts seats) (phrase : Phrase d sql) : (f.add sql).WordedIn d texts seats :=
  (h.at [] _).add phrase

theorem append (h : f.WordedIn d texts seats) (h' : g.WordedIn d texts seats') :
    (f ++ g).WordedIn d texts (seats * seats') :=
  (h.at [] _).append (h'.at _ [])

/-- What has no values adds no seats. -/
theorem behind (h : f.WordedIn d texts seats) (h' : g.WordedIn d texts 1) : (g ++ f).WordedIn d texts seats := by
  rw [← one_mul seats]
  exact h'.append h

/-- A value is bound behind the text of its seat. -/
theorem bind (h : f.WordedIn d texts seats) {text : Bytes} (v : Json) (ends : text <:+ f.sql) :
    (f.bind v).WordedIn d texts (seats * {[⟨text, v, []⟩]}) :=
  (h.at [] _).bind ⟨text, v, []⟩ ends (List.prefix_refl _)

theorem wrapped (h : f.WordedIn d texts seats) : f.wrapped.WordedIn d texts seats := by
  obtain ⟨segments, row, made, worded, mem, seated⟩ := h
  have opening : Phrase d [Ascii.leftParen] := .word (by decide)
  have closing : Phrase d [Ascii.rightParen] := .word (by decide)
  refine ⟨_, row, made.wrapped, List.forall_mem_cons.mpr ⟨.inl opening, ?_⟩, mem, ?_⟩
  · exact List.forall_mem_append.mpr ⟨worded, List.forall_mem_singleton.mpr (.inl closing)⟩
  · have inside : Segment.Seated ([Ascii.rightParen] ++ []) ([] ++ [Ascii.leftParen]) segments row :=
      seated.around [Ascii.leftParen] [Ascii.rightParen]
    exact .text _ inside.add

theorem withKind (h : f.WordedIn d texts seats) (kind : Connective) : (f.withKind kind).WordedIn d texts seats := by
  obtain ⟨segments, row, made, worded, seated⟩ := h
  exact ⟨segments, row, made.withKind kind, worded, seated⟩

end WordedIn

/-! ## Lists and conditions -/

/-- The fragments of a list are worded, each with rows of its own. -/
def AllWordedIn (parts : List Fragment) (d : Dialect) (texts : List Bytes) (rows : List (Language Seat)) : Prop :=
  List.Forall₂ (fun f seats => f.WordedIn d texts seats) parts rows

variable {parts : List Fragment} {rows : List (Language Seat)}

theorem AllWordedIn.builtFrom (h : AllWordedIn parts d texts rows) : ∀ f ∈ parts, f.BuiltFrom texts := by
  induction h with
  | nil => exact List.forall_mem_nil _
  | cons worded _ ih => exact List.forall_mem_cons.mpr ⟨worded.builtFrom, ih⟩

theorem allWordedIn_map {α : Type} {items : List α} {part : α → Fragment} {own : α → Language Seat}
    (h : ∀ a ∈ items, (part a).WordedIn d texts (own a)) : AllWordedIn (items.map part) d texts (items.map own) := by
  unfold AllWordedIn
  rw [List.forall₂_map_left_iff, List.forall₂_map_right_iff, List.forall₂_same]
  exact h

theorem wordedIn_join {separator : Bytes} (phrase : Phrase d separator) (h : AllWordedIn parts d texts rows) :
    (join separator parts).WordedIn d texts rows.prod := by
  -- What has been joined so far has the seats of the parts so far.
  have more {parts : List Fragment} {rows : List (Language Seat)} (h : AllWordedIn parts d texts rows) {f : Fragment}
      {seats : Language Seat} (first : f.WordedIn d texts seats) :
      (parts.foldl (fun acc g => acc.add separator ++ g) f).WordedIn d texts (seats * rows.prod) := by
    induction h generalizing f seats with
    | nil =>
      rw [List.prod_nil, mul_one]
      exact first
    | cons part _ ih =>
      rw [List.prod_cons, ← mul_assoc]
      exact ih ((first.add phrase).append part)
  cases h with
  | nil => exact wordedIn_empty
  | cons part rest =>
    rw [List.prod_cons]
    exact more rest (part.behind wordedIn_empty)

theorem wordedIn_guarded (wraps : Connective) (h : f.WordedIn d texts seats) :
    (guarded wraps f).WordedIn d texts seats := by
  unfold guarded
  split_ifs
  · exact h.wrapped
  · exact h

/-- The parts that are left out have no values. -/
theorem AllWordedIn.exists_present (h : AllWordedIn parts d texts rows) :
    ∃ left, AllWordedIn (present parts) d texts left ∧ ∀ row ∈ left.prod, row ∈ rows.prod := by
  induction h with
  | nil => exact ⟨[], .nil, fun row mem => mem⟩
  | @cons f seats parts rows worded _ ih =>
    obtain ⟨left, kept, among⟩ := ih
    cases none : f.isEmpty with
    | true =>
      rw [present_cons_of_isEmpty none]
      refine ⟨left, kept, fun row mem => ?_⟩
      rw [List.prod_cons]
      exact Language.append_mem_mul (worded.nil_mem none) (among row mem)
    | false =>
      rw [present_cons_of_filled none]
      refine ⟨seats :: left, .cons worded kept, fun row mem => ?_⟩
      rw [List.prod_cons] at mem ⊢
      obtain ⟨first, hfirst, rest, hrest, rfl⟩ := Language.mem_mul.mp mem
      exact Language.append_mem_mul hfirst (among rest hrest)

theorem wordedIn_combine {op : Bytes} {kind wraps : Connective} (phrase : Phrase d op)
    (h : AllWordedIn parts d texts rows) : (combine op kind wraps parts).WordedIn d texts rows.prod := by
  obtain ⟨left, kept, among⟩ := h.exists_present
  have beside : AllWordedIn ((present parts).map (guarded wraps)) d texts left :=
    List.forall₂_map_left_iff.mpr (kept.imp fun _ _ => wordedIn_guarded wraps)
  refine WordedIn.mono ?_ among
  cases shown : present parts with
  | nil =>
    rw [shown] at kept
    cases kept
    rw [combine_nil shown]
    exact wordedIn_empty
  | cons f rest =>
    cases rest with
    | nil =>
      rw [shown] at kept
      obtain ⟨_, _, first, none, rfl⟩ := List.forall₂_cons_left_iff.mp kept
      cases none
      rw [combine_singleton shown, List.prod_singleton]
      exact first
    | cons g fs =>
      rw [shown] at beside
      rw [combine_cons_cons shown]
      exact (wordedIn_join phrase beside).withKind kind

/-- All of the conditions have their seats one after the other. -/
theorem wordedIn_all (h : AllWordedIn parts d texts rows) : (all parts).WordedIn d texts rows.prod :=
  wordedIn_combine (.word (by decide)) h

theorem wordedIn_any (h : AllWordedIn parts d texts rows) : (any parts).WordedIn d texts rows.prod :=
  wordedIn_combine (.word (by decide)) h

theorem wordedIn_not (h : f.WordedIn d texts seats) : f.not.WordedIn d texts seats := by
  unfold Fragment.not
  split
  · next none => exact wordedIn_empty.of_row (h.nil_mem none)
  · exact h.wrapped.behind (wordedIn_text texts (.word (by decide)))

theorem wordedIn_alwaysTrue : alwaysTrue.WordedIn d texts 1 := wordedIn_text texts (.word (by decide))

theorem wordedIn_alwaysFalse : alwaysFalse.WordedIn d texts 1 := wordedIn_text texts (.word (by decide))

end Fragment

/-! ## Operators -/

variable {texts : List Bytes} {own : Language Seat} {e : Fragment} {value : Json} {d : Dialect}

namespace Operator

theorem spaced_append (op rest : Bytes) :
    spaced op ++ rest = Bytes.ofString " " ++ (op ++ (Bytes.ofString " " ++ rest)) := by
  simp only [spaced, List.cons_append, List.append_assoc]
  rfl

theorem sql_spaced (f : Fragment) (op : Bytes) : (((f.add " ").add op).add " ").sql = f.sql ++ spaced op := by
  simp only [Fragment.sql_add, List.append_assoc]
  rfl

theorem wordedIn_binary {sign : Bytes} (phrase : Phrase d sign) (h : e.WordedIn d texts own) :
    (binary e sign value).WordedIn d texts (oneSeat own e.sql (spaced sign) value) := by
  refine (((h.add (.word (by decide))).add phrase).add (.word (by decide))).bind value ?_
  rw [sql_spaced]

/-- The values of a list have their seats in its order: behind the places of those before, and in front of the rest. -/
theorem wordedAt_values {values : List Json} {before after : Bytes} :
    (Fragment.join ", " (values.map Fragment.value)).WordedAt d texts {Seat.members after before values} before
      after := by
  -- What has been written of the list so far, with a separator, is the places of its values.
  have more {values : List Json} {f : Fragment} {seats : Language Seat} {written : Bytes}
      (h : f.WordedAt d texts seats before ((values.flatMap fun _ => ", ?") ++ after))
      (same : before ++ f.sql ++ ", " = written) :
      ((values.map Fragment.value).foldl (fun acc g => acc.add ", " ++ g) f).WordedAt d texts
        (seats * {Seat.members after written values}) before after := by
    induction values generalizing f seats written with
    | nil =>
      have none : ({Seat.members after written []} : Language Seat) = 1 := rfl
      rw [none, mul_one]
      exact h
    | cons v values ih =>
      let seat : Seat := ⟨written, v, (values.flatMap fun _ => ", ?") ++ after⟩
      have place : (Fragment.value v).WordedAt d texts {[seat]} (before ++ (f.add ", ").sql) seat.after := by
        refine Fragment.wordedAt_value seat ?_ (List.prefix_refl _)
        rw [Fragment.sql_add, ← List.append_assoc, same]
      rw [Seat.members, Seat.singleton_cons, ← mul_assoc]
      refine ih (.append (.add h (.word (by decide))) place) ?_
      rw [Fragment.sql_append, Fragment.sql_add, ← List.append_assoc, ← List.append_assoc, same, List.append_assoc]
      rfl
  cases values with
  | nil => exact Fragment.wordedIn_empty.at before after
  | cons v values =>
    let seat : Seat := ⟨before, v, (values.flatMap fun _ => ", ?") ++ after⟩
    have first : (Fragment.value v).WordedAt d texts {[seat]} (before ++ []) seat.after :=
      Fragment.wordedAt_value seat (by rw [List.append_nil]) (List.prefix_refl _)
    have begun := Fragment.WordedAt.append (Fragment.wordedIn_empty.at before _) first
    rw [one_mul] at begun
    rw [Seat.members, Seat.singleton_cons]
    exact more begun (List.append_assoc before _ _)

theorem wordedIn_valueList {keyword : Bytes} (phrase : Phrase d keyword) (h : e.WordedIn d texts own)
    (values : List Json) :
    (valueList e keyword values).WordedIn d texts
      (own * {Seat.members ")" (e.sql ++ (spaced keyword ++ "(")) values}) := by
  have opened := ((h.add (.word (by decide) : Phrase d " ")).add phrase).add (.word (by decide) : Phrase d " (")
  have written : (((e.add " ").add keyword).add " (").sql = e.sql ++ (spaced keyword ++ "(") := by
    rw [Fragment.sql_add, Fragment.sql_add, Fragment.sql_add, spaced_append]
    simp only [List.append_assoc]
    rfl
  have list : (Fragment.join ", " (values.map Fragment.value)).WordedAt d texts
      {Seat.members ")" (e.sql ++ (spaced keyword ++ "(")) values} (((e.add " ").add keyword).add " (").sql ")" := by
    rw [written]
    exact wordedAt_values
  exact Fragment.WordedAt.add (.append (opened.at [] _) list) (.word (by decide))

end Operator

theorem Pattern.wordedIn_condition (h : e.WordedIn d texts own) (pattern : Bytes) :
    (Pattern.condition e d pattern).WordedIn d texts
      (own * {[⟨e.sql ++ Operator.patternSign d, .str pattern, " ESCAPE '!'"⟩]}) := by
  have like : Phrase d d.anyCaseLike := .word (by cases d <;> decide)
  have sign : Operator.patternSign d = spaced d.anyCaseLike := by cases d <;> rfl
  have column := ((h.add (.word (by decide) : Phrase d " ")).add like).add (.word (by decide) : Phrase d " ")
  refine ((column.at [] _).bind ⟨_, _, _⟩ ?_ (List.prefix_refl _)).add (.word (by decide))
  rw [sign, Operator.sql_spaced]
  exact List.suffix_refl _

/-- Whatever an operator makes of a column and a value has no text but the column's, and its values are in the seats of
the filter. -/
theorem Operator.wordedIn_apply {op : Operator} {field : Bytes} {f : Fragment} (h : e.WordedIn d texts own)
    (made : op.apply e value d field = .ok f) : f.WordedIn d texts (op.seats d own e.sql value) := by
  cases op with
  | eq =>
    cases made
    unfold seats
    split_ifs
    · exact h.add (.word (by decide))
    · exact wordedIn_binary (.word (by decide)) h
  | neq =>
    cases made
    unfold seats
    split_ifs
    · exact h.add (.word (by decide))
    · exact wordedIn_binary (.word (by decide)) h
  | gt | gte | lt | lte | like =>
    cases made
    exact wordedIn_binary (.word (by decide)) h
  | ilike =>
    obtain ⟨-, -, made⟩ := Checked.bind_eq_ok.mp made
    cases made
    exact wordedIn_binary (.word (by decide)) h
  | isIn =>
    obtain ⟨values, array, made⟩ := Checked.bind_eq_ok.mp made
    cases made
    rw [requireArray_eq_ok.mp array]
    cases values with
    | nil => exact Fragment.wordedIn_alwaysFalse
    | cons v values => exact wordedIn_valueList (.word (by decide)) h (v :: values)
  | notIn =>
    obtain ⟨values, array, made⟩ := Checked.bind_eq_ok.mp made
    cases made
    rw [requireArray_eq_ok.mp array]
    cases values with
    | nil => exact Fragment.wordedIn_alwaysTrue
    | cons v values => exact wordedIn_valueList (.word (by decide)) h (v :: values)
  | between =>
    obtain ⟨values, array, made⟩ := Checked.bind_eq_ok.mp made
    rw [requireArray_eq_ok.mp array]
    split at made
    · next low high =>
      cases made
      have column : (e.add " BETWEEN ").WordedIn d texts own := h.add (.word (by decide))
      have lower := (column.at [] _).bind ⟨e.sql ++ " BETWEEN ", low, " AND ?"⟩ (List.suffix_refl _)
        (List.prefix_refl _)
      have between : e.sql ++ Bytes.ofString " BETWEEN ? AND "
          <:+ (((e.add " BETWEEN ").bind low).add " AND ").sql := by
        simp only [Fragment.sql_add, Fragment.sql_bind, List.append_assoc]
        exact List.suffix_refl _
      have both := (lower.add (.word (by decide) : Phrase d " AND ")).bind ⟨e.sql ++ " BETWEEN ? AND ", high, []⟩
        between (List.prefix_refl _)
      rw [mul_assoc, ← Seat.singleton_cons] at both
      exact both
    · cases made
  | isNull | isNotNull =>
    cases made
    exact h.add (.word (by decide))
  | contains | startsWith | endsWith =>
    obtain ⟨text, given, made⟩ := Checked.bind_eq_ok.mp made
    cases made
    rw [requireText_eq_ok.mp given]
    exact Pattern.wordedIn_condition h _

/-- A comparison has no text but those of its sides, which stand in its frame. -/
theorem Comparison.wordedIn_apply (op : Comparison) {left right : Fragment} {first second : Language Seat}
    (hl : left.WordedAt d texts first (op.frame d).opening
      ((op.frame d).between ++ right.sql ++ (op.frame d).closing))
    (hr : right.WordedAt d texts second ((op.frame d).opening ++ left.sql ++ (op.frame d).between)
      (op.frame d).closing) :
    (op.apply left right d).WordedIn d texts (first * second) := by
  have infixed {sign : Bytes} (phrase : Phrase d sign) (framed : op.frame d = { between := spaced sign }) :
      (((left.add " ").add sign).add " " ++ right).WordedIn d texts (first * second) := by
    rw [framed, List.append_assoc, Operator.spaced_append] at hl
    rw [framed, List.nil_append, ← Operator.sql_spaced] at hr
    exact Fragment.WordedAt.append (.add (.add (.add hl (.word (by decide))) phrase) (.word (by decide))) hr
  have lowered (framed : op.frame d = { opening := "LOWER(", between := ") LIKE LOWER(", closing := ")" }) :
      (((Fragment.text "LOWER(" ++ left).add ") LIKE LOWER(" ++ right).add ")").WordedIn d texts (first * second) := by
    rw [framed, List.append_assoc] at hl
    rw [framed] at hr
    have opened := Fragment.wordedIn_text texts (.word (by decide) : Phrase d "LOWER(")
    have first := Fragment.WordedAt.append (opened.at [] _) hl
    rw [one_mul] at first
    exact Fragment.WordedAt.add (.append (.add first (.word (by decide))) hr) (.word (by decide))
  cases op with
  | ilike =>
    cases d with
    | postgresql => exact infixed (.word (by decide)) rfl
    | _ => exact lowered rfl
  | _ => exact infixed (.word (by decide)) rfl

namespace OrderTerm

theorem phrase_keyword (d : Dialect) (direction : SortDirection) : Phrase d direction.keyword :=
  .word (by cases direction <;> decide)

variable {terms : List OrderTerm} {own : Fragment → Language Seat}
variable (h : ∀ t ∈ terms, t.expression.WordedIn d texts (own t.expression))
include h

theorem wordedIn_terms :
    Fragment.AllWordedIn (terms.map fun t => t.expression.add t.direction.keyword) d texts
      (terms.map fun t => own t.expression) :=
  Fragment.allWordedIn_map fun t mem => (h t mem).add (phrase_keyword d t.direction)

theorem wordedIn_listToSql :
    (OrderTerm.listToSql terms).WordedIn d texts (terms.map fun t => own t.expression).prod :=
  Fragment.wordedIn_join (.word (by decide)) (wordedIn_terms h)

end OrderTerm

end TableQuery
