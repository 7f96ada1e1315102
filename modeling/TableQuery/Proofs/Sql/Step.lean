import TableQuery.Proofs.Sql.Connective
import TableQuery.Proofs.Sql.Placeholder

/-!
# Fragments in step

The text of a fragment and its values grow side by side but apart. A fragment is in step (`Fragment.InStep`) if it is
put together from values and quiet texts by the operations that build fragments. Then the question marks that are
read in its text are those of its values.

Some texts come from outside, as their author wrote them. A fragment is built from such texts (`Fragment.BuiltFrom`) if
there are only they beside values and quiet texts; it is in step if they are quiet.

## What is proved

`Fragment.MadeOf.matched`: the placeholders of a fragment in step stand where its values were put, as many as there are
values and in their order, and numbering them changes nothing else (`Fragment.Matched`).
-/

namespace TableQuery

/-! ## Pieces -/

/-- What a fragment is put together from: a text, or a bound value. -/
inductive Segment where
  | text (sql : Bytes)
  | value (v : Json)

namespace Segment

/-- What a segment adds to the text. -/
def sql : Segment → Bytes
  | text sql => sql
  | value _ => [Ascii.question]

/-- The value of a segment. -/
def value? : Segment → Option Json
  | text _ => none
  | value v => some v

/-- Where the values among segments are put, if the text of the segments begins at `start`. -/
def placesFrom (start : Nat) : List Segment → List Nat
  | [] => []
  | text sql :: rest => placesFrom (start + sql.length) rest
  | value _ :: rest => start :: placesFrom (start + 1) rest

/-- The text of segments with a dollar sign and its number in the place of each value, counted on from `index`. -/
def numberedFrom (index : Nat) : List Segment → Bytes
  | [] => []
  | text sql :: rest => sql ++ numberedFrom index rest
  | value _ :: rest => Ascii.dollar :: Bytes.ofNat (index + 1) ++ numberedFrom (index + 1) rest

/-- A segment that adds no placeholder but its own. -/
def IsQuiet : Segment → Prop
  | text sql => Placeholder.Quiet sql
  | value _ => True

/-- A segment that is one of these texts, or adds no placeholder but its own. -/
def IsAmong (texts : List Bytes) : Segment → Prop
  | text sql => Placeholder.Quiet sql ∨ sql ∈ texts
  | value _ => True

theorem IsAmong.isQuiet {texts : List Bytes} {segment : Segment} (among : segment.IsAmong texts)
    (quiet : ∀ text ∈ texts, Placeholder.Quiet text) : segment.IsQuiet := by
  cases segment with
  | text sql => exact among.elim id (quiet sql)
  | value v => trivial

section Quiet

variable {segments : List Segment}

theorem length_placesFrom (start : Nat) (segments : List Segment) :
    (placesFrom start segments).length = (segments.filterMap value?).length := by
  induction segments generalizing start with
  | nil => rfl
  | cons segment segments ih =>
    cases segment with
    | text sql => exact ih _
    | value v => exact congrArg Nat.succ (ih _)

/-- The placeholders of quiet segments stand where the values are put. -/
theorem positionsFrom_eq (quiet : ∀ segment ∈ segments, segment.IsQuiet) (start : Nat) :
    Placeholder.positionsFrom none start (segments.flatMap sql) = placesFrom start segments := by
  induction segments generalizing start with
  | nil => rfl
  | cons segment segments ih =>
    rw [List.forall_mem_cons] at quiet
    rw [List.flatMap_cons]
    cases segment with
    | text sql =>
      have text : Placeholder.Quiet sql := quiet.1
      exact text.positionsFrom_append.trans (ih quiet.2 _)
    | value v => exact congrArg (List.cons start) (ih quiet.2 _)

/-- Numbering the placeholders of quiet segments numbers their values. -/
theorem replaceFrom_eq (quiet : ∀ segment ∈ segments, segment.IsQuiet) (index : Nat) :
    Fragment.replaceFrom (fun i => Ascii.dollar :: Bytes.ofNat (i + 1)) none index (segments.flatMap sql)
      = numberedFrom index segments := by
  induction segments generalizing index with
  | nil => rfl
  | cons segment segments ih =>
    rw [List.forall_mem_cons] at quiet
    rw [List.flatMap_cons]
    cases segment with
    | text sql =>
      have text : Placeholder.Quiet sql := quiet.1
      refine (Placeholder.replaceFrom_append text.bare).trans ?_
      rw [text.closed, ih quiet.2]
      rfl
    | value v => exact congrArg (_ ++ ·) (ih quiet.2 _)

end Quiet

end Segment

/-! ## Fragments in step -/

namespace Fragment

/-- A fragment is put together from segments, in their order, by the operations that build fragments. -/
inductive MadeOf : Fragment → List Segment → Prop where
  | empty : MadeOf .empty []
  | text (sql : Bytes) : MadeOf (.text sql) [.text sql]
  | value (v : Json) : MadeOf (.value v) [.value v]
  | add {f : Fragment} {segments : List Segment} (made : MadeOf f segments) (sql : Bytes) :
      MadeOf (f.add sql) (segments ++ [.text sql])
  | bind {f : Fragment} {segments : List Segment} (made : MadeOf f segments) (v : Json) :
      MadeOf (f.bind v) (segments ++ [.value v])
  | append {f g : Fragment} {segments more : List Segment} (made : MadeOf f segments) (made' : MadeOf g more) :
      MadeOf (f ++ g) (segments ++ more)
  | wrapped {f : Fragment} {segments : List Segment} (made : MadeOf f segments) :
      MadeOf f.wrapped (.text [Ascii.leftParen] :: (segments ++ [.text [Ascii.rightParen]]))
  | withKind {f : Fragment} {segments : List Segment} (made : MadeOf f segments) (kind : Connective) :
      MadeOf (f.withKind kind) segments

/-- The placeholders of a fragment go with its values, both as the segments have them. -/
structure Matched (f : Fragment) (segments : List Segment) : Prop where
  text : f.sql = segments.flatMap Segment.sql
  values : f.params = segments.filterMap Segment.value?
  counted : (Placeholder.positions f.sql).length = f.params.length
  /-- The placeholders stand where the values were put, in the same order. -/
  placed : Placeholder.positions f.sql = Segment.placesFrom 0 segments
  /-- A dialect that numbers placeholders gets the numbers in their places, and the same text around them. -/
  numbered : f.render .postgresql = Segment.numberedFrom 0 segments
  /-- The others get the text as it is. -/
  others : ∀ d, d ≠ .postgresql → f.render d = f.sql

namespace MadeOf

variable {f : Fragment} {segments : List Segment}

/-- The text and the values of a fragment are those of its segments. -/
theorem text_and_values (made : f.MadeOf segments) :
    f.sql = segments.flatMap Segment.sql ∧ f.params = segments.filterMap Segment.value? := by
  induction made with
  | empty => exact ⟨rfl, rfl⟩
  | text sql => exact ⟨(List.append_nil sql).symm, rfl⟩
  | value v => exact ⟨rfl, rfl⟩
  | add _ sql ih =>
    constructor
    · rw [sql_add, ih.1, List.flatMap_append, List.flatMap_singleton, Segment.sql]
    · rw [params_add, ih.2, List.filterMap_append]
      exact (List.append_nil _).symm
  | bind _ v ih =>
    constructor
    · rw [sql_bind, ih.1, List.flatMap_append, List.flatMap_singleton, Segment.sql]
    · rw [params_bind, ih.2, List.filterMap_append]
      rfl
  | append _ _ ih ih' =>
    constructor
    · rw [sql_append, ih.1, ih'.1, List.flatMap_append]
    · rw [params_append, ih.2, ih'.2, List.filterMap_append]
  | wrapped _ ih =>
    constructor
    · unfold Fragment.wrapped
      rw [ih.1, List.flatMap_cons, List.flatMap_append, List.flatMap_singleton]
      rfl
    · unfold Fragment.wrapped
      rw [ih.2, List.filterMap_cons_none rfl, List.filterMap_append]
      exact (List.append_nil _).symm
  | withKind _ kind ih => exact ih

/-- In whatever way a fragment is put together from values and quiet texts, its placeholders go with its values. -/
theorem matched (made : f.MadeOf segments) (quiet : ∀ segment ∈ segments, segment.IsQuiet) : f.Matched segments := by
  obtain ⟨sql, params⟩ := made.text_and_values
  have placed : Placeholder.positions f.sql = Segment.placesFrom 0 segments := by
    rw [sql]
    exact Segment.positionsFrom_eq quiet 0
  refine ⟨sql, params, ?_, placed, ?_, ?_⟩
  · rw [placed, params, Segment.length_placesFrom]
  · unfold render replacePlaceholders
    rw [sql]
    exact Segment.replaceFrom_eq quiet 0
  · intro d other
    cases d with
    | postgresql => exact absurd rfl other
    | _ => rfl

end MadeOf

/-- A fragment can be put together from values and quiet texts. -/
def InStep (f : Fragment) : Prop := ∃ segments, f.MadeOf segments ∧ ∀ segment ∈ segments, segment.IsQuiet

/-- A fragment can be put together from values, quiet texts and these texts. -/
def BuiltFrom (f : Fragment) (texts : List Bytes) : Prop :=
  ∃ segments, f.MadeOf segments ∧ ∀ segment ∈ segments, segment.IsAmong texts

/-! ## Building -/

variable {texts : List Bytes} {f g : Fragment} {sql : Bytes}

theorem BuiltFrom.inStep (h : f.BuiltFrom texts) (quiet : ∀ text ∈ texts, Placeholder.Quiet text) : f.InStep := by
  obtain ⟨segments, made, among⟩ := h
  exact ⟨segments, made, fun segment mem => (among segment mem).isQuiet quiet⟩

theorem builtFrom_empty : empty.BuiltFrom texts := ⟨[], .empty, List.forall_mem_nil _⟩

theorem builtFrom_text (texts : List Bytes) (quiet : Placeholder.Quiet sql) : (text sql).BuiltFrom texts :=
  ⟨[.text sql], .text sql, List.forall_mem_singleton.mpr (.inl quiet)⟩

theorem builtFrom_text_of_mem (mem : sql ∈ texts) : (text sql).BuiltFrom texts :=
  ⟨[.text sql], .text sql, List.forall_mem_singleton.mpr (.inr mem)⟩

namespace BuiltFrom

theorem add (h : f.BuiltFrom texts) (quiet : Placeholder.Quiet sql) : (f.add sql).BuiltFrom texts := by
  obtain ⟨segments, made, steps⟩ := h
  exact ⟨_, made.add sql, List.forall_mem_append.mpr ⟨steps, List.forall_mem_singleton.mpr (.inl quiet)⟩⟩

theorem append (h : f.BuiltFrom texts) (h' : g.BuiltFrom texts) : (f ++ g).BuiltFrom texts := by
  obtain ⟨segments, made, steps⟩ := h
  obtain ⟨more, made', steps'⟩ := h'
  exact ⟨_, made.append made', List.forall_mem_append.mpr ⟨steps, steps'⟩⟩

end BuiltFrom

end Fragment

end TableQuery
