import TableQuery.Proofs.Sql.Step

/-!
# Texts from outside in a statement

Trusted SQL is put into a statement as it was written. A dialect that numbers its placeholders has the finished text
read once more, and this reading does not know who wrote what: it takes a question mark outside of quotes for a
placeholder wherever it stands. So a text from outside that has one, say as an operator, comes out changed, and every
value after it gets a number too high.

A text that closes the quotes it opens changes nothing else: what is before it and after it is read as if it were not
there, but for the count.

## What is proved

`Fragment.MadeOf.rendered_iff`: the texts come out as they are and the values with their numbers just if the
placeholders of the whole text stand where the values were put. `Fragment.MadeOf.rendered_of_closed`: what comes out in
any case, if each text closes its quotes, and that this is the one just if no text has a placeholder.
-/

namespace TableQuery

/-! ## Reading on -/

namespace Placeholder

variable {quote : Option UInt8} {start : Nat} {s t : Bytes} {replacement : Nat → Bytes}

/-- A text that closes each quote it opens. -/
def Closed (s : Bytes) : Prop := quoteAfter none s = none

instance (s : Bytes) : Decidable (Closed s) := inferInstanceAs (Decidable (_ = _))

theorem Closed.append (hs : Closed s) (ht : Closed t) : Closed (s ++ t) := by
  unfold Closed at hs ht ⊢
  rw [quoteAfter_append, hs, ht]

theorem le_of_mem_positionsFrom {i : Nat} (mem : i ∈ positionsFrom quote start s) : start ≤ i := by
  obtain ⟨k, rfl, -, -⟩ := mem_positionsFrom.mp mem
  exact Nat.le_add_right _ _

/-- A byte that is read is replaced if it is a placeholder, and counted then. -/
theorem replaceFrom_cons (index : Nat) (b : UInt8) :
    Fragment.replaceFrom replacement quote index (b :: s)
      = (if isPlaceholder quote b then replacement index else [b])
        ++ Fragment.replaceFrom replacement (quoteStep quote b) (index + if isPlaceholder quote b then 1 else 0) s := by
  cases quote with
  | some q => rfl
  | none =>
    unfold isPlaceholder quoteStep
    rw [Fragment.replaceFrom]
    by_cases opens : Fragment.isQuote b = true
    · have other : (b == Ascii.question) = false := by
        rw [beq_eq_false_iff_ne]
        rintro rfl
        cases opens
      simp [opens, other]
    · by_cases question : (b == Ascii.question) = true
      · simp [opens, question]
      · simp [opens, question]

/-- A text is read on after another one with the quote that is open then, and counted on from its placeholders. -/
theorem replaceFrom_append_eq (start index : Nat) :
    Fragment.replaceFrom replacement quote index (s ++ t)
      = Fragment.replaceFrom replacement quote index s
        ++ Fragment.replaceFrom replacement (quoteAfter quote s) (index + (positionsFrom quote start s).length) t := by
  induction s generalizing quote start index with
  | nil => rfl
  | cons b s ih =>
    have after : quoteAfter quote (b :: s) = quoteAfter (quoteStep quote b) s := rfl
    have counted : ((if isPlaceholder quote b then [start] else []) : List Nat).length
        = if isPlaceholder quote b then 1 else 0 := by
      split_ifs <;> rfl
    rw [List.cons_append, replaceFrom_cons, replaceFrom_cons, ih (start + 1), after, positionsFrom, List.length_append,
      counted, List.append_assoc, Nat.add_assoc]

/-- The first placeholder of a text that has any. -/
theorem exists_first (some : positionsFrom quote 0 s ≠ []) :
    ∃ before after, s = before ++ Ascii.question :: after ∧ positionsFrom quote 0 before = []
      ∧ quoteAfter quote before = none := by
  induction s generalizing quote with
  | nil => exact absurd rfl some
  | cons b s ih =>
    by_cases head : isPlaceholder quote b = true
    · unfold isPlaceholder at head
      rw [Bool.and_eq_true, Option.isNone_iff_eq_none, beq_iff_eq] at head
      obtain ⟨rfl, rfl⟩ := head
      exact ⟨[], s, rfl, rfl, rfl⟩
    · have later : positionsFrom (quoteStep quote b) 0 s ≠ [] := by
        intro none
        refine some ?_
        rw [positionsFrom, if_neg head, positionsFrom_eq_nil none]
        rfl
      obtain ⟨before, after, rfl, bare, closed⟩ := ih later
      refine ⟨b :: before, after, rfl, ?_, closed⟩
      rw [positionsFrom, if_neg head, positionsFrom_eq_nil bare]
      rfl

/-- What a numbered placeholder is replaced by. -/
def number (index : Nat) : Bytes := Ascii.dollar :: Bytes.ofNat (index + 1)

end Placeholder

open Placeholder

/-! ## Segments as they are rendered -/

namespace Segment

variable {quote : Option UInt8} {segments : List Segment}

theorem le_of_mem_placesFrom {start i : Nat} (mem : i ∈ placesFrom start segments) : start ≤ i := by
  induction segments generalizing start with
  | nil => cases mem
  | cons segment segments ih =>
    cases segment with
    | text sql => exact (Nat.le_add_right _ _).trans (ih mem)
    | value v =>
      rcases List.mem_cons.mp mem with rfl | mem
      · exact Nat.le_refl _
      · exact (Nat.le_succ _).trans (ih mem)

/-- A placeholder of a text is not where a value is put. -/
theorem positionsFrom_ne_of_text {sql rest : Bytes} (some : positionsFrom quote 0 sql ≠ []) (start : Nat) :
    positionsFrom quote start (sql ++ rest) ≠ placesFrom (start + sql.length) segments := by
  intro same
  obtain ⟨before, after, rfl, -, closed⟩ := exists_first some
  have found : start + before.length ∈ positionsFrom quote start (before ++ Ascii.question :: after ++ rest) := by
    rw [mem_positionsFrom]
    exact ⟨before.length, rfl, by simp, by simpa using closed⟩
  rw [same] at found
  have bound := le_of_mem_placesFrom found
  rw [List.length_append, List.length_cons] at bound
  omega

/-- Texts come out as they are, and values with their numbers, just if the placeholders stand where the values are
put. Up to the first difference, both count the same. -/
theorem replaceFrom_eq_numberedFrom_iff (quote : Option UInt8) (start index : Nat) (segments : List Segment) :
    Fragment.replaceFrom number quote index (segments.flatMap sql) = numberedFrom index segments
      ↔ positionsFrom quote start (segments.flatMap sql) = placesFrom start segments := by
  induction segments generalizing quote start index with
  | nil => exact iff_of_true rfl rfl
  | cons segment segments ih =>
    rw [List.flatMap_cons]
    cases segment with
    | text text =>
      show Fragment.replaceFrom number quote index (text ++ _) = text ++ numberedFrom index segments
        ↔ positionsFrom quote start (text ++ _) = placesFrom (start + text.length) segments
      by_cases bare : positionsFrom quote 0 text = []
      · rw [replaceFrom_append bare, List.append_cancel_left_eq, positionsFrom_append, positionsFrom_eq_nil bare,
          List.nil_append]
        exact ih _ _ index
      · refine iff_of_false (fun same => ?_) (positionsFrom_ne_of_text bare start)
        obtain ⟨before, after, rfl, none, closed⟩ := exists_first bare
        rw [List.append_assoc, replaceFrom_append none, closed, List.append_assoc, List.append_cancel_left_eq,
          List.cons_append, replaceFrom_cons] at same
        cases (List.cons.inj same).1
    | value v =>
      show Fragment.replaceFrom number quote index (Ascii.question :: _)
          = number index ++ numberedFrom (index + 1) segments
        ↔ positionsFrom quote start (Ascii.question :: _) = start :: placesFrom (start + 1) segments
      rw [replaceFrom_cons, positionsFrom]
      cases quote with
      | none =>
        show number index ++ _ = _ ↔ start :: _ = _
        rw [List.append_cancel_left_eq, List.cons_inj_right]
        exact ih _ _ _
      | some q =>
        refine iff_of_false (fun same => ?_) fun same => ?_
        · cases (List.cons.inj same).1
        · replace same : positionsFrom (quoteStep (some q) Ascii.question) (start + 1) (segments.flatMap sql)
              = start :: placesFrom (start + 1) segments := same
          have bound := le_of_mem_positionsFrom (same ▸ List.mem_cons_self : start ∈ _)
          omega

/-- What comes out of segments whose texts close their quotes: in each text its own placeholders are numbered too, and
counted. -/
def renderedFrom (index : Nat) : List Segment → Bytes
  | [] => []
  | text sql :: rest =>
    Fragment.replaceFrom number none index sql ++ renderedFrom (index + (positions sql).length) rest
  | value _ :: rest => number index ++ renderedFrom (index + 1) rest

section Closed

variable (closed : ∀ sql, text sql ∈ segments → Closed sql)
include closed

theorem replaceFrom_eq_renderedFrom (index : Nat) :
    Fragment.replaceFrom number none index (segments.flatMap sql) = renderedFrom index segments := by
  induction segments generalizing index with
  | nil => rfl
  | cons segment segments ih =>
    have rest := ih fun sql mem => closed sql (List.mem_cons_of_mem _ mem)
    rw [List.flatMap_cons]
    cases segment with
    | text text =>
      have here : Closed text := closed text List.mem_cons_self
      show Fragment.replaceFrom number none index (text ++ _)
        = _ ++ renderedFrom (index + (positions text).length) segments
      rw [replaceFrom_append_eq 0, here, rest]
      rfl
    | value v =>
      show Fragment.replaceFrom number none index (Ascii.question :: _)
        = number index ++ renderedFrom (index + 1) segments
      rw [replaceFrom_cons, ← rest]
      rfl

/-- The placeholders stand where the values are put just if no text has one. -/
theorem positionsFrom_eq_placesFrom_iff (start : Nat) :
    positionsFrom none start (segments.flatMap sql) = placesFrom start segments
      ↔ ∀ sql, text sql ∈ segments → positions sql = [] := by
  constructor
  · intro same
    induction segments generalizing start with
    | nil => exact fun sql mem => nomatch mem
    | cons segment segments ih =>
      have rest := ih fun sql mem => closed sql (List.mem_cons_of_mem _ mem)
      rw [List.flatMap_cons] at same
      cases segment with
      | text text =>
        have bare : positions text = [] := by
          by_contra some
          exact positionsFrom_ne_of_text some start same
        have here : Closed text := closed text List.mem_cons_self
        change positionsFrom none start (text ++ _) = _ at same
        rw [positionsFrom_append, positionsFrom_eq_nil bare, here] at same
        have more := rest (start + text.length) same
        intro sql mem
        rcases List.mem_cons.mp mem with same | mem
        · cases same
          exact bare
        · exact more sql mem
      | value v =>
        have more := rest (start + 1) (List.cons.inj same).2
        intro sql mem
        rcases List.mem_cons.mp mem with same | mem
        · cases same
        · exact more sql mem
  · intro bare
    refine positionsFrom_eq (fun segment mem => ?_) start
    cases segment with
    | text sql => exact ⟨bare sql mem, closed sql mem⟩
    | value v => trivial

end Closed

end Segment

namespace Fragment.MadeOf

variable {f : Fragment} {segments : List Segment}

/-- The texts of a fragment come out as they are and its values with their numbers, just if the placeholders that are
read in the whole text stand where the values were put. -/
theorem rendered_iff (made : f.MadeOf segments) :
    f.render .postgresql = Segment.numberedFrom 0 segments ↔ positions f.sql = Segment.placesFrom 0 segments := by
  obtain ⟨sql, -⟩ := made.text_and_values
  show Fragment.replaceFrom number none 0 f.sql = _ ↔ positionsFrom none 0 f.sql = _
  rw [sql]
  exact Segment.replaceFrom_eq_numberedFrom_iff none 0 0 segments

/-- If each text closes its quotes, each is read by itself; and all come out as they are just if none has a
placeholder. -/
theorem rendered_of_closed (made : f.MadeOf segments) (closed : ∀ sql, .text sql ∈ segments → Closed sql) :
    f.render .postgresql = Segment.renderedFrom 0 segments
      ∧ (f.render .postgresql = Segment.numberedFrom 0 segments
        ↔ ∀ sql, .text sql ∈ segments → positions sql = []) := by
  obtain ⟨sql, -⟩ := made.text_and_values
  constructor
  · show Fragment.replaceFrom number none 0 f.sql = _
    rw [sql]
    exact Segment.replaceFrom_eq_renderedFrom closed 0
  · rw [made.rendered_iff, sql]
    exact Segment.positionsFrom_eq_placesFrom_iff closed 0

end Fragment.MadeOf

/-! ## Parts of a fragment -/

namespace Fragment

/-- A fragment has another one as a part: whatever segments the part is made of, the fragment is made of them, with
values, quiet texts and these texts before and after. -/
def Holds (f part : Fragment) (texts : List Bytes) : Prop :=
  ∃ before after : List Segment, (∀ segment ∈ before ++ after, segment.IsAmong texts)
    ∧ ∀ segments, part.MadeOf segments → f.MadeOf (before ++ segments ++ after)

variable {texts : List Bytes} {f g part : Fragment} {sql : Bytes}

namespace Holds

protected theorem refl (part : Fragment) (texts : List Bytes) : part.Holds part texts := by
  refine ⟨[], [], List.forall_mem_nil _, fun segments made => ?_⟩
  rw [List.nil_append, List.append_nil]
  exact made

theorem add (h : f.Holds part texts) (quiet : Placeholder.Quiet sql) : (f.add sql).Holds part texts := by
  obtain ⟨before, after, among, made⟩ := h
  refine ⟨before, after ++ [.text sql], ?_, fun segments parts => ?_⟩
  · rw [← List.append_assoc, List.forall_mem_append, List.forall_mem_singleton]
    exact ⟨among, .inl quiet⟩
  · rw [← List.append_assoc]
    exact (made segments parts).add sql

/-- A part of the first of two fragments. -/
theorem append (h : f.Holds part texts) (hg : g.BuiltFrom texts) : (f ++ g).Holds part texts := by
  obtain ⟨before, after, among, made⟩ := h
  obtain ⟨more, made', among'⟩ := hg
  refine ⟨before, after ++ more, ?_, fun segments parts => ?_⟩
  · rw [← List.append_assoc, List.forall_mem_append]
    exact ⟨among, among'⟩
  · rw [← List.append_assoc]
    exact (made segments parts).append made'

/-- A part of the second of two fragments. -/
theorem after (hf : f.BuiltFrom texts) (h : g.Holds part texts) : (f ++ g).Holds part texts := by
  obtain ⟨more, made', among'⟩ := hf
  obtain ⟨before, after, among, made⟩ := h
  refine ⟨more ++ before, after, ?_, fun segments parts => ?_⟩
  · rw [List.append_assoc, List.forall_mem_append]
    exact ⟨among', among⟩
  · rw [List.append_assoc, List.append_assoc, ← List.append_assoc before]
    exact made'.append (made segments parts)

theorem trans {e : Fragment} (h : f.Holds e texts) (h' : e.Holds part texts) : f.Holds part texts := by
  obtain ⟨before, after, among, made⟩ := h
  obtain ⟨before', after', among', made'⟩ := h'
  refine ⟨before ++ before', after' ++ after, ?_, fun segments parts => ?_⟩
  · rw [List.forall_mem_append] at among among'
    simp only [List.forall_mem_append]
    exact ⟨⟨among.1, among'.1⟩, among'.2, among.2⟩
  · have whole := made _ (made' segments parts)
    simpa only [List.append_assoc] using whole

/-- The segments of a fragment with a text for a part. -/
theorem exists_segments (h : f.Holds (.text sql) texts) :
    ∃ before after : List Segment, (∀ segment ∈ before ++ after, segment.IsAmong texts)
      ∧ f.MadeOf (before ++ .text sql :: after) := by
  obtain ⟨before, after, among, made⟩ := h
  refine ⟨before, after, among, ?_⟩
  have whole := made _ (.text sql)
  rwa [List.append_assoc, List.singleton_append] at whole

theorem isEmpty_eq_false (h : f.Holds (.text sql) texts) (written : sql ≠ []) : f.isEmpty = false := by
  obtain ⟨before, after, -, made⟩ := h.exists_segments
  unfold Fragment.isEmpty
  rw [made.text_and_values.1, List.isEmpty_eq_false_iff, List.flatMap_append, List.flatMap_cons]
  exact List.append_ne_nil_of_right_ne_nil _ (List.append_ne_nil_of_left_ne_nil written _)

end Holds

/-- What is put together step by step has as a part what one of the steps adds. -/
theorem holds_foldl {α : Type} {step : Fragment → α → Fragment} {items : List α} {item : α} {start : Fragment}
    (mem : item ∈ items) (builds : ∀ f, ∀ a ∈ items, f.BuiltFrom texts → (step f a).BuiltFrom texts)
    (keeps : ∀ f, ∀ a ∈ items, f.Holds part texts → (step f a).Holds part texts)
    (adds : ∀ f, f.BuiltFrom texts → (step f item).Holds part texts) (h : start.BuiltFrom texts) :
    (items.foldl step start).Holds part texts := by
  obtain ⟨front, back, rfl⟩ := List.append_of_mem mem
  have front : (front.foldl step start).BuiltFrom texts :=
    List.foldlRecOn (motive := (BuiltFrom · texts)) front step h
      fun f built a among => builds f a (List.mem_append_left _ among) built
  rw [List.foldl_append, List.foldl_cons]
  exact List.foldlRecOn (motive := (Holds · part texts)) back step (adds _ front)
    fun f holds a among => keeps f a (List.mem_append_right _ (List.mem_cons_of_mem _ among)) holds

/-- A list has each of its parts as a part. -/
theorem holds_join {parts : List Fragment} {separator : Bytes} (quiet : Placeholder.Quiet separator)
    (h : ∀ g ∈ parts, g.BuiltFrom texts) (mem : f ∈ parts) (holds : f.Holds part texts) :
    (join separator parts).Holds part texts := by
  cases parts with
  | nil => cases mem
  | cons first parts =>
    rw [List.forall_mem_cons] at h
    rcases List.mem_cons.mp mem with rfl | mem
    · exact List.foldlRecOn (motive := (Holds · part texts)) parts _ (.after builtFrom_empty holds)
        fun f held g among => (held.add quiet).append (h.2 g among)
    · exact holds_foldl mem (fun f g among built => (built.add quiet).append (h.2 g among))
        (fun f g among held => (held.add quiet).append (h.2 g among))
        (fun f built => .after (built.add quiet) holds) (builtFrom_empty.append h.1)

end Fragment

end TableQuery
