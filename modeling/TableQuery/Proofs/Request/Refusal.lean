import TableQuery.Engine.Settings
import TableQuery.Proofs.Request.Written
import TableQuery.Proofs.Table.Tree
import TableQuery.Request.Context
import TableQuery.Table.Document
import TableQuery.Validation.Catalog

/-!
# Readers refuse by their own faults

A description that cannot be read is a configuration fault, and a request that cannot be read a validation fault.
A reader meets values of the wrong kind at every step, on every level of a tree, and filters are read by the same steps
for both. So a step is allowed two ways to give no result: a mismatch, which the reader of the whole document puts into
words, and a fault of the class that the document's author is told by. The third way, an index that fits no machine word,
belongs to other computations; it would be worded like a mismatch, and no reader comes to it.

## What is proved

`Outcome.RefusesBy`: these two ways, with a law for each way in which steps are put together.
`refuses_by_own_class`: of every JSON value, each reader of a whole document gives a result or a fault of its own class.
-/

namespace TableQuery

/-! ## Classes of faults -/

namespace Fault

/-- The class of what is wrong with a description, a catalog or settings. -/
def IsConfig (f : Fault) : Prop := ∃ message details, f = .config message details

/-- The class of what is wrong with a request. -/
def IsValidation (f : Fault) : Prop := ∃ field message expected, f = .validation field message expected

@[simp] theorem isConfig_config (message : Bytes) (details : Json) : (config message details).IsConfig :=
  ⟨message, details, rfl⟩

@[simp] theorem isConfig_unknownName (kind value : Bytes) : (unknownName kind value).IsConfig :=
  isConfig_config _ _

@[simp] theorem isValidation_validation (field message expected : Bytes) :
    (validation field message expected).IsValidation :=
  ⟨field, message, expected, rfl⟩

end Fault

/-- The class of what is wrong with a filter, by who wrote it. -/
def Author.Refuses : Author → Fault → Prop
  | description => Fault.IsConfig
  | request => Fault.IsValidation

@[simp] theorem Author.refuses_unknownOperator (author : Author) (field op : Bytes) :
    author.Refuses (author.unknownOperator field op) := by
  cases author with
  | description => exact Fault.isConfig_unknownName _ _
  | request => exact Fault.isValidation_validation _ _ _

@[simp] theorem Author.refuses_notAnObject (author : Author) (j : Json) : author.Refuses (author.notAnObject j) := by
  cases author with
  | description => exact Fault.isConfig_config _ _
  | request => exact Fault.isValidation_validation _ _ _

/-! ## Steps -/

/-- A result, or a fault of a class. -/
def Checked.GivesOr {α : Type} (P : Fault → Prop) (x : Checked α) : Prop :=
  (∃ a, x = .ok a) ∨ ∃ f, x = .error f ∧ P f

/-- A step gives a result, or a mismatch, or a fault of a class. -/
def Outcome.RefusesBy {α : Type} (P : Fault → Prop) (x : Outcome α) : Prop :=
  ∀ failure, x = .error failure → (∃ m, failure = .mismatch m) ∨ ∃ f, failure = .fault f ∧ P f

namespace Outcome

variable {α β : Type} {P : Fault → Prop}

@[simp] theorem refusesBy_ok (a : α) : RefusesBy P (.ok a) := nofun

@[simp] theorem refusesBy_pure (a : α) : RefusesBy P (pure a) := nofun

/-- Reading a value fails with a mismatch only. -/
@[simp] theorem refusesBy_reading (x : Json.Reading α) : RefusesBy P (liftM x : Outcome α) := by
  cases x with
  | ok a => exact refusesBy_ok a
  | error m =>
    rintro _ ⟨⟩
    exact .inl ⟨m, rfl⟩

theorem refusesBy_checked {x : Checked α} (faults : ∀ f, x = .error f → P f) : RefusesBy P (liftM x : Outcome α) := by
  cases x with
  | ok a => exact refusesBy_ok a
  | error f =>
    rintro _ ⟨⟩
    exact .inr ⟨f, rfl, faults f rfl⟩

@[simp] theorem refusesBy_raise {f : Fault} : RefusesBy P (f.raise : Outcome α) ↔ P f := by
  constructor
  · intro refuses
    obtain ⟨m, other⟩ | ⟨g, same, holds⟩ := refuses _ rfl
    · cases other
    · cases same
      exact holds
  · rintro holds _ ⟨⟩
    exact .inr ⟨f, rfl, holds⟩

/-- Two steps in a row: the first, and the second wherever it is come to. -/
@[simp] theorem refusesBy_bind {x : Outcome α} {f : α → Outcome β} :
    RefusesBy P (x >>= f) ↔ RefusesBy P x ∧ ∀ a, x = .ok a → RefusesBy P (f a) := by
  cases x with
  | ok a =>
    constructor
    · intro refuses
      refine ⟨refusesBy_ok a, ?_⟩
      rintro _ ⟨⟩
      exact refuses
    · exact fun both => both.2 a rfl
  | error failure =>
    constructor
    · intro refuses
      exact ⟨fun _ eq => refuses _ (congrArg Except.error (Except.error.inj eq)), nofun⟩
    · exact fun both _ eq => both.1 _ (congrArg Except.error (Except.error.inj eq))

@[simp] theorem refusesBy_map {x : Outcome α} {f : α → β} : RefusesBy P (f <$> x) ↔ RefusesBy P x := by
  rw [map_eq_pure_bind, refusesBy_bind, and_iff_left fun a _ => refusesBy_pure (f a)]

@[simp] theorem refusesBy_mapM {f : α → Outcome β} {l : List α} (each : ∀ a ∈ l, RefusesBy P (f a)) :
    RefusesBy P (l.mapM f) := by
  induction l with
  | nil => exact refusesBy_pure []
  | cons a l ih =>
    rw [List.forall_mem_cons] at each
    rw [List.mapM_cons, refusesBy_bind]
    refine ⟨each.1, fun b _ => ?_⟩
    rw [refusesBy_bind]
    exact ⟨ih each.2, fun bs _ => refusesBy_pure _⟩

/-- A part that may be absent. -/
@[simp] theorem refusesBy_elim {read : Json → Outcome α} {absent : α} (part : Option Json)
    (refuses : ∀ j, RefusesBy P (read j)) : RefusesBy P (part.elim (.ok absent) read) := by
  cases part with
  | none => exact refusesBy_ok absent
  | some j => exact refuses j

/-- Where steps give no index, wording their mismatches leaves faults of the class alone. -/
theorem RefusesBy.wordMismatch {x : Outcome α} (refuses : RefusesBy P x) {word : Bytes → Fault}
    (worded : ∀ reason, P (word reason)) : Checked.GivesOr P (x.wordMismatch word) := by
  cases x with
  | ok a => exact .inl ⟨a, rfl⟩
  | error failure =>
    obtain ⟨m, rfl⟩ | ⟨f, rfl, holds⟩ := refuses _ rfl
    · exact .inr ⟨_, rfl, worded _⟩
    · exact .inr ⟨f, rfl, holds⟩

theorem RefusesBy.ne_index {x : Outcome α} (refuses : RefusesBy P x) : x ≠ .error .indexOutOfRange := by
  intro index
  obtain ⟨m, other⟩ | ⟨f, other, -⟩ := refuses _ index
  · cases other
  · cases other

end Outcome

namespace Checked

variable {α β : Type} {P : Fault → Prop}

/-- A step whose failures are all put into words of a class. -/
theorem givesOr_mapError {ε : Type} (x : Except ε α) {word : ε → Fault} (worded : ∀ e, P (word e)) :
    GivesOr P (x.mapError word) := by
  cases x with
  | ok a => exact .inl ⟨a, rfl⟩
  | error e => exact .inr ⟨_, rfl, worded e⟩

theorem givesOr_ok (a : α) : GivesOr P (.ok a : Checked α) := .inl ⟨a, rfl⟩

theorem givesOr_error {f : Fault} (holds : P f) : GivesOr P (.error f : Checked α) := .inr ⟨f, rfl, holds⟩

theorem givesOr_bind {x : Checked α} {f : α → Checked β} (first : GivesOr P x) (next : ∀ a, GivesOr P (f a)) :
    GivesOr P (x >>= f) := by
  obtain ⟨a, rfl⟩ | ⟨fault, rfl, holds⟩ := first
  · exact next a
  · exact givesOr_error holds

theorem givesOr_mapM {f : α → Checked β} (each : ∀ a, GivesOr P (f a)) (l : List α) : GivesOr P (l.mapM f) := by
  induction l with
  | nil => exact .inl ⟨[], rfl⟩
  | cons a l ih =>
    rw [List.mapM_cons]
    obtain ⟨b, first⟩ | ⟨fault, first, holds⟩ := each a
    · obtain ⟨bs, rest⟩ | ⟨fault, rest, holds⟩ := ih
      · exact .inl ⟨b :: bs, by rw [first, rest]; rfl⟩
      · exact .inr ⟨fault, by rw [first, rest]; rfl, holds⟩
    · exact .inr ⟨fault, by rw [first]; rfl, holds⟩

end Checked

open Outcome

/-! ## Parts of a description -/

@[simp] theorem Vocabulary.refusesBy_read {α : Type} (v : Vocabulary α) (word : Bytes) :
    RefusesBy Fault.IsConfig (liftM (v.read word) : Outcome α) := by
  refine refusesBy_checked fun f refused => ?_
  unfold read at refused
  split at refused
  · cases refused
  · cases refused
    exact Fault.isConfig_unknownName _ _

@[simp] theorem Column.refusesBy_ofJson (j : Json) : RefusesBy Fault.IsConfig (ofJson j) := by
  unfold ofJson
  cases j.get? "expression" <;> cases j.get? "options" <;> simp

@[simp] theorem Condition.refusesBy_ofJson (author : Author) (j : Json) :
    RefusesBy author.Refuses (ofJson author j) := by
  unfold ofJson
  cases j.get? "op" <;> simp only [refusesBy_bind, refusesBy_reading, true_and]
  · intro field _ word _
    cases Operator.ofName? word <;> simp
  · intro field _ word _
    cases Operator.ofName? word <;> simp

/-- Down the groups of a tree, whatever their parts are. -/
theorem FilterTree.refusesBy_ofJson (author : Author) (j : Json) : RefusesBy author.Refuses (ofJson author j) := by
  induction j using ofJson.induct with
  | case1 j scalar =>
    rw [ofJson_eq, if_pos scalar]
    simp
  | case2 j object parts found ih =>
    rw [ofJson_eq, if_neg object, found]
    simp [refusesBy_mapM ih]
  | case3 j object absent parts found ih =>
    rw [ofJson_eq, if_neg object, absent, found]
    simp [refusesBy_mapM ih]
  | case4 j object absent absent' =>
    rw [ofJson_eq, if_neg object, absent, absent']
    simp

theorem Operand.refusesBy_ofJson (j : Json) : RefusesBy Fault.IsConfig (ofJson j) := by
  unfold ofJson
  cases j.get? "column" <;> cases j.get? "value" <;> simp

theorem Correlation.refusesBy_ofJson (j : Json) : RefusesBy Fault.IsConfig (ofJson j) := by
  unfold ofJson
  simp [Operand.refusesBy_ofJson]

theorem Predicate.refusesBy_ofJson (j : Json) : RefusesBy Fault.IsConfig (ofJson j) := by
  induction j using ofJson.induct with
  | case1 j parts found ih =>
    rw [ofJson_eq, found]
    simp [refusesBy_mapM ih]
  | case2 j absent parts found ih =>
    rw [ofJson_eq, absent, found]
    simp [refusesBy_mapM ih]
  | case3 j absent absent' child found ih =>
    rw [ofJson_eq, absent, absent', found]
    simp [ih]
  | case4 j absent absent' absent'' =>
    rw [ofJson_eq, absent, absent', absent'']
    simp [Correlation.refusesBy_ofJson]

theorem Join.refusesBy_listed {α : Type} {P : Fault → Prop} {read : Json → Outcome α} {part : Option Json}
    (each : ∀ items, part = some items → ∀ item ∈ items.elems, RefusesBy P (read item)) :
    RefusesBy P (listed read part) := by
  cases part with
  | none => exact refusesBy_ok []
  | some items => exact refusesBy_mapM (each items rfl)

theorem Join.refusesBy_ofJson (j : Json) : RefusesBy Fault.IsConfig (ofJson j) := by
  induction j using ofJson.induct with
  | case1 j ih =>
    have columns : RefusesBy Fault.IsConfig (listed Column.ofJson (j.get? "columns")) :=
      refusesBy_listed fun _ _ column _ => Column.refusesBy_ofJson column
    have joins : RefusesBy Fault.IsConfig (listed ofJson (j.get? "joins")) := refusesBy_listed ih
    rw [ofJson_eq]
    simp [columns, joins]

theorem ConfiguredFilter.refusesBy_ofJson (j : Json) : RefusesBy Fault.IsConfig (ofJson j) := by
  have condition : RefusesBy Fault.IsConfig (Condition.ofJson .description j) :=
    Condition.refusesBy_ofJson .description j
  simp [ofJson, condition]

theorem SortKey.refusesBy_ofJson (j : Json) : RefusesBy Fault.IsConfig (ofJson j) := by
  cases j with
  | str text => exact refusesBy_ok _
  | _ => simp [ofJson]

theorem Aggregation.refusesBy_ofJson (j : Json) : RefusesBy Fault.IsConfig (ofJson j) := by
  simp [ofJson]

theorem HavingCondition.refusesBy_ofJson (j : Json) : RefusesBy Fault.IsConfig (ofJson j) := by
  simp [ofJson]

theorem GroupBy.refusesBy_ofJson (j : Json) : RefusesBy Fault.IsConfig (ofJson j) := by
  simp [ofJson, HavingCondition.refusesBy_ofJson]

theorem Subquery.refusesBy_ofJson (j : Json) : RefusesBy Fault.IsConfig (ofJson j) := by
  unfold ofJson
  cases j.get? "where" <;> cases j.get? "filter" <;> simp [Predicate.refusesBy_ofJson, Correlation.refusesBy_ofJson]

theorem TreeWalk.refusesBy_ofJson (table : Bytes) (j : Json) : RefusesBy Fault.IsConfig (ofJson table j) := by
  have condition (start : Json) : RefusesBy Fault.IsConfig (Condition.ofJson .description start) :=
    Condition.refusesBy_ofJson .description start
  unfold ofJson
  cases j.get? "max_depth" <;> cases j.get? "start_with" <;> simp [condition]

/-! ## Whole descriptions -/

namespace Table

theorem refusesBy_section? {α : Type} {P : Fault → Prop} (j : Json) (key : Bytes) {read : Json → Outcome α} (absent : α)
    (refuses : ∀ part, RefusesBy P (read part)) : RefusesBy P (section? j key read absent) := by
  unfold section?
  cases j.get? key with
  | none => exact refusesBy_ok absent
  | some part => exact refuses part

theorem refusesBy_readSections (name : Bytes) (j : Json) : RefusesBy Fault.IsConfig (readSections name j) := by
  have condition (c : Json) : RefusesBy Fault.IsConfig (Condition.ofJson .description c) :=
    Condition.refusesBy_ofJson .description c
  have tree (t : Json) : RefusesBy Fault.IsConfig (FilterTree.ofJson .description t) :=
    FilterTree.refusesBy_ofJson .description t
  unfold readSections
  simp [refusesBy_section?, condition, tree, Join.refusesBy_ofJson, ConfiguredFilter.refusesBy_ofJson,
    SortKey.refusesBy_ofJson, Aggregation.refusesBy_ofJson, Subquery.refusesBy_ofJson, GroupBy.refusesBy_ofJson,
    TreeWalk.refusesBy_ofJson]

theorem givesOr_ofJson (j : Json) : Checked.GivesOr Fault.IsConfig (ofJson j) := by
  unfold ofJson
  cases j.textAt "name" with
  | error m => exact Checked.givesOr_error (Fault.isConfig_config _ _)
  | ok name => exact (refusesBy_readSections name j).wordMismatch fun _ => Fault.isConfig_config _ _

theorem givesOr_ofNamed (name : Bytes) (j : Json) : Checked.GivesOr Fault.IsConfig (ofNamed name j) := by
  unfold ofNamed
  split
  · exact givesOr_ofJson _
  · exact Checked.givesOr_error (Fault.isConfig_config _ _)

/-- Of a document, whether it holds one description, a list or a map of them. -/
theorem givesOr_listOfJson (document : Json) : Checked.GivesOr Fault.IsConfig (listOfJson document) := by
  unfold listOfJson
  split
  · exact Checked.givesOr_error (Fault.isConfig_config _ _)
  · split
    · obtain ⟨t, read⟩ | ⟨f, read, holds⟩ := givesOr_ofJson document
      · exact .inl ⟨[t], by rw [read]; rfl⟩
      · exact .inr ⟨f, by rw [read]; rfl, holds⟩
    · exact Checked.givesOr_mapM givesOr_ofJson _
    · exact Checked.givesOr_mapM (fun (entry : Bytes × Json) => givesOr_ofNamed entry.1 entry.2) _
    · exact Checked.givesOr_error (Fault.isConfig_config _ _)

end Table

theorem Catalog.givesOr_ofJson (j : Json) : Checked.GivesOr Fault.IsConfig (ofJson j) :=
  Checked.givesOr_mapError (read j) fun _ => Fault.isConfig_config _ _

theorem Dialect.refusesBy_ofName (name : Bytes) :
    RefusesBy Fault.IsConfig (liftM (Dialect.ofName name) : Outcome Dialect) := by
  refine refusesBy_checked fun f refused => ?_
  unfold ofName at refused
  dsimp only at refused
  split at refused
  · cases refused
  · cases refused
    exact Fault.isConfig_config _ _

theorem Settings.refusesBy_read (j : Json) : RefusesBy Fault.IsConfig (read j) := by
  unfold read
  cases j.get? "cache" <;> simp [Dialect.refusesBy_ofName]

/-! ## Requests -/

theorem FilterParam.refusesBy_ofJson (field : Bytes) (j : Json) : RefusesBy Fault.IsValidation (ofJson field j) := by
  unfold ofJson
  cases (j.get? "op").or (j.get? "operator") with
  | none => exact refusesBy_ok _
  | some word =>
    simp only [refusesBy_bind, refusesBy_reading, true_and]
    intro text _
    cases Operator.ofName? text with
    | none => exact refusesBy_raise.mpr (Author.refuses_unknownOperator .request field text)
    | some op => simp

namespace Params

theorem refusesBy_sortKey (j : Json) : RefusesBy Fault.IsValidation (sortKey j) := by
  unfold sortKey
  split
  · exact refusesBy_ok _
  · cases j.get? "direction" with
    | none => simp
    | some direction =>
      simp only [refusesBy_bind, refusesBy_reading, true_and]
      intro field _ word _
      cases SortDirection.vocabulary.find? word <;> simp

theorem refusesBy_sortKeys (j : Json) : RefusesBy Fault.IsValidation (sortKeys j) := by
  unfold sortKeys
  split
  · exact refusesBy_ok _
  · exact refusesBy_mapM fun key _ => refusesBy_sortKey key

theorem refusesBy_read (j : Json) : RefusesBy Fault.IsValidation (read j) := by
  have tree (t : Json) : RefusesBy Fault.IsValidation (FilterTree.ofJson .request t) :=
    FilterTree.refusesBy_ofJson .request t
  have filter (item : Bytes × Json) : RefusesBy Fault.IsValidation (readFilter item) := by
    simp [readFilter, FilterParam.refusesBy_ofJson]
  rw [read_eq]
  simp [tree, filter, refusesBy_sortKeys]

end Params

/-! ## Every reader -/

/-- Whatever the JSON value is, however deep it goes and whatever is missing or of the wrong kind in it: a description,
a document of descriptions, a catalog and settings are read or refused by a configuration fault, and parameters and a
context are read or refused by a validation fault. No reader of parts comes to an index, so each mismatch that is put
into words is one. -/
theorem refuses_by_own_class (j : Json) :
    (Table.ofJson j).GivesOr Fault.IsConfig ∧ (Table.listOfJson j).GivesOr Fault.IsConfig
      ∧ (Catalog.ofJson j).GivesOr Fault.IsConfig ∧ (Settings.ofJson j).GivesOr Fault.IsConfig
      ∧ (Params.ofJson j).GivesOr Fault.IsValidation ∧ (Context.ofJson j).GivesOr Fault.IsValidation
      ∧ (∀ name, Table.readSections name j ≠ .error .indexOutOfRange)
      ∧ Settings.read j ≠ .error .indexOutOfRange ∧ Params.read j ≠ .error .indexOutOfRange := by
  have settings := Settings.refusesBy_read j
  have params := Params.refusesBy_read j
  exact ⟨Table.givesOr_ofJson j, Table.givesOr_listOfJson j, Catalog.givesOr_ofJson j,
    settings.wordMismatch fun _ => Fault.isConfig_config _ _,
    params.wordMismatch fun _ => Fault.isValidation_validation _ _ _,
    Checked.givesOr_mapError (Context.read j) fun _ => Fault.isValidation_validation _ _ _,
    fun name => (Table.refusesBy_readSections name j).ne_index, settings.ne_index, params.ne_index⟩

end TableQuery
