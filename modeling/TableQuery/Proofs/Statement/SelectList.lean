import TableQuery.Proofs.Field.Lookup
import TableQuery.Proofs.Statement.Output

/-!
# Select lists

The data of a response are about declarations of the description, in the order in which these stand there: its own
columns, the columns of joins that none of them shadows, and the subqueries (`Table.exposed`). What is hidden is never
among them. A request names some of the others, and these are what it gets, with the `id` in front if it can be had. A
request that names none of them gets all.

So a select list is read as a set, and of the set only those names count that something to be shown has.

## What is proved

`Table.selects_by_names`: what the data of a page by number select, and that nothing else about a select list makes a
difference to a request.
-/

namespace TableQuery

/-! ## What may be shown -/

namespace Declaration

/-- Whether what is declared is kept out of responses. -/
def hidden : Declaration → Bool
  | own c => c.hidden
  | joined c => c.column.hidden
  | subquery _ => false

end Declaration

namespace Table

/-- The declarations of fields that are reached by their bare names or take no other's name, in the order in which they
stand in the description. -/
def exposed (t : Table) : List Declaration := t.columns.map .own ++ t.openColumns ++ t.subqueries.map .subquery

/-- The declarations that a response may be about. -/
def shown (t : Table) : List Declaration := t.exposed.filter fun e => !e.hidden

/-- The first declaration of the name `id`, if it may be shown and a select list does not name it. -/
def unnamedId (t : Table) (select : List Bytes) : List Declaration :=
  ((t.exposed.find? fun e => e.name == Resolver.idName).filter fun e =>
    !e.hidden && !select.contains Resolver.idName).toList

/-- The declarations that a select list chooses. -/
def chosen (t : Table) (select : List Bytes) : List Declaration :=
  if t.shown.any fun e => select.contains e.name then
    t.unnamedId select ++ t.shown.filter fun e => select.contains e.name
  else t.shown

/-- Two select lists name the same of what may be shown. -/
def SameNames (t : Table) (select select' : List Bytes) : Prop :=
  ∀ e ∈ t.shown, e.name ∈ select' ↔ e.name ∈ select

end Table

/-- The data of a response are about these declarations, in this order: the response has their names, and the statement
selects the field of each under its name. -/
structure Compiled.Outputs (compiled : Compiled) (r : Resolver) (chosen : List Declaration) : Prop where
  fields : compiled.outputFields = chosen.map Declaration.name
  select : List.Forall₂ (fun e item => item.name = e.name
      ∧ ∃ f, e.field r.table r.dialect r.baseQualifier = .ok f ∧ r.selectionOf f = .ok item)
    chosen compiled.data.select

/-! ## Fields of declarations -/

namespace Field

variable {t : Table} {d : Dialect} {base : Bytes} {e : Declaration} {f : Field}

theorem hidden_ofColumn (d : Dialect) (baseNames : List Bytes) (table : Bytes) (c : Column) :
    (ofColumn d baseNames table c).hidden = c.hidden := by
  unfold ofColumn
  split_ifs <;> rfl

theorem hidden_ofSubquery {s : Subquery} (made : ofSubquery d s = .ok f) : f.hidden = false := by
  unfold ofSubquery at made
  split at made
  · cases made
    rfl
  · obtain ⟨expression, -, made⟩ := Checked.bind_eq_ok.mp made
    cases made
    rfl

/-- A field may be selected just if its declaration is not hidden. -/
theorem Declares.supports_select (h : Declares t d base e f) : f.supports .select = !e.hidden := by
  have made := h.made
  unfold supports
  cases e with
  | own c =>
    cases made
    rw [hidden_ofColumn, Declaration.hidden]
  | joined c =>
    cases made
    rw [hidden_ofColumn, Declaration.hidden]
  | subquery s => rw [hidden_ofSubquery made, Declaration.hidden]

end Field

namespace Resolver

variable {r : Resolver} {t : Table} {d : Dialect} {base : Bytes}

namespace DeclaredBy

/-- Fields have the names of their declarations. -/
theorem names_of_declares {es : List Declaration} {fs : List Field}
    (declares : List.Forall₂ (Field.Declares t d base) es fs) : fs.map Field.name = es.map Declaration.name := by
  have same : List.Forall₂ Eq (fs.map Field.name) (es.map Declaration.name) := by
    rw [List.forall₂_map_left_iff, List.forall₂_map_right_iff]
    exact declares.flip.imp fun _ _ declares => declares.name
  rwa [List.forall₂_eq_eq_eq] at same

variable (h : r.DeclaredBy t d base)
include h

theorem fields : List.Forall₂ (Field.Declares t d base) t.exposed r.fields :=
  List.rel_append (List.rel_append h.declared h.joined) h.subqueries

theorem selectable : List.Forall₂ (Field.Declares t d base) t.shown r.selectable :=
  rel_filter h.fields fun _ _ declares => declares.supports_select.symm

theorem unnamedId (select : List Bytes) :
    List.Forall₂ (Field.Declares t d base) (t.unnamedId select) (r.unnamedId select) := by
  have first := rel_find? h.fields (p := fun e => e.name == idName) (q := fun f => f.name == idName)
    fun _ _ declares => by rw [declares.name]
  unfold Table.unnamedId Resolver.unnamedId find?
  generalize (t.exposed.find? fun e => e.name == idName) = e? at first ⊢
  generalize (r.fields.find? fun f => f.name == idName) = f? at first ⊢
  cases first with
  | none => exact .nil
  | some declares =>
    rw [Option.filter_some, Option.filter_some, declares.supports_select]
    split_ifs
    · exact .cons declares .nil
    · exact .nil

/-- What holds of the names of the fields that can be selected holds of those of what may be shown. -/
theorem forall_selectable {P : Bytes → Prop} : (∀ f ∈ r.selectable, P f.name) ↔ ∀ e ∈ t.shown, P e.name := by
  rw [← List.forall_mem_map, names_of_declares h.selectable, List.forall_mem_map]

/-- A select list chooses the fields of the declarations that it chooses. -/
theorem chosenFields (select : List Bytes) :
    List.Forall₂ (Field.Declares t d base) (t.chosen select) (r.chosenFields select) := by
  unfold Table.chosen
  split_ifs with named
  · rw [List.any_eq_true] at named
    have some : ¬∀ f ∈ r.selectable, f.name ∉ select := by
      rw [h.forall_selectable (P := fun name => name ∉ select)]
      push Not
      simpa using named
    push Not at some
    obtain ⟨f, mem, named⟩ := some
    rw [chosenFields_of_named mem named]
    exact List.rel_append (h.unnamedId select)
      (rel_filter h.selectable fun e f declares => by rw [declares.name])
  · have unnamed : ∀ f ∈ r.selectable, f.name ∉ select := by
      rw [h.forall_selectable (P := fun name => name ∉ select)]
      simpa using named
    rw [chosenFields_of_unnamed unnamed]
    exact h.selectable

end DeclaredBy

/-- Fields are selected under the names of their declarations. -/
theorem selects_of_declares {es : List Declaration} {fs : List Field} {items : List SelectItem}
    (declares : List.Forall₂ (Field.Declares t d base) es fs) (made : fs.mapM r.selectionOf = .ok items) :
    List.Forall₂ (fun e item => item.name = e.name ∧ ∃ f, e.field t d base = .ok f ∧ r.selectionOf f = .ok item)
      es items := by
  have selected := Checked.mapM_eq_ok.mp made
  clear made
  induction declares generalizing items with
  | nil =>
    cases selected
    exact .nil
  | cons declares _ ih =>
    cases selected with
    | cons step rest =>
      exact .cons ⟨(name_of_selectionOf step).trans declares.name, _, declares.made, step⟩ (ih rest)

end Resolver

/-! ## Requests -/

namespace Table

variable {t : Table} {d : Dialect} {p : Params} {c : Context} {clock : Instant}

/-- The fields that are chosen depend on nothing of a select list but which names of what may be shown are in it. -/
theorem SameNames.chosenFields {r : Resolver} {base : Bytes} {select select' : List Bytes}
    (same : t.SameNames select select') (h : r.DeclaredBy t d base) :
    r.chosenFields select' = r.chosenFields select :=
  Resolver.chosenFields_congr (h.forall_selectable (P := fun name => name ∈ select' ↔ name ∈ select) |>.mpr same)

/-- Of a caller's fields, look-up has those that the description declares as the caller gets it. -/
theorem declaredBy_restrict {r : Resolver} (written : Resolver.ofTable t d = .ok r) (roles : List Bytes) :
    (r.restrict roles).DeclaredBy (t.visibleTo roles) d (r.restrict roles).baseQualifier := by
  have made : Resolver.ofTable (t.visibleTo roles) d = .ok (r.restrict roles) := ofTable_visibleTo_eq_ok written
  have described := Resolver.describes made
  rw [described.baseQualifier]
  exact Resolver.declaredBy described

namespace Compiles

variable {compiled : Compiled} {r : Resolver} {items : List SelectItem} {condition : Fragment}

/-- On a page by number nothing is selected but the chosen fields. -/
theorem select_of_numbered (h : t.Compiles d p c compiled r items condition) (numbered : p.cursor = none) :
    compiled.data.select = items := by
  have page := h.data
  unfold Resolver.dataPlan at page
  rw [numbered] at page
  injection page with page
  exact (congrArg (fun made => made.1.select) page).symm

theorem outputs_chosen (h : t.Compiles d p c compiled r items condition) (numbered : p.cursor = none) :
    compiled.Outputs (r.restrict c.roles) ((t.visibleTo c.roles).chosen p.select) := by
  have declares := (declaredBy_restrict h.written c.roles).chosenFields p.select
  have made : Resolver.ofTable (t.visibleTo c.roles) d = .ok (r.restrict c.roles) := ofTable_visibleTo_eq_ok h.written
  have described := Resolver.describes made
  constructor
  · rw [h.outputFields]
    exact Resolver.DeclaredBy.names_of_declares declares
  · rw [h.select_of_numbered numbered, described.table, described.dialect]
    exact Resolver.selects_of_declares declares h.selected

end Compiles

/-- The data of a page by number are about the shown declarations that the request selects by name, in the order in
which they are declared, with the first one named `id` in front if it is shown and not selected; or about all that are
shown, if none of them is selected. Requests that select the same of them have the same data selected, and a request is
answered, or refused, in the same way if its select list is replaced by another that names the same of them. -/
theorem selects_by_names :
    (∀ p clock compiled, p.cursor = none → t.compile d p c clock = .ok compiled →
      ∃ r, Resolver.ofTable (t.visibleTo c.roles) d = .ok r
        ∧ compiled.Outputs r ((t.visibleTo c.roles).chosen p.select))
    ∧ (∀ p p' clock clock' compiled compiled', p.cursor = none → p'.cursor = none →
      (t.visibleTo c.roles).SameNames p.select p'.select →
      t.compile d p c clock = .ok compiled → t.compile d p' c clock' = .ok compiled' →
      compiled'.data.select = compiled.data.select ∧ compiled'.outputFields = compiled.outputFields)
    ∧ ∀ p select clock, (t.visibleTo c.roles).SameNames p.select select →
      t.compile d { p with select } c clock = t.compile d p c clock := by
  refine ⟨?_, ?_, ?_⟩
  · intro p clock compiled numbered made
    obtain ⟨r, items, condition, h⟩ := exists_compiles made
    exact ⟨r.restrict c.roles, ofTable_visibleTo_eq_ok h.written, h.outputs_chosen numbered⟩
  · intro p p' clock clock' compiled compiled' numbered numbered' same made made'
    obtain ⟨r, items, condition, h⟩ := exists_compiles made
    obtain ⟨r', items', condition', h'⟩ := exists_compiles made'
    obtain rfl : r = r' := Except.ok.inj (h.written.symm.trans h'.written)
    have chosen := same.chosenFields (declaredBy_restrict h.written c.roles)
    have selected := h'.selected
    rw [chosen, h.selected, Except.ok.injEq] at selected
    constructor
    · rw [h.select_of_numbered numbered, h'.select_of_numbered numbered', selected]
    · rw [h.outputFields, h'.outputFields, chosen]
  · intro p select clock same
    refine compile_congr fun e r he hr => ?_
    obtain rfl := eq_visibleTo_of_effective he
    exact ⟨fun _ => rfl, same.chosenFields (Resolver.declaredBy (Resolver.describes hr)), fun _ _ => rfl⟩

/-- Goods with a column that is kept out of responses, and with their makers. -/
def makers : Table where
  name := "goods"
  base := "goods"
  columns :=
    [{ name := "name" }, { name := "cost", hidden := true }, { name := "id", type := .number }, { name := "price" }]
  joins := [.mk "makers" "m" .left (.columns "maker_id" "id") [{ name := "maker", field := "name" }] []]

/-- Selected as often as one likes, in whichever order and among names that nothing to be shown has, the price and the
maker come as they are declared, after the `id`. -/
theorem selects_by_names_makers :
    ∃ compiled r, makers.compile .sqlite { select := ["maker", "price"] } {} ⟨0⟩ = .ok compiled
      ∧ Resolver.ofTable (makers.visibleTo []) .sqlite = .ok r
      ∧ compiled.Outputs r ((makers.visibleTo []).chosen ["maker", "price"])
      ∧ compiled.outputFields = ["id", "price", "maker"]
      ∧ (makers.visibleTo []).SameNames ["maker", "price"] ["price", "cost", "maker", "price", "color"]
      ∧ makers.compile .sqlite { select := ["price", "cost", "maker", "price", "color"] } {} ⟨0⟩ = .ok compiled := by
  obtain ⟨outputs, -, exchange⟩ := @selects_by_names makers .sqlite {}
  obtain ⟨compiled, made⟩ :
      ∃ compiled, makers.compile .sqlite { select := ["maker", "price"] } {} ⟨0⟩ = .ok compiled := ⟨_, rfl⟩
  obtain ⟨r, hr, chosen⟩ := outputs _ _ compiled rfl made
  have same : (makers.visibleTo []).SameNames ["maker", "price"] ["price", "cost", "maker", "price", "color"] := by
    unfold SameNames
    decide
  refine ⟨compiled, r, made, hr, chosen, ?_, same, ?_⟩
  · rw [chosen.fields]
    decide
  · rw [← made]
    exact exchange { select := ["maker", "price"] } _ ⟨0⟩ same

end Table

end TableQuery
