import TableQuery.Proofs.Calendar.Iso
import TableQuery.Proofs.Statement.Condition

/-!
# Presets in statements

A filter value that names a preset stands for a range of days, and the statement compares the column with the texts of
its two ends. Many databases have no type for days and store them as text. There it matters that texts in this format
are in the order of the days: a comparison byte by byte selects what a comparison of days does.

## What is proved

`Condition.presets_select_days`: days compare as their texts do, and whatever preset a filter names, at every instant, a
database that compares the texts keeps the rows whose day is in the range, as one that compares the days does.
-/

namespace TableQuery

/-! ## Columns of days -/

/-- The values of a column that stores days as text: null, or the text of a day in the years from 0 to 9999. -/
inductive StoresDay : Json → Prop
  | null : StoresDay .null
  | day {x : Day} (fourPlaces : x.HasFourPlaces) : StoresDay (.str x.toIso)

namespace Collation

/-- The database compares the texts of an expression byte by byte. -/
structure ComparesTexts (k : Collation) (e : List Token) : Prop where
  equal : ∀ s t : Bytes, k.equal e (.str s) (.str t) = decide (s = t)
  below : ∀ s t : Bytes, k.below e (.str s) (.str t) = decide (s < t)

/-- The database compares the days that the texts of an expression stand for. -/
structure ComparesDays (k : Collation) (e : List Token) : Prop where
  equal : ∀ x y : Day, x.HasFourPlaces → y.HasFourPlaces →
    k.equal e (.str x.toIso) (.str y.toIso) = decide (x = y)
  below : ∀ x y : Day, x.HasFourPlaces → y.HasFourPlaces →
    k.below e (.str x.toIso) (.str y.toIso) = decide (x < y)

/-- What compares texts compares days. -/
theorem ComparesTexts.comparesDays {k : Collation} {e : List Token} (h : k.ComparesTexts e) : k.ComparesDays e where
  equal x y _ _ := by
    rw [h.equal, decide_eq_decide]
    exact Day.toIso_injective.eq_iff
  below x y hx hy := by
    rw [h.below, decide_eq_decide]
    exact Day.toIso_lt_iff hx hy

end Collation

/-! ## The rows of a range -/

section Rows

variable {strict : Prop} {k : Collation} {ρ : Row} {f : Fragment} {x y : Day}

namespace Row

theorem keeps_onOrAfter (hf : f.IsOperand strict) (days : k.ComparesDays f.bound) (value : ρ.value f.bound = .str x.toIso)
    (hx : x.HasFourPlaces) (hy : y.HasFourPlaces) :
    (Operator.binary f ">=" (.str y.toIso)).Keeps (ρ.atom k) ↔ f.Aligned ∧ y ≤ x := by
  have spaced : Opens (spaced ">=") [Token.sign ">="] := opens_of_scan rfl
  rw [keeps_binary hf spaced rfl, value, days.below y x hy hx, days.equal x y hx hy]
  refine and_congr_right fun _ => (Truth.ofBool_eq_true _).trans ?_
  rw [Bool.or_eq_true, decide_eq_true_eq, decide_eq_true_eq]
  dsimp only [Day]
  omega

theorem keeps_before (hf : f.IsOperand strict) (days : k.ComparesDays f.bound) (value : ρ.value f.bound = .str x.toIso)
    (hx : x.HasFourPlaces) (hy : y.HasFourPlaces) :
    (Operator.binary f "<" (.str y.toIso)).Keeps (ρ.atom k) ↔ f.Aligned ∧ x < y := by
  have spaced : Opens (spaced "<") [Token.sign "<"] := opens_of_scan rfl
  rw [keeps_binary hf spaced rfl, value, days.below x y hx hy]
  refine and_congr_right fun _ => (Truth.ofBool_eq_true _).trans ?_
  rw [decide_eq_true_eq]

/-- No comparison keeps a null. -/
theorem not_keeps_before_null (hf : f.IsOperand strict) (value : ρ.value f.bound = .null) :
    ¬(Operator.binary f "<" (.str y.toIso)).Keeps (ρ.atom k) := by
  have spaced : Opens (spaced "<") [Token.sign "<"] := opens_of_scan rfl
  rw [keeps_binary hf spaced rfl, value]
  rintro ⟨-, unknown⟩
  cases unknown

end Row

/-- The condition of a range keeps the rows whose day is in the range. -/
theorem DateRange.keeps_toSql_iff (hf : f.IsOperand strict) (days : k.ComparesDays f.bound)
    (stored : StoresDay (ρ.value f.bound)) {range : DateRange} (hstart : range.start.HasFourPlaces)
    (hstop : range.stop.HasFourPlaces) :
    (range.toSql f).Keeps (ρ.atom k) ↔
      f.Aligned ∧ ∃ x : Day, ρ.value f.bound = .str x.toIso ∧ range.start ≤ x ∧ x < range.stop := by
  have low : (Operator.binary f ">=" (.str range.start.toIso)).IsTest strict :=
    Operator.isTest_sign (opens_of_scan rfl) hf _
  have high : (Operator.binary f "<" (.str range.stop.toIso)).IsTest strict :=
    Operator.isTest_sign (opens_of_scan rfl) hf _
  unfold toSql
  rw [Fragment.keeps_all (List.forall_mem_cons.mpr ⟨low.reads, List.forall_mem_singleton.mpr high.reads⟩),
    List.forall_mem_cons, List.forall_mem_singleton]
  generalize value : ρ.value f.bound = v at stored
  cases stored with
  | null =>
    refine iff_of_false (fun keeps => Row.not_keeps_before_null hf value keeps.2) ?_
    rintro ⟨-, x, same, -⟩
    cases same
  | @day x fourPlaces =>
    rw [Row.keeps_onOrAfter hf days value fourPlaces hstart, Row.keeps_before hf days value fourPlaces hstop,
      ← and_and_left]
    refine and_congr_right fun _ => ⟨fun within => ⟨x, rfl, within⟩, ?_⟩
    rintro ⟨y, same, within⟩
    rw [Day.toIso_injective (Json.str.inj same)]
    exact within

end Rows

/-! ## Filters that name a preset -/

namespace Condition

variable {r : Resolver}

/-- A filter that names a preset with a range stands for the range, whoever wrote it. -/
theorem toSqlBy_of_preset {author : Author} {limits : Limits} {day : Day} {leaf : Condition} {f : Field}
    {preset : DatePreset} {range : DateRange} (found : r.resolve leaf.field = some f)
    (allowed : author = .request → r.mayFilter f = true) (named : r.preset? f leaf.value = some preset)
    (ranged : preset.rangeOn day = some range) :
    leaf.toSqlBy author r limits day = .ok (range.toSql f.expression) := by
  have made : preset.toSql day f.expression = range.toSql f.expression := by
    rw [DatePreset.toSql, ranged]
  cases author with
  | request =>
    rw [toSqlBy, ofRequest, found]
    dsimp only
    rw [allowed rfl, named, ← made]
    rfl
  | description =>
    have required : r.require leaf.field "Filter" = .ok f := by rw [Resolver.require, found]
    refine Checked.bind_eq_ok.mpr ⟨f, required, ?_⟩
    rw [named, ← made]
    rfl

/-- Different days have different texts, and in the years from 0 to 9999 the texts are in the order of the days, byte by
byte. A filter that names a preset compares its column with the texts of the first day of the preset's range and of the
day after it, which lie in these years at every instant. So a database that compares the texts of a column of days keeps
the same rows as one that compares the days: those whose day is in the range. -/
theorem presets_select_days :
    Function.Injective Day.toIso
    ∧ (∀ a b : Day, a.HasFourPlaces → b.HasFourPlaces → (a < b ↔ a.toIso < b.toIso))
    ∧ ∀ (qualifier : Bytes) (t : Table) (d : Dialect) (r : Resolver), Resolver.ofTableAs qualifier t d = .ok r →
      (∀ s ∈ t.expressionTexts, s.Closes False) →
      ∀ (author : Author) (limits : Limits) (now : Instant) (leaf : Condition) (f : Field) (preset : DatePreset),
      r.resolve leaf.field = some f → (author = .request → r.mayFilter f = true) →
      r.preset? f leaf.value = some preset → preset ≠ .custom →
      ∃ range, preset.rangeOn now.day = some range
        ∧ leaf.toSqlBy author r limits now.day = .ok (range.toSql f.expression)
        ∧ ∀ (texts days : Collation) (ρ : Row), texts.ComparesTexts f.expression.bound →
          days.ComparesDays f.expression.bound → StoresDay (ρ.value f.expression.bound) →
          ((range.toSql f.expression).Keeps (ρ.atom texts) ↔ (range.toSql f.expression).Keeps (ρ.atom days))
            ∧ ((range.toSql f.expression).Keeps (ρ.atom texts) ↔ f.expression.Aligned
              ∧ ∃ x : Day, ρ.value f.expression.bound = .str x.toIso ∧ range.start ≤ x ∧ x < range.stop) := by
  refine ⟨Day.toIso_injective, fun a b ha hb => (Day.toIso_lt_iff ha hb).symm, ?_⟩
  intro qualifier t d r made trusted author limits now leaf f preset found allowed named notCustom
  obtain ⟨range, ranged, -⟩ := DatePreset.exists_start_lt_stop notCustom now.day
  refine ⟨range, ranged, toSqlBy_of_preset found allowed named ranged, ?_⟩
  intro texts days ρ byText byDay stored
  have operand : f.expression.IsOperand False := (Resolver.describes made).isOperand_of_resolve trusted found
  obtain ⟨hstart, hstop⟩ := DatePreset.hasFourPlaces_rangeOn ranged
  have kept {k : Collation} (compares : k.ComparesDays f.expression.bound) :=
    DateRange.keeps_toSql_iff operand compares stored hstart hstop
  exact ⟨(kept byText.comparesDays).trans (kept byDay).symm, kept byText.comparesDays⟩

/-- Deliveries with the day on which they are due. -/
def deliveries : Table where
  name := "deliveries"
  base := "deliveries"
  columns := [{ name := "id", type := .number }, { name := "due", type := .date }]

/-- A database that compares values as texts. -/
def byText : Collation where
  equal _
    | .str s, .str t => decide (s = t)
    | _, _ => false
  below _
    | .str s, .str t => decide (s < t)
    | _, _ => false

/-- A delivery that is due on a given day. -/
def deliveryDue (x : Day) : Row := ⟨fun _ => .str x.toIso, fun _ => .unknown⟩

/-- On the first of March 2024, deliveries of last month are those up to the 29th of February. -/
theorem presets_select_days_deliveries :
    ∃ r f range, Resolver.ofTableAs [] deliveries .sqlite = .ok r ∧ r.resolve "due" = some f
      ∧ DatePreset.lastMonth.rangeOn (Instant.mk 1709251200000000000).day = some range
      ∧ (range.toSql f.expression).Keeps ((deliveryDue 19782).atom byText)
      ∧ ¬(range.toSql f.expression).Keeps ((deliveryDue 19783).atom byText) := by
  obtain ⟨range, ranged, -, kept⟩ := presets_select_days.2.2 [] deliveries .sqlite _ rfl (by nofun) .request {}
    ⟨1709251200000000000⟩ { field := "due", value := .str "lastMonth" } _ .lastMonth rfl (fun _ => rfl) rfl (by decide)
  have compares (e : List Token) : byText.ComparesTexts e := ⟨fun _ _ => rfl, fun _ _ => rfl⟩
  have february : range = ⟨19754, 19783⟩ := Option.some.inj (ranged.symm.trans (by decide))
  have keeps (x : Day) (fourPlaces : x.HasFourPlaces) :=
    (kept byText byText (deliveryDue x) (compares _) (compares _).comparesDays (.day fourPlaces)).2
  refine ⟨_, _, range, rfl, rfl, ranged, (keeps 19782 (by decide)).mpr ⟨rfl, 19782, rfl, ?_⟩, fun holds => ?_⟩
  · rw [february]
    decide
  · obtain ⟨-, x, same, -, before⟩ := (keeps 19783 (by decide)).mp holds
    rw [february, ← Day.toIso_injective (Json.str.inj same)] at before
    exact lt_irrefl _ before

end Condition

end TableQuery
