import TableQuery.Proofs.Number.Word
import TableQuery.Proofs.Request.Written
import TableQuery.Proofs.Statement.Conjunction
import TableQuery.Proofs.Statement.Preset

/-!
# The time of a request

A request carries its time in milliseconds. An instant counts nanoseconds in 64 bits, which is enough for the years from
1677 to 2262. The milliseconds of other times are no less accepted, and stand for an instant that is one or more turns of
64 bits away, which is at least 213503 days.

## What is proved

`Instant.toMilliseconds_ofMilliseconds_iff` and `DatePreset.rangeOn_ofMilliseconds_iff`: the milliseconds come back, and
a preset has the range of their day, just if their nanoseconds fit. `Context.request_time_iff`: so it is with the time
that a context is read with, up to the conditions of a statement.
-/

namespace TableQuery

/-! ## Milliseconds in nanoseconds -/

namespace Instant

variable {ms : Int64}

/-- The nanoseconds of a number of milliseconds, as far as they fit. -/
theorem toInt_ofMilliseconds (ms : Int64) :
    (ofMilliseconds ms).nanoseconds.toInt = (ms.toInt * 1000000).bmod 18446744073709551616 :=
  Int64.toInt_mul ms 1000000

theorem natAbs_toMilliseconds (t : Instant) :
    t.toMilliseconds.toInt.natAbs = t.nanoseconds.toInt.natAbs / 1000000 := by
  have million : (1000000 : Int64).toInt = 1000000 := rfl
  have quotient : (t.nanoseconds.toInt.tdiv 1000000).natAbs = t.nanoseconds.toInt.natAbs / 1000000 :=
    Int.natAbs_tdiv _ _
  have fits : FitsWord (t.nanoseconds.toInt.tdiv 1000000) := by
    obtain ⟨low, high⟩ := fitsWord_toInt t.nanoseconds
    constructor <;> omega
  unfold toMilliseconds
  rw [Int64.toInt_div, million, ← quotient]
  exact congrArg Int.natAbs (bmod_of_fits fits)

/-- Milliseconds come back just if their nanoseconds fit. -/
theorem toMilliseconds_ofMilliseconds_iff :
    (ofMilliseconds ms).toMilliseconds = ms ↔ FitsWord (ms.toInt * 1000000) := by
  constructor
  · intro same
    have quotient := natAbs_toMilliseconds (ofMilliseconds ms)
    rw [same] at quotient
    obtain ⟨low, high⟩ := fitsWord_toInt (ofMilliseconds ms).nanoseconds
    constructor <;> omega
  · rintro ⟨low, high⟩
    exact Context.toMilliseconds_ofMilliseconds low (Int.lt_of_le_of_lt high (by decide))

theorem day_ofMilliseconds (fits : FitsWord (ms.toInt * 1000000)) :
    (ofMilliseconds ms).day = ms.toInt / 86400000 := by
  unfold day perDay
  rw [toInt_ofMilliseconds, bmod_of_fits fits]
  dsimp only [Day]
  omega

/-- Where the nanoseconds do not fit, the instant is some centuries away. -/
theorem day_ofMilliseconds_far (overflows : ¬FitsWord (ms.toInt * 1000000)) :
    ((ofMilliseconds ms).day : Int) + 213502 ≤ ms.toInt / 86400000
      ∨ ms.toInt / 86400000 + 213502 ≤ ((ofMilliseconds ms).day : Int) := by
  have here := toInt_ofMilliseconds ms
  have fits := fitsWord_toInt (ofMilliseconds ms).nanoseconds
  have turns := Int.bmod_add_bdiv (ms.toInt * 1000000) 18446744073709551616
  unfold day perDay
  rw [← here] at turns
  generalize (ofMilliseconds ms).nanoseconds.toInt = n at *
  generalize (ms.toInt * 1000000).bdiv 18446744073709551616 = k at *
  have some : k ≠ 0 := by
    rintro rfl
    rw [Nat.cast_ofNat, mul_zero, add_zero] at turns
    exact overflows (turns ▸ fits)
  obtain ⟨low, high⟩ := fits
  dsimp only [Day]
  push_cast at turns
  omega

end Instant

/-! ## Ranges apart -/

/-- A preset has the range of the day just if the nanoseconds of the milliseconds fit. -/
theorem DatePreset.rangeOn_ofMilliseconds_iff {preset : DatePreset} (named : preset ≠ .custom) {ms : Int64} :
    preset.rangeOn (Instant.ofMilliseconds ms).day = preset.rangeOn (ms.toInt / 86400000)
      ↔ FitsWord (ms.toInt * 1000000) := by
  constructor
  · intro same
    by_contra overflows
    obtain ⟨range, ranged, -⟩ := exists_start_lt_stop named (ms.toInt / 86400000)
    have near := rangeOn_near ranged
    have near' := rangeOn_near (same.trans ranged)
    have far := Instant.day_ofMilliseconds_far overflows
    dsimp only [Day] at *
    omega
  · intro fits
    rw [Instant.day_ofMilliseconds fits]

namespace DateRange

theorem params_toSql (range : DateRange) (f : Fragment) :
    (range.toSql f).params = f.params ++ .str range.start.toIso :: (f.params ++ [.str range.stop.toIso]) := by
  have filled (op : Bytes) (v : Json) : (Operator.binary f op v).isEmpty = false := by
    simp [Operator.binary, Fragment.isEmpty]
  have both : Fragment.present [Operator.binary f ">=" (.str range.start.toIso),
      Operator.binary f "<" (.str range.stop.toIso)] = [Operator.binary f ">=" (.str range.start.toIso),
      Operator.binary f "<" (.str range.stop.toIso)] := by
    rw [Fragment.present_cons_of_filled (filled _ _), Fragment.present_cons_of_filled (filled _ _)]
    rfl
  unfold toSql Fragment.all
  rw [Fragment.params_combine, both]
  simp [Operator.binary]

/-- The condition of a range tells the range. -/
theorem toSql_injective (f : Fragment) : Function.Injective fun range : DateRange => range.toSql f := by
  intro range range' same
  have params : (range.toSql f).params = (range'.toSql f).params := congrArg Fragment.params same
  rw [params_toSql, params_toSql] at params
  obtain ⟨start, rest⟩ := List.cons.inj (List.append_cancel_left params)
  obtain ⟨stop, -⟩ := List.cons.inj (List.append_cancel_left rest)
  have start : range.start = range'.start := Day.toIso_injective (Json.str.inj start)
  have stop : range.stop = range'.stop := Day.toIso_injective (Json.str.inj stop)
  obtain ⟨_, _⟩ := range
  cases start
  cases stop
  rfl

end DateRange

/-! ## Filters by themselves -/

namespace Resolver

variable {r : Resolver} {p : Params} {c : Context} {day : Day} {k : Conjuncts}

/-- The filters that stand in the condition of a request by themselves, with who wrote them: those of the description
that always apply, and the flat ones of the request. -/
def flatFilters (r : Resolver) (p : Params) : List (Author × Condition) :=
  (r.table.filters.filter fun f => f.kind == .static).map (fun f => (.description, f.condition))
    ++ p.filters.map fun (field, f) => (.request, { field, op := f.op, value := f.value })

/-- What such a filter compiles to is one of the conjuncts. -/
theorem Conjoins.mem_list (h : r.Conjoins p c day k) {author : Author} {leaf : Condition}
    (mem : (author, leaf) ∈ r.flatFilters p) : ∃ g ∈ k.list, leaf.toSqlBy author r {} day = .ok g := by
  unfold Conjuncts.list
  rcases List.mem_append.mp mem with always | asked
  · obtain ⟨filter, described, same⟩ := List.mem_map.mp always
    cases same
    obtain ⟨g, made, compiled⟩ := Checked.exists_mem_mapM h.static described
    refine ⟨g, ?_, compiled⟩
    simp [made]
  · obtain ⟨⟨field, filter⟩, sent, same⟩ := List.mem_map.mp asked
    cases same
    obtain ⟨g, made, compiled⟩ := Checked.exists_mem_mapM h.filters sent
    refine ⟨g, ?_, compiled⟩
    simp [made]

end Resolver

/-! ## The time of a request -/

namespace Context

variable {j : Json} {c : Context} {ms : Int64}

/-- A context is written with the milliseconds that it was read with just if their nanoseconds fit. -/
theorem toJson_now_iff (now : c.now = some (.ofMilliseconds ms)) :
    c.toJson.get? "now_ms" = some (.ofInt64 ms) ↔ FitsWord (ms.toInt * 1000000) := by
  have distinct : (c.fields.map Prod.fst).Nodup := by
    simp only [fields, List.map_cons, List.map_nil]
    decide
  have written : c.toJson.get? "now_ms" = some (.ofInt64 (Instant.ofMilliseconds ms).toMilliseconds) := by
    rw [toJson_eq]
    apply Json.get?_present distinct
    simp [fields, now]
  rw [written, Option.some_inj, Json.ofInt64_injective.eq_iff, Instant.toMilliseconds_ofMilliseconds_iff]

/-- A filter that names a preset compiles to the range of the day just if the nanoseconds fit. -/
theorem toSqlBy_today_iff (now : c.now = some (.ofMilliseconds ms)) (clock : Instant) {author : Author} {r : Resolver}
    {limits : Limits} {leaf : Condition} {f : Field} {preset : DatePreset} {range : DateRange}
    (found : r.resolve leaf.field = some f) (allowed : author = .request → r.mayFilter f = true)
    (named : r.preset? f leaf.value = some preset) (ranged : preset.rangeOn (ms.toInt / 86400000) = some range) :
    leaf.toSqlBy author r limits (c.today clock) = .ok (range.toSql f.expression)
      ↔ FitsWord (ms.toInt * 1000000) := by
  have today : c.today clock = (Instant.ofMilliseconds ms).day := by
    rw [today, now]
    rfl
  have notCustom : preset ≠ .custom := by
    rintro rfl
    cases ranged
  obtain ⟨range', ranged', -⟩ := DatePreset.exists_start_lt_stop notCustom (c.today clock)
  rw [Condition.toSqlBy_of_preset found allowed named ranged', ← DatePreset.rangeOn_ofMilliseconds_iff notCustom,
    ← today, ranged', ranged, Except.ok.injEq, (DateRange.toSql_injective f.expression).eq_iff, Option.some_inj]

/-- A time is read in milliseconds and held in nanoseconds. It is written back as it was read, and the filters that name a
preset compile to the range of its day in UTC, rounded down before 1970 too, for those milliseconds whose nanoseconds
fit 64 bits. For others neither is so, and no preset has the range of the day. In a statement for the rows of a page,
those filters of the description and of the request that stand by themselves are conjuncts of the condition, each with
its range, whatever the clock shows. -/
theorem request_time_iff (read : ofJson j = .ok c) (given : j.get? "now_ms" = some (.ofInt64 ms)) :
    (c.toJson.get? "now_ms" = some (.ofInt64 ms) ↔ FitsWord (ms.toInt * 1000000))
    ∧ (∀ (clock : Instant) (author : Author) (r : Resolver) (limits : Limits) (leaf : Condition) (f : Field)
        (preset : DatePreset), r.resolve leaf.field = some f → (author = .request → r.mayFilter f = true) →
      r.preset? f leaf.value = some preset → preset ≠ .custom →
      ∃ range, preset.rangeOn (ms.toInt / 86400000) = some range
        ∧ (leaf.toSqlBy author r limits (c.today clock) = .ok (range.toSql f.expression)
          ↔ FitsWord (ms.toInt * 1000000)))
    ∧ (FitsWord (ms.toInt * 1000000) → ∀ (t : Table) (d : Dialect) (p : Params) (clock : Instant) (compiled : Compiled),
      t.compile d p c clock = .ok compiled →
      ∃ e r conjuncts, t.effective c = .ok e ∧ Resolver.ofTable e d = .ok r
        ∧ compiled.data.condition = .all conjuncts
        ∧ ∀ author leaf, (author, leaf) ∈ r.flatFilters p → ∀ f preset, r.resolve leaf.field = some f →
          r.preset? f leaf.value = some preset → preset ≠ .custom →
          ∃ range, preset.rangeOn (ms.toInt / 86400000) = some range ∧ range.toSql f.expression ∈ conjuncts) := by
  have number : (Json.ofInt64 ms).asInt64 = .ok ms := congrArg Except.ok (Int64.ofInt_toInt ms)
  have now : c.now = some (.ofMilliseconds ms) := now_of_ofJson read given number
  refine ⟨toJson_now_iff now, ?_, ?_⟩
  · intro clock author r limits leaf f preset found allowed named notCustom
    obtain ⟨range, ranged, -⟩ := DatePreset.exists_start_lt_stop notCustom (ms.toInt / 86400000)
    exact ⟨range, ranged, toSqlBy_today_iff now clock found allowed named ranged⟩
  · intro fits t d p clock compiled made
    obtain ⟨⟨e, r, k, he, hr, conjoins, condition⟩, -⟩ := Table.conjoins_of_compile made
    refine ⟨e, r, _, he, hr, condition, ?_⟩
    intro author leaf flat f preset found named notCustom
    obtain ⟨range, ranged, -⟩ := DatePreset.exists_start_lt_stop notCustom (ms.toInt / 86400000)
    obtain ⟨g, mem, step⟩ := conjoins.mem_list flat
    have allowed : author = .request → r.mayFilter f = true := by
      rintro rfl
      obtain ⟨unknown, -⟩ | ⟨f', found', may, -⟩ := Condition.ofRequest_eq_ok step
      · rw [unknown] at found
        cases found
      · obtain rfl : f = f' := Option.some.inj (found.symm.trans found')
        exact may
    have exact : leaf.toSqlBy author r {} (c.today clock) = .ok (range.toSql f.expression) :=
      (toSqlBy_today_iff now clock found allowed named ranged).mpr fits
    rw [step] at exact
    cases exact
    exact ⟨range, ranged, List.mem_append_left _ mem⟩

/-- Deliveries that are due today. -/
def dueToday : Condition where
  field := "due"
  value := .str "today"

/-- The last millisecond of 1969 comes back, and today is the last day of the year. Of the first milliseconds that are too
many, neither is so. -/
theorem request_time_iff_deliveries :
    ∃ before after r f, ofJson (.record [("now_ms", .int (-1))]) = .ok before
      ∧ ofJson (.record [("now_ms", .int 9223372036855)]) = .ok after
      ∧ Resolver.ofTable Condition.deliveries .sqlite = .ok r ∧ r.resolve "due" = some f
      ∧ before.toJson.get? "now_ms" = some (.int (-1)) ∧ after.toJson.get? "now_ms" ≠ some (.int 9223372036855)
      ∧ dueToday.toSqlBy .request r {} (before.today ⟨0⟩) = .ok ((DateRange.mk (-1) 0).toSql f.expression)
      ∧ dueToday.toSqlBy .request r {} (after.today ⟨0⟩) ≠ .ok ((DateRange.mk 106751 106752).toSql f.expression) := by
  obtain ⟨before, hbefore⟩ : ∃ c, ofJson (.record [("now_ms", .int (-1))]) = .ok c := ⟨_, rfl⟩
  obtain ⟨after, hafter⟩ : ∃ c, ofJson (.record [("now_ms", .int 9223372036855)]) = .ok c := ⟨_, rfl⟩
  obtain ⟨r, made⟩ : ∃ r, Resolver.ofTable Condition.deliveries .sqlite = .ok r := ⟨_, rfl⟩
  obtain ⟨f, found, allowed, named⟩ : ∃ f, r.resolve dueToday.field = some f ∧ r.mayFilter f = true
      ∧ r.preset? f dueToday.value = some .today := by
    cases made
    exact ⟨_, rfl, rfl, rfl⟩
  obtain ⟨back, day, -⟩ := request_time_iff hbefore (rfl : Json.get? _ "now_ms" = some (.ofInt64 (-1)))
  obtain ⟨lost, noDay, -⟩ := request_time_iff hafter (rfl : Json.get? _ "now_ms" = some (.ofInt64 9223372036855))
  obtain ⟨range, ranged, here⟩ :=
    day ⟨0⟩ .request r {} dueToday f .today found (fun _ => allowed) named (by decide)
  obtain ⟨range', ranged', there⟩ :=
    noDay ⟨0⟩ .request r {} dueToday f .today found (fun _ => allowed) named (by decide)
  obtain rfl : range = ⟨-1, 0⟩ := Option.some.inj (ranged.symm.trans (by decide))
  obtain rfl : range' = ⟨106751, 106752⟩ := Option.some.inj (ranged'.symm.trans (by decide))
  exact ⟨before, after, r, f, hbefore, hafter, made, found, back.mpr (by decide), lost.not.mpr (by decide),
    here.mpr (by decide), there.not.mpr (by decide)⟩

end Context

end TableQuery
