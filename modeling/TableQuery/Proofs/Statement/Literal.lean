import TableQuery.Proofs.Sql.Pattern
import TableQuery.Proofs.Statement.Search

/-!
# Texts are looked for literally

A filter that looks for a text, and a search without the dialect's own full-text search, make a pattern of the text.
Nothing in the text is a wildcard of that pattern: whatever bytes the text has, the pattern finds the text itself, and
the search looks for its term, without the blanks around it, in each of its fields.

## What is proved

`Resolver.finds_literally`: which texts the bound patterns match, and which rows are kept for it.
-/

namespace TableQuery

namespace Resolver

variable {r : Resolver} {limits : Limits} {s : Search} {word : Bytes}

/-- The condition of a term in each of the fields of a search. -/
def inEachField (r : Resolver) (s : Search) (term : Bytes) : Fragment :=
  Fragment.any ((r.searchFields s).map fun f =>
    Pattern.condition (r.textOf f) r.dialect (Operator.contains.patternOf term))

/-- A search without a full-text search looks for its term, without the blanks around it, in each of its fields. -/
theorem search_of_plain (described : r.table.search = some s) (enabled : s.enabled = true)
    (plain : s.fullText = false) (short : (Bytes.trim Ascii.isSpace word).length ≤ limits.searchLength) :
    r.search limits (some word) = .ok (if Bytes.trim Ascii.isSpace word = [] then .empty
      else r.inEachField s (Bytes.trim Ascii.isSpace word)) := by
  have term : limits.checkSearchTerm word = .ok (Bytes.trim Ascii.isSpace word) := by
    unfold Limits.checkSearchTerm
    dsimp only
    rw [if_neg (not_lt.mpr short)]
  have parts : (r.searchFields s).mapM
      (fun f => Operator.contains.apply (r.textOf f) (.str (Bytes.trim Ascii.isSpace word)) r.dialect f.name)
        = .ok ((r.searchFields s).map fun f => Pattern.condition (r.textOf f) r.dialect
          (Operator.contains.patternOf (Bytes.trim Ascii.isSpace word))) := by
    rw [Checked.mapM_eq_ok, List.forall₂_map_right_iff, List.forall₂_same]
    exact fun f _ => Operator.apply_text .contains _ _ _ _
  unfold search
  rw [described]
  dsimp only
  rw [enabled, Bool.not_true, Bool.false_or]
  by_cases listed : s.fields = []
  · have none : r.searchFields s = [] := by
      unfold searchFields
      rw [listed]
      rfl
    rw [listed, List.isEmpty_nil, if_pos rfl, inEachField, none]
    split_ifs <;> rfl
  · rw [List.isEmpty_eq_false_iff.mpr listed, if_neg Bool.false_ne_true, term]
    change (if _ then _ else _) = _
    by_cases blank : Bytes.trim Ascii.isSpace word = []
    · rw [if_pos blank, blank, List.isEmpty_nil, Bool.true_or, if_pos rfl]
      rfl
    · rw [if_neg blank, List.isEmpty_eq_false_iff.mpr blank, Bool.false_or, plain, if_neg Bool.false_ne_true, parts,
        inEachField]
      cases r.searchFields s <;> rfl

variable {qualifier : Bytes} {t : Table} {d : Dialect} {fold : Keyword → UInt8 → UInt8} {c : Collation} {ρ : Row}

/-- The fields of a search are operands. -/
theorem isOperand_searchField (hr : r.Describes qualifier t d) (trusted : ∀ e ∈ t.expressionTexts, e.Closes True)
    {f : Field} (mem : f ∈ r.searchFields s) : (r.textOf f).IsOperand True := by
  obtain ⟨name, -, found⟩ := List.mem_filterMap.mp mem
  exact r.isOperand_textOf (hr.isOperand_of_resolve trusted (Option.filter_eq_some_iff.mp found).1)

/-- A term in each of the fields keeps the rows that have it in the text of one of them. -/
theorem keeps_inEachField (hr : r.Describes qualifier t d) (trusted : ∀ e ∈ t.expressionTexts, e.Closes True)
    (some : r.searchFields s ≠ []) (term : Bytes) :
    (r.inEachField s term).Keeps ((ρ.withPatterns fold).atom c)
      ↔ ∃ f ∈ r.searchFields s, ∃ text, ρ.value (r.textOf f).bound = .str text
        ∧ Operator.contains.Finds (fold (Operator.patternKeyword r.dialect)) term text := by
  have tests : ∀ g ∈ (r.searchFields s).map fun f =>
      Pattern.condition (r.textOf f) r.dialect (Operator.contains.patternOf term), g.IsTest True := by
    intro g mem
    obtain ⟨f, hf, rfl⟩ := List.mem_map.mp mem
    exact Operator.isTest_pattern (isOperand_searchField hr trusted hf) r.dialect _
  have each {f : Field} (hf : f ∈ r.searchFields s) :
      (Pattern.condition (r.textOf f) r.dialect (Operator.contains.patternOf term)).Keeps ((ρ.withPatterns fold).atom c)
        ↔ ∃ text, ρ.value (r.textOf f).bound = .str text
          ∧ Operator.contains.Finds (fold (Operator.patternKeyword r.dialect)) term text :=
    Operator.keeps_text .contains (isOperand_searchField hr trusted hf) r.dialect term
  rw [inEachField, Fragment.keeps_any (fun g mem => (tests g mem).reads) (fun g mem => (tests g mem).filled)
    (by simpa using some)]
  constructor
  · rintro ⟨g, mem, keeps⟩
    obtain ⟨f, hf, rfl⟩ := List.mem_map.mp mem
    exact ⟨f, hf, (each hf).mp keeps⟩
  · rintro ⟨f, hf, found⟩
    exact ⟨_, List.mem_map_of_mem hf, (each hf).mpr found⟩

/-- A text is found where it stands, whatever bytes it has. The pattern that an operator binds matches just the texts
where the operator finds its own, so the operator keeps the rows whose value is such a text. A search binds the pattern
of its term for each of its fields, and keeps the rows that contain the term in one of them; a blank term, or a search
without a field, asks for nothing. -/
theorem finds_literally :
    (∀ op : Operator, op.LooksForText → ∀ s : Bytes,
      (∀ (column : Fragment) (d : Dialect) (field : Bytes),
        op.apply column (.str s) d field = .ok (Pattern.condition column d (op.patternOf s))
        ∧ (column.IsOperand True → ∀ (fold : Keyword → UInt8 → UInt8) (c : Collation) (ρ : Row),
          (Pattern.condition column d (op.patternOf s)).Keeps ((ρ.withPatterns fold).atom c)
            ↔ ∃ text, ρ.value column.bound = .str text ∧ op.Finds (fold (Operator.patternKeyword d)) s text))
      ∧ ∀ fold text, Pattern.likes Pattern.escapeMark fold (op.patternOf s) text = true ↔ op.Finds fold s text)
    ∧ ∀ (qualifier : Bytes) (t : Table) (d : Dialect) (r : Resolver), Resolver.ofTableAs qualifier t d = .ok r →
      (∀ e ∈ t.expressionTexts, e.Closes True) →
      ∀ (limits : Limits) (s : Search) (word : Bytes), t.search = some s → s.enabled = true → s.fullText = false →
      (Bytes.trim Ascii.isSpace word).length ≤ limits.searchLength →
      ∃ g, r.search limits (some word) = .ok g
        ∧ (Bytes.trim Ascii.isSpace word ≠ [] → g = r.inEachField s (Bytes.trim Ascii.isSpace word))
        ∧ ∀ (fold : Keyword → UInt8 → UInt8) (c : Collation) (ρ : Row),
          g.Keeps ((ρ.withPatterns fold).atom c)
            ↔ Bytes.trim Ascii.isSpace word = [] ∨ r.searchFields s = []
              ∨ ∃ f ∈ r.searchFields s, ∃ text, ρ.value (r.textOf f).bound = .str text
                ∧ Operator.contains.Finds (fold (Operator.patternKeyword d)) (Bytes.trim Ascii.isSpace word) text := by
  constructor
  · intro op looks s
    refine ⟨fun column d field => ⟨Operator.apply_text looks column s d field, ?_⟩, ?_⟩
    · exact fun operand _ _ _ => Operator.keeps_text looks operand d s
    · exact fun fold text => Operator.likes_patternOf looks fold s text
  · intro qualifier t d r made trusted limits s word described enabled plain short
    have hr := Resolver.describes made
    refine ⟨_, search_of_plain (hr.table.symm ▸ described) enabled plain short, fun filled => if_neg filled, ?_⟩
    intro fold c ρ
    by_cases blank : Bytes.trim Ascii.isSpace word = []
    · rw [if_pos blank]
      exact iff_of_true (.inl rfl) (.inl blank)
    · rw [if_neg blank, or_iff_right blank, ← hr.dialect]
      by_cases none : r.searchFields s = []
      · have nothing : r.inEachField s (Bytes.trim Ascii.isSpace word) = .empty := by
          rw [inEachField, none]
          rfl
        rw [nothing]
        exact iff_of_true (.inl rfl) (.inl none)
      · rw [or_iff_right none]
        exact keeps_inEachField hr trusted none _

/-- Offers that are searched by their title. -/
def offers : Table where
  name := "offers"
  base := "offers"
  columns := [{ name := "title" }]
  search := some { fields := ["title"] }

/-- An offer of a given title, which matches patterns in any case. -/
def offerOf (title : Bytes) : Row := Row.withPatterns (fun _ => Ascii.toLower) ⟨fun _ => .str title, fun _ => .unknown⟩

/-- A search for `50%!` keeps an offer with these four bytes in its title, and none that a wildcard would let in. -/
theorem finds_literally_offers :
    ∃ r g, Resolver.ofTableAs [] offers .sqlite = .ok r ∧ r.search {} (some " Up to 50%! ") = .ok g
      ∧ ∀ c, g.Keeps ((offerOf "Now UP TO 50%! less").atom c) ∧ ¬g.Keeps ((offerOf "Up to 50 and more!").atom c) := by
  obtain ⟨-, searches⟩ := finds_literally
  obtain ⟨g, ok, -, keeps⟩ := searches [] offers .sqlite _ rfl (by nofun) {} { fields := ["title"] } " Up to 50%! " rfl
    rfl rfl (by decide)
  refine ⟨_, g, rfl, ok, fun c => ⟨(keeps _ c _).mpr (.inr (.inr ?_)), fun kept => ?_⟩⟩
  · refine ⟨_, List.mem_singleton.mpr rfl, _, rfl, ?_⟩
    unfold Operator.Finds
    decide
  · rcases (keeps _ c _).mp kept with blank | none | ⟨f, -, text, value, found⟩
    · exact absurd blank (by decide)
    · exact absurd none (List.cons_ne_nil _ _)
    · obtain rfl : Bytes.ofString "Up to 50 and more!" = text := Json.str.inj value
      unfold Operator.Finds at found
      revert found
      decide

end Resolver

end TableQuery
