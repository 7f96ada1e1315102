import TableQuery.Proofs.Sql.Operator

/-!
# Fragments of one text

Two fragments are alike if they have the same text, bind equally many values and record the same connective. What
is built from fragments that are alike, in the same way, is alike again, since no way of building looks at a value.

An operator looks at two things only: whether its value is null, and how long a list it is. Values that agree on
both give alike conditions.

## What is proved

`Fragment.Alike.all`, `Fragment.Alike.any` and one such law for each other way of building; `Operator.alike_apply`,
for the condition that an operator puts on a column; `Fragment.Alike.render_eq`: alike fragments are handed out
with the same text, in the dialects that number placeholders as well.
-/

namespace TableQuery

/-! ## Fragments -/

namespace Fragment

/-- Two fragments that differ in the values that they bind, and in nothing else. -/
structure Alike (f g : Fragment) : Prop where
  sql : f.sql = g.sql
  count : f.params.length = g.params.length
  kind : f.kind = g.kind

namespace Alike

variable {f g f' g' : Fragment} {fs gs : List Fragment}

theorem refl (f : Fragment) : Alike f f := ⟨rfl, rfl, rfl⟩

theorem render_eq (h : Alike f g) (d : Dialect) : f.render d = g.render d := by
  unfold render
  rw [h.sql]

theorem isEmpty_eq (h : Alike f g) : f.isEmpty = g.isEmpty := by
  unfold isEmpty
  rw [h.sql]

theorem value (v w : Json) : Alike (.value v) (.value w) := ⟨rfl, rfl, rfl⟩

theorem add (h : Alike f g) (sql : Bytes) : Alike (f.add sql) (g.add sql) where
  sql := by rw [sql_add, sql_add, h.sql]
  count := h.count
  kind := h.kind

theorem bind (h : Alike f g) (v w : Json) : Alike (f.bind v) (g.bind w) where
  sql := by rw [sql_bind, sql_bind, h.sql]
  count := by rw [params_bind, params_bind, List.length_append, List.length_append, h.count]; rfl
  kind := h.kind

theorem append (h : Alike f g) (h' : Alike f' g') : Alike (f ++ f') (g ++ g') where
  sql := by rw [sql_append, sql_append, h.sql, h'.sql]
  count := by rw [params_append, params_append, List.length_append, List.length_append, h.count, h'.count]
  kind := h.kind

theorem wrapped (h : Alike f g) : Alike f.wrapped g.wrapped where
  sql := by
    unfold Fragment.wrapped
    rw [h.sql]
  count := h.count
  kind := rfl

theorem withKind (h : Alike f g) (kind : Connective) : Alike (f.withKind kind) (g.withKind kind) :=
  ⟨h.sql, h.count, rfl⟩

theorem guarded (h : Alike f g) (wraps : Connective) :
    Alike (Fragment.guarded wraps f) (Fragment.guarded wraps g) := by
  unfold Fragment.guarded
  rw [h.kind]
  split_ifs
  · exact h.wrapped
  · exact h

/-! Lists of fragments, place by place. -/

theorem foldl_join (separator : Bytes) (h : List.Forall₂ Alike fs gs) (start : Alike f g) :
    Alike (fs.foldl (fun acc part => acc.add separator ++ part) f)
      (gs.foldl (fun acc part => acc.add separator ++ part) g) := by
  induction h generalizing f g with
  | nil => exact start
  | cons next _ ih => exact ih ((start.add separator).append next)

theorem join (separator : Bytes) (h : List.Forall₂ Alike fs gs) :
    Alike (Fragment.join separator fs) (Fragment.join separator gs) := by
  cases h with
  | nil => exact refl _
  | cons first rest => exact foldl_join separator rest ((refl .empty).append first)

theorem present (h : List.Forall₂ Alike fs gs) :
    List.Forall₂ Alike (Fragment.present fs) (Fragment.present gs) := by
  unfold Fragment.present
  induction h with
  | nil => exact .nil
  | cons head _ ih =>
    rw [List.filter_cons, List.filter_cons, head.isEmpty_eq]
    split_ifs
    · exact .cons head ih
    · exact ih

theorem map_guarded (h : List.Forall₂ Alike fs gs) (wraps : Connective) :
    List.Forall₂ Alike (fs.map (Fragment.guarded wraps)) (gs.map (Fragment.guarded wraps)) := by
  rw [List.forall₂_map_left_iff, List.forall₂_map_right_iff]
  exact h.imp fun _ _ h => h.guarded wraps

theorem combine (op : Bytes) (kind wraps : Connective) (h : List.Forall₂ Alike fs gs) :
    Alike (Fragment.combine op kind wraps fs) (Fragment.combine op kind wraps gs) := by
  have kept := present h
  cases hf : Fragment.present fs with
  | nil =>
    rw [hf, List.forall₂_nil_left_iff] at kept
    rw [combine_nil hf, combine_nil kept]
    exact refl _
  | cons f rest =>
    rw [hf] at kept
    obtain ⟨g, rest', first, more, hg⟩ := List.forall₂_cons_left_iff.mp kept
    cases more with
    | nil =>
      rw [combine_singleton hf, combine_singleton hg]
      exact first
    | cons second more =>
      rw [combine_cons_cons hf, combine_cons_cons hg]
      have parts := List.Forall₂.cons (first.guarded wraps) (.cons (second.guarded wraps) (map_guarded more wraps))
      exact (join op parts).withKind kind

theorem all (h : List.Forall₂ Alike fs gs) : Alike (.all fs) (.all gs) := combine _ _ _ h

theorem any (h : List.Forall₂ Alike fs gs) : Alike (.any fs) (.any gs) := combine _ _ _ h

end Alike

end Fragment

/-! ## Operators -/

/-- Two values that no operator tells apart in the text of its condition: both are null or neither is, and if both
are lists, these are equally long. -/
structure Json.Alike (v w : Json) : Prop where
  null : v.isNull = w.isNull
  length : ∀ vs ws, v = .arr vs → w = .arr ws → vs.length = ws.length

theorem Json.alike_str (s t : Bytes) : Alike (.str s) (.str t) where
  null := rfl
  length := by
    intro vs ws eq
    cases eq

/-- Every value is like itself. -/
theorem Json.Alike.refl (v : Json) : Alike v v where
  null := rfl
  length := by
    rintro vs ws rfl eq
    cases eq
    rfl

namespace Operator

variable {op : Operator} {v w : Json} {label label' : Bytes} {vs ws : List Json} {column : Fragment} {d : Dialect}
  {f g : Fragment}

theorem alike_binary (column : Fragment) (sign : Bytes) (v w : Json) :
    (binary column sign v).Alike (binary column sign w) := .bind (.refl _) v w

theorem alike_valueList (column : Fragment) (keyword : Bytes) (same : vs.length = ws.length) :
    (valueList column keyword vs).Alike (valueList column keyword ws) := by
  have values : List.Forall₂ Fragment.Alike (vs.map Fragment.value) (ws.map Fragment.value) := by
    rw [List.forall₂_iff_get]
    refine ⟨by rw [List.length_map, List.length_map, same], ?_⟩
    intro i _ _
    rw [List.get_eq_getElem, List.get_eq_getElem, List.getElem_map, List.getElem_map]
    exact .value _ _
  exact ((Fragment.Alike.refl _).append (.join ", " values)).add ")"

theorem isEmpty_eq_of_length (same : vs.length = ws.length) : vs.isEmpty = ws.isEmpty := by
  rw [Bool.eq_iff_iff, List.isEmpty_iff_length_eq_zero, List.isEmpty_iff_length_eq_zero, same]

/-- The conditions that an operator puts on a column for two values are alike if the values are. -/
theorem alike_apply (values : v.Alike w) (hf : op.apply column v d label = .ok f)
    (hg : op.apply column w d label' = .ok g) : f.Alike g := by
  unfold apply at hf hg
  cases op with
  | eq | neq =>
    cases hf
    cases hg
    rw [values.null]
    split_ifs
    · exact .refl _
    · exact alike_binary _ _ v w
  | gt | gte | lt | lte | like =>
    cases hf
    cases hg
    exact alike_binary _ _ v w
  | ilike =>
    obtain ⟨-, -, hf⟩ := Checked.bind_eq_ok.mp hf
    obtain ⟨-, -, hg⟩ := Checked.bind_eq_ok.mp hg
    cases hf
    cases hg
    exact alike_binary _ _ v w
  | isIn | notIn =>
    obtain ⟨vs, hvs, hf⟩ := Checked.bind_eq_ok.mp hf
    obtain ⟨ws, hws, hg⟩ := Checked.bind_eq_ok.mp hg
    cases hf
    cases hg
    have same := values.length vs ws (requireArray_eq_ok.mp hvs) (requireArray_eq_ok.mp hws)
    rw [isEmpty_eq_of_length same]
    split_ifs
    · exact .refl _
    · exact alike_valueList _ _ same
  | between =>
    obtain ⟨vs, -, hf⟩ := Checked.bind_eq_ok.mp hf
    obtain ⟨ws, -, hg⟩ := Checked.bind_eq_ok.mp hg
    split at hf
    · split at hg
      · cases hf
        cases hg
        exact ((Fragment.Alike.refl _).bind _ _).add " AND " |>.bind _ _
      · cases hg
    · cases hf
  | isNull | isNotNull =>
    cases hf
    cases hg
    exact .refl _
  | contains | startsWith | endsWith =>
    obtain ⟨text, -, hf⟩ := Checked.bind_eq_ok.mp hf
    obtain ⟨text', -, hg⟩ := Checked.bind_eq_ok.mp hg
    cases hf
    cases hg
    exact ((Fragment.Alike.refl _).bind _ _).add " ESCAPE '!'"

end Operator

end TableQuery
