import TableQuery.Proofs.Field.Shadow

/-!
# The fields of a description in two statements

A description's fields are made anew for each statement: in the dialect of the statement, and with the name that its
base columns go by there. What a field is does not depend on either. It has the same name, is declared by the same
column or subquery, and has one value in each row or not; what is a column of the base table stays one.

Looking up does depend on the name of the base table, since a name may have it as its qualifier.

## What is proved

`Resolver.exists_counterpart`: a name that finds a field in the statement where the base columns go by the table's
own name finds a field in every other statement. `Resolver.exists_ofTableAs`: the fields can be made under any name
of the base table if they can under its own.
-/

namespace TableQuery

variable {base own : Bytes} {d d' : Dialect}

/-! ## Fields -/

namespace Field

/-- The field of one declaration in two statements. If they do not read it through the same name, the first reads it
through `table` and the second through `table'`. -/
structure Counterpart (table table' : Bytes) (f g : Field) : Prop where
  name : g.name = f.name
  origin : g.origin = f.origin
  computed : (g.source == .computed) = (f.source == .computed)
  scalar : g.scalar = f.scalar
  stays : f.source = .base → g.source = .base
  qualifier : g.qualifier = f.qualifier ∨ f.qualifier = table ∧ g.qualifier = table' ∧ g.source = .base

namespace Counterpart

variable {f g : Field} {table table' : Bytes}

theorem isTableColumn (h : Counterpart table table' f g) : g.isTableColumn = f.isTableColumn := by
  unfold Field.isTableColumn
  rw [h.origin]

theorem qualifier_eq (h : Counterpart table table f g) : g.qualifier = f.qualifier := by
  rcases h.qualifier with same | ⟨first, second, -⟩
  · exact same
  · rw [first, second]

/-- Read through one name, they may be taken for read through two. -/
theorem of_same (h : Counterpart base base f g) : Counterpart table table' f g where
  name := h.name
  origin := h.origin
  computed := h.computed
  scalar := h.scalar
  stays := h.stays
  qualifier := .inl h.qualifier_eq

end Counterpart

/-- A column's field where the base columns go by the name of the base table, and where they go by their own. -/
theorem counterpart_ofColumn {table table' : Bytes} (through : table' = own ∨ table' = table) (c : Column) :
    Counterpart table table' (ofColumn d [base, base] table c) (ofColumn d' [own, base] table' c) := by
  have base_mem {q : Bytes} (h : [base, base].contains q = true) : [own, base].contains q = true := by
    simp only [List.contains_cons, List.contains_nil, Bool.or_false, Bool.or_self] at h ⊢
    rw [h, Bool.or_true]
  unfold ofColumn
  split_ifs
  · exact ⟨rfl, rfl, rfl, rfl, fun h => h, .inl rfl⟩
  · unfold ofTableColumn
    cases Bytes.cut Ascii.dot c.source with
    | some parts =>
      dsimp only
      refine ⟨rfl, rfl, ?_, rfl, ?_, .inl rfl⟩
      · split_ifs <;> rfl
      · intro read
        split_ifs at read with h
        rw [if_pos (base_mem h)]
    | none =>
      dsimp only
      rcases through with rfl | rfl
      · have named : [table', base].contains table' = true := by simp
        rw [named]
        refine ⟨rfl, rfl, ?_, rfl, fun _ => rfl, .inr ⟨rfl, rfl, rfl⟩⟩
        dsimp only
        split_ifs <;> rfl
      · refine ⟨rfl, rfl, ?_, rfl, ?_, .inl rfl⟩
        · dsimp only
          split_ifs <;> rfl
        · intro read
          dsimp only at read ⊢
          split_ifs at read with h
          rw [if_pos (base_mem h)]

theorem counterpart_ofSubquery {s : Subquery} {f g : Field} (hf : ofSubquery d s = .ok f)
    (hg : ofSubquery d' s = .ok g) : Counterpart base own f g := by
  unfold ofSubquery at hf hg
  cases mode : s.mode with
  | first =>
    rw [mode] at hf hg
    cases hf
    cases hg
    exact ⟨rfl, rfl, rfl, rfl, fun h => h, .inl rfl⟩
  | count | «exists» =>
    rw [mode] at hf hg
    obtain ⟨e, -, hf⟩ := Checked.bind_eq_ok.mp hf
    obtain ⟨e', -, hg⟩ := Checked.bind_eq_ok.mp hg
    cases hf
    cases hg
    exact ⟨rfl, rfl, rfl, rfl, fun h => h, .inl rfl⟩

end Field

/-! ## Lists of fields -/

section Lists

variable {α β : Type} {R : α → β → Prop} {l : List α} {l' : List β} {p : α → Bool} {q : β → Bool}

/-- Lists that are related element by element find related elements, by tests that agree. -/
theorem rel_find? (h : List.Forall₂ R l l') (agree : ∀ a b, R a b → p a = q b) :
    Option.Rel R (l.find? p) (l'.find? q) := by
  induction h with
  | nil => exact .none
  | cons head _ ih =>
    rw [List.find?_cons, List.find?_cons, agree _ _ head]
    cases q _ with
    | true => exact .some head
    | false => exact ih

theorem rel_filter (h : List.Forall₂ R l l') (agree : ∀ a b, R a b → p a = q b) :
    List.Forall₂ R (l.filter p) (l'.filter q) := by
  induction h with
  | nil => exact .nil
  | cons head _ ih =>
    rw [List.filter_cons, List.filter_cons, agree _ _ head]
    split_ifs
    · exact .cons head ih
    · exact ih

theorem any_eq_of_forall₂ (h : List.Forall₂ R l l') (agree : ∀ a b, R a b → p a = q b) : l.any p = l'.any q := by
  induction h with
  | nil => rfl
  | cons head _ ih => rw [List.any_cons, List.any_cons, agree _ _ head, ih]

theorem Option.rel_or {x x' : Option α} {y y' : Option β} (h : Option.Rel R x y) (h' : Option.Rel R x' y') :
    Option.Rel R (x.or x') (y.or y') := by
  cases h with
  | none => exact h'
  | some related => exact .some related

end Lists

namespace Resolver

variable {v r : Resolver} {qualifier : Bytes} {t : Table} {f : Field} {name : Bytes}

/-- The fields of one description in two statements, list by list. Only the description's own columns are read through
another name. -/
structure Counterparts (base own : Bytes) (v r : Resolver) : Prop where
  declared : List.Forall₂ (Field.Counterpart base own) v.declared r.declared
  joined : List.Forall₂ (Field.Counterpart base base) v.joined r.joined
  shadowed : List.Forall₂ (Field.Counterpart base base) v.shadowed r.shadowed
  subqueries : List.Forall₂ (Field.Counterpart base base) v.subqueries r.subqueries

theorem counterparts (hv : v.Describes [] t d) (hr : r.Describes qualifier t d') :
    Counterparts t.base (qualifierOr qualifier t) v r := by
  have declared : List.Forall₂ (Field.Counterpart t.base (qualifierOr qualifier t)) v.declared r.declared := by
    rw [(addFields_eq hv.declared).1, (addFields_eq hr.declared).1]
    unfold ownFields
    rw [List.forall₂_map_left_iff, List.forall₂_map_right_iff, List.forall₂_same]
    exact fun c _ => Field.counterpart_ofColumn (.inl rfl) c
  have joinFields : List.Forall₂ (Field.Counterpart t.base t.base) v.joinFields r.joinFields := by
    unfold Resolver.joinFields
    rw [JoinPlan.columns_ofTable hv.joins, JoinPlan.columns_ofTable hr.joins, hv.baseQualifier, hr.baseQualifier, hv.table, hr.table,
      List.forall₂_map_left_iff, List.forall₂_map_right_iff, List.forall₂_same]
    exact fun c _ => (Field.counterpart_ofColumn (.inr rfl) c.column).of_same
  have shadows (f g : Field) (h : Field.Counterpart t.base t.base f g) : v.shadows f = r.shadows g := by
    refine any_eq_of_forall₂ declared fun a b related => ?_
    rw [bne, bne, related.computed, related.name, h.name]
  refine ⟨declared, ?_, ?_, ?_⟩
  · rw [hv.joined, hr.joined]
    exact rel_filter joinFields fun f g h => by rw [shadows f g h]
  · rw [hv.shadowed, hr.shadowed]
    exact rel_filter joinFields shadows
  · have same : List.Forall₂ Eq t.subqueries _ := List.forall₂_same.mpr fun _ _ => rfl
    refine Checked.forall₂_mapM same ?_ (addSubqueries_eq hv.subqueries) (addSubqueries_eq hr.subqueries)
    rintro s _ f g rfl hf hg
    exact Field.counterpart_ofSubquery hf hg

/-- A bare name finds the field of one declaration in both statements, or in neither. -/
theorem Counterparts.resolvePlain (h : Counterparts base own v r) (name : Bytes) :
    Option.Rel (Field.Counterpart base own) (v.resolvePlain name) (r.resolvePlain name) := by
  have find {fs gs : List Field} (related : List.Forall₂ (Field.Counterpart base own) fs gs) :
      Option.Rel (Field.Counterpart base own) (find? name fs) (find? name gs) :=
    rel_find? related fun f g related => by rw [related.name]
  have baseFields : List.Forall₂ (Field.Counterpart base own) v.baseFields r.baseFields :=
    rel_filter h.declared fun f g related => by rw [bne, bne, related.computed]
  have computed : List.Forall₂ (Field.Counterpart base own) v.computedFields r.computedFields :=
    rel_filter h.declared fun f g related => by rw [related.computed]
  have joined : List.Forall₂ (Field.Counterpart base own) v.joined r.joined :=
    h.joined.imp fun _ _ related => related.of_same
  have subqueries : List.Forall₂ (Field.Counterpart base own) v.subqueries r.subqueries :=
    h.subqueries.imp fun _ _ related => related.of_same
  exact Option.rel_or (find baseFields) (Option.rel_or (find joined) (Option.rel_or (find computed) (find subqueries)))

/-! ## Columns that are read from a table -/

/-- Every column that is read from a table is a field of the base exactly if it is read through a name of the base
table, and has one value in each row. -/
theorem Describes.of_isTableColumn (hr : r.Describes qualifier t d) (mem : f ∈ r.known)
    (read : f.isTableColumn = true) :
    f.scalar = true ∧ (f.source = .base ↔ f.qualifier = qualifierOr qualifier t ∨ f.qualifier = t.base) := by
  have column (table : Bytes) (c : Column)
      (read : (Field.ofColumn d [qualifierOr qualifier t, t.base] table c).isTableColumn = true) :
      let g := Field.ofColumn d [qualifierOr qualifier t, t.base] table c
      g.scalar = true ∧ (g.source = .base ↔ g.qualifier = qualifierOr qualifier t ∨ g.qualifier = t.base) := by
    unfold Field.ofColumn at read ⊢
    split_ifs at read ⊢ with computed
    · have unread : (Field.ofComputed c).isTableColumn = !c.computed := rfl
      rw [unread, computed] at read
      cases read
    · unfold Field.ofTableColumn
      refine ⟨rfl, ?_⟩
      dsimp only
      split_ifs with named
      · simpa using named
      · simpa using named
  have joined (mem : f ∈ r.joinFields) :
      f.scalar = true ∧ (f.source = .base ↔ f.qualifier = qualifierOr qualifier t ∨ f.qualifier = t.base) := by
    obtain ⟨c, -, rfl⟩ := List.mem_map.mp mem
    rw [hr.baseQualifier, hr.table, hr.dialect] at read ⊢
    exact column _ _ read
  simp only [known, List.mem_append] at mem
  rcases mem with ((mem | mem) | mem) | mem
  · rw [(addFields_eq hr.declared).1] at mem
    obtain ⟨c, -, rfl⟩ := List.mem_map.mp mem
    exact column _ _ read
  · rw [hr.joined] at mem
    exact joined (List.mem_of_mem_filter mem)
  · rw [hr.shadowed] at mem
    exact joined (List.mem_of_mem_filter mem)
  · rw [hr.not_isTableColumn mem] at read
    cases read

/-! ## Names with a qualifier -/

/-- Whether a field is the column of a name with a qualifier. -/
def isMeant (qualifier column : Bytes) (f : Field) : Bool :=
  f.isTableColumn && f.qualifier == qualifier && f.name == column

theorem isMeant_iff {table column : Bytes} :
    isMeant table column f = true ↔ f.isTableColumn = true ∧ f.qualifier = table ∧ f.name = column := by
  unfold isMeant
  rw [Bool.and_eq_true, Bool.and_eq_true, beq_iff_eq, beq_iff_eq, and_assoc]

/-- Where the base columns go by the table's own name, a name with a qualifier finds only what it means. -/
theorem Describes.isMeant_of_resolveQualified (hv : v.Describes [] t d) {table column : Bytes}
    (found : v.resolveQualified table column = some f) :
    isMeant table column f = true ∧ (f ∈ v.declared ∨ f ∈ v.joined ∨ f ∈ v.shadowed) := by
  have own : v.baseQualifier = v.table.base := by
    rw [hv.baseQualifier, hv.table]
    rfl
  unfold resolveQualified at found
  simp only [Option.or_eq_some_iff] at found
  rcases found with found | ⟨-, found | ⟨-, found⟩⟩
  · have meant : isMeant table column f = true := List.find?_some found
    refine ⟨meant, ?_⟩
    have mem := List.mem_of_find?_eq_some found
    simp only [fields, List.mem_append] at mem
    rcases mem with (mem | mem) | mem
    · exact .inl mem
    · exact .inr (.inl mem)
    · have read := (isMeant_iff.mp meant).1
      rw [hv.not_isTableColumn mem] at read
      cases read
  · exact ⟨List.find?_some found, .inr (.inr (List.mem_of_find?_eq_some found))⟩
  · rw [own, bne_self_eq_false, Bool.and_false] at found
    cases found

/-- What a name with a qualifier means is found in every statement, or the base column of that name is. -/
theorem exists_resolveQualified (hv : v.Describes [] t d) (hr : r.Describes qualifier t d') {table column : Bytes}
    (found : v.resolveQualified table column = some f) :
    ∃ g, r.resolveQualified table column = some g ∧ g.scalar = f.scalar ∧ (f.source = .base → g.source = .base) := by
  have known := (resolveQualified_eq_some found).1
  obtain ⟨meant, mem⟩ := hv.isMeant_of_resolveQualified found
  obtain ⟨read, through, named⟩ := isMeant_iff.mp meant
  obtain ⟨scalar, base⟩ := hv.of_isTableColumn known read
  -- Another field that the name means in the second statement will do: it is read through the same table.
  have other {g : Field} (hg : isMeant table column g = true) (mem : g ∈ r.known) :
      g.scalar = f.scalar ∧ (f.source = .base → g.source = .base) := by
    obtain ⟨read', through', -⟩ := isMeant_iff.mp hg
    obtain ⟨scalar', base'⟩ := hr.of_isTableColumn mem read'
    refine ⟨scalar'.trans scalar.symm, fun ofBase => base'.mpr (.inr ?_)⟩
    rw [through', ← through]
    rcases base.mp ofBase with h | h <;> exact h
  unfold resolveQualified
  change ∃ g, (r.fields.find? (isMeant table column)).or ((r.shadowed.find? (isMeant table column)).or _) = some g ∧ _
  cases first : r.fields.find? (isMeant table column) with
  | some g =>
    refine ⟨g, rfl, other (List.find?_some first) ?_⟩
    have mem := List.mem_of_find?_eq_some first
    simp only [fields, Resolver.known, List.mem_append] at mem ⊢
    rcases mem with (mem | mem) | mem
    · exact .inl (.inl (.inl mem))
    · exact .inl (.inl (.inr mem))
    · exact .inr mem
  | none =>
    cases second : r.shadowed.find? (isMeant table column) with
    | some g =>
      refine ⟨g, rfl, other (List.find?_some second) ?_⟩
      simp only [Resolver.known, List.mem_append]
      exact .inl (.inr (List.mem_of_find?_eq_some second))
    | none =>
      rw [List.find?_eq_none] at first second
      have related := counterparts hv hr
      rcases mem with mem | mem | mem
      · -- Only a base column may be read through another name, and then its table's own name still reaches it.
        obtain ⟨g, hg, same⟩ := Checked.exists_of_forall₂ related.declared mem
        rcases same.qualifier with kept | ⟨ofBase, renamed, source⟩
        · have meant' := isMeant_iff.mpr
            ⟨same.isTableColumn.trans read, kept.trans through, same.name.trans named⟩
          exact absurd meant' (first g (by simp only [fields, List.mem_append]; exact .inl (.inl hg)))
        · have away : r.baseQualifier ≠ r.table.base := by
            intro back
            rw [hr.baseQualifier, hr.table] at back
            have meant' := isMeant_iff.mpr ⟨same.isTableColumn.trans read,
              (renamed.trans back).trans (ofBase.symm.trans through), same.name.trans named⟩
            exact absurd meant' (first g (by simp only [fields, List.mem_append]; exact .inl (.inl hg)))
          have reached : (table == r.table.base && r.baseQualifier != r.table.base) = true := by
            rw [hr.table, ← through, ofBase, beq_self_eq_true, Bool.true_and, bne_iff_ne, ← hr.table]
            exact away
          have column_eq : find? column r.baseFields = some g := by
            rw [← named, ← same.name]
            exact find?_name hr.nodup_baseFields (hr.mem_baseFields hg (same.isTableColumn.trans read))
          refine ⟨g, ?_, same.scalar, fun _ => source⟩
          rw [if_pos reached, column_eq]
          rfl
      · obtain ⟨g, hg, same⟩ := Checked.exists_of_forall₂ related.joined mem
        have meant' := isMeant_iff.mpr
          ⟨same.isTableColumn.trans read, same.qualifier_eq.trans through, same.name.trans named⟩
        exact absurd meant' (first g (by simp only [fields, List.mem_append]; exact .inl (.inr hg)))
      · obtain ⟨g, hg, same⟩ := Checked.exists_of_forall₂ related.shadowed mem
        have meant' := isMeant_iff.mpr
          ⟨same.isTableColumn.trans read, same.qualifier_eq.trans through, same.name.trans named⟩
        exact absurd meant' (second g hg)

/-- A name that finds a field where the base columns go by the table's own name finds one in every statement. Both
have one value in each row or neither, and a column of the base table is found for one. -/
theorem exists_counterpart (hv : v.Describes [] t d) (hr : r.Describes qualifier t d')
    (found : v.resolve name = some f) :
    ∃ g, r.resolve name = some g ∧ g.scalar = f.scalar ∧ (f.source = .base → g.source = .base) := by
  have plain := (counterparts hv hr).resolvePlain name
  unfold resolve at found ⊢
  cases hv' : v.resolvePlain name with
  | some f' =>
    rw [hv'] at plain found
    cases found
    cases hr' : r.resolvePlain name with
    | none =>
      rw [hr'] at plain
      cases plain
    | some g =>
      rw [hr'] at plain
      cases plain with
      | some same => exact ⟨g, rfl, same.scalar, same.stays⟩
  | none =>
    rw [hv'] at plain found
    cases hr' : r.resolvePlain name with
    | some g =>
      rw [hr'] at plain
      cases plain
    | none =>
      rw [Option.none_or] at found ⊢
      obtain ⟨parts, cut, found⟩ := Option.bind_eq_some_iff.mp found
      obtain ⟨g, hg, same⟩ := exists_resolveQualified hv hr found
      exact ⟨g, Option.bind_eq_some_iff.mpr ⟨parts, cut, hg⟩, same⟩

/-! ## Making the fields under another name -/

theorem addFields_of_nodup {twice : Bytes → Fault} {fields : List Field} (distinct : (fields.map Field.name).Nodup) :
    fields.foldlM (addField twice) [] = .ok fields := by
  have general (acc rest : List Field) (distinct : ((acc ++ rest).map Field.name).Nodup) :
      rest.foldlM (addField twice) acc = .ok (acc ++ rest) := by
    induction rest generalizing acc with
    | nil =>
      rw [List.append_nil]
      rfl
    | cons f rest ih =>
      have fresh : acc.any (fun g => g.name == f.name) = false := by
        rw [List.map_append, List.nodup_append] at distinct
        rw [List.any_eq_false]
        intro g mem same
        exact distinct.2.2 g.name (List.mem_map_of_mem mem) f.name List.mem_cons_self (beq_iff_eq.mp same)
      rw [List.foldlM_cons, addField, fresh]
      have next := ih (acc ++ [f]) (by rw [List.append_assoc]; exact distinct)
      rw [List.append_assoc] at next
      exact next
  exact general [] fields distinct

/-- The fields can be made under any name of the base table if they can under its own. -/
theorem exists_ofTableAs (h : ofTable t d = .ok v) (qualifier : Bytes) : ∃ r, ofTableAs qualifier t d = .ok r := by
  have hv := describes h
  have names (q : Bytes) : (ownFields q t d).map Field.name = t.columns.map Column.name := by
    unfold ownFields
    rw [List.map_map]
    exact List.map_congr_left fun c _ => ofColumn_name _ _ _ c
  have distinct : ((ownFields qualifier t d).map Field.name).Nodup := by
    rw [names, ← names []]
    exact (addFields_eq hv.declared).2
  have made : (ownFields qualifier t d).foldlM (addField (columnTwice t)) [] = .ok _ := addFields_of_nodup distinct
  unfold ownFields qualifierOr at made
  unfold ofTableAs
  rw [hv.joins]
  dsimp only [bind, Except.bind]
  rw [made]
  dsimp only
  rw [hv.subqueries]
  exact ⟨_, rfl⟩

end Resolver

end TableQuery
