import TableQuery.Proofs.Sql.Binding

/-!
# Conditions put together

`Fragment.all`, `Fragment.any` and `Fragment.not` write conditions next to each other as text. What makes
this sound is an agreement between a fragment's text and its recorded connective: unless that is a
disjunction, no `OR` stands outside of parentheses in the text, and every `BETWEEN` has its `AND`
(`Fragment.Reads`).

`Reads` also counts. A text may have more placeholders than the fragment has values, never fewer, since a
placeholder that no value was bound for can only come from trusted SQL. With `strict` there is no such
placeholder. A fragment that has them is refused by the database, and so is all that it is part of.

## What is proved

`truth?_all` and `truth?_any`: the meaning of a conjunction or disjunction is that of its parts, and there is
one just if each part has one. `truth?_not` says the same of a negation. `reads_all`, `reads_any`, `reads_not`:
what is put together keeps the agreement, so the laws apply at every level of a tree.
-/

namespace TableQuery

namespace Fragment

variable {strict : Prop} {σ : List Token → Truth}

/-! ## Text and values of what is put together -/

@[simp] theorem sql_append (f g : Fragment) : (f ++ g).sql = f.sql ++ g.sql := rfl

@[simp] theorem params_append (f g : Fragment) : (f ++ g).params = f.params ++ g.params := rfl

@[simp] theorem sql_add (f : Fragment) (s : Bytes) : (f.add s).sql = f.sql ++ s := rfl

@[simp] theorem params_add (f : Fragment) (s : Bytes) : (f.add s).params = f.params := rfl

@[simp] theorem sql_bind (f : Fragment) (v : Json) : (f.bind v).sql = f.sql ++ [Ascii.question] := rfl

@[simp] theorem params_bind (f : Fragment) (v : Json) : (f.bind v).params = f.params ++ [v] := rfl

private theorem foldl_join (sep : Bytes) (fs : List Fragment) (acc : Fragment) :
    (fs.foldl (fun acc g => acc.add sep ++ g) acc).sql = acc.sql ++ fs.flatMap (fun g => sep ++ g.sql)
      ∧ (fs.foldl (fun acc g => acc.add sep ++ g) acc).params
          = acc.params ++ fs.flatMap Fragment.params := by
  induction fs generalizing acc with
  | nil => simp
  | cons g fs ih =>
    obtain ⟨hsql, hparams⟩ := ih (acc.add sep ++ g)
    rw [List.foldl_cons, hsql, hparams]
    simp [List.append_assoc]

theorem sql_join (sep : Bytes) (f : Fragment) (fs : List Fragment) :
    (join sep (f :: fs)).sql = f.sql ++ fs.flatMap fun g => sep ++ g.sql :=
  (foldl_join sep fs (empty ++ f)).1

theorem params_join (sep : Bytes) (f : Fragment) (fs : List Fragment) :
    (join sep (f :: fs)).params = f.params ++ fs.flatMap Fragment.params :=
  (foldl_join sep fs (empty ++ f)).2

/-! ## The agreement -/

/-- A fragment whose text can be read as its connective says, and may be put together with others. -/
structure Reads (strict : Prop) (f : Fragment) : Prop where
  lexes : Lexes f.sql f.raw
  /-- Each value has its placeholder. -/
  room : f.params.length ≤ slotsOf f.raw
  /-- No placeholder lacks a value. -/
  tight : strict → f.Aligned
  plain : f.kind ≠ .disjunction → Plain f.raw
  /-- No clause of a statement begins in the text. -/
  clauseless : ∀ t ∈ f.raw, t.keyword? ≠ some .whereClause ∧ t.keyword? ≠ some .orderClause

theorem Reads.of_strict {f : Fragment} (h : f.Reads True) : f.Reads strict :=
  ⟨h.lexes, h.room, fun _ => h.tight trivial, h.plain, h.clauseless⟩

theorem Reads.bound_plain {f : Fragment} (h : f.Reads strict) (kind : f.kind ≠ .disjunction) :
    Plain f.bound :=
  (h.plain kind).fillAll f.params

/-- Tokens with a keyword between them. -/
def joined (k : Keyword) (ts : List Token) (rest : List (List Token)) : List Token :=
  ts ++ rest.flatMap fun us => Token.keyword k :: us

/-- A separator that is one keyword. -/
structure Separates (op : Bytes) (k : Keyword) : Prop where
  opens : Opens op [Token.keyword k]
  breaks : Scanner.breaks op = true

theorem separates_and : Separates " AND " .and := ⟨opens_of_scan rfl, rfl⟩

theorem separates_or : Separates " OR " .or := ⟨opens_of_scan rfl, rfl⟩

section Join

variable {f : Fragment} {fs : List Fragment} {sep : Bytes} {ks : List Token}

theorem lexes_flatMap (hb : Scanner.breaks sep = true) (hsep : Opens sep ks)
    {text : Bytes} {ts : List Token} (h : Lexes text ts)
    (hfs : ∀ g ∈ fs, Lexes g.sql g.raw) :
    Lexes (text ++ fs.flatMap fun g => sep ++ g.sql) (ts ++ fs.flatMap fun g => ks ++ g.raw) := by
  induction fs generalizing text ts with
  | nil => simpa using h
  | cons g fs ih =>
    rw [List.forall_mem_cons] at hfs
    have next := ih ((h.opens hb hsep).append hfs.1) hfs.2
    simpa only [List.flatMap_cons, List.append_assoc] using next

/-- The tokens of joined fragments are theirs, with those of the separator between them. -/
theorem lexes_join (hb : Scanner.breaks sep = true) (hsep : Opens sep ks)
    (h : ∀ g ∈ f :: fs, Lexes g.sql g.raw) :
    Lexes (join sep (f :: fs)).sql (f.raw ++ fs.flatMap fun g => ks ++ g.raw) := by
  rw [List.forall_mem_cons] at h
  rw [sql_join]
  exact lexes_flatMap hb hsep h.1 h.2

theorem slotsOf_joined (k : Keyword) (ts : List Token) (rest : List (List Token)) :
    slotsOf (joined k ts rest) = slotsOf ts + (rest.map slotsOf).sum := by
  induction rest generalizing ts with
  | nil => simp [joined]
  | cons us rest ih =>
    have shift : joined k ts (us :: rest) = joined k (ts ++ Token.keyword k :: us) rest := by
      simp [joined]
    rw [shift, ih, slotsOf_append, List.map_cons, List.sum_cons, slotsOf, Token.slots_keyword]
    omega

/-- Each joined fragment has as many placeholders as values if all have together, provided that none has
too few. -/
theorem aligned_sum (h : ∀ g ∈ fs, g.params.length ≤ slotsOf g.raw) :
    (fs.map fun g => g.params.length).sum ≤ (fs.map fun g => slotsOf g.raw).sum
      ∧ ((fs.map fun g => slotsOf g.raw).sum = (fs.map fun g => g.params.length).sum
          ↔ ∀ g ∈ fs, g.Aligned) := by
  induction fs with
  | nil => simp
  | cons g fs ih =>
    rw [List.forall_mem_cons] at h
    obtain ⟨le, iff⟩ := ih h.2
    have head := h.1
    rw [List.map_cons, List.map_cons, List.sum_cons, List.sum_cons, List.forall_mem_cons, ← iff, Aligned]
    omega

theorem fillAll_joined (k : Keyword) (hf : f.Aligned) (hfs : ∀ g ∈ fs, g.Aligned) :
    fillAll (f.params ++ fs.flatMap Fragment.params) (joined k f.raw (fs.map raw))
      = joined k f.bound (fs.map bound) := by
  unfold joined
  rw [fillAll_append_append hf]
  congr 1
  induction fs with
  | nil => rfl
  | cons g fs ih =>
    rw [List.forall_mem_cons] at hfs
    rw [List.flatMap_cons, List.map_cons, List.map_cons, List.flatMap_cons, List.flatMap_cons,
      List.cons_append, fillAll, Token.fill_keyword, Token.slots_keyword, List.drop_zero, fillAll_append_append hfs.1,
      ih hfs.2]
    rfl

end Join

/-! ## Reading what is joined -/

/-- How a connective is read: tokens of a form `P` joined by it have that form, and mean `op` of what they
mean. -/
structure Joins (σ : List Token → Truth) (k : Keyword) (op : Truth → Truth → Truth)
    (P : List Token → Prop) : Prop where
  form : ∀ {ts us}, P ts → P us → P (ts ++ Token.keyword k :: us)
  read : ∀ {ts us}, P ts → P us → truth σ (ts ++ Token.keyword k :: us) = op (truth σ ts) (truth σ us)
  assoc : ∀ a b c, op (op a b) c = op a (op b c)

theorem joins_and : Joins σ .and Truth.and Plain where
  form := Plain.and
  read := truth_and
  assoc := Truth.and_assoc

theorem joins_or : Joins σ .or Truth.or fun _ => True where
  form := fun _ _ => trivial
  read := fun {ts us} _ _ => truth_or ts us
  assoc := Truth.or_assoc

theorem Joins.form_joined {k : Keyword} {op : Truth → Truth → Truth} {P : List Token → Prop}
    (hj : Joins σ k op P) {ts : List Token} {rest : List (List Token)} (hts : P ts)
    (hrest : ∀ us ∈ rest, P us) : P (joined k ts rest) := by
  induction rest generalizing ts with
  | nil => simpa [joined] using hts
  | cons us rest ih =>
    rw [List.forall_mem_cons] at hrest
    have next := ih (hj.form hts hrest.1) hrest.2
    simpa [joined] using next

/-- Joined tokens mean the connective's operation over what they mean. -/
theorem Joins.read_joined {k : Keyword} {op : Truth → Truth → Truth} {P : List Token → Prop}
    (hj : Joins σ k op P) {e : Truth} (unit : ∀ a, op a e = a) {ts : List Token}
    {rest : List (List Token)} (hts : P ts) (hrest : ∀ us ∈ rest, P us) :
    truth σ (joined k ts rest) = ((ts :: rest).map (truth σ)).foldr op e := by
  induction rest generalizing ts with
  | nil => simp [joined, unit]
  | cons us rest ih =>
    rw [List.forall_mem_cons] at hrest
    have next := ih (hj.form hts hrest.1) hrest.2
    have shift : joined k ts (us :: rest) = joined k (ts ++ Token.keyword k :: us) rest := by
      simp [joined]
    rw [shift, next, List.map_cons, List.foldr_cons, hj.read hts hrest.1, hj.assoc]
    rfl

/-! ## Parentheses -/

theorem lexes_wrapped {f : Fragment} (h : Lexes f.sql f.raw) : Lexes f.wrapped.sql [Token.group f.raw] :=
  (Lexes.group h).lexes

theorem raw_wrapped {f : Fragment} (h : Lexes f.sql f.raw) : f.wrapped.raw = [Token.group f.raw] :=
  raw_eq (lexes_wrapped h)

theorem aligned_wrapped {f : Fragment} (h : Lexes f.sql f.raw) : f.wrapped.Aligned ↔ f.Aligned := by
  rw [Aligned, raw_wrapped h]
  rfl

theorem bound_wrapped {f : Fragment} (h : Lexes f.sql f.raw) : f.wrapped.bound = [Token.group f.bound] := by
  rw [bound, raw_wrapped h]
  rfl

theorem plain_group (ts : List Token) : Plain [Token.group ts] where
  noOr := by
    intro t mem
    rw [List.mem_singleton.mp mem]
    exact nofun
  settled := rfl

theorem reads_wrapped {f : Fragment} (h : f.Reads strict) : f.wrapped.Reads strict where
  lexes := by
    rw [raw_wrapped h.lexes]
    exact lexes_wrapped h.lexes
  room := by
    rw [raw_wrapped h.lexes]
    exact h.room
  tight := fun s => (aligned_wrapped h.lexes).mpr (h.tight s)
  plain := by
    intro _
    rw [raw_wrapped h.lexes]
    exact plain_group f.raw
  clauseless := by
    intro t mem
    rw [raw_wrapped h.lexes, List.mem_singleton] at mem
    rw [mem]
    exact ⟨nofun, nofun⟩

/-- Parentheses change nothing of the meaning. -/
theorem truth?_wrapped {f : Fragment} (h : Lexes f.sql f.raw) : f.wrapped.truth? σ = f.truth? σ := by
  have hw : Lexes f.wrapped.sql f.wrapped.raw := by
    rw [raw_wrapped h]
    exact lexes_wrapped h
  rw [truth?_eq hw, truth?_eq h, bound_wrapped h, truth_group]
  simp only [aligned_wrapped h]

/-! ## Conjunctions and disjunctions -/

/-- The parts that have text. -/
def present (parts : List Fragment) : List Fragment := parts.filter fun f => !f.isEmpty

/-- A part as it is put beside others. -/
def guarded (wraps : Connective) (f : Fragment) : Fragment := if f.kind == wraps then f.wrapped else f

theorem reads_guarded {wraps : Connective} {f : Fragment} (h : f.Reads strict) :
    (guarded wraps f).Reads strict := by
  unfold guarded
  split_ifs
  · exact reads_wrapped h
  · exact h

theorem truth?_guarded {wraps : Connective} {f : Fragment} (h : f.Reads strict) :
    (guarded wraps f).truth? σ = f.truth? σ := by
  unfold guarded
  split_ifs
  · exact truth?_wrapped h.lexes
  · rfl

theorem kind_guarded {f : Fragment} : (guarded .disjunction f).kind ≠ .disjunction := by
  unfold guarded
  split_ifs with kind
  · exact Connective.noConfusion
  · simpa using kind

section Combine

variable {op : Bytes} {b : UInt8} {k : Keyword} {kind wraps : Connective} {parts : List Fragment}
  {f g : Fragment} {fs : List Fragment}

theorem combine_nil (h : present parts = []) : combine op kind wraps parts = empty := by
  unfold combine
  change parts.filter _ = _ at h
  rw [h]

theorem combine_singleton (h : present parts = [f]) : combine op kind wraps parts = f := by
  unfold combine
  change parts.filter _ = _ at h
  rw [h]

theorem combine_cons_cons (h : present parts = f :: g :: fs) :
    combine op kind wraps parts
      = (join op (guarded wraps f :: guarded wraps g :: fs.map (guarded wraps))).withKind kind := by
  unfold combine
  change parts.filter _ = _ at h
  rw [h]
  rfl

/-- What holds of the parts, and of two or more of them joined, holds of the combination. -/
theorem combine_cases {P : Fragment → Prop} (none : P empty) (one : ∀ f ∈ parts, P f)
    (more : ∀ f g fs, present parts = f :: g :: fs →
      P ((join op (guarded wraps f :: guarded wraps g :: fs.map (guarded wraps))).withKind kind)) :
    P (combine op kind wraps parts) := by
  cases h : present parts with
  | nil => rw [combine_nil h]; exact none
  | cons f rest =>
    have mem : f ∈ parts := List.mem_of_mem_filter (p := fun f => !f.isEmpty) (by
      change f ∈ present parts
      rw [h]
      exact List.mem_cons_self)
    cases rest with
    | nil => rw [combine_singleton h]; exact one f mem
    | cons g fs => rw [combine_cons_cons h]; exact more f g fs h

theorem isEmpty_iff {f : Fragment} : f.isEmpty = true ↔ f.sql = [] := List.isEmpty_iff

/-- A combination is empty just if all of its parts are. -/
theorem isEmpty_combine : (combine op kind wraps parts).isEmpty = true ↔ present parts = [] := by
  constructor
  · intro empty
    cases h : present parts with
    | nil => rfl
    | cons f rest =>
      have filled : f.isEmpty = false := by
        have mem : f ∈ present parts := by rw [h]; exact List.mem_cons_self
        simpa using (List.mem_filter.mp mem).2
      cases rest with
      | nil =>
        rw [combine_singleton h, filled] at empty
        cases empty
      | cons g fs =>
        have nonempty : (guarded wraps f).sql ≠ [] := by
          unfold guarded
          split_ifs
          · exact List.cons_ne_nil _ _
          · intro none
            rw [isEmpty_iff.mpr none] at filled
            cases filled
        rw [combine_cons_cons h, isEmpty_iff] at empty
        change (join op _).sql = [] at empty
        rw [sql_join, List.append_eq_nil_iff] at empty
        exact absurd empty.1 nonempty
  · intro h
    rw [combine_nil h]
    rfl

end Combine

/-! ## The laws -/

section Laws

variable {op : Bytes} {k : Keyword} {kind wraps : Connective} {parts : List Fragment} {f : Fragment}
  {fs : List Fragment}

theorem Separates.lexes (sep : Separates op k) (h : ∀ g ∈ f :: fs, g.Reads strict) :
    Lexes (join op (f :: fs)).sql (joined k f.raw (fs.map raw)) := by
  have texts := lexes_join sep.breaks sep.opens fun g hg => (h g hg).lexes
  rw [joined, List.flatMap_map]
  exact texts

theorem Separates.raw_join (sep : Separates op k) (h : ∀ g ∈ f :: fs, g.Reads strict) :
    (join op (f :: fs)).raw = joined k f.raw (fs.map raw) :=
  raw_eq (sep.lexes h)

/-- Joined fragments have a value for each placeholder just if each of them has. -/
theorem Separates.aligned_join (sep : Separates op k) (h : ∀ g ∈ f :: fs, g.Reads strict) :
    (join op (f :: fs)).Aligned ↔ ∀ g ∈ f :: fs, g.Aligned := by
  have sums := (aligned_sum fun g hg => (h g hg).room).2
  rw [List.map_cons, List.map_cons, List.sum_cons, List.sum_cons] at sums
  rw [← sums, Aligned, sep.raw_join h, slotsOf_joined, params_join, List.length_append,
    List.length_flatMap, List.map_map]
  rfl

theorem Separates.bound_join (sep : Separates op k) (h : ∀ g ∈ f :: fs, g.Reads strict)
    (aligned : ∀ g ∈ f :: fs, g.Aligned) :
    (join op (f :: fs)).bound = joined k f.bound (fs.map bound) := by
  rw [List.forall_mem_cons] at aligned
  rw [bound, sep.raw_join h, params_join, fillAll_joined k aligned.1 aligned.2]

theorem Separates.reads_join (sep : Separates op k) (hk : k = .and ∨ k = .or)
    (h : ∀ g ∈ f :: fs, g.Reads strict)
    (plain : kind ≠ .disjunction → Plain (joined k f.raw (fs.map raw))) :
    ((join op (f :: fs)).withKind kind).Reads strict where
  lexes := by
    change Lexes (join op (f :: fs)).sql (join op (f :: fs)).raw
    rw [sep.raw_join h]
    exact sep.lexes h
  room := by
    have sums := (aligned_sum fun g hg => (h g hg).room).1
    rw [List.map_cons, List.map_cons, List.sum_cons, List.sum_cons] at sums
    change (join op (f :: fs)).params.length ≤ slotsOf (join op (f :: fs)).raw
    rw [sep.raw_join h, slotsOf_joined, params_join, List.length_append, List.length_flatMap, List.map_map]
    exact sums
  tight := fun s => (sep.aligned_join h).mpr fun g hg => (h g hg).tight s
  plain := by
    change kind ≠ .disjunction → Plain (join op (f :: fs)).raw
    rw [sep.raw_join h]
    exact plain
  clauseless := by
    intro t mem
    change t ∈ (join op (f :: fs)).raw at mem
    rw [sep.raw_join h, joined, List.mem_append] at mem
    rw [List.forall_mem_cons] at h
    rcases mem with mem | mem
    · exact h.1.clauseless t mem
    · obtain ⟨us, hus, mem⟩ := List.mem_flatMap.mp mem
      obtain ⟨g, hg, rfl⟩ := List.mem_map.mp hus
      rcases List.mem_cons.mp mem with rfl | mem
      · rcases hk with rfl | rfl <;> exact ⟨nofun, nofun⟩
      · exact (h.2 g hg).clauseless t mem

/-- A list of conditions has meanings just if each has a value for each placeholder. -/
theorem mapM_truth? (h : ∀ g ∈ fs, g.Reads strict) :
    fs.mapM (truth? σ)
      = if ∀ g ∈ fs, g.Aligned then some (fs.map fun g => truth σ g.bound) else none := by
  induction fs with
  | nil => simp
  | cons g fs ih =>
    rw [List.forall_mem_cons] at h
    rw [List.mapM_cons, ih h.2, truth?_eq h.1.lexes]
    simp only [List.forall_mem_cons]
    by_cases hg : g.Aligned
    · by_cases hfs : ∀ g ∈ fs, g.Aligned
      · rw [if_pos hg, if_pos hfs, if_pos ⟨hg, hfs⟩]
        rfl
      · rw [if_pos hg, if_neg hfs, if_neg fun both => hfs both.2]
        rfl
    · have short : ¬(g.Aligned ∧ ∀ g ∈ fs, g.Aligned) := fun both => hg both.1
      rw [if_neg hg, if_neg short]
      rfl

/-- Joined fragments mean the connective's operation over what they mean. -/
theorem Separates.truth?_join (sep : Separates op k) {o : Truth → Truth → Truth} {e : Truth}
    {P : List Token → Prop} (hj : Joins σ k o P) (unit : ∀ a, o a e = a)
    (h : ∀ g ∈ f :: fs, g.Reads strict) (form : ∀ g ∈ f :: fs, P g.bound) :
    ((join op (f :: fs)).withKind kind).truth? σ
      = ((f :: fs).mapM (truth? σ)).map (List.foldr o e) := by
  have lexes : Lexes (join op (f :: fs)).sql (join op (f :: fs)).raw := by
    rw [sep.raw_join h]
    exact sep.lexes h
  change (join op (f :: fs)).truth? σ = _
  rw [truth?_eq lexes, mapM_truth? h]
  by_cases aligned : ∀ g ∈ f :: fs, g.Aligned
  · rw [if_pos aligned, if_pos ((sep.aligned_join h).mpr aligned), sep.bound_join h aligned]
    rw [List.forall_mem_cons] at form
    have rest : ∀ us ∈ fs.map bound, P us := by
      intro us mem
      obtain ⟨g, hg, rfl⟩ := List.mem_map.mp mem
      exact form.2 g hg
    rw [hj.read_joined unit form.1 rest, List.map_cons, List.map_cons, List.map_map]
    rfl
  · rw [if_neg aligned, if_neg fun whole => aligned ((sep.aligned_join h).mp whole)]
    rfl

theorem mapM_guarded (wraps : Connective) (h : ∀ g ∈ fs, g.Reads strict) :
    (fs.map (guarded wraps)).mapM (truth? σ) = fs.mapM (truth? σ) := by
  induction fs with
  | nil => rfl
  | cons g fs ih =>
    rw [List.forall_mem_cons] at h
    rw [List.map_cons, List.mapM_cons, List.mapM_cons, ih h.2, truth?_guarded h.1]

theorem reads_empty : empty.Reads strict where
  lexes := Lexes.nil
  room := le_refl _
  tight := fun _ => rfl
  plain := fun _ => ⟨nofun, rfl⟩
  clauseless := nofun

/-- What is put together agrees with its recorded connective if the parts do. -/
theorem Separates.reads_combine (sep : Separates op k) (hk : k = .and ∨ k = .or)
    (form : kind ≠ .disjunction → k = .and ∧ wraps = .disjunction)
    (h : ∀ g ∈ parts, g.Reads strict) : (combine op kind wraps parts).Reads strict := by
  refine combine_cases reads_empty h fun f g fs parts_eq => ?_
  have kept : ∀ u ∈ (f :: g :: fs).map (guarded wraps), u.Reads strict := by
    intro u mem
    obtain ⟨v, hv, rfl⟩ := List.mem_map.mp mem
    rw [← parts_eq] at hv
    exact reads_guarded (h v (List.mem_of_mem_filter hv))
  refine sep.reads_join hk kept fun notOr => ?_
  obtain ⟨rfl, rfl⟩ := form notOr
  have plain : ∀ u ∈ (f :: g :: fs).map (guarded .disjunction), Plain u.raw := by
    intro u mem
    obtain ⟨v, -, rfl⟩ := List.mem_map.mp mem
    exact (kept _ mem).plain kind_guarded
  rw [List.map_cons, List.forall_mem_cons] at plain
  refine (joins_and (σ := fun _ => .unknown)).form_joined plain.1 fun us mem => ?_
  obtain ⟨u, hu, rfl⟩ := List.mem_map.mp mem
  exact plain.2 u hu

/-- What is put together means the connective's operation over the parts that have text. -/
theorem Separates.truth?_combine (sep : Separates op k) {o : Truth → Truth → Truth} {e : Truth}
    {P : List Token → Prop} (hj : Joins σ k o P) (unit : ∀ a, o a e = a)
    (fit : ∀ g : Fragment, g.Reads strict → P (guarded wraps g).bound)
    (h : ∀ g ∈ parts, g.Reads strict) (some : present parts ≠ []) :
    (combine op kind wraps parts).truth? σ
      = ((present parts).mapM (truth? σ)).map (List.foldr o e) := by
  have reads : ∀ g ∈ present parts, g.Reads strict := fun g hg => h g (List.mem_of_mem_filter hg)
  cases parts_eq : present parts with
  | nil => exact absurd parts_eq some
  | cons f rest =>
    rw [parts_eq] at reads
    cases rest with
    | nil =>
      rw [combine_singleton parts_eq, List.mapM_cons, List.mapM_nil]
      cases f.truth? σ with
      | none => rfl
      | some t => exact congrArg Option.some (unit t).symm
    | cons g fs =>
      have kept : ∀ u ∈ (f :: g :: fs).map (guarded wraps), u.Reads strict ∧ P u.bound := by
        intro u mem
        obtain ⟨v, hv, rfl⟩ := List.mem_map.mp mem
        exact ⟨reads_guarded (reads v hv), fit v (reads v hv)⟩
      rw [combine_cons_cons parts_eq, ← mapM_guarded wraps reads]
      exact sep.truth?_join hj unit (fun u hu => (kept u hu).1) fun u hu => (kept u hu).2

/-- The conjunction of conditions keeps the agreement. -/
theorem reads_all (h : ∀ g ∈ parts, g.Reads strict) : (all parts).Reads strict :=
  separates_and.reads_combine (.inl rfl) (fun _ => ⟨rfl, rfl⟩) h

/-- The disjunction of conditions keeps the agreement. -/
theorem reads_any (h : ∀ g ∈ parts, g.Reads strict) : (any parts).Reads strict :=
  separates_or.reads_combine (.inr rfl) (fun notOr => absurd rfl notOr) h

/-- A conjunction means that all of its parts that have text hold. -/
theorem truth?_all (h : ∀ g ∈ parts, g.Reads strict) (some : present parts ≠ []) :
    (all parts).truth? σ = ((present parts).mapM (truth? σ)).map Truth.all :=
  separates_and.truth?_combine joins_and Truth.and_true
    (fun _ hg => (reads_guarded hg).bound_plain kind_guarded) h some

/-- A disjunction means that any of its parts that have text holds. -/
theorem truth?_any (h : ∀ g ∈ parts, g.Reads strict) (some : present parts ≠ []) :
    (any parts).truth? σ = ((present parts).mapM (truth? σ)).map Truth.any :=
  separates_or.truth?_combine joins_or Truth.or_false (fun _ _ => trivial) h some

end Laws

/-! ## Negations -/

section Negation

variable {f : Fragment}

theorem not_eq (h : f.isEmpty = false) : f.not = text "NOT " ++ f.wrapped := by
  unfold Fragment.not
  rw [h]
  rfl

theorem lexes_not (h : f.Reads strict) :
    Lexes (text "NOT " ++ f.wrapped).sql [Token.keyword .not, Token.group f.raw] := by
  have opens : Opens "NOT " [Token.keyword .not] := fun _ _ => rfl
  exact opens.append (lexes_wrapped h.lexes)

theorem raw_not (h : f.Reads strict) :
    (text "NOT " ++ f.wrapped).raw = [Token.keyword .not, Token.group f.raw] :=
  raw_eq (lexes_not h)

theorem aligned_not (h : f.Reads strict) : (text "NOT " ++ f.wrapped).Aligned ↔ f.Aligned := by
  rw [Aligned, raw_not h]
  change 0 + (slotsOf f.raw + 0) = f.params.length ↔ _
  rw [Nat.zero_add, Nat.add_zero]
  rfl

theorem reads_not (h : f.Reads strict) : f.not.Reads strict := by
  cases empty : f.isEmpty with
  | true =>
    unfold Fragment.not
    rw [empty]
    exact reads_empty
  | false =>
    rw [not_eq empty]
    refine ⟨?_, ?_, fun s => (aligned_not h).mpr (h.tight s), fun _ => ?_, ?_⟩
    · rw [raw_not h]
      exact lexes_not h
    · rw [raw_not h]
      have room := h.room
      change f.params.length ≤ 0 + (slotsOf f.raw + 0)
      omega
    · rw [raw_not h]
      refine ⟨?_, rfl⟩
      simp [Token.keyword?]
    · rw [raw_not h]
      simp [Token.keyword?]

/-- A negation means the opposite. -/
theorem truth?_not (h : f.Reads strict) (filled : f.isEmpty = false) :
    f.not.truth? σ = (f.truth? σ).map Truth.not := by
  have lexes : Lexes (text "NOT " ++ f.wrapped).sql (text "NOT " ++ f.wrapped).raw := by
    rw [raw_not h]
    exact lexes_not h
  rw [not_eq filled, truth?_eq lexes, truth?_eq h.lexes]
  by_cases aligned : f.Aligned
  · have bound_eq : (text "NOT " ++ f.wrapped).bound = [Token.keyword .not, Token.group f.bound] := by
      rw [bound, raw_not h]
      rfl
    rw [if_pos aligned, if_pos ((aligned_not h).mpr aligned), bound_eq, truth_not_group]
    rfl
  · rw [if_neg aligned, if_neg fun whole => aligned ((aligned_not h).mp whole)]
    rfl

theorem isEmpty_not : f.not.isEmpty = f.isEmpty := by
  cases empty : f.isEmpty with
  | true =>
    unfold Fragment.not
    rw [empty]
    rfl
  | false =>
    rw [not_eq empty]
    rfl

end Negation

/-! ## Rows that are kept -/

/-- A condition keeps a row that it is true on; without text it keeps every row. -/
def Keeps (σ : List Token → Truth) (f : Fragment) : Prop :=
  f.isEmpty = true ∨ f.truth? σ = some .true

instance (f : Fragment) : Decidable (f.Keeps σ) := inferInstanceAs (Decidable (_ ∨ _))

/-- A conjunction keeps just the rows that all of its parts keep. -/
theorem keeps_all {parts : List Fragment} (h : ∀ g ∈ parts, g.Reads strict) :
    (all parts).Keeps σ ↔ ∀ g ∈ parts, g.Keeps σ := by
  have split : (∀ g ∈ parts, g.Keeps σ) ↔ ∀ g ∈ present parts, g.truth? σ = some .true := by
    simp only [present, List.mem_filter, Bool.not_eq_eq_eq_not, Bool.not_true, and_imp, Keeps]
    refine forall₂_congr fun g _ => ?_
    cases g.isEmpty <;> simp
  have conj (l : List Fragment) :
      (l.mapM (truth? σ)).map Truth.all = some .true ↔ ∀ g ∈ l, g.truth? σ = some .true := by
    induction l with
    | nil => simp
    | cons g l ih =>
      rw [List.mapM_cons, List.forall_mem_cons, ← ih]
      cases g.truth? σ with
      | none => simp
      | some a =>
        cases l.mapM (truth? σ) with
        | none => simp
        | some rest => simp [Truth.and_eq_true]
  rw [split]
  by_cases some : present parts = []
  · have empty : (all parts).isEmpty = true := isEmpty_combine.mpr some
    rw [some, Keeps, empty]
    simp
  · have filled : (all parts).isEmpty = false := by
      rw [Bool.eq_false_iff]
      exact fun empty => some (isEmpty_combine.mp empty)
    rw [Keeps, filled, truth?_all h some, conj]
    simp

/-- A disjunction of conditions without unbound placeholders keeps the rows that one of them keeps. -/
theorem keeps_any {parts : List Fragment} (h : ∀ g ∈ parts, g.Reads True)
    (filled : ∀ g ∈ parts, g.isEmpty = false) (some : parts ≠ []) :
    (any parts).Keeps σ ↔ ∃ g ∈ parts, g.Keeps σ := by
  have kept : present parts = parts := by
    refine List.filter_eq_self.mpr fun g mem => ?_
    rw [filled g mem]
    rfl
  have hasText : (any parts).isEmpty = false := by
    rw [Bool.eq_false_iff]
    intro empty
    exact some (kept.symm.trans (isEmpty_combine.mp empty))
  have each (g : Fragment) (mem : g ∈ parts) : g.Keeps σ ↔ truth σ g.bound = .true := by
    have aligned : g.Aligned := (h g mem).tight trivial
    rw [Keeps, filled g mem, truth?_eq (h g mem).lexes, if_pos aligned]
    simp
  have bound := mapM_truth? (σ := σ) h
  rw [if_pos fun g mem => (h g mem).tight trivial] at bound
  rw [Keeps, hasText, truth?_any h (by rwa [kept]), kept, bound]
  simp only [Option.map_some, Option.some_inj, Truth.any_eq_true, List.mem_map, exists_exists_and_eq_and,
    Bool.false_eq_true, false_or]
  exact exists_congr fun g => and_congr_right fun mem => (each g mem).symm

end Fragment

end TableQuery
