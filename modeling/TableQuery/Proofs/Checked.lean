import Mathlib
import TableQuery.Fault

/-!
# Results that may be faults

What a sequence of checked steps says when it succeeds: each step succeeded. `bind_eq_ok` takes one step off,
`mapM_eq_ok` relates each element to what was made of it. `Succeeds` leaves the result out: `succeeds_bind` and
`succeeds_mapM` say when steps in a row succeed.
`Ensures` is the converse, what holds of the result if there is one.
`foldlM_map` and `mapM_eq_map` change what is put in, or what comes out, of all steps alike; by `mapM_eq_of_map_eq`
the results depend on the steps only. `forall₂_mapM` compares the results of two lists.
-/

namespace TableQuery

namespace Checked

variable {ε α β : Type}

theorem bind_eq_ok {x : Except ε α} {f : α → Except ε β} {b : β} :
    (x >>= f) = .ok b ↔ ∃ a, x = .ok a ∧ f a = .ok b := by
  cases x with
  | error e =>
    constructor
    · nofun
    · rintro ⟨a, eq, -⟩
      cases eq
  | ok a =>
    constructor
    · intro h
      exact ⟨a, rfl, h⟩
    · rintro ⟨a, eq, h⟩
      cases eq
      exact h

theorem bind_of_ok {x : Except ε α} {f : α → Except ε β} {a : α} {b : β} (first : x = .ok a) (next : f a = .ok b) :
    (x >>= f) = .ok b :=
  bind_eq_ok.mpr ⟨a, first, next⟩

theorem mapError_eq_ok {ε' : Type} {g : ε → ε'} {x : Except ε α} {a : α} : x.mapError g = .ok a ↔ x = .ok a := by
  cases x with
  | error e => exact ⟨nofun, nofun⟩
  | ok b =>
    constructor
    · rintro ⟨⟩
      rfl
    · rintro ⟨⟩
      rfl

theorem wordMismatch_eq_ok {word : Bytes → Fault} {x : Outcome α} {a : α} : x.wordMismatch word = .ok a ↔ x = .ok a := by
  cases x with
  | error failure => cases failure <;> exact ⟨nofun, nofun⟩
  | ok b =>
    constructor
    · rintro ⟨⟩
      rfl
    · rintro ⟨⟩
      rfl

/-- A list of steps succeeds with one result for each. -/
theorem mapM_eq_ok {f : α → Except ε β} {l : List α} {bs : List β} :
    l.mapM f = .ok bs ↔ List.Forall₂ (fun a b => f a = .ok b) l bs := by
  induction l generalizing bs with
  | nil =>
    rw [List.mapM_nil, List.forall₂_nil_left_iff]
    constructor
    · intro h
      cases h
      rfl
    · rintro rfl
      rfl
  | cons a l ih =>
    rw [List.mapM_cons, List.forall₂_cons_left_iff]
    constructor
    · intro h
      obtain ⟨b, hb, h⟩ := bind_eq_ok.mp h
      obtain ⟨rest, hrest, h⟩ := bind_eq_ok.mp h
      cases h
      exact ⟨b, rest, hb, ih.mp hrest, rfl⟩
    · rintro ⟨b, rest, hb, hrest, rfl⟩
      rw [hb, ih.mpr hrest]
      rfl

/-- A list that was changed item by item comes back where each item does. -/
theorem mapM_of_forall {g : α → β} {f : β → Except ε α} {l : List α} (back : ∀ a ∈ l, f (g a) = .ok a) :
    (l.map g).mapM f = .ok l := by
  rw [mapM_eq_ok, List.forall₂_map_left_iff, List.forall₂_same]
  exact back

/-- Each element of a list is related to one of the list that it goes with. -/
theorem exists_of_forall₂ {R : α → β → Prop} {l : List α} {bs : List β} (h : List.Forall₂ R l bs) {a : α}
    (mem : a ∈ l) : ∃ b ∈ bs, R a b := by
  induction h with
  | nil => cases mem
  | cons head _ ih =>
    rcases List.mem_cons.mp mem with rfl | mem
    · exact ⟨_, List.mem_cons_self, head⟩
    · obtain ⟨b, hb, related⟩ := ih mem
      exact ⟨b, List.mem_cons_of_mem _ hb, related⟩

/-- Each result of a list of steps comes from one of them. -/
theorem exists_of_mem_mapM {f : α → Except ε β} {l : List α} {bs : List β} (h : l.mapM f = .ok bs)
    {b : β} (mem : b ∈ bs) : ∃ a ∈ l, f a = .ok b :=
  exists_of_forall₂ (mapM_eq_ok.mp h).flip mem

/-- Each step of a list that succeeds has its result among the results. -/
theorem exists_mem_mapM {f : α → Except ε β} {l : List α} {bs : List β} (h : l.mapM f = .ok bs)
    {a : α} (mem : a ∈ l) : ∃ b ∈ bs, f a = .ok b :=
  exists_of_forall₂ (mapM_eq_ok.mp h) mem

/-- Lists whose elements are related, one by one, have related results if the steps make such results of them. -/
theorem forall₂_mapM {γ δ : Type} {R : α → γ → Prop} {S : β → δ → Prop} {f : α → Except ε β} {g : γ → Except ε δ}
    {l : List α} {l' : List γ} {bs : List β} {ds : List δ} (related : List.Forall₂ R l l')
    (step : ∀ a c b d, R a c → f a = .ok b → g c = .ok d → S b d) (hf : l.mapM f = .ok bs) (hg : l'.mapM g = .ok ds) :
    List.Forall₂ S bs ds := by
  rw [mapM_eq_ok] at hf hg
  induction related generalizing bs ds with
  | nil =>
    cases hf
    cases hg
    exact .nil
  | cons head _ ih =>
    cases hf with
    | cons hb hbs =>
      cases hg with
      | cons hd hds => exact .cons (step _ _ _ _ head hb hd) (ih hbs hds)

/-! ## Success -/

/-- A step that gives a result. -/
def Succeeds (x : Except ε α) : Prop := ∃ a, x = .ok a

theorem succeeds_ok (a : α) : Succeeds (Except.ok a : Except ε α) := ⟨a, rfl⟩

theorem not_succeeds_error (e : ε) : ¬Succeeds (Except.error e : Except ε α) := nofun

/-- Where it does not depend on the result of one step whether the next succeeds, both have to. -/
theorem succeeds_bind {x : Except ε α} {f : α → Except ε β} {Q : Prop}
    (next : ∀ a, x = .ok a → (Succeeds (f a) ↔ Q)) : Succeeds (x >>= f) ↔ Succeeds x ∧ Q := by
  constructor
  · rintro ⟨b, h⟩
    obtain ⟨a, ha, h⟩ := bind_eq_ok.mp h
    exact ⟨⟨a, ha⟩, (next a ha).mp ⟨b, h⟩⟩
  · rintro ⟨⟨a, ha⟩, q⟩
    obtain ⟨b, hb⟩ := (next a ha).mpr q
    exact ⟨b, bind_eq_ok.mpr ⟨a, ha, hb⟩⟩

/-- A step after which the next succeeds whatever the result is. -/
theorem succeeds_bind_of_next {x : Except ε α} {f : α → Except ε β} (next : ∀ a, x = .ok a → Succeeds (f a)) :
    Succeeds (x >>= f) ↔ Succeeds x := by
  rw [succeeds_bind fun a ha => iff_true_intro (next a ha), and_true]

theorem succeeds_bind_pure {x : Except ε α} {f : α → β} : Succeeds (x >>= fun a => pure (f a)) ↔ Succeeds x :=
  succeeds_bind_of_next fun _ _ => succeeds_ok _

/-- A step with a known result. -/
theorem succeeds_bind_of_eq {x : Except ε α} {f : α → Except ε β} {a : α} (ha : x = .ok a) :
    Succeeds (x >>= f) ↔ Succeeds (f a) := by
  rw [ha]
  rfl

theorem succeeds_mapM {f : α → Except ε β} {l : List α} : Succeeds (l.mapM f) ↔ ∀ a ∈ l, Succeeds (f a) := by
  induction l with
  | nil => exact iff_of_true ⟨[], rfl⟩ (List.forall_mem_nil _)
  | cons a l ih =>
    rw [List.mapM_cons, List.forall_mem_cons, ← ih]
    exact succeeds_bind fun b _ => succeeds_bind_pure

/-! ## What holds of every result -/

/-- Something holds of the result, if there is one. -/
def Ensures (x : Except ε α) (P : α → Prop) : Prop := ∀ a, x = .ok a → P a

theorem ensures_pure {P : α → Prop} {a : α} (holds : P a) : Ensures (pure a : Except ε α) P := by
  rintro _ ⟨⟩
  exact holds

theorem ensures_bind {P : β → Prop} {x : Except ε α} {f : α → Except ε β}
    (next : ∀ a, x = .ok a → Ensures (f a) P) : Ensures (x >>= f) P := by
  intro b h
  obtain ⟨a, ha, h⟩ := bind_eq_ok.mp h
  exact next a ha b h

/-! ## Folds -/

/-- A fold commutes with a change of what is accumulated and of the elements that each step commutes with. -/
theorem foldlM_map {α' β' : Type} {step : β → α → Except ε β} {step' : β' → α' → Except ε β'} {g : α → α'}
    {h : β → β'} (commutes : ∀ b a, step' (h b) (g a) = (step b a).map h) (l : List α) (b : β) :
    (l.map g).foldlM step' (h b) = (l.foldlM step b).map h := by
  induction l generalizing b with
  | nil => rfl
  | cons a l ih =>
    rw [List.map_cons, List.foldlM_cons, List.foldlM_cons, commutes]
    cases step b a with
    | error e => rfl
    | ok c => exact ih c

/-- A list of steps whose results are changed gives the changed results. -/
theorem mapM_eq_map {β' : Type} {f : α → Except ε β} {f' : α → Except ε β'} {h : β → β'}
    (changed : ∀ a, f' a = (f a).map h) (l : List α) : l.mapM f' = (l.mapM f).map (List.map h) := by
  induction l with
  | nil => rfl
  | cons a l ih =>
    rw [List.mapM_cons, List.mapM_cons, changed, ih]
    cases f a with
    | error e => rfl
    | ok b => cases l.mapM f <;> rfl

/-- Lists whose steps are the same, one by one, give the same results. -/
theorem mapM_eq_of_map_eq {f : α → Except ε β} {l l' : List α} (same : l.map f = l'.map f) :
    l.mapM f = l'.mapM f := by
  have steps (l : List α) : l.mapM f = (l.map f).mapM id := by
    rw [List.mapM_map]
    rfl
  rw [steps, same, ← steps]

end Checked

end TableQuery
