import Mathlib

/-!
# Three truth values

What a condition of SQL is on a row: true, false, or unknown where a null is compared. `and` is the lesser
of two values and `or` the greater, with false below unknown below true. A row is kept only by a condition
that is true, so the laws here say when a conjunction or a disjunction is.
-/

namespace TableQuery

/-- What a condition is on a row. -/
inductive Truth where
  | false
  | unknown
  | true
deriving Repr, DecidableEq, Inhabited

namespace Truth

/-- The truth value of a Boolean. -/
def ofBool (b : Bool) : Truth := if b then true else false

/-- Both. -/
def and : Truth → Truth → Truth
  | false, _ => false
  | true, b => b
  | unknown, false => false
  | unknown, _ => unknown

/-- One of two. -/
def or : Truth → Truth → Truth
  | true, _ => true
  | false, b => b
  | unknown, true => true
  | unknown, _ => unknown

/-- The opposite; what is unknown stays so. -/
def not : Truth → Truth
  | true => false
  | unknown => unknown
  | false => true

/-- All of a list; of none, true. -/
def all (values : List Truth) : Truth := values.foldr and true

/-- Any of a list; of none, false. -/
def any (values : List Truth) : Truth := values.foldr or false

@[simp] theorem ofBool_eq_true (b : Bool) : ofBool b = true ↔ b = Bool.true := by
  cases b <;> decide

@[simp] theorem and_true (a : Truth) : a.and true = a := by cases a <;> rfl

@[simp] theorem or_false (a : Truth) : a.or false = a := by cases a <;> rfl

theorem and_assoc (a b c : Truth) : (a.and b).and c = a.and (b.and c) := by
  cases a <;> cases b <;> cases c <;> rfl

theorem or_assoc (a b c : Truth) : (a.or b).or c = a.or (b.or c) := by
  cases a <;> cases b <;> cases c <;> rfl

theorem and_eq_true {a b : Truth} : a.and b = true ↔ a = true ∧ b = true := by
  cases a <;> cases b <;> decide

theorem or_eq_true {a b : Truth} : a.or b = true ↔ a = true ∨ b = true := by
  cases a <;> cases b <;> decide

@[simp] theorem all_nil : all [] = true := rfl

@[simp] theorem all_cons (a : Truth) (values : List Truth) : all (a :: values) = a.and (all values) := rfl

@[simp] theorem any_nil : any [] = false := rfl

@[simp] theorem any_cons (a : Truth) (values : List Truth) : any (a :: values) = a.or (any values) := rfl

theorem all_append (values more : List Truth) :
    all (values ++ more) = (all values).and (all more) := by
  induction values with
  | nil => rfl
  | cons a values ih => rw [List.cons_append, all_cons, all_cons, ih, and_assoc]

theorem any_append (values more : List Truth) :
    any (values ++ more) = (any values).or (any more) := by
  induction values with
  | nil => rfl
  | cons a values ih => rw [List.cons_append, any_cons, any_cons, ih, or_assoc]

theorem any_eq_true {values : List Truth} : any values = true ↔ ∃ a ∈ values, a = true := by
  induction values with
  | nil => simp
  | cons a values ih => rw [any_cons, or_eq_true, ih, List.exists_mem_cons_iff]

end Truth

end TableQuery
