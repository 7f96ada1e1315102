import Mathlib.Logic.Relation
import TableQuery.Access.Rule
import TableQuery.Proofs.Text.Cut

/-!
# Who is admitted to a table

An access rule is a promise to the author of a description, and it is stated here apart from the check: one of the
roles, if the rule lists any, and each of the permissions, in the sense that the caller holds one that covers it
(`AccessRule.Admits`). Rules and callers hold texts. Which permission a text writes is a grammar of its own
(`Permission.Written`), where a text without a colon writes a star for the action. A star covers everything in its
place, on whichever side it stands (`Permission.Covers`), and what one text covers of another goes by the permissions
they write (`Permission.TextCovers`).

What a caller gains is told step by step (`User.Gains`): more roles, more permissions, or in the place of a permission
one that covers it.

## What is proved

`Table.access_exact`: texts are read by the grammar, the check is the rule, covering is reflexive and transitive, and no
caller who gains anything is turned away who was admitted before. From `AccessRule.Admits.of_gains`, which is one step
of it.
-/

namespace TableQuery

/-! ## Permissions that cover others -/

namespace Permission

variable {p q r : Permission} {text held required : Bytes}

/-- Both parts of a permission are the same as those of the other one, or a star. -/
structure Covers (p q : Permission) : Prop where
  resource : p.resource = [Ascii.star] ∨ p.resource = q.resource
  action : p.action = [Ascii.star] ∨ p.action = q.action

theorem grants_iff : p.grants q = true ↔ p.Covers q := by
  unfold grants everything
  simp only [Bool.and_eq_true, Bool.or_eq_true, beq_iff_eq]
  exact ⟨fun h => ⟨h.1, h.2⟩, fun h => ⟨h.resource, h.action⟩⟩

theorem Covers.refl (p : Permission) : p.Covers p := ⟨.inr rfl, .inr rfl⟩

/-- A star of the one in the middle was covered by a star only. -/
theorem Covers.trans (first : p.Covers q) (second : q.Covers r) : p.Covers r := by
  have place {a b c : Bytes} (h : a = [Ascii.star] ∨ a = b) (h' : b = [Ascii.star] ∨ b = c) :
      a = [Ascii.star] ∨ a = c := by
    rcases h with star | rfl
    · exact .inl star
    · exact h'
  exact ⟨place first.resource second.resource, place first.action second.action⟩

/-! ### Texts -/

/-- The permission that a text writes: up to the first colon its resource and from there its action, and without a colon
its resource, with a star for the action. -/
inductive Written : Permission → Bytes → Prop where
  | parts {resource action : Bytes} (first : Ascii.colon ∉ resource) :
      Written { resource, action } (resource ++ Ascii.colon :: action)
  | bare {resource : Bytes} (none : Ascii.colon ∉ resource) : Written { resource, action := [Ascii.star] } resource

/-- Every text writes one permission, and it is the one that is read. -/
theorem written_iff : p.Written text ↔ ofBytes text = p := by
  unfold ofBytes everything
  constructor
  · intro written
    cases written with
    | parts first => rw [Bytes.cut_eq_some.mpr ⟨first, rfl⟩]
    | bare none => rw [Bytes.cut_eq_none.mpr none]
  · rintro rfl
    split
    · next resource action parts =>
      obtain ⟨first, rfl⟩ := Bytes.cut_eq_some.mp parts
      exact .parts first
    · next whole => exact .bare (Bytes.cut_eq_none.mp whole)

/-- The permission that the first text writes covers that of the second. -/
def TextCovers (held required : Bytes) : Prop := ∃ p q : Permission, p.Written held ∧ q.Written required ∧ p.Covers q

theorem textCovers_iff : TextCovers held required ↔ (ofBytes held).Covers (ofBytes required) := by
  unfold TextCovers
  simp only [written_iff]
  exact ⟨fun ⟨p, q, hp, hq, covers⟩ => hp ▸ hq ▸ covers, fun covers => ⟨_, _, rfl, rfl, covers⟩⟩

theorem TextCovers.refl (text : Bytes) : TextCovers text text := textCovers_iff.mpr (.refl _)

theorem TextCovers.trans (first : TextCovers text held) (second : TextCovers held required) :
    TextCovers text required :=
  textCovers_iff.mpr ((textCovers_iff.mp first).trans (textCovers_iff.mp second))

theorem isGranted_iff {held : List Bytes} :
    isGranted held required = true ↔ ∃ text ∈ held, TextCovers text required := by
  unfold isGranted
  simp only [List.any_eq_true, grants_iff, textCovers_iff]

end Permission

/-! ## The rule -/

/-- A caller has one of the roles, if there are any, and for each permission one that covers it. Who is no user has
neither. -/
structure AccessRule.Admits (rule : AccessRule) (caller : Option User) : Prop where
  role : rule.roles = [] ∨ ∃ user ∈ caller, ∃ role ∈ rule.roles, role ∈ user.roles
  permissions : ∀ required ∈ rule.permissions, ∃ user ∈ caller, ∃ held ∈ user.permissions,
    Permission.TextCovers held required

namespace Context

variable {c : Context} {text : Bytes}

theorem mem_roles : text ∈ c.roles ↔ ∃ user ∈ c.user, text ∈ user.roles := by
  unfold roles
  cases c.user <;> simp

theorem mem_permissions : text ∈ c.permissions ↔ ∃ user ∈ c.user, text ∈ user.permissions := by
  unfold permissions
  cases c.user <;> simp

end Context

namespace Table

variable {t : Table} {c : Context}

/-- What the check asks of the roles. -/
theorem hasRole_iff :
    (!t.access.roles.isEmpty && !t.access.roles.any fun role => c.roles.contains role) = false
      ↔ t.access.roles = [] ∨ ∃ user ∈ c.user, ∃ role ∈ t.access.roles, role ∈ user.roles := by
  have among : (t.access.roles.any fun role => c.roles.contains role) = true
      ↔ ∃ user ∈ c.user, ∃ role ∈ t.access.roles, role ∈ user.roles := by
    simp only [List.any_eq_true, List.contains_iff_mem, Context.mem_roles]
    constructor
    · rintro ⟨role, listed, user, caller, held⟩
      exact ⟨user, caller, role, listed, held⟩
    · rintro ⟨user, caller, role, listed, held⟩
      exact ⟨role, listed, user, caller, held⟩
  rw [← among, Bool.and_eq_false_iff, Bool.not_eq_false', Bool.not_eq_false', List.isEmpty_iff]

/-- What the check asks of the permissions. -/
theorem hasPermissions_iff :
    (t.access.permissions.find? fun p => !Permission.isGranted c.permissions p) = none
      ↔ ∀ required ∈ t.access.permissions, ∃ user ∈ c.user, ∃ held ∈ user.permissions,
        Permission.TextCovers held required := by
  rw [List.find?_eq_none]
  refine forall₂_congr fun required _ => ?_
  rw [Bool.not_eq_true', Bool.not_eq_false, Permission.isGranted_iff]
  simp only [Context.mem_permissions]
  constructor
  · rintro ⟨held, ⟨user, caller, mem⟩, covers⟩
    exact ⟨user, caller, held, mem, covers⟩
  · rintro ⟨user, caller, held, mem, covers⟩
    exact ⟨held, ⟨user, caller, mem⟩, covers⟩

theorem checkAccess_iff : t.checkAccess c = .ok () ↔ t.access.Admits c.user := by
  have both : t.access.Admits c.user ↔ _ ∧ _ := ⟨fun h => ⟨h.role, h.permissions⟩, fun h => ⟨h.1, h.2⟩⟩
  rw [both, ← hasRole_iff, ← hasPermissions_iff]
  unfold checkAccess
  split
  · next missing =>
    rw [missing]
    simp
  · next admitted =>
    rw [Bool.not_eq_true] at admitted
    rw [and_iff_right admitted]
    split
    · next missing found => simp [found]
    · next found => simp [found]

end Table

/-! ## What a caller gains -/

/-- One thing that a user gains. -/
inductive User.Gains : User → User → Prop where
  | roles (u : User) {more : List Bytes} (kept : u.roles ⊆ more) : Gains u { u with roles := more }
  | permissions (u : User) {more : List Bytes} (kept : u.permissions ⊆ more) : Gains u { u with permissions := more }
  /-- In the place of a permission comes one that covers it. -/
  | replaced (u : User) {before after : List Bytes} {held given : Bytes}
      (holds : u.permissions = before ++ held :: after)
      (covers : Permission.TextCovers given held) :
      Gains u { u with permissions := before ++ given :: after }

/-- A caller gains something, or comes in the place of no one. Of the rest of the context nothing is said. -/
inductive Context.Gains (c c' : Context) : Prop where
  | appears (none : c.user = none)
  | user {u u' : User} (before : c.user = some u) (after : c'.user = some u') (gains : u.Gains u')

namespace User.Gains

variable {u u' : User}

theorem roles_subset (gains : u.Gains u') : u.roles ⊆ u'.roles := by
  cases gains with
  | roles kept => exact kept
  | permissions kept => exact List.Subset.refl _
  | replaced holds covers => exact List.Subset.refl _

/-- Every permission that was held is covered by one that is held now. -/
theorem exists_covers (gains : u.Gains u') {held : Bytes} (mem : held ∈ u.permissions) :
    ∃ now ∈ u'.permissions, Permission.TextCovers now held := by
  cases gains with
  | roles kept => exact ⟨held, mem, .refl _⟩
  | permissions kept => exact ⟨held, kept mem, .refl _⟩
  | @replaced before after old given holds covers =>
    rw [holds, List.mem_append, List.mem_cons] at mem
    rcases mem with mem | rfl | mem
    · exact ⟨held, List.mem_append_left _ mem, .refl _⟩
    · exact ⟨given, List.mem_append_right _ List.mem_cons_self, covers⟩
    · exact ⟨held, List.mem_append_right _ (List.mem_cons_of_mem _ mem), .refl _⟩

end User.Gains

/-- Who is admitted is admitted after gaining something. -/
theorem AccessRule.Admits.of_gains {rule : AccessRule} {c c' : Context} (gains : c.Gains c')
    (admits : rule.Admits c.user) : rule.Admits c'.user := by
  cases gains with
  | appears none =>
    -- No one was admitted, so the rule asks for nothing.
    rw [none] at admits
    constructor
    · refine admits.role.imp_right ?_
      rintro ⟨_, ⟨⟩, _⟩
    · intro required listed
      obtain ⟨_, ⟨⟩, _⟩ := admits.permissions required listed
  | user before after gains =>
    rw [before] at admits
    rw [after]
    constructor
    · refine admits.role.imp_right ?_
      rintro ⟨u, ⟨⟩, role, listed, held⟩
      exact ⟨_, rfl, role, listed, gains.roles_subset held⟩
    · intro required listed
      obtain ⟨u, ⟨⟩, held, mem, covers⟩ := admits.permissions required listed
      obtain ⟨now, holds, more⟩ := gains.exists_covers mem
      exact ⟨_, rfl, now, holds, more.trans covers⟩

namespace Table

/-- A text is read as the permission it writes. A caller passes the check of a table exactly if the table's rule admits
the caller. Which permission grants which goes by their two parts, and is reflexive and transitive with stars on either
side. Whatever a caller gains, in however many steps, a check that was passed before is passed after. -/
theorem access_exact (t : Table) :
    (∀ text p, Permission.ofBytes text = p ↔ p.Written text)
      ∧ (∀ c, t.checkAccess c = .ok () ↔ t.access.Admits c.user)
      ∧ (∀ p q : Permission, p.grants q = true ↔ p.Covers q)
      ∧ (∀ p : Permission, p.grants p = true)
      ∧ (∀ p q r : Permission, p.grants q = true → q.grants r = true → p.grants r = true)
      ∧ ∀ c c', Relation.ReflTransGen Context.Gains c c' → t.checkAccess c = .ok () → t.checkAccess c' = .ok () := by
  refine ⟨fun text p => Permission.written_iff.symm, fun c => checkAccess_iff, fun p q => Permission.grants_iff,
    fun p => ?_, fun p q r => ?_, ?_⟩
  · exact Permission.grants_iff.mpr (.refl p)
  · simp only [Permission.grants_iff]
    exact Permission.Covers.trans
  · intro c c' gains
    simp only [checkAccess_iff]
    intro admits
    induction gains with
    | refl => exact admits
    | tail _ step ih => exact ih.of_gains step

/-- A daybook for clerks who may read orders and write to the daybook. -/
def daybook : Table where
  name := "daybook"
  base := "daybook"
  access := { roles := ["clerk", "auditor"], permissions := ["orders:read", "daybook:write"] }

/-- A clerk with just these permissions, one of them for every action. -/
def clerk : User where
  id := "7"
  roles := ["clerk"]
  permissions := ["orders:read", "daybook"]

/-- The clerk stays admitted when a star for all resources takes the place of a permission and another role is added. A
clerk who may only read the daybook is not admitted, as no permission held covers writing, and neither is no one. -/
theorem access_exact_daybook :
    let starred : User := { clerk with permissions := ["*:read", "daybook"] }
    let later : User := { starred with roles := ["auditor", "clerk"] }
    let reader : User := { clerk with permissions := ["orders:read", "daybook:read", "*:read"] }
    daybook.checkAccess { user := some clerk } = .ok () ∧ daybook.checkAccess { user := some later } = .ok ()
      ∧ daybook.checkAccess { user := some reader } ≠ .ok () ∧ daybook.checkAccess {} ≠ .ok () := by
  intro starred later reader
  obtain ⟨reads, admits, -, -, -, gains⟩ := access_exact daybook
  have before : daybook.checkAccess { user := some clerk } = .ok () := rfl
  have replaced : clerk.Gains starred := by
    have held : clerk.permissions = [] ++ Bytes.ofString "orders:read" :: [Bytes.ofString "daybook"] := rfl
    have star : Permission.Written ⟨"*", "read"⟩ "*:read" := (reads _ _).mp rfl
    have orders : Permission.Written ⟨"orders", "read"⟩ "orders:read" := (reads _ _).mp rfl
    exact .replaced clerk held ⟨_, _, star, orders, .inl rfl, .inr rfl⟩
  have added : starred.Gains later := .roles starred (by decide)
  have first : Context.Gains { user := some clerk } { user := some starred } := .user rfl rfl replaced
  have second : Context.Gains { user := some starred } { user := some later } := .user rfl rfl added
  refine ⟨before, gains _ _ (.tail (.single first) second) before, fun passed => ?_, fun passed => ?_⟩
  · -- Of what the reader holds nothing is for writing.
    obtain ⟨_, ⟨⟩, held, mem, p, q, hp, hq, covers⟩ :=
      ((admits { user := some reader }).mp passed).permissions "daybook:write" (by decide)
    rw [← reads] at hp hq
    subst hp hq
    revert covers
    rw [← Permission.grants_iff]
    revert held
    decide
  · obtain ⟨roles | ⟨_, ⟨⟩, _⟩, -⟩ := (admits {}).mp passed
    exact absurd roles (by decide)

end Table

end TableQuery
