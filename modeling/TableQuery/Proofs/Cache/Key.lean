import TableQuery.Engine.Basic
import TableQuery.Proofs.Json.Print
import TableQuery.Proofs.Request.Written

/-!
# What a key tells of its request

A key is the digest, in hexadecimal digits, of one JSON text in which the table, the kind of request, the parameters and
the context are written. Two requests whose texts have different digests therefore have one key only where they have one
text, and then the table and the kind are the same and so is all that is written of parameters and context.

## What is proved

`Engine.keyOf_inj`: requests with one key, of which no two texts have one digest, are for one table and of one kind,
with the same parameters and with contexts in which conditions find the same.
-/

namespace TableQuery

theorem Ascii.hexDigit_inj {m n : Nat} (hm : m < 16) (hn : n < 16) (same : hexDigit m = hexDigit n) : m = n := by
  have all : ∀ m < 16, ∀ n < 16, hexDigit m = hexDigit n → m = n := by decide
  exact all m hm n hn same

theorem Bytes.toHex_injective : Function.Injective Bytes.toHex := by
  intro s
  induction s with
  | nil =>
    intro t same
    cases t with
    | nil => rfl
    | cons b t => cases same
  | cons a s ih =>
    intro t same
    cases t with
    | nil => cases same
    | cons b t =>
      obtain ⟨high, more⟩ := List.cons.inj same
      obtain ⟨low, rest⟩ := List.cons.inj more
      have ha := a.toNat_lt
      have hb := b.toNat_lt
      have high := Ascii.hexDigit_inj (by omega) (by omega) high
      have low := Ascii.hexDigit_inj (Nat.mod_lt _ (by decide)) (Nat.mod_lt _ (by decide)) low
      have equal : a = b := UInt8.toNat_inj.mp (by omega)
      rw [equal, ih rest]

namespace Engine

variable {σ τ : Type}

/-- The name under which a request is written into its key. -/
def entryName (table : Bytes) (kind : RequestKind) : Bytes := table ++ Ascii.colon :: kind.name

/-- A name and a kind can be told from the two together, since the kinds end in different letters. -/
theorem entryName_inj {table table' : Bytes} {kind kind' : RequestKind}
    (same : entryName table kind = entryName table' kind') : table = table' ∧ kind = kind' := by
  have ends (table : Bytes) (kind : RequestKind) : (entryName table kind).getLast? = kind.name.getLast? := by
    unfold entryName
    cases kind <;> exact List.getLast?_append_of_ne_nil _ (List.cons_ne_nil _ _)
  have kinds : kind = kind' := by
    have last := congrArg List.getLast? same
    rw [ends, ends] at last
    cases kind <;> cases kind' <;> first | rfl | exact absurd last (by decide)
  subst kinds
  exact ⟨List.append_cancel_right same, rfl⟩

/-- The text whose digest is the key of a request. -/
def keyText (e : Engine σ) (kind : RequestKind) (p : Params) (c : Context) : Bytes :=
  (Json.record [("table", .str (entryName e.table.name kind)), ("params", p.toJson), ("context", c.toJson)]).compact

theorem keyOf_eq (e : Engine σ) (kind : RequestKind) (p : Params) (c : Context) :
    e.keyOf kind p c = Bytes.toHex (Sha256.digest (e.keyText kind p c)) := rfl

/-- Requests of which no two texts have one digest are told by their keys. -/
theorem keyOf_inj {e : Engine σ} {e' : Engine τ} {kind kind' : RequestKind} {p p' : Params} {c c' : Context}
    (noCollision : Sha256.digest (e.keyText kind p c) = Sha256.digest (e'.keyText kind' p' c') →
      e.keyText kind p c = e'.keyText kind' p' c')
    (ordered : Members.Sorted p.filters) (ordered' : Members.Sorted p'.filters) (timed : c.Timed) (timed' : c'.Timed)
    (same : e.keyOf kind p c = e'.keyOf kind' p' c') :
    e.table.name = e'.table.name ∧ kind = kind' ∧ p = p' ∧ c.tidy = c'.tidy := by
  rw [keyOf_eq, keyOf_eq] at same
  have written := Json.compact_injective (noCollision (Bytes.toHex_injective same))
  have members := Json.record_inj written rfl (by simp only [List.map_cons, List.map_nil]; decide)
  simp only [List.cons.injEq, Prod.mk.injEq, true_and, and_true, Json.str.injEq] at members
  obtain ⟨names, params, contexts⟩ := members
  obtain ⟨tables, kinds⟩ := entryName_inj names
  exact ⟨tables, kinds, Params.toJson_inj ordered ordered' params, Context.toJson_inj timed timed' contexts⟩

end Engine

end TableQuery
