import TableQuery.Fault

/-!
# Vocabularies

The fixed words of a description: names of column types, join types, aggregates and so on. A vocabulary
pairs each word with what it means and says what kind of word it is; several words may mean the same.
Words are read in any case.
-/

namespace TableQuery

/-- The words of one kind, in small letters, with their meanings. -/
structure Vocabulary (α : Type) where
  /-- What kind of word this is, for messages. -/
  kind : Bytes
  words : List (Bytes × α)

namespace Vocabulary

variable {α : Type}

/-- The meaning of a word, in any case. -/
def find? (v : Vocabulary α) (word : Bytes) : Option α :=
  let lower := Bytes.toLower word
  (v.words.find? fun entry => entry.1 == lower).map Prod.snd

/-- The meaning of a word, or the fault that names it. -/
def read (v : Vocabulary α) (word : Bytes) : Checked α :=
  match v.find? word with
  | some a => .ok a
  | none => .error (.unknownName v.kind word)

end Vocabulary

end TableQuery
