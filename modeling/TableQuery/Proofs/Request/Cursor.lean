import TableQuery.Proofs.Text.Base64Url
import TableQuery.Request.Cursor

/-!
# Cursor tokens, there and back

A token is the text of an object in symbols for URLs. The symbols give the text back, so an object comes back
where its text does.

## What is proved

`Cursor.decode_encode`: an object that survives being written and read is what its token carries.
`Cursor.codec`: what is encoded comes back, and tokens that nothing was encoded to are refused.
-/

namespace TableQuery

namespace Cursor

theorem decode_nil : decode [] = none := rfl

/-- An object that survives being written and read comes back from its token. -/
theorem decode_encode {o : Json} (object : o.isObj = true) (survives : Json.parse? o.compact = some o) :
    decode (encode o) = some o := by
  have filled : o.compact ≠ [] := by
    cases o with
    | obj members =>
      rw [Json.compact]
      exact List.cons_ne_nil _ _
    | _ => cases object
  unfold decode encode
  rw [Base64Url.decode_encode filled, Option.bind_eq_bind, Option.bind_some, survives, Option.bind_eq_bind,
    Option.bind_some, if_pos object]

theorem decode_of_refused {token : Bytes} (refused : Base64Url.decode token = none) : decode token = none := by
  unfold decode
  rw [refused]
  rfl

/-- Byte strings come back from their symbols, with any padding, and objects from their tokens. There are symbols of the
alphabet only. A token with another byte before its padding, or with a single symbol left over, is refused. -/
theorem codec :
    (∀ s : Bytes, s ≠ [] → ∀ n, Base64Url.decode (Base64Url.encode s ++ List.replicate n Ascii.equals) = some s)
      ∧ (∀ s : Bytes, ∀ b ∈ Base64Url.encode s, Base64Url.IsSymbol b)
      ∧ (∀ o : Json, o.isObj = true → Json.parse? o.compact = some o → decode (encode o) = some o)
      ∧ ∀ token : Bytes,
        (∃ b ∈ Bytes.dropEndWhile (· == Ascii.equals) token, ¬Base64Url.IsSymbol b)
            ∨ (Bytes.dropEndWhile (· == Ascii.equals) token).length % 4 = 1 →
          Base64Url.decode token = none ∧ decode token = none := by
  refine ⟨fun s => Base64Url.decode_encode_padded, fun s b => Base64Url.isSymbol_of_mem_encode,
    fun o => decode_encode, fun token faulty => ?_⟩
  have refused : Base64Url.decode token = none := by
    rcases faulty with ⟨b, mem, stray⟩ | one
    · exact Base64Url.decode_of_stray stray mem
    · exact Base64Url.decode_of_left_over one
  exact ⟨refused, decode_of_refused refused⟩

/-- A byte string with padding, an object, a token with a blank and one of five symbols. -/
theorem codec_samples :
    Base64Url.decode (Base64Url.encode [0xfb, 0xff, 0x00, 0x01] ++ "==") = some [0xfb, 0xff, 0x00, 0x01]
      ∧ decode (encode (.obj [("id", .int 7)])) = some (.obj [("id", .int 7)])
      ∧ decode "eyJp ZCI6N30=" = none ∧ decode "eyJpZ===" = none := by
  obtain ⟨padded, -, carried, refused⟩ := codec
  refine ⟨padded [0xfb, 0xff, 0x00, 0x01] (by decide) 2, carried (.obj [("id", .int 7)]) rfl rfl, ?_, ?_⟩
  · exact (refused "eyJp ZCI6N30=" (.inl ⟨Ascii.space, by decide, by decide⟩)).2
  · exact (refused "eyJpZ===" (.inr (by decide))).2

end Cursor

end TableQuery
