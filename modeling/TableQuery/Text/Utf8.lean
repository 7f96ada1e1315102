import TableQuery.Text.Bytes

/-!
# UTF-8

`wellFormed` decides whether a byte string is well-formed UTF-8: no overlong forms, no surrogates,
nothing above the last code point. `encode` writes one code point.
-/

namespace TableQuery

namespace Utf8

/-- A continuation byte. -/
def isTail (b : UInt8) : Bool := 0x80 ≤ b && b ≤ 0xbf

/-- Whether a byte string is a sequence of well-formed characters. The second byte of a long form is
bounded so that each code point has one form. -/
def wellFormed : Bytes → Bool
  | [] => true
  | a :: rest =>
    if a < 0x80 then wellFormed rest
    else match rest with
      | [] => false
      | b :: rest =>
        if 0xc2 ≤ a && a ≤ 0xdf then isTail b && wellFormed rest
        else match rest with
          | [] => false
          | c :: rest =>
            if 0xe0 ≤ a && a ≤ 0xef then
              isTail b && isTail c && (a != 0xe0 || 0xa0 ≤ b) && (a != 0xed || b ≤ 0x9f)
                && wellFormed rest
            else match rest with
              | [] => false
              | d :: rest =>
                0xf0 ≤ a && a ≤ 0xf4 && isTail b && isTail c && isTail d
                  && (a != 0xf0 || 0x90 ≤ b) && (a != 0xf4 || b ≤ 0x8f) && wellFormed rest

/-- The bytes of a code point. -/
def encode (n : Nat) : Bytes :=
  if n < 0x80 then [UInt8.ofNat n]
  else if n < 0x800 then [UInt8.ofNat (0xc0 + n / 0x40), UInt8.ofNat (0x80 + n % 0x40)]
  else if n < 0x10000 then
    [UInt8.ofNat (0xe0 + n / 0x1000), UInt8.ofNat (0x80 + n / 0x40 % 0x40),
      UInt8.ofNat (0x80 + n % 0x40)]
  else
    [UInt8.ofNat (0xf0 + n / 0x40000), UInt8.ofNat (0x80 + n / 0x1000 % 0x40),
      UInt8.ofNat (0x80 + n / 0x40 % 0x40), UInt8.ofNat (0x80 + n % 0x40)]

end Utf8

end TableQuery
