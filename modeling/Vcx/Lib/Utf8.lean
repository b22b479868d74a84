/-!
# UTF-8

`DecodeRune` and `EncodeRune` of the package `unicode/utf8`: what is no UTF-8 is read as one byte
of U+FFFD, and what is no character is written as U+FFFD.
-/

namespace Vcx.Lib
set_option autoImplicit false

/-- `RuneError`. -/
def runeError : Nat := 0xFFFD

/-- A byte from `lo` to `hi`. -/
def inBytes (lo hi b : UInt8) : Bool := lo ≤ b && b ≤ hi

/-- A byte that goes on with a character. -/
def continues (b : UInt8) : Bool := inBytes 0x80 0xBF b

/-- The bytes that may follow the first of a character of three bytes. -/
def second3 (b : UInt8) : UInt8 → Bool :=
  if b = 0xE0 then inBytes 0xA0 0xBF else if b = 0xED then inBytes 0x80 0x9F else continues

/-- The bytes that may follow the first of a character of four bytes. -/
def second4 (b : UInt8) : UInt8 → Bool :=
  if b = 0xF0 then inBytes 0x90 0xBF else if b = 0xF4 then inBytes 0x80 0x8F else continues

/-- `DecodeRune`: the character at the front and the number of its bytes. -/
def decodeRune : List UInt8 → Nat × Nat
  | [] => (runeError, 0)
  | b :: bs =>
    if b < 0x80 then (b.toNat, 1)
    else match bs with
      | [] => (runeError, 1)
      | b1 :: bs =>
        if inBytes 0xC2 0xDF b then
          if continues b1 then ((b.toNat - 0xC0) * 64 + (b1.toNat - 0x80), 2) else (runeError, 1)
        else match bs with
          | [] => (runeError, 1)
          | b2 :: bs =>
            if inBytes 0xE0 0xEF b then
              if second3 b b1 && continues b2 then
                ((b.toNat - 0xE0) * 4096 + (b1.toNat - 0x80) * 64 + (b2.toNat - 0x80), 3)
              else (runeError, 1)
            else match bs with
              | [] => (runeError, 1)
              | b3 :: _ =>
                if inBytes 0xF0 0xF4 b && second4 b b1 && continues b2 && continues b3 then
                  ((b.toNat - 0xF0) * 262144 + (b1.toNat - 0x80) * 4096 + (b2.toNat - 0x80) * 64 + (b3.toNat - 0x80), 4)
                else (runeError, 1)

/-- `EncodeRune`, of a number taken for a character. -/
def encodeRune (r : Nat) : List Nat :=
  if r < 0x80 then [r]
  else if r < 0x800 then [0xC0 + r / 64, 0x80 + r % 64]
  else if 0x10FFFF < r || 0xD800 ≤ r && r ≤ 0xDFFF then [0xEF, 0xBF, 0xBD]
  else if r < 0x10000 then [0xE0 + r / 4096, 0x80 + r / 64 % 64, 0x80 + r % 64]
  else [0xF0 + r / 262144, 0x80 + r / 4096 % 64, 0x80 + r / 64 % 64, 0x80 + r % 64]

/-- Every step of a decoding takes a byte at least and none that are not there. -/
theorem decodeRune_size (b : UInt8) (bs : List UInt8) :
    0 < (decodeRune (b :: bs)).2 ∧ (decodeRune (b :: bs)).2 ≤ (b :: bs).length := by
  rcases bs with _ | ⟨b1, _ | ⟨b2, _ | ⟨b3, bs⟩⟩⟩
  all_goals
    simp only [decodeRune, List.length_cons]
    repeat' split
    all_goals simp

end Vcx.Lib
