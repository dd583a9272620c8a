/-
Reading bytes as UTF-8 text.

The reader stops at the first place that is not UTF-8 and says where it is and what is wrong there:
a byte that starts no character, a byte that does not continue one, or an end in the middle of a
character. The first continuation byte has a narrower range after the four lead bytes that could
otherwise spell a character in too many bytes, a surrogate, or a code point above the last one.

A file is read in pieces, and places are counted within a piece. The bytes of a character that a
piece leaves unfinished are carried over to the front of the next one, and after the last piece
they stand alone. The first two bytes of a surrogate are carried over in the same way, although no
character starts with them.
-/
import ConstantTime.Text.CharClass

set_option autoImplicit false

namespace ConstantTime.Text

/-- Why bytes are not UTF-8 text: the span that is wrong, its first byte, and the reason. -/
structure Utf8Error where
  start : Nat
  length : Nat
  byte : Nat
  reason : String

/-- The message for bytes that are not UTF-8 text. -/
def Utf8Error.message (e : Utf8Error) : String :=
  let place :=
    if e.length = 1 then
      "byte 0x" ++ hex 2 e.byte ++ " in position " ++ toString e.start
    else
      "bytes in position " ++ toString e.start ++ "-" ++ toString (e.start + e.length - 1)
  "'utf-8' codec can't decode " ++ place ++ ": " ++ e.reason

/-- What a lead byte announces: how many bytes follow, the range of the first of them, and the bits
that the lead byte contributes. -/
structure Lead where
  following : Nat
  low : Nat
  high : Nat
  bits : Nat

def lead? (b : Nat) : Option Lead :=
  if b < 0x80 then some ⟨0, 0, 0, b⟩
  else if b < 0xC2 then none
  else if b < 0xE0 then some ⟨1, 0x80, 0xBF, b - 0xC0⟩
  else if b = 0xE0 then some ⟨2, 0xA0, 0xBF, 0⟩
  else if b = 0xED then some ⟨2, 0x80, 0x9F, 0xD⟩
  else if b < 0xF0 then some ⟨2, 0x80, 0xBF, b - 0xE0⟩
  else if b = 0xF0 then some ⟨3, 0x90, 0xBF, 0⟩
  else if b < 0xF4 then some ⟨3, 0x80, 0xBF, b - 0xF0⟩
  else if b = 0xF4 then some ⟨3, 0x80, 0x8F, 4⟩
  else none

/-- A character whose remaining bytes are being read: where it started, its first byte, how many
bytes are still missing, how many were read, the range of the next one, and the bits so far. -/
structure Partial where
  start : Nat
  byte : Nat
  missing : Nat
  read : Nat
  low : Nat
  high : Nat
  bits : Nat

/-- The number of bytes in a piece of a file. -/
def pieceSize : Nat := 8192

/-- Where the piece starts that the byte at `pos` is read with, if the one before it started at
`origin`. -/
def pieceOrigin (origin pos : Nat) (pending : Option Partial) : Nat :=
  if pos % pieceSize = 0 then (pending.map Partial.start).getD pos else origin

/-- Whether a byte that does not continue a character is the second of a surrogate. -/
def halvesSurrogate (p : Partial) (b : Nat) : Bool := decide (p.byte = 0xED ∧ 0xA0 ≤ b ∧ b ≤ 0xBF)

/-- Reads bytes from position `pos`, in a piece that started at `origin`, with an unfinished
character if there is one; `done` holds the characters read so far, the last one first. -/
def decodeFrom (origin pos : Nat) (pending : Option Partial) (done : List Char) :
    List UInt8 → Except Utf8Error (List Char)
  | [] =>
    match pending with
    | none => .ok done.reverse
    | some p => .error ⟨0, p.read, p.byte, "unexpected end of data"⟩
  | b :: rest =>
    let origin := pieceOrigin origin pos pending
    match pending with
    | none =>
      match lead? b.toNat with
      | none => .error ⟨pos - origin, 1, b.toNat, "invalid start byte"⟩
      | some l =>
        if l.following = 0 then decodeFrom origin (pos + 1) none (Char.ofNat l.bits :: done) rest
        else
          decodeFrom origin (pos + 1)
            (some ⟨pos, b.toNat, l.following, 1, l.low, l.high, l.bits⟩) done rest
    | some p =>
      if p.low ≤ b.toNat ∧ b.toNat ≤ p.high then
        let bits := p.bits * 64 + (b.toNat - 0x80)
        if p.missing = 1 then decodeFrom origin (pos + 1) none (Char.ofNat bits :: done) rest
        else
          decodeFrom origin (pos + 1)
            (some ⟨p.start, p.byte, p.missing - 1, p.read + 1, 0x80, 0xBF, bits⟩)
            done rest
      else
        let endsPiece := rest.isEmpty || decide ((pos + 1) % pieceSize = 0)
        .error ⟨if endsPiece && halvesSurrogate p b.toNat then 0 else p.start - origin,
          p.read, p.byte, "invalid continuation byte"⟩

/-- The bytes of a file as text. -/
def decodeUtf8 (bytes : List UInt8) : Except Utf8Error String :=
  (decodeFrom 0 0 none [] bytes).map String.ofList

end ConstantTime.Text
