/-! # Escaped characters

A character outside the printable ASCII range is written as its code point in hexadecimal between
braces. Quotes, the backslash and the usual control characters have short forms.
-/

namespace CheckpointRestart.Text

/-- The code point of a character in braces, after a backslash and a `u`. -/
def codePointEscape (c : Char) : List Char :=
  ['\\', 'u', '\x7b'] ++ Nat.toDigits 16 c.toNat ++ ['\x7d']

/-- Escapes a character so that only printable ASCII is left. -/
def escapeToAscii (c : Char) : List Char :=
  if c = '\t' then ['\\', 't']
  else if c = '\r' then ['\\', 'r']
  else if c = '\n' then ['\\', 'n']
  else if c = '\'' ∨ c = '"' ∨ c = '\\' then ['\\', c]
  else if 0x20 ≤ c.toNat ∧ c.toNat ≤ 0x7e then [c]
  else codePointEscape c

end CheckpointRestart.Text
