import CheckpointRestart.Text.Escape
import CheckpointRestart.Text.Unprinted

/-! # Quoted text

Text between double quotes, with escapes for quotes, backslashes and characters that would not be
seen.
-/

namespace CheckpointRestart.Text

def escapeQuoted (c : Char) : List Char :=
  if c = '\x00' then ['\\', '0']
  else if c = '\t' then ['\\', 't']
  else if c = '\r' then ['\\', 'r']
  else if c = '\n' then ['\\', 'n']
  else if c = '"' ∨ c = '\\' then ['\\', c]
  else if isUnprinted c then codePointEscape c
  else [c]

def quote (s : String) : String :=
  .ofList (['"'] ++ s.toList.flatMap escapeQuoted ++ ['"'])

/-- Quoted texts between braces. -/
def quoteSet (members : List String) : String :=
  "\x7b" ++ String.intercalate ", " (members.map quote) ++ "\x7d"

end CheckpointRestart.Text
