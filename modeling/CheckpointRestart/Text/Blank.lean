/-! # White space and lines

Text is handled as a list of characters. White space is the Unicode property of that name, so a
no-break space or an ideographic space around a token is trimmed like an ordinary one.
-/

namespace CheckpointRestart.Text

/-- The characters with the Unicode property White_Space. -/
def isBlank (c : Char) : Bool :=
  ('\t' ≤ c && c ≤ '\r') || c == ' ' || c == '\u0085' || c == '\u00a0' || c == '\u1680' ||
    ('\u2000' ≤ c && c ≤ '\u200a') || c == '\u2028' || c == '\u2029' || c == '\u202f' ||
    c == '\u205f' || c == '\u3000'

def trimStart (s : List Char) : List Char :=
  s.dropWhile isBlank

def trimEnd (s : List Char) : List Char :=
  (s.reverse.dropWhile isBlank).reverse

def trim (s : List Char) : List Char :=
  trimEnd (trimStart s)

theorem length_trimStart_le (s : List Char) : (trimStart s).length ≤ s.length :=
  (List.dropWhile_sublist isBlank (l := s)).length_le

/-- Puts a character in front of the first piece; a line feed starts a new one. -/
def consPiece (c : Char) (pieces : List (List Char)) : List (List Char) :=
  if c = '\n' then [] :: pieces
  else match pieces with
    | [] => [[c]]
    | l :: ls => (c :: l) :: ls

/-- The pieces between the line feeds; there is always at least one. -/
def lineFeedPieces (s : List Char) : List (List Char) :=
  s.foldr consPiece [[]]

/-- The lines of a text. A line feed at the very end starts no new line. -/
def lines (s : List Char) : List (List Char) :=
  let pieces := lineFeedPieces s
  if pieces.getLast? = some [] then pieces.dropLast else pieces

end CheckpointRestart.Text
