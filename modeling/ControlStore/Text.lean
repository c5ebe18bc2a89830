/-! # Texts

A line ends with a line feed; a carriage return right before it belongs to the end of the line.  What
follows the last line feed is a line of its own unless it is empty. -/

namespace ControlStore

/-! ### Lines -/

/-- A line without the carriage return at its end. -/
def dropReturn (line : String) : String :=
  if line.endsWith "\r" then (line.dropEnd 1).copy else line

/-- The lines of a text, without their ends. -/
def linesOf (text : String) : List String :=
  let pieces := text.splitOn "\n"
  pieces.dropLast.map dropReturn ++ pieces.getLast?.toList.filter (· ≠ "")

/-- The first line of a text. -/
def firstLine (text : String) : String := (linesOf text).headD ""

/-- Lines as one text, each with a line feed behind it. -/
def closedLines (lines : List String) : String := String.join (lines.map fun line => line ++ "\n")

theorem toList_closedLines (lines : List String) :
    (closedLines lines).toList = lines.flatMap fun line => line.toList ++ ['\n'] := by
  rw [closedLines, String.toList_join, List.flatMap_map]
  simp only [String.toList_append]
  rfl

/-! ### Blank characters -/

/-- Whether a character is blank in any script: the characters with the Unicode property
`White_Space`. -/
def isWhite (c : Char) : Bool :=
  let n := c.toNat
  (0x09 ≤ n && n ≤ 0x0d) || n = 0x20 || n = 0x85 || n = 0xa0 || n = 0x1680
    || (0x2000 ≤ n && n ≤ 0x200a) || n = 0x2028 || n = 0x2029 || n = 0x202f || n = 0x205f
    || n = 0x3000

/-- A text without the blanks at its end. -/
def trimRight (text : String) : String :=
  String.ofList (text.toList.reverse.dropWhile isWhite).reverse

end ControlStore
