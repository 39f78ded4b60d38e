/-! Text in quotes. Quoting leaves no line break in the text, and the first quote that no backslash
stands before closes it, so a quoted text can be read back.

Characters that have no printed form are written by their number. Which ones these are, apart from
the four with a letter of their own, is a matter of Unicode's tables, and a parameter. -/

namespace LessCss.Text

section
variable (unprinted : Char → Bool)

/-- A character inside quotes: quote and backslash behind a backslash, the four common control
characters by letter, the others without a printed form by number. -/
def escape (c : Char) : List Char :=
  if c = '\x22' then ['\\', '\x22']
  else if c = '\\' then ['\\', '\\']
  else if c = '\n' then ['\\', 'n']
  else if c = '\r' then ['\\', 'r']
  else if c = '\t' then ['\\', 't']
  else if c = '\x00' then ['\\', '0']
  else if unprinted c then ['\\', 'u', '\x7b'] ++ Nat.toDigits 16 c.toNat ++ ['\x7d']
  else [c]

/-- A text in double quotes. -/
def quoteWith (s : String) : String :=
  String.ofList ('\x22' :: (s.toList.flatMap (escape unprinted) ++ ['\x22']))

end

/-- The two ranges of control characters. -/
def isControl (c : Char) : Bool := c.toNat < 0x20 || (0x7f ≤ c.toNat && c.toNat < 0xa0)

/-- A text in double quotes, with numbers for control characters only. Left out are the other
characters without a printed form, such as the blanks beside the common one, and the marks that join
with the character before them: these stand in the text as they are. -/
def quote : String → String := quoteWith isControl

end LessCss.Text
