import LessCss.Token

/-! Cutting a source into lexemes. At each place the longest token is taken, so the work is one
function `munch` that says what starts here and how far it reaches; cutting the text there loses
nothing. Between the identifier `url` and the next `)` two slashes start no comment: they stay two
slashes, and the rest of that line is cut up on its own. -/

namespace LessCss

/-- A kind with the characters it covers. -/
structure Lexeme where
  kind : Token.Kind
  chars : List Char
deriving DecidableEq

namespace Lexeme

/-! ## Classes of characters -/

/-- Blanks and form feeds, which run together into one token. -/
def isBlank (c : Char) : Bool := c = ' ' || c = '\x0c'

/-- Line feed and carriage return. -/
def isBreak (c : Char) : Bool := c = '\n' || c = '\r'

/-- The characters of which identifiers are made: all but white space and ASCII punctuation. -/
def isIdent (c : Char) : Bool :=
  !(isBlank c || isBreak c || c = '\t' || (Token.Kind.ofPunctuation? c).isSome)

/-! ## How far a token reaches, counted from its second character -/

/-- Through the end mark of a block comment. -/
def commentReach? : List Char → Option Nat
  | '*' :: '/' :: _ => some 2
  | _ :: cs => (commentReach? cs).map (· + 1)
  | [] => none

/-- Through the quote `q`; a backslash takes the next character with it. -/
def quoteReach? (q : Char) : List Char → Option Nat
  | [] => none
  | '\\' :: _ :: cs => (quoteReach? q cs).map (· + 2)
  | c :: cs => if c = q then some 1 else if c = '\\' then none else (quoteReach? q cs).map (· + 1)

/-- The identifier characters; a backslash takes the next character with it, unless a line ends
there. -/
def identReach : List Char → Nat
  | [] => 0
  | '\\' :: c :: cs => if isBreak c then 0 else identReach cs + 2
  | c :: cs => if isIdent c then identReach cs + 1 else 0

/-- How many characters in front satisfy `p`. -/
def reachWhile (p : Char → Bool) (cs : List Char) : Nat := (cs.takeWhile p).length

/-- What starts with a slash: a comment, or the slash itself. A block comment without an end is no
token of the language and takes all that is left. -/
def munchSlash : List Char → Token.Kind × Nat
  | '*' :: cs =>
    match commentReach? cs with
    | some n => (.blockComment, n + 1)
    | none => (.garbage, cs.length + 1)
  | '/' :: cs => (.lineComment, reachWhile (fun c => !isBreak c) cs + 1)
  | _ => (.slash, 0)

/-- The token that starts with `c` before `cs`, and how many characters of `cs` it takes. -/
def munch (c : Char) (cs : List Char) : Token.Kind × Nat :=
  if isBlank c then (.space, reachWhile isBlank cs)
  else if c = '\t' then (.tab, 0)
  else if c = '\n' then (.newline, 0)
  else if c = '\r' then (.newline, if cs.head? = some '\n' then 1 else 0)
  else if c.isDigit then (.digits, reachWhile Char.isDigit cs)
  else if c = '/' then munchSlash cs
  else if c = '\x22' then
    match quoteReach? c cs with
    | some n => (.doubleQuoted, n)
    | none => (.quote, 0)
  else if c = '\x27' then
    match quoteReach? c cs with
    | some n => (.singleQuoted, n)
    | none => (.apostrophe, 0)
  else
    match Token.Kind.ofPunctuation? c with
    | some k => (k, 0)
    | none => (.identifier, identReach cs)

/-! ## Cutting a text -/

/-- Whether two slashes start no comment after `x`, when `url` says so before it. -/
def urlAfter (url : Bool) (x : Lexeme) : Bool :=
  if x.kind = .identifier ∧ x.chars = ['u', 'r', 'l'] then true
  else if x.kind = .rightParen then false
  else url

/-- Cuts a text into lexemes. `url` says that two slashes start no comment, and is given back as
it stands at the end of the text. -/
def cut (url : Bool) : List Char → List Lexeme × Bool
  | [] => ([], url)
  | c :: cs =>
    let (kind, n) := munch c cs
    if kind = .lineComment ∧ url then
      let (tail, url) := cut url ((cs.take n).drop 1)
      let (rest, url) := cut url (cs.drop n)
      (⟨.slash, ['/']⟩ :: ⟨.slash, ['/']⟩ :: (tail ++ rest), url)
    else
      let x : Lexeme := ⟨kind, c :: cs.take n⟩
      let (rest, url) := cut (urlAfter url x) (cs.drop n)
      (x :: rest, url)
termination_by cs => cs.length
decreasing_by all_goals simp only [List.length_drop, List.length_take, List.length_cons]; omega

/-- The lexemes of a source. -/
def ofSource (source : String) : List Lexeme := (cut false source.toList).1

end Lexeme

/-- Turns lexemes into tokens without links, the first of them at `p`. -/
def Token.place (p : Position) : List Lexeme → List Token
  | [] => []
  | x :: xs =>
    let text := String.ofList x.chars
    ⟨x.kind, text, p, none, none⟩ :: place (p.advance text) xs

end LessCss
