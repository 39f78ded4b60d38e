/-! The kinds of tokens: white space, comments, strings, digits, identifiers, one kind for each
ASCII punctuation character, and a kind for a block comment that is never closed. -/

namespace LessCss

/-- What a token is. -/
inductive Token.Kind where
  | space | tab | newline | blockComment | lineComment | doubleQuoted | singleQuoted | digits
  | identifier | exclamation | quote | hash | dollar | percent | ampersand | apostrophe
  | leftParen | rightParen | asterisk | plus | comma | minus | dot | slash | colon | semicolon
  | less | equals | greater | question | atSign | leftSquare | backslash | rightSquare | caret
  | underscore | backtick | leftCurly | bar | rightCurly | tilde | garbage
deriving DecidableEq

/-- The three types of brackets. -/
inductive Bracket where
  | paren | square | curly
deriving DecidableEq

namespace Token.Kind

/-- The kind's name. -/
def name : Kind → String
  | .space => "Space"
  | .tab => "Tab"
  | .newline => "Newline"
  | .blockComment => "CommentMl"
  | .lineComment => "CommentSl"
  | .doubleQuoted => "StringDq"
  | .singleQuoted => "StringSq"
  | .digits => "DecimalNumber"
  | .identifier => "Identifier"
  | .exclamation => "ExclamationMark"
  | .quote => "QuotationMark"
  | .hash => "NumberSign"
  | .dollar => "DollarSign"
  | .percent => "PercentSign"
  | .ampersand => "Ampersand"
  | .apostrophe => "Apostrophe"
  | .leftParen => "LeftParenthesis"
  | .rightParen => "RightParenthesis"
  | .asterisk => "Asterisk"
  | .plus => "PlusSign"
  | .comma => "Comma"
  | .minus => "HyphenMinus"
  | .dot => "FullStop"
  | .slash => "Solidus"
  | .colon => "Colon"
  | .semicolon => "Semicolon"
  | .less => "LessThanSign"
  | .equals => "EqualsSign"
  | .greater => "GreaterThanSign"
  | .question => "QuestionMark"
  | .atSign => "CommercialAt"
  | .leftSquare => "LeftSquareBracket"
  | .backslash => "ReverseSolidus"
  | .rightSquare => "RightSquareBracket"
  | .caret => "CircumflexAccent"
  | .underscore => "LowLine"
  | .backtick => "GraveAccent"
  | .leftCurly => "LeftCurlyBracket"
  | .bar => "VerticalLine"
  | .rightCurly => "RightCurlyBracket"
  | .tilde => "Tilde"
  | .garbage => "Garbage"

/-- All kinds, in the order of their declaration. -/
def all : List Kind :=
  [.space, .tab, .newline, .blockComment, .lineComment, .doubleQuoted, .singleQuoted, .digits,
   .identifier, .exclamation, .quote, .hash, .dollar, .percent, .ampersand, .apostrophe,
   .leftParen, .rightParen, .asterisk, .plus, .comma, .minus, .dot, .slash, .colon, .semicolon,
   .less, .equals, .greater, .question, .atSign, .leftSquare, .backslash, .rightSquare, .caret,
   .underscore, .backtick, .leftCurly, .bar, .rightCurly, .tilde, .garbage]

/-- The kind with a given name. -/
def ofName? (s : String) : Option Kind := all.find? fun k => k.name == s

/-- Blanks, tabs and line breaks. -/
def isWhitespace : Kind → Bool
  | .space | .tab | .newline => true
  | _ => false

/-- Block comments and line comments. -/
def isComment : Kind → Bool
  | .blockComment | .lineComment => true
  | _ => false

/-- The kind of a punctuation character that stands for itself. -/
def ofPunctuation? : Char → Option Kind
  | '!' => some .exclamation
  | '\x22' => some .quote
  | '#' => some .hash
  | '$' => some .dollar
  | '%' => some .percent
  | '&' => some .ampersand
  | '\x27' => some .apostrophe
  | '(' => some .leftParen
  | ')' => some .rightParen
  | '*' => some .asterisk
  | '+' => some .plus
  | ',' => some .comma
  | '-' => some .minus
  | '.' => some .dot
  | '/' => some .slash
  | ':' => some .colon
  | ';' => some .semicolon
  | '<' => some .less
  | '=' => some .equals
  | '>' => some .greater
  | '?' => some .question
  | '@' => some .atSign
  | '[' => some .leftSquare
  | '\\' => some .backslash
  | ']' => some .rightSquare
  | '^' => some .caret
  | '_' => some .underscore
  | '\x60' => some .backtick
  | '\x7b' => some .leftCurly
  | '|' => some .bar
  | '\x7d' => some .rightCurly
  | '~' => some .tilde
  | _ => none

/-- The bracket type that a token of this kind opens. -/
def opens? : Kind → Option Bracket
  | .leftParen => some .paren
  | .leftSquare => some .square
  | .leftCurly => some .curly
  | _ => none

/-- The bracket type that a token of this kind closes. -/
def closes? : Kind → Option Bracket
  | .rightParen => some .paren
  | .rightSquare => some .square
  | .rightCurly => some .curly
  | _ => none

/-- The list of kinds is complete. -/
theorem mem_all (k : Kind) : k ∈ all := by
  cases k <;> decide

end Token.Kind

end LessCss
