import LessCss.Error
import LessCss.Node.Kind

/-! The productions that a whole token stream can be read as. Each has the kind of the node it
gives, a name, and for some of them short further names; names are looked up without regard to the
case of ASCII letters. -/

namespace LessCss

/-- A production to start from. -/
inductive Symbol where
  | arguments | atKeyword | atRule | attributeSelector | block | brackets | classSelector
  | color | combinator | compoundSelector | condition | declaration | declarationDelimiter
  | delimiter | dimension | escapedString | expression | extend | function | idSelector | ident
  | important | mixinCall | interpolation | mixin | blockComment | namespaceBar | number
  | operator | parentheses | parentSelector | percentage | progid | property
  | propertyDelimiter | pseudoClass | pseudoElement | ruleset | selector | lineComment | space
  | string | stylesheet | typeSelector | unary | uri | value | var | varList
deriving DecidableEq

namespace Symbol

/-- The kind of the node that the production gives. -/
def kind : Symbol → Node.Kind
  | .arguments => .arguments
  | .atKeyword => .atKeyword
  | .atRule => .atRule
  | .attributeSelector => .attributeSelector
  | .block => .block
  | .brackets => .brackets
  | .classSelector => .classSelector
  | .color => .color
  | .combinator => .combinator
  | .compoundSelector => .compoundSelector
  | .condition => .condition
  | .declaration => .declaration
  | .declarationDelimiter => .declarationDelimiter
  | .delimiter => .delimiter
  | .dimension => .dimension
  | .escapedString => .escapedString
  | .expression => .expression
  | .extend => .extend
  | .function => .function
  | .idSelector => .idSelector
  | .ident => .ident
  | .important => .important
  | .mixinCall => .mixinCall
  | .interpolation => .interpolation
  | .mixin => .mixin
  | .blockComment => .blockComment
  | .namespaceBar => .namespaceBar
  | .number => .number
  | .operator => .operator
  | .parentheses => .parentheses
  | .parentSelector => .parentSelector
  | .percentage => .percentage
  | .progid => .progid
  | .property => .property
  | .propertyDelimiter => .propertyDelimiter
  | .pseudoClass => .pseudoClass
  | .pseudoElement => .pseudoElement
  | .ruleset => .ruleset
  | .selector => .selector
  | .lineComment => .lineComment
  | .space => .space
  | .string => .string
  | .stylesheet => .stylesheet
  | .typeSelector => .typeSelector
  | .unary => .unary
  | .uri => .uri
  | .value => .value
  | .var => .var
  | .varList => .varList

/-- The production's name. -/
def name : Symbol → String
  | .arguments => "arguments"
  | .atKeyword => "atkeyword"
  | .atRule => "atrule"
  | .attributeSelector => "attributeSelector"
  | .block => "block"
  | .brackets => "brackets"
  | .classSelector => "class"
  | .color => "color"
  | .combinator => "combinator"
  | .compoundSelector => "compoundSelector"
  | .condition => "condition"
  | .declaration => "declaration"
  | .declarationDelimiter => "declDelim"
  | .delimiter => "delim"
  | .dimension => "dimension"
  | .escapedString => "escapedString"
  | .expression => "expression"
  | .extend => "extend"
  | .function => "function"
  | .idSelector => "id"
  | .ident => "ident"
  | .important => "important"
  | .mixinCall => "include"
  | .interpolation => "interpolatedVariable"
  | .mixin => "mixin"
  | .blockComment => "multilineComment"
  | .namespaceBar => "namespace"
  | .number => "number"
  | .operator => "operator"
  | .parentheses => "parentheses"
  | .parentSelector => "parentSelector"
  | .percentage => "percentage"
  | .progid => "progid"
  | .property => "property"
  | .propertyDelimiter => "propertyDelim"
  | .pseudoClass => "pseudoClass"
  | .pseudoElement => "pseudoElement"
  | .ruleset => "ruleset"
  | .selector => "selector"
  | .lineComment => "singlelineComment"
  | .space => "space"
  | .string => "string"
  | .stylesheet => "stylesheet"
  | .typeSelector => "typeSelector"
  | .unary => "unary"
  | .uri => "uri"
  | .value => "value"
  | .var => "variable"
  | .varList => "variablesList"

/-- Further names, in small letters. -/
def aliases : Symbol → List String
  | .attributeSelector => ["attrib"]
  | .brackets => ["braces"]
  | .color => ["vhash"]
  | .declarationDelimiter => ["declarationdelimiter"]
  | .delimiter => ["delimiter"]
  | .idSelector => ["shash"]
  | .blockComment => ["commentml"]
  | .propertyDelimiter => ["propertydelimiter"]
  | .pseudoClass => ["pseudoc"]
  | .pseudoElement => ["pseudoe"]
  | .lineComment => ["commentsl"]
  | .space => ["s"]
  | .uri => ["url"]
  | _ => []

/-- All productions, in the order of their declaration. -/
def all : List Symbol :=
  [.arguments, .atKeyword, .atRule, .attributeSelector, .block, .brackets, .classSelector,
   .color, .combinator, .compoundSelector, .condition, .declaration, .declarationDelimiter,
   .delimiter, .dimension, .escapedString, .expression, .extend, .function, .idSelector,
   .ident, .important, .mixinCall, .interpolation, .mixin, .blockComment, .namespaceBar,
   .number, .operator, .parentheses, .parentSelector, .percentage, .progid, .property,
   .propertyDelimiter, .pseudoClass, .pseudoElement, .ruleset, .selector, .lineComment, .space,
   .string, .stylesheet, .typeSelector, .unary, .uri, .value, .var, .varList]

/-- Whether `s`, in small letters, is one of the production's names. -/
def answersTo (x : Symbol) (s : String) : Bool :=
  s == Text.lowercase x.name || x.aliases.contains s

/-- The production with a given name. -/
def ofName? (s : String) : Option Symbol :=
  all.find? fun x => x.answersTo (Text.lowercase s)

/-- The production with a given name, or the failure that names it as it was given. -/
def resolve (s : String) : Except Error Symbol :=
  match ofName? s with
  | some x => .ok x
  | none => .error (.unknownSymbol s)

/-- The list of productions is complete. -/
theorem mem_all (x : Symbol) : x ∈ all := by
  cases x <;> decide

end Symbol

end LessCss
