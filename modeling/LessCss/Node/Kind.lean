import LessCss.Text

/-! The kinds of tree nodes. A kind has a printable name, a tag (the name with a small first
letter), and the widths of the punctuation that surrounds its content in the source and is not
stored in it. -/

namespace LessCss

/-- What a tree node stands for. -/
inductive Node.Kind where
  | stylesheet | ruleset | selector | compoundSelector | typeSelector | combinator
  | classSelector | idSelector | attributeSelector | attributeName | attributeMatch
  | attributeValue | attributeFlags | namespacePart | namespaceName | namespaceSeparator
  | namespaceBar | pseudoClass | pseudoElement | parentSelector | parentSuffix
  | keyframeSelector | declaration | property | propertyDelimiter | value
  | declarationDelimiter | delimiter | block | atRule | atKeyword | mixin | mixinCall | extend
  | condition | var | varList | interpolation | arguments | function | parentheses | brackets
  | space | blockComment | lineComment | string | escapedString | number | dimension
  | percentage | unary | operator | important | uri | raw | expression | progid | color | ident
deriving DecidableEq

/-- Widths, in columns, of the marks around a node's content that the content leaves out. -/
structure Delimiters where
  opening : Nat
  closing : Nat
deriving DecidableEq

namespace Node.Kind

/-- The kind's name in listings. -/
def name : Kind → String
  | .stylesheet => "Stylesheet"
  | .ruleset => "Ruleset"
  | .selector => "Selector"
  | .compoundSelector => "CompoundSelector"
  | .typeSelector => "TypeSelector"
  | .combinator => "Combinator"
  | .classSelector => "Class"
  | .idSelector => "Id"
  | .attributeSelector => "AttributeSelector"
  | .attributeName => "AttributeName"
  | .attributeMatch => "AttributeMatch"
  | .attributeValue => "AttributeValue"
  | .attributeFlags => "AttributeFlags"
  | .namespacePart => "NamePrefix"
  | .namespaceName => "NamespacePrefix"
  | .namespaceSeparator => "NamespaceSeparator"
  | .namespaceBar => "Namespace"
  | .pseudoClass => "PseudoClass"
  | .pseudoElement => "PseudoElement"
  | .parentSelector => "ParentSelector"
  | .parentSuffix => "ParentSelectorExtension"
  | .keyframeSelector => "KeyframesSelector"
  | .declaration => "Declaration"
  | .property => "Property"
  | .propertyDelimiter => "PropertyDelimiter"
  | .value => "Value"
  | .declarationDelimiter => "DeclarationDelimiter"
  | .delimiter => "Delimiter"
  | .block => "Block"
  | .atRule => "AtRule"
  | .atKeyword => "AtKeyword"
  | .mixin => "Mixin"
  | .mixinCall => "Include"
  | .extend => "Extend"
  | .condition => "Condition"
  | .var => "Variable"
  | .varList => "VariablesList"
  | .interpolation => "InterpolatedVariable"
  | .arguments => "Arguments"
  | .function => "Function"
  | .parentheses => "Parentheses"
  | .brackets => "Brackets"
  | .space => "Space"
  | .blockComment => "MultilineComment"
  | .lineComment => "SinglelineComment"
  | .string => "String"
  | .escapedString => "EscapedString"
  | .number => "Number"
  | .dimension => "Dimension"
  | .percentage => "Percentage"
  | .unary => "Unary"
  | .operator => "Operator"
  | .important => "Important"
  | .uri => "Uri"
  | .raw => "Raw"
  | .expression => "Expression"
  | .progid => "Progid"
  | .color => "Color"
  | .ident => "Ident"

/-- All kinds, in the order of their declaration. -/
def all : List Kind :=
  [.stylesheet, .ruleset, .selector, .compoundSelector, .typeSelector, .combinator,
   .classSelector, .idSelector, .attributeSelector, .attributeName, .attributeMatch,
   .attributeValue, .attributeFlags, .namespacePart, .namespaceName, .namespaceSeparator,
   .namespaceBar, .pseudoClass, .pseudoElement, .parentSelector, .parentSuffix,
   .keyframeSelector, .declaration, .property, .propertyDelimiter, .value,
   .declarationDelimiter, .delimiter, .block, .atRule, .atKeyword, .mixin, .mixinCall, .extend,
   .condition, .var, .varList, .interpolation, .arguments, .function, .parentheses, .brackets,
   .space, .blockComment, .lineComment, .string, .escapedString, .number, .dimension,
   .percentage, .unary, .operator, .important, .uri, .raw, .expression, .progid, .color,
   .ident]

/-- The kind's tag in data exchange. -/
def tag (k : Kind) : String := Text.decapitalize k.name

/-- The kind with a given tag. -/
def ofTag? (s : String) : Option Kind := all.find? fun k => k.tag == s

/-- The marks left out of a node's content: brackets on both sides, `%` after a percentage, `...`
after a list of variables, `@{` and `}` around an interpolated name, `url(` and `expression(` with
their parenthesis, the comment marks, and the one sign before an escaped string or a color. -/
def delimiters : Kind → Delimiters
  | .block | .parentheses | .brackets | .arguments | .attributeSelector => ⟨1, 1⟩
  | .percentage => ⟨0, 1⟩
  | .varList => ⟨0, 3⟩
  | .interpolation => ⟨2, 1⟩
  | .uri => ⟨4, 1⟩
  | .expression => ⟨11, 1⟩
  | .blockComment => ⟨2, 2⟩
  | .lineComment => ⟨2, 0⟩
  | .escapedString | .color => ⟨1, 0⟩
  | _ => ⟨0, 0⟩

/-- The list of kinds is complete. -/
theorem mem_all (k : Kind) : k ∈ all := by
  cases k <;> decide

end Node.Kind

end LessCss
