/-! The rules whose answers are remembered during a parse, and what an answer is: no match, or how
many tokens the rule covers and which of its alternatives covered them. -/

namespace LessCss

/-! ## Shapes: the alternatives of a rule, in the order in which they are tried -/

/-- A part of a value, or of a group. -/
inductive Fragment where
  | brackets | parentheses | string | varList | var | percentage | dimension | number | uri
  | expression | function | ident | classSelector | unary
deriving DecidableEq

/-- An element of the head of an at-rule, or of a group. -/
inductive PreludePart where
  | color | fragment | spacing | operator
deriving DecidableEq

/-- An element of an argument list. -/
inductive Argument where
  | escapedString | declaration | varList | var | spacing | unary | operator | delimiter
  | declarationDelimiter | string | percentage | dimension | number | uri | function | ident
  | color | block | parentheses
deriving DecidableEq

/-- An element of a value. -/
inductive ValuePart where
  | escapedString | interpolation | var | color | block | progid | fragment | atKeyword | operator
  | important
deriving DecidableEq

/-- What follows the `.` of a class, the `#` of an id or the colons of a pseudo-element. -/
inductive Name where
  | interpolation | ident
deriving DecidableEq

/-- What a selector starts with. -/
inductive SelectorLead where
  | compound | combinator
deriving DecidableEq

/-- Whether a compound selector starts with a type or a parent selector. -/
inductive CompoundLead where
  | typed | untyped
deriving DecidableEq

/-- Whether something stands before the bar of a namespace. -/
inductive NamespaceShape where
  | named | barOnly
deriving DecidableEq

/-- Whether an attribute selector compares with a value. -/
inductive AttributeShape where
  | compared | nameOnly
deriving DecidableEq

/-- What stands in the parentheses of a pseudo-class: a multiple of `n` with an offset, a multiple
alone, a number, selectors, a name, or no parentheses at all. -/
inductive PseudoShape where
  | formula | multiple | offset | selectors | ident | bare
deriving DecidableEq

/-- The selector of a keyframe. -/
inductive KeyframeShape where
  | keyword | percentage
deriving DecidableEq

/-- A stretch of a block: an item with its delimiter and the spacing behind it, an item alone, a
delimiter alone, or spacing. -/
inductive ChunkShape where
  | delimitedItem | item | delimiter | spacing
deriving DecidableEq

/-- A statement in a block. -/
inductive BlockItem where
  | condition | extend | ruleset | declaration | atRule | mixinCall
deriving DecidableEq

/-- The body of an at-rule: keyframes, rules only, a block, or none. -/
inductive AtRuleShape where
  | keyframes | rules | block | bare
deriving DecidableEq

/-- A statement in the body of an at-rule that holds rules only. -/
inductive NestedRule where
  | spacing | atRule | ruleset
deriving DecidableEq

/-- Whether a block follows. -/
inductive BlockShape where
  | withBlock | bare
deriving DecidableEq

/-- Whether a mixin call has an argument list. -/
inductive CallShape where
  | withArguments | bare
deriving DecidableEq

/-- What an extend is attached to. -/
inductive ExtendTarget where
  | parentSelector | ident | classSelector | idSelector
deriving DecidableEq

/-- An element of a guard. -/
inductive ConditionPart where
  | function | brackets | parentheses | var | ident | number | delimiter | operator | combinator
  | spacing | string
deriving DecidableEq

/-- A statement at the top of a stylesheet. -/
inductive SheetItem where
  | spacing | varDeclaration | atRule | extend | ruleset | mixin | declaration
  | declarationDelimiter
deriving DecidableEq

/-! ## Rules -/

/-- The productions whose answers are remembered. -/
inductive Rule where
  | spacing | ident | number | important | progid | var | interpolation | classSelector
  | idSelector | fragment | preludePart | arguments | argument | value | valuePart
  | selectorGroup | selector | compound | combinator | namespacePart | attributeSelector
  | pseudoClass | keyframeSelector | ruleset | declaration | blockChunk | blockItem | atRule
  | nestedRule | ruleBody | mixin | mixinCall | extend | extendTarget | condition
  | conditionPart | sheetItem
deriving DecidableEq

namespace Rule

/-- The alternatives of a rule; a rule with one form has only the trivial one. -/
@[reducible] def Shape : Rule → Type
  | classSelector | idSelector => Name
  | fragment => Fragment
  | preludePart => PreludePart
  | argument => Argument
  | valuePart => ValuePart
  | selector => SelectorLead
  | compound => CompoundLead
  | namespacePart => NamespaceShape
  | attributeSelector => AttributeShape
  | pseudoClass => PseudoShape
  | keyframeSelector => KeyframeShape
  | blockChunk => ChunkShape
  | blockItem => BlockItem
  | atRule => AtRuleShape
  | nestedRule => NestedRule
  | mixin | extend => BlockShape
  | mixinCall => CallShape
  | extendTarget => ExtendTarget
  | conditionPart => ConditionPart
  | sheetItem => SheetItem
  | spacing | ident | number | important | progid | var | interpolation | arguments | value
  | selectorGroup | combinator | ruleset | declaration | ruleBody | condition => Unit

/-- The order of rules at one token: a rule asks another one about the same token only if that one
has a lower rank. -/
def rank : Rule → Nat
  | spacing | ident | number | important | progid | var | interpolation | classSelector
  | idSelector | combinator | attributeSelector | pseudoClass | ruleBody => 0
  | fragment | arguments | namespacePart | extendTarget | keyframeSelector | conditionPart => 1
  | preludePart | valuePart | compound => 2
  | value | selector => 3
  | selectorGroup => 4
  | ruleset | declaration | atRule | extend | condition | mixin | mixinCall => 5
  | argument => 6
  | blockItem | nestedRule | sheetItem => 7
  | blockChunk => 8

/-- One more than the highest rank. -/
def ranks : Nat := 9

theorem rank_lt (r : Rule) : r.rank < ranks := by
  cases r <;> decide

end Rule

/-! ## Answers -/

/-- A rule covers at least one token, by one of its alternatives. -/
structure Match (σ : Type) where
  length : Nat
  shape : σ
  length_pos : 0 < length

/-- A match of length `n`, if `n` is not zero. -/
def Match.of? {σ : Type} (n : Nat) (shape : σ) : Option (Match σ) :=
  if h : 0 < n then some ⟨n, shape, h⟩ else none

/-- The match together with `n` tokens more. -/
def Match.lengthen {σ : Type} (m : Match σ) (n : Nat) : Match σ :=
  ⟨m.length + n, m.shape, Nat.lt_of_lt_of_le m.length_pos (Nat.le_add_right _ _)⟩

/-- A length together with `n` tokens more; what covers nothing stays that way. -/
def lengthen (length n : Nat) : Nat := if length = 0 then 0 else length + n

/-- What a rule says about a token: the match that starts there, if any. -/
abbrev Answer (r : Rule) : Type := Option (Match r.Shape)

/-- How many tokens are covered, zero if there is no match. -/
def Answer.length {r : Rule} (a : Answer r) : Nat :=
  match a with
  | some m => m.length
  | none => 0

/-- The alternative that matched. -/
def Answer.shape? {r : Rule} (a : Answer r) : Option r.Shape := a.map Match.shape

@[simp] theorem Answer.length_none {r : Rule} : Answer.length (none : Answer r) = 0 := rfl

@[simp] theorem Answer.length_some {r : Rule} (m : Match r.Shape) :
    Answer.length (some m : Answer r) = m.length := rfl

theorem Match.of?_zero {σ : Type} (s : σ) : Match.of? 0 s = none := rfl

theorem Match.of?_pos {σ : Type} {n : Nat} (h : 0 < n) (s : σ) :
    Match.of? n s = some ⟨n, s, h⟩ := by
  simp [Match.of?, h]

end LessCss
