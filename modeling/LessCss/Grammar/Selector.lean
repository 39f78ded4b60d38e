import LessCss.Grammar.Declaration

/-! Selectors: lists of them, the compounds and combinators of which one is made, and the parts of
a compound. -/

namespace LessCss.Grammar

open Lookahead Builder

variable (ts : Tokens)

/-! ## Type selectors and namespaces -/

/-- What stands before a name: a namespace and a bar, or a bar alone. A block comment may stand
before the bar. -/
def namespaceMatch (i : Nat) : Lookahead (Option (Match NamespaceShape)) := do
  let name ← lengthOf .ident i <|> tokenLength ts [.asterisk] i
  let j := i + name + (ts.is (i + name) .blockComment).toNat
  if 0 < name && ts.is j .bar then return Match.of? (← tokensBetween i (j + 1)) .named
  else if ts.is i .bar then return Match.of? 1 .barOnly
  else return none

/-- The namespace before a bar, and the comment between them. -/
def namespaceNodes : Builder (List Node) := do
  let name ← branch ts .namespaceName <|
    single (choose (starts .ident) (identNode ts) (leaf ts .ident 1))
  let comment ← given (ts.is (← cursor) .blockComment) (single (blockCommentNode ts))
  return name :: comment

/-- A namespace with its bar. -/
def namespacePartNode : Builder Node :=
  branch ts .namespacePart do
    let lead ← given ((← ask .namespacePart).shape? == some .named) (namespaceNodes ts)
    return lead ++ [← leaf ts .namespaceSeparator 1]

/-- A name or `*`, with a namespace before it or without. -/
def typeSelectorLength (i : Nat) : Lookahead Nat := do
  let n ← lengthOf .namespacePart i
  if ts.is (i + n) .asterisk then return n + 1
  else return lengthen (← lengthOf .ident (i + n)) n

/-- An asterisk alone, or a name. -/
def starOrIdentNode : Builder Node := do
  if ts.is (← cursor) .asterisk then leaf ts .ident 1 else identNode ts

/-- A type selector: a namespace, if there is one, and a name. -/
def typeSelectorNode : Builder Node :=
  branch ts .typeSelector do
    let space ← optionally (starts .namespacePart) (single (namespacePartNode ts))
    return space ++ [← starOrIdentNode ts]

/-! ## The parent selector -/

/-- Numbers and names glued to `&`. -/
def parentSuffixLength (i : Nat) : Lookahead Nat := do
  let stop ← walkWhile ts.size (fun j => lengthOf .number j <|> lengthOf .ident j) i
  tokensBetween i stop

/-- The numbers and names glued to a parent selector. -/
def parentSuffixNode : Builder Node :=
  branch ts .parentSuffix do
    collect ts.size do
      if ← starts .number then return ⟨[← numberNode ts], true⟩
      else if ← starts .ident then return ⟨[← identNode ts], true⟩
      else return ⟨[], false⟩

/-- The parent selector with what is glued to it. -/
def parentLength (i : Nat) : Lookahead Nat := do
  if ts.is i .ampersand then return 1 + (← parentSuffixLength ts (i + 1)) else return 0

/-- The parent selector, and what is glued to it. -/
def parentNodes : Builder (List Node) := do
  let parent ← parentSelectorNode ts
  let suffix ← optionally (sees (parentSuffixLength ts)) (single (parentSuffixNode ts))
  return parent :: suffix

/-! ## Attribute selectors -/

/-- The name of an attribute. A namespace counts only if a name follows it, so in `[lang|=en]` the
bar belongs to the comparison. -/
def attributeNameLength (i : Nat) : Lookahead Nat := do
  match ← lengthOf .namespacePart i with
  | 0 => lengthOf .ident i
  | n =>
    match ← lengthOf .ident (i + n) with
    | 0 => lengthOf .ident i
    | m => return n + m

/-- The name of an attribute, with its namespace. -/
def attributeNameNode : Builder Node :=
  branch ts .attributeName do
    let n ← look (lengthOf .namespacePart)
    let named ← sees fun i => lengthOf .ident (i + n)
    let space ← given (0 < n && named) (single (namespacePartNode ts))
    return space ++ [← identNode ts]

/-- An equals sign, or one of `~ | ^ $ *` and an equals sign. -/
def comparatorLength (i : Nat) : Nat :=
  if ts.isAny i [.tilde, .bar, .caret, .dollar, .asterisk] && ts.is (i + 1) .equals then 2
  else (ts.is i .equals).toNat

/-- The comparator as it stands. -/
def comparatorNode : Builder Node := do
  leaf ts .attributeMatch (comparatorLength ts (← cursor))

/-- A string or a name. -/
def attributeValueLength (i : Nat) : Lookahead Nat := stringLength ts i <|> lengthOf .ident i

/-- The value that an attribute is compared with. -/
def attributeValueNode : Builder Node :=
  branch ts .attributeValue <|
    single (choose (sees (stringLength ts)) (stringNode ts) (identNode ts))

/-- The spacing behind flags that cover `n` tokens from token `j` on; without flags there is none
left. -/
def flagSpacing (j n : Nat) : Lookahead Nat := if n = 0 then return 0 else lengthOf .spacing (j + n)

/-- A name in square brackets, alone or compared with a value; flags may follow the value. -/
def attributeSelectorMatch (i : Nat) : Lookahead (Option (Match AttributeShape)) := do
  if !ts.is i .leftSquare then return none
  let j := i + 1 + (← lengthOf .spacing (i + 1))
  let name ← attributeNameLength j
  if name = 0 then return none
  let j := j + name
  let j := j + (← lengthOf .spacing j)
  if ts.is j .rightSquare then return Match.of? (← tokensBetween i (j + 1)) .nameOnly
  let comparator := comparatorLength ts j
  if comparator = 0 then return none
  let j := j + comparator
  let j := j + (← lengthOf .spacing j)
  let value ← attributeValueLength ts j
  if value = 0 then return none
  let j := j + value
  let j := j + (← lengthOf .spacing j)
  let flags ← lengthOf .ident j
  let j := j + flags + (← flagSpacing j flags)
  if ts.is j .rightSquare then return Match.of? (← tokensBetween i (j + 1)) .compared
  return none

/-- Flags and the spacing behind them. -/
def attributeFlagsNodes : Builder (List Node) := do
  let flags ← branch ts .attributeFlags (single (identNode ts))
  return flags :: (← spacingNodes ts)

/-- The comparator of an attribute selector, the value it compares with and the flags. -/
def comparisonNodes : Builder (List Node) := do
  let comparator ← comparatorNode ts
  let before ← spacingNodes ts
  let value ← attributeValueNode ts
  let after ← spacingNodes ts
  let flags ← optionally (starts .ident) (attributeFlagsNodes ts)
  return comparator :: before ++ value :: after ++ flags

/-- An attribute selector, without its brackets. -/
def attributeSelectorNode : Builder Node :=
  branch ts .attributeSelector do
    let shape := (← ask .attributeSelector).shape?
    skip 1
    let before ← spacingNodes ts
    let name ← attributeNameNode ts
    let after ← spacingNodes ts
    let rest ← given (shape == some .compared) (comparisonNodes ts)
    skip 1
    return before ++ name :: after ++ rest

/-! ## Pseudo-elements and pseudo-classes -/

/-- A name behind two colons. -/
def pseudoElementLength (i : Nat) : Lookahead Nat := do
  if ts.is i .colon && ts.is (i + 1) .colon then
    return match ← nameMatch (i + 2) with
      | some m => m.length + 2
      | none => 0
  else return 0

/-- A pseudo-element, without its colons. -/
def pseudoElementNode : Builder Node :=
  branch ts .pseudoElement do
    skip 2
    single (anyNameNode ts)

/-- The parenthesis group at `opener`, if it closes at token `j`. -/
def closedAt (opener j : Nat) : Lookahead Nat :=
  match ts.closer? opener .leftParen with
  | some close => if close = j then tokensBetween opener (close + 1) else return 0
  | none => return 0

/-- Spacing, a sign, digits and `n`, of which only the `n` must be there; gives the token behind
it. -/
def nthMultiplier (i : Nat) : Lookahead (Option Nat) := do
  let j := i + (← lengthOf .spacing i)
  let j := j + (ts.isAny j [.minus, .plus]).toNat
  let j := j + (ts.is j .digits).toNat
  return if ts.text j == "n" then some (j + 1) else none

/-- A multiple of `n` and an offset, in parentheses. -/
def nthFormulaLength (opener : Nat) : Lookahead Nat := do
  match ← nthMultiplier ts (opener + 1) with
  | none => return 0
  | some j =>
    let j := j + (← lengthOf .spacing j)
    if !ts.isAny j [.plus, .minus] then return 0
    let j := j + 1 + (← lengthOf .spacing (j + 1))
    if !ts.is j .digits then return 0
    let j := j + 1 + (← lengthOf .spacing (j + 1))
    closedAt ts opener j

/-- A multiple of `n`, in parentheses. -/
def nthMultipleLength (opener : Nat) : Lookahead Nat := do
  match ← nthMultiplier ts (opener + 1) with
  | none => return 0
  | some j => closedAt ts opener (j + (← lengthOf .spacing j))

/-- A number with a sign or without, in parentheses. -/
def nthOffsetLength (opener : Nat) : Lookahead Nat := do
  let j := opener + 1 + (← lengthOf .spacing (opener + 1))
  let j := j + (ts.isAny j [.minus, .plus]).toNat
  if ts.is j .digits then closedAt ts opener (j + 1 + (← lengthOf .spacing (j + 1))) else return 0

/-- Selectors in parentheses, read one level further inside. -/
def pseudoSelectorsLength (opener : Nat) : Lookahead Nat := do
  match ← lengthInside .selectorGroup (opener + 1) with
  | 0 => return 0
  | n => closedAt ts opener (opener + 1 + n)

/-- A name in parentheses. -/
def pseudoIdentLength (opener : Nat) : Lookahead Nat := do
  let j := opener + 1 + (← lengthOf .spacing (opener + 1))
  match ← lengthOf .ident j with
  | 0 => return 0
  | n => closedAt ts opener (j + n + (← lengthOf .spacing (j + n)))

/-- The forms of arguments, in the order in which they are tried. -/
def pseudoForms : List (PseudoShape × (Nat → Lookahead Nat)) :=
  [(.formula, nthFormulaLength ts), (.multiple, nthMultipleLength ts),
   (.offset, nthOffsetLength ts), (.selectors, pseudoSelectorsLength ts),
   (.ident, pseudoIdentLength ts)]

/-- The first of some forms that covers the parentheses from `opener` to `close`. -/
def pseudoForm (opener close : Nat) :
    List (PseudoShape × (Nat → Lookahead Nat)) → Lookahead (Option PseudoShape)
  | [] => return none
  | (shape, scan) :: rest => do
    if (← scan opener) = (← tokensBetween opener (close + 1)) then return some shape
    else pseudoForm opener close rest

/-- A name behind a colon, without arguments. -/
def pseudoBareMatch (i : Nat) : Lookahead (Option (Match PseudoShape)) := do
  return (← nameMatch (i + 1)).bind fun m => Match.of? (m.length + 1) .bare

/-- A name behind a colon, and the parentheses behind it if one of the forms of arguments covers
them. -/
def pseudoClassMatch (i : Nat) : Lookahead (Option (Match PseudoShape)) := do
  if !ts.is i .colon then return none
  let name ← lengthOf .ident (i + 1)
  let opener := i + 1 + name
  match if 0 < name then ts.closer? opener .leftParen else none with
  | none => pseudoBareMatch i
  | some close =>
    match ← pseudoForm opener close (pseudoForms ts) with
    | some shape => return Match.of? (← tokensBetween i (close + 1)) shape
    | none => pseudoBareMatch i

/-- Signs, digits and the `n` of a formula, up to token `close`. -/
def nthNodes (close : Nat) : Builder (List Node) :=
  collectTo close do
    let i ← cursor
    if ← starts .spacing then spacingNodes ts
    else if ts.isAny i [.plus, .minus] then single (unaryNode ts)
    else if ts.is i .digits then single (leaf ts .number 1)
    else single (leaf ts .ident 1)

/-- A name with spacing around it. -/
def spacedIdentNodes : Builder (List Node) := do
  return (← spacingNodes ts) ++ [← identNode ts] ++ (← spacingNodes ts)

/-- What stands in the parentheses of a pseudo-class that close at token `close`, in the form that
looking ahead found. -/
def pseudoArgumentNodes (shape : PseudoShape) (close : Nat) : Builder (List Node) :=
  match shape with
  | .selectors => enter .selectors
  | .ident => spacedIdentNodes ts
  | _ => nthNodes ts close

/-- The arguments of a pseudo-class. -/
def pseudoArgumentsNode (shape : PseudoShape) : Builder Node :=
  branch ts .arguments do
    let i ← cursor
    skip 1
    let content ← pseudoArgumentNodes ts shape ((ts.closer? i .leftParen).getD i)
    skip 1
    return content

/-- A pseudo-class, without its colon: its name, and its arguments if it has any. -/
def pseudoClassNode : Builder Node :=
  branch ts .pseudoClass do
    let found ← ask .pseudoClass
    check (0 < found.length)
    let shape := found.shape?.getD .bare
    skip 1
    if shape = .bare then single (anyNameNode ts)
    else return [← identNode ts, ← pseudoArgumentsNode ts shape]

/-- A pseudo-element or a pseudo-class. -/
def pseudoLength (i : Nat) : Lookahead Nat := pseudoElementLength ts i <|> lengthOf .pseudoClass i

/-- A pseudo-element if one starts here, else a pseudo-class. -/
def pseudoNode : Builder Node :=
  choose (sees (pseudoElementLength ts)) (pseudoElementNode ts) (pseudoClassNode ts)

/-! ## Compounds -/

/-- An id, a class, an attribute selector or a pseudo. -/
def compoundPartLength (i : Nat) : Lookahead Nat :=
  lengthOf .idSelector i <|> lengthOf .classSelector i <|> lengthOf .attributeSelector i <|>
    pseudoLength ts i

/-- A type selector or a parent selector, then any number of parts; at least one of the two. -/
def compoundMatch (i : Nat) : Lookahead (Option (Match CompoundLead)) := do
  let lead ← typeSelectorLength ts i <|> parentLength ts i
  let stop ← walkWhile ts.size (compoundPartLength ts) (i + lead)
  return Match.of? (← tokensBetween i stop) (if lead = 0 then .untyped else .typed)

/-- A type selector or a parent selector. -/
def compoundLeadNodes : Builder (List Node) :=
  choose (sees (typeSelectorLength ts)) (single (typeSelectorNode ts)) (parentNodes ts)

/-- A compound: what it starts with, and its parts. -/
def compoundNode : Builder Node :=
  branch ts .compoundSelector do
    let found ← ask .compound
    check (0 < found.length)
    let stop := (← cursor) + found.length
    let lead ← given (found.shape? == some .typed) (compoundLeadNodes ts)
    let parts ← collect ts.size do
      if ← starts .idSelector then return ⟨[← idNode ts], true⟩
      else if ← starts .classSelector then return ⟨[← classNode ts], true⟩
      else if ← starts .attributeSelector then return ⟨[← attributeSelectorNode ts], true⟩
      else if ← sees (pseudoLength ts) then return ⟨[← pseudoNode ts], true⟩
      else return ⟨[], false⟩
    check ((← cursor) = stop)
    return lead ++ parts

/-! ## Combinators and whole selectors -/

/-- One of `>`, `+` and `~`, two bars, or a name between slashes. -/
def combinatorLength (i : Nat) : Lookahead Nat := do
  if ts.is i .bar && ts.is (i + 1) .bar then return 2
  else if ts.isAny i [.plus, .greater, .tilde] then return 1
  else if ts.is i .slash then
    let n ← lengthOf .ident (i + 1)
    return if 0 < n && ts.is (i + 1 + n) .slash then n + 2 else 0
  else return 0

/-- A combinator as it stands. -/
def combinatorNode : Builder Node := leafOf ts .combinator (lengthOf .combinator)

/-- What can follow a compound: a combinator or spacing or both, and a compound. A combinator counts
without a compound behind it, spacing does not. -/
def afterCompound (j : Nat) : Lookahead Step := do
  let spacing ← lengthOf .spacing j
  let combinator ← lengthOf .combinator (j + spacing)
  if combinator = 0 then
    if spacing = 0 then return .last 0
    else return .go (lengthen (← lengthOf .compound (j + spacing)) spacing)
  else
    let lead := spacing + combinator
    let gap ← lengthOf .spacing (j + lead)
    match ← lengthOf .compound (j + lead + gap) with
    | 0 => return .last lead
    | n => return .go (lead + gap + n)

/-- What can follow a combinator: a compound, and a combinator behind that. -/
def afterCombinator (j : Nat) : Lookahead Step := do
  let before ← lengthOf .spacing j
  match ← lengthOf .compound (j + before) with
  | 0 => return .last 0
  | n =>
    let lead := before + n
    let after ← lengthOf .spacing (j + lead)
    match ← lengthOf .combinator (j + lead + after) with
    | 0 => return .last lead
    | m => return .go (lead + after + m)

/-- Compounds with combinators or spacing between them; a combinator may come first or last. -/
def selectorMatch (i : Nat) : Lookahead (Option (Match SelectorLead)) := do
  match ← lengthOf .compound i with
  | 0 =>
    match ← lengthOf .combinator i with
    | 0 => return none
    | n =>
      let stop ← walk ts.size afterCombinator (i + n)
      return Match.of? (← tokensBetween i stop) .combinator
  | n =>
    let stop ← walk ts.size afterCompound (i + n)
    return Match.of? (← tokensBetween i stop) .compound

/-- A selector: its compounds and combinators, with the spacing between them. -/
def selectorNode : Builder Node :=
  branch ts .selector do
    let stop := (← cursor) + (← look (lengthOf .selector))
    collectTo stop do
      if ← starts .spacing then spacingNodes ts
      else if ← starts .combinator then single (combinatorNode ts)
      else single (compoundNode ts)

/-- One more element of a list whose elements `r` stand between commas. -/
def afterComma (r : Rule) (j : Nat) : Lookahead Nat := do
  let before ← lengthOf .spacing j
  if ts.is (j + before) .comma then
    let after ← lengthOf .spacing (j + before + 1)
    return lengthen (← lengthOf r (j + before + 1 + after)) (before + 1 + after)
  else return 0

/-- Elements `r` between commas, with optional spacing around them. -/
def commaListLength (r : Rule) (i : Nat) : Lookahead Nat := do
  match ← lengthOf r i with
  | 0 => return 0
  | n => tokensBetween i (← walkWhile ts.size (afterComma ts r) (i + n))

/-- The elements of a list that ends at token `stop`, with their commas and spacing. -/
def commaListNodes (stop : Nat) (element : Builder Node) : Builder (List Node) := do
  let first ← element
  let rest ← collectTo stop do
    return (← spacingNodes ts) ++ [← delimiterNode ts] ++ (← spacingNodes ts) ++ [← element]
  return first :: rest

/-- Selectors between commas. -/
def selectorGroupNodes : Builder (List Node) := do
  let stop := (← cursor) + (← look (lengthOf .selectorGroup))
  let nodes ← commaListNodes ts stop (selectorNode ts)
  check ((← cursor) = stop)
  return nodes

end LessCss.Grammar
