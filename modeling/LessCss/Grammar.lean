import LessCss.Grammar.Stylesheet
import LessCss.Symbol

/-! The grammar as tables: what each rule asks, what is built inside each construct, and how each
start symbol is measured and built. -/

namespace LessCss

open Grammar Lookahead

/-- How a rule is answered at token `i`. -/
def Rule.body (ts : Tokens) : (r : Rule) → Nat → Lookahead (Answer r)
  | .spacing, i => sole (spacingLength ts i)
  | .ident, i => sole (identLength ts i)
  | .number, i => sole (numberLength ts i)
  | .important, i => sole (importantLength ts i)
  | .progid, i => sole (progidLength ts i)
  | .var, i => sole (varLength ts i)
  | .interpolation, i => sole (interpolationLength ts i)
  | .classSelector, i => markedNameMatch ts .dot i
  | .idSelector, i => markedNameMatch ts .hash i
  | .fragment, i => fragmentMatch ts i
  | .preludePart, i => preludePartMatch ts i
  | .arguments, i => sole (argumentsLength ts i)
  | .argument, i => argumentMatch ts i
  | .value, i => sole (valueLength ts i)
  | .valuePart, i => valuePartMatch ts i
  | .selectorGroup, i => sole (commaListLength ts .selector i)
  | .selector, i => selectorMatch ts i
  | .compound, i => compoundMatch ts i
  | .combinator, i => sole (combinatorLength ts i)
  | .namespacePart, i => namespaceMatch ts i
  | .attributeSelector, i => attributeSelectorMatch ts i
  | .pseudoClass, i => pseudoClassMatch ts i
  | .keyframeSelector, i => keyframeSelectorMatch ts i
  | .ruleset, i => sole (rulesetLength ts i)
  | .declaration, i => sole (declarationLength ts i)
  | .blockChunk, i => blockChunkMatch ts i
  | .blockItem, i => blockItemMatch i
  | .atRule, i => atRuleMatch ts i
  | .nestedRule, i => nestedRuleMatch i
  | .ruleBody, i => sole (ruleBodyLength ts i)
  | .mixin, i => mixinMatch ts i
  | .mixinCall, i => mixinCallMatch ts i
  | .extend, i => extendMatch ts i
  | .extendTarget, i => extendTargetMatch ts i
  | .condition, i => sole (conditionLength ts i)
  | .conditionPart, i => conditionPartMatch ts i
  | .sheetItem, i => sheetItemMatch ts i

/-- What is built inside a construct. -/
def Interior.content (ts : Tokens) : Interior → Builder (List Node)
  | .group => preludeNodes ts
  | .arguments close => argumentsInterior ts close
  | .block close => blockInterior ts close
  | .rules close => rulesInterior ts close
  | .keyframes close => keyframesInterior ts close
  | .selectors => selectorGroupNodes ts
  | .var => Builder.single (varNode ts)

/-- How many tokens a start symbol covers from token `i`. -/
def Symbol.length (ts : Tokens) : Symbol → Nat → Lookahead Nat
  | .arguments => lengthOf .arguments
  | .atKeyword => atKeywordLength ts
  | .atRule => lengthOf .atRule
  | .attributeSelector => lengthOf .attributeSelector
  | .block => blockLength ts
  | .brackets => bracketsLength ts
  | .classSelector => lengthOf .classSelector
  | .color => colorLength ts
  | .combinator => lengthOf .combinator
  | .compoundSelector => lengthOf .compound
  | .condition => lengthOf .condition
  | .declaration => lengthOf .declaration
  | .declarationDelimiter => declarationDelimiterLength ts
  | .delimiter => delimiterLength ts
  | .dimension => dimensionLength ts
  | .escapedString => escapedStringLength ts
  | .expression => expressionLength ts
  | .extend => lengthOf .extend
  | .function => functionLength ts
  | .idSelector => lengthOf .idSelector
  | .ident => lengthOf .ident
  | .important => lengthOf .important
  | .mixinCall => lengthOf .mixinCall
  | .interpolation => lengthOf .interpolation
  | .mixin => lengthOf .mixin
  | .blockComment => tokenLength ts [.blockComment]
  | .namespaceBar => namespaceBarLength ts
  | .number => lengthOf .number
  | .operator => operatorLength ts
  | .parentheses => parenthesesLength ts
  | .parentSelector => parentSelectorLength ts
  | .percentage => percentageLength ts
  | .progid => lengthOf .progid
  | .property => propertyLength
  | .propertyDelimiter => propertyDelimiterLength ts
  | .pseudoClass => lengthOf .pseudoClass
  | .pseudoElement => pseudoElementLength ts
  | .ruleset => lengthOf .ruleset
  | .selector => lengthOf .selector
  | .lineComment => tokenLength ts [.lineComment]
  | .space => spaceLength ts
  | .string => stringLength ts
  | .stylesheet => stylesheetLength ts
  | .typeSelector => typeSelectorLength ts
  | .unary => unaryLength ts
  | .uri => uriLength ts
  | .value => lengthOf .value
  | .var => lengthOf .var
  | .varList => varListLength ts

/-- How the node of a start symbol is built. -/
def Symbol.build (ts : Tokens) : Symbol → Builder Node
  | .arguments => argumentsNode ts
  | .atKeyword => atKeywordNode ts
  | .atRule => atRuleNode ts
  | .attributeSelector => attributeSelectorNode ts
  | .block => blockNode ts
  | .brackets => bracketsNode ts
  | .classSelector => classNode ts
  | .color => colorNode ts
  | .combinator => combinatorNode ts
  | .compoundSelector => compoundNode ts
  | .condition => conditionNode ts
  | .declaration => declarationNode ts
  | .declarationDelimiter => declarationDelimiterNode ts
  | .delimiter => delimiterNode ts
  | .dimension => dimensionNode ts
  | .escapedString => escapedStringNode ts
  | .expression => expressionNode ts
  | .extend => extendNode ts
  | .function => functionNode ts
  | .idSelector => idNode ts
  | .ident => identNode ts
  | .important => importantNode ts
  | .mixinCall => mixinCallNode ts
  | .interpolation => interpolationNode ts
  | .mixin => mixinNode ts
  | .blockComment => blockCommentNode ts
  | .namespaceBar => namespaceBarNode ts
  | .number => numberNode ts
  | .operator => operatorNode ts
  | .parentheses => parenthesesNode ts
  | .parentSelector => parentSelectorNode ts
  | .percentage => percentageNode ts
  | .progid => progidNode ts
  | .property => propertyNode ts
  | .propertyDelimiter => propertyDelimiterNode ts
  | .pseudoClass => pseudoClassNode ts
  | .pseudoElement => pseudoElementNode ts
  | .ruleset => rulesetNode ts
  | .selector => selectorNode ts
  | .lineComment => lineCommentNode ts
  | .space => spaceNode ts
  | .string => stringNode ts
  | .stylesheet => stylesheetNode ts
  | .typeSelector => typeSelectorNode ts
  | .unary => unaryNode ts
  | .uri => uriNode ts
  | .value => valueNode ts
  | .var => varNode ts
  | .varList => varListNode ts

end LessCss
