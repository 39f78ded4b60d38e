import LessCss.Node

/-! The source text of a tree. The content of a node leaves out the fixed marks of its kind;
writing them back around the content gives the text the node was read from. -/

namespace LessCss.Node

/-- The marks that stand before and after a kind's content in the source. -/
def Kind.marks : Kind → String × String
  | .block => ("\x7b", "\x7d")
  | .parentheses | .arguments => ("(", ")")
  | .brackets | .attributeSelector => ("[", "]")
  | .percentage => ("", "%")
  | .varList => ("", "...")
  | .interpolation => ("@\x7b", "\x7d")
  | .uri => ("url(", ")")
  | .expression => ("expression(", ")")
  | .blockComment => ("/*", "*/")
  | .lineComment => ("//", "")
  | .escapedString => ("~", "")
  | .color | .idSelector => ("#", "")
  | .classSelector => (".", "")
  | .var | .atKeyword => ("@", "")
  | .pseudoClass => (":", "")
  | .pseudoElement => ("::", "")
  | _ => ("", "")

mutual
/-- The source text of a node. -/
def reprint : Node → String
  | leaf k t _ => k.marks.1 ++ t ++ k.marks.2
  | branch k cs _ => k.marks.1 ++ reprintAll cs ++ k.marks.2

/-- The source text of nodes that follow each other. -/
def reprintAll : List Node → String
  | [] => ""
  | n :: ns => n.reprint ++ reprintAll ns
end

@[simp] theorem reprintAll_append (ms ns : List Node) :
    reprintAll (ms ++ ns) = reprintAll ms ++ reprintAll ns := by
  induction ms with
  | nil => simp [reprintAll]
  | cons m ms ih => simp [reprintAll, ih, String.append_assoc]

/-- The closing mark that a position skips has the width of the closing mark that is written. -/
theorem Kind.closing_eq (k : Kind) : k.delimiters.closing = k.marks.2.length := by
  cases k <;> rfl

end LessCss.Node
