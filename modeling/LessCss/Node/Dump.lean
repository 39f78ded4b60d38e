import LessCss.Node
import LessCss.Text.Quoted

/-! The listing of a tree as text: one line for each node, indented by two blanks for each level,
with the kind, the text of a leaf in quotes, and the stretch from start to stop. How a text is put
in quotes is a parameter of the listing. -/

namespace LessCss

namespace Node

/-- Two blanks for each level. -/
def indent (depth : Nat) : String := String.ofList (List.replicate (2 * depth) ' ')

section
variable (quote : String → String)

/-- A node's own line, without indent and line break. -/
def headline : Node → String
  | leaf k t s => k.name ++ " " ++ quote t ++ " " ++ s.renderSpan (leaf k t s).stop
  | branch k cs s => k.name ++ " " ++ s.renderSpan (branch k cs s).stop

/-- A node's line at a level, without the line break. -/
def line (depth : Nat) (n : Node) : String := indent depth ++ n.headline quote

mutual
/-- The lines of a tree whose root stands at a level. -/
def dumpAt (depth : Nat) : Node → String
  | leaf k t s => line quote depth (leaf k t s) ++ "\n"
  | branch k cs s => line quote depth (branch k cs s) ++ "\n" ++ dumpAll (depth + 1) cs

/-- The lines of some trees at one level. -/
def dumpAll (depth : Nat) : List Node → String
  | [] => ""
  | n :: ns => dumpAt depth n ++ dumpAll depth ns
end

/-- The listing of a tree, texts put in quotes by `quote`. -/
def dumpWith (n : Node) : String := dumpAt quote 0 n

end

/-- The listing of a tree, with numbers for control characters in texts. -/
def dump (n : Node) : String := n.dumpWith Text.quote

end Node

end LessCss
