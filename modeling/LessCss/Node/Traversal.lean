import LessCss.Node

/-! The nodes of a tree from top to bottom and left to right. `descendants` keeps the nodes still
to visit on a stack; `preorder` follows the tree. -/

namespace LessCss.Node

/-- Visits the nodes on a stack: the first is listed, and its children take its place. -/
def visit : List Node → List Node
  | [] => []
  | n :: stack => n :: visit (n.children ++ stack)
termination_by stack => sizeAll stack
decreasing_by
  simp only [sizeAll_append, sizeAll, size_eq n]
  omega

/-- A node and everything below it, each node before its children. -/
def descendants (n : Node) : List Node := visit [n]

mutual
/-- A node, then the listings of its children from left to right. -/
def preorder : Node → List Node
  | leaf k t s => [leaf k t s]
  | branch k cs s => branch k cs s :: preorderAll cs

/-- The listings of some nodes, one after the other. -/
def preorderAll : List Node → List Node
  | [] => []
  | n :: ns => n.preorder ++ preorderAll ns
end

end LessCss.Node
