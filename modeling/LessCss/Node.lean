import LessCss.Node.Kind
import LessCss.Position

/-! Syntax trees. A node is a leaf with text or a branch with children; it stores where it starts,
and where it stops follows from its content and from the marks of its kind, so a tree cannot
disagree with its own positions. -/

namespace LessCss

/-- A piece of the tree: its kind, its content and where it starts. -/
inductive Node where
  | leaf (kind : Node.Kind) (text : String) (start : Position)
  | branch (kind : Node.Kind) (children : List Node) (start : Position)

namespace Node

instance : Inhabited Node := ⟨.branch .stylesheet [] .origin⟩

/-- What the node stands for. -/
def kind : Node → Kind
  | leaf k _ _ => k
  | branch k _ _ => k

/-- Where the node starts. -/
def start : Node → Position
  | leaf _ _ s => s
  | branch _ _ s => s

/-- The text of a leaf. -/
def text? : Node → Option String
  | leaf _ t _ => some t
  | branch _ _ _ => none

/-- The children in source order; a leaf has none. -/
def children : Node → List Node
  | leaf _ _ _ => []
  | branch _ cs _ => cs

/-- Whether the node has text rather than children. -/
def isLeaf : Node → Bool
  | leaf _ _ _ => true
  | branch _ _ _ => false

/-! ## Where a node stops -/

/-- Where text stops that starts after the opening mark and is followed by the closing one. -/
def leafStop (d : Delimiters) (start : Position) (text : String) : Position :=
  ((start.shift d.opening).advance text).shift d.closing

mutual
/-- Where the node stops: a leaf behind its text and marks, a branch behind its last child and its
closing mark. -/
def stop : Node → Position
  | leaf k t s => leafStop k.delimiters s t
  | branch k cs s => (lastStop (s.shift k.delimiters.opening) cs).shift k.delimiters.closing

/-- Where the last of some nodes stops, or `p` if there are none. -/
def lastStop (p : Position) : List Node → Position
  | [] => p
  | [n] => n.stop
  | _ :: n :: ns => lastStop p (n :: ns)
end

/-- Where children stop that start after the opening mark and are followed by the closing one. -/
def branchStop (d : Delimiters) (start : Position) (children : List Node) : Position :=
  (lastStop (start.shift d.opening) children).shift d.closing

theorem stop_leaf (k : Kind) (t : String) (s : Position) :
    (leaf k t s).stop = leafStop k.delimiters s t := by
  rw [stop]

theorem stop_branch (k : Kind) (cs : List Node) (s : Position) :
    (branch k cs s).stop = branchStop k.delimiters s cs := by
  rw [stop, branchStop]

theorem lastStop_eq (p : Position) (ns : List Node) :
    lastStop p ns = (ns.getLast?.map stop).getD p := by
  induction ns with
  | nil => rw [lastStop]; rfl
  | cons n ns ih =>
    cases ns with
    | nil => rw [lastStop]; rfl
    | cons m ms => rw [lastStop, ih, List.getLast?_cons_cons]

/-! ## Size and equality -/

mutual
/-- The number of nodes in a tree. -/
def size : Node → Nat
  | leaf _ _ _ => 1
  | branch _ cs _ => sizeAll cs + 1

/-- The number of nodes in some trees. -/
def sizeAll : List Node → Nat
  | [] => 0
  | n :: ns => n.size + sizeAll ns
end

@[simp] theorem sizeAll_append (ms ns : List Node) :
    sizeAll (ms ++ ns) = sizeAll ms + sizeAll ns := by
  induction ms with
  | nil => simp [sizeAll]
  | cons m ms ih => simp [sizeAll, ih, Nat.add_assoc]

theorem size_eq (n : Node) : n.size = sizeAll n.children + 1 := by
  cases n <;> simp [size, children, sizeAll]

mutual
/-- Trees are compared node by node. -/
def decEq : (m n : Node) → Decidable (m = n)
  | leaf k t s, leaf k' t' s' =>
    if h : k = k' ∧ t = t' ∧ s = s' then isTrue (by simp [h]) else isFalse (by simpa using h)
  | leaf .., branch .. => isFalse (by simp)
  | branch .., leaf .. => isFalse (by simp)
  | branch k cs s, branch k' cs' s' =>
    if h : k = k' ∧ s = s' then
      match decEqAll cs cs' with
      | isTrue hc => isTrue (by simp [h, hc])
      | isFalse hc => isFalse (by simp [hc])
    else isFalse (by
      intro e
      simp only [branch.injEq] at e
      exact h ⟨e.1, e.2.2⟩)

/-- Lists of trees are compared element by element. -/
def decEqAll : (ms ns : List Node) → Decidable (ms = ns)
  | [], [] => isTrue rfl
  | [], _ :: _ => isFalse (by simp)
  | _ :: _, [] => isFalse (by simp)
  | m :: ms, n :: ns =>
    match decEq m n, decEqAll ms ns with
    | isTrue h, isTrue hs => isTrue (by simp [h, hs])
    | isFalse h, _ => isFalse (by simp [h])
    | _, isFalse hs => isFalse (by simp [hs])
end

instance : DecidableEq Node := decEq

end Node

end LessCss
