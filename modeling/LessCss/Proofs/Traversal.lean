import LessCss.Node.Traversal
import LessCss.Proofs.Listing

/-! The nodes of a tree and their places. A place is the way down from the root, one child index
after the other; in lexicographic order the places lead through the tree from top to bottom and
left to right. The walk with a stack, the recursive listing of nodes and the lines of the dump all
follow that order, and a line is indented by the length of its place. -/

namespace LessCss.Node

/-! ## The walk with a stack -/

theorem preorder_eq (n : Node) : n.preorder = n :: preorderAll n.children := by
  cases n <;> simp [preorder, preorderAll, children]

theorem preorderAll_append (ms ns : List Node) :
    preorderAll (ms ++ ns) = preorderAll ms ++ preorderAll ns := by
  induction ms with
  | nil => simp [preorderAll]
  | cons m ms ih => simp [preorderAll, ih]

/-- The nodes on the stack are listed one after the other, each with all that is below it. -/
theorem visit_eq_preorderAll (stack : List Node) : visit stack = preorderAll stack := by
  fun_induction visit stack with
  | case1 => rw [preorderAll]
  | case2 n stack ih =>
    rw [ih, preorderAll_append, preorderAll, preorder_eq, List.cons_append]

theorem descendants_eq_preorder (n : Node) : n.descendants = n.preorder := by
  rw [descendants, visit_eq_preorderAll, preorderAll, preorderAll, List.append_nil]

/-! ## Places -/

/-- The node at a place below a node. -/
def at? : Node → List Nat → Option Node
  | n, [] => some n
  | n, i :: p => n.children[i]?.bind (·.at? p)

mutual
/-- A node and all below it, each with its place. -/
def located : Node → List (List Nat × Node)
  | leaf k t s => [([], leaf k t s)]
  | branch k cs s => ([], branch k cs s) :: locatedAll 0 cs

/-- The children from number `i` on and all below them, each with its place below the parent. -/
def locatedAll (i : Nat) : List Node → List (List Nat × Node)
  | [] => []
  | n :: ns => n.located.map (fun x => (i :: x.1, x.2)) ++ locatedAll (i + 1) ns
end

mutual
theorem located_nodes : ∀ n : Node, n.located.map Prod.snd = n.preorder
  | leaf k t s => by simp [located, preorder]
  | branch k cs s => by
    rw [located, preorder, List.map_cons, locatedAll_nodes 0 cs]

theorem locatedAll_nodes : ∀ (i : Nat) (ns : List Node),
    (locatedAll i ns).map Prod.snd = preorderAll ns
  | _, [] => by simp [locatedAll, preorderAll]
  | i, n :: ns => by
    rw [locatedAll, preorderAll, List.map_append, List.map_map, locatedAll_nodes (i + 1) ns,
      ← located_nodes n]
    rfl
end

mutual
/-- The places listed are those at which there is a node, each with that node. -/
theorem mem_located : ∀ (n : Node) {p : List Nat} {m : Node},
    (p, m) ∈ n.located ↔ n.at? p = some m
  | leaf k t s, p, m => by cases p <;> simp [located, at?, children, eq_comm]
  | branch k cs s, [], m => by
    have hno : ([], m) ∉ locatedAll 0 cs := fun h => by
      obtain ⟨j, q, he, -⟩ := (mem_locatedAll 0 cs).1 h
      cases he
    simp [located, at?, hno, eq_comm]
  | branch k cs s, i :: p, m => by
    rw [located, List.mem_cons, at?, children, mem_locatedAll 0 cs]
    simp

theorem mem_locatedAll : ∀ (i : Nat) (ns : List Node) {p : List Nat} {m : Node},
    (p, m) ∈ locatedAll i ns ↔ ∃ j q, p = (i + j) :: q ∧ ns[j]?.bind (·.at? q) = some m
  | _, [], _, _ => by simp [locatedAll]
  | i, n :: ns, p, m => by
    have hfirst : (p, m) ∈ n.located.map (fun x => (i :: x.1, x.2)) ↔
        ∃ q, p = i :: q ∧ n.at? q = some m := by
      rw [List.mem_map]
      constructor
      · rintro ⟨⟨q, m'⟩, hx, he⟩
        cases he
        exact ⟨q, rfl, (mem_located n).1 hx⟩
      · rintro ⟨q, rfl, hq⟩
        exact ⟨(q, m), (mem_located n).2 hq, rfl⟩
    rw [locatedAll, List.mem_append, hfirst, mem_locatedAll (i + 1) ns]
    constructor
    · rintro (⟨q, rfl, hq⟩ | ⟨j, q, rfl, hq⟩)
      · exact ⟨0, q, rfl, hq⟩
      · exact ⟨j + 1, q, by rw [Nat.add_right_comm, Nat.add_assoc], hq⟩
    · rintro ⟨_ | j, q, rfl, hq⟩
      · exact Or.inl ⟨q, rfl, hq⟩
      · exact Or.inr ⟨j, q, by rw [Nat.add_right_comm, Nat.add_assoc], hq⟩
end

mutual
/-- The places are listed in order: the way to a node before the ways further down, and the ways
through a child before those through the next one. -/
theorem located_sorted : ∀ n : Node, (n.located.map Prod.fst).Pairwise (· < ·)
  | leaf k t s => by simp [located]
  | branch k cs s => by
    rw [located, List.map_cons, List.pairwise_cons]
    refine ⟨fun p hp => ?_, locatedAll_sorted 0 cs⟩
    obtain ⟨⟨p, m⟩, hx, rfl⟩ := List.mem_map.1 hp
    obtain ⟨j, q, rfl, -⟩ := (mem_locatedAll 0 cs).1 hx
    exact List.nil_lt_cons _ _

theorem locatedAll_sorted : ∀ (i : Nat) (ns : List Node),
    ((locatedAll i ns).map Prod.fst).Pairwise (· < ·)
  | _, [] => by simp [locatedAll]
  | i, n :: ns => by
    rw [locatedAll, List.map_append, List.pairwise_append]
    refine ⟨?_, locatedAll_sorted (i + 1) ns, ?_⟩
    · have hbelow := located_sorted n
      rw [List.pairwise_map] at hbelow
      rw [List.map_map, List.pairwise_map]
      exact hbelow.imp fun h => List.cons_lt_cons_iff.2 (Or.inr ⟨rfl, h⟩)
    · intro p hp q hq
      rw [List.map_map] at hp
      obtain ⟨_, _, rfl⟩ := List.mem_map.1 hp
      obtain ⟨⟨q, m⟩, hx, rfl⟩ := List.mem_map.1 hq
      obtain ⟨j, r, rfl, -⟩ := (mem_locatedAll (i + 1) ns).1 hx
      exact List.cons_lt_cons_iff.2 (Or.inl (by omega))
end

/-! ## Lines -/

mutual
/-- The level of a node is as many steps below that of the root as its place has. -/
theorem leveled_eq : ∀ (depth : Nat) (n : Node),
    leveled depth n = n.located.map fun x => (depth + x.1.length, x.2)
  | depth, leaf k t s => by simp [leveled, located]
  | depth, branch k cs s => by
    rw [leveled, located, List.map_cons, leveledAll_eq depth 0 cs]
    rfl

theorem leveledAll_eq : ∀ (depth i : Nat) (ns : List Node),
    leveledAll (depth + 1) ns = (locatedAll i ns).map fun x => (depth + x.1.length, x.2)
  | _, _, [] => by simp [leveledAll, locatedAll]
  | depth, i, n :: ns => by
    rw [leveledAll, locatedAll, List.map_append, List.map_map, leveled_eq (depth + 1) n,
      leveledAll_eq depth (i + 1) ns]
    congr 2
    funext x
    rw [Function.comp_apply, List.length_cons]
    congr 1
    omega
end

/-- The places of the nodes below a root, in order, and what the two traversals make of them: the
walk meets the node at each place, and the listing has a line for it, indented by two blanks for
each step of the way. -/
structure Follows (quote : String → String) (root : Node) (places : List (List Nat)) : Prop where
  sorted : places.Pairwise (· < ·)
  mem_iff : ∀ p, p ∈ places ↔ ∃ n, root.at? p = some n
  nodes : root.descendants.map some = places.map root.at?
  lines : root.dumpWith quote = String.join
    (List.zipWith (fun p n => line quote p.length n ++ "\n") places root.descendants)
  one_line : ∀ n ∈ root.descendants, ∀ depth, '\n' ∉ (line quote depth n).toList

theorem follows_located {quote : String → String} (hq : Text.Quoting quote) (root : Node) :
    Follows quote root (root.located.map Prod.fst) where
  sorted := root.located_sorted
  mem_iff p := by
    rw [List.mem_map]
    constructor
    · rintro ⟨⟨p, n⟩, hx, rfl⟩
      exact ⟨n, (mem_located root).1 hx⟩
    · rintro ⟨n, hn⟩
      exact ⟨(p, n), (mem_located root).2 hn, rfl⟩
  nodes := by
    rw [descendants_eq_preorder, ← located_nodes, List.map_map, List.map_map]
    exact List.map_congr_left fun x hx => ((mem_located root).1 hx).symm
  lines := by
    rw [dumpWith, dumpAt_eq, leveled_eq, descendants_eq_preorder, ← located_nodes, List.map_map,
      List.zipWith_map, List.zipWith_self]
    congr 2
    funext x
    rw [Function.comp_apply, Nat.zero_add]
  one_line n _ depth := line_one_line hq depth n

/-- The walk with a stack gives the nodes in the order of the recursive listing. The places of the
tree, in lexicographic order, are those of these nodes, each place once, and of the lines of the
dump, where each line is indented by the length of its place. -/
theorem traversals_agree {quote : String → String} (hq : Text.Quoting quote) (root : Node) :
    root.descendants = root.preorder ∧ ∃ places, Follows quote root places :=
  ⟨root.descendants_eq_preorder, _, follows_located hq root⟩

/-- A name inside a class inside a selector. -/
theorem traversals_agree_nested :
    let name := leaf .ident "a" ⟨1, 2⟩
    let cls := branch .classSelector [name] ⟨1, 1⟩
    let root := branch .selector [cls] ⟨1, 1⟩
    Text.Quoting Text.quote ∧ root.descendants = [root, cls, name] ∧
      ∃ places, Follows Text.quote root places := by
  intro name cls root
  obtain ⟨hwalk, hplaces⟩ := traversals_agree Text.quoting_quote root
  exact ⟨Text.quoting_quote, hwalk.trans rfl, hplaces⟩

end LessCss.Node
