import LessCss.Proofs.Build.Terms
import LessCss.Proofs.Tail

/-! What is built of a tail. A builder that is started in the tail of a stream makes the same nodes
as in the whole stream: it makes the same requests, each as many tokens further on as there are
before the tail, and texts and places are those of the tokens. -/

namespace LessCss

open Lookahead Grammar Builder Tokens

/-- The inside of a construct that closes `d` tokens further on. -/
def Interior.later (d : Nat) : Interior → Interior
  | .group => .group
  | .arguments close => .arguments (d + close)
  | .block close => .block (d + close)
  | .rules close => .rules (d + close)
  | .keyframes close => .keyframes (d + close)
  | .selectors => .selectors
  | .var => .var

/-! ## Programs -/

/-- The programs make the same requests, the second one `d` tokens further on, and so they fail or
end, with the same result. They end at token `m` or behind it, and request no inside from the
first token on. -/
inductive Plan.Moves (ts ts' : Tokens) (d m : Nat) {α : Type} :
    Plan (α × Nat) → Plan (α × Nat) → Prop
  | done (a : α) {j : Nat} (hj : m ≤ j) : Moves ts ts' d m (.done (a, j)) (.done (a, d + j))
  | fail (i : Nat) : Moves ts ts' d m (.fail i) (.fail (d + i))
  | look {q q' : Lookahead Nat} {next next' : Nat → Plan (α × Nat)}
    (rest : Moves ts ts' d m (next (q.eval ts)) (next' (q'.eval ts'))) :
    Moves ts ts' d m (.look q next) (.look q' next')
  | ask {r : Rule} {i : Nat} {next next' : Answer r → Plan (α × Nat)}
    (rest : Moves ts ts' d m (next (r.meaning ts i)) (next' (r.meaning ts i))) :
    Moves ts ts' d m (.ask r i next) (.ask r (d + i) next')
  | build {part : Interior} {i : Nat} {next next' : List Node × Nat → Plan (α × Nat)} (hi : 0 < i)
    (rest : ∀ ns j, i ≤ j → Moves ts ts' d m (next (ns, j)) (next' (ns, d + j))) :
    Moves ts ts' d m (.build part i next) (.build (part.later d) (d + i) next')
  | check {holds holds' : Bool} {next next' : Plan (α × Nat)}
    (rest : Moves ts ts' d m next next') :
    Moves ts ts' d m (.check holds next) (.check holds' next')
  | made {node : Node} {next next' : Plan (α × Nat)} (rest : Moves ts ts' d m next next') :
    Moves ts ts' d m (.made node next) (.made node next')

/-- The results are the same failure, or the same but for the token behind, which is `m` or further
on in the one and `d` tokens further on in the other. -/
inductive Plan.Moved (d m : Nat) {α : Type} :
    Except Error (α × Nat) → Except Error (α × Nat) → Prop
  | ok (a : α) {j : Nat} (hj : m ≤ j) : Moved d m (.ok (a, j)) (.ok (a, d + j))
  | error (e : Error) : Moved d m (.error e) (.error e)

namespace Plan

variable {ts ts' : Tokens} {d m n : Nat} {α β : Type}

theorem Moved.ok_iff {r r' : Except Error (α × Nat)} (h : Moved d m r r') {a : α} {j : Nat} :
    r = .ok (a, j) ↔ r' = .ok (a, d + j) := by
  cases h with
  | ok b _ => simp
  | error e => simp

theorem Moves.mono {p p' : Plan (α × Nat)} (h : p.Moves ts ts' d n p') (hmn : m ≤ n) :
    p.Moves ts ts' d m p' := by
  induction h with
  | done a hj => exact .done a (Nat.le_trans hmn hj)
  | fail i => exact .fail i
  | look _ ih => exact .look ih
  | ask _ ih => exact .ask ih
  | build hi _ ih => exact .build hi ih
  | check _ ih => exact .check ih
  | made _ ih => exact .made ih

theorem Moves.bind {p p' : Plan (α × Nat)} {f f' : α × Nat → Plan (β × Nat)}
    (h : p.Moves ts ts' d m p')
    (hf : ∀ a j, m ≤ j → (f (a, j)).Moves ts ts' d m (f' (a, d + j))) :
    (p.bind f).Moves ts ts' d m (p'.bind f') := by
  induction h with
  | done a hj => exact hf a _ hj
  | fail i => exact .fail i
  | look _ ih => exact .look ih
  | ask _ ih => exact .ask ih
  | build hi _ ih => exact .build hi ih
  | check _ ih => exact .check ih
  | made _ ih => exact .made ih

/-- Where insides are built alike, so is what is built around them. -/
theorem Moves.run (h : ts.Tail d ts') {build build' : Interior → Nat → Except Error (List Node × Nat)}
    (hb : ∀ part i, 0 < i → Moved d i (build part i) (build' (part.later d) (d + i)))
    {p p' : Plan (α × Nat)} (hp : p.Moves ts ts' d m p') :
    Moved d m (p.run (plainHost ts build)) (p'.run (plainHost ts' build')) := by
  induction hp with
  | done a hj => exact .ok a hj
  | fail i =>
    change Moved d m (.error (ts.unexpected i)) (.error (ts'.unexpected (d + i)))
    rw [h.unexpected]
    exact .error _
  | look _ ih => exact ih
  | @ask r i next next' _ ih =>
    change Moved d m ((next (r.meaning ts i)).run _) ((next' (r.meaning ts' (d + i))).run _)
    rw [h.meaning]
    exact ih
  | @build part i next next' hi _ ih =>
    have hb := hb part i hi
    change Moved d m (build part i >>= fun x => (next x).run _)
      (build' (part.later d) (d + i) >>= fun x => (next' x).run _)
    generalize build part i = x, build' (part.later d) (d + i) = x' at hb
    cases hb with
    | ok ns hj => exact ih ns _ hj
    | error e => exact .error e
  | check _ ih => exact ih
  | made _ ih => exact ih

end Plan

namespace Builder

/-- The builders, the second one started `d` tokens further on, make the same of every token from
`lo` on. -/
def Moves (ts ts' : Tokens) (d lo : Nat) {α : Type} (x x' : Builder α) : Prop :=
  ∀ i, lo ≤ i → (x i).Moves ts ts' d i (x' (d + i))

variable {ts ts' : Tokens} {d lo : Nat} {α β : Type}

theorem Moves.then {x x' : Builder α} {f f' : α → Builder β} (h : Moves ts ts' d lo x x')
    (hf : ∀ a, Moves ts ts' d lo (f a) (f' a)) : Moves ts ts' d lo (x >>= f) (x' >>= f') := by
  intro i hi
  exact (h i hi).bind fun a j hj => (hf a j (Nat.le_trans hi hj)).mono hj

theorem Moves.from {lo' : Nat} {x x' : Builder α} (h : Moves ts ts' d lo x x') (hlo : lo ≤ lo') :
    Moves ts ts' d lo' x x' := fun i hi => h i (Nat.le_trans hlo hi)

theorem moves_pure (a : α) : Moves ts ts' d lo (pure a) (pure a) :=
  fun i _ => .done a (Nat.le_refl i)

theorem moves_unexpected : Moves ts ts' d lo (unexpected : Builder α) unexpected :=
  fun i _ => .fail i

/-! ### Single steps -/

section
variable {f f' : Unit → Builder β}

theorem moves_cursor {f f' : Nat → Builder β} (hf : ∀ i, lo ≤ i → Moves ts ts' d i (f i) (f' (d + i))) :
    Moves ts ts' d lo (cursor >>= f) (cursor >>= f') := fun i hi => hf i hi i (Nat.le_refl i)

theorem moves_skip (n : Nat) (hf : Moves ts ts' d (lo + n) (f ()) (f' ())) :
    Moves ts ts' d lo (skip n >>= f) (skip n >>= f') := by
  intro i hi
  have hnext := hf (i + n) (Nat.add_le_add_right hi n)
  rw [← Nat.add_assoc] at hnext
  exact hnext.mono (Nat.le_add_right i n)

theorem moves_moveTo {i j : Nat} (hij : i ≤ j) (hf : (f () j).Moves ts ts' d j (f' () (d + j))) :
    ((moveTo j >>= f) i).Moves ts ts' d i ((moveTo (d + j) >>= f') (d + i)) := hf.mono hij

theorem moves_check {b b' : Bool} (hf : Moves ts ts' d lo (f ()) (f' ())) :
    Moves ts ts' d lo (check b >>= f) (check b' >>= f') := fun i hi => .check (hf i hi)

theorem moves_expectAt (j : Nat) (hf : Moves ts ts' d lo (f ()) (f' ())) :
    Moves ts ts' d lo (expectAt j >>= f) (expectAt (d + j) >>= f') := by
  refine Moves.then (moves_cursor fun i _ => ?_) fun _ => hf
  rw [if_congr (not_congr Nat.add_left_cancel_iff) rfl rfl]
  split
  · exact moves_unexpected
  · exact moves_pure ()

theorem moves_askAhead (r : Rule) (n : Nat) {f f' : Answer r → Builder β}
    (hf : ∀ a, Moves ts ts' d lo (f a) (f' a)) :
    Moves ts ts' d lo (askAhead r n >>= f) (askAhead r n >>= f') := by
  intro i hi
  change (Plan.ask r (i + n) fun a => f a i).Moves ts ts' d i
    (Plan.ask r (d + i + n) fun a => f' a (d + i))
  rw [Nat.add_assoc]
  exact .ask (hf _ i hi)

theorem moves_ask (r : Rule) {f f' : Answer r → Builder β}
    (hf : ∀ a, Moves ts ts' d lo (f a) (f' a)) :
    Moves ts ts' d lo (ask r >>= f) (ask r >>= f') := moves_askAhead r 0 hf

theorem moves_starts (r : Rule) {f f' : Bool → Builder β}
    (hf : ∀ b, Moves ts ts' d lo (f b) (f' b)) :
    Moves ts ts' d lo (starts r >>= f) (starts r >>= f') :=
  fun i hi => .ask (hf _ i hi)

theorem moves_enter (part : Interior) (hlo : 0 < lo) :
    Moves ts ts' d lo (enter part) (enter (part.later d)) :=
  fun _ hi => .build (Nat.lt_of_lt_of_le hlo hi) fun ns _ hj => .done ns hj

end

/-! ### Choice -/

section
variable {x x' y y' : Builder α} {xs xs' : Builder (List Node)}

theorem moves_choose_starts (r : Rule) (hx : Moves ts ts' d lo x x') (hy : Moves ts ts' d lo y y') :
    Moves ts ts' d lo (choose (starts r) x y) (choose (starts r) x' y') := by
  refine moves_starts r fun b => ?_
  cases b with
  | true => exact hx
  | false => exact hy

theorem moves_optionally_starts (r : Rule) (h : Moves ts ts' d lo xs xs') :
    Moves ts ts' d lo (optionally (starts r) xs) (optionally (starts r) xs') :=
  moves_choose_starts r h (moves_pure [])

theorem moves_given (c : Bool) (h : Moves ts ts' d lo xs xs') :
    Moves ts ts' d lo (given c xs) (given c xs') := by
  cases c with
  | true => exact h
  | false => exact moves_pure []

end

theorem Moves.single {x x' : Builder Node} (h : Moves ts ts' d lo x x') :
    Moves ts ts' d lo (single x) (single x') := h.then fun n => moves_pure [n]

theorem moves_make (n : Node) : Moves ts ts' d lo (make n) (make n) :=
  fun i _ => .made (.done n (Nat.le_refl i))

/-! ### Repetition -/

theorem moves_collectFrom {round round' : Builder Chunk} (h : Moves ts ts' d lo round round')
    (stop : Nat) (sofar : List Node) {i : Nat} (hi : lo ≤ i) :
    (collectFrom stop round sofar i).Moves ts ts' d i
      (collectFrom (d + stop) round' sofar (d + i)) := by
  generalize hn : stop - i = n
  induction n using Nat.strongRecOn generalizing sofar i with
  | ind n ih =>
    rw [collectFrom, collectFrom.eq_def (d + stop)]
    by_cases hstop : i < stop
    · rw [dif_pos hstop, dif_pos (Nat.add_lt_add_left hstop d)]
      refine (h i hi).bind fun c j hj => ?_
      dsimp only
      by_cases hmore : i < j ∧ c.more = true
      · rw [dif_pos hmore, dif_pos ⟨Nat.add_lt_add_left hmore.1 d, hmore.2⟩]
        exact (ih _ (by omega) _ (Nat.le_trans hi hj) rfl).mono hj
      · rw [dif_neg hmore, dif_neg fun h => hmore ⟨Nat.lt_of_add_lt_add_left h.1, h.2⟩]
        exact .check (.done _ hj)
    · rw [dif_neg hstop, dif_neg (by omega)]
      exact .done _ (Nat.le_refl i)

theorem moves_collect {round round' : Builder Chunk} (h : Moves ts ts' d lo round round')
    (stop : Nat) : Moves ts ts' d lo (collect stop round) (collect (d + stop) round') :=
  fun _ hi => moves_collectFrom h stop [] hi

theorem moves_collectTo {round round' : Builder (List Node)} (h : Moves ts ts' d lo round round')
    (stop : Nat) : Moves ts ts' d lo (collectTo stop round) (collectTo (d + stop) round') :=
  moves_collect (h.then fun ns => moves_pure (Chunk.mk ns true)) stop

/-- A round that gives one node. -/
theorem Moves.round {x x' : Builder Node} (h : Moves ts ts' d lo x x') :
    Moves ts ts' d lo (do return (⟨[← x], true⟩ : Chunk)) (do return ⟨[← x'], true⟩) :=
  h.then fun n => moves_pure (Chunk.mk [n] true)

/-! ### Tails -/

section
variable (h : ts.Tail d ts')
include h

theorem moves_look {q q' : Nat → Lookahead Nat} (hq : ∀ i, q' (d + i) = (q i).later d)
    {f f' : Nat → Builder β} (hf : ∀ n, Moves ts ts' d lo (f n) (f' n)) :
    Moves ts ts' d lo (look q >>= f) (look q' >>= f') := by
  refine fun i hi => .look ?_
  rw [hq, h.eval]
  exact hf _ i hi

theorem moves_sees {q q' : Nat → Lookahead Nat} (hq : ∀ i, q' (d + i) = (q i).later d)
    {f f' : Bool → Builder β} (hf : ∀ b, Moves ts ts' d lo (f b) (f' b)) :
    Moves ts ts' d lo (sees q >>= f) (sees q' >>= f') :=
  moves_look h hq fun n => hf (0 < n)

theorem moves_choose_sees {q q' : Nat → Lookahead Nat} (hq : ∀ i, q' (d + i) = (q i).later d)
    {x x' y y' : Builder α} (hx : Moves ts ts' d lo x x') (hy : Moves ts ts' d lo y y') :
    Moves ts ts' d lo (choose (sees q) x y) (choose (sees q') x' y') := by
  refine moves_sees h hq fun b => ?_
  cases b with
  | true => exact hx
  | false => exact hy

theorem moves_optionally_sees {q q' : Nat → Lookahead Nat} (hq : ∀ i, q' (d + i) = (q i).later d)
    {xs xs' : Builder (List Node)} (hx : Moves ts ts' d lo xs xs') :
    Moves ts ts' d lo (optionally (sees q) xs) (optionally (sees q') xs') :=
  moves_choose_sees h hq hx (moves_pure [])

theorem moves_leaf (k : Node.Kind) (n : Nat) : Moves ts ts' d lo (leaf ts k n) (leaf ts' k n) := by
  refine moves_cursor fun i _ => moves_skip n ?_
  rw [Nat.add_assoc, h.join, h.position]
  exact moves_make _

theorem moves_leafOf (k : Node.Kind) {q q' : Nat → Lookahead Nat}
    (hq : ∀ i, q' (d + i) = (q i).later d) :
    Moves ts ts' d lo (leafOf ts k q) (leafOf ts' k q') := moves_look h hq fun n => moves_leaf h k n

theorem moves_branch_at (k : Node.Kind) {xs xs' : Builder (List Node)} {i : Nat}
    (hxs : (xs i).Moves ts ts' d i (xs' (d + i))) :
    (branch ts k xs i).Moves ts ts' d i (branch ts' k xs' (d + i)) := by
  change ((xs >>= fun ns => make (.branch k ns (ts.position i))) i).Moves ts ts' d i
    ((xs' >>= fun ns => make (.branch k ns (ts'.position (d + i)))) (d + i))
  rw [h.position]
  exact hxs.bind fun ns j hj => (moves_make _ j (Nat.le_refl j)).mono hj

theorem moves_branch (k : Node.Kind) {xs xs' : Builder (List Node)}
    (hxs : Moves ts ts' d lo xs xs') : Moves ts ts' d lo (branch ts k xs) (branch ts' k xs') :=
  fun i hi => moves_branch_at h k (hxs i hi)

end

end Builder


variable {d lo : Nat} {ts ts' : Tokens}

/-! ## Spacing and names -/

section
variable (h : ts.Tail d ts')
include h

theorem spaceNode_moves : Moves ts ts' d lo (spaceNode ts) (spaceNode ts') :=
  moves_leafOf h _ (spaceLength_later h)

theorem blockCommentNode_moves :
    Moves ts ts' d lo (blockCommentNode ts) (blockCommentNode ts') := by
  refine moves_cursor fun i _ => moves_skip 1 ?_
  rw [h.text, h.position]
  exact moves_make _

theorem lineCommentNode_moves : Moves ts ts' d lo (lineCommentNode ts) (lineCommentNode ts') := by
  refine moves_cursor fun i _ => moves_skip 1 ?_
  rw [h.text, h.position]
  exact moves_make _

theorem spacingNodes_moves : Moves ts ts' d lo (spacingNodes ts) (spacingNodes ts') := by
  rw [spacingNodes, spacingNodes, h.size]
  refine moves_collect (moves_cursor fun i _ => ?_) _
  rw [h.kind?]
  split
  · exact (spaceNode_moves h).round
  · exact (spaceNode_moves h).round
  · exact (spaceNode_moves h).round
  · exact (blockCommentNode_moves h).round
  · exact (lineCommentNode_moves h).round
  · exact moves_pure _

theorem identNode_moves : Moves ts ts' d lo (identNode ts) (identNode ts') :=
  moves_look h (fun _ => rfl) fun n => moves_check (moves_leaf h _ n)

theorem interpolationNode_moves :
    Moves ts ts' d lo (interpolationNode ts) (interpolationNode ts') :=
  moves_branch h _ (moves_skip 2 ((identNode_moves h).then fun n => moves_skip 1 (moves_pure [n])))

theorem varNode_moves : Moves ts ts' d lo (varNode ts) (varNode ts') :=
  moves_branch h _ (moves_skip 1 (moves_choose_starts .var
    (moves_enter .var (Nat.succ_pos lo)) (identNode_moves h).single))

theorem varListNode_moves : Moves ts ts' d lo (varListNode ts) (varListNode ts') :=
  moves_branch h _ ((varNode_moves h).then fun n => moves_skip 3 (moves_pure [n]))

theorem atKeywordNode_moves : Moves ts ts' d lo (atKeywordNode ts) (atKeywordNode ts') :=
  moves_branch h _ (moves_skip 1 (identNode_moves h).single)

theorem nameNode_moves (form : Name) : Moves ts ts' d lo (nameNode ts form) (nameNode ts' form) := by
  cases form with
  | interpolation => exact interpolationNode_moves h
  | ident => exact identNode_moves h

theorem anyNameNode_moves : Moves ts ts' d lo (anyNameNode ts) (anyNameNode ts') :=
  moves_choose_starts _ (interpolationNode_moves h) (identNode_moves h)

theorem classNode_moves : Moves ts ts' d lo (classNode ts) (classNode ts') :=
  moves_branch h _ (moves_ask _ fun _ => moves_skip 1 (nameNode_moves h _).single)

theorem idNode_moves : Moves ts ts' d lo (idNode ts) (idNode ts') :=
  moves_branch h _ (moves_ask _ fun _ => moves_skip 1 (nameNode_moves h _).single)

theorem classOrIdNode_moves : Moves ts ts' d lo (classOrIdNode ts) (classOrIdNode ts') :=
  moves_choose_starts _ (classNode_moves h) (idNode_moves h)

/-! ## Literals -/

theorem numberNode_moves : Moves ts ts' d lo (numberNode ts) (numberNode ts') :=
  moves_leafOf h _ fun _ => rfl

theorem dimensionNode_moves : Moves ts ts' d lo (dimensionNode ts) (dimensionNode ts') := by
  refine moves_branch h _ ((numberNode_moves h).then fun number => moves_cursor fun i _ => ?_)
  rw [unitLength_later h]
  exact (moves_leaf h _ _).then fun unit => moves_pure [number, unit]

theorem percentageNode_moves : Moves ts ts' d lo (percentageNode ts) (percentageNode ts') :=
  moves_branch h _ ((numberNode_moves h).then fun n => moves_skip 1 (moves_pure [n]))

theorem stringNode_moves : Moves ts ts' d lo (stringNode ts) (stringNode ts') := moves_leaf h _ 1

theorem escapedStringNode_moves :
    Moves ts ts' d lo (escapedStringNode ts) (escapedStringNode ts') := by
  refine moves_cursor fun i _ => moves_skip 2 ?_
  rw [Nat.add_assoc, h.text, h.position]
  exact moves_make _

theorem unaryNode_moves : Moves ts ts' d lo (unaryNode ts) (unaryNode ts') := moves_leaf h _ 1

theorem operatorNode_moves : Moves ts ts' d lo (operatorNode ts) (operatorNode ts') :=
  moves_leaf h _ 1

theorem delimiterNode_moves : Moves ts ts' d lo (delimiterNode ts) (delimiterNode ts') :=
  moves_leaf h _ 1

theorem declarationDelimiterNode_moves :
    Moves ts ts' d lo (declarationDelimiterNode ts) (declarationDelimiterNode ts') :=
  moves_leaf h _ 1

theorem importantNode_moves : Moves ts ts' d lo (importantNode ts) (importantNode ts') :=
  moves_leafOf h _ fun _ => rfl

theorem colorNode_moves : Moves ts ts' d lo (colorNode ts) (colorNode ts') := by
  refine moves_cursor fun i _ => ?_
  simp only [Nat.add_assoc, unitLength_later h, h.join, h.position]
  exact moves_skip _ (moves_make _)

/-! ## Groups -/

omit h in
theorem moves_enclosed {closer? closer?' : Nat → Option Nat}
    (hcloser : ∀ i, closer?' (d + i) = (closer? i).map (d + ·))
    {inner inner' : Nat → Builder (List Node)}
    (hinner : ∀ close, Moves ts ts' d (lo + 1) (inner close) (inner' (d + close))) :
    Moves ts ts' d lo (enclosed closer? inner) (enclosed closer?' inner') := by
  refine moves_cursor fun i hi => ?_
  rw [hcloser]
  cases closer? i with
  | none => exact moves_unexpected
  | some close =>
    exact moves_skip 1 (((hinner close).from (Nat.add_le_add_right hi 1)).then fun ns =>
      moves_skip 1 (moves_pure ns))

omit h in
theorem moves_filling {part : Nat → Interior}
    (hpart : ∀ close, (part close).later d = part (d + close)) (hlo : 0 < lo) (close : Nat) :
    Moves ts ts' d lo (filling part close) (filling part (d + close)) := by
  refine Moves.then (f := fun nodes => expectAt close >>= fun _ => pure nodes) ?_ fun ns =>
    moves_expectAt close (moves_pure ns)
  rw [← hpart]
  exact moves_enter _ hlo

theorem closer_later (i : Nat) :
    ts'[d + i]?.bind Token.closer = (ts[i]?.bind Token.closer).map (d + ·) := by
  rw [h.token]
  cases ts[i]? <;> rfl

theorem groupNode_moves (k : Node.Kind) : Moves ts ts' d lo (groupNode ts k) (groupNode ts' k) :=
  moves_branch h _ (moves_enclosed (closer_later h) (moves_filling (fun _ => rfl) (Nat.succ_pos lo)))

theorem parenthesesNode_moves : Moves ts ts' d lo (parenthesesNode ts) (parenthesesNode ts') :=
  groupNode_moves h _

theorem bracketsNode_moves : Moves ts ts' d lo (bracketsNode ts) (bracketsNode ts') :=
  groupNode_moves h _

theorem argumentsNode_moves : Moves ts ts' d lo (argumentsNode ts) (argumentsNode ts') :=
  moves_branch h _ (moves_enclosed (h.closer? · _) (moves_filling (fun _ => rfl) (Nat.succ_pos lo)))

theorem blockNode_moves : Moves ts ts' d lo (blockNode ts) (blockNode ts') :=
  moves_branch h _ (moves_enclosed (h.closer? · _) (moves_filling (fun _ => rfl) (Nat.succ_pos lo)))

theorem ruleBlockNode_moves : Moves ts ts' d lo (ruleBlockNode ts) (ruleBlockNode ts') :=
  moves_branch h _ (moves_enclosed (h.closer? · _) fun close =>
    moves_enter (.rules close) (Nat.succ_pos lo))

theorem keyframeBlockNode_moves :
    Moves ts ts' d lo (keyframeBlockNode ts) (keyframeBlockNode ts') :=
  moves_branch h _ (moves_enclosed (h.closer? · _) fun close =>
    moves_enter (.keyframes close) (Nat.succ_pos lo))

/-! ## Addresses, expressions and filters -/

theorem rawEnd_later (stop j : Nat) : rawEnd ts' (d + stop) (d + j) = d + rawEnd ts stop j := by
  fun_induction rawEnd ts stop j with
  | case1 j hlt hany => rw [rawEnd, if_pos (Nat.add_lt_add_left hlt d), h.isAny, if_pos hany]
  | case2 j hlt hany ih =>
    rw [rawEnd, if_pos (Nat.add_lt_add_left hlt d), h.isAny, if_neg hany]
    exact ih
  | case3 j hge => rw [rawEnd, if_neg (by omega)]

theorem rawNode_moves (close : Nat) :
    Moves ts ts' d lo (rawNode ts close) (rawNode ts' (d + close)) := by
  intro i _
  change Plan.Moves ts ts' d i
    ((moveTo (rawEnd ts close i) >>= fun _ =>
      make (.leaf .raw (ts.join i (rawEnd ts close i)) (ts.position i))) i)
    ((moveTo (rawEnd ts' (d + close) (d + i)) >>= fun _ =>
      make (.leaf .raw (ts'.join (d + i) (rawEnd ts' (d + close) (d + i))) (ts'.position (d + i))))
      (d + i))
  rw [rawEnd_later h, h.join, h.position]
  exact moves_moveTo (rawEnd_le close i) (moves_make _ _ (Nat.le_refl _))

omit h in
theorem eval_lastToken (q : Nat → Lookahead Nat) (i : Nat) :
    (lastToken q i).eval ts = i + (q i).eval ts - 1 := by
  simp [lastToken, eval]

/-- The last token of what is measured, unless nothing is found at the first token. -/
theorem eval_lastToken_later {q q' : Nat → Lookahead Nat} (hq : ∀ i, q' (d + i) = (q i).later d) {i : Nat}
    (hi : 0 < i + (q i).eval ts) : (lastToken q' (d + i)).eval ts' = d + (lastToken q i).eval ts := by
  have hv : (q' (d + i)).eval ts' = (q i).eval ts := by rw [hq, h.eval]
  rw [eval_lastToken, eval_lastToken, hv]
  omega

theorem uriNode_moves {i : Nat} (hi : 0 < i + (uriLength ts i).eval ts) :
    (uriNode ts i).Moves ts ts' d i (uriNode ts' (d + i)) := by
  refine moves_branch_at h _ (.look ?_)
  rw [eval_lastToken_later h (uriLength_later h) hi]
  generalize (lastToken (uriLength ts) i).eval ts = close
  refine moves_skip 2 ?_ i (Nat.le_refl i)
  refine (spacingNodes_moves h).then fun _ => ?_
  refine (moves_choose_sees h (tokenLength_later h _) (stringNode_moves h)
    (rawNode_moves h close)).then fun _ => ?_
  refine (spacingNodes_moves h).then fun _ => moves_expectAt close (moves_skip 1 ?_)
  exact moves_pure _

theorem expressionNode_moves {i : Nat} (hi : 0 < i + (expressionLength ts i).eval ts) :
    (expressionNode ts i).Moves ts ts' d i (expressionNode ts' (d + i)) := by
  refine .look ?_
  rw [eval_lastToken_later h (expressionLength_later h) hi]
  have hclose : i ≤ (lastToken (expressionLength ts) i).eval ts + 1 := by
    rw [eval_lastToken]
    omega
  generalize (lastToken (expressionLength ts) i).eval ts = close at hclose
  change Plan.Moves ts ts' d i
    ((moveTo (close + 1) >>= fun _ =>
      make (.leaf .expression (ts.join (i + 2) close) (ts.position i))) i)
    ((moveTo (d + close + 1) >>= fun _ =>
      make (.leaf .expression (ts'.join (d + i + 2) (d + close)) (ts'.position (d + i)))) (d + i))
  rw [Nat.add_assoc, Nat.add_assoc, h.join, h.position]
  exact moves_moveTo hclose (moves_make _ _ (Nat.le_refl _))

theorem progidNode_moves : Moves ts ts' d lo (progidNode ts) (progidNode ts') :=
  moves_leafOf h _ fun _ => rfl

/-! ## Values -/

theorem functionNode_moves : Moves ts ts' d lo (functionNode ts) (functionNode ts') :=
  moves_branch h _ ((identNode_moves h).then fun name => (argumentsNode_moves h).then fun arguments =>
    moves_pure [name, arguments])

theorem fragmentNode_moves (wm : ts.WellMarked) :
    Moves ts ts' d lo (fragmentNode ts) (fragmentNode ts') := by
  intro i hi
  obtain ⟨A, hA⟩ := Parser.exists_plain_reading wm
  refine .ask ?_
  cases ht : Rule.meaning ts .fragment i with
  | none => exact moves_unexpected i hi
  | some m =>
    obtain ⟨a, ha, hs, _, hpos⟩ := A.alternative (r := .fragment) wm rfl rfl
      ((congrFun (congrFun hA .fragment) i).trans ht)
    rw [Parser.value_eq_eval wm A] at hpos
    have hlead : 0 < i + (a.2 i).eval ts := Nat.lt_of_lt_of_le hpos (Nat.le_add_left _ i)
    simp only [List.mem_cons, List.not_mem_nil, or_false] at ha
    simp only [Plan.bind, Answer.shape?, Option.map_some]
    rcases ha with rfl | rfl | rfl | rfl | rfl | rfl | rfl | rfl | rfl | rfl | rfl | rfl | rfl
      | rfl <;> rw [hs]
    · exact bracketsNode_moves h i hi
    · exact parenthesesNode_moves h i hi
    · exact stringNode_moves h i hi
    · exact varListNode_moves h i hi
    · exact varNode_moves h i hi
    · exact percentageNode_moves h i hi
    · exact dimensionNode_moves h i hi
    · exact numberNode_moves h i hi
    · exact uriNode_moves h hlead
    · exact expressionNode_moves h hlead
    · exact functionNode_moves h i hi
    · exact identNode_moves h i hi
    · exact classNode_moves h i hi
    · exact unaryNode_moves h i hi

theorem preludePartNodes_moves (wm : ts.WellMarked) (part : PreludePart) :
    Moves ts ts' d lo (preludePartNodes ts part) (preludePartNodes ts' part) := by
  cases part with
  | color => exact (colorNode_moves h).single
  | fragment => exact (fragmentNode_moves h wm).single
  | spacing => exact spacingNodes_moves h
  | operator => exact (operatorNode_moves h).single

theorem preludeNodes_moves (wm : ts.WellMarked) :
    Moves ts ts' d lo (preludeNodes ts) (preludeNodes ts') := by
  rw [preludeNodes, preludeNodes, h.size]
  refine moves_collect (moves_ask _ fun a => ?_) _
  split
  · exact (preludePartNodes_moves h wm _).then fun ns => moves_pure _
  · exact moves_pure _

theorem valuePartNode_moves (wm : ts.WellMarked) (part : ValuePart) :
    Moves ts ts' d lo (valuePartNode ts part) (valuePartNode ts' part) := by
  cases part with
  | escapedString => exact escapedStringNode_moves h
  | interpolation => exact interpolationNode_moves h
  | var => exact varNode_moves h
  | color => exact colorNode_moves h
  | block => exact blockNode_moves h
  | progid => exact progidNode_moves h
  | fragment => exact fragmentNode_moves h wm
  | atKeyword => exact atKeywordNode_moves h
  | operator => exact operatorNode_moves h
  | important => exact importantNode_moves h

theorem valueNode_moves (wm : ts.WellMarked) : Moves ts ts' d lo (valueNode ts) (valueNode ts') := by
  refine moves_branch h _ ?_
  rw [h.size]
  refine moves_collect (moves_look h (fun _ => rfl) fun n => moves_askAhead _ n fun a => ?_) _
  split
  · exact (spacingNodes_moves h).then fun _ => (valuePartNode_moves h wm _).then fun _ =>
      moves_pure _
  · exact moves_pure _

/-! ## Declarations and arguments -/

theorem propertyNode_moves : Moves ts ts' d lo (propertyNode ts) (propertyNode ts') :=
  moves_branch h _ (moves_choose_starts _ (varNode_moves h) (identNode_moves h)).single

theorem declarationNode_moves (wm : ts.WellMarked) :
    Moves ts ts' d lo (declarationNode ts) (declarationNode ts') := by
  refine moves_branch h _ ((propertyNode_moves h).then fun _ => ?_)
  refine (spacingNodes_moves h).then fun _ => (moves_leaf h _ 1).then fun _ => ?_
  refine (spacingNodes_moves h).then fun _ => (valueNode_moves h wm).then fun _ => ?_
  exact moves_pure _

theorem argumentNodes_moves (wm : ts.WellMarked) (hlo : 0 < lo) (part : Argument) :
    Moves ts ts' d lo (argumentNodes ts part) (argumentNodes ts' part) := by
  cases part with
  | escapedString => exact (escapedStringNode_moves h).single
  | declaration => exact (declarationNode_moves h wm).single
  | varList => exact (varListNode_moves h).single
  | var => exact (varNode_moves h).single
  | spacing => exact spacingNodes_moves h
  | unary => exact (unaryNode_moves h).single
  | operator => exact (operatorNode_moves h).single
  | delimiter => exact (delimiterNode_moves h).single
  | declarationDelimiter => exact (declarationDelimiterNode_moves h).single
  | string => exact (stringNode_moves h).single
  | percentage => exact (percentageNode_moves h).single
  | dimension => exact (dimensionNode_moves h).single
  | number => exact (numberNode_moves h).single
  | uri =>
    exact Moves.single fun i hi => uriNode_moves h
      (Nat.lt_of_lt_of_le hlo (Nat.le_trans hi (Nat.le_add_right i _)))
  | function => exact (functionNode_moves h).single
  | ident => exact (identNode_moves h).single
  | color => exact (colorNode_moves h).single
  | block => exact (blockNode_moves h).single
  | parentheses => exact (parenthesesNode_moves h).single

theorem argumentsInterior_moves (wm : ts.WellMarked) (hlo : 0 < lo) (close : Nat) :
    Moves ts ts' d lo (argumentsInterior ts close) (argumentsInterior ts' (d + close)) := by
  refine moves_collectTo (moves_choose_starts _ (declarationNode_moves h wm).single ?_) close
  refine moves_ask _ fun a => ?_
  split
  · exact argumentNodes_moves h wm hlo _
  · exact moves_choose_starts _ (classNode_moves h).single moves_unexpected

end

end LessCss
