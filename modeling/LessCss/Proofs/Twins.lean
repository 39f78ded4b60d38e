import LessCss.Proofs.Alike

/-! Two runs side by side. On streams that the grammar cannot tell apart, a builder makes the same
requests, fails at the same token or ends at the same token, and gives nodes of the same outline: of
the same kinds, each with as many children. Along the way it is counted how many groups stand one in
the other, since a builder can only nest as deep as there is room for. -/

namespace LessCss

open Lookahead Grammar Builder

namespace Node

/-! ## Nesting -/

/-- Whether a node of the kind is a level of nesting, as a child of a node of kind `parent`: blocks,
brackets and argument lists are; what stands in the parentheses of a pseudo-class is not. -/
def Kind.groups (parent : Option Kind) : Kind → Bool
  | .block | .parentheses | .brackets => true
  | .arguments => parent != some .pseudoClass
  | _ => false

/-- A way down from a node: to one of its children, to a child of that one, and so on. -/
inductive Descends : Node → List Node → Prop
  | here (n : Node) : Descends n [n]
  | down {n c : Node} {path : List Node} (child : c ∈ n.children) (rest : Descends c path) :
    Descends n (n :: path)

/-- How many levels of nesting there are on a way down that starts below a node of kind `parent`. -/
def levels (parent : Option Kind) : List Node → Nat
  | [] => 0
  | n :: path => (n.kind.groups parent).toNat + levels (some n.kind) path

/-- No way down from the node has more levels than there is room for. -/
def Shallow (room : Option Nat) (parent : Option Kind) (n : Node) : Prop :=
  ∀ m ∈ room, ∀ path, n.Descends path → levels parent path ≤ m

/-- What is above the start of a way down can only take a level away. -/
theorem levels_le (parent : Option Kind) (path : List Node) :
    levels parent path ≤ levels none path := by
  cases path with
  | nil => exact Nat.le_refl 0
  | cons n path =>
    have hgroups : (n.kind.groups parent).toNat ≤ (n.kind.groups none).toNat := by
      cases n.kind <;> first
        | exact Nat.le_refl _
        | exact Bool.toNat_le _
    simp only [levels]
    omega

theorem Shallow.below {room : Option Nat} {n : Node} (h : n.Shallow room none)
    (parent : Option Kind) : n.Shallow room parent :=
  fun m hm path hpath => Nat.le_trans (levels_le parent path) (h m hm path hpath)

theorem shallow_leaf {room : Option Nat} {parent : Option Kind} {k : Kind}
    (hk : k.groups parent = false) (text : String) (start : Position) :
    (leaf k text start).Shallow room parent := by
  intro m _ path hpath
  cases hpath with
  | here => simp [levels, kind, hk]
  | down child _ => cases child

/-- A branch has the levels of its children, and its own if it is a group. -/
theorem shallow_branch {room inner : Option Nat} {parent : Option Kind} {k : Kind} {cs : List Node}
    (hroom : room = inner.map (· + (k.groups parent).toNat))
    (hcs : ∀ c ∈ cs, c.Shallow inner (some k)) (start : Position) :
    (branch k cs start).Shallow room parent := by
  intro m hm path hpath
  rw [hroom, Option.mem_def, Option.map_eq_some_iff] at hm
  obtain ⟨m', hm', rfl⟩ := hm
  cases hpath with
  | here => simp [levels, kind]
  | down child rest =>
    have hrest := hcs _ child m' hm' _ rest
    simp only [levels, kind]
    omega

/-! ## Outlines -/

mutual
/-- The tree without places, and unless `texts` says otherwise without texts. -/
def outline (texts : Bool) : Node → Node
  | leaf k t _ => leaf k (if texts then t else "") .origin
  | branch k cs _ => branch k (outlineAll texts cs) .origin

/-- The outlines of some trees. -/
def outlineAll (texts : Bool) : List Node → List Node
  | [] => []
  | n :: ns => n.outline texts :: outlineAll texts ns
end

@[simp] theorem outlineAll_append (texts : Bool) (ms ns : List Node) :
    outlineAll texts (ms ++ ns) = outlineAll texts ms ++ outlineAll texts ns := by
  induction ms with
  | nil => rfl
  | cons m ms ih => simp [outlineAll, ih]

@[simp] theorem outlineAll_reverse (texts : Bool) (ns : List Node) :
    outlineAll texts ns.reverse = (outlineAll texts ns).reverse := by
  induction ns with
  | nil => rfl
  | cons n ns ih => simp [outlineAll, ih]

/-- The nodes have the same outline, and the first no more levels than there is room for. -/
structure Twin (texts : Bool) (room : Option Nat) (n n' : Node) : Prop where
  outline : n.outline texts = n'.outline texts
  shallow : n.Shallow room none

/-- The nodes of two lists have the same outlines, and the first no more levels than there is room
for. -/
structure Twins (texts : Bool) (room : Option Nat) (ns ns' : List Node) : Prop where
  outline : outlineAll texts ns = outlineAll texts ns'
  shallow : ∀ n ∈ ns, n.Shallow room none

/-- The nodes leave one level of the room. -/
def TwinsInside (texts : Bool) (room : Option Nat) (ns ns' : List Node) : Prop :=
  ∃ inner : Option Nat, room = inner.map (· + 1) ∧ Twins texts inner ns ns'

variable {texts : Bool} {room inner : Option Nat} {n n' : Node} {ns ns' ms ms' : List Node}

theorem Twins.nil : Twins texts room [] [] := ⟨rfl, List.forall_mem_nil _⟩

theorem Twins.append (h : Twins texts room ns ns') (h' : Twins texts room ms ms') :
    Twins texts room (ns ++ ms) (ns' ++ ms') :=
  ⟨by rw [outlineAll_append, outlineAll_append, h.outline, h'.outline],
    List.forall_mem_append.2 ⟨h.shallow, h'.shallow⟩⟩

theorem Twins.reverse (h : Twins texts room ns ns') : Twins texts room ns.reverse ns'.reverse :=
  ⟨by rw [outlineAll_reverse, outlineAll_reverse, h.outline],
    fun n hn => h.shallow n (List.mem_reverse.1 hn)⟩

theorem Twin.cons (h : Twin texts room n n') (h' : Twins texts room ns ns') :
    Twins texts room (n :: ns) (n' :: ns') :=
  ⟨by rw [outlineAll, outlineAll, h.outline, h'.outline], List.forall_mem_cons.2 ⟨h.shallow, h'.shallow⟩⟩

theorem Twin.single (h : Twin texts room n n') : Twins texts room [n] [n'] := h.cons .nil

theorem twin_leaf {k : Kind} (hk : k.groups none = false) {t t' : String}
    (ht : texts = true → t = t') (s s' : Position) :
    Twin texts room (.leaf k t s) (.leaf k t' s') := by
  refine ⟨?_, shallow_leaf hk t s⟩
  cases texts with
  | true => rw [ht rfl, Node.outline, Node.outline]
  | false => rfl

/-- A branch that is a group takes one level of the room. -/
theorem Twins.branch {k : Kind} (hroom : room = inner.map (· + (k.groups none).toNat))
    (h : Twins texts inner ns ns') (s s' : Position) :
    Twin texts room (.branch k ns s) (.branch k ns' s') :=
  ⟨by rw [Node.outline, Node.outline, h.outline],
    shallow_branch hroom (fun c hc => (h.shallow c hc).below (some k)) s⟩

end Node

open Node

/-! ## Streams -/

/-- The grammar cannot tell the streams apart; if `texts` says so, the tokens have the same texts. -/
structure Tokens.Twins (texts : Bool) (ts ts' : Tokens) : Prop extends ts.Alike ts' where
  same : texts = true → ts.map Token.text = ts'.map Token.text

section
variable {texts : Bool} {ts ts' : Tokens}

theorem Tokens.Twins.text (h : ts.Twins texts ts') (ht : texts = true) (i : Nat) :
    ts.text i = ts'.text i := by
  unfold Tokens.text
  rw [← Array.getElem?_map, ← Array.getElem?_map, h.same ht]

theorem Tokens.Twins.join (h : ts.Twins texts ts') (ht : texts = true) (lo hi : Nat) :
    ts.join lo hi = ts'.join lo hi := by
  unfold Tokens.join
  rw [← Array.toList_map, ← Array.toList_map, Array.map_extract, Array.map_extract, h.same ht]

end

/-! ## Builders -/

/-- What two runs are given for an inside: nodes of the same outlines that leave room for a level of
nesting, if the inside is one, and the same token behind them. -/
def Interior.Twins (texts : Bool) (room : Option Nat) (part : Interior) (x x' : List Node × Nat) :
    Prop :=
  x.2 = x'.2 ∧
    if part.nests then TwinsInside texts room x.1 x'.1 else Node.Twins texts room x.1 x'.1

/-- The programs make the same requests, whatever the answers are, and end with results in `R` or at
the same token. -/
inductive Plan.Pairs (texts : Bool) (room : Option Nat) {α β : Type} (R : α → β → Prop) :
    Plan α → Plan β → Prop
  | done {a : α} {b : β} (related : R a b) : Pairs texts room R (.done a) (.done b)
  | fail (i : Nat) : Pairs texts room R (.fail i) (.fail i)
  | look {q : Lookahead Nat} {next : Nat → Plan α} {next' : Nat → Plan β}
    (rest : ∀ n, Pairs texts room R (next n) (next' n)) :
    Pairs texts room R (.look q next) (.look q next')
  | ask {r : Rule} {i : Nat} {next : Answer r → Plan α} {next' : Answer r → Plan β}
    (rest : ∀ a, Pairs texts room R (next a) (next' a)) :
    Pairs texts room R (.ask r i next) (.ask r i next')
  | build {part : Interior} {i : Nat} {next : List Node × Nat → Plan α}
    {next' : List Node × Nat → Plan β}
    (rest : ∀ x x', part.Twins texts room x x' → Pairs texts room R (next x) (next' x')) :
    Pairs texts room R (.build part i next) (.build part i next')
  | check {holds : Bool} {next : Plan α} {next' : Plan β} (rest : Pairs texts room R next next') :
    Pairs texts room R (.check holds next) (.check holds next')
  | made {node node' : Node} {next : Plan α} {next' : Plan β} (rest : Pairs texts room R next next') :
    Pairs texts room R (.made node next) (.made node' next')

theorem Plan.Pairs.bind {texts : Bool} {room : Option Nat} {α β γ δ : Type} {R : α → β → Prop}
    {S : γ → δ → Prop} {p : Plan α} {p' : Plan β} {f : α → Plan γ} {f' : β → Plan δ}
    (h : p.Pairs texts room R p') (hf : ∀ a b, R a b → (f a).Pairs texts room S (f' b)) :
    (p.bind f).Pairs texts room S (p'.bind f') := by
  induction h with
  | done related => exact hf _ _ related
  | fail i => exact .fail i
  | look _ ih => exact .look ih
  | ask _ ih => exact .ask ih
  | build _ ih => exact .build ih
  | check _ ih => exact .check ih
  | made _ ih => exact .made ih

namespace Builder

variable {texts : Bool} {room inner : Option Nat} {α β γ δ : Type} {R : α → β → Prop}
  {S : γ → δ → Prop} {ts ts' : Tokens}

/-- From every cursor the builders end with results in `R` and the same cursor. -/
def Pairs (texts : Bool) (room : Option Nat) (R : α → β → Prop) (x : Builder α) (x' : Builder β) :
    Prop :=
  ∀ i, (x i).Pairs texts room (fun r r' => R r.1 r'.1 ∧ r.2 = r'.2) (x' i)

/-- The builders make twins. -/
abbrev MakeTwins (texts : Bool) (room : Option Nat) (x x' : Builder Node) : Prop :=
  Pairs texts room (Node.Twin texts room) x x'

/-- The builders make lists of twins. -/
abbrev YieldTwins (texts : Bool) (room : Option Nat) (xs xs' : Builder (List Node)) : Prop :=
  Pairs texts room (Node.Twins texts room) xs xs'

theorem Pairs.then {x : Builder α} {x' : Builder β} {f : α → Builder γ} {f' : β → Builder δ}
    (h : Pairs texts room R x x') (hf : ∀ a b, R a b → Pairs texts room S (f a) (f' b)) :
    Pairs texts room S (x >>= f) (x' >>= f') := by
  intro i
  refine (h i).bind ?_
  rintro ⟨a, j⟩ ⟨b, _⟩ ⟨hrel, rfl⟩
  exact hf a b hrel j

theorem pairs_pure {a : α} {b : β} (h : R a b) :
    Pairs texts room R (pure a : Builder α) (pure b : Builder β) := fun _ => .done ⟨h, rfl⟩

theorem pairs_unexpected : Pairs texts room R (unexpected : Builder α) (unexpected : Builder β) :=
  fun i => .fail i

/-! ### Steps that both runs make alike -/

theorem pairs_cursor {f : Nat → Builder γ} {f' : Nat → Builder δ}
    (hf : ∀ i, Pairs texts room S (f i) (f' i)) :
    Pairs texts room S (cursor >>= f) (cursor >>= f') := fun i => hf i i

theorem pairs_skip (n : Nat) {f : Unit → Builder γ} {f' : Unit → Builder δ}
    (hf : Pairs texts room S (f ()) (f' ())) :
    Pairs texts room S (skip n >>= f) (skip n >>= f') := fun i => hf (i + n)

theorem pairs_moveTo (j : Nat) {f : Unit → Builder γ} {f' : Unit → Builder δ}
    (hf : Pairs texts room S (f ()) (f' ())) :
    Pairs texts room S (moveTo j >>= f) (moveTo j >>= f') := fun _ => hf j

theorem pairs_check (b : Bool) {f : Unit → Builder γ} {f' : Unit → Builder δ}
    (hf : Pairs texts room S (f ()) (f' ())) :
    Pairs texts room S (check b >>= f) (check b >>= f') := fun i => .check (hf i)

theorem pairs_look {q q' : Nat → Lookahead Nat} (hq : q = q') {f : Nat → Builder γ}
    {f' : Nat → Builder δ} (hf : ∀ n, Pairs texts room S (f n) (f' n)) :
    Pairs texts room S (look q >>= f) (look q' >>= f') := by
  subst hq
  exact fun i => .look fun n => hf n i

theorem pairs_sees {q q' : Nat → Lookahead Nat} (hq : q = q') {f : Bool → Builder γ}
    {f' : Bool → Builder δ} (hf : ∀ b, Pairs texts room S (f b) (f' b)) :
    Pairs texts room S (sees q >>= f) (sees q' >>= f') := by
  subst hq
  exact fun i => .look fun n => hf (0 < n) i

theorem pairs_askAhead (r : Rule) (n : Nat) {f : Answer r → Builder γ} {f' : Answer r → Builder δ}
    (hf : ∀ a, Pairs texts room S (f a) (f' a)) :
    Pairs texts room S (askAhead r n >>= f) (askAhead r n >>= f') := fun i => .ask fun a => hf a i

theorem pairs_ask (r : Rule) {f : Answer r → Builder γ} {f' : Answer r → Builder δ}
    (hf : ∀ a, Pairs texts room S (f a) (f' a)) :
    Pairs texts room S (ask r >>= f) (ask r >>= f') := pairs_askAhead r 0 hf

theorem pairs_starts (r : Rule) {f : Bool → Builder γ} {f' : Bool → Builder δ}
    (hf : ∀ b, Pairs texts room S (f b) (f' b)) :
    Pairs texts room S (starts r >>= f) (starts r >>= f') :=
  fun i => .ask fun a => hf (0 < a.length) i

theorem pairs_expectAt (j : Nat) {f : Unit → Builder γ} {f' : Unit → Builder δ}
    (hf : Pairs texts room S (f ()) (f' ())) :
    Pairs texts room S (expectAt j >>= f) (expectAt j >>= f') := by
  refine Pairs.then (R := Eq) (pairs_cursor fun i => ?_) fun _ _ _ => hf
  split
  · exact pairs_unexpected
  · exact pairs_pure rfl

/-! ### Choice -/

theorem pairs_choose_starts (r : Rule) {x y : Builder α} {x' y' : Builder β}
    (hx : Pairs texts room R x x') (hy : Pairs texts room R y y') :
    Pairs texts room R (choose (starts r) x y) (choose (starts r) x' y') := by
  refine pairs_starts r fun b => ?_
  cases b with
  | true => exact hx
  | false => exact hy

theorem pairs_choose_sees {q q' : Nat → Lookahead Nat} (hq : q = q') {x y : Builder α}
    {x' y' : Builder β} (hx : Pairs texts room R x x') (hy : Pairs texts room R y y') :
    Pairs texts room R (choose (sees q) x y) (choose (sees q') x' y') := by
  refine pairs_sees hq fun b => ?_
  cases b with
  | true => exact hx
  | false => exact hy

theorem pairs_optionally_starts (r : Rule) {xs xs' : Builder (List Node)}
    (h : YieldTwins texts room xs xs') :
    YieldTwins texts room (optionally (starts r) xs) (optionally (starts r) xs') :=
  pairs_choose_starts r h (pairs_pure .nil)

theorem pairs_optionally_sees {q q' : Nat → Lookahead Nat} (hq : q = q')
    {xs xs' : Builder (List Node)} (h : YieldTwins texts room xs xs') :
    YieldTwins texts room (optionally (sees q) xs) (optionally (sees q') xs') :=
  pairs_choose_sees hq h (pairs_pure .nil)

theorem pairs_given (c : Bool) {xs xs' : Builder (List Node)} (h : YieldTwins texts room xs xs') :
    YieldTwins texts room (given c xs) (given c xs') := by
  cases c with
  | true => exact h
  | false => exact pairs_pure .nil

/-! ### Insides -/

theorem pairs_enter {part : Interior} (hpart : part.nests = true) :
    Pairs texts room (TwinsInside texts room) (enter part) (enter part) := by
  refine fun i => .build fun x x' hx => .done ⟨?_, hx.1⟩
  have hnodes := hx.2
  rwa [if_pos hpart] at hnodes

theorem pairs_enter_flat {part : Interior} (hpart : part.nests = false) :
    YieldTwins texts room (enter part) (enter part) := by
  refine fun i => .build fun x x' hx => .done ⟨?_, hx.1⟩
  have hnodes := hx.2
  rwa [hpart, if_neg Bool.false_ne_true] at hnodes

/-! ### Nodes -/

theorem pairs_make {R : Node → Node → Prop} {n n' : Node} (h : R n n') :
    Pairs texts room R (make n) (make n') := fun _ => .made (.done ⟨h, rfl⟩)

theorem Pairs.single {x x' : Builder Node} (h : MakeTwins texts room x x') :
    YieldTwins texts room (single x) (single x') :=
  h.then fun _ _ hn => pairs_pure hn.single

theorem makeTwins_leaf (h : ts.Twins texts ts') {k : Node.Kind} (hk : k.groups none = false)
    (n : Nat) : MakeTwins texts room (leaf ts k n) (leaf ts' k n) :=
  pairs_cursor fun i => pairs_skip n (pairs_make (twin_leaf hk (h.join · i (i + n)) _ _))

theorem makeTwins_leafOf (h : ts.Twins texts ts') {k : Node.Kind} (hk : k.groups none = false)
    {q q' : Nat → Lookahead Nat} (hq : q = q') :
    MakeTwins texts room (leafOf ts k q) (leafOf ts' k q') :=
  pairs_look hq fun n => makeTwins_leaf h hk n

/-- A branch that is no group. -/
theorem Pairs.branch {k : Node.Kind} (hk : k.groups none = false)
    {xs xs' : Builder (List Node)} (h : YieldTwins texts room xs xs') :
    MakeTwins texts room (branch ts k xs) (branch ts' k xs') := by
  refine pairs_cursor fun i => Pairs.then h fun ns ns' hns => pairs_make (hns.branch ?_ _ _)
  rw [hk]
  exact (congrFun Option.map_id_fun' room).symm

/-- A branch that is a group, around an inside. -/
theorem makeTwins_group {k : Node.Kind} (hk : k.groups none = true)
    {xs xs' : Builder (List Node)} (h : Pairs texts room (TwinsInside texts room) xs xs') :
    MakeTwins texts room (Builder.branch ts k xs) (Builder.branch ts' k xs') := by
  refine pairs_cursor fun i => Pairs.then h fun ns ns' hns => ?_
  obtain ⟨inner, hroom, hns⟩ := hns
  refine pairs_make (hns.branch ?_ _ _)
  rw [hk]
  exact hroom

/-! ### Repetition -/

/-- Two rounds give twins and go on, or end, alike. -/
structure Chunk.Twins (texts : Bool) (room : Option Nat) (c c' : Chunk) : Prop where
  nodes : Node.Twins texts room c.nodes c'.nodes
  more : c.more = c'.more

theorem pairs_collectFrom {round round' : Builder Chunk}
    (h : Pairs texts room (Chunk.Twins texts room)
      round round') (stop : Nat) {sofar sofar' : List Node}
    (hs : Node.Twins texts room sofar sofar') (i : Nat) :
    (collectFrom stop round sofar i).Pairs texts room
      (fun r r' => Node.Twins texts room r.1 r'.1 ∧ r.2 = r'.2)
      (collectFrom stop round' sofar' i) := by
  generalize hn : stop - i = n
  induction n using Nat.strongRecOn generalizing sofar sofar' i with
  | ind n ih =>
    rw [collectFrom, collectFrom.eq_def stop round']
    by_cases hi : i < stop
    · rw [dif_pos hi, dif_pos hi]
      refine (h i).bind fun r r' hr => ?_
      obtain ⟨c, j⟩ := r
      obtain ⟨c', j'⟩ := r'
      obtain ⟨⟨hnodes, hmore⟩, rfl⟩ : Chunk.Twins texts room c c' ∧ j = j' := hr
      have hall := hnodes.reverse.append hs
      dsimp only at hmore hall ⊢
      rw [hmore]
      by_cases hj : i < j ∧ c'.more = true
      · rw [dif_pos hj, dif_pos hj]
        exact ih _ (by omega) hall j rfl
      · rw [dif_neg hj, dif_neg hj]
        exact .check (.done ⟨hall.reverse, rfl⟩)
    · rw [dif_neg hi, dif_neg hi]
      exact .done ⟨hs.reverse, rfl⟩

theorem yieldTwins_collect {round round' : Builder Chunk}
    (h : Pairs texts room (Chunk.Twins texts room)
      round round') {stop stop' : Nat} (hstop : stop = stop') :
    YieldTwins texts room (collect stop round) (collect stop' round') := by
  subst hstop
  exact fun i => pairs_collectFrom h stop .nil i

theorem yieldTwins_collectTo {round round' : Builder (List Node)}
    (h : YieldTwins texts room round round') {stop stop' : Nat} (hstop : stop = stop') :
    YieldTwins texts room (collectTo stop round) (collectTo stop' round') := by
  refine yieldTwins_collect (Pairs.then h fun ns ns' hns => ?_) hstop
  exact pairs_pure (R := Chunk.Twins texts room) ⟨hns, rfl⟩

/-- A round that gives one node. -/
theorem Pairs.round {x x' : Builder Node} (h : MakeTwins texts room x x') :
    Pairs texts room (Chunk.Twins texts room)
      (do return ⟨[← x], true⟩) (do return ⟨[← x'], true⟩) :=
  Pairs.then h fun _ _ hn => pairs_pure ⟨hn.single, rfl⟩

/-- A last round that gives nothing. -/
theorem pairs_round_none :
    Pairs texts room (Chunk.Twins texts room)
      (return ⟨[], false⟩) (return ⟨[], false⟩) :=
  pairs_pure ⟨.nil, rfl⟩

end Builder

end LessCss
