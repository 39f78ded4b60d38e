import LessCss.Proofs.Build
import LessCss.Proofs.Transparency
import Mathlib.Computability.RegularExpressions

/-! The schema of trees. What the children of a node of one kind can be is a pattern of kinds; only
for selectors it is put as conditions on neighbours. A variable can hold a variable, but not three
levels of them.

Builders are taken apart for what they make, wherever the cursor is: `Makes` is about one node and
`Yields` about a list of nodes. Where a builder was started at a token that its construct does not
cover, some nodes come out empty, and a node is then only `Drafted`; no node of a tree is, since
each stands for some tokens. -/

namespace LessCss

open Lookahead Builder Computability

namespace Node.Kind

/-- The kinds of nodes that have text. -/
def hasText : Kind → Bool
  | .combinator | .attributeMatch | .namespaceSeparator | .namespaceBar | .parentSelector
  | .propertyDelimiter | .declarationDelimiter | .delimiter | .space | .blockComment
  | .lineComment | .string | .escapedString | .number | .unary | .operator | .important | .raw
  | .expression | .progid | .color | .ident => true
  | _ => false

/-! ## Patterns -/

/-- A pattern of kinds. -/
abbrev Pattern := RegularExpression Kind

/-- One node of one of the kinds. -/
def one (ks : List Kind) : Pattern := (ks.map .char).sum

/-- Any number of nodes of the kinds. -/
def many (ks : List Kind) : Pattern := (one ks).star

/-- The pattern or nothing. -/
def maybe (p : Pattern) : Pattern := 1 + p

/-- White space and comments. -/
def spacings : List Kind := [.space, .blockComment, .lineComment]

/-- Any run of white space and comments. -/
def spacing : Pattern := many spacings

/-- A name with interpolation or without. -/
def names : List Kind := [.interpolation, .ident]

/-- Fragments of values and groups. -/
def fragments : List Kind :=
  [.brackets, .parentheses, .string, .varList, .var, .percentage, .dimension, .number, .uri,
   .expression, .function, .ident, .classSelector, .unary]

/-- Elements of groups and of the heads of at-rules. -/
def preludeParts : List Kind := fragments ++ spacings ++ [.color, .operator]

/-- Elements of a value that do not end it. -/
def valueParts : List Kind :=
  fragments ++
    [.escapedString, .interpolation, .color, .progid, .atKeyword, .operator, .important]

/-- Elements of an argument list. -/
def argumentParts : List Kind :=
  spacings ++
    [.escapedString, .declaration, .varList, .var, .unary, .operator, .delimiter,
     .declarationDelimiter, .string, .percentage, .dimension, .number, .uri, .function, .ident,
     .color, .block, .parentheses, .classSelector]

/-- Elements of a guard. -/
def conditionParts : List Kind :=
  spacings ++
    [.function, .brackets, .parentheses, .var, .ident, .number, .delimiter, .operator, .combinator,
     .string]

/-- Selectors between commas. -/
def selectors : Pattern :=
  one [.selector] * (spacing * one [.delimiter] * spacing * one [.selector]).star

/-- The parent selector, and what is glued to it. -/
def parent : Pattern := one [.parentSelector] * maybe (one [.parentSuffix])

/-- The parts of a compound. -/
def compoundParts : List Kind :=
  [.idSelector, .classSelector, .attributeSelector, .pseudoElement, .pseudoClass]

/-- What follows the name in an attribute selector that compares. -/
def comparison : Pattern :=
  one [.attributeMatch] * spacing * (one [.attributeValue] * spacing) *
    maybe (one [.attributeFlags] * spacing)

/-- The name that a call starts with, and those behind it. -/
def callHead : Pattern :=
  one [.classSelector, .idSelector] * many (spacings ++ [.classSelector, .idSelector, .operator])

/-- The children of a node, for a selector only the one of a keyframe; nodes with text have none. -/
def content : Kind → Pattern
  | .stylesheet =>
    many (spacings ++ [.declaration, .atRule, .extend, .ruleset, .mixin, .declarationDelimiter])
  | .ruleset => selectors * spacing * one [.block]
  | .selector => one [.keyframeSelector]
  | .compoundSelector =>
    (one [.typeSelector] + parent + one compoundParts) * many compoundParts
  | .typeSelector | .attributeName => maybe (one [.namespacePart]) * one [.ident]
  | .classSelector | .idSelector | .pseudoElement => one names
  | .attributeSelector => spacing * (one [.attributeName] * spacing) * maybe comparison
  | .attributeValue => one [.string, .ident]
  | .attributeFlags | .namespaceName | .atKeyword | .interpolation => one [.ident]
  | .namespacePart =>
    maybe (one [.namespaceName] * maybe (one [.blockComment])) * one [.namespaceSeparator]
  | .pseudoClass => one names + one [.ident] * one [.arguments]
  | .parentSuffix => one [.number, .ident] * many [.number, .ident]
  | .keyframeSelector => one [.percentage, .ident]
  | .declaration =>
    one [.property] * spacing * one [.propertyDelimiter] * spacing * one [.value]
  | .property | .var => one [.var, .ident]
  | .value => (spacing * one valueParts).star * (spacing * one (.block :: valueParts))
  | .block =>
    many (spacings ++
      [.condition, .extend, .ruleset, .declaration, .atRule, .mixinCall, .declarationDelimiter])
  | .atRule => one [.atKeyword] * many preludeParts * maybe (one [.block])
  | .mixin =>
    one [.classSelector, .idSelector] * spacing * maybe (one [.arguments]) *
      maybe (spacing * maybe (one [.condition]) * one [.block])
  | .mixinCall =>
    callHead * maybe (one [.arguments] * spacing * maybe (one [.important]))
  | .extend =>
    (parent + one [.ident, .classSelector, .idSelector]) *
      (one [.pseudoClass] * maybe (spacing * one [.block]))
  | .condition => one [.ident] * many conditionParts
  | .varList => one [.var]
  | .arguments => many argumentParts + selectors
  | .function => one [.ident] * one [.arguments]
  | .parentheses | .brackets => many preludeParts
  | .dimension => one [.number] * one [.ident]
  | .percentage => one [.number]
  | .uri => spacing * one [.string, .raw] * spacing
  | _ => 0

/-- The parts of a selector: spacing is inside, compounds do not touch, and between two combinators
there is more than spacing. -/
structure Linked (ks : List Kind) : Prop where
  ne_nil : ks ≠ []
  parts : ∀ k ∈ ks, k ∈ spacings ∨ k = .combinator ∨ k = .compoundSelector
  head : ∀ k ∈ ks.head?, k ∉ spacings
  last : ∀ k ∈ ks.getLast?, k ∉ spacings
  compounds : ks.IsChain fun k l => ¬ (k = .compoundSelector ∧ l = .compoundSelector)
  combinators : (ks.filter (· ∉ spacings)).IsChain
    fun k l => ¬ (k = .combinator ∧ l = .combinator)

instance (ks : List Kind) : Decidable (Linked ks) :=
  decidable_of_iff
    (ks ≠ [] ∧ (∀ k ∈ ks, k ∈ spacings ∨ k = .combinator ∨ k = .compoundSelector) ∧
      (∀ k ∈ ks.head?, k ∉ spacings) ∧ (∀ k ∈ ks.getLast?, k ∉ spacings) ∧
      (ks.IsChain fun k l => ¬ (k = .compoundSelector ∧ l = .compoundSelector)) ∧
      (ks.filter (· ∉ spacings)).IsChain fun k l => ¬ (k = .combinator ∧ l = .combinator))
    ⟨fun ⟨h₁, h₂, h₃, h₄, h₅, h₆⟩ => ⟨h₁, h₂, h₃, h₄, h₅, h₆⟩,
      fun h => ⟨h.ne_nil, h.parts, h.head, h.last, h.compounds, h.combinators⟩⟩

/-- Whether nodes of these kinds can be the children of a node of kind `k`. -/
def Admits (k : Kind) (ks : List Kind) : Prop :=
  ks ∈ k.content.matches' ∨ k = .selector ∧ Linked ks

instance (k : Kind) (ks : List Kind) : Decidable (k.Admits ks) :=
  inferInstanceAs (Decidable (_ ∨ _))

/-- Two compounds stand apart. -/
example : Kind.selector.Admits [.compoundSelector, .space, .compoundSelector, .combinator] ∧
    ¬ Kind.selector.Admits [.compoundSelector, .compoundSelector] := by decide

end Node.Kind

/-! ## Shapes of nodes -/

namespace Node

open Kind

/-- How many variables stand one in the other, from this node on. -/
def varDepth : Node → Nat
  | branch .var [n] _ => n.varDepth + 1
  | _ => 0

/-- The node has text or children as its kind has, and its children are what its kind admits. -/
structure Shaped (n : Node) : Prop where
  text : n.isLeaf = n.kind.hasText
  content : n.isLeaf = false → n.kind.Admits (n.children.map kind)
  depth : n.varDepth ≤ 2

/-- The kinds of nodes that come out empty where there is nothing to build. -/
def mayBeEmpty : List Kind := [.selector, .value, .compoundSelector, .parentSuffix]

/-- The node and all below it are shaped, or have come out empty. -/
inductive Drafted : Node → Prop
  | leaf {k : Kind} {text : String} {start : Position} (hasText : k.hasText = true) :
    Drafted (.leaf k text start)
  | branch {k : Kind} {cs : List Node} {start : Position}
    (content : k.Admits (cs.map kind) ∨ cs = [] ∧ k ∈ mayBeEmpty)
    (depth : (Node.branch k cs start).varDepth ≤ 2) (children : ∀ c ∈ cs, c.Drafted) :
    Drafted (.branch k cs start)

/-- The nodes follow a pattern, and all of them are drafted. -/
def Listed (p : Pattern) (ns : List Node) : Prop :=
  ns.map kind ∈ p.matches' ∧ ∀ n ∈ ns, n.Drafted

theorem varDepth_of_ne {k : Kind} (h : k ≠ .var) (cs : List Node) (start : Position) :
    (branch k cs start).varDepth = 0 := by
  rw [varDepth]
  intro n start' he
  cases he
  exact h rfl

theorem varDepth_leaf (k : Kind) (text : String) (start : Position) :
    (leaf k text start).varDepth = 0 := by
  rw [varDepth]
  nofun

theorem varDepth_var (n : Node) (start : Position) :
    (branch .var [n] start).varDepth = n.varDepth + 1 := by
  rw [varDepth]

theorem Drafted.children {n : Node} (h : n.Drafted) : ∀ c ∈ n.children, c.Drafted := by
  cases h with
  | leaf _ => exact List.forall_mem_nil _
  | branch _ _ children => exact children

theorem hasText_of_content {k : Kind} {ks : List Kind} (h : k.Admits ks) : k.hasText = false := by
  rcases h with h | ⟨rfl, _⟩
  · cases k <;> first
      | rfl
      | cases h
  · rfl

/-! ## Lists of nodes -/

theorem mem_one {ks w : List Kind} : w ∈ (one ks).matches' ↔ ∃ k ∈ ks, w = [k] := by
  induction ks with
  | nil => simp [one, RegularExpression.matches'_zero]
  | cons k ks ih =>
    have hcons : (one (k :: ks)).matches' = {[k]} + (one ks).matches' := rfl
    rw [hcons, Language.mem_add, ih, List.exists_mem_cons_iff]
    exact or_congr Iff.rfl Iff.rfl

theorem mem_one_mono {ks ls : List Kind} (h : ks ⊆ ls) :
    ∀ w ∈ (one ks).matches', w ∈ (one ls).matches' := by
  intro w hw
  obtain ⟨k, hk, rfl⟩ := mem_one.1 hw
  exact mem_one.2 ⟨k, h hk, rfl⟩

theorem mem_many {ks w : List Kind} : w ∈ (many ks).matches' ↔ ∀ k ∈ w, k ∈ ks := by
  rw [many, RegularExpression.matches'_star, Language.mem_kstar]
  constructor
  · rintro ⟨parts, rfl, hparts⟩ k hk
    obtain ⟨part, hpart, hk⟩ := List.mem_flatten.1 hk
    obtain ⟨k', hk', rfl⟩ := mem_one.1 (hparts part hpart)
    rwa [List.mem_singleton.1 hk]
  · intro h
    refine ⟨w.map fun k => [k], by simp [← List.flatMap_def], fun part hpart => ?_⟩
    obtain ⟨k, hk, rfl⟩ := List.mem_map.1 hpart
    exact mem_one.2 ⟨k, h k hk, rfl⟩

variable {p q : Pattern} {ns ms : List Node} {n : Node} {ks ls : List Kind}

theorem Listed.append (h : Listed p ns) (h' : Listed q ms) : Listed (p * q) (ns ++ ms) := by
  refine ⟨?_, List.forall_mem_append.2 ⟨h.2, h'.2⟩⟩
  rw [List.map_append]
  exact Language.append_mem_mul h.1 h'.1

theorem Listed.mono (h : Listed p ns) (hpq : ∀ w ∈ p.matches', w ∈ q.matches') : Listed q ns :=
  ⟨hpq _ h.1, h.2⟩

theorem listed_nil : Listed 1 [] := ⟨rfl, List.forall_mem_nil _⟩

theorem listed_one : Listed (one ks) [n] ↔ n.kind ∈ ks ∧ n.Drafted := by
  rw [Listed, List.forall_mem_singleton, List.map_singleton, mem_one]
  refine and_congr ⟨?_, fun h => ⟨_, h, rfl⟩⟩ Iff.rfl
  rintro ⟨k, hk, he⟩
  rwa [List.head_eq_of_cons_eq he]

theorem listed_many : Listed (many ks) ns ↔ ∀ n ∈ ns, n.kind ∈ ks ∧ n.Drafted := by
  rw [Listed, mem_many, List.forall_mem_map]
  exact ⟨fun h n hn => ⟨h.1 n hn, h.2 n hn⟩, fun h => ⟨fun n hn => (h n hn).1, fun n hn => (h n hn).2⟩⟩

theorem Listed.widen (h : Listed (many ks) ns) (hks : ks ⊆ ls) : Listed (many ls) ns :=
  listed_many.2 fun n hn => ⟨hks (listed_many.1 h n hn).1, (listed_many.1 h n hn).2⟩

theorem Listed.left (h : Listed p ns) : Listed (p + q) ns := h.mono fun _ hw => Or.inl hw

theorem Listed.right (h : Listed q ns) : Listed (p + q) ns := h.mono fun _ hw => Or.inr hw

theorem Listed.maybe (h : Listed p ns) : Listed (maybe p) ns := h.right

theorem listed_maybe_nil : Listed (maybe p) [] := listed_nil.left

theorem Listed.star_append (h : Listed p.star ns) (h' : Listed p ms) : Listed p.star (ns ++ ms) := by
  refine ⟨?_, List.forall_mem_append.2 ⟨h.2, h'.2⟩⟩
  rw [List.map_append, RegularExpression.matches'_star]
  have hle : p.matches'∗ * p.matches' ≤ p.matches'∗ := kstar_mul_le_kstar
  exact hle (Language.append_mem_mul h.1 h'.1)

theorem Listed.append_many (h : Listed (p * many ks) ns) (h' : Listed (many ks) ms) :
    Listed (p * many ks) (ns ++ ms) := by
  refine (h.append h').mono fun w hw => ?_
  change w ∈ p.matches' * (one ks).matches'∗ * (one ks).matches'∗ at hw
  rwa [mul_assoc, kstar_mul_kstar] at hw

theorem listed_star_nil : Listed p.star [] := ⟨Language.nil_mem_kstar _, List.forall_mem_nil _⟩

end Node

/-! ## What builders make -/

open Node Node.Kind

/-- The nodes inside a construct. -/
def Interior.pattern : Interior → Pattern
  | .group => many preludeParts
  | .arguments _ => many argumentParts
  | .block _ | .rules _ | .keyframes _ => Kind.block.content
  | .selectors => Kind.selectors
  | .var => one [.var]

section
variable {ts : Tokens} {capped : Bool} (A : Reading ts capped)

/-- What is known of an inside: where it was read by the lookahead, which tokens it stands for, and
what its nodes are. A variable inside a second one holds no third one. -/
structure Interior.Formed (part : Interior) (i : Nat) (x : List Node × Nat) : Prop where
  filled : part.Ready A i → part.Filled A i x
  listed : part ≠ .var → Listed part.pattern x.1
  var : part = .var → 0 < A.len .var i → Listed (one [.var]) x.1 ∧
    (ts.is (i - 1) .atSign = true → 1 ≤ i → ∀ n ∈ x.1, n.varDepth ≤ 1)

/-- The program, run with the answers of the reading, ends with a result that satisfies `Q` or
fails. -/
def Plan.Ensures {α : Type} : Plan α → (α → Prop) → Prop
  | .done a, Q => Q a
  | .fail _, _ => True
  | .look q next, Q => (next (A.value q)).Ensures Q
  | .ask r i next, Q => (next (A.tell r i)).Ensures Q
  | .build part i next, Q => ∀ x, part.Formed A i x → (next x).Ensures Q
  | .check _ next, Q => next.Ensures Q
  | .made _ next, Q => next.Ensures Q

end

namespace Plan

variable {α β : Type} {ts : Tokens} {capped : Bool} {A : Reading ts capped}

theorem Ensures.mono {p : Plan α} {Q R : α → Prop} (h : p.Ensures A Q) (hQ : ∀ a, Q a → R a) :
    p.Ensures A R := by
  induction p with
  | done a => exact hQ a h
  | fail i => trivial
  | look q next ih => exact ih _ h
  | ask r i next ih => exact ih _ h
  | build part i next ih => exact fun x hx => ih x (h x hx)
  | check holds next ih => exact ih h
  | made node next ih => exact ih h

theorem ensures_bind {p : Plan α} {f : α → Plan β} {Q : β → Prop} :
    (p >>= f).Ensures A Q ↔ p.Ensures A fun a => (f a).Ensures A Q := by
  change (p.bind f).Ensures A Q ↔ _
  induction p with
  | done a => exact Iff.rfl
  | fail i => exact Iff.rfl
  | look q next ih => exact ih _
  | ask r i next ih => exact ih _
  | build part i next ih => exact forall_congr' fun x => imp_congr Iff.rfl (ih x)
  | check holds next ih => exact ih
  | made node next ih => exact ih

/-- A program that meets a contract also ensures what the contract says. -/
theorem Meets.and_ensures {E : Nat → Prop} {lo : Nat} {p : Plan α} {Q R : α → Prop}
    (h : p.Meets A E lo Q) (h' : p.Ensures A R) : p.Ensures A fun a => Q a ∧ R a := by
  induction p with
  | done a => exact ⟨h, h'⟩
  | fail i => trivial
  | look q next ih => exact ih _ h.2 h'
  | ask r i next ih => exact ih _ h h'
  | build part i next ih => exact fun x hx => ih x (h.2 x (hx.filled h.1.2.2)) (h' x hx)
  | check holds next ih => exact ih h.2 h'
  | made node next ih => exact ih h.2 h'

/-- A program that runs on the plain functions of the stream ends as it ensures, if insides are
formed. -/
theorem Ensures.run {build : Interior → Nat → Except Error (List Node × Nat)}
    (hA : A.tell = Parser.meanings ts)
    (hb : ∀ part i x, build part i = .ok x → part.Formed A i x) {p : Plan α} {Q : α → Prop}
    (h : p.Ensures A Q) {a : α} (ha : p.run (plainHost ts build) = .ok a) : Q a := by
  induction p with
  | done b =>
    cases ha
    exact h
  | fail i => cases ha
  | look q next ih =>
    have hq : A.value q = q.eval ts := by
      rw [Reading.value, hA]
      rfl
    rw [Ensures, hq] at h
    exact ih _ h ha
  | ask r i next ih =>
    rw [Ensures, hA] at h
    exact ih _ h ha
  | build part i next ih =>
    change (build part i >>= fun x => (next x).run _) = .ok a at ha
    cases hx : build part i with
    | ok x =>
      rw [hx] at ha
      exact ih x (h x (hb part i x hx)) ha
    | error e =>
      rw [hx] at ha
      cases ha
  | check holds next ih => exact ih h ha
  | made node next ih => exact ih h ha

end Plan

namespace Builder

variable {α β : Type} {ts : Tokens} {capped : Bool} {A : Reading ts capped} {i j : Nat}
  {x : Builder α} {f : α → Builder β} {Q : β → Nat → Prop}

/-- What a builder that starts at token `i` ends with, if it does not fail. -/
def Ensures (A : Reading ts capped) (x : Builder α) (i : Nat) (Q : α → Nat → Prop) : Prop :=
  (x i).Ensures A fun r => Q r.1 r.2

theorem Ensures.mono {Q R : α → Nat → Prop} (h : x.Ensures A i Q) (hQ : ∀ a k, Q a k → R a k) :
    x.Ensures A i R :=
  Plan.Ensures.mono h fun r hr => hQ r.1 r.2 hr

theorem ensures_bind :
    (x >>= f).Ensures A i Q ↔ x.Ensures A i fun a j => (f a).Ensures A j Q := Plan.ensures_bind

/-! ### Single steps -/

theorem ensures_cursor {f : Nat → Builder β} :
    (cursor >>= f).Ensures A i Q ↔ (f i).Ensures A i Q := Iff.rfl

theorem ensures_skip {n : Nat} {f : Unit → Builder β} :
    (skip n >>= f).Ensures A i Q ↔ (f ()).Ensures A (i + n) Q := Iff.rfl

theorem ensures_check {b : Bool} {f : Unit → Builder β} :
    (check b >>= f).Ensures A i Q ↔ (f ()).Ensures A i Q := Iff.rfl

theorem ensures_look {q : Nat → Lookahead Nat} {f : Nat → Builder β} :
    (look q >>= f).Ensures A i Q ↔ (f (A.value (q i))).Ensures A i Q := Iff.rfl

theorem ensures_sees {q : Nat → Lookahead Nat} {f : Bool → Builder β} :
    (sees q >>= f).Ensures A i Q ↔ (f (decide (0 < A.value (q i)))).Ensures A i Q := Iff.rfl

theorem ensures_askAhead {r : Rule} {n : Nat} {f : Answer r → Builder β} :
    (askAhead r n >>= f).Ensures A i Q ↔ (f (A.tell r (i + n))).Ensures A i Q := Iff.rfl

theorem ensures_ask {r : Rule} {f : Answer r → Builder β} :
    (ask r >>= f).Ensures A i Q ↔ (f (A.tell r i)).Ensures A i Q := Iff.rfl

theorem ensures_starts {r : Rule} {f : Bool → Builder β} :
    (starts r >>= f).Ensures A i Q ↔ (f (decide (0 < A.len r i))).Ensures A i Q := Iff.rfl

theorem ensures_expectAt {f : Unit → Builder β} (h : i = j → (f ()).Ensures A i Q) :
    (expectAt j >>= f).Ensures A i Q := by
  refine ensures_bind.2 ?_
  unfold expectAt
  refine ensures_cursor.2 ?_
  split
  · trivial
  · next hij => exact h (Decidable.not_not.1 hij)

theorem ensures_choose_starts {r : Rule} {x y : Builder β} (hx : 0 < A.len r i → x.Ensures A i Q)
    (hy : A.len r i = 0 → y.Ensures A i Q) : (choose (starts r) x y).Ensures A i Q := by
  refine ensures_starts.2 ?_
  by_cases h : 0 < A.len r i
  · rw [decide_eq_true h]
    exact hx h
  · rw [decide_eq_false h]
    exact hy (by omega)

theorem ensures_choose_sees {q : Nat → Lookahead Nat} {x y : Builder β}
    (hx : 0 < A.value (q i) → x.Ensures A i Q) (hy : A.value (q i) = 0 → y.Ensures A i Q) :
    (choose (sees q) x y).Ensures A i Q := by
  refine ensures_sees.2 ?_
  by_cases h : 0 < A.value (q i)
  · rw [decide_eq_true h]
    exact hx h
  · rw [decide_eq_false h]
    exact hy (by omega)

/-! ### Productions -/

/-- The builder makes a drafted node of one of the kinds. -/
def Makes (A : Reading ts capped) (x : Builder Node) (i : Nat) (ks : List Kind) : Prop :=
  x.Ensures A i fun n _ => Listed (one ks) [n]

/-- The builder makes drafted nodes that follow the pattern. -/
def Yields (A : Reading ts capped) (x : Builder (List Node)) (i : Nat) (p : Pattern) : Prop :=
  x.Ensures A i fun ns _ => Listed p ns

section
variable {x y : Builder Node} {xs ys : Builder (List Node)} {p q : Pattern} {ks ls : List Kind}
  {k : Kind}

theorem Makes.then {f : Node → Builder β} (hx : Makes A x i ks)
    (hf : ∀ n j, Listed (one ks) [n] → (f n).Ensures A j Q) : (x >>= f).Ensures A i Q :=
  ensures_bind.2 (hx.mono fun n j hn => hf n j hn)

theorem Yields.then {f : List Node → Builder β} (hx : Yields A xs i p)
    (hf : ∀ ns j, Listed p ns → (f ns).Ensures A j Q) : (xs >>= f).Ensures A i Q :=
  ensures_bind.2 (hx.mono fun ns j hns => hf ns j hns)

theorem Makes.single (h : Makes A x i ks) : Yields A (single x) i (one ks) :=
  h.then fun _ _ hn => hn

theorem Makes.mono (h : Makes A x i ks) (hks : ks ⊆ ls) : Makes A x i ls :=
  Ensures.mono h fun _ _ hn => listed_one.2 ⟨hks (listed_one.1 hn).1, (listed_one.1 hn).2⟩

theorem Yields.widen (h : Yields A xs i (many ks)) (hks : ks ⊆ ls) : Yields A xs i (many ls) :=
  Ensures.mono h fun _ _ hn => hn.widen hks

theorem Makes.many (h : Makes A x i ks) (hks : ks ⊆ ls) : Yields A (Builder.single x) i (many ls) :=
  h.then fun n _ hn => listed_many.2 fun m hm => by
    rw [List.mem_singleton.1 hm]
    exact ⟨hks (listed_one.1 hn).1, (listed_one.1 hn).2⟩

theorem makes_leaf (hk : k.hasText = true) (n : Nat) : Makes A (leaf ts k n) i [k] :=
  listed_one.2 ⟨List.mem_singleton_self k, .leaf hk⟩

theorem makes_leafOf (hk : k.hasText = true) (q : Nat → Lookahead Nat) :
    Makes A (leafOf ts k q) i [k] := listed_one.2 ⟨List.mem_singleton_self k, .leaf hk⟩

/-- A branch that holds what its kind admits. -/
theorem Yields.branch (h : Yields A xs i k.content) (hv : k ≠ .var) :
    Makes A (branch ts k xs) i [k] := by
  refine ensures_cursor.2 (h.then fun ns _ hns => ?_)
  refine listed_one.2 ⟨List.mem_singleton_self k, .branch (Or.inl (Or.inl hns.1)) ?_ hns.2⟩
  rw [varDepth_of_ne hv]
  exact Nat.zero_le 2

/-- A branch that comes out empty, or holds what its kind admits. -/
theorem makes_branch_of_empty (hk : k ∈ mayBeEmpty)
    (h : xs.Ensures A i fun ns _ => (ns = [] ∨ k.Admits (ns.map kind)) ∧ ∀ n ∈ ns, n.Drafted) :
    Makes A (Builder.branch ts k xs) i [k] := by
  refine ensures_cursor.2 (ensures_bind.2 (h.mono fun ns _ hns => ?_))
  refine listed_one.2 ⟨List.mem_singleton_self k, .branch (hns.1.symm.imp_right (⟨·, hk⟩)) ?_ hns.2⟩
  rw [varDepth_of_ne (by rintro rfl; revert hk; decide)]
  exact Nat.zero_le 2

theorem makes_choose_starts {r : Rule} (hx : Makes A x i ks) (hy : Makes A y i ks) :
    Makes A (choose (starts r) x y) i ks := ensures_choose_starts (fun _ => hx) fun _ => hy

theorem yields_choose_starts {r : Rule} (hx : Yields A xs i p) (hy : Yields A ys i p) :
    Yields A (choose (starts r) xs ys) i p := ensures_choose_starts (fun _ => hx) fun _ => hy

theorem makes_choose_sees {q : Nat → Lookahead Nat} (hx : Makes A x i ks) (hy : Makes A y i ks) :
    Makes A (choose (sees q) x y) i ks := ensures_choose_sees (fun _ => hx) fun _ => hy

theorem Yields.optionally_starts {r : Rule} (h : Yields A xs i p) :
    Yields A (optionally (starts r) xs) i (maybe p) :=
  ensures_choose_starts (fun _ => Ensures.mono h fun _ _ hns => hns.maybe) fun _ => listed_maybe_nil

theorem Yields.optionally_sees {q : Nat → Lookahead Nat} (h : Yields A xs i p) :
    Yields A (optionally (sees q) xs) i (maybe p) :=
  ensures_choose_sees (fun _ => Ensures.mono h fun _ _ hns => hns.maybe) fun _ => listed_maybe_nil

theorem Yields.given {c : Bool} (h : Yields A xs i p) : Yields A (given c xs) i (maybe p) := by
  cases c with
  | true => exact Ensures.mono h fun _ _ hns => hns.maybe
  | false => exact listed_maybe_nil

end

/-! ### Repetition -/

theorem collectFrom_ensures {stop : Nat} {round : Builder Chunk} {I R : List Node → Nat → Prop}
    (hstop : ∀ ns j, I ns j → stop ≤ j → R ns j)
    (hround : ∀ ns j, I ns j → j < stop → round.Ensures A j fun c l =>
      if j < l ∧ c.more = true then I (ns ++ c.nodes) l else R (ns ++ c.nodes) l)
    {sofar : List Node} (hI : I sofar.reverse i) :
    (collectFrom stop round sofar i).Ensures A fun r => R r.1 r.2 := by
  fun_induction collectFrom stop round sofar i with
  | case1 sofar i hlt ih =>
    refine Plan.ensures_bind.2 (Plan.Ensures.mono (hround _ i hI hlt) fun r hr => ?_)
    obtain ⟨c, l⟩ := r
    have hall : (c.nodes.reverse ++ sofar).reverse = sofar.reverse ++ c.nodes := by
      rw [List.reverse_append, List.reverse_reverse]
    dsimp only at hr ⊢
    split
    · next hl =>
      rw [if_pos hl, ← hall] at hr
      exact ih c l hl hr
    · next hl =>
      rw [if_neg hl, ← hall] at hr
      exact hr
  | case2 sofar i hge => exact hstop _ i hI (by omega)

/-- One round of a repetition, and the rest of it. -/
theorem collectFrom_ensures_step {stop : Nat} {round : Builder Chunk} {sofar : List Node}
    {R : List Node × Nat → Prop} (hi : i < stop)
    (h : round.Ensures A i fun c l =>
      if i < l ∧ c.more = true then
        (collectFrom stop round (c.nodes.reverse ++ sofar) l).Ensures A R
      else R ((c.nodes.reverse ++ sofar).reverse, l)) :
    (collectFrom stop round sofar i).Ensures A R := by
  rw [collectFrom, dif_pos hi]
  refine Plan.ensures_bind.2 (Plan.Ensures.mono h fun r hr => ?_)
  obtain ⟨c, l⟩ := r
  dsimp only at hr ⊢
  split
  · next hl => rwa [if_pos hl] at hr
  · next hl => rwa [if_neg hl] at hr

/-- A repetition keeps the invariant `I` of its nodes and its cursor and ends with `R`. -/
theorem ensures_collect {stop : Nat} {round : Builder Chunk} {I R : List Node → Nat → Prop}
    (hstop : ∀ ns j, I ns j → stop ≤ j → R ns j)
    (hround : ∀ ns j, I ns j → j < stop → round.Ensures A j fun c l =>
      if j < l ∧ c.more = true then I (ns ++ c.nodes) l else R (ns ++ c.nodes) l) (hI : I [] i) :
    (collect stop round).Ensures A i R :=
  collectFrom_ensures hstop hround hI

theorem ensures_collectTo {stop : Nat} {round : Builder (List Node)} {I R : List Node → Nat → Prop}
    (hstop : ∀ ns j, I ns j → stop ≤ j → R ns j)
    (hround : ∀ ns j, I ns j → j < stop → round.Ensures A j fun ms l =>
      if j < l then I (ns ++ ms) l else R (ns ++ ms) l) (hI : I [] i) :
    (collectTo stop round).Ensures A i R := by
  refine ensures_collect hstop (fun ns j hns hlt => ensures_bind.2 ?_) hI
  refine (hround ns j hns hlt).mono fun ms l h => ?_
  change if j < l ∧ true = true then I (ns ++ ms) l else R (ns ++ ms) l
  simpa only [and_true] using h

theorem yields_collect {stop : Nat} {round : Builder Chunk} {ks : List Kind}
    (h : ∀ j, round.Ensures A j fun c _ => Listed (many ks) c.nodes) :
    Yields A (collect stop round) i (many ks) := by
  refine ensures_collect (I := fun ns _ => Listed (many ks) ns) (fun _ _ hns _ => hns)
    (fun ns j hns _ => (h j).mono fun c l hc => ?_) listed_star_nil
  have hall : Listed (many ks) (ns ++ c.nodes) :=
    listed_many.2 (List.forall_mem_append.2 ⟨listed_many.1 hns, listed_many.1 hc⟩)
  split <;> exact hall

theorem yields_collectTo {stop : Nat} {round : Builder (List Node)} {ks : List Kind}
    (h : ∀ j, Yields A round j (many ks)) : Yields A (collectTo stop round) i (many ks) :=
  yields_collect fun j => (h j).then fun _ _ hns => hns

theorem yields_collectTo_star {stop : Nat} {round : Builder (List Node)} {p : Pattern}
    (h : ∀ j, Yields A round j p) : Yields A (collectTo stop round) i p.star := by
  refine ensures_collectTo (I := fun ns _ => Listed p.star ns) (fun _ _ hns _ => hns)
    (fun ns j hns _ => Ensures.mono (h j) fun ms l hms => ?_) listed_star_nil
  split <;> exact hns.star_append hms

/-- A round that gives one node. -/
theorem Makes.round {x : Builder Node} {ks ls : List Kind} (h : Makes A x i ks) (hks : ks ⊆ ls) :
    (do return ⟨[← x], true⟩ : Builder Chunk).Ensures A i fun c _ => Listed (Kind.many ls) c.nodes :=
  h.then fun n _ hn => listed_many.2 fun m hm => by
    rw [List.mem_singleton.1 hm]
    exact ⟨hks (listed_one.1 hn).1, (listed_one.1 hn).2⟩

theorem ensures_round_none {ls : List Kind} :
    (return ⟨[], false⟩ : Builder Chunk).Ensures A i fun c _ => Listed (many ls) c.nodes :=
  listed_star_nil

/-! ### Where a builder stops -/

theorem GivesAll.and_ensures {x : Builder (List Node)} {Q : List Node → Nat → Prop}
    (h : GivesAll A x i j) (h' : x.Ensures A i Q) :
    x.Ensures A i fun ns k => (k = j ∧ Tiles ts i j ns) ∧ Q ns k :=
  Plan.Meets.and_ensures (h (fun _ => True) i ⟨fun _ _ => trivial, Nat.le_refl i⟩) h'

end Builder

end LessCss
