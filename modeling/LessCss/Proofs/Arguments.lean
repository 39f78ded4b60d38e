import LessCss.Proofs.Blocks
import LessCss.Proofs.Gluing
import LessCss.Proofs.Tail.Trees

/-! Argument lists. Looking ahead reads the elements of a list one by one, and so does the builder;
but the builder takes declarations first and a class as a last resort. The order changes nothing, so
both pass over the same elements up to the first class, where looking ahead gives up. -/

namespace LessCss

open Lookahead Builder Grammar Tokens Node Node.Kind

variable {ts : Tokens} {A : Reading ts false} {lo i j m c : Nat} {ns : List Node}

/-! ## One element -/

/-- A declaration is the element that is found, though another form is tried before it. -/
theorem argument_of_declaration (wm : ts.WellMarked) (h : 0 < A.len .declaration i) :
    A.len .argument i = A.len .declaration i := by
  obtain ⟨_, _, _, hproperty, _⟩ := declaration_cases wm h
  have hhead := property_head wm hproperty
  have htilde : ts.is i .tilde = false := by
    rw [Bool.eq_false_iff]
    intro hk
    obtain ⟨k, hmem, hkind⟩ := isAny_iff.1 hhead
    rw [is_iff.1 hk] at hkind
    cases hkind
    revert hmem
    decide
  have hescaped : A.value (escapedStringLength ts i) = 0 := by
    rw [escapedStringLength, A.value_pure, htilde]
    rfl
  have htell : A.tell .argument i = A.value (argumentMatch ts i) := A.tell_eq wm rfl (A.lt_of_len h)
  rw [argumentMatch, A.value_firstOf_cons, hescaped, Match.of?_zero, Option.none_or,
    A.value_firstOf_cons, A.value_lengthOf, Match.of?_pos h, Option.some_or] at htell
  rw [Reading.len, htell]
  rfl

/-- One round of the builder. -/
def argumentRound (ts : Tokens) : Builder (List Node) :=
  choose (starts .declaration) (single (declarationNode ts)) do
    match (← ask .argument).shape? with
    | some part => argumentNodes ts part
    | none => choose (starts .classSelector) (single (classNode ts)) unexpected

/-- Nodes of which none is a class. -/
theorem ne_class_of_listed (h : Listed (many (argumentParts.erase .classSelector)) ns) :
    ∀ n ∈ ns, n.kind ≠ .classSelector := by
  have hparts : ∀ k ∈ argumentParts.erase .classSelector, k ≠ .classSelector := by decide
  exact fun n hn => hparts _ (listed_many.1 h n hn).1

/-- A round takes the element that looking ahead finds, or a class where it finds none. -/
theorem argumentRound_cases (wm : ts.WellMarked) (hlo : lo ≤ i)
    (h : (argumentRound ts i).Returns A lo (ns, j)) :
    0 < A.len .argument i ∧ j = i + A.len .argument i ∧ (∀ n ∈ ns, n.kind ≠ .classSelector) ∨
      A.len .argument i = 0 ∧ i < j ∧ ∃ n ∈ ns, n.kind = .classSelector := by
  rcases Nat.eq_zero_or_pos (A.len .declaration i) with hd | hd
  · rw [argumentRound, returns_of_not_starts hd, returns_ask] at h
    cases ht : A.tell .argument i with
    | some m =>
      rw [ht] at h
      have hend : j = i + m.length := (argumentNodes_gives wm ht).ends wm hlo h
      have hlisted := Plan.Ensures.of_returns wm (argumentNodes_yields wm ht) h
      rw [Reading.len, ht]
      exact Or.inl ⟨m.length_pos, hend, ne_class_of_listed hlisted⟩
    | none =>
      have hz : A.len .argument i = 0 := by
        rw [Reading.len, ht]
        rfl
      rw [ht] at h
      change (choose (starts .classSelector) (single (classNode ts)) unexpected i).Returns A lo (ns, j)
        at h
      rcases Nat.eq_zero_or_pos (A.len .classSelector i) with hc | hc
      · rw [returns_of_not_starts hc] at h
        exact h.elim
      · rw [returns_of_starts hc] at h
        have hend : j = i + A.len .classSelector i := (classNode_gives wm hc).single.ends wm hlo h
        obtain ⟨⟨n, _⟩, hn, he⟩ := Plan.returns_bind.1 h
        obtain ⟨rfl, rfl⟩ := Prod.mk.inj he
        obtain ⟨_, _, rfl⟩ := returns_branch.1 hn
        exact Or.inr ⟨hz, by omega, _, List.mem_singleton_self _, rfl⟩
  · rw [argumentRound, returns_of_starts hd] at h
    have hend : j = i + A.len .declaration i := (declarationNode_gives wm hd).single.ends wm hlo h
    have hyields : Yields A (single (declarationNode ts)) i
        (many (argumentParts.erase .classSelector)) := (declarationNode_makes wm).many (by decide)
    have hlisted := Plan.Ensures.of_returns wm hyields h
    rw [argument_of_declaration wm hd]
    exact Or.inl ⟨hd, hend, ne_class_of_listed hlisted⟩

/-! ## Whole lists -/

theorem value_argumentsWalk (A : Reading ts false) (c j : Nat) :
    A.value (walkWhile c (lengthOf .argument) j) =
      if j < c ∧ 0 < A.len .argument j then
        A.value (walkWhile c (lengthOf .argument) (j + A.len .argument j))
      else j := by
  rw [walkWhile, A.value_walk, A.value_map, A.value_lengthOf]
  simp only [Step.go, and_true]
  split
  · next hj =>
    split
    · next hpos => rw [if_pos ⟨hj, hpos⟩]; rfl
    · next hpos =>
      rw [if_neg fun h => hpos h.2]
      omega
  · next hj => rw [if_neg fun h => hj h.1]

/-- Elements that looking ahead passes over reach the closer if there is no class among them. -/
theorem argumentsWalk_iff (wm : ts.WellMarked) (hlo : lo ≤ i)
    (h : Rounds A lo c (argumentRound ts) c i ns) :
    A.value (walkWhile c (lengthOf .argument) i) = c ↔ ∀ n ∈ ns, n.kind ≠ .classSelector := by
  induction h with
  | done _ =>
    rw [value_argumentsWalk, if_neg fun h => Nat.lt_irrefl c h.1]
    exact iff_of_true rfl (List.forall_mem_nil _)
  | @round i j front back lt first moves rest ih =>
    rw [value_argumentsWalk, List.forall_mem_append]
    rcases argumentRound_cases wm hlo first with ⟨hpos, rfl, hfront⟩ | ⟨hz, _, n, hn, hkind⟩
    · rw [if_pos ⟨lt, hpos⟩, ih (Nat.le_trans hlo (Nat.le_add_right ..)), and_iff_right hfront]
    · rw [if_neg fun h => Nat.ne_of_gt h.2 hz]
      exact iff_of_false (Nat.ne_of_lt lt) fun h => h.1 n hn hkind

/-- What stands in an argument list that is built. -/
theorem argumentsNode_cases (wm : ts.WellMarked) (h : ts.closer? i .leftParen = some c) {node : Node}
    {k : Nat} (hnode : (argumentsNode ts i).eval ts = .ok (node, k)) :
    k = c + 1 ∧ Rounds A (i + 1) c (argumentRound ts) c (i + 1) node.children := by
  have hlt := wm.closer_lt h
  have hentered : ts.Entered (i + 1) := ⟨i, .leftParen, c, rfl, rfl, h⟩
  have hmeets := argumentsNode_gives (A := A) wm h (fun _ => True) i
    ⟨fun _ _ => trivial, Nat.le_refl i⟩
  rw [Plan.Meets.eval_eq_ok_iff wm hmeets, argumentsNode, returns_branch] at hnode
  obtain ⟨ns, hns, rfl⟩ := hnode
  obtain ⟨j, hfill, rfl⟩ := (returns_enclosed h).1 hns
  obtain ⟨rfl, _, hmeaning⟩ := returns_filling.1 hfill
  have hready : (Interior.arguments j).Ready A (i + 1) := hentered
  rw [Interior.meaning_eq_ok_iff (A := A) wm hready] at hmeaning
  refine ⟨rfl, (returns_collectTo_iff (Nat.le_refl (i + 1)) fun m front l hm _ hl => ?_).1 hmeaning⟩
  rcases argumentRound_cases wm hm hl with ⟨hpos, rfl, _⟩ | ⟨_, hml, _⟩
  · exact ⟨Nat.lt_add_of_pos_right hpos, Nat.le_trans hm (Nat.le_add_right ..)⟩
  · exact ⟨hml, Nat.le_trans hm (Nat.le_of_lt hml)⟩

/-- Where an argument list is built, looking ahead covers it if there is no class in it, and nothing
otherwise. -/
theorem arguments_len (wm : ts.WellMarked) (h : ts.closer? i .leftParen = some c)
    (hns : Rounds A (i + 1) c (argumentRound ts) c (i + 1) ns) :
    A.len .arguments i = if ∀ n ∈ ns, n.kind ≠ .classSelector then c + 1 - i else 0 := by
  have hlt := wm.closer_lt h
  rw [A.len_of_sole (r := .arguments) (u := ()) wm rfl (Nat.lt_trans hlt.1 hlt.2) rfl,
    argumentsLength, h]
  change A.value (walkWhile c (lengthOf .argument) (i + 1) >>= fun stop =>
    if stop = c then tokensBetween i (c + 1) else return 0) = _
  rw [A.value_bind]
  have hiff := argumentsWalk_iff wm (Nat.le_refl (i + 1)) hns
  split
  · next hstop => rw [if_pos (hiff.1 hstop), A.value_tokensBetween]
  · next hstop => rw [if_neg (mt hiff.2 hstop), A.value_pure]

/-! ## Functions -/

section
variable {name args : List Token} {id node : Node}

/-- An argument list is told by its first token. -/
theorem exists_cons_of_arguments (h : parse (Token.link args) none .arguments = .ok node) :
    ∃ t rest, args = t :: rest ∧ t.kind = .leftParen ∧
      Tokens.closer? (Token.link args) 0 .leftParen = some rest.length := by
  have wm := Token.link_wellMarked args
  obtain ⟨A, -⟩ := Parser.exists_plain_reading wm
  obtain ⟨hpos, hcover, -⟩ := (Parser.parse_rule_iff (r := .arguments) wm A (by decide) rfl).1 h
  rw [Token.size_link] at hpos hcover
  obtain ⟨c, hclose, hc⟩ := arguments_cases (A := A) (i := 0) wm (by omega)
  obtain ⟨t, rest, rfl⟩ := List.exists_cons_of_length_pos hpos
  have hkind := is_iff.1 (is_of_closer? hclose)
  rw [Token.kind?_link] at hkind
  rw [hcover, List.length_cons] at hc
  obtain rfl : rest.length = c := by omega
  exact ⟨t, rest, rfl, Option.some.inj hkind, hclose⟩

/-- A name ends at a parenthesis behind it. -/
theorem identNode_before_paren {t : Token} {rest : List Token} (ht : t.kind = .leftParen)
    (B : Reading (Token.link (name ++ t :: rest)) false)
    (h : parse (Token.link name) none .ident = .ok id) :
    0 < name.length ∧ B.len .ident 0 = name.length ∧
      (identNode (Token.link (name ++ t :: rest)) 0).Returns B 0 (id, name.length) := by
  have wm := Token.link_wellMarked name
  obtain ⟨A, -⟩ := Parser.exists_plain_reading wm
  obtain ⟨hpos, hcover, k, hid⟩ := (Parser.parse_rule_iff (r := .ident) wm A (by decide) rfl).1 h
  rw [Token.size_link] at hpos hcover
  have hrecurs : Tokens.Recurs nameWalls (Token.link name) (Token.link (name ++ t :: rest)) 0 0
      name.length := Token.link_recurs [] name (t :: rest) fun u hu => by
    cases hu
    rw [ht]
    decide
  have hagrees := (ident_and_interpolation_agree (A := A) (B := B) hrecurs (Nat.le_refl 0)
    (Nat.zero_le _)).1
  obtain ⟨id', hid', hcopy⟩ := identNode_copies_of_agrees (s := 0) hrecurs hagrees (Nat.le_refl 0)
    (by omega)
  cases (hid'.eval wm).symm.trans hid
  rw [hcover, Nat.zero_add, Nat.zero_add, Nat.zero_add] at hcopy
  exact ⟨hpos, hagrees.len.trans hcover, hcopy⟩

/-- A name and an argument list behind it are a function. -/
theorem parse_function (hname : parse (Token.link name) none .ident = .ok id)
    (hargs : parse (Token.link args) none .arguments = .ok node) :
    parse (Token.link (name ++ args)) none .function =
      .ok (.branch .function [id, node] id.start) := by
  have wm := Token.link_wellMarked (name ++ args)
  obtain ⟨B, -⟩ := Parser.exists_plain_reading wm
  obtain ⟨t, rest, rfl, ht, hclose⟩ := exists_cons_of_arguments hargs
  obtain ⟨-, -, k, hnode⟩ :=
    (Parser.parse_eq_ok_iff (Token.link_wellMarked _) (by decide)).1 hargs
  obtain ⟨hpos, hlen, hid⟩ := identNode_before_paren ht B hname
  have htail : Tokens.Tail name.length (Token.link (t :: rest)) (Token.link (name ++ t :: rest)) :=
    Token.link_tail name (by rw [ht]; decide)
  have hclose' := htail.closer? 0 .leftParen
  rw [hclose, Option.map_some, Nat.add_zero] at hclose'
  have harguments : (argumentsNode (Token.link (name ++ t :: rest)) name.length).Returns B 0
      (node, name.length + k) := by
    have hmeets := argumentsNode_gives (A := B) wm hclose' (fun _ => True) 0
      ⟨fun _ _ => trivial, Nat.zero_le _⟩
    rw [← Plan.Meets.eval_eq_ok_iff wm hmeets]
    have hmoves := argumentsNode_moves htail 0 (Nat.le_refl 0)
    exact (hmoves.eval htail (Token.link_wellMarked _)).ok_iff.1 hnode
  have hfunction : B.value (functionLength (Token.link (name ++ t :: rest)) 0) =
      (name ++ t :: rest).length := by
    obtain ⟨n, hn⟩ := Nat.exists_eq_add_one.2 hpos
    rw [functionLength, B.value_bind, B.value_lengthOf, hlen, hn]
    change B.value (throughCloser _ .leftParen 0 (0 + (n + 1))) = _
    rw [← hn, Nat.zero_add, throughCloser, hclose', List.length_append, List.length_cons]
    rfl
  have hstart : id.start = Tokens.position (Token.link (name ++ t :: rest)) 0 := by
    rw [← (Prod.mk.inj hid).1]
    rfl
  have hbuilt : (functionNode (Token.link (name ++ t :: rest)) 0).Returns B 0
      (.branch .function [id, node] id.start, name.length + k) :=
    returns_branch.2 ⟨_, Plan.Returns.bind hid (Plan.Returns.bind harguments rfl), by rw [hstart]⟩
  rw [Parser.parse_eq_ok_iff wm (by decide), Token.size_link, ← Parser.value_eq_eval wm B]
  exact ⟨by rw [List.length_append]; omega, Nat.le_of_eq hfunction.symm, _, hbuilt.eval wm⟩

end

namespace Parser

/-- In every state that a parse without a cap can be in, and at every parenthesis that has a closer:
an argument list that is built ends behind the closer, and looking ahead covers it if no child of it
is a class, and nothing otherwise. And the tokens of a name with those of an argument list behind
them are a function of the same name and arguments. -/
theorem arguments_differ_by_classes :
    (∀ (tokens : List Token) (s : State), Reachable (Token.link tokens) none s →
      ∀ i c : Nat, Tokens.closer? (Token.link tokens) i .leftParen = some c →
      ∀ (depth : Nat) (node : Node) (k : Nat),
        (((argumentsNode (Token.link tokens) i).run (host (Token.link tokens) none fun part j =>
          construct (Token.link tokens) none part j depth)).run s).1 = .ok (node, k) →
        k = c + 1 ∧
          ((∀ n ∈ node.children, n.kind ≠ .classSelector) →
            (answer (Token.link tokens) none .arguments i depth s).1.length = c + 1 - i) ∧
          ((∃ n ∈ node.children, n.kind = .classSelector) →
            (answer (Token.link tokens) none .arguments i depth s).1.length = 0)) ∧
    ∀ (name args : List Token) (id node : Node),
      LessCss.parse (Token.link name) none .ident = .ok id →
      LessCss.parse (Token.link args) none .arguments = .ok node →
      LessCss.parse (Token.link (name ++ args)) none .function =
        .ok (.branch .function [id, node] id.start) := by
  refine ⟨fun tokens s hs i c h depth node k hnode => ?_, fun _ _ _ _ => parse_function⟩
  have wm := Token.link_wellMarked tokens
  have htransparent := hs.transparent wm
  obtain ⟨A, hA⟩ := exists_plain_reading wm
  rw [htransparent.built] at hnode
  obtain ⟨rfl, hrounds⟩ := argumentsNode_cases (A := A) wm h hnode
  have hlen := arguments_len wm h hrounds
  have hanswer : (answer (Token.link tokens) none .arguments i depth s).1.length =
      A.len .arguments i := by
    rw [htransparent.answered, Reading.len, hA]
  rw [hanswer, hlen]
  refine ⟨rfl, fun hno => if_pos hno, fun hclass => if_neg fun hno => ?_⟩
  obtain ⟨n, hn, hkind⟩ := hclass
  exact hno n hn hkind

/-- A class in an argument list is built and not found by looking ahead; without it the list is
found, and with a name before it, it is a function. -/
theorem arguments_differ_by_classes_mixed :
    let ts := Token.lex "(.a;b)"
    let node : Node := .branch .arguments
      [.branch .classSelector [.leaf .ident "a" ⟨1, 3⟩] ⟨1, 2⟩,
       .leaf .declarationDelimiter ";" ⟨1, 4⟩, .leaf .ident "b" ⟨1, 5⟩] ⟨1, 1⟩
    let plain : Node := .branch .arguments [.leaf .ident "b" ⟨1, 2⟩] ⟨1, 1⟩
    (((argumentsNode ts 0).run (host ts none fun part j => construct ts none part j 0)).run
      (.start 6)).1 = .ok (node, 6) ∧
    (answer ts none .arguments 0 0 (.start 6)).1.length = 0 ∧
    LessCss.parse (Token.link ((Token.lex "f").toList ++ (Token.lex "(b)").toList)) none .function =
      .ok (.branch .function [.leaf .ident "f" ⟨1, 1⟩, plain] ⟨1, 1⟩) := by
  intro ts node plain
  have hreach : Reachable ts none (.start 6) := by
    rw [show 6 = ts.size by decide +kernel]
    exact .refl
  have hcloser : ts.closer? 0 .leftParen = some 5 := by decide +kernel
  have hbuilt : (((argumentsNode ts 0).run (host ts none fun part j =>
      construct ts none part j 0)).run (.start 6)).1 = .ok (node, 6) := by decide +kernel
  have hanswer := arguments_differ_by_classes.1 _ _ hreach 0 5 hcloser 0 node 6 hbuilt
  refine ⟨hbuilt, hanswer.2.2 ⟨_, List.mem_cons_self .., rfl⟩, ?_⟩
  exact arguments_differ_by_classes.2 _ _ (.leaf .ident "f" ⟨1, 1⟩) plain (by decide +kernel)
    (by decide +kernel)

end Parser

end LessCss
