import LessCss.Proofs.Build.Spacing
import LessCss.Proofs.Links
import LessCss.Proofs.Variables
import Mathlib.Data.List.SplitBy
import Mathlib.Order.Bounds.Defs

/-! Runs of spacing. White space is linked to the last token of its run, and the lookahead and the
builder both go by these links, from any token of a run on. They cover the same tokens: the lookahead
measures the longest run of white space and comments, and the builder makes one node of each run of
white space in it and one of each comment, in their order. -/

namespace LessCss

/-! ## Links of white space -/

namespace Token

variable {tokens : List Token} {i e : Nat}

/-- Linking white space changes the run ends of white space and nothing else. -/
theorem foldr_linkRun_getElem? {ts : List Token} {k : Nat} {t : Token} (n : Nat)
    (ht : ts[k]? = some t) : ∃ e, ((ts.zipIdx n).foldr linkRun (none, [])).2[k]? =
      some (if t.kind.isWhitespace = true then { t with runEnd := some e } else t) := by
  induction ts generalizing n k with
  | nil => cases ht
  | cons u ts ih =>
    rw [List.zipIdx_cons, List.foldr_cons]
    generalize hbehind : (ts.zipIdx (n + 1)).foldr linkRun (none, []) = behind
    obtain ⟨run, done⟩ := behind
    cases k with
    | zero =>
      cases ht
      refine ⟨run.getD n, ?_⟩
      unfold linkRun
      dsimp only
      split <;> rfl
    | succ k =>
      obtain ⟨e, he⟩ := ih (n + 1) ht
      rw [hbehind] at he
      refine ⟨e, ?_⟩
      unfold linkRun
      dsimp only
      split <;> exact he

/-- The last token of a run is the greatest index up to which there is only white space. -/
theorem RunTo.isGreatest (h : RunTo tokens 0 i e) :
    IsGreatest {m | i ≤ m ∧ ∀ j, i ≤ j → j ≤ m → White tokens j} e := by
  refine ⟨⟨h.le, h.white⟩, fun e' ⟨_, hwhite⟩ => Nat.le_of_not_lt fun hlt => ?_⟩
  exact h.stop (hwhite (e + 1) (Nat.le_succ_of_le h.le) hlt)

theorem markRuns_getElem?_of_white {t : Token} (ht : tokens[i]? = some t)
    (hw : t.kind.isWhitespace = true) :
    ∃ e, IsGreatest {m | i ≤ m ∧ ∀ j, i ≤ j → j ≤ m → White tokens j} e ∧
      (markRuns tokens)[i]? = some { t with runEnd := some e } := by
  obtain ⟨e, he⟩ := foldr_linkRun_getElem? 0 ht
  rw [if_pos hw] at he
  obtain ⟨e', he', hrun⟩ := (foldr_runs tokens 0).runEnd i _ he hw
  cases he'
  rw [Nat.zero_add] at hrun
  exact ⟨e, hrun.isGreatest, he⟩

theorem markRuns_getElem?_of_not_white {t : Token} (ht : tokens[i]? = some t)
    (hw : t.kind.isWhitespace = false) : (markRuns tokens)[i]? = some t := by
  obtain ⟨e, he⟩ := foldr_linkRun_getElem? 0 ht
  rw [hw, if_neg Bool.false_ne_true] at he
  exact he

/-- Two tokens that, side by side, are of one run of white space. -/
def bothWhite (t u : Token) : Bool := t.kind.isWhitespace && u.kind.isWhitespace

end Token

open Lookahead Builder Grammar Tokens

variable {ts : Tokens} {i j k : Nat}

/-! ## Groups of tokens -/

/-- The node that is made of a group of tokens: of a run of white space as it stands, or of a
comment without its marks. -/
inductive Node.OfSpacing : List Token → Node → Prop
  | space {run : List Token} {first : Token} (head : run.head? = some first)
    (white : ∀ t ∈ run, t.kind.isWhitespace = true) :
    OfSpacing run (.leaf .space (String.join (run.map Token.text)) first.start)
  | blockComment {t : Token} (kind : t.kind = .blockComment) :
    OfSpacing [t] (.leaf .blockComment (Text.dropBack "*/" (Text.dropFront "/*" t.text)) t.start)
  | lineComment {t : Token} (kind : t.kind = .lineComment) :
    OfSpacing [t] (.leaf .lineComment (Text.dropFront "//" t.text) t.start)

namespace Tokens

/-- The tokens from `i` up to `j` in groups: each run of white space is one, and so is each other
token. -/
def groups (ts : Tokens) (i j : Nat) : List (List Token) :=
  (ts.extract i j).toList.splitBy Token.bothWhite

theorem groups_self (i : Nat) : ts.groups i i = [] := by
  simp [groups]

theorem head?_extract (hij : i < j) : (ts.extract i j).toList.head? = ts[i]? := by
  rw [List.head?_eq_getElem?, Array.getElem?_toList]
  simp [Array.getElem?_extract]
  omega

/-- Tokens at the front are a group of their own if they are of one run and the token behind them
does not go on with it. -/
theorem groups_of_run (hij : i < j) (hjk : j ≤ k) (hi : i < ts.size)
    (hrun : (ts.extract i j).toList.IsChain fun t u => Token.bothWhite t u = true)
    (hstop : ∀ t ∈ (ts.extract i j).toList, ∀ u, ts[j]? = some u → Token.bothWhite t u = false) :
    ts.groups i k = (ts.extract i j).toList :: ts.groups j k := by
  have hcut : ∀ t ∈ (ts.extract i j).toList.getLast?, ∀ u ∈ (ts.extract j k).toList.head?,
      Token.bothWhite t u = false := by
    intro t ht u hu
    rcases Nat.eq_or_lt_of_le hjk with rfl | hjk
    · simp at hu
    · rw [head?_extract hjk] at hu
      exact hstop t (List.mem_of_getLast? ht) u hu
  have hne : (ts.extract i j).toList ≠ [] := by
    simp
    omega
  rw [groups, ← extract_append hij.le hjk, Array.toList_append, List.splitBy_append hcut,
    List.splitBy_of_isChain hne hrun]
  rfl

theorem white_of_mem_extract {t : Token} (h : t ∈ (ts.extract i (ts.spanEnd blankKinds i)).toList) :
    t.kind.isWhitespace = true := by
  obtain ⟨m, him, hm, ht⟩ := mem_extract h
  obtain ⟨u, hu, hw⟩ := blank_iff.2 (isAny_of_lt_spanEnd him hm)
  rw [ht] at hu
  cases hu
  exact hw

theorem groups_of_white (hi : ts.isAny i blankKinds = true) (hk : ts.spanEnd blankKinds i ≤ k) :
    ts.groups i k = (ts.extract i (ts.spanEnd blankKinds i)).toList ::
      ts.groups (ts.spanEnd blankKinds i) k := by
  refine groups_of_run (lt_spanEnd hi) hk (lt_of_isAny hi) ?_ ?_
  · refine (List.pairwise_of_forall_mem_list fun t ht u hu => ?_).isChain
    rw [Token.bothWhite, white_of_mem_extract ht, white_of_mem_extract hu]
    rfl
  · intro t _ u hu
    have hstop : ts.isAny (ts.spanEnd blankKinds i) blankKinds = false := not_isAny_spanEnd
    have hw : u.kind.isWhitespace = false := Bool.eq_false_iff.2 fun hw => by
      rw [blank_iff.1 ⟨u, hu, hw⟩] at hstop
      cases hstop
    rw [Token.bothWhite, hw, Bool.and_false]

theorem groups_of_single {t : Token} (ht : ts[i]? = some t) (hw : t.kind.isWhitespace = false)
    (hk : i < k) : ts.groups i k = [t] :: ts.groups (i + 1) k := by
  have hsingle : (ts.extract i (i + 1)).toList = [t] := by rw [extract_single ht]
  rw [← hsingle]
  refine groups_of_run (Nat.lt_succ_self i) hk (lt_of_getElem? ht) ?_ ?_
  · rw [hsingle]
    exact List.isChain_singleton t
  · rw [hsingle]
    intro u hu v _
    rw [List.mem_singleton.1 hu, Token.bothWhite, hw]
    rfl

end Tokens

/-! ## Pieces -/

/-- The group `run` is what stands from token `i` up to token `j`, it is the first one there, and
`node` is made of it. -/
structure SpacingPiece (ts : Tokens) (i j : Nat) (run : List Token) (node : Node) : Prop where
  lt : i < j
  spacing : ∀ m, i ≤ m → m < j → ts.isAny m spacingKinds = true
  first : ∀ k, j ≤ k → ts.groups i k = run :: ts.groups j k
  made : Node.OfSpacing run node

theorem spacingPiece_of_white {t : Token} (ht : ts[i]? = some t)
    (hi : ts.isAny i blankKinds = true) : SpacingPiece ts i (ts.spanEnd blankKinds i)
      (ts.extract i (ts.spanEnd blankKinds i)).toList
      (.leaf .space (ts.join i (ts.spanEnd blankKinds i)) t.start) where
  lt := lt_spanEnd hi
  spacing _ hm hm' := (blank_iff.2 (isAny_of_lt_spanEnd hm hm')).isAny
  first _ hk := groups_of_white hi hk
  made := .space ((head?_extract (lt_spanEnd hi)).trans ht) fun _ => white_of_mem_extract

theorem spacingPiece_of_comment {t : Token} {node : Node} (ht : ts[i]? = some t)
    (hk : t.kind ∈ [Token.Kind.blockComment, .lineComment]) (hnode : Node.OfSpacing [t] node) :
    SpacingPiece ts i (i + 1) [t] node where
  lt := Nat.lt_succ_self i
  spacing m _ _ := by
    obtain rfl : m = i := by omega
    refine isAny_iff.2 ⟨t.kind, ?_, by rw [kind?, ht]; rfl⟩
    revert hk
    cases t.kind <;> decide
  first _ hk' := by
    refine groups_of_single ht ?_ hk'
    revert hk
    cases t.kind <;> decide
  made := hnode

/-! ## What is built -/

namespace Parser

variable {limit : Option Nat} {build : Interior → Nat → Action (List Node × Nat)} {s : State}

/-- A program goes on from a first part that neither asks nor fails. -/
theorem host_run_bind_pure {α β : Type} {p : Plan α} {a : α} (f : α → Plan β)
    (h : p.run (host ts limit build) = pure a) :
    (p.bind f).run (host ts limit build) = (f a).run (host ts limit build) := by
  have hbind := Plan.run_bind (host ts limit build) (fun _ _ _ _ => rfl) p f
  rw [h, pure_bind] at hbind
  exact hbind

/-- A condition that holds changes nothing. -/
theorem check_true : check true = pure () := by
  funext s
  change ((), { s with broken := s.broken || !true }) = ((), s)
  rw [Bool.not_true, Bool.or_false]

/-- The node of a run of white space. -/
theorem spaceNode_run (wm : ts.WellMarked) (h : ts.isAny i blankKinds = true) :
    (spaceNode ts i).run (host ts limit build) =
      pure (.leaf .space (ts.join i (ts.spanEnd blankKinds i)) (ts.position i),
        ts.spanEnd blankKinds i) := by
  have hlook : (host ts limit build).look (spaceLength ts i) =
      pure (ts.spanEnd blankKinds i - i) := by
    change ExceptT.lift ((spaceLength ts i).run (oracle ts limit)) = _
    rw [spaceLength_eq wm i, if_pos h]
    rfl
  change ((host ts limit build).look (spaceLength ts i) >>= fun n =>
    (pure (Node.leaf .space (ts.join i (i + n)) (ts.position i), i + n) : Action _)) = _
  rw [hlook, pure_bind, Nat.add_sub_of_le (le_spanEnd ts blankKinds i)]

/-- A round of the builder of spacing makes a node of the first group of what is left. -/
theorem spacingChunk_run (wm : ts.WellMarked) (h : ts.isAny i spacingKinds = true) :
    ∃ j run node, SpacingPiece ts i j run node ∧
      (spacingChunk ts (ts.kind? i) i).run (host ts limit build) = pure (⟨[node], true⟩, j) := by
  obtain ⟨t, ht⟩ : ∃ t, ts[i]? = some t := ⟨_, Array.getElem?_eq_getElem (lt_of_isAny h)⟩
  have hkind : ts.kind? i = some t.kind := by rw [kind?, ht, Option.map_some]
  have hstart : ts.position i = t.start := by rw [position, ht, Option.map_some, Option.getD_some]
  have htext : ts.text i = t.text := by rw [text, ht, Option.map_some, Option.getD_some]
  rcases spacing_cases.1 h with hb | hk | hk
  · refine ⟨_, _, _, spacingPiece_of_white ht hb, ?_⟩
    rw [spacingChunk_of_blank hb, ← hstart]
    exact host_run_bind_pure (fun y : Node × Nat => .done (Chunk.mk [y.1] true, y.2))
      (spaceNode_run wm hb)
  · have hblock : t.kind = .blockComment := Option.some.inj (hkind.symm.trans hk)
    refine ⟨_, _, _, spacingPiece_of_comment ht (by rw [hblock]; decide) (.blockComment hblock), ?_⟩
    rw [hk, ← htext, ← hstart]
    rfl
  · have hline : t.kind = .lineComment := Option.some.inj (hkind.symm.trans hk)
    refine ⟨_, _, _, spacingPiece_of_comment ht (by rw [hline]; decide) (.lineComment hline), ?_⟩
    rw [hk, ← htext, ← hstart]
    rfl

/-- The rounds of the builder of spacing, from any token on and after any nodes. -/
theorem collectFrom_spacing_run (wm : ts.WellMarked) (sofar : List Node) (i : Nat) :
    ∃ nodes, (collectFrom ts.size (cursor >>= fun j => spacingChunk ts (ts.kind? j)) sofar i).run
        (host ts limit build) = pure (sofar.reverse ++ nodes, ts.spanEnd spacingKinds i) ∧
      List.Forall₂ Node.OfSpacing (ts.groups i (ts.spanEnd spacingKinds i)) nodes := by
  generalize hn : ts.size - i = n
  induction n using Nat.strongRecOn generalizing sofar i with
  | ind n ih =>
    cases hany : ts.isAny i spacingKinds with
    | false =>
      rw [spanEnd_eq_self hany, groups_self]
      refine ⟨[], ?_, .nil⟩
      rw [List.append_nil, collectFrom]
      split
      · have hround : ((cursor >>= fun j => spacingChunk ts (ts.kind? j) : Builder Chunk) i).run
            (host ts limit build) = pure (⟨[], false⟩, i) := by
          change (spacingChunk ts (ts.kind? i) i).run _ = _
          rw [spacingChunk_of_other hany]
          rfl
        rw [host_run_bind_pure _ hround]
        dsimp only
        rw [dif_neg fun h => Bool.false_ne_true h.2]
        change (ExceptT.lift (check true) >>= fun _ => pure (sofar.reverse, i) : Action _) = _
        rw [check_true]
        rfl
      · rfl
    | true =>
      have hi := lt_of_isAny hany
      obtain ⟨j, run, node, hpiece, hround⟩ := spacingChunk_run wm hany
      have hij := hpiece.lt
      obtain ⟨nodes, hrest, hnodes⟩ := ih _ (by omega) ([node].reverse ++ sofar) j rfl
      rw [spanEnd_of_run hij.le hpiece.spacing, hpiece.first _ (le_spanEnd ts spacingKinds j)]
      refine ⟨node :: nodes, ?_, .cons hpiece.made hnodes⟩
      have hround' : ((cursor >>= fun j => spacingChunk ts (ts.kind? j) : Builder Chunk) i).run
          (host ts limit build) = pure (⟨[node], true⟩, j) := hround
      rw [collectFrom, dif_pos hi, host_run_bind_pure _ hround']
      dsimp only
      rw [dif_pos ⟨hij, rfl⟩, hrest, List.reverse_append, List.reverse_reverse, List.append_assoc]
      rfl

/-- The builder of spacing makes a node of each group up to the first token that is not spacing. -/
theorem spacingNodes_run (wm : ts.WellMarked) (limit : Option Nat)
    (build : Interior → Nat → Action (List Node × Nat)) (i : Nat) : ∃ nodes,
    (spacingNodes ts i).run (host ts limit build) = pure (nodes, ts.spanEnd spacingKinds i) ∧
    List.Forall₂ Node.OfSpacing (ts.groups i (ts.spanEnd spacingKinds i)) nodes :=
  collectFrom_spacing_run wm [] i

/-- Looking ahead for spacing covers the run of its tokens, in every sound state. -/
theorem State.Sound.spacing_length (wm : ts.WellMarked) (hs : s.Sound ts) (limit : Option Nat)
    (i depth : Nat) :
    i + (answer ts limit .spacing i depth s).1.length = ts.spanEnd spacingKinds i := by
  obtain ⟨A, hA⟩ := exists_reading_of_answer wm hs limit .spacing i depth
  rw [hA]
  exact len_spacing wm A i

theorem isGreatest_spacing {n : Nat} (h : i + n = ts.spanEnd spacingKinds i) :
    IsGreatest {k | ∀ j, i ≤ j → j < i + k → ts.isAny j spacingKinds = true} n := by
  refine ⟨fun j hj hj' => isAny_of_lt_spanEnd hj (by omega), fun n' hn' => ?_⟩
  refine Nat.le_of_not_lt fun hlt => ?_
  have hout : ts.isAny (ts.spanEnd spacingKinds i) spacingKinds = false := not_isAny_spanEnd
  rw [hn' _ (by omega) (by omega)] at hout
  cases hout

/-- In tokens without run ends, linking gives each white space token the greatest index up to which
there is only white space, and no other token a run end. So in every stream of a source, in every
state that a parse can be in and from every token on, the lookahead covers as many tokens as there
are white space and comments in a row; and the builder moves behind these tokens, changes nothing
else, and makes one node of each run of white space and one of each comment, in their order. -/
theorem spacing_covers_runs :
    (∀ tokens : List Token, (∀ t ∈ tokens, t.runEnd = none) → ∀ i t, tokens[i]? = some t →
      (t.kind.isWhitespace = true →
        ∃ e, IsGreatest {m | i ≤ m ∧ ∀ j, i ≤ j → j ≤ m → Token.White tokens j} e ∧
          (Token.markRuns tokens)[i]? = some { t with runEnd := some e }) ∧
      (t.kind.isWhitespace = false →
        (Token.markRuns tokens)[i]? = some { t with runEnd := none })) ∧
    ∀ (source : String) (limit : Option Nat) (s : State),
      Reachable (Token.lex source) limit s → ∀ i depth : Nat,
        let ts := Token.lex source
        let n := (answer ts limit .spacing i depth s).1.length
        IsGreatest {k | ∀ j, i ≤ j → j < i + k → ts.isAny j spacingKinds = true} n ∧
        ∃ nodes, ((spacingNodes ts i).run (host ts limit fun part j =>
            construct ts limit part j depth)).run s = (.ok (nodes, i + n), s) ∧
          List.Forall₂ Node.OfSpacing (ts.groups i (i + n)) nodes := by
  constructor
  · intro tokens hnone i t ht
    refine ⟨Token.markRuns_getElem?_of_white ht, fun hw => ?_⟩
    rw [Token.markRuns_getElem?_of_not_white ht hw, ← hnone t (List.mem_of_getElem? ht)]
  · intro source limit s hs i depth
    have wm := Token.lex_wellMarked source
    have hlen := hs.sound.spacing_length wm limit i depth
    obtain ⟨nodes, hrun, hnodes⟩ := spacingNodes_run wm limit
      (fun part j => construct (Token.lex source) limit part j depth) i
    rw [← hlen] at hrun hnodes
    refine ⟨isGreatest_spacing hlen, nodes, ?_, hnodes⟩
    rw [hrun]
    rfl

/-- A run is covered from its second token on, with the comment and the white space behind it. -/
theorem spacing_covers_runs_from_inside :
    let tokens : List Token := [⟨.space, " ", ⟨1, 1⟩, none, none⟩,
      ⟨.tab, "\t", ⟨1, 2⟩, none, none⟩, ⟨.identifier, "a", ⟨1, 3⟩, none, none⟩]
    let ts := Token.lex "a \t\n/*c*/ b"
    (∀ t ∈ tokens, t.runEnd = none) ∧
    IsGreatest {m | 0 ≤ m ∧ ∀ j, 0 ≤ j → j ≤ m → Token.White tokens j} 1 ∧
    Reachable ts none (.start 7) ∧
    IsGreatest {k | ∀ j, 2 ≤ j → j < 2 + k → ts.isAny j spacingKinds = true} 4 ∧
    ∃ nodes, ((spacingNodes ts 2).run (host ts none fun part j =>
        construct ts none part j 0)).run (.start 7) = (.ok (nodes, 6), .start 7) ∧
      List.Forall₂ Node.OfSpacing (ts.groups 2 6) nodes ∧ nodes.length = 3 := by
  intro tokens ts
  have hnone : ∀ t ∈ tokens, t.runEnd = none := by decide
  have hsize : ts.size = 7 := by decide +kernel
  have hreach : Reachable ts none (.start 7) := by
    rw [← hsize]
    exact .refl
  have hlen : (answer ts none .spacing 2 0 (.start 7)).1.length = 4 := by decide +kernel
  have hgroups : (ts.groups 2 6).length = 3 := by decide +kernel
  obtain ⟨e, hgreatest, hlinked⟩ := (spacing_covers_runs.1 tokens hnone 0 _ rfl).1 rfl
  obtain rfl : 1 = e := Option.some.inj (congrArg Token.runEnd (Option.some.inj hlinked))
  have hcovers := spacing_covers_runs.2 "a \t\n/*c*/ b" none (.start 7) hreach 2 0
  change IsGreatest _ (answer ts none .spacing 2 0 (.start 7)).1.length ∧ _ at hcovers
  obtain ⟨hrun, nodes, hmade, hnodes⟩ := hcovers
  rw [hlen] at hrun hmade hnodes
  exact ⟨hnone, hgreatest, hreach, hrun, nodes, hmade, hnodes, hnodes.length_eq ▸ hgroups⟩

end Parser

end LessCss
