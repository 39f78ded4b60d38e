import LessCss.Proofs.Names

/-! Variables and runs of `@`. Looking ahead for a variable goes forward through the `@` tokens, and
each question also looks back at two tokens; seen from outside, a variable is decided by the whole
run of `@` that it starts in. A run of one or two marks with a name behind it is a variable from
each of its marks on, and a longer run holds none. What is built are as many nested variables as
there are marks, around the name. -/

namespace LessCss

variable {ts : Tokens} {lo hi i j : Nat}

/-! ## Runs of marks -/

/-- The tokens from `lo` up to `hi` are a whole run of `@`, and token `i` is one of them. -/
structure MarkRun (ts : Tokens) (lo hi i : Nat) : Prop where
  low : lo ≤ i
  high : i < hi
  marks : ∀ j, lo ≤ j → j < hi → ts.is j .atSign = true
  before : ∀ j, j + 1 = lo → ts.is j .atSign = false
  behind : ts.is hi .atSign = false

theorem exists_markRun_of_first (h : ts.is i .atSign = true)
    (hbefore : ∀ j, j + 1 = i → ts.is j .atSign = false) : ∃ hi, MarkRun ts i hi i := by
  have hany : ∀ j, ts.isAny j [.atSign] = ts.is j .atSign := by
    intro j
    cases hk : ts.kind? j with
    | none => simp [Tokens.isAny, Tokens.is, hk]
    | some k => cases k <;> simp [Tokens.isAny, Tokens.is, hk]
  have hout : ts.is (ts.spanEnd [.atSign] i) .atSign = false := by
    rw [← hany]
    exact Tokens.not_isAny_spanEnd
  refine ⟨ts.spanEnd [.atSign] i, Nat.le_refl i, ?_, ?_, hbefore, hout⟩
  · refine Nat.lt_of_le_of_ne (Tokens.le_spanEnd ts _ i) fun he => ?_
    rw [← he, h] at hout
    cases hout
  · intro j hij hj
    rw [← hany]
    exact Tokens.isAny_of_lt_spanEnd hij hj

/-- Every `@` stands in a run of them. -/
theorem exists_markRun (h : ts.is i .atSign = true) : ∃ lo hi, MarkRun ts lo hi i := by
  induction i with
  | zero => exact ⟨0, exists_markRun_of_first h nofun⟩
  | succ i ih =>
    cases hi : ts.is i .atSign with
    | false =>
      refine ⟨i + 1, exists_markRun_of_first h fun j hj => ?_⟩
      rw [Nat.succ.inj hj]
      exact hi
    | true =>
      obtain ⟨lo, hi, hrun⟩ := ih hi
      have hne : hi ≠ i + 1 := by
        rintro rfl
        rw [hrun.behind] at h
        cases h
      have hlow := hrun.low
      have hhigh := hrun.high
      exact ⟨lo, hi, by omega, by omega, hrun.marks, hrun.before, hrun.behind⟩

namespace MarkRun

theorem next (h : MarkRun ts lo hi i) (hlt : i + 1 < hi) : MarkRun ts lo hi (i + 1) :=
  ⟨Nat.le_succ_of_le h.low, hlt, h.marks, h.before, h.behind⟩

theorem at_mark (h : MarkRun ts lo hi i) : ts.is i .atSign = true := h.marks i h.low h.high

/-- The two tokens before a mark are marks of its run, or not both marks. -/
theorem looks_back (h : MarkRun ts lo hi i) :
    (2 ≤ i && ts.is (i - 1) .atSign && ts.is (i - 2) .atSign) = true ↔ lo + 2 ≤ i := by
  have hlow := h.low
  have hhigh := h.high
  rw [Bool.and_eq_true, Bool.and_eq_true, decide_eq_true_iff]
  constructor
  · rintro ⟨⟨hi, hone⟩, htwo⟩
    by_contra hlt
    rcases Nat.eq_or_lt_of_le hlow with rfl | hlow
    · rw [h.before (lo - 1) (by omega)] at hone
      cases hone
    · rw [h.before (i - 2) (by omega)] at htwo
      cases htwo
  · intro hle
    exact ⟨⟨by omega, h.marks _ (by omega) (by omega)⟩, h.marks _ (by omega) (by omega)⟩

end MarkRun

/-! ## What is found -/

open Lookahead Grammar

namespace Ident

variable {tell inner : Answers}

theorem result_varLength : (varLength ts i).result tell inner =
    if ts.is i .atSign = true ∧
        ¬ (2 ≤ i && ts.is (i - 1) .atSign && ts.is (i - 2) .atSign) = true then
      lengthen (if (tell .var (i + 1)).length = 0 then (tell .ident (i + 1)).length
        else (tell .var (i + 1)).length) 1
    else 0 := by
  unfold varLength
  by_cases hmark : ts.is i .atSign = true
  · by_cases hback : (2 ≤ i && ts.is (i - 1) .atSign && ts.is (i - 2) .atSign) = true
    · rw [if_pos (by simp [hback]), if_neg fun h => h.2 hback]
      rfl
    · rw [if_neg (by simp [hmark, hback]), if_pos ⟨hmark, hback⟩, result_bind, result_pure]
      refine congrArg (lengthen · 1) ?_
      change (orElse _ _).result tell inner = _
      rw [orElse, result_bind, result_lengthOf]
      split
      · next hz => rw [if_pos hz, result_lengthOf]
      · next hz => rw [if_neg hz, result_pure]
  · rw [if_pos (by simp [hmark]), if_neg fun h => hmark h.1]
    rfl

/-- No name starts with a mark. -/
theorem Concluded.ident_of_mark (h : Concluded ts tell) (hi : ts.is i .atSign = true) :
    (tell .ident i).length = 0 := by
  rcases (h.found i).1.run with hz | hrun
  · exact hz
  · obtain ⟨k, hk, hhead⟩ := hrun.head
    obtain rfl : Token.Kind.atSign = k := Option.some.inj ((Tokens.is_iff.1 hi).symm.trans hk)
    exact absurd hhead (by decide)

/-- No variable starts where no mark stands. -/
theorem Concluded.var_of_no_mark (h : Concluded ts tell) (hi : ts.is i .atSign = false) :
    (tell .var i).length = 0 := by
  rcases Nat.lt_or_ge i ts.size with hin | hout
  · obtain ⟨inner, he⟩ := h.follows .var i hin
    have hz : (varLength ts i).result (tell.before .var i) (inner.before .var i) = 0 := by
      rw [result_varLength, hi, if_neg fun hc => nomatch hc.1]
    rw [he, length_conclude rfl (Or.inl hz), hz]
  · rw [h.past_end _ _ hout]
    rfl

/-- The tokens of a variable that starts at mark `i` of a run up to `hi`, where the name behind the
run has `name` tokens: the marks that are left and the name, unless the run is too long. -/
def varSpan (lo hi i name : Nat) : Nat := if hi - lo ≤ 2 ∧ 0 < name then hi - i + name else 0

theorem varSpan_pos {name : Nat} (h : MarkRun ts lo hi i) :
    0 < varSpan lo hi i name ↔ hi - lo ≤ 2 ∧ 0 < name := by
  have := h.high
  unfold varSpan
  split
  · next hc => exact ⟨fun _ => hc, fun _ => by omega⟩
  · next hc => exact ⟨fun hp => absurd hp (Nat.lt_irrefl 0), fun hc' => absurd hc' hc⟩

/-- What a body gives for a mark, from what is found behind it. -/
theorem result_varLength_of_run {name : Nat} (h : MarkRun ts lo hi i)
    (hlast : i + 1 = hi → (tell .var hi).length = 0 ∧ (tell .ident hi).length = name)
    (hnext : i + 1 < hi → (tell .var (i + 1)).length = varSpan lo hi (i + 1) name ∧
      (tell .ident (i + 1)).length = 0) :
    (varLength ts i).result tell inner = varSpan lo hi i name := by
  have hlow := h.low
  have hhigh := h.high
  simp only [result_varLength, h.looks_back]
  unfold varSpan at hnext ⊢
  by_cases hback : lo + 2 ≤ i
  · rw [if_neg fun hc => hc.2 hback, if_neg (by omega)]
  · rw [if_pos ⟨h.at_mark, hback⟩]
    rcases Nat.eq_or_lt_of_le (show i + 1 ≤ hi from hhigh) with he | hlt
    · obtain ⟨hvar, hident⟩ := hlast he
      rw [he, if_pos hvar, hident, lengthen]
      rcases Nat.eq_zero_or_pos name with rfl | hpos
      · simp
      · rw [if_neg (by omega), if_pos ⟨by omega, hpos⟩]
        omega
    · obtain ⟨hvar, hident⟩ := hnext hlt
      by_cases hc : hi - lo ≤ 2 ∧ 0 < name
      · rw [if_pos hc] at hvar
        rw [hvar, if_neg (by omega), lengthen, if_neg (by omega), if_pos hc]
        omega
      · rw [if_neg hc] at hvar
        rw [if_pos hvar, hident, if_neg hc]
        rfl

/-- In answers that follow from each other, a variable spans the marks from its own on and the name
behind them. -/
theorem Concluded.var_of_run (h : Concluded ts tell) (hrun : MarkRun ts lo hi i) :
    (tell .var i).length = varSpan lo hi i (tell .ident hi).length := by
  -- along the run from its last mark, whose variable is the name behind it
  generalize hn : hi - i = n
  induction n generalizing i with
  | zero => exact absurd hrun.high (by omega)
  | succ n ih =>
    have hhigh := hrun.high
    have hlt := Tokens.lt_of_is hrun.at_mark
    obtain ⟨inner, he⟩ := h.follows .var i hlt
    have hbefore : ∀ r, tell.before .var i r (i + 1) = tell r (i + 1) := fun r =>
      Answers.before_of (Or.inl (Nat.lt_succ_self i))
    have hvar : (varLength ts i).result (tell.before .var i) (inner.before .var i) =
        varSpan lo hi i (tell .ident hi).length := by
      refine result_varLength_of_run hrun (fun hlast => ?_) fun hlt => ?_
      · subst hlast
        rw [hbefore, hbefore]
        exact ⟨h.var_of_no_mark hrun.behind, rfl⟩
      · rw [hbefore, hbefore]
        exact ⟨ih (hrun.next hlt) (by omega), h.ident_of_mark (hrun.next hlt).at_mark⟩
    rw [he, length_conclude rfl, hvar]
    rw [hvar]
    rcases Nat.eq_zero_or_pos (varSpan lo hi i (tell .ident hi).length) with hz | hpos
    · exact Or.inl hz
    · have hc := (varSpan_pos hrun).1 hpos
      have hle := ((h.found hi).1.run.resolve_left (Nat.ne_of_gt hc.2)).le_size
      rw [varSpan, if_pos hc]
      exact Or.inr (by omega)

end Ident

/-! ## What is built -/

/-- As many nested variables as there are marks from token `i` on, around a node. -/
def Node.varsAround (ts : Tokens) (inner : Node) : Nat → Nat → Node
  | 0, _ => inner
  | n + 1, i => .branch .var [varsAround ts inner n (i + 1)] (ts.position i)

theorem Ident.Longest.eq {apart : Bool} {n m : Nat} (h : Ident.Longest apart ts i n)
    (h' : Ident.Longest apart ts i m) : n = m := by
  have hle : ∀ {n m}, Ident.Longest apart ts i n → Ident.Longest apart ts i m → n ≤ m := by
    intro n m h h'
    rcases h.run with rfl | hrun
    · exact Nat.zero_le m
    · exact Nat.le_of_add_le_add_left (h'.longest _ hrun)
  exact Nat.le_antisymm (hle h h') (hle h' h)

namespace Parser

open Ident Builder

variable {limit : Option Nat} {s : State} {name : Nat}

/-- An answer is one of answers that follow from each other. -/
theorem State.Sound.exists_concluded (hs : s.Sound ts) (limit : Option Nat) (r : Rule)
    (i depth : Nat) :
    ∃ tell, Concluded ts tell ∧ (answer ts limit r i depth s).1 = tell r i := by
  have hsound := (answer_yields ts limit r i depth 0 s hs).1.sound
  exact ⟨_, hsound.concluded, answer_eq_tell hs (completed_supports hsound.size)⟩

/-- The name at a token is the same in all sound states. -/
theorem State.Sound.ident_length (hs : s.Sound ts) (limit : Option Nat)
    (hname : Longest true ts i name) (depth : Nat) :
    (answer ts limit .ident i depth s).1.length = name := by
  obtain ⟨tell, htell, he⟩ := hs.exists_concluded limit .ident i depth
  rw [he]
  exact (htell.found i).1.toLongest.eq hname

theorem State.Sound.var_length (hs : s.Sound ts) (limit : Option Nat)
    (hrun : MarkRun ts lo hi i) (hname : Longest true ts hi name) (depth : Nat) :
    (answer ts limit .var i depth s).1.length = varSpan lo hi i name := by
  obtain ⟨tell, htell, he⟩ := hs.exists_concluded limit .var i depth
  rw [he, htell.var_of_run hrun, (htell.found hi).1.toLongest.eq hname]

theorem State.Sound.no_var (hs : s.Sound ts) (hi : ts.is i .atSign = false) (depth : Nat) :
    (answer ts limit .var i depth s).1.length = 0 := by
  obtain ⟨tell, htell, he⟩ := hs.exists_concluded limit .var i depth
  rw [he, htell.var_of_no_mark hi]

/-- A program goes on from what its first part has built. -/
theorem host_run_bind {α β : Type} {build : Interior → Nat → Action (List Node × Nat)}
    {p : Plan α} {a : α} (f : α → Plan β) (h : ((p.run (host ts limit build)).run s).1 = .ok a) :
    ((p.bind f).run (host ts limit build)).run s =
      ((f a).run (host ts limit build)).run ((p.run (host ts limit build)).run s).2 := by
  have hbind := Plan.run_bind (host ts limit build) (fun _ _ _ _ => rfl) p f
  change ((p >>= f).run (host ts limit build)).run s = _
  rw [hbind, run_bind, h]

section
variable {build : Interior → Nat → Action (List Node × Nat)}

theorem single_run {x : Builder Node} {node : Node}
    (h : (((x i).run (host ts limit build)).run s).1 = .ok (node, j)) :
    (((single x i).run (host ts limit build)).run s).1 = .ok ([node], j) := by
  change ((((x i).bind fun y => .done ([y.1], y.2)).run (host ts limit build)).run s).1 = _
  rw [host_run_bind _ h]
  rfl

theorem branch_run {x : Builder (List Node)} {k : Node.Kind} {nodes : List Node}
    (h : (((x i).run (host ts limit build)).run s).1 = .ok (nodes, j)) :
    (((branch ts k x i).run (host ts limit build)).run s).1 =
      .ok (.branch k nodes (ts.position i), j) := by
  change ((((x i).bind fun y => .made (.branch k y.1 (ts.position i))
    (.done (Node.branch k y.1 (ts.position i), y.2))).run (host ts limit build)).run s).1 = _
  rw [host_run_bind _ h]
  rfl

end

/-- The name behind a run of marks, as it is built. -/
def nameBehind (ts : Tokens) (hi name : Nat) : Node :=
  .leaf .ident (ts.join hi (hi + name)) (ts.position hi)

theorem identNode_run {build : Interior → Nat → Action (List Node × Nat)} (hs : s.Sound ts)
    (hname : Longest true ts i name) :
    (((identNode ts i).run (host ts limit build)).run s).1 =
      .ok (nameBehind ts i name, i + name) := by
  have hlen := hs.ident_length limit hname 0
  change Except.ok (nameBehind ts i (answer ts limit .ident i 0 s).1.length,
    i + (answer ts limit .ident i 0 s).1.length) = _
  rw [hlen]

/-- What stands behind the mark of a variable: another variable, or the name. -/
theorem varContent_run {build : Interior → Nat → Action (List Node × Nat)} (hs : s.Sound ts)
    (hrun : MarkRun ts lo hi i) (hname : Longest true ts hi name)
    (hshort : hi - lo ≤ 2) (hpos : 0 < name)
    (hbuild : i + 1 < hi → ∀ s : State, s.Sound ts → ((build .var (i + 1)).run s).1 =
      .ok ([Node.varsAround ts (nameBehind ts hi name) (hi - (i + 1)) (i + 1)], hi + name)) :
    (((choose (starts .var) (enter .var) (single (identNode ts)) (i + 1)).run
      (host ts limit build)).run s).1 =
      .ok ([Node.varsAround ts (nameBehind ts hi name) (hi - (i + 1)) (i + 1)], hi + name) := by
  have hnext := (answer_yields ts limit .var (i + 1) 0 0 s hs).1.sound
  change ((((if decide (0 < (answer ts limit .var (i + 1) 0 s).1.length) = true then enter .var
    else single (identNode ts)) (i + 1)).run (host ts limit build)).run
      (answer ts limit .var (i + 1) 0 s).2).1 = _
  rcases Nat.eq_or_lt_of_le (show i + 1 ≤ hi from hrun.high) with rfl | hlt
  · rw [hs.no_var hrun.behind, if_neg (by decide), Nat.sub_self]
    exact single_run (identNode_run hnext hname)
  · have hvar := hs.var_length limit (hrun.next hlt) hname 0
    have hvarpos := (varSpan_pos (hrun.next hlt)).2 ⟨hshort, hpos⟩
    rw [hvar, if_pos (decide_eq_true hvarpos)]
    have := hbuild hlt _ hnext
    change ((build .var (i + 1) >>= pure).run _).1 = _
    rw [bind_pure]
    exact this

/-- A variable is built around what stands behind its mark. -/
theorem varNode_run {build : Interior → Nat → Action (List Node × Nat)} (hs : s.Sound ts)
    (hrun : MarkRun ts lo hi i) (hname : Longest true ts hi name)
    (hshort : hi - lo ≤ 2) (hpos : 0 < name)
    (hbuild : i + 1 < hi → ∀ s : State, s.Sound ts → ((build .var (i + 1)).run s).1 =
      .ok ([Node.varsAround ts (nameBehind ts hi name) (hi - (i + 1)) (i + 1)], hi + name)) :
    (((varNode ts i).run (host ts limit build)).run s).1 =
      .ok (Node.varsAround ts (nameBehind ts hi name) (hi - i) i, hi + name) := by
  have hhigh := hrun.high
  have hmarks : hi - i = hi - (i + 1) + 1 := by omega
  rw [hmarks]
  exact branch_run (varContent_run hs hrun hname hshort hpos hbuild)

/-- The variables that a mark's variable holds are built like it. -/
theorem construct_var_run (hs : s.Sound ts) (hrun : MarkRun ts lo hi i)
    (hname : Longest true ts hi name) (hshort : hi - lo ≤ 2) (hpos : 0 < name) (depth : Nat) :
    ((construct ts limit .var i depth).run s).1 =
      .ok ([Node.varsAround ts (nameBehind ts hi name) (hi - i) i], hi + name) := by
  generalize hn : hi - i = n
  induction n using Nat.strongRecOn generalizing i s with
  | ind n ih =>
    subst hn
    have hroom : ¬ (Interior.var.nests && !allows limit depth) = true := Bool.false_ne_true
    rw [construct, if_neg hroom]
    refine single_run (varNode_run hs hrun hname hshort hpos fun hlt s hs => ?_)
    have hin := Tokens.lt_of_is (hrun.next hlt).at_mark
    rw [dif_pos ⟨Nat.lt_succ_self i, Nat.le_of_lt hin⟩]
    exact ih _ (by omega) hs (hrun.next hlt) rfl

/-- In every stream and in every state that a parse can be in, a mark starts a variable if its run
of marks is of one or two and a name follows the run; the variable goes up to the end of that name,
and what is built is one variable for each mark that is left, nested around the name. Every mark is
in one run. -/
theorem variable_spans_marks_and_name {ts : Tokens} {limit : Option Nat} {s : State}
    (h : Reachable ts limit s) {i : Nat} (hmark : ts.is i .atSign = true) (depth : Nat) :
    (∃ lo hi, MarkRun ts lo hi i) ∧ ∀ lo hi, MarkRun ts lo hi i →
      let name := (answer ts limit .ident hi depth s).1.length
      let var := (answer ts limit .var i depth s).1.length
      var = (if hi - lo ≤ 2 ∧ 0 < name then hi - i + name else 0) ∧
      (0 < var → (((varNode ts i).run (host ts limit fun part j =>
          construct ts limit part j depth)).run s).1 =
        .ok (Node.varsAround ts (.leaf .ident (ts.join hi (hi + name)) (ts.position hi)) (hi - i) i,
          i + var)) := by
  refine ⟨exists_markRun hmark, fun lo hi hrun => ?_⟩
  obtain ⟨tell, htell, he⟩ := h.sound.exists_concluded limit .ident hi depth
  have hname : Longest true ts hi (answer ts limit .ident hi depth s).1.length := by
    rw [he]
    exact (htell.found hi).1.toLongest
  have hvar := h.sound.var_length limit hrun hname depth
  refine ⟨hvar, fun hpos => ?_⟩
  rw [hvar] at hpos ⊢
  obtain ⟨hshort, hnamed⟩ := (varSpan_pos hrun).1 hpos
  rw [varSpan, if_pos ⟨hshort, hnamed⟩, ← Nat.add_assoc, Nat.add_sub_of_le (Nat.le_of_lt hrun.high)]
  exact varNode_run h.sound hrun hname hshort hnamed fun hlt s hs =>
    construct_var_run hs (hrun.next hlt) hname hshort hnamed depth

/-- Two marks are two variables, the second inside the first. -/
theorem variable_spans_both_marks :
    let ts := Token.lex "@@a"
    Reachable ts none (.start 3) ∧ ts.is 0 .atSign = true ∧
    (answer ts none .var 0 0 (.start 3)).1.length = 3 ∧
    (((varNode ts 0).run (host ts none fun part j => construct ts none part j 0)).run
        (.start 3)).1 =
      .ok (.branch .var [.branch .var [.leaf .ident "a" ⟨1, 3⟩] ⟨1, 2⟩] ⟨1, 1⟩, 3) := by
  intro ts
  have hsize : ts.size = 3 := by decide +kernel
  have hreach : Reachable ts none (.start 3) := by
    rw [← hsize]
    exact .refl
  have hrun : MarkRun ts 0 2 0 := by
    refine ⟨Nat.le_refl 0, by decide, fun j _ hj => ?_, nofun, by decide +kernel⟩
    have hmarks : ∀ j < 2, ts.is j .atSign = true := by decide +kernel
    exact hmarks j hj
  have hmark := hrun.at_mark
  have hname : (answer ts none .ident 2 0 (.start 3)).1.length = 1 := by decide +kernel
  obtain ⟨hvar, hbuilt⟩ := (variable_spans_marks_and_name hreach hmark 0).2 0 2 hrun
  rw [hname] at hvar hbuilt
  refine ⟨hreach, hmark, hvar, ?_⟩
  rw [hbuilt (by rw [hvar]; decide), hvar]
  decide +kernel

end Parser

end LessCss
