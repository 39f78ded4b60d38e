import LessCss.Proofs.Run
import Mathlib.Data.List.Chain

/-! What a name is. A name is given as a run of parts behind a head; looking ahead for a name finds
the longest run there is, with one condition that a name has to meet: no two interpolations stand
side by side. This holds for every stream, also one whose links are of no use, and whatever was
remembered or refused before. -/

namespace LessCss

/-! ## Runs of parts -/

namespace Ident

/-- A part of a name: a token, or an interpolation. -/
inductive Part where
  | token (k : Token.Kind)
  | hole
deriving DecidableEq

/-- The tokens that can stand in a name behind its first one. -/
def plain : List Token.Kind := [.minus, .digits, .underscore, .identifier]

/-- The tokens a name can start with, besides an underscore. -/
def heads : List Token.Kind := [.minus, .identifier, .dollar, .asterisk]

/-- The parts of a name hold an identifier outside interpolations. -/
abbrev Worded (ps : List Part) : Prop := .token .identifier ∈ ps

/-- Digits stand only behind an identifier; `named` says that there is one before the parts. -/
def Numbered (named : Bool) : List Part → Prop
  | [] => True
  | .token .identifier :: ps => Numbered true ps
  | .token .digits :: ps => named = true ∧ Numbered named ps
  | _ :: ps => Numbered named ps

/-- The parts are not both interpolations. -/
def Apart (p q : Part) : Prop := p ≠ .hole ∨ q ≠ .hole

mutual

/-- The tokens from `i` up to `j` are the parts. -/
inductive Parts (apart : Bool) (ts : Tokens) : Nat → List Part → Nat → Prop
  | nil {i : Nat} : Parts apart ts i [] i
  | token {i j : Nat} {k : Token.Kind} {ps : List Part} (kind : ts.kind? i = some k)
    (mem : k ∈ plain) (rest : Parts apart ts (i + 1) ps j) : Parts apart ts i (.token k :: ps) j
  | hole {i j l : Nat} {ps : List Part} (hole : Hole apart ts i l) (rest : Parts apart ts l ps j) :
    Parts apart ts i (.hole :: ps) j

/-- The tokens from `i` up to `j` are a name in `@{` and `}`. -/
inductive Hole (apart : Bool) (ts : Tokens) : Nat → Nat → Prop
  | mk {i j : Nat} (mark : ts.kind? i = some .atSign) (opener : ts.kind? (i + 1) = some .leftCurly)
    (name : Run apart ts (i + 2) j) (closer : ts.kind? j = some .rightCurly) :
    Hole apart ts i (j + 1)

/-- The tokens from `i` up to `j` are a name. Behind an underscore stand tokens only, and digits
anywhere; behind another head stands an identifier, unless the head is one or is a star. `apart`
says that no two interpolations stand side by side. -/
inductive Run (apart : Bool) (ts : Tokens) : Nat → Nat → Prop
  | underscore {i j : Nat} {ps : List Part} (head : ts.kind? i = some .underscore)
    (parts : Parts apart ts (i + 1) ps j) (solid : .hole ∉ ps) : Run apart ts i j
  | headed {i j : Nat} {k : Token.Kind} {ps : List Part} (head : ts.kind? i = some k)
    (mem : k ∈ heads) (parts : Parts apart ts (i + 1) ps j)
    (numbered : Numbered (k == .identifier) ps)
    (worded : k = .asterisk ∨ k = .identifier ∨ Worded ps)
    (separate : apart = true → ps.IsChain Apart) : Run apart ts i j

end

/-- The longest name from token `i` on has `n` tokens; 0 says that there is none. -/
structure Longest (apart : Bool) (ts : Tokens) (i n : Nat) : Prop where
  run : n = 0 ∨ Run apart ts i (i + n)
  longest : ∀ j, Run apart ts i j → j ≤ i + n

variable {apart : Bool} {ts : Tokens} {i j l : Nat} {ps : List Part}

/-! ## Inside the stream -/

theorem Hole.le_size (h : Hole apart ts i j) : j ≤ ts.size := by
  cases h with
  | mk _ _ _ closer => exact Tokens.lt_of_kind? closer

theorem Hole.mark (h : Hole apart ts i j) : ts.kind? i = some .atSign := by
  cases h with
  | mk mark _ _ _ => exact mark

theorem Parts.le_size (h : Parts apart ts i ps j) (hi : i ≤ ts.size) : j ≤ ts.size := by
  induction ps generalizing i with
  | nil =>
    cases h
    exact hi
  | cons p ps ih =>
    cases h with
    | token kind _ rest => exact ih rest (Tokens.lt_of_kind? kind)
    | hole hole rest => exact ih rest hole.le_size

theorem Run.head (h : Run apart ts i j) :
    ∃ k, ts.kind? i = some k ∧ (k = .underscore ∨ k ∈ heads) := by
  cases h with
  | underscore head _ _ => exact ⟨_, head, Or.inl rfl⟩
  | headed head mem _ _ _ _ => exact ⟨_, head, Or.inr mem⟩

theorem Run.le_size (h : Run apart ts i j) : j ≤ ts.size := by
  cases h with
  | underscore head parts _ => exact parts.le_size (Tokens.lt_of_kind? head)
  | headed head _ parts _ _ _ => exact parts.le_size (Tokens.lt_of_kind? head)

/-! ## One round of the loop -/

open Lookahead Grammar

variable {tell inner : Answers} {named : Bool}

/-- The rest of a name from token `j` on, as it is found. -/
abbrev identRest (ts : Tokens) (tell inner : Answers) (named : Bool) (j : Nat) : Bool × Nat :=
  (identEnd ts named j).result tell inner

theorem identRest_past_end (hj : ts.size ≤ j) : identRest ts tell inner named j = (named, j) := by
  rw [identRest, identEnd, dif_neg (by omega)]
  rfl

/-- What a round does behind the interpolation it starts with, if there is one: it goes by one
token that can stand there, or it ends. -/
theorem identRest_cases (inner : Answers) (named : Bool) {n : Nat} (hj : j < ts.size)
    (hn : (tell .interpolation j).length = n) :
    (∃ k, ts.kind? (j + n) = some k ∧ k ∈ plain ∧ (k = .digits → named = true) ∧
      identRest ts tell inner named j =
        identRest ts tell inner (k == .identifier || named) (j + n + 1)) ∨
    (∀ k, ts.kind? (j + n) = some k → k ∈ plain → k = .digits ∧ named = false) ∧
      identRest ts tell inner named j = (named, j + n) := by
  have hrest := identEnd.eq_def ts named j
  rw [dif_pos hj] at hrest
  have hfound : identRest ts tell inner named j =
      (lengthOf .interpolation j >>= _).result tell inner := congrArg (result tell inner) hrest
  rw [result_bind, result_lengthOf, hn] at hfound
  rw [hfound]
  have hplain : ∀ {k : Token.Kind}, k ≠ .digits → k = .digits → named = true :=
    fun hne he => absurd he hne
  split
  · next hk => exact Or.inl ⟨_, hk, by decide, hplain (by decide), rfl⟩
  · next hk => exact Or.inl ⟨_, hk, by decide, hplain (by decide), rfl⟩
  · next hk => exact Or.inl ⟨_, hk, by decide, hplain (by decide), rfl⟩
  · next hk =>
    split
    · next hnamed => exact Or.inl ⟨_, hk, by decide, fun _ => hnamed, rfl⟩
    · next hnamed =>
      refine Or.inr ⟨fun k hk' _ => ?_, rfl⟩
      rw [hk] at hk'
      cases hk'
      exact ⟨rfl, by simpa using hnamed⟩
  · next hminus hunderscore hident hdigits =>
    refine Or.inr ⟨fun k hk hmem => ?_, rfl⟩
    rcases List.mem_cons.1 hmem with rfl | hmem
    · exact absurd hk hminus
    rcases List.mem_cons.1 hmem with rfl | hmem
    · exact absurd hk hdigits
    rcases List.mem_cons.1 hmem with rfl | hmem
    · exact absurd hk hunderscore
    · exact absurd (List.mem_singleton.1 hmem ▸ hk) hident

/-! ## What the loop finds -/

/-- From token `i` on, an interpolation is found where there is one, and then as it is. -/
def FindsHoles (ts : Tokens) (tell : Answers) (i : Nat) : Prop :=
  ∀ j, i ≤ j → ∀ l, Hole true ts j l ↔
    0 < (tell .interpolation j).length ∧ l = j + (tell .interpolation j).length

theorem numbered_token {k : Token.Kind} (hk : k = .digits → named = true)
    (h : Numbered (k == .identifier || named) ps) : Numbered named (.token k :: ps) := by
  cases k
  case identifier => exact h
  case digits => exact ⟨hk rfl, h⟩
  all_goals exact h

theorem worded_token {k : Token.Kind} : ((k == .identifier || named) = true ∨ Worded ps) ↔
    (named = true ∨ Worded (.token k :: ps)) := by
  rw [Bool.or_eq_true, beq_iff_eq, Worded, Worded, List.mem_cons, Part.token.injEq,
    eq_comm (a := Token.Kind.identifier), or_comm (a := k = .identifier), or_assoc]

theorem FindsHoles.parts (hholes : FindsHoles ts tell i) (hij : i ≤ j)
    (hrest : Parts true ts (j + (tell .interpolation j).length) ps l)
    (hnumbered : Numbered named ps) (hchain : ps.IsChain Apart) (hhead : ps.head? ≠ some .hole) :
    ∃ qs, Parts true ts j qs l ∧ Numbered named qs ∧ qs.IsChain Apart ∧
      (Worded qs ↔ Worded ps) := by
  rcases Nat.eq_zero_or_pos (tell .interpolation j).length with hzero | hpos
  · rw [hzero] at hrest
    exact ⟨ps, hrest, hnumbered, hchain, Iff.rfl⟩
  · refine ⟨.hole :: ps, .hole ((hholes j hij _).2 ⟨hpos, rfl⟩) hrest, hnumbered,
      List.isChain_cons.2 ⟨fun q hq => Or.inr ?_, hchain⟩, by simp [Worded]⟩
    rintro rfl
    exact hhead hq

/-- The loop finds a run of parts. -/
theorem identRest_parts (inner : Answers) (named : Bool) (hholes : FindsHoles ts tell i)
    (hij : i ≤ j) :
    ∃ ps, Parts true ts j ps (identRest ts tell inner named j).2 ∧ Numbered named ps ∧
      ps.IsChain Apart ∧
      ((identRest ts tell inner named j).1 = true ↔ named = true ∨ Worded ps) := by
  generalize hm : ts.size - j = m
  induction m using Nat.strongRecOn generalizing j named with
  | ind m ih =>
    subst hm
    rcases Nat.lt_or_ge j ts.size with hj | hj
    · rcases identRest_cases inner named hj rfl with
        ⟨k, hk, hmem, hdigits, he⟩ | ⟨-, he⟩
      · obtain ⟨ps, hparts, hnumbered, hchain, hworded⟩ := ih _ (by omega)
          (k == .identifier || named) (j := j + (tell .interpolation j).length + 1) (by omega) rfl
        have hchain' : (Part.token k :: ps).IsChain Apart :=
          List.isChain_cons.2 ⟨fun _ _ => Or.inl nofun, hchain⟩
        obtain ⟨qs, hqs, hn, hc, hw⟩ := hholes.parts hij (.token hk hmem hparts)
          (numbered_token hdigits hnumbered) hchain' nofun
        rw [he]
        refine ⟨qs, hqs, hn, hc, ?_⟩
        rw [hworded, hw, worded_token]
      · have hnil : Numbered named [] := trivial
        obtain ⟨qs, hqs, hn, hc, hw⟩ := hholes.parts hij .nil hnil .nil nofun
        rw [he]
        refine ⟨qs, hqs, hn, hc, ?_⟩
        rw [hw]
        simp
    · rw [identRest_past_end hj]
      exact ⟨[], .nil, trivial, .nil, by simp⟩

/-! ## What the loop leaves -/

theorem numbered_of_token {k : Token.Kind} (h : Numbered named (.token k :: ps)) :
    (k = .digits → named = true) ∧ Numbered (k == .identifier || named) ps := by
  cases k
  case digits => exact ⟨fun _ => h.1, h.2⟩
  all_goals exact ⟨nofun, h⟩

theorem FindsHoles.none_of_kind (hholes : FindsHoles ts tell i) (hij : i ≤ j) {k : Token.Kind}
    (hk : ts.kind? j = some k) (hne : k ≠ .atSign) : (tell .interpolation j).length = 0 := by
  by_contra hpos
  have hmark := ((hholes j hij _).2 ⟨Nat.pos_of_ne_zero hpos, rfl⟩).mark
  rw [hk] at hmark
  exact hne (Option.some.inj hmark)

theorem le_identRest (named : Bool) (j : Nat) : j ≤ (identRest ts tell inner named j).2 := by
  generalize hm : ts.size - j = m
  induction m using Nat.strongRecOn generalizing j named with
  | ind m ih =>
    rcases Nat.lt_or_ge j ts.size with hj | hj
    · rcases identRest_cases inner named hj rfl with
        ⟨k, _, _, _, he⟩ | ⟨-, he⟩
      · rw [he]
        have hle := ih _ (by omega) (k == .identifier || named)
          (j + (tell .interpolation j).length + 1) rfl
        omega
      · rw [he]
        exact Nat.le_add_right _ _
    · rw [identRest_past_end hj]

/-- The loop has gone by token `l`, and if that one is a closing bracket, it has stopped there; if
there was a word on the way, it has seen one. -/
def Passed (ts : Tokens) (l : Nat) (word : Prop) (found : Bool × Nat) : Prop :=
  l ≤ found.2 ∧ (ts.kind? l = some .rightCurly → l = found.2) ∧ (word → found.1 = true)

theorem passed_hole (inner : Answers) (named : Bool) (hholes : FindsHoles ts tell i) (hij : i ≤ j)
    (hj : j < ts.size) :
    Passed ts (j + (tell .interpolation j).length) (named = true)
      (identRest ts tell inner named j) := by
  obtain ⟨ps, _, _, _, hword⟩ := identRest_parts inner named hholes hij
  rcases identRest_cases inner named hj rfl with
    ⟨k, hk, hmem, _, he⟩ | ⟨-, he⟩
  · rw [he] at hword ⊢
    refine ⟨Nat.le_of_succ_le (le_identRest _ _), fun hcurly => ?_, fun h => hword.2 (Or.inl h)⟩
    rw [hk] at hcurly
    cases hcurly
    exact absurd hmem (by decide)
  · rw [he]
    exact ⟨Nat.le_refl _, fun _ => rfl, id⟩

/-- The loop goes on by a token that can stand in a name. -/
theorem identRest_token {k : Token.Kind} (hj : j < ts.size)
    (hk : ts.kind? (j + (tell .interpolation j).length) = some k) (hmem : k ∈ plain)
    (hdigits : k = .digits → named = true) :
    identRest ts tell inner named j =
      identRest ts tell inner (k == .identifier || named)
        (j + (tell .interpolation j).length + 1) := by
  rcases identRest_cases inner named hj rfl with
    ⟨k', hk', _, _, he⟩ | ⟨hstop, -⟩
  · rw [hk] at hk'
    cases hk'
    exact he
  · obtain ⟨rfl, hnamed⟩ := hstop k hk hmem
    rw [hdigits rfl] at hnamed
    cases hnamed

/-- The loop goes by every run of parts in which no two interpolations stand side by side. -/
theorem Parts.passed (inner : Answers) (hholes : FindsHoles ts tell i) (hij : i ≤ j)
    (h : Parts true ts j ps l)
    (hnumbered : Numbered named ps) (hchain : ps.IsChain Apart) :
    Passed ts l (named = true ∨ Worded ps) (identRest ts tell inner named j) := by
  generalize hm : ps.length = m
  induction m using Nat.strongRecOn generalizing j named ps with
  | ind m ih =>
    subst hm
    have htoken : ∀ {k ps'},
        Parts true ts (j + (tell .interpolation j).length) (.token k :: ps') l →
        Numbered named (.token k :: ps') → (Part.token k :: ps').IsChain Apart → j < ts.size →
        ps'.length < ps.length → Passed ts l (named = true ∨ Worded (.token k :: ps'))
          (identRest ts tell inner named j) := by
      intro k ps' hparts hnumbered hchain hj hlen
      obtain ⟨hdigits, hn⟩ := numbered_of_token hnumbered
      cases hparts with
      | token kind mem rest =>
        have hpassed := ih _ hlen (by omega) rest hn (List.isChain_cons.1 hchain).2 rfl
        rw [identRest_token hj kind mem hdigits]
        rwa [worded_token] at hpassed
    cases h with
    | nil =>
      have hword : (named = true ∨ Worded []) ↔ named = true := or_iff_left List.not_mem_nil
      rw [hword]
      rcases Nat.lt_or_ge l ts.size with hj | hj
      · obtain ⟨-, hstop, hnamed⟩ := passed_hole inner named hholes hij hj
        refine ⟨le_identRest _ _, fun hcurly => ?_, hnamed⟩
        rw [hholes.none_of_kind hij hcurly nofun] at hstop
        exact hstop hcurly
      · rw [identRest_past_end hj]
        exact ⟨Nat.le_refl _, fun _ => rfl, id⟩
    | token kind mem rest =>
      have hzero := hholes.none_of_kind hij kind (by rintro rfl; exact absurd mem (by decide))
      exact htoken (by rw [hzero]; exact .token kind mem rest) hnumbered hchain
        (Tokens.lt_of_kind? kind) (Nat.lt_succ_self _)
    | hole hole rest =>
      obtain ⟨-, rfl⟩ := (hholes j hij _).1 hole
      have hj := Tokens.lt_of_kind? hole.mark
      cases rest with
      | nil => simpa [Worded] using passed_hole inner named hholes hij hj
      | token kind mem rest =>
        have hpassed := htoken (.token kind mem rest) hnumbered (List.isChain_cons.1 hchain).2 hj
          (by simp only [List.length_cons]; omega)
        simpa [Worded] using hpassed
      | hole _ _ =>
        rcases (List.isChain_cons_cons.1 hchain).1 with hne | hne <;> exact absurd rfl hne

/-! ## Behind an underscore -/

/-- Parts without interpolations are a stretch of tokens. -/
theorem exists_solid_iff : (∃ ps, Parts apart ts i ps j ∧ .hole ∉ ps) ↔
    i ≤ j ∧ ∀ l, i ≤ l → l < j → ts.isAny l plain = true := by
  constructor
  · rintro ⟨ps, hparts, hsolid⟩
    induction ps generalizing i with
    | nil =>
      cases hparts
      exact ⟨Nat.le_refl _, fun l hil hlj => by omega⟩
    | cons p ps ih =>
      rw [List.mem_cons, not_or] at hsolid
      cases hparts with
      | token kind mem rest =>
        obtain ⟨hle, hall⟩ := ih rest hsolid.2
        refine ⟨by omega, fun l hil hlj => ?_⟩
        rcases Nat.eq_or_lt_of_le hil with rfl | hil
        · exact Tokens.isAny_iff.2 ⟨_, mem, kind⟩
        · exact hall l hil hlj
      | hole _ _ => exact absurd rfl hsolid.1
  · rintro ⟨hij, hall⟩
    obtain ⟨n, rfl⟩ := Nat.exists_eq_add_of_le hij
    clear hij
    induction n generalizing i with
    | zero => exact ⟨[], .nil, List.not_mem_nil⟩
    | succ n ih =>
      obtain ⟨k, hmem, hk⟩ := Tokens.isAny_iff.1 (hall i (Nat.le_refl i) (by omega))
      obtain ⟨ps, hparts, hsolid⟩ := ih (i := i + 1) fun l hil hlj => hall l (by omega) (by omega)
      rw [Nat.add_right_comm] at hparts
      refine ⟨.token k :: ps, .token hk hmem hparts, ?_⟩
      rw [List.mem_cons, not_or]
      exact ⟨nofun, hsolid⟩

/-! ## The longest name -/

/-- At token `i` a name of `n` tokens is found: the longest one, and the only one that has a closing
bracket behind it. -/
structure Found (ts : Tokens) (i n : Nat) : Prop extends Longest true ts i n where
  closed : ∀ j, Run true ts i j → ts.kind? j = some .rightCurly → 0 < n ∧ j = i + n

theorem found_zero (h : ∀ j, ¬ Run true ts i j) : Found ts i 0 :=
  ⟨⟨Or.inl rfl, fun j hj => absurd hj (h j)⟩, fun j hj => absurd hj (h j)⟩

theorem found_of_run (hil : i < l) (hrun : Run true ts i l)
    (h : ∀ j, Run true ts i j → j ≤ l ∧ (ts.kind? j = some .rightCurly → j = l)) :
    Found ts i (l - i) := by
  have hl : i + (l - i) = l := by omega
  refine ⟨⟨Or.inr (hl.symm ▸ hrun), fun j hj => hl.symm ▸ (h j hj).1⟩, fun j hj hcurly => ?_⟩
  exact ⟨by omega, hl.symm ▸ (h j hj).2 hcurly⟩

theorem spanEnd_found (head : ts.kind? i = some .underscore) :
    Found ts i (ts.spanEnd plain (i + 1) - i) := by
  have hle := Tokens.le_spanEnd ts plain (i + 1)
  have hspan : ∀ l, i + 1 ≤ l → l < ts.spanEnd plain (i + 1) → ts.isAny l plain = true :=
    fun _ => Tokens.isAny_of_lt_spanEnd
  refine found_of_run hle ?_ fun j hrun => ?_
  · obtain ⟨ps, hparts, hsolid⟩ := exists_solid_iff.2 ⟨hle, hspan⟩
    exact .underscore head hparts hsolid
  · cases hrun with
    | underscore _ parts solid =>
      obtain ⟨hij, hall⟩ := exists_solid_iff.1 ⟨_, parts, solid⟩
      constructor
      · by_contra hlt
        have hin := hall _ hle (by omega)
        rw [Tokens.not_isAny_spanEnd] at hin
        cases hin
      · intro hcurly
        have hout : ts.isAny j plain = false := by
          rw [Tokens.isAny, hcurly]
          rfl
        exact (Tokens.spanEnd_eq hij hall hout).symm
    | headed head' mem _ _ _ _ =>
      rw [head] at head'
      cases head'
      exact absurd mem (by decide)

/-- Behind another head the loop finds the longest run, if it is a name. -/
theorem identRest_found (inner : Answers) {k : Token.Kind} (hholes : FindsHoles ts tell (i + 1))
    (head : ts.kind? i = some k) (hmem : k ∈ heads) :
    Found ts i (if ((identRest ts tell inner (k == .identifier) (i + 1)).1 || k == .asterisk) = true
      then (identRest ts tell inner (k == .identifier) (i + 1)).2 - i else 0) := by
  have hruns : ∀ j, Run true ts i j → ∃ word, (k = .asterisk ∨ word) ∧
      Passed ts j word (identRest ts tell inner (k == .identifier) (i + 1)) := by
    intro j hrun
    cases hrun with
    | underscore head' _ _ =>
      rw [head] at head'
      cases head'
      exact absurd hmem (by decide)
    | headed head' _ parts numbered worded separate =>
      rw [head] at head'
      cases head'
      refine ⟨_, worded, ?_⟩
      have hpassed := parts.passed inner hholes (Nat.le_refl _) numbered (separate rfl)
      rwa [beq_iff_eq] at hpassed
  split
  · next hnamed =>
    obtain ⟨ps, hparts, hnumbered, hchain, hword⟩ := identRest_parts inner
      (k == .identifier) hholes (Nat.le_refl _)
    refine found_of_run (le_identRest _ _) (.headed head hmem hparts hnumbered ?_ fun _ => hchain)
      fun j hrun => ?_
    · rw [Bool.or_eq_true, hword, beq_iff_eq, beq_iff_eq] at hnamed
      exact or_comm.1 hnamed
    · obtain ⟨_, _, hle, hstop, _⟩ := hruns j hrun
      exact ⟨hle, hstop⟩
  · next hnamed =>
    refine found_zero fun j hrun => hnamed ?_
    obtain ⟨_, hword, _, _, hseen⟩ := hruns j hrun
    rw [Bool.or_eq_true, beq_iff_eq]
    exact (or_comm.1 hword).imp hseen id

/-- Looking ahead for a name finds it, where interpolations behind the token are found. -/
theorem identLength_found (inner : Answers) (hholes : FindsHoles ts tell (i + 1)) :
    Found ts i ((identLength ts i).result tell inner) := by
  unfold identLength
  split
  · next hk => exact spanEnd_found hk
  · next k hunderscore hk =>
    split
    · next hmem =>
      have hfound := identRest_found inner hholes hk hmem
      rw [← result_tokensBetween tell inner, ← result_pure tell inner 0,
        ← apply_ite (result tell inner)] at hfound
      rw [result_bind]
      exact hfound
    · next hmem =>
      refine found_zero fun j hrun => ?_
      obtain ⟨k', hk', hhead⟩ := hrun.head
      cases hk.symm.trans hk'
      exact hhead.elim hunderscore hmem
  · next hk =>
    refine found_zero fun j hrun => ?_
    obtain ⟨k, hk', _⟩ := hrun.head
    cases hk.symm.trans hk'

theorem result_interpolationLength : (interpolationLength ts i).result tell inner =
    if ts.kind? i = some .atSign ∧ ts.kind? (i + 1) = some .leftCurly ∧
      0 < (tell .ident (i + 2)).length ∧
      ts.kind? (i + 2 + (tell .ident (i + 2)).length) = some .rightCurly
    then (tell .ident (i + 2)).length + 3 else 0 := by
  unfold interpolationLength
  by_cases hmarks : ts.kind? i = some .atSign ∧ ts.kind? (i + 1) = some .leftCurly
  · rw [if_pos (by simpa [Tokens.is_iff] using hmarks), result_bind, result_lengthOf, result_pure]
    simp [Tokens.is_iff, hmarks]
  · rw [if_neg (by simpa [Tokens.is_iff] using hmarks), if_neg fun h => hmarks ⟨h.1, h.2.1⟩]
    rfl

/-- Looking ahead for an interpolation finds it, where the name in it is found. -/
theorem interpolationLength_hole (inner : Answers)
    (h : Found ts (i + 2) (tell .ident (i + 2)).length) (l : Nat) :
    Hole true ts i l ↔ 0 < (interpolationLength ts i).result tell inner ∧
      l = i + (interpolationLength ts i).result tell inner := by
  rw [result_interpolationLength]
  constructor
  · intro hhole
    cases hhole with
    | mk mark opener name closer =>
      obtain ⟨hpos, rfl⟩ := h.closed _ name closer
      rw [if_pos ⟨mark, opener, hpos, closer⟩]
      omega
  · split
    · next hall =>
      obtain ⟨mark, opener, hpos, closer⟩ := hall
      rintro ⟨-, rfl⟩
      have hrun := h.run.resolve_left (Nat.ne_of_gt hpos)
      have hhole := Hole.mk mark opener hrun closer
      rwa [show i + 2 + (tell .ident (i + 2)).length + 1 = i + ((tell .ident (i + 2)).length + 3) by
        omega] at hhole
    · rintro ⟨hpos, -⟩
      cases hpos

/-! ## Every name -/

/-- Answers that follow from those before them, as they are remembered. -/
structure Concluded (ts : Tokens) (tell : Answers) : Prop where
  past_end : ∀ r i, ts.size ≤ i → tell r i = none
  follows : ∀ r i, i < ts.size → ∃ inner, tell r i = r.conclude ts tell inner i

/-- What is remembered of a rule with one form, if its measure stays inside the stream. -/
theorem length_conclude {r : Rule} {q : Lookahead Nat} {u : r.Shape}
    (hb : r.body ts i = q >>= fun n => pure (Match.of? n u))
    (hq : ts.Fits i (q.result (tell.before r i) (inner.before r i))) :
    (r.conclude ts tell inner i).length = q.result (tell.before r i) (inner.before r i) := by
  rw [Rule.conclude, hb, result_bind, result_pure]
  generalize q.result (tell.before r i) (inner.before r i) = n at hq
  have hlen : Answer.length (r := r) (Match.of? n u) = n := Reading.length_of? n u
  rcases hq with rfl | hq
  · rfl
  · rw [Answer.stored_eq_self (by rwa [hlen]), hlen]

/-- Names and interpolations are found. -/
theorem Concluded.found (h : Concluded ts tell) (i : Nat) :
    Found ts i (tell .ident i).length ∧ ∀ l, Hole true ts i l ↔
      0 < (tell .interpolation i).length ∧ l = i + (tell .interpolation i).length := by
  generalize hm : ts.size - i = m
  induction m using Nat.strongRecOn generalizing i with
  | ind m ih =>
    subst hm
    rcases Nat.lt_or_ge i ts.size with hi | hi
    · have hbefore : ∀ {r r' j}, i < j → tell.before r' i r j = tell r j := fun hj =>
        Answers.before_of (Or.inl hj)
      constructor
      · obtain ⟨inner, he⟩ := h.follows .ident i hi
        have hholes : FindsHoles ts (tell.before .ident i) (i + 1) := fun j hj => by
          rw [hbefore hj]
          exact (ih _ (by omega) j rfl).2
        have hfound := identLength_found (inner.before .ident i) hholes
        have hlen : (tell .ident i).length =
            (identLength ts i).result (tell.before .ident i) (inner.before .ident i) := by
          rw [he]
          exact length_conclude rfl (hfound.run.imp_right Run.le_size)
        rw [hlen]
        exact hfound
      · obtain ⟨inner, he⟩ := h.follows .interpolation i hi
        have hname : Found ts (i + 2) (tell.before .interpolation i .ident (i + 2)).length := by
          rw [hbefore (by omega)]
          exact (ih _ (by omega) (i + 2) rfl).1
        have hhole := interpolationLength_hole (inner.before .interpolation i) hname
        have hlen : (tell .interpolation i).length = (interpolationLength ts i).result
            (tell.before .interpolation i) (inner.before .interpolation i) := by
          rw [he]
          refine length_conclude rfl ((Nat.eq_zero_or_pos _).imp_right fun hpos => ?_)
          exact ((hhole _).2 ⟨hpos, rfl⟩).le_size
        rw [hlen]
        exact hhole
    · rw [h.past_end _ _ hi, h.past_end _ _ hi]
      refine ⟨found_zero fun j hrun => ?_, fun l => ⟨fun hhole => ?_, fun hl => ?_⟩⟩
      · obtain ⟨k, hk, _⟩ := hrun.head
        exact absurd (Tokens.lt_of_kind? hk) (by omega)
      · exact absurd (Tokens.lt_of_kind? hhole.mark) (by omega)
      · exact absurd hl.1 (Nat.lt_irrefl 0)

end Ident

namespace Parser

open Ident

variable {ts : Tokens} {limit : Option Nat} {s : State}

/-- The memory of a sound state is part of answers that follow from each other, in any stream. -/
theorem State.Sound.concluded (hs : s.Sound ts) : Concluded ts (completed ts s.memo) where
  past_end := (completed_supports hs.size).past_end
  follows r i hi := by
    have hsup := completed_supports hs.size
    cases hm : s.memo.get? r i with
    | none => exact ⟨_, completed_eq_conclude hi hm⟩
    | some a =>
      obtain ⟨inner, -, he⟩ := hs.explained r i a hm _ hsup
      exact ⟨inner, (hsup.agrees r i a hm).trans he⟩

/-- In every stream and in every state that a parse can be in, the name that is found at a token is
the longest one there, where no two interpolations of a name stand side by side. -/
theorem answer_is_longest_name {ts : Tokens} {limit : Option Nat} {s : State}
    (h : Reachable ts limit s) (i depth : Nat) :
    Longest true ts i (answer ts limit .ident i depth s).1.length := by
  obtain ⟨hext, hv⟩ := answer_yields ts limit .ident i depth 0 s h.sound
  have hsup := completed_supports hext.sound.size
  obtain ⟨inner, hheeds, -⟩ := exists_heeds limit 0 (answer ts limit .ident i depth s).2
    (completed ts (answer ts limit .ident i depth s).2.memo)
  rw [hv _ inner hsup hheeds]
  exact (hext.sound.concluded.found i).1.toLongest

/-- Two interpolations that a word stands between are in one name. -/
theorem answer_is_longest_name_word_between :
    Reachable (Token.lex "a@{b}c@{d}") none (.start 10) ∧
    Longest true (Token.lex "a@{b}c@{d}") 0 10 := by
  have hsize : (Token.lex "a@{b}c@{d}").size = 10 := by decide +kernel
  have hreach : Reachable (Token.lex "a@{b}c@{d}") none (.start 10) := by
    rw [← hsize]
    exact .refl
  have hlen : (answer (Token.lex "a@{b}c@{d}") none .ident 0 0 (.start 10)).1.length = 10 := by
    decide +kernel
  exact ⟨hreach, hlen ▸ answer_is_longest_name hreach 0 0⟩

/-- The second of two interpolations that stand side by side is left out of the name. -/
theorem interpolations_side_by_side_are_cut :
    ¬ Longest false (Token.lex "a@{b}@{c}") 0
      (answer (Token.lex "a@{b}@{c}") none .ident 0 0 (.start 9)).1.length := by
  have hlen : (answer (Token.lex "a@{b}@{c}") none .ident 0 0 (.start 9)).1.length = 5 := by
    decide +kernel
  intro h
  have hword : ∀ i, Tokens.kind? (Token.lex "a@{b}@{c}") i = some .identifier →
      Run false (Token.lex "a@{b}@{c}") i (i + 1) := fun i hi =>
    .headed hi (by decide) .nil trivial (Or.inr (Or.inl rfl)) nofun
  have hrun : Run false (Token.lex "a@{b}@{c}") 0 9 :=
    .headed (by decide +kernel) (k := .identifier) (by decide)
      (.hole (.mk (by decide +kernel) (by decide +kernel) (hword 3 (by decide +kernel))
          (by decide +kernel))
        (.hole (.mk (by decide +kernel) (by decide +kernel) (hword 7 (by decide +kernel))
          (by decide +kernel)) .nil))
      trivial (Or.inr (Or.inl rfl)) nofun
  have hle := h.longest 9 hrun
  omega

end Parser

end LessCss
