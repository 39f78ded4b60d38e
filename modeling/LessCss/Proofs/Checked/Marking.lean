import LessCss.Proofs.Checked
import LessCss.Proofs.SpacingRuns
import Mathlib.Order.Bounds.Basic

/-! Linking with all checks. The tokens of a stream are passed from the first to the last and changed
in place, once to link the brackets and once more to link the white space; every token that is read
or changed has to exist. Openers wait on a stack, one for each type of bracket, until a closer takes
the nearest one.

Both passes find the links that are found from the last token to the first. -/

namespace LessCss

namespace Tokens

/-- Token `i`. -/
def read (ts : Tokens) (i : Nat) : Except Fault Token :=
  match ts[i]? with
  | some t => .ok t
  | none => .error .token

/-- Changes token `i`. -/
def write (ts : Tokens) (i : Nat) (f : Token → Token) : Except Fault Tokens :=
  if i < ts.size then .ok (ts.modify i f) else .error .token

/-- Changes the tokens from `lo` up to `hi`. -/
def writeAll (ts : Tokens) (lo hi : Nat) (f : Token → Token) : Except Fault Tokens :=
  if lo ≤ hi ∧ hi ≤ ts.size then
    .ok (ts.mapIdx fun m t => if lo ≤ m ∧ m < hi then f t else t)
  else .error .token

end Tokens

namespace Token

/-- The openers that no closer has taken yet, a stack for each type of bracket. -/
abbrev Waiting : Type := Bracket → List Nat

/-- Links brackets from token `i` on. -/
def bracketsFrom : (steps : Nat) → Waiting → Nat → Tokens → Except Fault Tokens
  | 0, _, _, _ => .error .steps
  | steps + 1, waiting, i, ts =>
    if i < ts.size then do
      let t ← ts.read i
      match t.kind.opens?, t.kind.closes? with
      | some b, _ => bracketsFrom steps (Function.update waiting b (i :: waiting b)) (i + 1) ts
      | none, some b =>
        match waiting b with
        | opener :: others => do
          let ts ← ts.write opener fun t => { t with closer := some i }
          bracketsFrom steps (Function.update waiting b others) (i + 1) ts
        | [] => bracketsFrom steps waiting (i + 1) ts
      | none, none => bracketsFrom steps waiting (i + 1) ts
    else .ok ts

/-- The last token of the white space that goes on behind token `last`. -/
def lastFrom : (steps : Nat) → (last : Nat) → Tokens → Except Fault Nat
  | 0, _, _ => .error .steps
  | steps + 1, last, ts =>
    if last + 1 < ts.size then do
      let t ← ts.read (last + 1)
      if t.kind.isWhitespace then lastFrom steps (last + 1) ts else return last
    else .ok last

/-- Links white space from token `i` on. -/
def runsFrom : (steps : Nat) → Nat → Tokens → Except Fault Tokens
  | 0, _, _ => .error .steps
  | steps + 1, i, ts =>
    if i < ts.size then do
      let t ← ts.read i
      if t.kind.isWhitespace then
        let last ← lastFrom steps i ts
        let ts ← ts.writeAll i (last + 1) fun t => { t with runEnd := some last }
        runsFrom steps (last + 1) ts
      else runsFrom steps (i + 1) ts
    else .ok ts

/-- Links tokens that have no links. -/
def linkChecked (steps : Nat) (ts : Tokens) : Except Fault Tokens := do
  runsFrom steps 0 (← bracketsFrom steps (fun _ => []) 0 ts)

end Token

theorem ok_bind {ε α β : Type} (a : α) (f : α → Except ε β) : (.ok a >>= f) = f a := rfl

/-! ## Reading and changing tokens -/

namespace Tokens

variable {ts : Tokens} {i lo hi : Nat} {f : Token → Token}

theorem read_eq {t : Token} (h : ts[i]? = some t) : ts.read i = .ok t := by
  rw [read, h]

theorem write_eq (h : i < ts.size) : ts.write i f = .ok (ts.modify i f) := if_pos h

theorem writeAll_eq (h : lo ≤ hi) (h' : hi ≤ ts.size) :
    ts.writeAll lo hi f = .ok (ts.mapIdx fun m t => if lo ≤ m ∧ m < hi then f t else t) :=
  if_pos ⟨h, h'⟩

end Tokens

namespace Token

/-! ## Brackets -/

section
variable {waiting : Waiting} {done rest : List Token} {i : Nat}

/-- Free closers take, in their order, the openers that wait for them. -/
def settle : List (Bracket × Nat) → Waiting → List Token → List Token
  | [], _, ts => ts
  | (b, j) :: free, waiting, ts =>
    match waiting b with
    | opener :: others =>
      settle free (Function.update waiting b others)
        (ts.modify opener fun t => { t with closer := some j })
    | [] => settle free waiting ts

theorem modify_append {f : Token → Token} (h : i < done.length) :
    (done ++ rest).modify i f = done.modify i f ++ rest := by
  refine List.ext_getElem? fun k => ?_
  rw [List.getElem?_modify, List.getElem?_append, List.getElem?_append, List.length_modify]
  by_cases hk : k < done.length
  · rw [if_pos hk, if_pos hk, List.getElem?_modify]
  · simp [hk, show i ≠ k by omega]

theorem modify_append_cons {f : Token → Token} {t : Token} (h : done.length = i) :
    (done ++ t :: rest).modify i f = done ++ f t :: rest := by
  rw [List.modify_eq_take_cons_drop (by simp; omega)]
  subst h
  simp

/-- If nothing waits, no closer takes anything. -/
theorem settle_none (free : List (Bracket × Nat)) (ts : List Token) :
    settle free (fun _ => []) ts = ts := by
  induction free with
  | nil => rfl
  | cons x free ih => exact ih

/-- All openers that wait stand before token `i`. -/
def Waiting.Before (waiting : Waiting) (i : Nat) : Prop := ∀ b, ∀ o ∈ waiting b, o < i

namespace Waiting.Before

variable {b : Bracket} {o : Nat} {others : List Nat}

theorem succ (h : waiting.Before i) : waiting.Before (i + 1) :=
  fun b o ho => Nat.lt_succ_of_lt (h b o ho)

theorem update (h : waiting.Before i) (hb : ∀ o ∈ others, o < i) :
    Waiting.Before (Function.update waiting b others) i := by
  intro c o ho
  by_cases hc : c = b
  · subst hc
    rw [Function.update_self] at ho
    exact hb o ho
  · rw [Function.update_of_ne hc] at ho
    exact h c o ho

theorem push (h : waiting.Before i) :
    Waiting.Before (Function.update waiting b (i :: waiting b)) (i + 1) := by
  refine h.succ.update fun o ho => ?_
  rcases List.mem_cons.1 ho with rfl | ho
  · exact Nat.lt_succ_self o
  · exact h.succ b o ho

theorem pop (h : waiting.Before i) (hb : waiting b = o :: others) :
    o < i ∧ Waiting.Before (Function.update waiting b others) i := by
  refine ⟨h b o ?_, h.update fun o' ho' => h b o' ?_⟩
  · rw [hb]
    exact List.mem_cons_self
  · rw [hb]
    exact List.mem_cons_of_mem _ ho'

end Waiting.Before

/-- The opener that came last takes the first closer of its type, and the closers that are left take
what waited before. -/
theorem settle_push {b : Bracket} {free : List (Bracket × Nat)} {t : Token}
    (hwaiting : waiting.Before i) (hi : done.length = i) (ht : t.closer = none) :
    settle free (Function.update waiting b (i :: waiting b)) (done ++ t :: rest) =
      settle (takeCloser b free).2 waiting
        (done ++ { t with closer := (takeCloser b free).1 } :: rest) := by
  induction free generalizing waiting done with
  | nil =>
    rw [takeCloser, ← ht]
    rfl
  | cons x free ih =>
    obtain ⟨b', j⟩ := x
    rw [takeCloser, settle]
    by_cases hb : b' = b
    · subst hb
      rw [if_pos rfl, Function.update_self]
      dsimp only
      rw [Function.update_idem, Function.update_eq_self, modify_append_cons hi]
    · rw [if_neg hb, Function.update_of_ne hb, settle]
      cases hw : waiting b' with
      | nil => exact ih hwaiting hi
      | cons o others =>
        obtain ⟨ho, hothers⟩ := hwaiting.pop hw
        have hlength : (done.modify o fun t => { t with closer := some j }).length = i := by
          rw [List.length_modify, hi]
        have hrest := ih hothers hlength
        rw [Function.update_of_ne (Ne.symm hb)] at hrest
        dsimp only
        rw [modify_append (hi ▸ ho), modify_append (hi ▸ ho), Function.update_comm (Ne.symm hb)]
        exact hrest

/-- From token `i` on, the pass gives the openers that wait the closers that are free behind them,
and links the brackets behind them to each other. -/
theorem bracketsFrom_eq {steps : Nat} (hwaiting : waiting.Before i) (hi : done.length = i)
    (hrest : ∀ t ∈ rest, t.closer = none) (hsteps : rest.length < steps) :
    bracketsFrom steps waiting i (done ++ rest).toArray =
      .ok (settle ((rest.zipIdx i).foldr linkBracket ([], [])).1 waiting
        (done ++ ((rest.zipIdx i).foldr linkBracket ([], [])).2)).toArray := by
  induction steps generalizing waiting done rest i with
  | zero => cases hsteps
  | succ steps ih =>
    cases rest with
    | nil =>
      rw [bracketsFrom, if_neg (by simp [hi])]
      rfl
    | cons t rest =>
      rw [List.zipIdx_cons, List.foldr_cons]
      generalize hbehind : (rest.zipIdx (i + 1)).foldr linkBracket ([], []) = behind
      obtain ⟨free, linked⟩ := behind
      -- whatever waits then, the pass goes on behind token `i`
      have hnext : ∀ {waiting : Waiting} {done : List Token}, waiting.Before (i + 1) →
          done.length = i → bracketsFrom steps waiting (i + 1) (done ++ t :: rest).toArray =
            .ok (settle free waiting (done ++ t :: linked)).toArray := by
        intro waiting done hwaiting hi
        have hlength : (done ++ [t]).length = i + 1 := by simp [hi]
        have hrec := ih hwaiting hlength (fun u hu => hrest u (List.mem_cons_of_mem _ hu))
          (Nat.lt_of_succ_lt_succ hsteps)
        rwa [hbehind, List.append_assoc, List.append_assoc] at hrec
      have hread : Tokens.read (done ++ t :: rest).toArray i = .ok t :=
        Tokens.read_eq (by simp [← hi])
      rw [bracketsFrom, if_pos (by simp [← hi]), hread, ok_bind, linkBracket]
      dsimp only
      cases hopens : t.kind.opens? with
      | some b =>
        dsimp only
        rw [hnext hwaiting.push hi, settle_push hwaiting hi (hrest t List.mem_cons_self)]
      | none =>
        cases hcloses : t.kind.closes? with
        | none => exact hnext hwaiting.succ hi
        | some b =>
          dsimp only
          rw [settle]
          cases hw : waiting b with
          | nil => exact hnext hwaiting.succ hi
          | cons o others =>
            obtain ⟨ho, hothers⟩ := hwaiting.pop hw
            dsimp only
            rw [Tokens.write_eq (by simp; omega), ok_bind, List.modify_toArray,
              modify_append (hi ▸ ho), modify_append (hi ▸ ho)]
            exact hnext hothers.succ (by rw [List.length_modify, hi])

end

/-! ## White space -/

section
variable {tokens : List Token} {ts : Tokens} {steps i k e : Nat}

theorem lt_of_blank (hi : ts.Blank i) : i < ts.size := by
  obtain ⟨t, ht, _⟩ := hi
  exact Tokens.lt_of_getElem? ht

theorem white_toList : White ts.toList i ↔ ts.Blank i := by
  rw [White, Tokens.Blank, Array.getElem?_toList]

theorem RunTo.single (hi : ts.Blank i) (hstop : ¬ ts.Blank (i + 1)) : RunTo ts.toList 0 i i :=
  ⟨Nat.le_refl i, fun _ hj hj' => Nat.le_antisymm hj hj' ▸ white_toList.2 hi,
    fun hwhite => hstop (white_toList.1 hwhite)⟩

theorem RunTo.extend (hi : ts.Blank i) (h : RunTo ts.toList 0 (i + 1) e) :
    RunTo ts.toList 0 i e := by
  refine ⟨Nat.le_of_succ_le h.le, fun j hj hj' => ?_, h.stop⟩
  rcases Nat.eq_or_lt_of_le hj with rfl | hj
  · exact white_toList.2 hi
  · exact h.white j hj hj'

theorem RunTo.rest (h : RunTo tokens 0 i e) (hik : i ≤ k) (hke : k ≤ e) : RunTo tokens 0 k e :=
  ⟨hke, fun j hj => h.white j (Nat.le_trans hik hj), h.stop⟩

/-- The search for the last token of a run finds it. -/
theorem exists_lastFrom (hi : ts.Blank i) (hsteps : ts.size - i ≤ steps) :
    ∃ e, lastFrom steps i ts = .ok e ∧ e < ts.size ∧ RunTo ts.toList 0 i e := by
  induction steps generalizing i with
  | zero =>
    have hlt := lt_of_blank hi
    omega
  | succ steps ih =>
    have hlt := lt_of_blank hi
    rw [lastFrom]
    split
    · next hnext =>
      have hget : ts[i + 1]? = some ts[i + 1] := Array.getElem?_eq_getElem hnext
      rw [Tokens.read_eq hget, ok_bind]
      split
      · next hw =>
        obtain ⟨e, he, hes, hrun⟩ := ih ⟨_, hget, hw⟩ (by omega)
        exact ⟨e, he, hes, hrun.extend hi⟩
      · next hw =>
        refine ⟨i, rfl, hlt, .single hi ?_⟩
        rintro ⟨t, ht, hw'⟩
        rw [hget] at ht
        cases ht
        exact hw hw'
    · next hend =>
      exact ⟨i, rfl, hlt, .single hi fun hnext => hend (lt_of_blank hnext)⟩

theorem length_markRuns (tokens : List Token) : (markRuns tokens).length = tokens.length := by
  have hmap := congrArg List.length (foldr_runs tokens 0).unlinked
  rwa [List.length_map, List.length_map] at hmap

/-- The tokens before token `i` have been linked, and those from it on have not. -/
def LinkedTo (tokens : List Token) (i : Nat) (ts : Tokens) : Prop :=
  ∀ k, ts[k]? = if k < i then (markRuns tokens)[k]? else tokens[k]?

theorem LinkedTo.done (h : LinkedTo tokens i ts) (hi : ts.size ≤ i) :
    ts = (markRuns tokens).toArray := by
  refine Array.ext_getElem? fun k => Eq.trans ?_ List.getElem?_toArray.symm
  have hk := h k
  by_cases hlt : k < i
  · rwa [if_pos hlt] at hk
  · rw [if_neg hlt, Array.getElem?_eq_none (by omega)] at hk
    have hlen := List.getElem?_eq_none_iff.1 hk.symm
    rw [Array.getElem?_eq_none (by omega), List.getElem?_eq_none (by rwa [length_markRuns])]

/-- The stretch from `i` up to `k` is linked, and nothing else is changed. -/
theorem LinkedTo.step {ts' : Tokens} (h : LinkedTo tokens i ts) (hik : i ≤ k)
    (hts : ∀ m, ts'[m]? = if i ≤ m ∧ m < k then (markRuns tokens)[m]? else ts[m]?) :
    LinkedTo tokens k ts' := by
  intro m
  rw [hts m, h m]
  split_ifs <;> first | rfl | omega

theorem LinkedTo.runTo (h : LinkedTo tokens i ts) (hrun : RunTo ts.toList 0 i e) :
    RunTo tokens 0 i e := by
  have hwhite : ∀ j, i ≤ j → (White ts.toList j ↔ White tokens j) := fun j hj => by
    rw [White, White, Array.getElem?_toList, h j, if_neg (Nat.not_lt_of_ge hj)]
  exact ⟨hrun.le, fun j hj hj' => (hwhite j hj).1 (hrun.white j hj hj'), fun hstop =>
    hrun.stop ((hwhite _ (Nat.le_succ_of_le hrun.le)).2 hstop)⟩

/-- All tokens of a run are linked to its last token. -/
theorem RunTo.markRuns_getElem? (h : RunTo tokens 0 i e) (hik : i ≤ k) (hke : k ≤ e) :
    (markRuns tokens)[k]? = tokens[k]?.map fun t => { t with runEnd := some e } := by
  obtain ⟨t, ht, hw⟩ : White tokens k := h.white k hik hke
  obtain ⟨e', hgreatest, hmark⟩ := markRuns_getElem?_of_white ht hw
  rw [hmark, ht, IsGreatest.unique hgreatest (h.rest hik hke).isGreatest, Option.map_some]

/-- From token `i` on, the pass links what is left of the white space. -/
theorem runsFrom_eq (h : LinkedTo tokens i ts) (hsteps : ts.size - i < steps) :
    runsFrom steps i ts = .ok (markRuns tokens).toArray := by
  induction steps generalizing i ts with
  | zero => cases hsteps
  | succ steps ih =>
    rw [runsFrom]
    split
    · next hi =>
      have hget : ts[i]? = some ts[i] := Array.getElem?_eq_getElem hi
      have htoken : ∀ k, i ≤ k → tokens[k]? = ts[k]? := fun k hk => by
        rw [h k, if_neg (Nat.not_lt_of_ge hk)]
      rw [Tokens.read_eq hget, ok_bind]
      split
      · next hw =>
        obtain ⟨e, he, hes, hrun⟩ := exists_lastFrom ⟨_, hget, hw⟩ (Nat.le_of_lt_succ hsteps)
        have hie := hrun.le
        rw [he, ok_bind, Tokens.writeAll_eq (Nat.le_succ_of_le hie) hes, ok_bind]
        refine ih (h.step (Nat.le_succ_of_le hie) fun m => ?_) (by rw [Array.size_mapIdx]; omega)
        rw [Array.getElem?_mapIdx]
        by_cases hm : i ≤ m ∧ m < e + 1
        · rw [if_pos hm, (h.runTo hrun).markRuns_getElem? hm.1 (Nat.le_of_lt_succ hm.2),
            htoken m hm.1]
          exact congrArg (ts[m]?.map ·) (funext fun t => if_pos hm)
        · rw [if_neg hm]
          exact (congrArg (ts[m]?.map ·) (funext fun t => if_neg hm)).trans Option.map_id'
      · next hw =>
        refine ih (h.step (Nat.le_succ i) fun m => ?_) (by omega)
        split
        · next hm =>
          obtain rfl : m = i := by omega
          rw [hget, markRuns_getElem?_of_not_white ((htoken m hm.1).trans hget)
            (Bool.eq_false_iff.2 hw)]
        · rfl
    · next hi => rw [h.done (Nat.le_of_not_lt hi)]

end

/-! ## Both passes -/

section
variable {ts : List Token} {steps : Nat}

/-- Brackets of tokens without closers are linked as in the other order. -/
theorem bracketsFrom_eq_markBrackets (hts : ∀ t ∈ ts, t.closer = none)
    (hsteps : ts.length < steps) :
    bracketsFrom steps (fun _ => []) 0 ts.toArray = .ok (markBrackets ts).toArray := by
  have hwaiting : Waiting.Before (fun _ => []) 0 := fun _ _ ho => nomatch ho
  have hnone : ([] : List Token).length = 0 := rfl
  have hpass := bracketsFrom_eq hwaiting hnone hts hsteps
  rwa [settle_none] at hpass

/-- White space is linked as in the other order. -/
theorem runsFrom_eq_markRuns (hsteps : ts.length < steps) :
    runsFrom steps 0 ts.toArray = .ok (markRuns ts).toArray := by
  refine runsFrom_eq (fun k => ?_) hsteps
  rw [if_neg (Nat.not_lt_zero k), List.getElem?_toArray]

/-- Linking finds no fault, and it finds the links that are found from the last token to the
first. -/
theorem linkChecked_eq (hsteps : ts.length < steps) :
    linkChecked steps (ts.map unlinked).toArray = .ok (link ts) := by
  have hclosers : ∀ t ∈ ts.map unlinked, t.closer = none := by
    intro t ht
    obtain ⟨u, _, rfl⟩ := List.mem_map.1 ht
    rfl
  have hlength : (bracketed ts).length = ts.length := by
    obtain ⟨free, hb⟩ := bracketed_spec ts
    have hmap := congrArg List.length hb.unlinked
    simpa using hmap
  rw [linkChecked, bracketsFrom_eq_markBrackets hclosers (by rwa [List.length_map]), ok_bind]
  exact runsFrom_eq_markRuns (hlength ▸ hsteps)

end

end Token

end LessCss
