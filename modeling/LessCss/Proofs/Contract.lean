import LessCss.Proofs.Coverage
import LessCss.Proofs.Run

/-! Contracts of builders. A builder is started where the lookahead found its construct; given one
reading of the stream, it then asks what the reading answers, and the question is where it ends and
what its nodes stand for. `Meets` puts this as a condition on the program that can be taken apart
step by step. It asks of the requests for insides that these were recognised before, and promises
in turn where insides end.

A run with a memory keeps such promises, since all its answers are those of one reading: one that
agrees with what is remembered in the end. -/

namespace LessCss

open Lookahead Grammar

/-- Token `i` stands somewhere behind an opener that has a closer, so that what is there was not
looked at before building. -/
def Tokens.Deferred (ts : Tokens) (i : Nat) : Prop :=
  ∃ o t c, o < i ∧ ts[o]? = some t ∧ t.closer = some c

theorem Tokens.Deferred.mono {ts : Tokens} {i j : Nat} (h : ts.Deferred i) (hij : i ≤ j) :
    ts.Deferred j := by
  obtain ⟨o, t, c, ho, ht, hc⟩ := h
  exact ⟨o, t, c, by omega, ht, hc⟩

theorem Tokens.deferred_of_closer? {ts : Tokens} {o c j : Nat} {k : Token.Kind}
    (h : ts.closer? o k = some c) (hj : o < j) : ts.Deferred j := by
  obtain ⟨t, ht, hc⟩ := Option.bind_eq_some_iff.1 (Tokens.closer_of_closer? h)
  exact ⟨o, t, c, hj, ht, hc⟩

/-- Token `i` stands right behind an opener that has a closer. -/
def Tokens.Entered (ts : Tokens) (i : Nat) : Prop :=
  ∃ o k c, i = o + 1 ∧ k.opens?.isSome = true ∧ ts.closer? o k = some c

theorem Tokens.Entered.deferred {ts : Tokens} {i : Nat} (h : ts.Entered i) : ts.Deferred i := by
  obtain ⟨o, k, c, rfl, _, hc⟩ := h
  exact deferred_of_closer? hc (Nat.lt_succ_self o)

section
variable {ts : Tokens} {capped : Bool} (A : Reading ts capped)

/-- What has to be known before an inside is built from token `i` on: that it stands behind an
opener, or where the lookahead has already read it, that it has. -/
def Interior.Ready : Interior → Nat → Prop
  | .group, i | .arguments _, i | .block _, i => ts.Entered i
  | .rules close, i =>
    ∃ o, i = o + 1 ∧ ts.closer? o .leftCurly = some close ∧ o + A.len .ruleBody o = close
  | .keyframes close, i =>
    ∃ o, i = o + 1 ∧ ts.closer? o .leftCurly = some close ∧ 0 < A.value (keyframesLength ts o)
  | .selectors, i => 0 < A.len .selectorGroup i
  | .var, i => 0 < A.len .var i

/-- Where an inside ends that was read by the lookahead. -/
def Interior.Ends : Interior → Nat → Nat → Prop
  | .group, _, _ | .arguments _, _, _ | .block _, _, _ => True
  | .rules close, _, k | .keyframes close, _, k => k = close
  | .selectors, i, k => k = i + A.len .selectorGroup i
  | .var, i, k => k = i + A.len .var i

/-- What is known of an inside built from token `i` up to `x.2`. -/
def Interior.Filled (part : Interior) (i : Nat) (x : List Node × Nat) : Prop :=
  Tiles ts i x.2 x.1 ∧ part.Ends A i x.2

/-- The program, run with the answers of the reading, ends with a result that satisfies `Q` or fails
at a token in `E`; all conditions in it hold, insides are requested behind token `lo`, where they
are ready, and every node that is made stands for some tokens. -/
def Plan.Meets {α : Type} (E : Nat → Prop) (lo : Nat) : Plan α → (α → Prop) → Prop
  | .done a, Q => Q a
  | .fail i, _ => E i
  | .look q next, Q => (∃ F, q.Stays ts Scope.top F) ∧ (next (A.value q)).Meets E lo Q
  | .ask r i next, Q => (next (A.tell r i)).Meets E lo Q
  | .build part i next, Q =>
    (lo < i ∧ i ≤ ts.size ∧ part.Ready A i) ∧
      ∀ x, part.Filled A i x → (next x).Meets E lo Q
  | .check holds next, Q => holds = true ∧ next.Meets E lo Q
  | .made node next, Q => (∃ i j, Covers ts i j node) ∧ next.Meets E lo Q

end

namespace Plan

variable {α β : Type} {ts : Tokens} {capped : Bool} {A : Reading ts capped} {E E' : Nat → Prop}
  {lo : Nat}

theorem Meets.mono {p : Plan α} {Q R : α → Prop} (h : p.Meets A E lo Q) (hE : ∀ i, E i → E' i)
    (hQ : ∀ a, Q a → R a) : p.Meets A E' lo R := by
  induction p with
  | done a => exact hQ a h
  | fail i => exact hE i h
  | look q next ih => exact ⟨h.1, ih _ h.2⟩
  | ask r i next ih => exact ih _ h
  | build part i next ih => exact ⟨h.1, fun x hx => ih x (h.2 x hx)⟩
  | check holds next ih => exact ⟨h.1, ih h.2⟩
  | made node next ih => exact ⟨h.1, ih h.2⟩

theorem meets_bind {p : Plan α} {f : α → Plan β} {Q : β → Prop} :
    (p >>= f).Meets A E lo Q ↔ p.Meets A E lo fun a => (f a).Meets A E lo Q := by
  change (p.bind f).Meets A E lo Q ↔ _
  induction p with
  | done a => exact Iff.rfl
  | fail i => exact Iff.rfl
  | look q next ih => exact and_congr Iff.rfl (ih _)
  | ask r i next ih => exact ih _
  | build part i next ih =>
    exact and_congr Iff.rfl (forall_congr' fun x => imp_congr Iff.rfl (ih x))
  | check holds next ih => exact and_congr Iff.rfl ih
  | made node next ih => exact and_congr Iff.rfl ih

end Plan

/-! ## Runs with a memory -/

namespace Parser

variable {α : Type} {ts : Tokens} {capped : Bool} {A : Reading ts capped} {E : Nat → Prop}
  {lo : Nat} {limit : Option Nat}

/-- The error names a token in `E`, or the cap on nesting. -/
def ErrorIn (ts : Tokens) (E : Nat → Prop) (e : Error) : Prop :=
  e = .nestingTooDeep ∨ ∃ i, E i ∧ e = ts.unexpected i

/-- An action, started in a sound state, breaks no condition and gives a result that satisfies `Q`
or an error in `E`, if the reading agrees with what is remembered in the end. -/
def Delivers (A : Reading ts capped) (E : Nat → Prop) (x : Action α) (Q : α → Prop) : Prop :=
  ∀ s : State, s.Sound ts → Supports ts A.tell (x.run s).2.memo →
    (x.run s).2.broken = s.broken ∧ match (x.run s).1 with
      | .ok a => Q a
      | .error e => ErrorIn ts E e

theorem run_plan_delivers {build : Interior → Nat → Action (List Node × Nat)} {Q : α → Prop}
    (hg : ∀ part j s, s.Sound ts → Grows ts limit s ((build part j).run s).2)
    (hb : ∀ part j, lo < j → j ≤ ts.size → part.Ready A j →
      Delivers A E (build part j) (part.Filled A j))
    {p : Plan α} (h : p.Meets A E lo Q) : Delivers A E (p.run (host ts limit build)) Q := by
  induction p with
  | done a => exact fun s _ _ => ⟨rfl, h⟩
  | fail i => exact fun s _ _ => ⟨rfl, Or.inr ⟨i, h, rfl⟩⟩
  | look q next ih =>
    intro s hs hA
    obtain ⟨⟨F, hq⟩, hnext⟩ := h
    have he := (oracle_yields ts limit q s hs).1
    have hrest := run_plan_grows hg (next (q.run (oracle ts limit) s).1) he.sound
    have hn : (q.run (oracle ts limit) s).1 = A.value q :=
      oracleAt_run_eq hs hq rfl A (hA.mono hrest.keeps)
    rw [← hn] at hnext
    obtain ⟨hbroken, hout⟩ := ih _ hnext _ he.sound hA
    exact ⟨hbroken.trans he.broken, hout⟩
  | ask r i next ih =>
    intro s hs hA
    have he := (answer_yields ts limit r i 0 0 s hs).1
    have hrest := run_plan_grows hg (next (answer ts limit r i 0 s).1) he.sound
    have ha : (answer ts limit r i 0 s).1 = A.tell r i := answer_eq_tell hs (hA.mono hrest.keeps)
    rw [Plan.Meets, ← ha] at h
    obtain ⟨hbroken, hout⟩ := ih _ h _ he.sound hA
    exact ⟨hbroken.trans he.broken, hout⟩
  | build part i next ih =>
    intro s hs hA
    obtain ⟨⟨hlo, hi, hready⟩, hnext⟩ := h
    have hgrow := hg part i s hs
    change Supports ts A.tell ((build part i >>= fun x => (next x).run _).run s).2.memo at hA
    change ((build part i >>= fun x => (next x).run _).run s).2.broken = s.broken ∧
      match ((build part i >>= fun x => (next x).run _).run s).1 with | .ok a => _ | .error e => _
    rw [run_bind] at hA ⊢
    cases hres : ((build part i).run s).1 with
    | ok x =>
      rw [hres] at hA
      have hrest := run_plan_grows hg (next x) hgrow.sound
      obtain ⟨hbroken, hout⟩ := hb part i hlo hi hready s hs (hA.mono hrest.keeps)
      rw [hres] at hout
      obtain ⟨hbroken', hout'⟩ := ih x (hnext x hout) _ hgrow.sound hA
      exact ⟨hbroken'.trans hbroken, hout'⟩
    | error e =>
      rw [hres] at hA
      obtain ⟨hbroken, hout⟩ := hb part i hlo hi hready s hs hA
      rw [hres] at hout
      exact ⟨hbroken, hout⟩
  | check holds next ih =>
    intro s hs hA
    obtain ⟨rfl, hnext⟩ := h
    have hc : Grows ts limit s (check true s).2 := check_grows true hs
    obtain ⟨hbroken, hout⟩ := ih hnext _ hc.sound hA
    refine ⟨hbroken.trans ?_, hout⟩
    exact Bool.or_false s.broken
  | made node next ih => exact ih h.2

/-- Insides are built as promised, if the programs that build them meet their contracts. -/
theorem construct_delivers
    (hI : ∀ (part : Interior) (i : Nat), part.Ready A i →
      (part.content ts i).Meets A E i (part.Filled A i))
    (part : Interior) (i depth : Nat) (hready : part.Ready A i) :
    Delivers A E (construct ts limit part i depth) (part.Filled A i) := by
  generalize hn : ts.size - i = n
  induction n using Nat.strongRecOn generalizing part i depth with
  | ind n ih =>
    rw [construct]
    split
    · exact fun s _ _ => ⟨rfl, Or.inl rfl⟩
    · refine run_plan_delivers (fun part' j s hs => ?_) (fun part' j hlo hj hr => ?_)
        (hI part i hready)
      · split
        · exact construct_grows part' j _ hs
        · exact .refl hs
      · rw [dif_pos ⟨hlo, hj⟩]
        exact ih _ (by omega) part' j _ hr rfl

end Parser

end LessCss
