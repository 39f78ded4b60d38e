import LessCss.Proofs.Links

/-! The closer of an opener, read forwards. Links are found from the last token to the first; seen
from an opener, its closer is the first one of its type that no opener between takes. So a link
depends on nothing but the kinds of the tokens behind the opener. -/

namespace LessCss

/-- How many kinds stand before the closer of type `b` that is left when `depth` openers have taken
theirs. -/
def Bracket.seek (b : Bracket) : Nat → List Token.Kind → Option Nat
  | _, [] => none
  | depth, k :: ks =>
    if k.opens? = some b then (b.seek (depth + 1) ks).map (· + 1)
    else if k.closes? = some b then
      if depth = 0 then some 0 else (b.seek (depth - 1) ks).map (· + 1)
    else (b.seek depth ks).map (· + 1)

theorem Token.Kind.closes?_of_opens? {k : Token.Kind} {b : Bracket} (h : k.opens? = some b) :
    k.closes? = none := by
  revert h
  cases k <;> cases b <;> decide

namespace Bracket

variable {b : Bracket} {ks ls : List Token.Kind} {k : Token.Kind} {depth n p : Nat}

theorem seek_opens (h : k.opens? = some b) (depth : Nat) :
    b.seek depth (k :: ks) = (b.seek (depth + 1) ks).map (· + 1) := by
  rw [seek, if_pos h]

theorem seek_closes_zero (h : k.closes? = some b) : b.seek 0 (k :: ks) = some 0 := by
  have ho : k.opens? ≠ some b := fun ho => by
    rw [Token.Kind.closes?_of_opens? ho] at h
    cases h
  rw [seek, if_neg ho, if_pos h, if_pos rfl]

theorem seek_closes_succ (h : k.closes? = some b) (depth : Nat) :
    b.seek (depth + 1) (k :: ks) = (b.seek depth ks).map (· + 1) := by
  have ho : k.opens? ≠ some b := fun ho => by
    rw [Token.Kind.closes?_of_opens? ho] at h
    cases h
  rw [seek, if_neg ho, if_pos h, if_neg (Nat.succ_ne_zero depth)]
  rfl

theorem seek_other (ho : k.opens? ≠ some b) (hc : k.closes? ≠ some b) (depth : Nat) :
    b.seek depth (k :: ks) = (b.seek depth ks).map (· + 1) := by
  rw [seek, if_neg ho, if_neg hc]

/-- What can stand before the kind that is sought: nothing, if it closes, or a kind that leaves
another depth for the rest. -/
theorem seek_cons_cases (h : b.seek depth (k :: ks) = some n) :
    k.closes? = some b ∧ depth = 0 ∧ n = 0 ∨
    ∃ depth' m, n = m + 1 ∧ b.seek depth' ks = some m ∧
      (k.opens? = some b ∧ depth' = depth + 1 ∨
        k.opens? ≠ some b ∧ (k.closes? = some b ∧ depth = depth' + 1 ∨
          k.closes? ≠ some b ∧ depth' = depth)) := by
  by_cases ho : k.opens? = some b
  · rw [seek_opens ho] at h
    obtain ⟨m, hm, rfl⟩ := Option.map_eq_some_iff.1 h
    exact Or.inr ⟨_, m, rfl, hm, Or.inl ⟨ho, rfl⟩⟩
  by_cases hc : k.closes? = some b
  · cases depth with
    | zero =>
      rw [seek_closes_zero hc] at h
      exact Or.inl ⟨hc, rfl, (Option.some.inj h).symm⟩
    | succ depth =>
      rw [seek_closes_succ hc] at h
      obtain ⟨m, hm, rfl⟩ := Option.map_eq_some_iff.1 h
      exact Or.inr ⟨_, m, rfl, hm, Or.inr ⟨ho, Or.inl ⟨hc, rfl⟩⟩⟩
  · rw [seek_other ho hc] at h
    obtain ⟨m, hm, rfl⟩ := Option.map_eq_some_iff.1 h
    exact Or.inr ⟨_, m, rfl, hm, Or.inr ⟨ho, Or.inr ⟨hc, rfl⟩⟩⟩

/-- What is sought is a closer. -/
theorem closes_of_seek (h : b.seek depth ks = some n) : ∃ k, ks[n]? = some k ∧ k.closes? = some b := by
  induction ks generalizing depth n with
  | nil => cases h
  | cons k ks ih =>
    rcases seek_cons_cases h with ⟨hc, _, rfl⟩ | ⟨_, m, rfl, hm, _⟩
    · exact ⟨k, rfl, hc⟩
    · exact ih hm

/-- More kinds behind do not matter. -/
theorem seek_append (h : b.seek depth ks = some n) : b.seek depth (ks ++ ls) = some n := by
  induction ks generalizing depth n with
  | nil => cases h
  | cons k ks ih =>
    rw [List.cons_append]
    rcases seek_cons_cases h with ⟨hc, rfl, rfl⟩ |
      ⟨_, m, rfl, hm, ⟨ho, rfl⟩ | ⟨_, ⟨hc, rfl⟩ | ⟨hc, rfl⟩⟩⟩
    · exact seek_closes_zero hc
    · rw [seek_opens ho, ih hm]
      rfl
    · rw [seek_closes_succ hc, ih hm]
      rfl
    · rw [seek_other ‹_› hc, ih hm]
      rfl

/-- With less to skip, the closer stands earlier. -/
theorem seek_of_lt {depth' : Nat} (hd : depth < depth') (h : b.seek depth' ks = some n) :
    ∃ m, m < n ∧ b.seek depth ks = some m := by
  induction ks generalizing depth depth' n with
  | nil => cases h
  | cons k ks ih =>
    rcases seek_cons_cases h with ⟨_, rfl, _⟩ |
      ⟨_, m, rfl, hm, ⟨ho, rfl⟩ | ⟨_, ⟨hc, rfl⟩ | ⟨hc, rfl⟩⟩⟩
    · omega
    · obtain ⟨l, hl, hs⟩ := ih (show depth + 1 < depth' + 1 by omega) hm
      exact ⟨l + 1, by omega, by rw [seek_opens ho, hs]; rfl⟩
    · cases depth with
      | zero => exact ⟨0, by omega, seek_closes_zero hc⟩
      | succ depth =>
        obtain ⟨l, hl, hs⟩ := ih (Nat.lt_of_succ_lt_succ hd) hm
        exact ⟨l + 1, by omega, by rw [seek_closes_succ hc, hs]; rfl⟩
    · obtain ⟨l, hl, hs⟩ := ih hd hm
      exact ⟨l + 1, by omega, by rw [seek_other ‹_› hc, hs]; rfl⟩

/-- The openers before the closer that is sought have their own closers before it. -/
theorem seek_inside (h : b.seek depth ks = some n) (hp : p < n) (hk : ks[p]? = some k)
    (ho : k.opens? = some b) : ∃ m, b.seek 0 (ks.drop (p + 1)) = some m ∧ p + 1 + m < n := by
  induction ks generalizing depth n p with
  | nil => cases h
  | cons l ks ih =>
    rcases seek_cons_cases h with ⟨_, _, rfl⟩ | ⟨depth', m, rfl, hm, hcases⟩
    · omega
    · cases p with
      | zero =>
        obtain rfl : l = k := Option.some.inj hk
        have hd : 0 < depth' := by
          rcases hcases with ⟨_, rfl⟩ | ⟨hno, _⟩
          · omega
          · exact absurd ho hno
        obtain ⟨q, hq, hs⟩ := seek_of_lt hd hm
        exact ⟨q, hs, by omega⟩
      | succ p =>
        obtain ⟨q, hs, hq⟩ := ih hm (by omega) hk
        exact ⟨q, hs, by omega⟩

end Bracket

/-! ## Linking finds what is sought -/

namespace Token

/-- The closers of type `b` among some that are free. -/
def ofType (b : Bracket) (free : List (Bracket × Nat)) : List Nat :=
  free.filterMap fun x => if x.1 = b then some x.2 else none

theorem ofType_cons_self (b : Bracket) (j : Nat) (free : List (Bracket × Nat)) :
    ofType b ((b, j) :: free) = j :: ofType b free := by
  rw [ofType, List.filterMap_cons, if_pos rfl]
  rfl

theorem ofType_cons_ne {b b' : Bracket} (h : b' ≠ b) (j : Nat) (free : List (Bracket × Nat)) :
    ofType b ((b', j) :: free) = ofType b free := by
  rw [ofType, List.filterMap_cons, if_neg h]
  rfl

theorem takeCloser_fst (b : Bracket) (free : List (Bracket × Nat)) :
    (takeCloser b free).1 = (ofType b free)[0]? := by
  induction free with
  | nil => rfl
  | cons x free ih =>
    obtain ⟨b', j⟩ := x
    rw [takeCloser]
    split
    · next hb =>
      subst hb
      rw [ofType_cons_self]
      rfl
    · next hb =>
      rw [ofType_cons_ne hb]
      exact ih

theorem ofType_takeCloser_self (b : Bracket) (free : List (Bracket × Nat)) :
    ofType b (takeCloser b free).2 = (ofType b free).tail := by
  induction free with
  | nil => rfl
  | cons x free ih =>
    obtain ⟨b', j⟩ := x
    rw [takeCloser]
    split
    · next hb =>
      subst hb
      rw [ofType_cons_self, List.tail_cons]
    · next hb =>
      rw [ofType_cons_ne hb, ofType_cons_ne hb]
      exact ih

theorem ofType_takeCloser_ne {b c : Bracket} (hc : b ≠ c) (free : List (Bracket × Nat)) :
    ofType c (takeCloser b free).2 = ofType c free := by
  induction free with
  | nil => rfl
  | cons x free ih =>
    obtain ⟨b', j⟩ := x
    rw [takeCloser]
    split
    · next hb =>
      subst hb
      rw [ofType_cons_ne hc]
    · next hb =>
      by_cases hbc : b' = c
      · subst hbc
        rw [ofType_cons_self, ofType_cons_self, ih]
      · rw [ofType_cons_ne hbc, ofType_cons_ne hbc]
        exact ih

/-- The closers that are free, and those that are linked to, are the ones that are sought. -/
structure Sought (ts : List Token) (n : Nat) (free : List (Bracket × Nat)) (done : List Token) :
    Prop where
  free : ∀ (b : Bracket) (depth : Nat), (ofType b free)[depth]? = (b.seek depth (ts.map Token.kind)).map (n + ·)
  closer : ∀ (k : Nat) (t : Token) (b : Bracket), done[k]? = some t → t.kind.opens? = some b →
    t.closer = (b.seek 0 ((ts.drop (k + 1)).map Token.kind)).map (n + k + 1 + ·)

theorem linkBracket_sought {t : Token} {ts done : List Token} {n : Nat}
    {free : List (Bracket × Nat)} (h : Sought ts (n + 1) free done) :
    Sought (t :: ts) n (linkBracket (t, n) (free, done)).1
      (linkBracket (t, n) (free, done)).2 := by
  have hshift : ∀ x : Option Nat, (x.map (· + 1)).map (n + ·) = x.map (n + 1 + ·) := by
    intro x
    cases x with
    | none => rfl
    | some m =>
      refine congrArg some ?_
      dsimp only
      omega
  have hbehind : ∀ (k : Nat) (u : Token) (b : Bracket), done[k]? = some u → u.kind.opens? = some b →
      u.closer = (b.seek 0 (((t :: ts).drop (k + 1 + 1)).map Token.kind)).map
        (n + (k + 1) + 1 + ·) := by
    intro k u b hu hb
    rw [h.closer k u b hu hb, List.drop_succ_cons, show n + 1 + k + 1 = n + (k + 1) + 1 by omega]
  unfold linkBracket
  dsimp only
  split
  · next b ho =>
    refine ⟨fun c depth => ?_, ?_⟩
    · rw [List.map_cons]
      by_cases hc : b = c
      · subst hc
        rw [ofType_takeCloser_self, List.getElem?_tail, h.free, Bracket.seek_opens ho, hshift]
      · have hcl : t.kind.closes? ≠ some c := by
          intro hcl
          rw [Kind.closes?_of_opens? ho] at hcl
          cases hcl
        rw [ofType_takeCloser_ne hc, h.free,
          Bracket.seek_other (fun he => hc (Option.some.inj (ho.symm.trans he))) hcl, hshift]
    · rintro (_ | k) u c hu hb
      · cases hu
        obtain rfl : b = c := Option.some.inj (ho.symm.trans hb)
        exact (takeCloser_fst b free).trans (h.free b 0)
      · exact hbehind k u c hu hb
  · next b ho hcl =>
    refine ⟨fun c depth => ?_, ?_⟩
    · rw [List.map_cons]
      have hno : t.kind.opens? ≠ some c := by
        rw [ho]
        intro he
        cases he
      by_cases hc : b = c
      · subst hc
        rw [ofType_cons_self]
        cases depth with
        | zero =>
          rw [Bracket.seek_closes_zero hcl]
          rfl
        | succ depth =>
          rw [List.getElem?_cons_succ, h.free, Bracket.seek_closes_succ hcl, hshift]
      · rw [ofType_cons_ne hc, h.free,
          Bracket.seek_other hno (fun he => hc (Option.some.inj (hcl.symm.trans he))), hshift]
    · rintro (_ | k) u c hu hb
      · cases hu
        rw [ho] at hb
        cases hb
      · exact hbehind k u c hu hb
  · next ho hcl =>
    refine ⟨fun c depth => ?_, ?_⟩
    · have hno : ∀ x : Option Bracket, x = none → x ≠ some c := by
        rintro _ rfl he
        cases he
      rw [List.map_cons, h.free, Bracket.seek_other (hno _ ho) (hno _ hcl), hshift]
    · rintro (_ | k) u c hu hb
      · cases hu
        rw [ho] at hb
        cases hb
      · exact hbehind k u c hu hb

theorem foldr_sought (ts : List Token) (n : Nat) :
    Sought ts n ((ts.zipIdx n).foldr linkBracket ([], [])).1
      ((ts.zipIdx n).foldr linkBracket ([], [])).2 := by
  induction ts generalizing n with
  | nil => exact ⟨fun _ _ => rfl, by simp⟩
  | cons t ts ih =>
    rw [List.zipIdx_cons, List.foldr_cons]
    exact linkBracket_sought (ih (n + 1))

theorem link_kinds (ts : List Token) : (link ts).toList.map Token.kind = ts.map Token.kind := by
  have h := congrArg (List.map Token.kind) (link_unlinked ts)
  rw [List.map_map, List.map_map] at h
  exact h

theorem size_link (ts : List Token) : (link ts).size = ts.length := by
  have h := congrArg List.length (link_unlinked ts)
  rwa [List.length_map, List.length_map, Array.length_toList] at h

theorem kind?_link (ts : List Token) (i : Nat) :
    Tokens.kind? (link ts) i = ts[i]?.map Token.kind := by
  have h := congrArg (·[i]?) (link_kinds ts)
  simp only [List.getElem?_map, Array.getElem?_toList] at h
  exact h

end Token

/-! ## Streams with their links -/

/-- The openers of the stream are linked to the closers that are sought from them. -/
def Tokens.Linked (ts : Tokens) : Prop :=
  ∀ i k b, ts.is i k = true → k.opens? = some b →
    ts.closer? i k = (b.seek 0 ((ts.toList.map Token.kind).drop (i + 1))).map (i + 1 + ·)

theorem Token.link_linked (ts : List Token) : Tokens.Linked (link ts) := by
  intro i k b hk hb
  obtain ⟨t, ht, rfl⟩ := Option.map_eq_some_iff.1 (Tokens.is_iff.1 hk)
  obtain ⟨run, hr⟩ := linked_spec ts
  have hkind := link_kind ts i
  rw [ht] at hkind
  obtain ⟨u, hu, huk⟩ := Option.map_eq_some_iff.1 hkind.symm
  have hcloser : t.closer = u.closer := by
    have hm := congrArg (fun l => l[i]?) hr.closer
    simp only [List.getElem?_map, Array.getElem?_toList, ht, hu, Option.map_some] at hm
    exact Option.some.inj hm
  have hsought := (foldr_sought (ts.map unlinked) 0).closer i u b hu (huk ▸ hb)
  rw [Tokens.closer?, ht, Option.bind_some, if_pos rfl, hcloser, hsought, List.map_drop,
    link_kinds, List.map_map, Nat.zero_add]
  rfl

end LessCss
