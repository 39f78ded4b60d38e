import LessCss.Proofs.Stream

/-! Nested brackets. Reading token kinds from left to right, an opener is put on a stack and a
closer has to close the bracket on top. Kinds are properly nested if this goes through from the
empty stack to the empty stack. A stretch of a stream is balanced if it goes through from every
stack and leaves it as it was, so that balanced stretches can be put one behind the other and into
brackets; and no token in it is garbage. -/

namespace LessCss

namespace Token.Kind

/-- Whether tokens of this kind open or close a bracket. -/
def isBracket (k : Kind) : Bool := k.opens?.isSome || k.closes?.isSome

/-- Whether tokens of this kind are neither brackets nor garbage. -/
def isPlain (k : Kind) : Bool := !k.isBracket && k != .garbage

/-- The brackets that are open behind a token of this kind, the innermost first, given those before
it; none if it closes what is not innermost. -/
def nest (stack : List Bracket) (k : Kind) : Option (List Bracket) :=
  match k.opens?, k.closes? with
  | some b, _ => some (b :: stack)
  | none, some b =>
    match stack with
    | b' :: rest => if b' = b then some rest else none
    | [] => none
  | none, none => some stack

/-- Every opener is closed by a closer of its own type, the innermost first, and none is left. -/
def Nested (ks : List Kind) : Prop := ks.foldlM nest [] = some []

instance (ks : List Kind) : Decidable (Nested ks) := inferInstanceAs (Decidable (_ = _))

/-- The kinds leave every stack as it was. -/
def Neutral (ks : List Kind) : Prop := ∀ stack, ks.foldlM nest stack = some stack

/-- The kinds leave every stack as it was, and none of them is garbage. -/
structure Orderly (ks : List Kind) : Prop where
  neutral : Neutral ks
  clean : .garbage ∉ ks

variable {k k' : Kind} {ks ls : List Kind} {b : Bracket}

theorem neutral_nil : Neutral [] := fun _ => rfl

theorem Neutral.nested (h : Neutral ks) : Nested ks := h []

theorem Neutral.append (h : Neutral ks) (h' : Neutral ls) : Neutral (ks ++ ls) := by
  intro stack
  rw [List.foldlM_append, h stack]
  exact h' stack

theorem nest_of_not_isBracket (h : k.isBracket = false) (stack : List Bracket) :
    nest stack k = some stack := by
  rw [isBracket, Bool.or_eq_false_iff, Option.isSome_eq_false_iff, Option.isSome_eq_false_iff,
    Option.isNone_iff_eq_none, Option.isNone_iff_eq_none] at h
  rw [nest, h.1, h.2]

theorem neutral_single (h : k.isBracket = false) : Neutral [k] := by
  intro stack
  rw [List.foldlM_cons, nest_of_not_isBracket h]
  rfl

/-- What is neutral stays so in brackets. -/
theorem Neutral.enclose (h : Neutral ks) (ho : k.opens? = some b) (hc : k'.closes? = some b) :
    Neutral (k :: (ks ++ [k'])) := by
  have hno : k'.opens? = none := by
    cases k' <;> first | rfl | cases hc
  intro stack
  have hopen : nest stack k = some (b :: stack) := by rw [nest, ho]
  have hclose : nest (b :: stack) k' = some stack := by rw [nest, hno, hc]; exact if_pos rfl
  rw [List.foldlM_cons, hopen]
  change (ks ++ [k']).foldlM nest (b :: stack) = _
  rw [List.foldlM_append, h]
  change [k'].foldlM nest (b :: stack) = _
  rw [List.foldlM_cons, hclose]
  rfl

theorem orderly_nil : Orderly [] := ⟨neutral_nil, List.not_mem_nil⟩

theorem Orderly.append (h : Orderly ks) (h' : Orderly ls) : Orderly (ks ++ ls) :=
  ⟨h.neutral.append h'.neutral, fun hg => (List.mem_append.1 hg).elim h.clean h'.clean⟩

theorem orderly_single (h : k.isPlain = true) : Orderly [k] := by
  rw [isPlain, Bool.and_eq_true, Bool.not_eq_true', bne_iff_ne] at h
  exact ⟨neutral_single h.1, fun hg => h.2 (List.mem_singleton.1 hg).symm⟩

theorem Orderly.enclose (h : Orderly ks) (ho : k.opens? = some b) (hc : k'.closes? = some b) :
    Orderly (k :: (ks ++ [k'])) := by
  refine ⟨h.neutral.enclose ho hc, fun hg => ?_⟩
  rcases List.mem_cons.1 hg with rfl | hg
  · cases ho
  rcases List.mem_append.1 hg with hg | hg
  · exact h.clean hg
  · rw [← List.mem_singleton.1 hg] at hc
    cases hc

end Token.Kind

namespace Tokens

open Token.Kind

/-- The kinds of the tokens from `i` up to `j`. -/
def kinds (ts : Tokens) (i j : Nat) : List Token.Kind := (ts.extract i j).toList.map Token.kind

/-- The tokens from `i` up to `j` leave the open brackets as they are, and none of them is
garbage. -/
def Balanced (ts : Tokens) (i j : Nat) : Prop := Orderly (ts.kinds i j)

/-- Garbage among the tokens from `i` up to `j` is not the last token of the stream. -/
def Sealed (ts : Tokens) (i j : Nat) : Prop :=
  ∀ m, i ≤ m → m < j → ts.is m .garbage = true → m + 1 < ts.size

/-- Whether a text is that of a bracket, or starts a block comment. -/
def isMarkup (text : String) : Bool :=
  ["(", ")", "[", "]", "\x7b", "\x7d"].contains text || ['/', '*'].isPrefixOf text.toList

/-- Brackets are spelled as brackets, and garbage as a block comment; and no closer is garbage. -/
structure Spelled (ts : Tokens) : Prop where
  markup : ∀ i k, ts.is i k = true → k.isPlain = false → isMarkup (ts.text i) = true
  closer : ∀ i k c, ts.closer? i k = some c → k.opens?.isSome = true → ts.is c .garbage = false

variable {ts : Tokens} {i j l : Nat} {k : Token.Kind} {ks : List Token.Kind}

/-- What ends before the last token holds no garbage at the end of the stream. -/
theorem sealed_of_lt (h : j < ts.size) : ts.Sealed i j := fun m _ hm _ => by omega

theorem kinds_append (hij : i ≤ j) (hjl : j ≤ l) : ts.kinds i j ++ ts.kinds j l = ts.kinds i l := by
  rw [kinds, kinds, kinds, ← List.map_append, ← Array.toList_append, extract_append hij hjl]

theorem kinds_succ (h : ts.is i k = true) : ts.kinds i (i + 1) = [k] := by
  obtain ⟨t, ht, rfl⟩ := Option.map_eq_some_iff.1 (is_iff.1 h)
  rw [kinds, extract_single ht]
  rfl

theorem mem_kinds (h : ts.is l k = true) (hil : i ≤ l) (hlj : l < j) : k ∈ ts.kinds i j := by
  rw [← kinds_append hil (Nat.le_of_lt hlj), ← kinds_append (Nat.le_succ l) hlj, kinds_succ h]
  exact List.mem_append_right _ List.mem_cons_self

theorem Balanced.sealed (h : ts.Balanced i j) : ts.Sealed i j :=
  fun _ him hmj hg => absurd (mem_kinds hg him hmj) h.clean

theorem balanced_self (ts : Tokens) (i : Nat) : ts.Balanced i i := by
  rw [Balanced, kinds, Array.extract_empty_of_stop_le_start (Nat.le_refl i)]
  exact orderly_nil

theorem Balanced.trans (h : ts.Balanced i j) (hij : i ≤ j) (hjl : j ≤ l) (h' : ts.Balanced j l) :
    ts.Balanced i l := by
  rw [Balanced, ← kinds_append hij hjl]
  exact h.append h'

theorem balanced_token (h : ts.is i k = true) (hk : k.isPlain = true) :
    ts.Balanced i (i + 1) := by
  rw [Balanced, kinds_succ h]
  exact orderly_single hk

/-- A token with another text is neither a bracket nor garbage. -/
theorem Spelled.balanced (hs : ts.Spelled) {s : String} (hi : ts.text i = s) (hne : s ≠ "")
    (h : isMarkup s = false) : ts.Balanced i (i + 1) := by
  have hlt := lt_of_text (hi ▸ hne)
  have his : ts.is i ts[i].kind = true :=
    is_iff.2 (by rw [kind?, Array.getElem?_eq_getElem hlt]; rfl)
  refine balanced_token his (eq_true_of_ne_false fun hk => ?_)
  have hm := hs.markup i _ his hk
  rw [hi, h] at hm
  cases hm

theorem balanced_isAny (h : ts.isAny i ks = true) (hks : ∀ k ∈ ks, k.isPlain = true) :
    ts.Balanced i (i + 1) := by
  obtain ⟨k, hk, he⟩ := isAny_iff.1 h
  exact balanced_token (is_iff.2 he) (hks k hk)

/-- A run of tokens none of which is a bracket or garbage. -/
theorem balanced_run (hij : i ≤ j) (hks : ∀ k ∈ ks, k.isPlain = true)
    (h : ∀ m, i ≤ m → m < j → ts.isAny m ks = true) : ts.Balanced i j := by
  obtain ⟨n, rfl⟩ := Nat.exists_eq_add_of_le hij
  induction n with
  | zero => exact balanced_self ts i
  | succ n ih =>
    have hinit := ih (Nat.le_add_right i n) fun m him hm => h m him (by omega)
    exact hinit.trans (Nat.le_add_right i n) (Nat.le_succ (i + n))
      (balanced_isAny (h (i + n) (Nat.le_add_right i n) (by omega)) hks)

/-- Brackets around a balanced stretch. -/
theorem Balanced.enclose {o c : Token.Kind} {b : Bracket} (h : ts.Balanced (i + 1) j) (hij : i < j)
    (ho : ts.is i o = true) (hob : o.opens? = some b) (hc : ts.is j c = true)
    (hcb : c.closes? = some b) : ts.Balanced i (j + 1) := by
  rw [Balanced, ← kinds_append (Nat.le_succ i) (show i + 1 ≤ j + 1 by omega), kinds_succ ho,
    ← kinds_append hij (Nat.le_succ j), kinds_succ hc]
  exact Orderly.enclose h hob hcb

end Tokens

end LessCss
