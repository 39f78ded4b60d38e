import LessCss.Grammar
import LessCss.Node.Reprint
import LessCss.Proofs.Nesting

/-! Which tokens a node stands for. A node of tokens `i` up to `j` holds the content of tokens `lo`
up to `hi`; the tokens before and behind are the marks that its kind leaves out. The children of a
branch stand for stretches that follow each other without a gap. -/

namespace LessCss

open Tokens

/-- An opener of kind `k` at token `i`, its content, and its closer at token `hi`. -/
def Enclosed (ts : Tokens) (k : Token.Kind) (i lo hi j : Nat) : Prop :=
  ts.closer? i k = some hi ∧ lo = i + 1 ∧ j = hi + 1

/-- A mark of kind `k` at token `i`, and content behind it. -/
def Marked (ts : Tokens) (k : Token.Kind) (i lo hi j : Nat) : Prop :=
  ts.is i k = true ∧ lo = i + 1 ∧ hi = j

/-- The tokens that a kind leaves out around its content are its marks. -/
def Framed (ts : Tokens) (k : Node.Kind) (i lo hi j : Nat) : Prop :=
  match k with
  | .block => Enclosed ts .leftCurly i lo hi j
  | .parentheses | .arguments => Enclosed ts .leftParen i lo hi j
  | .brackets => Enclosed ts .leftSquare i lo hi j
  | .attributeSelector =>
    ts.is i .leftSquare = true ∧ lo = i + 1 ∧ ts.is hi .rightSquare = true ∧ j = hi + 1
  | .percentage => lo = i ∧ ts.is hi .percent = true ∧ j = hi + 1
  | .varList => lo = i ∧ (∀ m, hi ≤ m → m < j → ts.is m .dot = true) ∧ j = hi + 3
  | .interpolation =>
    ts.is i .atSign = true ∧ ts.is (i + 1) .leftCurly = true ∧ lo = i + 2 ∧
      ts.is hi .rightCurly = true ∧ j = hi + 1
  | .uri => ts.text i = "url" ∧ Enclosed ts .leftParen (i + 1) lo hi j
  | .expression => ts.text i = "expression" ∧ Enclosed ts .leftParen (i + 1) lo hi j
  | .escapedString => Marked ts .tilde i lo hi j
  | .color => Marked ts .hash i lo hi j
  | .idSelector => Marked ts .hash i lo hi j ∧ lo < hi
  | .classSelector => Marked ts .dot i lo hi j ∧ lo < hi
  | .var | .atKeyword => Marked ts .atSign i lo hi j ∧ lo < hi
  | .pseudoClass => Marked ts .colon i lo hi j ∧ lo < hi
  | .pseudoElement => ts.is i .colon = true ∧ Marked ts .colon (i + 1) lo hi j ∧ lo < hi
  | .blockComment | .lineComment => False
  | _ => lo = i ∧ hi = j

/-- The kinds of leaves whose text can be anything. -/
def Node.Kind.isVerbatim : Node.Kind → Bool
  | .raw | .progid | .expression => true
  | _ => false

/-- What is known of the brackets and the garbage in the text of a leaf: where the text can be
anything, garbage in it is not the end of the stream, and else the text is balanced. -/
def Textual (ts : Tokens) (k : Node.Kind) (lo hi : Nat) : Prop :=
  k.isVerbatim = true ∧ (ts.Spelled → ts.Sealed lo hi) ∨ (ts.Spelled → ts.Balanced lo hi)

theorem Textual.sealed {ts : Tokens} {k : Node.Kind} {lo hi : Nat} (h : Textual ts k lo hi)
    (hs : ts.Spelled) : ts.Sealed lo hi :=
  h.elim (fun h => h.2 hs) fun h => (h hs).sealed

mutual
/-- The node stands for the tokens from `i` up to `j`. Only a raw text can stand for none, and a
leaf is of a kind whose opening mark counts for where its text starts. -/
inductive Covers (ts : Tokens) : Nat → Nat → Node → Prop
  | leaf {k : Node.Kind} {i lo hi j : Nat} (frame : Framed ts k i lo hi j) (le : lo ≤ hi)
    (lt : i < j ∨ k = .raw ∧ i ≤ j) (opening : k.delimiters.opening = k.marks.1.length)
    (textual : Textual ts k lo hi) :
    Covers ts i j (.leaf k (ts.join lo hi) (ts.position i))
  | blockComment {i : Nat} (is : ts.is i .blockComment = true) :
    Covers ts i (i + 1) (.leaf .blockComment
      (Text.dropBack "*/" (Text.dropFront "/*" (ts.text i))) (ts.position i))
  | lineComment {i : Nat} (is : ts.is i .lineComment = true) :
    Covers ts i (i + 1) (.leaf .lineComment (Text.dropFront "//" (ts.text i)) (ts.position i))
  | branch {k : Node.Kind} {i lo hi j : Nat} {cs : List Node} (frame : Framed ts k i lo hi j)
    (lt : i < j) (tiles : Tiles ts lo hi cs) : Covers ts i j (.branch k cs (ts.position i))

/-- The nodes stand for the tokens from `i` up to `j`, one behind the other. -/
inductive Tiles (ts : Tokens) : Nat → Nat → List Node → Prop
  | nil {i : Nat} : Tiles ts i i []
  | cons {i j l : Nat} {n : Node} {ns : List Node} (first : Covers ts i j n)
    (rest : Tiles ts j l ns) : Tiles ts i l (n :: ns)
end

variable {ts : Tokens} {i j l : Nat}

/-- A kind whose content is all of its tokens has no opening mark. -/
theorem Framed.opening_eq {k : Node.Kind} (h : Framed ts k i i j j) :
    k.delimiters.opening = k.marks.1.length := by
  cases k <;> first
    | rfl
    | (simp only [Framed, Marked] at h; omega)

theorem Covers.le {n : Node} (h : Covers ts i j n) : i ≤ j := by
  cases h with
  | leaf _ _ lt _ _ => omega
  | blockComment _ => omega
  | lineComment _ => omega
  | branch frame lt tiles => omega

theorem Covers.single {n : Node} (h : Covers ts i j n) : Tiles ts i j [n] := .cons h .nil

theorem Tiles.append {ns ms : List Node} (h : Tiles ts i j ns) (h' : Tiles ts j l ms) :
    Tiles ts i l (ns ++ ms) := by
  induction ns generalizing i with
  | nil =>
    cases h
    exact h'
  | cons n ns ih =>
    cases h with
    | cons first rest => exact .cons first (ih rest)

theorem Tiles.cast {ns : List Node} (h : Tiles ts i j ns) (hjl : j = l) : Tiles ts i l ns :=
  hjl ▸ h

theorem Tiles.eq_of_nil (h : Tiles ts i j []) : i = j := by
  cases h
  rfl

theorem Tiles.le {ns : List Node} (h : Tiles ts i j ns) : i ≤ j := by
  induction ns generalizing i with
  | nil =>
    cases h
    exact Nat.le_refl _
  | cons n ns ih =>
    cases h with
    | cons first rest => exact Nat.le_trans first.le (ih rest)

end LessCss
