/-! Places in a text. Lines and columns count from 1, and a column counts characters. A line break
is a line feed, a carriage return, or the two together; together they are one break, so moving
past a text looks one character ahead. -/

namespace LessCss

/-- A line and a column, both counted from 1. -/
structure Position where
  line : Nat
  column : Nat
deriving DecidableEq

namespace Position

/-- Where every text begins. -/
def origin : Position := ⟨1, 1⟩

instance : Inhabited Position := ⟨origin⟩

/-- The place `n` columns further on the same line. -/
def shift (p : Position) (n : Nat) : Position := ⟨p.line, p.column + n⟩

/-- Moves past `c`, given the character after it. A carriage return before a line feed moves
nothing: the line feed makes the break. -/
def step (p : Position) (c : Char) (next : Option Char) : Position :=
  if c = '\r' ∧ next = some '\n' then p
  else if c = '\n' ∨ c = '\r' then ⟨p.line + 1, 1⟩
  else ⟨p.line, p.column + 1⟩

/-- Moves past a list of characters. -/
def advanceChars (p : Position) : List Char → Position
  | [] => p
  | c :: cs => (p.step c cs.head?).advanceChars cs

/-- Moves past a text. -/
def advance (p : Position) (text : String) : Position := p.advanceChars text.toList

/-! ## Order: the line decides, then the column -/

instance : LT Position := ⟨fun p q => p.line < q.line ∨ p.line = q.line ∧ p.column < q.column⟩

instance : LE Position := ⟨fun p q => p < q ∨ p = q⟩

instance (p q : Position) : Decidable (p < q) :=
  inferInstanceAs (Decidable (p.line < q.line ∨ p.line = q.line ∧ p.column < q.column))

instance (p q : Position) : Decidable (p ≤ q) := inferInstanceAs (Decidable (p < q ∨ p = q))

instance : Ord Position where
  compare p q := if p < q then .lt else if p = q then .eq else .gt

theorem lt_def {p q : Position} :
    p < q ↔ p.line < q.line ∨ p.line = q.line ∧ p.column < q.column := Iff.rfl

theorem compare_eq_lt {p q : Position} : compare p q = .lt ↔ p < q := by
  by_cases h : p < q <;> by_cases h' : p = q <;> simp [compare, h, h']

/-! ## Text form -/

/-- The place as `line:column`. -/
def render (p : Position) : String := toString p.line ++ ":" ++ toString p.column

/-- The stretch between two places, as `line:column..line:column`. -/
def renderSpan (p q : Position) : String := p.render ++ ".." ++ q.render

@[simp] theorem advance_empty (p : Position) : p.advance "" = p := rfl

@[simp] theorem shift_zero (p : Position) : p.shift 0 = p := rfl

theorem shift_shift (p : Position) (m n : Nat) : (p.shift m).shift n = p.shift (m + n) := by
  simp [shift, Nat.add_assoc]

end Position

end LessCss
