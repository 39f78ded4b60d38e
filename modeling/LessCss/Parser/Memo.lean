import LessCss.Rule

/-! The memory of a parse: for each token, the answers that rules have given about it. A slot is a
function from rules to remembered answers, and the memory has one slot for each token, so the two
laws below say all there is to know about writing.

There are 32 bits for the length of a match. Streams are taken to be so short that a match inside
the stream loses nothing by that, as it is below 2³² tokens. But links of tokens may point past the
end of the stream, and a match that follows such a link is as long as the link says. -/

namespace LessCss

/-! ## What is remembered of an answer -/

/-- Whether a match at token `i` of `n` tokens can be remembered: it stays inside the stream, or its
length fits into 32 bits. In a stream of 2³² tokens or more, a match inside the stream is remembered
although 32 bits could hold only a part of its length. -/
def Match.storable {σ : Type} (m : Match σ) (n i : Nat) : Bool :=
  i + m.length ≤ n || m.length < UInt32.size

/-- What is remembered of an answer about token `i` of `n` tokens; a match that is too long counts
as none. -/
def Answer.stored {r : Rule} (a : Answer r) (n i : Nat) : Answer r :=
  Option.filter (·.storable n i) a

@[simp] theorem Answer.stored_none {r : Rule} (n i : Nat) :
    Answer.stored (none : Answer r) n i = none := rfl

theorem Answer.stored_eq_some_iff {r : Rule} {a : Answer r} {n i : Nat} {m : Match r.Shape} :
    a.stored n i = some m ↔ a = some m ∧ (i + m.length ≤ n ∨ m.length < UInt32.size) := by
  simp [stored, Match.storable, Option.filter_eq_some_iff]

/-- An answer that stays inside the stream is remembered as it is. -/
theorem Answer.stored_eq_self {r : Rule} {a : Answer r} {n i : Nat} (h : i + a.length ≤ n) :
    a.stored n i = a := by
  cases a with
  | none => rfl
  | some m => exact Answer.stored_eq_some_iff.2 ⟨rfl, Or.inl h⟩

/-- Below 2³² tokens, 32 bits hold the length of what is remembered of an answer. -/
theorem Answer.toNat_length_stored {r : Rule} (a : Answer r) {n : Nat} (i : Nat)
    (hn : n < UInt32.size) : (UInt32.ofNat (a.stored n i).length).toNat = (a.stored n i).length := by
  refine UInt32.toNat_ofNat_of_lt' ?_
  cases h : a.stored n i with
  | none =>
    rw [Answer.length_none]
    decide
  | some m =>
    rw [Answer.length_some]
    rcases (Answer.stored_eq_some_iff.1 h).2 with hinside | hfits
    · omega
    · exact hfits

/-! ## Slots -/

/-- The answers remembered about one token. -/
def Slot : Type := (r : Rule) → Option (Answer r)

/-- Nothing is remembered. -/
def Slot.empty : Slot := fun _ => none

/-- Remembers the answer of rule `r`. -/
def Slot.put (s : Slot) (r : Rule) (a : Answer r) : Slot :=
  fun r' => if h : r = r' then some (h ▸ a) else s r'

@[simp] theorem Slot.put_self (s : Slot) (r : Rule) (a : Answer r) : s.put r a r = some a := by
  simp [Slot.put]

theorem Slot.put_of_ne (s : Slot) {r r' : Rule} (a : Answer r) (h : r ≠ r') :
    s.put r a r' = s r' := by
  simp [Slot.put, h]

/-! ## The memory -/

/-- One slot for each token. -/
structure Memo where
  slots : Array Slot

namespace Memo

/-- The memory for `n` tokens, with nothing in it. -/
def empty (n : Nat) : Memo := ⟨Array.replicate n Slot.empty⟩

/-- What is remembered of rule `r` at token `i`. -/
def get? (m : Memo) (r : Rule) (i : Nat) : Option (Answer r) := m.slots[i]?.bind (· r)

/-- Remembers what rule `r` says about token `i`. -/
def insert (m : Memo) (r : Rule) (i : Nat) (a : Answer r) : Memo :=
  ⟨m.slots.modify i (·.put r a)⟩

/-- The number of tokens there is room for. -/
def size (m : Memo) : Nat := m.slots.size

@[simp] theorem size_empty (n : Nat) : (empty n).size = n := by
  simp [empty, size]

@[simp] theorem size_insert (m : Memo) (r : Rule) (i : Nat) (a : Answer r) :
    (m.insert r i a).size = m.size := by
  simp [insert, size]

theorem get?_empty (n : Nat) (r : Rule) (i : Nat) : (empty n).get? r i = none := by
  by_cases h : i < n <;> simp [get?, empty, Slot.empty, h]

theorem get?_insert_self (m : Memo) (r : Rule) (i : Nat) (a : Answer r) (h : i < m.size) :
    (m.insert r i a).get? r i = some a := by
  have h' : i < m.slots.size := h
  rw [get?, insert, Array.getElem?_modify]
  simp [h']

theorem get?_insert_of_ne (m : Memo) {r r' : Rule} {i j : Nat} (a : Answer r)
    (h : i ≠ j ∨ r ≠ r') : (m.insert r i a).get? r' j = m.get? r' j := by
  by_cases hij : i = j
  · subst hij
    have hr : r ≠ r' := by simpa using h
    rw [get?, insert, Array.getElem?_modify, get?]
    cases m.slots[i]? <;> simp [Slot.put_of_ne _ _ hr]
  · rw [get?, insert, Array.getElem?_modify, if_neg hij, get?]

end Memo

end LessCss
