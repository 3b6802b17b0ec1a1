import MacroTrace.Text.Offset
/-!
Text ranges: half-open byte intervals `[start, stop)`. A range never runs backwards. Shifting a
range by an offset can fault, and so can building one from a start and a length.
-/
namespace MacroTrace

/-- A half-open interval of byte offsets. -/
structure TextRange where
  start : Nat
  stop : Nat
  le : start ≤ stop := by omega
  deriving DecidableEq

namespace TextRange

instance : Repr TextRange where
  reprPrec r _ := "[" ++ repr r.start ++ ", " ++ repr r.stop ++ ")"

def point (o : Nat) : TextRange := ⟨o, o, Nat.le_refl o⟩

def ofBounds (a b : Nat) : TextRange := ⟨a, max a b, by omega⟩

def len (r : TextRange) : Nat := r.stop - r.start

def isEmpty (r : TextRange) : Bool := r.start == r.stop

def contains (r : TextRange) (o : Nat) : Bool := r.start ≤ o && o < r.stop

def containsInclusive (r : TextRange) (o : Nat) : Bool := r.start ≤ o && o ≤ r.stop

def containsRange (r s : TextRange) : Bool := r.start ≤ s.start && s.stop ≤ r.stop

/-- The common part of two ranges; ranges that only touch meet in an empty range. -/
def intersect (r s : TextRange) : Option TextRange :=
  if h : max r.start s.start ≤ min r.stop s.stop then
    some ⟨max r.start s.start, min r.stop s.stop, h⟩
  else none

/-- The least range holding both. -/
def cover (r s : TextRange) : TextRange :=
  ⟨min r.start s.start, max r.stop s.stop, by have := r.le; have := s.le; omega⟩

def ordering (r s : TextRange) : Ordering :=
  if r.stop ≤ s.start then .lt
  else if s.stop ≤ r.start then .gt
  else .eq

/-- The range of `len` bytes from `start`; an end past `maxOffset` is a fault. -/
def ofLength (start len : Nat) : Except Fault TextRange :=
  if h : start + len ≤ maxOffset then .ok ⟨start, start + len, by omega⟩ else .error .addOverflow

/-- The range moved `d` bytes towards the end, when it stays in range. -/
def shiftRight? (r : TextRange) (d : Nat) : Option TextRange :=
  if r.stop + d ≤ maxOffset then some ⟨r.start + d, r.stop + d, by have := r.le; omega⟩ else none

/-- The range moved `d` bytes towards the start, when it stays in range. -/
def shiftLeft? (r : TextRange) (d : Nat) : Option TextRange :=
  if h : d ≤ r.start then some ⟨r.start - d, r.stop - d, by have := r.le; omega⟩ else none

def shiftRight (r : TextRange) (d : Nat) : Except Fault TextRange :=
  match r.shiftRight? d with
  | some s => .ok s
  | none => .error .shiftOverflow

def shiftLeft (r : TextRange) (d : Nat) : Except Fault TextRange :=
  match r.shiftLeft? d with
  | some s => .ok s
  | none => .error .shiftUnderflow

@[simp] theorem len_point (o : Nat) : (point o).len = 0 := by simp [point, len]

theorem contains_iff (r : TextRange) (o : Nat) : r.contains o = true ↔ r.start ≤ o ∧ o < r.stop := by
  simp [contains]

theorem containsRange_iff (r s : TextRange) :
    r.containsRange s = true ↔ r.start ≤ s.start ∧ s.stop ≤ r.stop := by
  simp [containsRange]

end TextRange

end MacroTrace
