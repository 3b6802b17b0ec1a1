/-!
Byte offsets. Offsets and lengths are unsigned 32-bit counts: a sum past the largest one is a
fault that stops the computation, while the checked forms answer `none` instead.
-/
namespace MacroTrace

/-- The largest offset, `2 ^ 32 - 1`. -/
def maxOffset : Nat := 4294967295

/-- Ways an offset computation stops. Each has a fixed message. -/
inductive Fault where
  | addOverflow
  | subOverflow
  | shiftOverflow
  | shiftUnderflow
  deriving DecidableEq, Repr, Inhabited

namespace Fault

def message : Fault → String
  | addOverflow => "attempt to add with overflow"
  | subOverflow => "attempt to subtract with overflow"
  | shiftOverflow => "TextRange +offset overflowed"
  | shiftUnderflow => "TextRange -offset overflowed"

end Fault

namespace Offset

def add? (a b : Nat) : Option Nat :=
  if a + b ≤ maxOffset then some (a + b) else none

def sub? (a b : Nat) : Option Nat :=
  if b ≤ a then some (a - b) else none

/-- The sum of two offsets; passing `maxOffset` is a fault. -/
def add (a b : Nat) : Except Fault Nat :=
  if a + b ≤ maxOffset then .ok (a + b) else .error .addOverflow

/-- The difference of two offsets; falling below zero is a fault. -/
def sub (a b : Nat) : Except Fault Nat :=
  if b ≤ a then .ok (a - b) else .error .subOverflow

@[simp] theorem add?_eq_some_iff {a b c : Nat} : add? a b = some c ↔ a + b ≤ maxOffset ∧ a + b = c := by
  unfold add?; split <;> simp only [Option.some.injEq, reduceCtorEq, false_iff, not_and] <;> omega

@[simp] theorem sub?_eq_some_iff {a b c : Nat} : sub? a b = some c ↔ b ≤ a ∧ a - b = c := by
  unfold sub?; split <;> simp only [Option.some.injEq, reduceCtorEq, false_iff, not_and] <;> omega

theorem add_eq_ok_iff {a b c : Nat} : add a b = .ok c ↔ a + b ≤ maxOffset ∧ a + b = c := by
  unfold add; split <;> simp only [Except.ok.injEq, reduceCtorEq, false_iff, not_and] <;> omega

end Offset

end MacroTrace
