import MacroTrace.Text.Offset
/-!
The base-offset allocator. Each expansion file gets a base offset in one shared 32-bit space, so
that offsets of different expansion files never collide. An expansion of `len` bytes reserves
`len + 1` offsets, so even empty expansions get distinct bases. When the space runs out the
allocator refuses and stays as it was.
-/
namespace MacroTrace

/-- The allocator: the next free base offset. -/
structure Allocator where
  next : Nat := 0
  deriving DecidableEq, Repr, Inhabited

namespace Allocator

/-- Reserves `len + 1` offsets: the base handed out, and the allocator after it, or `none` when
the reservation does not fit. -/
def allocate (a : Allocator) (len : Nat) : Option Nat × Allocator :=
  match Offset.add? len 1 with
  | none => (none, a)
  | some reserve =>
    match Offset.add? a.next reserve with
    | none => (none, a)
    | some next => (some a.next, ⟨next⟩)

def allocateAll (a : Allocator) : List Nat → List (Option Nat)
  | [] => []
  | len :: lens =>
    let (base, a') := a.allocate len
    base :: allocateAll a' lens

end Allocator

end MacroTrace
