/-!
Binary search with a fixed probe sequence. The window starts as the whole list; each round probes
the element `size / 2` past the window's base and keeps the upper part unless the probe answers
`gt`, and the window shrinks by `size / 2`. One last probe at the base decides. On a list that is
partitioned for the probe, the answer is the usual one; on any other list the probe sequence
itself fixes it, and so does which elements get probed.
-/
namespace MacroTrace

/-- Where a search ended: on an element that compares equal, or at a gap between elements. -/
inductive SearchResult where
  | found (index : Nat)
  | gap (index : Nat)
  deriving DecidableEq, Repr

namespace SearchResult

def index : SearchResult → Nat
  | found i => i
  | gap i => i

end SearchResult

section
variable {m : Type → Type} [Monad m] {α : Type}

def probeAt (xs : List α) (probe : α → m Ordering) (i : Nat) : m Ordering :=
  match xs[i]? with
  | some x => probe x
  | none => pure .gt

def searchWindow (xs : List α) (probe : α → m Ordering) (base size : Nat) : m SearchResult :=
  if size ≤ 1 then do
    match ← probeAt xs probe base with
    | .eq => pure (.found base)
    | .lt => pure (.gap (base + 1))
    | .gt => pure (.gap base)
  else do
    let half := size / 2
    let c ← probeAt xs probe (base + half)
    searchWindow xs probe (if c == .gt then base else base + half) (size - half)
termination_by size
decreasing_by omega

/-- Binary search by a three-way probe that says how each element compares with the target. -/
def searchBy (xs : List α) (probe : α → m Ordering) : m SearchResult :=
  if xs.isEmpty then pure (.gap 0) else searchWindow xs probe 0 xs.length

/-- The index of the first element failing `pred`, when the elements satisfying it come first. -/
def partitionPoint (xs : List α) (pred : α → m Bool) : m Nat := do
  let r ← searchBy xs fun x => do return if (← pred x) then .lt else .gt
  return r.index

end

end MacroTrace
