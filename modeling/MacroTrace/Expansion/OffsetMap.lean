import MacroTrace.Text.Range
import MacroTrace.Search
/-!
Offset maps between a macro call's body and its expansion. A segment says that `len` bytes at
`dst` in the expansion were copied from `src` in the body (body-relative). A map keeps its
segments sorted by destination, then source, and records whether destinations are disjoint: a
disjoint map is searched by bisection, any other is scanned, and a lookup with two answers is
ambiguous.

Offsets are 32-bit: reading a segment's end may overflow, and where it does the lookup faults,
in the order the segments are visited.
-/
namespace MacroTrace

/-- `len` bytes at `dst` in an expansion copied from `src` in the call body. -/
structure Segment where
  src : Nat
  dst : Nat
  len : Nat
  deriving DecidableEq, Repr, Inhabited

/-- The answer of a lookup: one value, nothing, or more than one value. -/
inductive Outcome (α : Type) where
  | mapped (a : α)
  | unmapped
  | ambiguous
  deriving DecidableEq, Repr

namespace Outcome

def toOption {α : Type} : Outcome α → Option α
  | mapped a => some a
  | _ => none

end Outcome

namespace Segment

def srcEnd (s : Segment) : Except Fault Nat := Offset.add s.src s.len

def dstEnd (s : Segment) : Except Fault Nat := Offset.add s.dst s.len

def srcRange (s : Segment) : Except Fault TextRange := TextRange.ofLength s.src s.len

def dstRange (s : Segment) : Except Fault TextRange := TextRange.ofLength s.dst s.len

/-- The segment with its source moved `d` bytes towards the start, when that stays at or
above zero. -/
def shiftLeft? (s : Segment) (d : Nat) : Option Segment :=
  (Offset.sub? s.src d).map fun src => { s with src }

/-- The segment with its source moved `d` bytes towards the end, when that stays in range. -/
def shiftRight? (s : Segment) (d : Nat) : Option Segment :=
  (Offset.add? s.src d).map fun src => { s with src }

/-- The part of the segment whose destination lies in a range. An empty range selects the point
it sits on, when the segment covers that point; otherwise the common part must not be empty. -/
def dstIntersection (s : Segment) (r : TextRange) : Except Fault (Option Segment) := do
  let d ← s.dstRange
  let common : Option TextRange :=
    if r.isEmpty then (if d.contains r.start then some r else none)
    else (d.intersect r).filter (!·.isEmpty)
  match common with
  | none => return none
  | some c =>
    let src ← Offset.add s.src (c.start - s.dst)
    return some ⟨src, c.start, c.len⟩

def le (a b : Segment) : Bool := a.dst < b.dst || (a.dst == b.dst && a.src ≤ b.src)

theorem le_trans (a b c : Segment) : a.le b = true → b.le c = true → a.le c = true := by
  simp only [le, Bool.or_eq_true, Bool.and_eq_true, decide_eq_true_eq, beq_iff_eq]
  omega

theorem le_total (a b : Segment) : (a.le b || b.le a) = true := by
  simp only [le, Bool.or_eq_true, Bool.and_eq_true, decide_eq_true_eq, beq_iff_eq]
  omega

end Segment

def TextRange.overlaps (a b : TextRange) : Bool :=
  if a.isEmpty || b.isEmpty then a.start == b.start
  else a.start < b.stop && b.start < a.stop

/-- Whether each segment's destination ends at or before the next one's starts. The check stops
at the first pair that fails it. -/
def dstDisjoint : List Segment → Except Fault Bool
  | [] | [_] => pure true
  | a :: b :: rest => do
    if (← a.dstEnd) ≤ b.dst then dstDisjoint (b :: rest) else return false

/-- An offset map: segments sorted by destination then source, and whether their destinations
are disjoint. -/
structure OffsetMap where
  segments : List Segment
  disjoint : Bool
  deriving DecidableEq, Repr, Inhabited

namespace OffsetMap

/-- The map of a list of segments. Sorting keeps the input order of equal keys. Checking
disjointness reads segment ends up to the first pair that overlaps, which may fault. -/
def ofList (segs : List Segment) : Except Fault OffsetMap := do
  let sorted := segs.mergeSort Segment.le
  let disjoint ← dstDisjoint sorted
  return ⟨sorted, disjoint⟩

def isEmpty (m : OffsetMap) : Bool := m.segments.isEmpty

/-- The first segment whose destination could hold an offset: bisection for the first whose end
lies past it. -/
def firstEndingAfter (m : OffsetMap) (o : Nat) : Except Fault Nat :=
  partitionPoint m.segments fun s => do return (← s.dstEnd) ≤ o

/-- Among segments from the first candidate on, while they start at or before the offset, the
first whose destination holds it; empty segments at the offset are passed over. -/
def findIn (o : Nat) : List Segment → Except Fault (Option Segment)
  | [] => pure none
  | s :: rest =>
    if s.dst ≤ o then do
      if (← s.dstRange).contains o then return some s else findIn o rest
    else pure none

/-- The body offset that an expansion offset was copied from. -/
def toBody (m : OffsetMap) (o : Nat) : Except Fault (Outcome Nat) := do
  if m.disjoint then
    let i ← m.firstEndingAfter o
    match ← findIn o (m.segments.drop i) with
    | some s => return .mapped (← Offset.add s.src (o - s.dst))
    | none => return .unmapped
  else scan m.segments none
where
  scan : List Segment → Option Nat → Except Fault (Outcome Nat)
    | [], found => pure (match found with | some v => .mapped v | none => .unmapped)
    | s :: rest, found => do
      if (← s.dstRange).contains o then
        if found.isSome then return .ambiguous
        let v ← Offset.add s.src (o - s.dst)
        scan rest (some v)
      else scan rest found

/-- Every expansion offset that a body offset was copied to, in segment order. -/
def toExpansion (m : OffsetMap) (o : Nat) : Except Fault (List Nat) :=
  go m.segments
where
  go : List Segment → Except Fault (List Nat)
    | [] => pure []
    | s :: rest => do
      if (← s.srcRange).contains o then
        let v ← Offset.add s.dst (o - s.src)
        return v :: (← go rest)
      else go rest

/-- The body fragments that an expansion range was copied from. The query's source side is the
position looked up; its destination is carried into each fragment, so a fragment records which
part of the query it covers. Two fragments covering a common part make the answer ambiguous. -/
def rangeToBody (m : OffsetMap) (q : Segment) : Except Fault (Outcome (List Segment)) := do
  let pos ← q.srcRange
  let candidates ←
    if m.disjoint then do
      let i ← partitionPoint m.segments fun s => do return (← s.dstEnd) ≤ pos.start
      pure (m.segments.drop i)
    else pure m.segments
  go pos candidates []
where
  go (pos : TextRange) : List Segment → List Segment → Except Fault (Outcome (List Segment))
    | [], acc => pure (if acc.isEmpty then .unmapped else .mapped acc.reverse)
    | s :: rest, acc => do
      if m.disjoint && s.dst > pos.stop then
        return (if acc.isEmpty then .unmapped else .mapped acc.reverse)
      match ← s.dstIntersection pos with
      | none => go pos rest acc
      | some part =>
        let dst ← Offset.add q.dst (part.dst - pos.start)
        let frag : Segment := ⟨part.src, dst, part.len⟩
        if ← overlapsAny frag acc.reverse then return .ambiguous
        go pos rest (frag :: acc)
  overlapsAny (frag : Segment) : List Segment → Except Fault Bool
    | [] => pure false
    | f :: fs => do
      let a ← f.dstRange
      let b ← frag.dstRange
      if a.overlaps b then return true else overlapsAny frag fs

end OffsetMap

end MacroTrace
