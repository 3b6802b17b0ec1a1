import MacroTrace.Trace.Offsets
/-!
Mapping between a call's body and its expansion, in virtual offsets. An expansion offset maps
to at most one body offset; a body offset maps to every expansion offset it was copied to. A
range of an expansion maps back through every enclosing expansion until its fragments land in a
source file; ambiguity at any level, a missing enclosing expansion, or a chain deeper than the
limit rejects the whole range.
-/
namespace MacroTrace

/-- A fragment's source moved from body-relative to virtual, when it starts within the body, end
included. -/
def Segment.fromBodyRelative? (f : Segment) (body : TextRange) : Option Segment :=
  (f.shiftRight? body.start).filter (·.src ≤ body.stop)

namespace Session

/-- A virtual offset made relative to the start of a call's body, when the body holds it. -/
def toBodyRelative (c : MacroCall) (off : Nat) : Session (Option Nat) := do
  let some body ← bodyTextRange c | return none
  return if body.contains off then some (off - body.start) else none

/-- A body-relative offset made virtual, when it stays within the body, end included. -/
def fromBodyRelative (c : MacroCall) (rel : Nat) : Session (Option Nat) := do
  let some body ← bodyTextRange c | return none
  return (Offset.add? body.start rel).filter (· ≤ body.stop)

def offsetToBodyRelative (c : MacroCall) (off : Nat) : Session (Option Nat) := do
  let some e ← expansion c | return none
  let some loc := Offset.sub? off e.base | return none
  return (← lift (e.map.toBody loc)).toOption

/-- The virtual body offset that a virtual offset of a call's expansion was copied from. -/
def offsetToBody (c : MacroCall) (off : Nat) : Session (Option Nat) := do
  let some rel ← offsetToBodyRelative c off | return none
  fromBodyRelative c rel

/-- Every virtual offset of an expansion that a virtual body offset was copied to; none when the
body does not hold the offset. -/
def offsetToExpansion (c : MacroCall) (e : Expansion) (off : Nat) : Session (Option (List Nat)) := do
  let some rel ← toBodyRelative c off | return none
  let locals ← lift (e.map.toExpansion rel)
  return some (← locals.mapM fun l => lift (Offset.add l e.base))

/-- Rounds of the range work list: each pops the newest pending query; a fragment that lands in
a file that is itself an expansion becomes a query of the enclosing call, one level deeper. -/
def rangeRounds (limit : Nat) : Nat → List (MacroCall × Segment × Nat) → List TextRange →
    Session (List TextRange)
  | 0, _, acc => return acc
  | _ + 1, [], acc => return acc
  | n + 1, (c, q, depth) :: work, acc => do
    if depth > limit then return []
    let some e ← expansion c | return []
    let some loc := q.shiftLeft? e.base | rangeRounds limit n work acc
    match ← lift (e.map.rangeToBody loc) with
    | .unmapped => rangeRounds limit n work acc
    | .ambiguous => return []
    | .mapped frags =>
      let some body ← bodyTextRange c | rangeRounds limit n work acc
      let frags := frags.filterMap (Segment.fromBodyRelative? · body)
      match ← expansionCall c.file with
      | none =>
        let rs ← frags.mapM fun f => lift f.srcRange
        rangeRounds limit n work (acc ++ rs)
      | some parent =>
        rangeRounds limit n (frags.map (fun f => (parent, f, depth + 1)) ++ work) acc

/-- The source ranges that a virtual range of a call's expansion was copied from, in expansion
order. -/
def rangeToBody (c : MacroCall) (r : TextRange) : Session (List TextRange) := do
  let limit ← maxDepth
  rangeRounds limit ((limit + 2) * (r.len + 2)) [(c, ⟨r.start, r.start, r.len⟩, 1)] []

/-- The single source range of the same length that a range was copied from. -/
def rangeToBodyStrict (c : MacroCall) (r : TextRange) : Session (Option TextRange) := do
  match ← rangeToBody c r with
  | [s] => return if s.len == r.len then some s else none
  | _ => return none

end Session

end MacroTrace
