import MacroTrace.Workspace.Basic
/-!
Virtual offsets. Every file has a base offset: an expansion file's base comes from the allocator,
any other file's is zero. An element's virtual range is its file-local range moved by its file's
base, and a call's body range is virtual the same way.
-/
namespace MacroTrace

namespace Session

/-- The base offset of a file: the base of its expansion, or zero for a file that is no
expansion. None when the call it expands does not expand now. -/
def fileStartOffset (f : FileId) : Session (Option Nat) := do
  match ← expansionCall f with
  | none => return some 0
  | some c => return (← expansion c).map (·.base)

/-- The virtual range of an element. -/
def elementRange (e : FileElement) : Session (Option TextRange) := do
  match ← fileStartOffset e.file with
  | none => return none
  | some base => return some (← lift (e.range.shiftRight base))

def elementStart (e : FileElement) : Session (Option Nat) :=
  return (← elementRange e).map (·.start)

/-- The token of a file that starts exactly at a virtual offset. -/
def tokenStartingAt (f : FileId) (off : Nat) : Session (Option FileElement) := do
  let some base ← fileStartOffset f | return none
  let some loc := Offset.sub? off base | return none
  let some root ← tree? f | return none
  if loc ≥ root.width then return none
  match root.tokenAt loc with
  | some t => return if t.start == loc then some ⟨f, root, t⟩ else none
  | none => return none

/-- The virtual range of a call's body. -/
def bodyTextRange (c : MacroCall) : Session (Option TextRange) := do
  let some loc := c.localBodyRange? | return none
  let some base ← fileStartOffset c.file | return none
  return some (← lift (loc.shiftRight base))

end Session

end MacroTrace
