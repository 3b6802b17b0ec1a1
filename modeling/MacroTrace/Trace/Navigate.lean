import MacroTrace.Trace.Context
/-!
Navigation out of expansions. A navigation target is the source token an element (or a named
item's name) was expanded from, or else the path of the outermost call. Inlay hints are placed by
mapping an offset and the statement around it out call by call, refusing when the statement was
not copied whole from one piece of a call body. Frames list the calls and includes between an
element and source text, innermost first.
-/
namespace MacroTrace

/-- How a frame's file was produced. -/
inductive FrameKind where
  | macroCall
  | include
  deriving DecidableEq, Repr

/-- A file and a file-local offset. -/
structure FileLoc where
  file : FileId
  offset : Nat
  deriving DecidableEq, Repr

/-- One step between an element and source text: the call site, and where the element's first
token is spelled in the call's file when it was written there. -/
structure Frame where
  kind : FrameKind
  callFile : FileId
  callRange : TextRange
  origin : Option FileLoc

namespace Session

/-- Where to navigate for an element inside an expansion: the source token its name or itself was
expanded from, or else the path of the outermost call. None outside expansions. -/
def navigationTarget (e : FileElement) : Session (Option FileElement) := do
  let target := if !e.isToken && e.kind.isItem then
      match e.elem.nameToken with
      | some t => e.withElem t
      | none => e
    else e
  if let some t ← elementExpandedFrom target true then return some t
  let some c ← outermostCall e | return none
  return c.pathElement?.map fun p => ⟨c.file, c.root, p⟩

/-- The single copy of a token, or the token itself when it has none or several. -/
def expansionElementOrSelf (t : FileElement) : Session FileElement := do
  match ← expansionElements t with
  | some [single] => return single
  | _ => return t

/-- Whether an element's start was written in the argument of the function-like call that
directly produced it. -/
def cameFromMacroCall (e : FileElement) : Session Bool := do
  let some c ← nonRecursiveCall e | return false
  if !c.isFnLike then return false
  let some start ← elementStart e | return false
  return (← offsetToBodyRelative c start).isSome

def singleHolder (r : TextRange) : List Segment → Option Segment → Except Fault (Option Segment)
  | [], found => pure found
  | s :: rest, found => do
    if (← s.dstRange).containsRange r then
      if found.isSome then return none
      singleHolder r rest (some s)
    else singleHolder r rest found

def sourcesMeeting (r : TextRange) (segs : List Segment) : Except Fault Nat :=
  segs.foldlM (fun n s => do return if ((← s.srcRange).intersect r).isSome then n + 1 else n) 0

/-- The levels of an inlay-hint placement: at each, the offset maps through the call, and the
range must lie in one segment whose source meets no other segment's. -/
def placeRounds (target : FileId) : Nat → FileId → Nat → TextRange → Session (Option Nat)
  | 0, _, _, _ => return none
  | n + 1, f, off, r => do
    let some c ← expansionCall f | return none
    let some e ← expansion c | return none
    let base := e.base
    let some body ← bodyTextRange c | return none
    let some loc := Offset.sub? off base | return none
    let some rel := (← lift (e.map.toBody loc)).toOption | return none
    let mapped ← lift (Offset.add rel body.start)
    let some rs := Offset.sub? r.start base | return none
    let some re := Offset.sub? r.stop base | return none
    let localRange := TextRange.ofBounds rs re
    let some u ← lift (singleHolder localRange e.map.segments none) | return none
    let shifted ← lift (localRange.shiftLeft u.dst)
    let relative ← lift (shifted.shiftRight u.src)
    if (← lift (sourcesMeeting relative e.map.segments)) != 1 then return none
    if c.file == target then return some mapped
    let next ← lift (relative.shiftRight body.start)
    placeRounds target n c.file mapped next

/-- The offset in a target file for an inlay hint at a virtual offset, with the virtual range of
the statement around it, mapped out through at most the depth limit of calls. -/
def offsetInFile (anchor : FileElement) (off : Nat) (r : TextRange) (target : FileId) :
    Session (Option Nat) := do
  placeRounds target (← maxDepth) anchor.file off r

/-- The inlay-hint offset for the end of an element, using its enclosing statement; in the
target file itself it is the element's end. -/
def inlayHintOffset (anchor : FileElement) (target : FileId) : Session (Option Nat) := do
  let some r ← elementRange anchor | return none
  if anchor.file == target then return some r.stop
  let some n := anchor.node? | return none
  let some stmt := n.ancestors.find? fun a => a.kind == .letStmt || a.kind == .exprStmt
    | return none
  let some sr ← elementRange stmt | return none
  offsetInFile anchor r.stop sr target

/-- The virtual start of a call's node. -/
def callStart (c : MacroCall) : Session (Option Nat) := do
  let some base ← fileStartOffset c.file | return none
  return some (← lift (Offset.add base c.node.start))

/-- A virtual offset as a file-local location. -/
def localLoc (f : FileId) (off : Nat) : Session (Option FileLoc) := do
  let some base ← fileStartOffset f | return none
  return (Offset.sub? off base).map (FileLoc.mk f)

/-- Rounds of frame collection, at most `n` more frames. -/
def frameRounds : Nat → FileId → Option Nat → List Frame → Session (List Frame)
  | 0, _, _, acc => return acc.reverse
  | n + 1, f, off, acc => do
    if let some c ← expansionCall f then
      let mapped ← match off with
        | some o => offsetToBody c o
        | none => pure none
      let origin ← match mapped with
        | some o => localLoc c.file o
        | none => pure none
      let frame : Frame := ⟨.macroCall, c.file, c.node.range, origin⟩
      let next ← match mapped with
        | some o => pure (some o)
        | none => callStart c
      frameRounds n c.file next (frame :: acc)
    else if let some c ← includedFrom f then
      let origin ← match off with
        | some o => localLoc f o
        | none => pure none
      let frame : Frame := ⟨.include, c.file, c.node.range, origin⟩
      frameRounds n c.file (← callStart c) (frame :: acc)
    else return acc.reverse

/-- The calls and includes between an element and source text, innermost first, at most the depth
limit of them. -/
def frames (e : FileElement) : Session (List Frame) := do
  let limit ← maxDepth
  let start ← elementStart e
  frameRounds limit e.file start []

end Session

end MacroTrace
