import MacroTrace.Trace.Locate
/-!
Logical parents. A node below file level has its structural parent. A file-level node of an
expansion or included file takes, in order: the context set for its file by hand; when the index
may be consulted, the context of the call that produced or included the file, climbing out of
nested expansions; and last its structural parent. Call-site contexts are remembered per file,
and setting a context by hand forgets them all. Crates follow the same links back to a source
file.
-/
namespace MacroTrace

/-- Whether context lookups may consult the expansion-call and include index. -/
inductive IndexAccess where
  | allowed
  | forbidden
  deriving DecidableEq, Repr

namespace Session

/-- The node a reference names, in its file's current tree. -/
def resolvePtr (p : NodePtr) : Session (Option FileElement) := do
  let some root ← tree? p.file | return none
  return (p.resolveIn root).map fun n => ⟨p.file, root, n⟩

/-- The context set by hand for a file. -/
def explicitContext (f : FileId) : Session (Option FileElement) := do
  match (← overlay).explicit f with
  | some p => resolvePtr p
  | none => return none

def rememberedContext (f : FileId) : Session (Option FileElement) := do
  match (← overlay).callSite f with
  | some p => resolvePtr p
  | none => return none

/-- The nearest module body around a node: an item list, or the file's root. -/
def containingModule (n : FileElement) : FileElement :=
  ((n.ancestors.drop 1).find? fun a => a.kind == .itemList || a.parent?.isNone).getD n

/-- The outcome of one step of the call-site climb. -/
inductive Climb where
  | found (context : FileElement)
  | next (f : FileId)
  | stuck

/-- One step of the call-site climb from a file: the call that produced or included it, and what
its position says. -/
def climbStep (f : FileId) : Session (FileId × Climb) := do
  let viaExpansion ← expansionCall f
  let (call, included) ← match viaExpansion with
    | some c => pure (some c, false)
    | none => do pure ((← includedFrom f), true)
  let some call := call | return (f, .stuck)
  let some owner := call.owner? | return (f, .stuck)
  let ownerElem : FileElement := ⟨call.file, call.root, owner⟩
  let anchor := if included then containingModule ownerElem else ownerElem
  if anchor.kind == .itemList then return (f, .found anchor)
  if !anchor.isFileLevel then
    match anchor.parent? with
    | some p => return (f, .found p)
    | none => return (f, .stuck)
  if let some c ← explicitContext anchor.file then return (f, .found c)
  if let some c ← rememberedContext anchor.file then return (f, .found c)
  if (← expansionCall anchor.file).isSome then return (f, .next anchor.file)
  if (← includedFrom anchor.file).isSome then return (f, .next anchor.file)
  return (f, .found anchor.fileRoot)

/-- The climb from a file, through at most `limit + 1` files; the files passed through are
remembered with the answer. -/
def climb (limit : Nat) : Nat → FileId → List FileId → Session (Option FileElement)
  | 0, _, _ => return none
  | n + 1, f, visited => do
    if visited.length > limit then return none
    let (_, step) ← climbStep f
    match step with
    | .stuck => return none
    | .found ctx =>
      let p := NodePtr.ofElement ctx
      for g in (f :: visited).reverse do
        modifyOverlay (·.remember g p)
      return some ctx
    | .next g => climb limit n g (f :: visited)

/-- The context of the call that produced or included a file, remembered per file. -/
def callSiteContext (f : FileId) : Session (Option FileElement) := do
  if let some c ← rememberedContext f then return some c
  let limit ← maxDepth
  climb limit (limit + 2) f []

/-- The logical parent of a node. -/
def getContext (n : FileElement) (access : IndexAccess) : Session (Option FileElement) := do
  if !n.isFileLevel then return n.parent?
  if let some c ← explicitContext n.file then return some c
  if access == .allowed then
    if let some c ← callSiteContext n.file then return some c
  return n.parent?

/-- Makes a node the logical parent of the file-level nodes of another node's file, whose crate
then follows the context's file. -/
def setContext (n ctx : FileElement) : Session Unit :=
  modifyOverlay fun o =>
    let o := (o.setExplicit n.file (NodePtr.ofElement ctx)).clearCallSites
    if ctx.file != n.file then o.setInherited n.file ctx.file else o

/-- Forgets every overlay entry of a file and every entry pointing into it. -/
def forgetFile (f : FileId) : Session Unit := modifyOverlay (·.forgetFile f)

/-- The crate of a file, following inherited links, expansion calls and includes back to a source
file, through at most `limit + 1` files. -/
def crateOfFile (f : FileId) : Session (Option Nat) := do
  let limit ← maxDepth
  go (limit + 1) f
where
  go : Nat → FileId → Session (Option Nat)
    | 0, _ => return none
    | n + 1, f => do
      if let some c ← fileCrate f then return some c
      if let some g := (← overlay).inherited f then return ← go n g
      if let some c ← expansionCall f then return ← go n c.file
      if let some c ← includedFrom f then return ← go n c.file
      return none

/-- The logical ancestors of a node, itself first, at most `count` of them. The walk stops once
it has changed files more often than the depth limit. -/
def ancestorsWithContexts (n : FileElement) (access : IndexAccess) (count : Nat) :
    Session (List FileElement) := do
  let limit ← maxDepth
  go limit count (some n) 0 []
where
  go (limit : Nat) : Nat → Option FileElement → Nat → List FileElement →
      Session (List FileElement)
    | 0, _, _, acc => return acc.reverse
    | _ + 1, none, _, acc => return acc.reverse
    | k + 1, some node, changes, acc => do
      let parent ← getContext node access
      let changes := match parent with
        | some p => if p.file != node.file then changes + 1 else changes
        | none => changes
      let next := if changes > limit then none else parent
      go limit k next changes (node :: acc)

end Session

end MacroTrace
