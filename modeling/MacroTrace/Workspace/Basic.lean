import MacroTrace.Workspace.Overlay
import MacroTrace.Expansion.Template
import MacroTrace.Expansion.Allocator
/-!
The workspace: source files, registered macros, and the expansions computed so far. Expansion is
lazy: the first lookup of a call's expansion runs its macro, parses the output in the call's
context, and adds it as a new file at the next free base offset; later lookups reuse it, and a
call that does not expand is remembered as such. An `include` call never expands.

Lookups run in `Session`: they may add files, and an offset fault stops a lookup but keeps what
it already added.
-/
namespace MacroTrace

/-- Where a file came from: a source file of a crate, or the expansion of a call. -/
inductive Origin where
  | source (crate : Nat)
  | expansion (call : CallKey)
  deriving DecidableEq, Repr

/-- A file of the workspace. -/
structure FileEntry where
  path : Option String
  text : String
  tree : Green
  origin : Origin

/-- A macro definition. -/
inductive MacroDef where
  | template (pattern : List PatternPart) (template : String)
  | identityAttr
  | derive (template : String)

/-- A call's expansion: its file, the context it was parsed in, its base offset, and the map from
the call body. -/
structure Expansion where
  file : FileId
  context : ContextKind
  base : Nat
  map : OffsetMap

/-- How deep lookups follow nested expansions unless told otherwise. -/
def defaultMaxDepth : Nat := 128

/-- The workspace. -/
structure Workspace where
  files : Array FileEntry := #[]
  macros : String → Option MacroDef := fun _ => none
  expansions : CallKey → Option (Option Expansion) := fun _ => none
  allocator : Allocator := {}
  overlay : Overlay := {}
  maxDepth : Nat := defaultMaxDepth
  mapOverride : Option OffsetMap := none

/-- Lookups on a workspace: they may add files, and may stop at an offset fault. -/
abbrev Session := ExceptT Fault (StateM Workspace)

namespace Workspace

def define (w : Workspace) (name : String) (d : MacroDef) : Workspace :=
  { w with macros := fun n => if n = name then some d else w.macros n }

def addFile (w : Workspace) (path : Option String) (text : String) (entry : EntryPoint)
    (origin : Origin) : FileId × Workspace :=
  (w.files.size, { w with files := w.files.push ⟨path, text, (parse text entry).tree, origin⟩ })

def addSource (w : Workspace) (path text : String) (crate : Nat) : FileId × Workspace :=
  w.addFile (some path) text .sourceFile (.source crate)

def file? (w : Workspace) (f : FileId) : Option FileEntry := w.files[f]?

def tree? (w : Workspace) (f : FileId) : Option Green := (w.file? f).map (·.tree)

def text? (w : Workspace) (f : FileId) : Option String := (w.file? f).map (·.text)

def fileId? (w : Workspace) (path : String) : Option FileId :=
  w.files.toList.findIdx? (·.path == some path)

def rootOf? (w : Workspace) (f : FileId) : Option FileElement :=
  (w.tree? f).map fun t => ⟨f, t, Element.root t⟩

/-- The crate of a source file. -/
def fileCrate (w : Workspace) (f : FileId) : Option Nat :=
  match w.file? f with
  | some ⟨_, _, _, .source c⟩ => some c
  | _ => none

/-- The calls of a file, in order; none for an unknown file. -/
def callsIn (w : Workspace) (f : FileId) : List MacroCall :=
  match w.tree? f with
  | some t => callsInTree f t
  | none => []

def callOfKey (w : Workspace) (key : CallKey) : Option MacroCall := do
  let root ← w.tree? key.file
  let wanted : SyntaxKind := if key.kind == .fnLike then .macroCall else .attr
  let node ← (NodePtr.mk key.file wanted key.range).resolveIn root
  match key.kind with
  | .fnLike => some (MacroCall.fnLike key.file root node)
  | .attr => MacroCall.attr? key.file root node
  | .derive i => MacroCall.derive? key.file root node i

/-- The call whose expansion a file is; none for a source file. -/
def expansionCall (w : Workspace) (f : FileId) : Option MacroCall :=
  match w.file? f with
  | some ⟨_, _, _, .expansion key⟩ => w.callOfKey key
  | _ => none

/-- The file an `include` call names: its body, trimmed, must be a quoted path of the workspace. -/
def includeTarget (w : Workspace) (c : MacroCall) : Option FileId := do
  if !c.isInclude then none
  let text ← w.text? c.file
  let body ← c.localBodyRange?
  let chars := trimChars (sliceText text body).toList
  match chars with
  | '"' :: rest =>
    match rest.reverse with
    | '"' :: inner => w.fileId? (String.ofList inner.reverse)
    | _ => none
  | _ => none

/-- The `include` call that names a file: the first one over all files in id order. -/
def includedFrom (w : Workspace) (f : FileId) : Option MacroCall :=
  ((List.range w.files.size).flatMap w.callsIn).find? fun c => w.includeTarget c == some f

/-- Runs the macro behind a call over its body. -/
def runMacro (w : Workspace) (c : MacroCall) : Option Expanded := do
  let name ← c.name?
  let d ← w.macros name
  let text ← w.text? c.file
  match d, c.kind with
  | .template pattern template, .fnLike =>
    let body := match c.localBodyRange? with
      | some r => sliceText text r
      | none => ""
    let b ← matchPattern pattern body
    some (substitute template b body)
  | .identityAttr, .attr =>
    let item ← c.localBodyRange?
    let attr ← c.node.range.shiftLeft? item.start
    some (stripAttribute (sliceText text item) attr)
  | .derive template, .derive _ =>
    let item ← c.localBodyRange?
    let owner ← c.owner?
    let nameTok ← owner.nameToken
    let nameRange ← nameTok.range.shiftLeft? item.start
    some (substitute template [("name", nameRange)] (sliceText text item))
  | _, _ => none

end Workspace

namespace Session

/-- Runs a macro and adds its output as a new file at the next free base offset. No base left
means no expansion. -/
def computeExpansion (c : MacroCall) : Session (Option Expansion) := do
  let w ← get
  match w.runMacro c with
  | none => return none
  | some out =>
    let kind := c.contextKind
    let (base?, alloc) := w.allocator.allocate out.text.utf8ByteSize
    match base? with
    | none => return none
    | some base =>
      let (file, w) := ({ w with allocator := alloc }).addFile none out.text kind.entryPoint
        (.expansion c.key)
      set w
      let map ← OffsetMap.ofList out.segments
      return some ⟨file, kind, base, map⟩

/-- The expansion of a call as the workspace keeps it: computed once, then reused. -/
def storedExpansion (c : MacroCall) : Session (Option Expansion) := do
  match (← get).expansions c.key with
  | some e => return e
  | none =>
    if c.isInclude then return none
    let e ← computeExpansion c
    modify fun w => { w with expansions := fun k => if k = c.key then some e else w.expansions k }
    return e

/-- The expansion of a call, with the map replaced when the workspace overrides maps. -/
def expansion (c : MacroCall) : Session (Option Expansion) := do
  let e ← storedExpansion c
  match (← get).mapOverride with
  | some m => return e.map fun x => { x with map := m }
  | none => return e

def maxDepth : Session Nat := return (← get).maxDepth

/-- The call whose expansion a file is. -/
def expansionCall (f : FileId) : Session (Option MacroCall) := return (← get).expansionCall f

/-- The `include` call that names a file. -/
def includedFrom (f : FileId) : Session (Option MacroCall) := return (← get).includedFrom f

/-- The crate of a source file. -/
def fileCrate (f : FileId) : Session (Option Nat) := return (← get).fileCrate f

def tree? (f : FileId) : Session (Option Green) := return (← get).tree? f

def overlay : Session Overlay := return (← get).overlay

def modifyOverlay (g : Overlay → Overlay) : Session Unit :=
  modify fun w => { w with overlay := g w.overlay }

def fault {α : Type} (f : Fault) : Session α := throw f

/-- Lifts a computation that may fault. -/
def lift {α : Type} (x : Except Fault α) : Session α :=
  match x with
  | .ok a => pure a
  | .error f => throw f

end Session

end MacroTrace
