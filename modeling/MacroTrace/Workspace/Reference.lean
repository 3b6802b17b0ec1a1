import MacroTrace.Trace.Navigate
/-!
References to files, calls and elements of a workspace, as requests name them, and how they are
found. A file is named by id, by path, or as the expansion of a call; a call by name and rank, by
position among its file's calls, or as the call a file expands; an element by token text, by
node kind, by offset, or as a file's root. Finding a reference may expand a call.

A request may spell a field wrongly. Such a field is kept with the reason (`Field`), and the
reason is reported only when a step comes to that field: a step reads its arguments in order, and
the lookups before a misspelled field have already happened, expansions included.
-/
namespace MacroTrace

/-- A request field as read: its value, or the message saying why it could not be read. -/
abbrev Field (α : Type) := Except String α

mutual
/-- A reference to a file. -/
inductive FileRef where
  | id (n : Nat)
  | path (p : String)
  | expansionOf (c : CallRef)
  | malformed (message : String)

/-- A reference to a call. -/
inductive CallRef where
  | named (file : FileRef) (name : String) (nth : Field Nat)
  | index (file : FileRef) (i : Field Nat)
  | producing (file : FileRef)
end

instance : Inhabited FileRef := ⟨.id 0⟩

instance : Inhabited CallRef := ⟨.producing default⟩

/-- How an element is picked from its file. -/
inductive Selector where
  | token (text : String) (nth : Nat)
  | node (kind : SyntaxKind) (nth : Nat)
  | atOffset (offset : Nat)
  | root

/-- A reference to an element: its file, and how to pick the element from the file's tree, which
is read once the tree is found. -/
structure ElementRef where
  file : FileRef
  selector : Field Selector

/-- Why a reference names nothing. -/
inductive LookupError where
  | unknownFile
  | noSuchElement
  | noSuchCall
  | callDidNotExpand
  | notAnExpansion
  | noFile (path : String)
  deriving DecidableEq, Repr

def LookupError.message : LookupError → String
  | .unknownFile => "unknown file"
  | .noSuchElement => "no such element"
  | .noSuchCall => "no such call"
  | .callDidNotExpand => "call did not expand"
  | .notAnExpansion => "file is not an expansion"
  | .noFile p => "no file `" ++ p ++ "`"

/-- Whether an element reference had to name a node or a token. -/
inductive ElementKind where
  | node
  | token
  deriving DecidableEq, Repr

/-- Why a step of a request has no answer: a field is spelled wrongly, a reference names nothing
or names an element of the wrong kind, or a lookup faulted. -/
inductive StepError where
  | malformed (message : String)
  | lookup (e : LookupError)
  | wrongKind (expected : ElementKind)
  | fault (f : Fault)

/-- Steps of a request: workspace lookups that may also fail to find what they are asked for. -/
abbrev StepM := ExceptT StepError (StateM Workspace)

namespace StepM

def session {α : Type} (x : Session α) : StepM α :=
  ExceptT.mk do
    let r ← x.run
    return r.mapError StepError.fault

def missing {α : Type} (e : LookupError) : StepM α := throw (.lookup e)

def field {α : Type} : Field α → StepM α
  | .ok a => pure a
  | .error m => throw (.malformed m)

end StepM

mutual
/-- The file a reference names; an id is taken as it is. -/
def FileRef.resolve : FileRef → StepM FileId
  | .id n => pure n
  | .path p => do
    match (← get).fileId? p with
    | some f => pure f
    | none => StepM.missing (.noFile p)
  | .expansionOf c => do
    let call ← c.resolve
    match ← StepM.session (Session.expansion call) with
    | some e => pure e.file
    | none => StepM.missing .callDidNotExpand
  | .malformed m => throw (.malformed m)

/-- The call a reference names. -/
def CallRef.resolve : CallRef → StepM MacroCall
  | .named file name nth => do
    let f ← file.resolve
    let nth ← StepM.field nth
    match ((← get).callsIn f |>.filter (·.name? == some name))[nth]? with
    | some c => pure c
    | none => StepM.missing .noSuchCall
  | .index file i => do
    let f ← file.resolve
    let i ← StepM.field i
    match ((← get).callsIn f)[i]? with
    | some c => pure c
    | none => StepM.missing .noSuchCall
  | .producing file => do
    let f ← file.resolve
    match (← get).expansionCall f with
    | some c => pure c
    | none => StepM.missing .notAnExpansion
end

def Selector.pick (root : Green) : Selector → Option Element
  | .token text nth =>
    ((Green.descendants (Element.root root)).filter fun e => e.isToken && e.text == text)[nth]?
  | .node kind nth =>
    ((Green.descendants (Element.root root)).filter fun e => !e.isToken && e.kind == kind)[nth]?
  | .atOffset n => if n ≤ root.width then root.tokenAt n else none
  | .root => some (Element.root root)

/-- The element a reference names; its file must have a tree. -/
def ElementRef.resolve (r : ElementRef) : StepM FileElement := do
  let f ← r.file.resolve
  let some root := (← get).tree? f | StepM.missing .unknownFile
  match (← StepM.field r.selector).pick root with
  | some e => pure ⟨f, root, e⟩
  | none => StepM.missing .noSuchElement

def ElementRef.resolveNode (r : ElementRef) : StepM FileElement := do
  let e ← r.resolve
  if e.isToken then throw (.wrongKind .node) else pure e

def ElementRef.resolveToken (r : ElementRef) : StepM FileElement := do
  let e ← r.resolve
  if e.isToken then pure e else throw (.wrongKind .token)

namespace StepM

def call (c : Field CallRef) : StepM MacroCall := do (← field c).resolve

def element (e : Field ElementRef) : StepM FileElement := do (← field e).resolve

def node (n : Field ElementRef) : StepM FileElement := do (← field n).resolveNode

def token (t : Field ElementRef) : StepM FileElement := do (← field t).resolveToken

end StepM

end MacroTrace
