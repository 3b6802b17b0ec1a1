import MacroTrace.Workspace.Reference
/-!
Requests on a workspace: a workspace built from macro definitions and source files, then a list
of steps run in order against it. Each step names its arguments by reference and answers one
value; steps share the workspace, so expansions and overlay entries made by one are seen by the
next.
-/
namespace MacroTrace

/-- A step of a request. Its arguments are fields as the request gave them; a step reads them in
the order listed for it, finding each reference before it reads the next field. -/
inductive Step where
  | expand (c : Field CallRef)
  | expandAll (files : List FileRef) (limit : Field Nat)
  | file (f : FileRef)
  | calls (f : FileRef)
  | callInfo (c : Field CallRef)
  | element (e : Field ElementRef)
  | expandedFrom (n : Field ElementRef)
  | expandedOrIncludedFrom (n : Field ElementRef)
  | nonRecursive (e : Field ElementRef)
  | outermost (e : Field ElementRef)
  | includedFrom (e : Field ElementRef)
  | leafCall (e : Field ElementRef)
  | chain (e : Field ElementRef)
  | depth (e : Field ElementRef)
  | isExpanded (e : Field ElementRef)
  | isIncluded (e : Field ElementRef)
  | cameFromMacroCall (e : Field ElementRef)
  | isFileLevel (n : Field ElementRef)
  | elementExpandedFrom (e : Field ElementRef) (strict : Field Bool)
  | expansionElements (t : Field ElementRef)
  | elementOrSelf (t : Field ElementRef)
  | navigationTarget (e : Field ElementRef)
  | offsetInFile (e : Field ElementRef) (offset : Field Nat) (range : Field TextRange)
      (target : FileRef)
  | inlayHintOffset (e : Field ElementRef) (target : FileRef)
  | frames (e : Field ElementRef)
  | getContext (n : Field ElementRef) (access : Field IndexAccess)
  | setContext (n ctx : Field ElementRef)
  | forgetFile (f : FileRef)
  | crateOfFile (f : FileRef)
  | ancestors (n : Field ElementRef) (limit : Field Nat) (access : Field IndexAccess)
  | offsetToBody (c : Field CallRef) (offset : Field Nat)
  | offsetToExpansion (c : Field CallRef) (offset : Field Nat)
  | rangeToBody (c : Field CallRef) (range : Field TextRange)
  | rangeToBodyStrict (c : Field CallRef) (range : Field TextRange)
  | elementRange (e : Field ElementRef)
  | fileStartOffset (f : FileRef)
  | tokenStartingAt (f : FileRef) (offset : Field Nat)

/-- What the `file` step reports about a file. -/
structure FileReport where
  text : Option String
  tree : Option Green
  crate : Option Nat
  expansionCall : Option MacroCall
  includedFrom : Option MacroCall
  startOffset : Option Nat

/-- What the `call_info` step reports about a call. -/
structure CallReport where
  call : MacroCall
  context : ContextKind
  localBodyRange : Option TextRange
  bodyTextRange : Option TextRange
  owner : Option FileElement
  pathElement : Option FileElement

/-- The answer of a step. -/
inductive Answer where
  | done
  | flag (b : Bool)
  | number (n : Option Nat)
  | numbers (ns : Option (List Nat))
  | range (r : Option TextRange)
  | ranges (rs : List TextRange)
  | element (e : Option FileElement)
  | elements (es : Option (List FileElement))
  | call (c : Option MacroCall)
  | calls (cs : List MacroCall)
  | chain (cs : List MacroCall) (exceeded : Bool)
  | expansion (e : Option (Expansion × String))
  | expanded (entries : List (MacroCall × Option FileId))
  | fileReport (r : FileReport)
  | callReport (r : CallReport)
  | frames (fs : List Frame)

namespace Step

/-- Rounds of expanding everything reachable: files are taken from a stack, whose head is taken
first; each call of a file is expanded and its expansion pushed, until `limit` calls have been
met. The start files go on the stack in order, so the last of them is taken first. -/
def expandRounds (limit : Nat) : Nat → List FileId → List (MacroCall × Option FileId) →
    Session (List (MacroCall × Option FileId))
  | 0, _, acc => return acc.reverse
  | _ + 1, [], acc => return acc.reverse
  | n + 1, f :: stack, acc => do
    let calls := (← get).callsIn f
    let (acc, pushed, full) ← visit calls acc []
    if full then return acc.reverse
    expandRounds limit n (pushed ++ stack) acc
where
  visit : List MacroCall → List (MacroCall × Option FileId) → List FileId →
      Session (List (MacroCall × Option FileId) × List FileId × Bool)
    | [], acc, pushed => return (acc, pushed, false)
    | c :: cs, acc, pushed => do
      if acc.length ≥ limit then return (acc, pushed, true)
      let f := (← Session.expansion c).map (·.file)
      visit cs ((c, f) :: acc) (match f with | some g => g :: pushed | none => pushed)

/-- Runs a step. -/
def run : Step → StepM Answer
  | expand c => do
    let call ← StepM.call c
    match ← StepM.session (Session.expansion call) with
    | none => return .expansion none
    | some e => return .expansion (some (e, ((← get).text? e.file).getD ""))
  | expandAll files limit => do
    let limit ← StepM.field limit
    let fs ← files.mapM FileRef.resolve
    return .expanded (← StepM.session (expandRounds limit (fs.length + limit + 1) fs.reverse []))
  | file f => do
    let f ← f.resolve
    let start ← StepM.session (Session.fileStartOffset f)
    let w ← get
    return .fileReport ⟨w.text? f, w.tree? f, w.fileCrate f, w.expansionCall f, w.includedFrom f,
      start⟩
  | calls f => do
    let f ← f.resolve
    return .calls ((← get).callsIn f)
  | callInfo c => do
    let call ← StepM.call c
    let body ← StepM.session (Session.bodyTextRange call)
    return .callReport ⟨call, call.contextKind, call.localBodyRange?, body,
      call.owner?.map call.element.withElem, call.pathElement?.map call.element.withElem⟩
  | element e => do return .element (some (← StepM.element e))
  | expandedFrom n => do return .call (← StepM.session (Session.expandedFrom (← StepM.node n)))
  | expandedOrIncludedFrom n => do
    return .call (← StepM.session (Session.expandedOrIncludedFrom (← StepM.node n)))
  | nonRecursive e => do
    return .call (← StepM.session (Session.nonRecursiveCall (← StepM.element e)))
  | outermost e => do return .call (← StepM.session (Session.outermostCall (← StepM.element e)))
  | includedFrom e => do
    return .call (← StepM.session (Session.includedFrom (← StepM.element e).file))
  | leafCall e => do return .call (← StepM.session (Session.leafCall (← StepM.element e)))
  | chain e => do
    let (cs, exceeded) ← StepM.session (Session.expandedFromChain (← StepM.element e))
    return .chain cs exceeded
  | depth e => do return .number (← StepM.session (Session.expansionDepth (← StepM.element e)))
  | isExpanded e => do return .flag (← StepM.session (Session.isExpanded (← StepM.element e)))
  | isIncluded e => do
    return .flag (← StepM.session (Session.includedFrom (← StepM.element e).file)).isSome
  | cameFromMacroCall e => do
    return .flag (← StepM.session (Session.cameFromMacroCall (← StepM.element e)))
  | isFileLevel n => do return .flag (← StepM.node n).isFileLevel
  | elementExpandedFrom e strict => do
    let anchor ← StepM.element e
    let strict ← StepM.field strict
    return .element (← StepM.session (Session.elementExpandedFrom anchor strict))
  | expansionElements t => do
    return .elements (← StepM.session (Session.expansionElements (← StepM.token t)))
  | elementOrSelf t => do
    return .element (some (← StepM.session (Session.expansionElementOrSelf (← StepM.token t))))
  | navigationTarget e => do
    return .element (← StepM.session (Session.navigationTarget (← StepM.element e)))
  | offsetInFile e offset range target => do
    let anchor ← StepM.element e
    let offset ← StepM.field offset
    let range ← StepM.field range
    let orig ← target.resolve
    return .number (← StepM.session (Session.offsetInFile anchor offset range orig))
  | inlayHintOffset e target => do
    let anchor ← StepM.element e
    let orig ← target.resolve
    return .number (← StepM.session (Session.inlayHintOffset anchor orig))
  | frames e => do return .frames (← StepM.session (Session.frames (← StepM.element e)))
  | getContext n access => do
    let node ← StepM.node n
    let access ← StepM.field access
    return .element (← StepM.session (Session.getContext node access))
  | setContext n ctx => do
    let node ← StepM.node n
    let context ← StepM.node ctx
    StepM.session (Session.setContext node context)
    return .done
  | forgetFile f => do
    StepM.session (Session.forgetFile (← f.resolve))
    return .done
  | crateOfFile f => do return .number (← StepM.session (Session.crateOfFile (← f.resolve)))
  | ancestors n limit access => do
    let node ← StepM.node n
    let limit ← StepM.field limit
    let access ← StepM.field access
    return .elements (some (← StepM.session (Session.ancestorsWithContexts node access limit)))
  | offsetToBody c offset => do
    let call ← StepM.call c
    let offset ← StepM.field offset
    return .number (← StepM.session (Session.offsetToBody call offset))
  | offsetToExpansion c offset => do
    let call ← StepM.call c
    let some e ← StepM.session (Session.expansion call) | StepM.missing .callDidNotExpand
    let offset ← StepM.field offset
    return .numbers (← StepM.session (Session.offsetToExpansion call e offset))
  | rangeToBody c range => do
    let call ← StepM.call c
    let range ← StepM.field range
    return .ranges (← StepM.session (Session.rangeToBody call range))
  | rangeToBodyStrict c range => do
    let call ← StepM.call c
    let range ← StepM.field range
    return .range (← StepM.session (Session.rangeToBodyStrict call range))
  | elementRange e => do return .range (← StepM.session (Session.elementRange (← StepM.element e)))
  | fileStartOffset f => do
    return .number (← StepM.session (Session.fileStartOffset (← f.resolve)))
  | tokenStartingAt f offset => do
    let file ← f.resolve
    let offset ← StepM.field offset
    return .element (← StepM.session (Session.tokenStartingAt file offset))

/-- Runs a step on a workspace: the answer or why there is none, and the workspace after it. -/
def exec (s : Step) (w : Workspace) : Except StepError Answer × Workspace :=
  (s.run.run).run w

end Step

/-- A macro definition as a request gives it. -/
inductive MacroSpec where
  | template (pattern template : String)
  | identityAttr
  | derive (template : String)

def MacroSpec.toDef : MacroSpec → MacroDef
  | .template p t => .template (parsePattern p) t
  | .identityAttr => .identityAttr
  | .derive t => .derive t

/-- A source file as a request gives it. -/
structure SourceSpec where
  path : String
  text : String
  crate : Nat

/-- Builds a workspace: macros registered in order, then source files added in order, with a
depth limit and maybe a map that replaces every expansion's own. Gives the source files' ids. -/
def Workspace.create (macros : List (String × MacroSpec)) (sources : List SourceSpec)
    (maxDepth : Nat) (mapOverride : Option (List Segment)) : Except Fault (Workspace × List FileId) := do
  let replacement ← match mapOverride with
    | some segs => some <$> OffsetMap.ofList segs
    | none => pure none
  let w0 : Workspace := { maxDepth, mapOverride := replacement }
  let w1 := macros.foldl (fun w (name, spec) => w.define name spec.toDef) w0
  let (ids, w2) := sources.foldl (fun (ids, w) s =>
    let (f, w') := w.addSource s.path s.text s.crate
    (ids ++ [f], w')) ([], w1)
  return (w2, ids)

end MacroTrace
