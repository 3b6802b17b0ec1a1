import MacroTrace.Expansion.Call
/-!
The overlay: side tables that give the file-level nodes of expansion and included files a
logical parent, without touching any tree. Entries point at nodes by file, kind and range. The
tables are the explicit contexts set by hand, the files whose crate is inherited from another
file, and the call-site contexts remembered from earlier lookups.
-/
namespace MacroTrace

/-- A reference to a node by its file, kind and range. -/
structure NodePtr where
  file : FileId
  kind : SyntaxKind
  range : TextRange
  deriving DecidableEq, Repr

namespace NodePtr

/-- The reference to a node. -/
def ofElement (e : FileElement) : NodePtr := ⟨e.file, e.kind, e.range⟩

/-- The node a reference names in a tree: starting from the element covering the range (a
token's parent for a token), the innermost enclosing node of the kind with exactly the range. -/
def resolveIn (p : NodePtr) (root : Green) : Option Element :=
  if (Element.root root).range.containsRange p.range then
    let covering := root.covering p.range
    let start := if covering.isToken then root.parent? covering else some covering
    start.bind fun s => (root.ancestors s).find? fun n =>
      n.kind == p.kind && n.range.start == p.range.start && n.range.stop == p.range.stop
  else none

end NodePtr

/-- The overlay's tables, each keyed by file. -/
structure Overlay where
  explicit : FileId → Option NodePtr := fun _ => none
  inherited : FileId → Option FileId := fun _ => none
  callSite : FileId → Option NodePtr := fun _ => none
  deriving Inhabited

namespace Overlay

/-- Sets the explicit context of a file. -/
def setExplicit (o : Overlay) (f : FileId) (p : NodePtr) : Overlay :=
  { o with explicit := fun g => if g = f then some p else o.explicit g }

/-- Records that a file inherits its crate from another. -/
def setInherited (o : Overlay) (f g : FileId) : Overlay :=
  { o with inherited := fun h => if h = f then some g else o.inherited h }

/-- Remembers the call-site context of a file. -/
def remember (o : Overlay) (f : FileId) (p : NodePtr) : Overlay :=
  { o with callSite := fun g => if g = f then some p else o.callSite g }

/-- Forgets every remembered call-site context. -/
def clearCallSites (o : Overlay) : Overlay := { o with callSite := fun _ => none }

/-- Drops everything recorded for a file and everything pointing into it. -/
def forgetFile (o : Overlay) (f : FileId) : Overlay where
  explicit g := if g = f then none else (o.explicit g).filter (·.file != f)
  inherited g := if g = f then none else (o.inherited g).filter (· != f)
  callSite g := if g = f then none else (o.callSite g).filter (·.file != f)

end Overlay

end MacroTrace
