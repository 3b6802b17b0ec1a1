import MacroTrace.Syntax.Green
import MacroTrace.Text.Range
import MacroTrace.Search
/-!
Elements: the nodes and tokens of a tree seen from its root. An element is a subtree with its
start offset and its trail, the child indices that lead to it from the root, innermost first.
Parents, ancestors, children and preorder walks are computed from the root; so are the element
covering a range and the token at an offset.
-/
namespace MacroTrace

/-- A node or token of a tree: the subtree, its start offset, and the child indices from the root,
innermost first. -/
structure Element where
  green : Green
  start : Nat
  trail : List Nat
  deriving Inhabited

namespace Element

def kind (e : Element) : SyntaxKind := e.green.kind

def isToken (e : Element) : Bool := e.green.isToken

def range (e : Element) : TextRange := ⟨e.start, e.start + e.green.width, by omega⟩

def text (e : Element) : String := e.green.text

def root (g : Green) : Element := ⟨g, 0, []⟩

def siblings (trail : List Nat) : List Green → Nat → Nat → List Element
  | [], _, _ => []
  | g :: gs, start, i => ⟨g, start, i :: trail⟩ :: siblings trail gs (start + g.width) (i + 1)

def children (e : Element) : List Element := siblings e.trail e.green.children e.start 0

def childAt? (e : Element) (i : Nat) : Option Element :=
  e.green.children[i]?.map fun g =>
    ⟨g, e.start + Green.widthList (e.green.children.take i), i :: e.trail⟩

def isRoot (e : Element) : Bool := e.trail.isEmpty

end Element

namespace Green

def locate (root : Green) (path : List Nat) : Option Element :=
  go (Element.root root) path
where
  go (e : Element) : List Nat → Option Element
    | [] => some e
    | i :: is => match e.childAt? i with
      | some c => go c is
      | none => none

def elementAt? (root : Green) (trail : List Nat) : Option Element := root.locate trail.reverse

/-- The parent of an element of this tree. -/
def parent? (root : Green) (e : Element) : Option Element :=
  match e.trail with
  | [] => none
  | _ :: t => root.elementAt? t

def outerTrails : List Nat → List (List Nat)
  | [] => []
  | _ :: t => t :: outerTrails t

/-- An element and its ancestors, innermost first, ending with the root. -/
def ancestors (root : Green) (e : Element) : List Element :=
  e :: (outerTrails e.trail).filterMap root.elementAt?

mutual
def preorderAt : Green → Nat → List Nat → List Element
  | token t, start, trail => [⟨token t, start, trail⟩]
  | node k cs, start, trail => ⟨node k cs, start, trail⟩ :: preorderList cs start 0 trail

def preorderList : List Green → Nat → Nat → List Nat → List Element
  | [], _, _, _ => []
  | g :: gs, start, i, trail =>
    preorderAt g start (i :: trail) ++ preorderList gs (start + g.width) (i + 1) trail
end

/-- The elements of a subtree in preorder, starting with the subtree itself. -/
def descendants (e : Element) : List Element := preorderAt e.green e.start e.trail

/-- The child of an element that covers a range, found by a binary search over the children's
ranges as the children are ordered. An empty range sits between two children, so a miss steps
back one child, and the child must hold the whole range. -/
def childAtRange (e : Element) (r : TextRange) : Option Element :=
  let cs := e.children
  let found := (searchBy (m := Id) cs fun c => pure (c.range.ordering r))
  let i := match found with
    | .found i => i
    | .gap i => i - 1
  match cs[i]? with
  | some c => if c.range.containsRange r then some c else none
  | none => none

def coverFrom : Nat → Element → TextRange → Element
  | 0, e, _ => e
  | n + 1, e, r =>
    if e.isToken then e
    else match childAtRange e r with
      | some c => coverFrom n c r
      | none => e

def depth : Green → Nat
  | token _ => 0
  | node _ cs => 1 + depthList cs
where
  depthList : List Green → Nat
    | [] => 0
    | g :: gs => max (depth g) (depthList gs)

/-- The deepest element of the tree covering a range, or the root. -/
def covering (root : Green) (r : TextRange) : Element :=
  coverFrom (root.depth + 1) (Element.root root) r

def tokenAtFrom : Nat → Element → Nat → Option Element
  | 0, _, _ => none
  | n + 1, e, off =>
    if e.isToken then some e
    else if e.range.isEmpty then none
    else
      match (e.children.filter fun c => !c.range.isEmpty && c.range.containsInclusive off).getLast? with
      | some c => tokenAtFrom n c off
      | none => none

/-- The token at an offset of the tree, the right one at a boundary. -/
def tokenAt (root : Green) (off : Nat) : Option Element :=
  tokenAtFrom (root.depth + 1) (Element.root root) off

end Green

end MacroTrace
