import MacroTrace.Syntax.Element
/-!
Typed views of syntax nodes: the facts the rest of the library reads off items, attributes and
macro calls. Each view is a function on elements of the node kind it is named for; on other
elements it answers as for a node without the parts it looks for.
-/
namespace MacroTrace

namespace Element

def childNodes (e : Element) : List Element := e.children.filter (!·.isToken)

def childTokens (e : Element) : List Element := e.children.filter (·.isToken)

def significantTokens (e : Element) : List Element :=
  e.childTokens.filter (!·.kind.isTrivia)

def child? (e : Element) (k : SyntaxKind) : Option Element :=
  e.childNodes.find? (·.kind == k)

def childrenOfKind (e : Element) (k : SyntaxKind) : List Element :=
  e.childNodes.filter (·.kind == k)

def token? (e : Element) (k : SyntaxKind) : Option Element :=
  e.childTokens.find? (·.kind == k)

def items (e : Element) : List Element := e.childNodes.filter (·.kind.isItem)

def identToken (e : Element) : Option Element := e.token? .ident

def identText (e : Element) : Option String := e.identToken.map (·.text)

def nameNode (e : Element) : Option Element := e.child? .name

def nameToken (e : Element) : Option Element := e.nameNode.bind identToken

def itemName (e : Element) : Option String := e.nameNode.bind identText

def attrs (e : Element) : List Element := e.childrenOfKind .attr

def pathNode (e : Element) : Option Element := e.child? .path

def pathName (e : Element) : Option String := e.pathNode.bind identText

def argument (e : Element) : Option Element := e.child? .macroArgument

def semicolon (e : Element) : Option Element := e.token? .semicolon

/-- The opening delimiter of a macro argument: its first significant token. -/
def leftDelim (e : Element) : Option Element := e.significantTokens.head?

/-- The closing delimiter of a macro argument: its last significant token, when that closes the
opening one and starts after the argument's start. -/
def rightDelim (e : Element) : Option Element := do
  let openTok ← e.leftDelim
  let closeTok ← e.significantTokens.getLast?
  if openTok.kind.closer? == some closeTok.kind && closeTok.start > e.start then
    some closeTok
  else none

/-- The body of a macro argument: from the end of its opening delimiter to the start of its
closing one, or to the argument's end when it is not closed. -/
def bodyRange (e : Element) : Option TextRange := do
  let openTok ← e.leftDelim
  let start := openTok.range.stop
  let stop := match e.rightDelim with
    | some c => c.start
    | none => e.range.stop
  if h : start ≤ stop then some ⟨start, stop, h⟩ else none

def attrArgs (e : Element) : Option Element := e.child? .attrArgs

/-- Whether an attribute is `derive`. -/
def isDerive (e : Element) : Bool := e.pathName == some "derive"

/-- The identifiers among an attribute argument's significant tokens. -/
def idents (e : Element) : List Element := e.significantTokens.filter (·.kind == .ident)

def itemList (e : Element) : Option Element := e.child? .itemList

def body (e : Element) : Option Element := e.child? .block

/-- Whether a node is the root or a child of the root. -/
def isFileLevel (e : Element) : Bool := e.trail.length ≤ 1

/-- The start of the first significant token under an element. -/
def firstSignificantOffset (e : Element) : Option Nat :=
  ((Green.descendants e).find? fun d => d.isToken && !d.kind.isTrivia).map (·.start)

end Element

namespace Green

/-- The item an attribute belongs to: its parent, when that is an item. -/
def attrOwner (root : Green) (a : Element) : Option Element :=
  (root.parent? a).filter (·.kind.isItem)

end Green

end MacroTrace
