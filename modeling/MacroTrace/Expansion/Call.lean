import MacroTrace.Syntax.View
import MacroTrace.Syntax.Grammar
/-!
Macro calls. A call is function-like (`name!(..)`), an attribute (`#[name] item`), or the `i`-th
name of a derive list (`#[derive(A, B)] item`). A function-like call's node is the macro call
node; an attribute or derive call's node is the attribute. A call's body is the text handed to
the macro: inside the argument's delimiters, or the whole item an attribute belongs to. Where a
call stands decides how its expansion is parsed.
-/
namespace MacroTrace

/-- Files are numbered in the order they are created. -/
abbrev FileId := Nat

/-- A node or token of a file, with the file's tree. -/
structure FileElement where
  file : FileId
  root : Green
  elem : Element
  deriving Inhabited

namespace FileElement

def kind (e : FileElement) : SyntaxKind := e.elem.kind

def range (e : FileElement) : TextRange := e.elem.range

def isToken (e : FileElement) : Bool := e.elem.isToken

def withElem (e : FileElement) (x : Element) : FileElement := { e with elem := x }

/-- The element's parent in its file. -/
def parent? (e : FileElement) : Option FileElement := (e.root.parent? e.elem).map e.withElem

/-- The element and its ancestors in its file, innermost first. -/
def ancestors (e : FileElement) : List FileElement := (e.root.ancestors e.elem).map e.withElem

/-- Whether a node is its file's root or a child of the root. -/
def isFileLevel (e : FileElement) : Bool := e.elem.isFileLevel

def node? (e : FileElement) : Option FileElement := if e.isToken then e.parent? else some e

/-- The root of the element's file. -/
def fileRoot (e : FileElement) : FileElement := e.withElem (Element.root e.root)

end FileElement

/-- How a macro is invoked. -/
inductive CallKind where
  | fnLike
  | attr
  | derive (index : Nat)
  deriving DecidableEq, Repr, Inhabited

/-- The syntactic position of a call, which decides how its expansion is parsed. -/
inductive ContextKind where
  | item | stmt | expr | pat | type | lifetime
  deriving DecidableEq, Repr, Inhabited

namespace ContextKind

def entryPoint : ContextKind → EntryPoint
  | item => .items
  | stmt => .stmts
  | expr => .expr
  | pat => .pat
  | type => .type
  | lifetime => .lifetime

def title : ContextKind → String
  | item => "Item"
  | stmt => "Stmt"
  | expr => "Expr"
  | pat => "Pat"
  | type => "Type"
  | lifetime => "Lifetime"

def ofParent : SyntaxKind → ContextKind
  | .sourceFile | .macroItems | .itemList => item
  | .block | .macroStmts => stmt
  | .pat | .macroPat => pat
  | .typeRef | .macroType => type
  | .macroLifetime => lifetime
  | _ => expr

end ContextKind

/-- The identity of a call: its file, the range of its node, and its kind. -/
structure CallKey where
  file : FileId
  range : TextRange
  kind : CallKind
  deriving DecidableEq, Repr

/-- A macro call in a source or expansion file. -/
structure MacroCall where
  file : FileId
  kind : CallKind
  root : Green
  node : Element
  deriving Inhabited

namespace MacroCall

def element (c : MacroCall) : FileElement := ⟨c.file, c.root, c.node⟩

/-- The call's identity. -/
def key (c : MacroCall) : CallKey := ⟨c.file, c.node.range, c.kind⟩

def isFnLike (c : MacroCall) : Bool := c.kind == .fnLike

def deriveToken? (c : MacroCall) : Option Element :=
  match c.kind with
  | .derive i => c.node.attrArgs.bind fun args => args.idents[i]?
  | _ => none

def name? (c : MacroCall) : Option String :=
  match c.kind with
  | .fnLike | .attr => c.node.pathName
  | .derive _ => c.deriveToken?.map (·.text)

def isInclude (c : MacroCall) : Bool := c.isFnLike && c.name? == some "include"

def pathElement? (c : MacroCall) : Option Element :=
  match c.kind with
  | .fnLike | .attr => c.node.pathNode
  | .derive _ => c.deriveToken?

/-- The node the expansion stands in for: the call itself, or the item an attribute is
attached to. -/
def owner? (c : MacroCall) : Option Element :=
  match c.kind with
  | .fnLike => some c.node
  | _ => c.root.attrOwner c.node

/-- The file-local range of the body; none when it is missing or empty. -/
def localBodyRange? (c : MacroCall) : Option TextRange :=
  let r := match c.kind with
    | .fnLike => c.node.argument.bind Element.bodyRange
    | _ => c.owner?.map Element.range
  r.filter (!·.isEmpty)

/-- The position of the call, which decides how its expansion is parsed. -/
def contextKind (c : MacroCall) : ContextKind :=
  match c.kind with
  | .fnLike => match c.root.parent? c.node with
    | some p => ContextKind.ofParent p.kind
    | none => .item
  | _ => .item

/-- The function-like call at a macro call node. -/
def fnLike (file : FileId) (root : Green) (node : Element) : MacroCall := ⟨file, .fnLike, root, node⟩

/-- The attribute call at an attribute node; a derive list is no attribute call. -/
def attr? (file : FileId) (root : Green) (a : Element) : Option MacroCall :=
  if a.isDerive then none else some ⟨file, .attr, root, a⟩

/-- The call of the `i`-th name of a derive list. -/
def derive? (file : FileId) (root : Green) (a : Element) (i : Nat) : Option MacroCall :=
  if a.isDerive && (a.attrArgs.bind fun args => args.idents[i]?).isSome then
    some ⟨file, .derive i, root, a⟩
  else none

/-- The calls an item's attributes make: one per plain attribute, and one per derived name. -/
def forItem (file : FileId) (root : Green) (item : Element) : List MacroCall :=
  item.attrs.flatMap fun a =>
    if a.isDerive then
      let count := (a.attrArgs.map fun args => args.idents.length).getD 0
      (List.range count).filterMap (derive? file root a)
    else (attr? file root a).toList

end MacroCall

/-- Every call in a file's tree: the function-like calls in preorder, then each item's attribute
and derive calls, items in preorder; then ordered by where their nodes start, ties kept. -/
def callsInTree (file : FileId) (root : Green) : List MacroCall :=
  let nodes := (Green.descendants (Element.root root)).filter (!·.isToken)
  let fnLike := (nodes.filter (·.kind == .macroCall)).map (MacroCall.fnLike file root)
  let attached := (nodes.filter (·.kind.isItem)).flatMap (MacroCall.forItem file root)
  (fnLike ++ attached).mergeSort fun a b => a.node.start ≤ b.node.start

end MacroTrace
