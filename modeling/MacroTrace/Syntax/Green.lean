import MacroTrace.Syntax.Token
/-!
Green trees: lossless syntax trees. A leaf is a token; an inner node has a kind and its children
in text order. Nodes hold no positions: an element's offset is the width of what precedes it.
-/
namespace MacroTrace

/-- A syntax tree: a token, or a node of some kind over its children. -/
inductive Green where
  | token (t : Token)
  | node (kind : SyntaxKind) (children : List Green)
  deriving Repr, Inhabited

namespace Green

def kind : Green → SyntaxKind
  | token t => t.kind
  | node k _ => k

def children : Green → List Green
  | token _ => []
  | node _ cs => cs

def isToken : Green → Bool
  | token _ => true
  | node _ _ => false

mutual
def width : Green → Nat
  | token t => t.len
  | node _ cs => widthList cs

def widthList : List Green → Nat
  | [] => 0
  | g :: gs => width g + widthList gs
end

mutual
def tokens : Green → List Token
  | token t => [t]
  | node _ cs => tokensList cs

def tokensList : List Green → List Token
  | [] => []
  | g :: gs => tokens g ++ tokensList gs
end

def text (g : Green) : String := String.join (g.tokens.map (·.text))

@[simp] theorem width_node (k : SyntaxKind) (cs : List Green) :
    (node k cs).width = widthList cs := by simp [width]

@[simp] theorem widthList_cons (g : Green) (gs : List Green) :
    widthList (g :: gs) = g.width + widthList gs := by simp [widthList]

@[simp] theorem tokens_node (k : SyntaxKind) (cs : List Green) :
    (node k cs).tokens = tokensList cs := by simp [tokens]

end Green

end MacroTrace
