import MacroTrace.Syntax.Green
import MacroTrace.Text.Range
/-!
The parser's state and its primitive moves. The parser reads the token list left to right and
builds the tree as it goes: each open node is a frame of children, and completing a node closes
its frame into one child of the frame below.

Lookahead has a budget: every peek at a coming token spends one unit, and consuming a token
restores the full budget. With the budget spent, every peek sees the end of input, so no loop of
the grammar can spin without consuming a token. A parser may also hold a reserve of peeks past its
budget; a parse holds none, and a reserve stands for a larger budget to compare a parse with.

Consuming and placing are apart. The tree takes the consumed tokens in order, by counts: a
significant token is placed with the trivia before it by one count, capped at `maxTokenRun`, and
trivia skipped before a node opens is placed one token at a time. A capped count leaves tokens
behind (`lagged`); later counts place those first, and what is still behind when the parse ends
never reaches the tree.
-/
namespace MacroTrace

/-- Peeks allowed between two consumed tokens. -/
def lookaheadBudget : Nat := 256

/-- The most tokens one count places in the tree. -/
def maxTokenRun : Nat := 65535

/-- The causes of syntax errors. -/
inductive SyntaxError where
  | expected (k : SyntaxKind)
  | expectedItem
  | expectedItemAfterAttributes
  | expectedParamList
  | expectedName
  | unclosedGenericParams
  | expectedMacroArgument
  | expectedAttributePath
  | unclosedDelimiter
  | unbalancedDelimiter
  | expectedFragment
  deriving DecidableEq, Repr

namespace SyntaxError

def tokenName : SyntaxKind → String
  | .semicolon => "`;`" | .comma => "`,`" | .lParen => "`(`" | .rParen => "`)`"
  | .lBrace => "`\x7b`" | .rBrace => "`\x7d`" | .lBracket => "`[`" | .rBracket => "`]`"
  | .colon => "`:`" | .eq => "`=`" | .bang => "`!`" | .pound => "`#`"
  | .ident => "identifier"
  | _ => "token"

def message : SyntaxError → String
  | expected k => "expected " ++ tokenName k
  | expectedItem => "expected an item"
  | expectedItemAfterAttributes => "expected an item after attributes"
  | expectedParamList => "expected parameter list"
  | expectedName => "expected a name"
  | unclosedGenericParams => "unclosed generic parameter list"
  | expectedMacroArgument => "expected macro argument"
  | expectedAttributePath => "expected attribute path"
  | unclosedDelimiter => "unclosed delimiter"
  | unbalancedDelimiter => "unbalanced delimiter"
  | expectedFragment => "expected an expression, pattern or type"

end SyntaxError

/-- A syntax error at the range of the token it was found at. -/
structure Diagnostic where
  range : TextRange
  error : SyntaxError
  deriving DecidableEq, Repr

def kindAhead : List Token → Nat → SyntaxKind
  | [], _ => .eof
  | t :: ts, n =>
    if t.kind.isTrivia then kindAhead ts n
    else match n with
      | 0 => t.kind
      | n + 1 => kindAhead ts n

/-- The parser's state. -/
structure Parser where
  rest : List Token
  offset : Nat
  budget : Nat
  frames : List (List Green)
  errors : Array Diagnostic
  lagged : List Token
  reserve : Nat

/-- Parser steps. -/
abbrev ParseM := StateM Parser

namespace Parser

def init (tokens : List Token) : Parser :=
  ⟨tokens, 0, lookaheadBudget, [[]], #[], [], 0⟩

def push (g : Green) (p : Parser) : Parser :=
  match p.frames with
  | f :: fs => { p with frames := (g :: f) :: fs }
  | [] => { p with frames := [[g]] }

def pushTokens (ts : List Token) : List (List Green) → List (List Green)
  | f :: fs => ((ts.map .token).reverse ++ f) :: fs
  | [] => [(ts.map .token).reverse]

def place (n : Nat) (p : Parser) : Parser :=
  { p with frames := pushTokens (p.lagged.take n) p.frames, lagged := p.lagged.drop n }

def shift (p : Parser) : Parser :=
  match p.rest with
  | t :: ts => { p with rest := ts, offset := p.offset + t.len, lagged := p.lagged ++ [t] }
  | [] => p

def triviaAhead (p : Parser) : Nat := (p.rest.takeWhile (·.kind.isTrivia)).length

def takeTrivia (p : Parser) : Parser :=
  let trivia := p.rest.takeWhile (·.kind.isTrivia)
  { p with
    rest := p.rest.dropWhile (·.kind.isTrivia)
    offset := p.offset + Token.totalLen trivia
    lagged := p.lagged ++ trivia }

def skipTrivia (p : Parser) : Parser := p.takeTrivia.place p.triviaAhead

def nextRange (p : Parser) : TextRange :=
  go p.rest p.offset
where
  go : List Token → Nat → TextRange
    | [], off => .point off
    | t :: ts, off =>
      if t.kind.isTrivia then go ts (off + t.len)
      else if t.kind == .eof then .point off
      else ⟨off, off + t.len, by omega⟩

end Parser

/-- The kind of the `n`-th significant token ahead, spending one peek; with no peeks left the end
kind, unless a peek of the reserve is spent instead. -/
def nth (n : Nat) : ParseM SyntaxKind := modifyGet fun p =>
  if p.budget = 0 then
    if p.reserve = 0 then (.eof, p) else (kindAhead p.rest n, { p with reserve := p.reserve - 1 })
  else (kindAhead p.rest n, { p with budget := p.budget - 1 })

/-- The kind of the next significant token. -/
def current : ParseM SyntaxKind := nth 0

/-- Whether the next significant token has kind `k`. -/
def atKind (k : SyntaxKind) : ParseM Bool := return (← current) == k

/-- Whether the next significant token has one of the kinds. -/
def atAny (ks : List SyntaxKind) : ParseM Bool := return ks.contains (← current)

def atEnd : ParseM Bool := atKind .eof

def atMacroCall : ParseM Bool := do
  if (← atKind .ident) then return (← nth 1) == .bang else return false

/-- Consumes the next significant token with the trivia before it, places them by one count
capped at `maxTokenRun`, and restores the budget. At the end of input only the trivia is
consumed. -/
def bump : ParseM Unit := modify fun p =>
  let q := { p.takeTrivia with budget := lookaheadBudget }
  match q.rest with
  | t :: _ =>
    if t.kind == .eof then q.place (min p.triviaAhead maxTokenRun)
    else q.shift.place (min (p.triviaAhead + 1) maxTokenRun)
  | [] => q.place (min p.triviaAhead maxTokenRun)

/-- Records a syntax error at the next significant token. -/
def error (e : SyntaxError) : ParseM Unit :=
  modify fun p => { p with errors := p.errors.push ⟨p.nextRange, e⟩ }

def eat (k : SyntaxKind) : ParseM Bool := do
  if (← atKind k) then bump; return true else return false

/-- Consumes a token of kind `k`, or records that one was expected. -/
def expect (k : SyntaxKind) : ParseM Unit := do
  unless (← eat k) do error (.expected k)

/-- Opens a node. Trivia before it goes to the enclosing node. -/
def start : ParseM Unit := modify fun p =>
  let p := p.skipTrivia
  { p with frames := [] :: p.frames }

def complete (k : SyntaxKind) : ParseM Unit := modify fun p =>
  match p.frames with
  | f :: fs => ({ p with frames := fs }).push (.node k f.reverse)
  | [] => p

def errorBump (e : SyntaxError) : ParseM Unit := do
  error e
  unless (← atKind .eof) do
    start
    bump
    complete .errorNode

end MacroTrace
