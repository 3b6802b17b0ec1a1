import MacroTrace.Syntax.Parser
/-!
The grammar of the item language and the parse function. Items are structs, functions, modules,
type aliases and macro calls, each with leading attributes. Function bodies hold statements;
expressions, patterns and types are flat runs of tokens with macro calls as child nodes, and
delimited token trees stay flat. Parsing never fails: errors become error nodes and diagnostics,
and the tree holds the tokens of the text in order: all of them, unless a run of trivia was too
long for one count and the tokens it left behind were never placed.

Every grammar function takes a step allowance that shrinks on each call and loop round. The
allowance that `parse` grants grows with the number of tokens far beyond what any run uses, so it
never cuts a parse short.
-/
namespace MacroTrace

/-- Where a parse starts, which fixes the root's kind. -/
inductive EntryPoint where
  | sourceFile | items | stmts | expr | pat | type | lifetime
  deriving DecidableEq, Repr, Inhabited

namespace EntryPoint

def rootKind : EntryPoint → SyntaxKind
  | sourceFile => .sourceFile
  | items => .macroItems
  | stmts => .macroStmts
  | expr => .macroExpr
  | pat => .macroPat
  | type => .macroType
  | lifetime => .macroLifetime

def ofTitle? : String → Option EntryPoint
  | "SourceFile" => some sourceFile
  | "Items" => some items
  | "Stmts" => some stmts
  | "Expr" => some expr
  | "Pat" => some pat
  | "Type" => some type
  | "Lifetime" => some lifetime
  | _ => none

end EntryPoint

namespace Grammar

def atItemStart : ParseM Bool := do
  if (← atAny [.pound, .structKw, .fnKw, .modKw, .typeKw]) then return true
  atMacroCall

def atFragmentEnd (stop : List SyntaxKind) : ParseM Bool := do
  if (← atEnd) then return true
  if (← atAny stop) then return true
  atAny [.rParen, .rBracket, .rBrace]

def name : ParseM Unit := do
  if (← atKind .ident) then
    start; bump; complete .name
  else error .expectedName

def path : ParseM Unit := do
  start; bump; complete .path

def tokenTree : Nat → List SyntaxKind → ParseM Unit
  | 0, _ => pure ()
  | n + 1, closers => do
    let k ← current
    match k.closer? with
    | some c => bump; tokenTree n (c :: closers)
    | none =>
      if closers.head? == some k then
        bump
        unless closers.tail.isEmpty do tokenTree n closers.tail
      else if k == .eof then error .unclosedDelimiter
      else
        bump
        tokenTree n closers

def genericRounds : Nat → ParseM Bool
  | 0 => pure true
  | n + 1 => do
    if (← atKind .gt) then return true
    if (← atEnd) then return true
    if (← atAny [.lBrace, .semicolon]) then
      error .unclosedGenericParams
      return false
    bump
    genericRounds n

def genericParams (n : Nat) : ParseM Unit := do
  if (← eat .lt) then
    if (← genericRounds n) then expect .gt

def treeNode (n : Nat) (k : SyntaxKind) : ParseM Unit := do
  start; tokenTree n []; complete k

def macroCallParts (n : Nat) : ParseM Unit := do
  path
  bump
  if (← atAny [.lParen, .lBrace, .lBracket]) then treeNode n .macroArgument
  else error .expectedMacroArgument

/-- A macro call in expression, pattern or type position. -/
def macroCall (n : Nat) : ParseM Unit := do
  start; macroCallParts n; complete .macroCall

def fragmentTokens : Nat → List SyntaxKind → ParseM Unit
  | 0, _ => pure ()
  | n + 1, stop => do
    unless (← atFragmentEnd stop) do
      if (← atMacroCall) then macroCall n
      else if ((← current).closer?).isSome then tokenTree n []
      else bump
      fragmentTokens n stop

/-- An expression, pattern or type node of kind `k`; an empty one is an error and no node. -/
def fragment (n : Nat) (k : SyntaxKind) (stop : List SyntaxKind) : ParseM Unit := do
  if (← atFragmentEnd stop) then error .expectedFragment
  else
    start; fragmentTokens n stop; complete k

/-- An attribute `#[path(args)]`. -/
def attr (n : Nat) : ParseM Unit := do
  start
  bump
  expect .lBracket
  if (← atKind .ident) then path else error .expectedAttributePath
  if (← atKind .lParen) then treeNode n .attrArgs
  expect .rBracket
  complete .attr

def attrs : Nat → ParseM Unit
  | 0 => pure ()
  | n + 1 => do
    if (← atKind .pound) then
      attr n
      attrs n

mutual

def itemsUntil : Nat → SyntaxKind → ParseM Unit
  | 0, _ => pure ()
  | n + 1, stop => do
    if (← atKind stop) then return
    if (← atEnd) then return
    if (← atItemStart) then item n else errorBump .expectedItem
    itemsUntil n stop

/-- One item with its attributes; the node's kind is known once the attributes are read. -/
def item : Nat → ParseM Unit
  | 0 => pure ()
  | n + 1 => do
    start
    attrs n
    match ← current with
    | .structKw => structItem n; complete .structItem
    | .fnKw => fnItem n; complete .fnItem
    | .modKw => modItem n; complete .modItem
    | .typeKw => typeAlias n; complete .typeAlias
    | _ =>
      if (← atMacroCall) then
        macroCallParts n
        let _ ← eat .semicolon
        complete .macroCall
      else
        error .expectedItemAfterAttributes
        complete .errorNode

def structItem : Nat → ParseM Unit
  | 0 => pure ()
  | n + 1 => do
    bump
    name
    genericParams n
    match ← current with
    | .lBrace => treeNode n .fieldList
    | .lParen => treeNode n .fieldList; expect .semicolon
    | _ => expect .semicolon

def fnItem : Nat → ParseM Unit
  | 0 => pure ()
  | n + 1 => do
    bump
    name
    genericParams n
    if (← atKind .lParen) then treeNode n .paramList else error .expectedParamList
    if (← atKind .minus) then
      if (← nth 1) == .gt then
        bump; bump
        fragment n .typeRef [.lBrace]
    if (← atKind .lBrace) then block n else expect .semicolon

def modItem : Nat → ParseM Unit
  | 0 => pure ()
  | n + 1 => do
    bump
    name
    if (← atKind .lBrace) then
      start
      bump
      itemsUntil n .rBrace
      expect .rBrace
      complete .itemList
    else expect .semicolon

def typeAlias : Nat → ParseM Unit
  | 0 => pure ()
  | n + 1 => do
    bump
    name
    genericParams n
    expect .eq
    fragment n .typeRef [.semicolon]
    expect .semicolon

def block : Nat → ParseM Unit
  | 0 => pure ()
  | n + 1 => do
    start
    bump
    stmtsUntil n .rBrace
    expect .rBrace
    complete .block

def stmtsUntil : Nat → SyntaxKind → ParseM Unit
  | 0, _ => pure ()
  | n + 1, stop => do
    if (← atKind stop) then return
    if (← atEnd) then return
    stmt n
    stmtsUntil n stop

/-- One statement: `let`, an empty `;`, a macro call, an item, or an expression. -/
def stmt : Nat → ParseM Unit
  | 0 => pure ()
  | n + 1 => do
    let k ← current
    match k with
    | .letKw => letStmt n
    | .semicolon => bump
    | _ =>
      if (← atMacroCall) then
        start
        macroCallParts n
        let _ ← eat .semicolon
        complete .macroCall
      else if (← atItemStart) then item n
      else if k.isCloser then errorBump .unbalancedDelimiter
      else
        start
        fragment n .expr [.semicolon]
        let _ ← eat .semicolon
        complete .exprStmt

def letStmt : Nat → ParseM Unit
  | 0 => pure ()
  | n + 1 => do
    start
    bump
    fragment n .pat [.colon, .eq, .semicolon]
    if (← eat .colon) then fragment n .typeRef [.eq, .semicolon]
    if (← eat .eq) then fragment n .expr [.semicolon]
    expect .semicolon
    complete .letStmt

end

def fragmentRounds : Nat → ParseM Unit
  | 0 => pure ()
  | n + 1 => do
    fragmentTokens n []
    unless (← atEnd) do
      errorBump .unbalancedDelimiter
      fragmentRounds n

/-- The body of a parse from an entry point. -/
def entryBody (n : Nat) : EntryPoint → ParseM Unit
  | .sourceFile | .items => itemsUntil n .eof
  | .stmts => stmtsUntil n .eof
  | .expr | .pat | .type | .lifetime => fragmentRounds n

end Grammar

/-- The result of a parse: the tree and the syntax errors in the order found. -/
structure Parse where
  tree : Green
  errors : List Diagnostic

def stepAllowance (tokens : List Token) : Nat := 512 * (tokens.length + 2)

/-- Parses a text from an entry point. Trailing trivia goes inside the root. -/
def parse (text : String) (entry : EntryPoint) : Parse :=
  let tokens := lex text
  let p := ((Grammar.entryBody (stepAllowance tokens) entry).run (Parser.init tokens)).2
  let p := p.skipTrivia
  let children := match p.frames with
    | f :: _ => f.reverse
    | [] => []
  ⟨.node entry.rootKind children, p.errors.toList⟩

end MacroTrace
