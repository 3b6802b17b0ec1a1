/-!
Syntax kinds: the kinds of tokens and of tree nodes of the item language, with their display
titles. Token kinds come first, then a boundary marker that no element ever has, then node kinds:
one root kind per entry point, then items, macros, statements and fragments.
-/
namespace MacroTrace

/-- The kind of a token or of a tree node. -/
inductive SyntaxKind where
  | whitespace | lineComment | blockComment
  | semicolon | comma | lParen | rParen | lBrace | rBrace | lBracket | rBracket
  | colon | dot | eq | bang | pound | dollar | amp | lt | gt
  | plus | minus | star | slash
  | intLiteral | stringLiteral | lifetime
  | ident
  | structKw | fnKw | letKw | modKw | typeKw
  | error | eof
  | nodeStart
  | sourceFile | macroItems | macroStmts | macroExpr | macroPat | macroType | macroLifetime
  | structItem | fnItem | modItem | typeAlias | itemList | name
  | macroCall | macroArgument | path | attr | attrArgs
  | block | letStmt | exprStmt | expr | pat | typeRef | paramList | fieldList
  | errorNode
  deriving DecidableEq, Repr, Inhabited

namespace SyntaxKind

def title : SyntaxKind → String
  | whitespace => "Whitespace" | lineComment => "LineComment" | blockComment => "BlockComment"
  | semicolon => "Semicolon" | comma => "Comma" | lParen => "LParen" | rParen => "RParen"
  | lBrace => "LBrace" | rBrace => "RBrace" | lBracket => "LBracket" | rBracket => "RBracket"
  | colon => "Colon" | dot => "Dot" | eq => "Eq" | bang => "Bang" | pound => "Pound"
  | dollar => "Dollar" | amp => "Amp" | lt => "Lt" | gt => "Gt"
  | plus => "Plus" | minus => "Minus" | star => "Star" | slash => "Slash"
  | intLiteral => "IntLiteral" | stringLiteral => "StringLiteral" | lifetime => "Lifetime"
  | ident => "Ident"
  | structKw => "StructKw" | fnKw => "FnKw" | letKw => "LetKw" | modKw => "ModKw"
  | typeKw => "TypeKw"
  | error => "Error" | eof => "Eof"
  | nodeStart => "__NodeStart"
  | sourceFile => "SourceFile" | macroItems => "MacroItems" | macroStmts => "MacroStmts"
  | macroExpr => "MacroExpr" | macroPat => "MacroPat" | macroType => "MacroType"
  | macroLifetime => "MacroLifetime"
  | structItem => "StructItem" | fnItem => "FnItem" | modItem => "ModItem"
  | typeAlias => "TypeAlias" | itemList => "ItemList" | name => "Name"
  | macroCall => "MacroCall" | macroArgument => "MacroArgument" | path => "Path"
  | attr => "Attr" | attrArgs => "AttrArgs"
  | block => "Block" | letStmt => "LetStmt" | exprStmt => "ExprStmt" | expr => "Expr"
  | pat => "Pat" | typeRef => "TypeRef" | paramList => "ParamList" | fieldList => "FieldList"
  | errorNode => "ErrorNode"

def all : List SyntaxKind :=
  [whitespace, lineComment, blockComment,
   semicolon, comma, lParen, rParen, lBrace, rBrace, lBracket, rBracket,
   colon, dot, eq, bang, pound, dollar, amp, lt, gt,
   plus, minus, star, slash,
   intLiteral, stringLiteral, lifetime,
   ident,
   structKw, fnKw, letKw, modKw, typeKw,
   error, eof,
   nodeStart,
   sourceFile, macroItems, macroStmts, macroExpr, macroPat, macroType, macroLifetime,
   structItem, fnItem, modItem, typeAlias, itemList, name,
   macroCall, macroArgument, path, attr, attrArgs,
   block, letStmt, exprStmt, expr, pat, typeRef, paramList, fieldList,
   errorNode]

def ofTitle? (s : String) : Option SyntaxKind := all.find? (·.title == s)

def isTrivia : SyntaxKind → Bool
  | whitespace | lineComment | blockComment => true
  | _ => false

/-- The kinds of item nodes. -/
def isItem : SyntaxKind → Bool
  | structItem | fnItem | modItem | typeAlias | macroCall => true
  | _ => false

def closer? : SyntaxKind → Option SyntaxKind
  | lParen => some rParen
  | lBrace => some rBrace
  | lBracket => some rBracket
  | _ => none

def isCloser : SyntaxKind → Bool
  | rParen | rBracket | rBrace => true
  | _ => false

end SyntaxKind

end MacroTrace
