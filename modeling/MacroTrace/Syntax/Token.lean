import MacroTrace.Syntax.Kind
/-!
Tokens and the lexer. Lexing splits a text into tokens, trivia included, and ends with one empty
end token. Each token is the longest run that the rule for its first character selects; a
character that starts no rule is an error token of that one character. Lengths are in bytes.
-/
namespace MacroTrace

/-- A token: its kind and its text. -/
structure Token where
  kind : SyntaxKind
  text : String
  deriving DecidableEq, Repr, Inhabited

namespace Token

def len (t : Token) : Nat := t.text.utf8ByteSize

def totalLen (ts : List Token) : Nat := ts.foldr (fun t n => t.len + n) 0

end Token

namespace Lexer

def isBlank (c : Char) : Bool :=
  c == ' ' || c == '\t' || c == '\n' || c == '\x0c' || c == '\r'

def isWordChar (c : Char) : Bool := c.isAlphanum || c == '_'

/-- The keyword a word spells, or the identifier kind. -/
def keyword (word : String) : SyntaxKind :=
  if word == "struct" then .structKw
  else if word == "fn" then .fnKw
  else if word == "let" then .letKw
  else if word == "mod" then .modKw
  else if word == "type" then .typeKw
  else .ident

def punctuation (c : Char) : Option SyntaxKind :=
  if c == ';' then some .semicolon else if c == ',' then some .comma
  else if c == '(' then some .lParen else if c == ')' then some .rParen
  else if c == '{' then some .lBrace else if c == '}' then some .rBrace
  else if c == '[' then some .lBracket else if c == ']' then some .rBracket
  else if c == ':' then some .colon else if c == '.' then some .dot
  else if c == '=' then some .eq else if c == '!' then some .bang
  else if c == '#' then some .pound else if c == '$' then some .dollar
  else if c == '&' then some .amp else if c == '<' then some .lt
  else if c == '>' then some .gt else if c == '+' then some .plus
  else if c == '-' then some .minus else if c == '*' then some .star
  else none

def commentTail : List Char → Nat
  | [] => 0
  | '*' :: '/' :: _ => 2
  | _ :: rest => commentTail rest + 1

/-- The kind of the token that starts with `c`, and how many characters of `rest` it takes. -/
def scan (c : Char) (rest : List Char) : SyntaxKind × Nat :=
  if isBlank c then (.whitespace, (rest.takeWhile isBlank).length)
  else if c == '/' && rest.head? == some '/' then
    (.lineComment, (rest.takeWhile (· != '\n')).length)
  else if c == '/' && rest.head? == some '*' then (.blockComment, commentTail rest.tail + 1)
  else match punctuation c with
    | some k => (k, 0)
    | none =>
      if c == '/' then (.slash, 0)
      else if c == '"' then
        (.stringLiteral, min ((rest.takeWhile (· != '"')).length + 1) rest.length)
      else if c == '\'' then
        let n := (rest.takeWhile isWordChar).length
        if n == 0 then (.error, 0) else (.lifetime, n)
      else if c.isDigit then (.intLiteral, (rest.takeWhile isWordChar).length)
      else if c.isAlpha || c == '_' then
        let n := (rest.takeWhile isWordChar).length
        (keyword (String.ofList (c :: rest.take n)), n)
      else (.error, 0)

def tokens : List Char → List Token
  | [] => []
  | c :: rest =>
    let (k, n) := scan c rest
    ⟨k, String.ofList (c :: rest.take n)⟩ :: tokens (rest.drop n)
termination_by cs => cs.length
decreasing_by simp only [List.length_drop, List.length_cons]; omega

end Lexer

def Token.eof : Token := ⟨.eof, ""⟩

/-- Lexes a text: its tokens in order, trivia included, then the end token. -/
def lex (s : String) : List Token := Lexer.tokens s.toList ++ [Token.eof]

end MacroTrace
