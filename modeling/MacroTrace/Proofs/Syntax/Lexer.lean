import MacroTrace.Syntax.Token
import MacroTrace.Proofs.Text.Slice

/-! Lexing loses nothing: the texts of the tokens, in order, spell the input, and every token
before the end token holds at least one character. Token boundaries are therefore character
boundaries, which is what slicing text by token ranges relies on. -/
namespace MacroTrace

namespace Token

/-- The characters of a list of tokens, in order. -/
def chars (ts : List Token) : List Char := ts.flatMap fun t => t.text.toList

@[simp] theorem chars_nil : chars [] = [] := rfl

@[simp] theorem chars_cons (t : Token) (ts : List Token) :
    chars (t :: ts) = t.text.toList ++ chars ts := rfl

@[simp] theorem chars_append (ts us : List Token) : chars (ts ++ us) = chars ts ++ chars us := by
  simp [chars]

@[simp] theorem totalLen_nil : totalLen [] = 0 := rfl

@[simp] theorem totalLen_cons (t : Token) (ts : List Token) :
    totalLen (t :: ts) = t.len + totalLen ts := rfl

theorem len_eq_bytesOf (t : Token) : t.len = bytesOf t.text.toList :=
  utf8ByteSize_eq_bytesOf t.text

theorem totalLen_eq_bytesOf (ts : List Token) : totalLen ts = bytesOf (chars ts) := by
  induction ts with
  | nil => rfl
  | cons t ts ih => simp [ih, len_eq_bytesOf]

@[simp] theorem totalLen_append (ts us : List Token) :
    totalLen (ts ++ us) = totalLen ts + totalLen us := by
  simp [totalLen_eq_bytesOf]

@[simp] theorem len_eof : Token.eof.len = 0 := rfl

@[simp] theorem chars_eof : Token.eof.text.toList = [] := rfl

end Token

namespace Lexer

/-- The tokens of a character list spell it. -/
theorem chars_tokens (cs : List Char) : Token.chars (tokens cs) = cs := by
  fun_induction tokens cs with
  | case1 => rfl
  | case2 c rest k n hscan ih =>
    simp only [Token.chars_cons, String.toList_ofList, ih, List.cons_append, List.take_append_drop]

theorem len_pos_of_mem {cs : List Char} {t : Token} (h : t ∈ tokens cs) : 0 < t.len := by
  fun_induction tokens cs with
  | case1 => simp at h
  | case2 c rest k n hscan ih =>
    rcases List.mem_cons.1 h with rfl | h
    · rw [Token.len_eq_bytesOf, String.toList_ofList, bytesOf_cons]
      exact Nat.lt_of_lt_of_le c.utf8Size_pos (Nat.le_add_right _ _)
    · exact ih h

end Lexer

theorem chars_lex (s : String) : Token.chars (lex s) = s.toList := by
  simp [lex, Lexer.chars_tokens]

theorem totalLen_lex (s : String) : Token.totalLen (lex s) = s.utf8ByteSize := by
  rw [Token.totalLen_eq_bytesOf, chars_lex, utf8ByteSize_eq_bytesOf]

end MacroTrace
