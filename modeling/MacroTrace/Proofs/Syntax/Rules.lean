import MacroTrace.Proofs.Syntax.Lexer

/-! The lexical rules, said on their own. At a position of the text, the rules select one token:
the kind comes from the first character, and the token runs as far as that kind allows (a maximal
run of whitespace, a comment to its end, a word while word characters follow, and so on). A split
of a text into tokens follows the rules when every token is what the rules select where it
starts (`Lexes`). The rules never select two tokens at one position, so a text has one such split,
and lexing computes it: the tokens before the end token are that split. -/
namespace MacroTrace

namespace Lexer

def Unknown (c : Char) : Prop :=
  isBlank c = false ∧ c ≠ '/' ∧ punctuation c = none ∧ c ≠ '"' ∧ c ≠ '\'' ∧
    c.isDigit = false ∧ c.isAlpha = false ∧ c ≠ '_'

/-- `Selects cs k w`: at a text starting with `cs`, the rules select the token of kind `k`
spelled `w`, a prefix of `cs`. -/
inductive Selects : List Char → SyntaxKind → List Char → Prop
  | whitespace {run rest : List Char} : run ≠ [] → (∀ c ∈ run, isBlank c) →
      (∀ c ∈ rest.head?, isBlank c = false) → Selects (run ++ rest) .whitespace run
  | lineComment {body rest : List Char} : '\n' ∉ body → (∀ c ∈ rest.head?, c = '\n') →
      Selects ('/' :: '/' :: body ++ rest) .lineComment ('/' :: '/' :: body)
  | blockComment {body rest : List Char} : ¬ ['*', '/'] <:+: body →
      Selects ('/' :: '*' :: body ++ '*' :: '/' :: rest) .blockComment
        ('/' :: '*' :: body ++ ['*', '/'])
  | openComment {body : List Char} : ¬ ['*', '/'] <:+: body →
      Selects ('/' :: '*' :: body) .blockComment ('/' :: '*' :: body)
  | punctuation {c : Char} {k : SyntaxKind} {rest : List Char} : punctuation c = some k →
      Selects (c :: rest) k [c]
  | slash {rest : List Char} : (∀ c ∈ rest.head?, c ≠ '/' ∧ c ≠ '*') →
      Selects ('/' :: rest) .slash ['/']
  | string {body rest : List Char} : '"' ∉ body →
      Selects ('"' :: body ++ '"' :: rest) .stringLiteral ('"' :: body ++ ['"'])
  | openString {body : List Char} : '"' ∉ body → Selects ('"' :: body) .stringLiteral ('"' :: body)
  | lifetime {name rest : List Char} : name ≠ [] → (∀ c ∈ name, isWordChar c) →
      (∀ c ∈ rest.head?, isWordChar c = false) → Selects ('\'' :: name ++ rest) .lifetime ('\'' :: name)
  | quote {rest : List Char} : (∀ c ∈ rest.head?, isWordChar c = false) →
      Selects ('\'' :: rest) .error ['\'']
  | int {c : Char} {more rest : List Char} : c.isDigit → (∀ d ∈ more, isWordChar d) →
      (∀ d ∈ rest.head?, isWordChar d = false) → Selects (c :: more ++ rest) .intLiteral (c :: more)
  | word {c : Char} {more rest : List Char} : (c.isAlpha ∨ c = '_') → (∀ d ∈ more, isWordChar d) →
      (∀ d ∈ rest.head?, isWordChar d = false) →
      Selects (c :: more ++ rest) (keyword (String.ofList (c :: more))) (c :: more)
  | other {c : Char} {rest : List Char} : Unknown c → Selects (c :: rest) .error [c]

/-- `Lexes cs ts`: the tokens `ts` split `cs`, each one what the rules select where it starts. -/
inductive Lexes : List Char → List Token → Prop
  | nil : Lexes [] []
  | cons {w rest : List Char} {k : SyntaxKind} {ts : List Token} :
      Selects (w ++ rest) k w → Lexes rest ts → Lexes (w ++ rest) (⟨k, String.ofList w⟩ :: ts)

/-! ### Runs and comment tails -/

theorem takeWhile_run {p : Char → Bool} {more rest : List Char} (hm : ∀ d ∈ more, p d)
    (hr : ∀ d ∈ rest.head?, p d = false) : (more ++ rest).takeWhile p = more := by
  rw [List.takeWhile_append_of_pos hm]
  cases rest with
  | nil => simp
  | cons d ds => simp [hr d rfl]

theorem exists_run (p : Char → Bool) (rest : List Char) : ∃ more tail, rest = more ++ tail ∧
    (∀ d ∈ more, p d) ∧ (∀ d ∈ tail.head?, p d = false) :=
  ⟨rest.takeWhile p, rest.dropWhile p, List.takeWhile_append_dropWhile.symm,
    fun _ h => List.all_eq_true.1 List.all_takeWhile _ h, fun d h => by
      have := List.head?_dropWhile_not p rest
      rwa [h] at this⟩

theorem closer_infix_cons {c : Char} {cs : List Char} :
    ['*', '/'] <:+: c :: cs ↔ (c = '*' ∧ cs.head? = some '/') ∨ ['*', '/'] <:+: cs := by
  rw [List.infix_cons_iff]
  cases cs with
  | nil => simp
  | cons d ds => simp [List.cons_prefix_cons, eq_comm]

theorem commentTail_cons (c : Char) (cs : List Char) :
    commentTail (c :: cs) = if c = '*' ∧ cs.head? = some '/' then 2 else commentTail cs + 1 := by
  split_ifs with hc
  · obtain ⟨rfl, hd⟩ := hc
    obtain ⟨t, rfl⟩ := List.head?_eq_some_iff.1 hd
    exact commentTail.eq_2 t
  · exact commentTail.eq_3 c cs fun t h₁ h₂ => hc ⟨h₁, by simp [h₂]⟩

theorem commentTail_closed {body rest : List Char} (h : ¬ ['*', '/'] <:+: body) :
    commentTail (body ++ '*' :: '/' :: rest) = body.length + 2 := by
  induction body with
  | nil => simp [commentTail_cons]
  | cons c cs ih =>
    rw [closer_infix_cons, not_or] at h
    rw [List.cons_append, commentTail_cons, if_neg, ih h.2, List.length_cons]
    rintro ⟨rfl, hd⟩
    cases cs with
    | nil => simp at hd
    | cons d ds => exact h.1 ⟨rfl, by simpa using hd⟩

theorem commentTail_open {body : List Char} (h : ¬ ['*', '/'] <:+: body) :
    commentTail body = body.length := by
  induction body with
  | nil => rfl
  | cons c cs ih =>
    rw [closer_infix_cons, not_or] at h
    rw [commentTail_cons, if_neg h.1, ih h.2, List.length_cons]

theorem closer_cases : ∀ xs : List Char,
    (∃ body rest, xs = body ++ '*' :: '/' :: rest ∧ ¬ ['*', '/'] <:+: body) ∨ ¬ ['*', '/'] <:+: xs
  | [] => .inr (by simp)
  | c :: cs => by
    by_cases hc : c = '*' ∧ cs.head? = some '/'
    · obtain ⟨rfl, hd⟩ := hc
      obtain ⟨t, rfl⟩ := List.head?_eq_some_iff.1 hd
      exact .inl ⟨[], t, rfl, by simp⟩
    · rcases closer_cases cs with ⟨body, rest, rfl, hb⟩ | hn
      · refine .inl ⟨c :: body, rest, rfl, ?_⟩
        rw [closer_infix_cons, not_or]
        refine ⟨fun hp => hc ⟨hp.1, ?_⟩, hb⟩
        cases body with
        | nil => simp at hp
        | cons d ds => simpa using hp.2
      · exact .inr (by rw [closer_infix_cons, not_or]; exact ⟨hc, hn⟩)

/-! ### Characters -/

def punctuationChars : List Char :=
  [';', ',', '(', ')', '{', '}', '[', ']', ':', '.', '=', '!', '#', '$', '&', '<', '>', '+', '-', '*']

theorem punctuation_eq_none {c : Char} (h : c ∉ punctuationChars) : punctuation c = none := by
  simp only [punctuationChars, List.mem_cons, List.not_mem_nil, or_false, not_or] at h
  simp [punctuation, h]

theorem punctuation_some {c : Char} {k : SyntaxKind} (h : punctuation c = some k) :
    isBlank c = false ∧ c ≠ '/' ∧ c ≠ '"' ∧ c ≠ '\'' ∧ isWordChar c = false := by
  have hc : c ∈ punctuationChars := by
    by_contra hn
    simp [punctuation_eq_none hn] at h
  simp only [punctuationChars, List.mem_cons, List.not_mem_nil, or_false] at hc
  rcases hc with rfl | rfl | rfl | rfl | rfl | rfl | rfl | rfl | rfl | rfl | rfl | rfl | rfl | rfl |
    rfl | rfl | rfl | rfl | rfl | rfl <;> decide

theorem wordChar_facts {c : Char} (h : isWordChar c) :
    isBlank c = false ∧ c ≠ '/' ∧ punctuation c = none ∧ c ≠ '"' ∧ c ≠ '\'' := by
  have hp : punctuation c = none := by
    cases hk : punctuation c with
    | none => rfl
    | some k => simp [(punctuation_some hk).2.2.2.2] at h
  refine ⟨?_, ?_, hp, ?_, ?_⟩
  · cases hb : isBlank c
    · rfl
    · simp only [isBlank, Bool.or_eq_true, beq_iff_eq] at hb
      rcases hb with (((rfl | rfl) | rfl) | rfl) | rfl <;> revert h <;> decide
  all_goals rintro rfl; revert h; decide

theorem isWordChar_of_digit {c : Char} (h : c.isDigit) : isWordChar c := by
  simp [isWordChar, Char.isAlphanum, h]

theorem isWordChar_of_start {c : Char} (h : c.isAlpha ∨ c = '_') : isWordChar c := by
  rcases h with h | rfl
  · simp [isWordChar, Char.isAlphanum, h]
  · decide

theorem isDigit_of_isAlpha {c : Char} (h : c.isAlpha) : c.isDigit = false := by
  change (decide (c.val ≥ 'A'.val ∧ c.val ≤ 'Z'.val) ||
    (decide (c.val ≥ 'a'.val) && decide (c.val ≤ 'z'.val))) = true at h
  change (decide (c.val ≥ '0'.val) && decide (c.val ≤ '9'.val)) = false
  simp only [Bool.or_eq_true, Bool.and_eq_true, decide_eq_true_eq, UInt32.le_iff_toNat_le] at h
  simp only [Bool.and_eq_false_iff, decide_eq_false_iff_not, UInt32.le_iff_toNat_le]
  right
  rcases h with ⟨h₁, -⟩ | ⟨h₁, -⟩ <;> simp at h₁ ⊢ <;> omega

/-! ### What the scanner picks, rule by rule -/

theorem scan_blank {c : Char} (h : isBlank c) (rest : List Char) :
    scan c rest = (.whitespace, (rest.takeWhile isBlank).length) := by
  simp [scan, h]

theorem scan_lineComment (rest : List Char) :
    scan '/' ('/' :: rest) = (.lineComment, (rest.takeWhile (· != '\n')).length + 1) := by
  simp [scan, isBlank]

theorem scan_blockComment (rest : List Char) :
    scan '/' ('*' :: rest) = (.blockComment, commentTail rest + 1) := by
  simp [scan, isBlank]

theorem scan_punctuation {c : Char} {k : SyntaxKind} (h : punctuation c = some k)
    (rest : List Char) : scan c rest = (k, 0) := by
  obtain ⟨hb, hs, -⟩ := punctuation_some h
  simp [scan, hb, hs, h]

theorem scan_slash {rest : List Char} (h : ∀ d ∈ rest.head?, d ≠ '/' ∧ d ≠ '*') :
    scan '/' rest = (.slash, 0) := by
  have hp : punctuation '/' = none := punctuation_eq_none (by decide)
  cases rest with
  | nil => simp [scan, isBlank, hp]
  | cons d ds =>
    obtain ⟨h₁, h₂⟩ := h d rfl
    simp [scan, isBlank, hp, h₁, h₂]

theorem scan_string (rest : List Char) :
    scan '"' rest = (.stringLiteral, min ((rest.takeWhile (· != '"')).length + 1) rest.length) := by
  have hp : punctuation '"' = none := punctuation_eq_none (by decide)
  simp [scan, isBlank, hp]

theorem scan_apostrophe (rest : List Char) :
    scan '\'' rest = if (rest.takeWhile isWordChar).length = 0 then (.error, 0)
      else (.lifetime, (rest.takeWhile isWordChar).length) := by
  have hp : punctuation '\'' = none := punctuation_eq_none (by decide)
  simp [scan, isBlank, hp]

theorem scan_digit {c : Char} (h : c.isDigit) (rest : List Char) :
    scan c rest = (.intLiteral, (rest.takeWhile isWordChar).length) := by
  obtain ⟨hb, hs, hp, hq, ha⟩ := wordChar_facts (isWordChar_of_digit h)
  simp [scan, hb, hs, hp, hq, ha, h]

theorem scan_word {c : Char} (h : c.isAlpha ∨ c = '_') (rest : List Char) :
    scan c rest = (keyword (String.ofList (c :: rest.take (rest.takeWhile isWordChar).length)),
      (rest.takeWhile isWordChar).length) := by
  obtain ⟨hb, hs, hp, hq, ha⟩ := wordChar_facts (isWordChar_of_start h)
  have hd : c.isDigit = false := by
    rcases h with h | rfl
    · exact isDigit_of_isAlpha h
    · decide
  have hw : (c.isAlpha || c == '_') = true := by
    rcases h with h | rfl
    · simp [h]
    · decide
  simp [scan, hb, hs, hp, hq, ha, hd, hw]

theorem scan_unknown {c : Char} (h : Unknown c) (rest : List Char) : scan c rest = (.error, 0) := by
  obtain ⟨hb, hs, hp, hq, ha, hd, hl, hu⟩ := h
  simp [scan, hb, hs, hp, hq, ha, hd, hl, hu]

/-! ### The scanner never makes an end token: only `lex` adds one -/

theorem keyword_ne_eof (word : String) : keyword word ≠ .eof := by
  unfold keyword
  split_ifs <;> decide

theorem punctuation_ne_eof (c : Char) : (punctuation c).all (· != .eof) = true := by
  simp only [punctuation, apply_ite (Option.all fun k => k != SyntaxKind.eof), Option.all_some,
    Option.all_none]
  simp

theorem scan_ne_eof (c : Char) (rest : List Char) : (scan c rest).1 ≠ .eof := by
  unfold scan
  split
  · simp
  split
  · simp
  split
  · simp
  split
  · rename_i k hk
    simpa [hk] using punctuation_ne_eof c
  · simp only [apply_ite Prod.fst]
    split_ifs <;> simp [keyword_ne_eof]

theorem kind_ne_eof_of_mem {cs : List Char} {t : Token} (h : t ∈ tokens cs) : t.kind ≠ .eof := by
  fun_induction tokens cs with
  | case1 => simp at h
  | case2 c rest k n hscan ih =>
    rcases List.mem_cons.1 h with rfl | h
    · have := scan_ne_eof c rest
      rw [hscan] at this
      exact this
    · exact ih h

theorem tokens_of_scan {c : Char} {rest : List Char} {k : SyntaxKind} {n : Nat}
    (h : scan c rest = (k, n)) :
    tokens (c :: rest) = ⟨k, String.ofList (c :: rest.take n)⟩ :: tokens (rest.drop n) := by
  rw [tokens, h]

/-! ### The scanner and the rules agree -/

theorem selects_scan (c : Char) (rest : List Char) :
    Selects (c :: rest) (scan c rest).1 (c :: rest.take (scan c rest).2) := by
  by_cases hb : isBlank c
  · obtain ⟨more, tail, rfl, hm, ht⟩ := exists_run isBlank rest
    rw [scan_blank hb, takeWhile_run hm ht, List.take_left]
    exact @Selects.whitespace (c :: more) tail (List.cons_ne_nil _ _)
      (fun d hd => (List.mem_cons.1 hd).elim (fun h => h ▸ hb) (hm d)) ht
  by_cases hs : c = '/'
  · subst hs
    rcases rest with _ | ⟨d, ds⟩
    · rw [scan_slash (by simp)]
      exact .slash (by simp)
    by_cases hd : d = '/'
    · subst hd
      obtain ⟨body, tail, rfl, hm, ht⟩ := exists_run (· != '\n') ds
      rw [scan_lineComment, takeWhile_run hm ht]
      simp only [List.take_succ_cons, List.take_left]
      exact .lineComment (fun hn => by simpa using hm _ hn) (fun d hd => by simpa using ht d hd)
    by_cases hd' : d = '*'
    · subst hd'
      rcases closer_cases ds with ⟨body, tail, rfl, hn⟩ | hn
      · rw [scan_blockComment, commentTail_closed hn]
        have : ('*' :: (body ++ '*' :: '/' :: tail)).take (body.length + 2 + 1) =
            '*' :: body ++ ['*', '/'] := by
          simp [List.take_append, List.take_of_length_le]
        rw [this]
        exact .blockComment hn
      · rw [scan_blockComment, commentTail_open hn, List.take_of_length_le (by simp)]
        exact .openComment hn
    · rw [scan_slash (by simp [hd, hd'])]
      exact .slash (by simp [hd, hd'])
  cases hp : punctuation c with
  | some k =>
    rw [scan_punctuation hp]
    exact .punctuation hp
  | none =>
  by_cases hq : c = '"'
  · subst hq
    obtain ⟨body, tail, rfl, hm, ht⟩ := exists_run (· != '"') rest
    have hbody : '"' ∉ body := fun hn => by simpa using hm _ hn
    rw [scan_string, takeWhile_run hm ht]
    rcases tail with _ | ⟨d, ds⟩
    · rw [List.append_nil, Nat.min_eq_right (Nat.le_succ _), List.take_length]
      exact .openString hbody
    · obtain rfl : d = '"' := by simpa using ht d rfl
      rw [Nat.min_eq_left (by simp), List.take_append, List.take_of_length_le (by simp)]
      simpa using @Selects.string body ds hbody
  by_cases ha : c = '\''
  · subst ha
    obtain ⟨name, tail, rfl, hm, ht⟩ := exists_run isWordChar rest
    rw [scan_apostrophe, takeWhile_run hm ht]
    rcases name with _ | ⟨d, ds⟩
    · simpa using Selects.quote ht
    · simp only [List.length_cons, Nat.add_one_ne_zero, if_false, List.take_left']
      exact .lifetime (List.cons_ne_nil _ _) hm ht
  by_cases hd : c.isDigit
  · obtain ⟨more, tail, rfl, hm, ht⟩ := exists_run isWordChar rest
    rw [scan_digit hd, takeWhile_run hm ht, List.take_left]
    exact .int hd hm ht
  by_cases hw : c.isAlpha ∨ c = '_'
  · obtain ⟨more, tail, rfl, hm, ht⟩ := exists_run isWordChar rest
    rw [scan_word hw, takeWhile_run hm ht, List.take_left]
    exact .word hw hm ht
  · have hu : Unknown c := ⟨by simpa using hb, hs, hp, hq, ha, by simpa using hd,
      by simpa using (not_or.1 hw).1, (not_or.1 hw).2⟩
    rw [scan_unknown hu]
    exact .other hu

theorem Selects.scan_eq {cs : List Char} {k : SyntaxKind} {w : List Char} (h : Selects cs k w) :
    ∃ c rest, cs = c :: rest ∧ k = (scan c rest).1 ∧ w = c :: rest.take (scan c rest).2 := by
  cases h with
  | @whitespace run rest hne hrun hstop =>
    obtain ⟨c, more, rfl⟩ := List.exists_cons_of_ne_nil hne
    have hc : isBlank c := hrun c List.mem_cons_self
    have hm : ∀ d ∈ more, isBlank d := fun d hd => hrun d (List.mem_cons_of_mem c hd)
    refine ⟨c, more ++ rest, rfl, by rw [scan_blank hc], ?_⟩
    rw [scan_blank hc, takeWhile_run hm hstop, List.take_left]
  | @lineComment body rest hn hstop =>
    have hm : ∀ d ∈ body, (d != '\n') = true := fun d hd => by
      simpa using fun h : d = '\n' => hn (h ▸ hd)
    refine ⟨'/', '/' :: (body ++ rest), rfl, by rw [scan_lineComment], ?_⟩
    rw [scan_lineComment, takeWhile_run hm (fun d hd => by simpa using hstop d hd)]
    simp
  | @blockComment body rest hn =>
    refine ⟨'/', '*' :: (body ++ '*' :: '/' :: rest), rfl, by rw [scan_blockComment], ?_⟩
    rw [scan_blockComment, commentTail_closed hn]
    simp [List.take_append, List.take_of_length_le]
  | @openComment body hn =>
    refine ⟨'/', '*' :: body, rfl, by rw [scan_blockComment], ?_⟩
    rw [scan_blockComment, commentTail_open hn, List.take_of_length_le (by simp)]
  | @punctuation c k rest hk =>
    exact ⟨c, rest, rfl, by rw [scan_punctuation hk], by rw [scan_punctuation hk]; rfl⟩
  | @slash rest hstop =>
    exact ⟨'/', rest, rfl, by rw [scan_slash hstop], by rw [scan_slash hstop]; rfl⟩
  | @string body rest hn =>
    have hm : ∀ d ∈ body, (d != '"') = true := fun d hd => by
      simpa using fun h : d = '"' => hn (h ▸ hd)
    refine ⟨'"', body ++ '"' :: rest, rfl, by rw [scan_string], ?_⟩
    rw [scan_string, takeWhile_run hm (by simp), Nat.min_eq_left (by simp)]
    simp [List.take_append, List.take_of_length_le]
  | @openString body hn =>
    have hm : ∀ d ∈ body, (d != '"') = true := fun d hd => by
      simpa using fun h : d = '"' => hn (h ▸ hd)
    refine ⟨'"', body, rfl, by rw [scan_string], ?_⟩
    rw [scan_string, ← List.append_nil body, @takeWhile_run _ body [] (by simpa using hm) (by simp)]
    simp
  | @lifetime name rest hne hm hstop =>
    have hlen : name.length ≠ 0 := by simpa using hne
    refine ⟨'\'', name ++ rest, rfl, ?_, ?_⟩ <;>
      rw [scan_apostrophe, takeWhile_run hm hstop, if_neg hlen]
    rw [List.take_left]
  | @quote rest hstop =>
    have hnone : rest.takeWhile isWordChar = [] := @takeWhile_run _ [] rest (by simp) hstop
    refine ⟨'\'', rest, rfl, ?_, ?_⟩ <;> rw [scan_apostrophe, hnone] <;> rfl
  | @int c more rest hd hm hstop =>
    refine ⟨c, more ++ rest, rfl, by rw [scan_digit hd], ?_⟩
    rw [scan_digit hd, takeWhile_run hm hstop, List.take_left]
  | @word c more rest hw hm hstop =>
    refine ⟨c, more ++ rest, rfl, ?_, ?_⟩ <;> rw [scan_word hw, takeWhile_run hm hstop, List.take_left]
  | @other c rest hu =>
    exact ⟨c, rest, rfl, by rw [scan_unknown hu], by rw [scan_unknown hu]; rfl⟩

theorem Selects.unique {cs : List Char} {k k' : SyntaxKind} {w w' : List Char}
    (h : Selects cs k w) (h' : Selects cs k' w') : k = k' ∧ w = w' := by
  obtain ⟨c, rest, rfl, rfl, rfl⟩ := h.scan_eq
  obtain ⟨c', rest', hcs, rfl, rfl⟩ := h'.scan_eq
  obtain ⟨rfl, rfl⟩ := List.cons.inj hcs
  exact ⟨rfl, rfl⟩

/-! ### Splitting a whole text -/

theorem lexes_tokens (cs : List Char) : Lexes cs (tokens cs) := by
  fun_induction tokens cs with
  | case1 => exact .nil
  | case2 c rest k n hscan ih =>
    have hsel := selects_scan c rest
    rw [hscan] at hsel
    have hsplit : c :: rest = (c :: rest.take n) ++ rest.drop n := by
      rw [List.cons_append, List.take_append_drop]
    rw [hsplit] at hsel ⊢
    exact .cons hsel ih

theorem Lexes.eq_tokens {cs : List Char} {ts : List Token} (h : Lexes cs ts) : ts = tokens cs := by
  induction h with
  | nil => simp [tokens]
  | @cons w rest k ts hsel _ ih =>
    obtain ⟨c, rest', hcs, hk, hw⟩ := hsel.scan_eq
    rcases hsc : scan c rest' with ⟨k', n⟩
    rw [hsc] at hk hw
    subst hk hw
    have hrest : rest = rest'.drop n := by
      have htail := (List.cons.inj hcs).2
      conv_rhs at htail => rw [← List.take_append_drop n rest']
      exact List.append_cancel_left htail
    rw [hcs, tokens_of_scan hsc, ih, hrest]

theorem lexes_iff {cs : List Char} {ts : List Token} : Lexes cs ts ↔ ts = tokens cs :=
  ⟨Lexes.eq_tokens, fun h => h ▸ lexes_tokens cs⟩

end Lexer

/-- Lexing follows the lexical rules: it ends with one end token, which is empty, and the tokens
before it are the one split of the text by the rules. Each of them holds text, so it ends after
where it starts and on a character boundary, and their lengths add up to the length of the text. -/
theorem lex_follows_rules (s : String) :
    ∃ ts, lex s = ts ++ [Token.eof] ∧ Token.eof.kind = .eof ∧ Token.eof.len = 0 ∧
      (∀ us, Lexer.Lexes s.toList us ↔ us = ts) ∧ (∀ t ∈ ts, t.kind ≠ .eof ∧ 0 < t.len) ∧
      (∀ i ≤ ts.length, (⟨Token.totalLen (ts.take i)⟩ : String.Pos.Raw).IsValid s) ∧
      Token.totalLen ts = s.utf8ByteSize := by
  refine ⟨Lexer.tokens s.toList, rfl, rfl, rfl, fun _ => Lexer.lexes_iff,
    fun t ht => ⟨Lexer.kind_ne_eof_of_mem ht, Lexer.len_pos_of_mem ht⟩, fun i _ => ?_, ?_⟩
  · have hchars := Lexer.chars_tokens s.toList
    rw [← List.take_append_drop i (Lexer.tokens s.toList), Token.chars_append] at hchars
    rw [String.Pos.Raw.isValid_iff_exists_append]
    refine ⟨String.ofList (Token.chars ((Lexer.tokens s.toList).take i)),
      String.ofList (Token.chars ((Lexer.tokens s.toList).drop i)), ?_, ?_⟩
    · rw [← String.ofList_append, hchars, String.ofList_toList]
    · rw [String.Pos.Raw.ext_iff, String.byteIdx_rawEndPos, utf8ByteSize_ofList,
        Token.totalLen_eq_bytesOf]
  · rw [Token.totalLen_eq_bytesOf, Lexer.chars_tokens, utf8ByteSize_eq_bytesOf]

end MacroTrace
