import MacroTrace.Proofs.Syntax.Distinct
import MacroTrace.Proofs.Syntax.Rules
/-!
When a parse keeps every token. The tree takes the consumed tokens in order, by counts: a
significant token goes in with the trivia before it by one count, and a count is capped at
`maxTokenRun`. Trivia skipped before a node opens goes in one token at a time, and the body of every
parse runs to the end of the input, so what a parse can lose is only what a capped count left
behind. When no run of trivia in the text is as long as the cap, no count is ever capped, nothing
is left behind, and the tree holds every token of the text and spells the text. A longer run
before the last token of an expression drops that token.
-/
namespace MacroTrace

namespace Lexer

theorem tokens_comment_line (rest : List Char) :
    tokens ('\n' :: '/' :: '/' :: '\n' :: rest) =
      ⟨.whitespace, "\n"⟩ :: ⟨.lineComment, "//"⟩ :: tokens ('\n' :: rest) := by
  have h₁ : scan '\n' ('/' :: '/' :: '\n' :: rest) = (.whitespace, 0) := by simp [scan, isBlank]
  have h₂ : scan '/' ('/' :: '\n' :: rest) = (.lineComment, 1) := by simp [scan, isBlank]
  rw [tokens_of_scan h₁, List.drop_zero, tokens_of_scan h₂]
  simp only [List.take_zero, List.take_succ_cons, List.drop_succ_cons, List.drop_zero]

theorem tokens_comment_lines (k : Nat) (tail : List Char) :
    tokens ((List.replicate k ['\n', '/', '/']).flatten ++ '\n' :: tail) =
      (List.replicate k [⟨.whitespace, "\n"⟩, ⟨.lineComment, "//"⟩]).flatten ++
        tokens ('\n' :: tail) := by
  induction k with
  | zero => rfl
  | succ k ih =>
    obtain ⟨r, hr⟩ : ∃ r, (List.replicate k ['\n', '/', '/']).flatten ++ '\n' :: tail = '\n' :: r := by
      cases k with
      | zero => exact ⟨tail, rfl⟩
      | succ k => exact ⟨_, rfl⟩
    simp only [List.replicate_succ, List.flatten_cons, List.cons_append, List.nil_append]
    rw [hr, tokens_comment_line, ← hr, ih]

def commentLineTokens (k : Nat) : List Token :=
  (List.replicate k [⟨.whitespace, "\n"⟩, ⟨.lineComment, "//"⟩]).flatten ++ [⟨.whitespace, "\n"⟩]

theorem commentLineTokens_trivia (k : Nat) : ∀ u ∈ commentLineTokens k, u.kind.isTrivia = true := by
  intro u hu
  simp only [commentLineTokens, List.mem_append, List.mem_flatten, List.mem_replicate,
    List.mem_singleton] at hu
  rcases hu with ⟨l, ⟨-, rfl⟩, hl⟩ | rfl
  · simp only [List.mem_cons, List.not_mem_nil, or_false] at hl
    rcases hl with rfl | rfl <;> rfl
  · rfl

theorem length_commentLineTokens (k : Nat) : (commentLineTokens k).length = 2 * k + 1 := by
  rw [commentLineTokens, List.length_append, List.length_flatten, List.map_replicate,
    List.sum_replicate_nat]
  simp only [List.length_cons, List.length_nil]
  omega

theorem tokens_comment_lines_then (k : Nat) {x : Char} {t : Token}
    (ht : tokens ['\n', x] = [⟨.whitespace, "\n"⟩, t]) :
    tokens ((List.replicate k ['\n', '/', '/']).flatten ++ ['\n', x]) = commentLineTokens k ++ [t] := by
  rw [tokens_comment_lines, ht, commentLineTokens, List.append_assoc, List.singleton_append]

end Lexer

theorem kindAhead_trivia_append {T : List Token} (hT : ∀ u ∈ T, u.kind.isTrivia = true)
    (ts : List Token) (i : Nat) : kindAhead (T ++ ts) i = kindAhead ts i := by
  rw [← kindAhead_dropWhile_trivia, List.dropWhile_append_of_pos hT, kindAhead_dropWhile_trivia]

theorem eq_of_append_cons_eq {X L es : List Token} {e E : Token} (h : X ++ e :: es = L ++ [E])
    (he : e ∉ L) : X = L ∧ e = E ∧ es = [] := by
  rcases List.eq_nil_or_concat es with rfl | ⟨es', x, rfl⟩
  · obtain ⟨h₁, h₂⟩ := List.append_inj' h rfl
    exact ⟨h₁, List.singleton_inj.1 h₂, rfl⟩
  · rw [List.concat_eq_append, ← List.cons_append, ← List.append_assoc] at h
    have := (List.append_inj' h rfl).1
    exact absurd (this ▸ List.mem_append_right X List.mem_cons_self) he

theorem fragmentTokens_at_end (n : Nat) {q : Parser} (hend : q.head = .eof) :
    Runs (Grammar.fragmentTokens n []) q fun _ q' => q'.frames = q.frames ∧ q'.rest = q.rest := by
  cases n with
  | zero => exact ⟨rfl, rfl⟩
  | succ n =>
    rw [Grammar.fragmentTokens]
    refine Runs.bind ((Grammar.atFragmentEnd_runs [] (s := 0) (fun h => absurd hend h)
      (by decide)).mono fun b q' post => ?_)
    obtain ⟨hb, h⟩ := post
    rw [if_pos (by simp [hb, Parser.fragmentEnds, hend])]
    exact ⟨h.frames, h.rest⟩

theorem fragmentTokens_trivia_ident {p : Parser} {T : List Token} {t : Token}
    (hT : ∀ u ∈ T, u.kind.isTrivia = true) (ht : t.kind = .ident)
    (hr : p.rest = T ++ [t, Token.eof]) (hs : p.Spent 0) (hfr : p.frames = [[]])
    (hlag : p.lagged = []) (n : Nat) :
    Runs (Grammar.fragmentTokens (n + 1) []) p fun _ q =>
      q.frames = [(((T ++ [t]).take (min (T.length + 1) maxTokenRun)).map Green.token).reverse] ∧
        q.rest = [Token.eof] := by
  have htriv : t.kind.isTrivia = false := by rw [ht]; rfl
  have hhead : p.head = .ident := by
    simp only [Parser.head, hr, kindAhead_trivia_append hT, kindAhead, ht]
    rfl
  have hsecond : kindAhead p.rest 1 = .eof := by
    simp only [hr, kindAhead_trivia_append hT, kindAhead, htriv]
    rfl
  rw [Grammar.fragmentTokens]
  refine Runs.bind ((Grammar.atFragmentEnd_runs [] hs (by decide)).mono fun b q₁ post => ?_)
  obtain ⟨hb₁, h₁⟩ := post
  rw [if_neg (by simp [hb₁, Parser.fragmentEnds, hhead])]
  refine Runs.bind ((atMacroCall_runs (h₁.spent hs) (by decide)).mono fun b q₂ post => ?_)
  obtain ⟨hb₂, h₂⟩ := post
  split
  · rename_i hcall
    simp [hcall, Parser.callAhead, h₁.head_eq, h₁.rest, hhead, hsecond] at hb₂
  refine Runs.bind ((current_runs ((h₁.trans h₂).spent hs) (by decide)).mono
    fun k q₃ post => ?_)
  obtain ⟨hk, h₃⟩ := post
  have h₁₂₃ := (h₁.trans h₂).trans h₃
  split
  · rename_i hopen
    simp [hk, (h₁.trans h₂).head_eq, hhead, SyntaxKind.closer?] at hopen
  have hb : (bump.run q₃).2 = Parser.place (min (T.length + 1) maxTokenRun)
      { q₃ with
        rest := [Token.eof]
        offset := q₃.offset + Token.totalLen T + t.len
        budget := lookaheadBudget
        lagged := q₃.lagged ++ T ++ [t] } :=
    Parser.bump_run_over hT htriv (by rw [ht]; decide) (by rw [h₁₂₃.rest, hr])
  have hq₄ : (bump.run q₃).2.frames =
      [(((T ++ [t]).take (min (T.length + 1) maxTokenRun)).map Green.token).reverse] ∧
      (bump.run q₃).2.rest = [Token.eof] := by
    rw [hb]
    refine ⟨?_, rfl⟩
    simp [Parser.place, Parser.pushTokens, h₁₂₃.frames, h₁₂₃.lagged, hfr, hlag]
  have hend₄ : (bump.run q₃).2.head = .eof := by
    simp only [Parser.head, hq₄.2]
    rfl
  refine Runs.bind ?_
  show Runs (Grammar.fragmentTokens n []) (bump.run q₃).2 fun _ q =>
    q.frames = [(((T ++ [t]).take (min (T.length + 1) maxTokenRun)).map Green.token).reverse] ∧
      q.rest = [Token.eof]
  exact (fragmentTokens_at_end n hend₄).mono fun _ q post =>
    ⟨post.1.trans hq₄.1, post.2.trans hq₄.2⟩

theorem parse_expr_trivia_ident {text : String} {T : List Token} {t : Token}
    (hT : ∀ u ∈ T, u.kind.isTrivia = true) (ht : t.kind = .ident)
    (hlex : lex text = T ++ [t, Token.eof]) :
    (parse text .expr).tree =
      .node .macroExpr (((T ++ [t]).take (min (T.length + 1) maxTokenRun)).map .token) := by
  set p₀ := Parser.init (lex text) with hp₀
  obtain ⟨n, hn⟩ : ∃ n, stepAllowance (lex text) = n + 2 :=
    ⟨stepAllowance (lex text) - 2, by simp only [stepAllowance]; omega⟩
  set F := ((T ++ [t]).take (min (T.length + 1) maxTokenRun)).map Green.token with hF
  have hround := fragmentTokens_trivia_ident (p := p₀) hT ht hlex (Parser.Spent.of_budget rfl) rfl
    rfl n
  have hrun : Runs (Grammar.fragmentRounds (n + 2)) p₀ fun _ q =>
      q.frames = [F.reverse] ∧ q.rest = [Token.eof] := by
    rw [Grammar.fragmentRounds]
    refine Runs.bind (hround.mono fun _ q₄ post => ?_)
    obtain ⟨hf₄, hr₄⟩ := post
    have hend₄ : q₄.head = .eof := by
      simp only [Parser.head, hr₄]
      rfl
    refine Runs.bind ((atEnd_runs (s := 0) (fun h => absurd hend₄ h) (by decide)).mono
      fun b q₅ post => ?_)
    obtain ⟨hb₅, h₅⟩ := post
    rw [if_pos (by simp [hb₅, hend₄])]
    exact Runs.pure ⟨h₅.frames.trans hf₄, h₅.rest.trans hr₄⟩
  obtain ⟨hfr, hrest⟩ := hrun
  have hskip : (((Grammar.fragmentRounds (n + 2)).run p₀).2.skipTrivia).frames = [F.reverse] := by
    simp [Parser.skipTrivia, Parser.takeTrivia, Parser.triviaAhead, Parser.place,
      Parser.pushTokens, hrest, hfr, Token.eof, SyntaxKind.isTrivia]
  simp only [parse, Grammar.entryBody, hn, ← hp₀, hskip, List.reverse_reverse]
  rfl

theorem parse_tokens_of_short_trivia (text : String) (entry : EntryPoint)
    (h : longestTriviaRun (lex text) < maxTokenRun) :
    (parse text entry).tree.tokens = Lexer.tokens text.toList := by
  let p₁ := ((Grammar.entryBody (stepAllowance (lex text)) entry).run (Parser.init (lex text))).2
  obtain ⟨h₁, hend⟩ := parse_body_runs text entry
  obtain ⟨new, hf₁, -, ht₁, -⟩ := h₁.adds [] [] rfl
  have hlag : p₁.skipTrivia.lagged = [] := Parser.skipTrivia_lagged (h₁.synced rfl h)
  obtain ⟨ts, h₂, ht₂⟩ := Parser.skipTrivia_spec (p := p₁) hf₁
  have htree : (parse text entry).tree = .node entry.rootKind (new.reverse ++ ts.map .token) := by
    simp only [parse]
    rw [h₂]
    simp
  obtain ⟨pre, t, hpre, -⟩ := (h₁.endsAtEof ⟨_, _, rfl, rfl⟩).dropWhile
  obtain ⟨e, es, hes⟩ : ∃ e es, p₁.rest.dropWhile (·.kind.isTrivia) = e :: es := by
    rw [hpre]
    cases pre with
    | nil => exact ⟨t, [], rfl⟩
    | cons x pre => exact ⟨x, pre ++ [t], rfl⟩
  have he : e.kind = .eof := by
    have hh : p₁.head = e.kind := by rw [Parser.head, kindAhead_zero, hes]; rfl
    rw [← hh]
    exact hend
  have hall : (Green.tokensList new.reverse ++ ts) ++ e :: es =
      Lexer.tokens text.toList ++ [Token.eof] := by
    rw [List.append_assoc, ← hes, ← lex]
    rw [← Parser.skipTrivia_rest, ← List.nil_append (p₁.skipTrivia.rest), ← hlag]
    exact (congrArg (Green.tokensList new.reverse ++ ·) ht₂).trans ht₁
  obtain ⟨htok, -, -⟩ := eq_of_append_cons_eq hall fun hm => Lexer.kind_ne_eof_of_mem hm he
  rw [htree, Green.tokens_node, Green.tokensList_append, Green.tokensList_map_token, htok]

/-- A parse places its tokens in the order of the text, and when no run of trivia in the text is
as long as the cap on a count, it places every one of them: the tree holds the tokens of the
text and spells the text. -/
theorem parse_lossless_below_trivia_cap (text : String) (entry : EntryPoint) :
    (parse text entry).tree.tokens <+: Lexer.tokens text.toList ∧
    (longestTriviaRun (lex text) < maxTokenRun →
      (parse text entry).tree.tokens = Lexer.tokens text.toList ∧
        (parse text entry).tree.text = text) := by
  refine ⟨parse_tokens_prefix_of_lex text entry, fun h => ?_⟩
  have htok := parse_tokens_of_short_trivia text entry h
  refine ⟨htok, String.ext ?_⟩
  rw [Green.text, String.toList_join, htok, List.flatMap_map]
  exact Lexer.chars_tokens text.toList

/-- A source file with a struct and a comment keeps all its tokens. -/
theorem struct_with_comment_lossless :
    longestTriviaRun (lex "struct X; // done") < maxTokenRun ∧
      (parse "struct X; // done" .sourceFile).tree.text = "struct X; // done" :=
  ⟨by decide +kernel,
    ((parse_lossless_below_trivia_cap _ _).2 (by decide +kernel)).2⟩

/-- After 32767 lines holding only `//` and a line break, the identifier `a` is placed by a count
carrying 65535 trivia tokens before it, one too many: the expression's tree ends before `a`. -/
theorem comment_lines_drop_identifier :
    (parse (String.ofList ((List.replicate 32767 ['\n', '/', '/']).flatten ++ ['\n', 'a'])) .expr
      ).tree.tokens ++ [⟨.ident, "a"⟩] =
      Lexer.tokens ((List.replicate 32767 ['\n', '/', '/']).flatten ++ ['\n', 'a']) := by
  have hlexer : Lexer.tokens ((List.replicate 32767 ['\n', '/', '/']).flatten ++ ['\n', 'a']) =
      Lexer.commentLineTokens 32767 ++ [⟨.ident, "a"⟩] :=
    Lexer.tokens_comment_lines_then 32767 (by decide +kernel)
  have hlex : lex (String.ofList ((List.replicate 32767 ['\n', '/', '/']).flatten ++ ['\n', 'a'])) =
      Lexer.commentLineTokens 32767 ++ [⟨.ident, "a"⟩, Token.eof] := by
    rw [lex, String.toList_ofList, hlexer, List.append_assoc, List.singleton_append]
  have hlen : (Lexer.commentLineTokens 32767).length = maxTokenRun := by
    rw [Lexer.length_commentLineTokens]
    rfl
  rw [parse_expr_trivia_ident (Lexer.commentLineTokens_trivia 32767) rfl hlex, Green.tokens_node,
    Green.tokensList_map_token, hlen, Nat.min_eq_right (Nat.le_succ _), ← hlen, List.take_left' rfl,
    hlexer]

end MacroTrace
