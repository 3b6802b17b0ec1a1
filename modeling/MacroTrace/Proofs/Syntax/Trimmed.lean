import MacroTrace.Proofs.Syntax.Lossless
/-!
Where trivia goes in the tree. A node opens after the trivia before it has been placed in the
node around it, and closes after its last consumed token, which is significant: so every node
other than the root starts and ends with a significant token, and the trivia at the edges of the
text can only be held by the root. This holds as long as no count placing a token is capped
(`Parser.Step.trims`); at the cap a run of trivia is placed without the token after it, and the
node that was open ends with trivia.
-/
namespace MacroTrace

namespace Green

def isTriviaToken : Green → Bool
  | token t => t.kind.isTrivia
  | node _ _ => false

theorem significantEdges_tokens {g : Green} (h : g.trimmed = true)
    (hg : g.isTriviaToken = false) : significantEdges g.tokens = true := by
  cases g with
  | token t => simpa [significantEdges, isTriviaToken] using hg
  | node k cs =>
    rw [trimmed_node, Bool.and_eq_true] at h
    simpa using h.1

theorem significantEdges_tokensList {a z : Green} {mid inner rest : List Green}
    (hhead : mid = a :: rest) (hlast : mid = inner ++ [z]) (ha : significantEdges a.tokens = true)
    (hz : significantEdges z.tokens = true) : significantEdges (tokensList mid) = true := by
  obtain ⟨hane, hahead, -⟩ := significantEdges_iff.1 ha
  obtain ⟨hzne, -, hzlast⟩ := significantEdges_iff.1 hz
  refine significantEdges_iff.2 ⟨?_, fun t ht => ?_, fun t ht => ?_⟩
  · rw [hhead, tokensList_cons]
    exact fun h => hane (List.append_eq_nil_iff.1 h).1
  · rw [hhead, tokensList_cons, List.head?_append, List.head?_eq_some_head hane, Option.some_or] at ht
    exact hahead t (by rwa [List.head?_eq_some_head hane])
  · rw [hlast, tokensList_append, tokensList_cons, tokensList_nil, List.append_nil,
      List.getLast?_append, List.getLast?_eq_some_getLast hzne, Option.some_or] at ht
    exact hzlast t (by rwa [List.getLast?_eq_some_getLast hzne])

/-- Trimmed trees split into the trivia tokens before the first tree that starts with a
significant token, the trees from it to the last tree that ends with one, and the trivia tokens
after that. -/
theorem exists_trivia_edges (cs : List Green) (h : ∀ c ∈ cs, c.trimmed = true) :
    ∃ lead mid trail, cs = lead ++ mid ++ trail ∧ (∀ g ∈ lead ++ trail, g.isTriviaToken = true) ∧
      (mid = [] ∨ significantEdges (tokensList mid) = true) := by
  set rest := cs.dropWhile isTriviaToken
  refine ⟨cs.takeWhile isTriviaToken, rest.rdropWhile isTriviaToken, rest.rtakeWhile isTriviaToken,
    by rw [List.append_assoc, List.rdropWhile_append_rtakeWhile, List.takeWhile_append_dropWhile],
    fun g hg => ?_, ?_⟩
  · rcases List.mem_append.1 hg with hg | hg
    · exact List.all_eq_true.1 List.all_takeWhile g hg
    · exact List.mem_rtakeWhile_imp hg
  rcases hmid : rest.rdropWhile isTriviaToken with _ | ⟨a, tail⟩
  · exact .inl rfl
  have hne : rest.rdropWhile isTriviaToken ≠ [] := by simp [hmid]
  have hmem : ∀ g ∈ rest.rdropWhile isTriviaToken, g.trimmed = true := fun g hg =>
    h g ((List.dropWhile_suffix _).mem ((List.rdropWhile_prefix _ _).mem hg))
  have hrest : rest = a :: (tail ++ rest.rtakeWhile isTriviaToken) := by
    rw [← List.cons_append, ← hmid, List.rdropWhile_append_rtakeWhile]
  have hahead : a.isTriviaToken = false := by
    have := List.head?_dropWhile_not isTriviaToken cs
    rw [show cs.dropWhile isTriviaToken = rest from rfl, hrest] at this
    simpa using this
  have hzlast := List.rdropWhile_last_not isTriviaToken rest hne
  refine .inr (significantEdges_tokensList rfl (List.dropLast_append_getLast (by simp)).symm
    (significantEdges_tokens (hmem a (by simp [hmid])) hahead)
    (significantEdges_tokens (hmem _ (by rw [hmid]; exact List.getLast_mem _)) ?_))
  simp only [hmid] at hzlast
  simpa using hzlast

end Green

theorem parse_children_trimmed (text : String) (entry : EntryPoint)
    (h : longestTriviaRun (lex text) < maxTokenRun) :
    ∃ cs, (parse text entry).tree = .node entry.rootKind cs ∧ ∀ c ∈ cs, c.trimmed = true := by
  let p₁ := ((Grammar.entryBody (stepAllowance (lex text)) entry).run (Parser.init (lex text))).2
  obtain ⟨h₁, -⟩ := parse_body_runs text entry
  obtain ⟨new, hf₁, -, -, -⟩ := h₁.adds [] [] rfl
  obtain ⟨htrim, -, -⟩ := h₁.trims rfl h [] [] new rfl hf₁
  obtain ⟨ts, h₂, -⟩ := Parser.skipTrivia_spec (p := p₁) hf₁
  refine ⟨new.reverse ++ ts.map .token, by simp only [parse]; rw [h₂]; simp, fun c hc => ?_⟩
  rcases List.mem_append.1 hc with hc | hc
  · exact htrim c (List.mem_reverse.1 hc)
  · obtain ⟨t, -, rfl⟩ := List.mem_map.1 hc
    simp

/-- While no run of trivia in the text reaches the cap on a count, every node under a parse's
root holds tokens and starts and ends with a significant token, and the root's children are the
trivia tokens before the first significant token, the trees from it to the last significant
token, and the trivia tokens after it; together they hold every token of the text. -/
theorem parse_trivia_outside_nodes (text : String) (entry : EntryPoint)
    (h : longestTriviaRun (lex text) < maxTokenRun) :
    ∃ lead mid trail, (parse text entry).tree = .node entry.rootKind (lead ++ mid ++ trail) ∧
      (∀ g ∈ lead ++ trail, g.isTriviaToken = true) ∧
      (mid = [] ∨ Green.significantEdges (Green.tokensList mid) = true) ∧
      (∀ g ∈ mid, g.trimmed = true) ∧
      Green.tokensList (lead ++ mid ++ trail) = Lexer.tokens text.toList := by
  obtain ⟨cs, htree, htrim⟩ := parse_children_trimmed text entry h
  obtain ⟨lead, mid, trail, rfl, hedge, hmid⟩ := Green.exists_trivia_edges cs htrim
  refine ⟨lead, mid, trail, htree, hedge, hmid, fun g hg => htrim g (by simp [hg]), ?_⟩
  have htok := parse_tokens_of_short_trivia text entry h
  rwa [htree, Green.tokens_node] at htok

/-- A source file with a comment before and after its struct leaves both comments to the root. -/
theorem commented_struct_trivia_outside :
    longestTriviaRun (lex "// a\nstruct X;\n// b") < maxTokenRun ∧
      ∃ lead mid trail,
        (parse "// a\nstruct X;\n// b" .sourceFile).tree = .node .sourceFile (lead ++ mid ++ trail) ∧
        (∀ g ∈ lead ++ trail, g.isTriviaToken = true) ∧
        (mid = [] ∨ Green.significantEdges (Green.tokensList mid) = true) ∧
        (∀ g ∈ mid, g.trimmed = true) ∧
        Green.tokensList (lead ++ mid ++ trail) = Lexer.tokens "// a\nstruct X;\n// b".toList := by
  have h : longestTriviaRun (lex "// a\nstruct X;\n// b") < maxTokenRun := by decide +kernel
  exact ⟨h, parse_trivia_outside_nodes _ _ h⟩

/-! ### At the cap

A source file `struct A`, trivia and `;`, run through the grammar: the count that places the `;`
carries the trivia before it, and at the cap it stops short of the `;`. -/

section AtTheCap

variable {s w a e t : Token} {T rest : List Token} {f : List Green} {fs : List (List Green)}
  {q : Parser} {c : Nat}

theorem bump_run_fields (hT : ∀ u ∈ T, u.kind.isTrivia = true) (ht : t.kind.isTrivia = false)
    (he : t.kind ≠ .eof) (hr : q.rest = T ++ t :: rest) (hl : q.lagged = [])
    (hf : q.frames = f :: fs) :
    Runs bump q fun _ q' =>
      q'.frames = ((((T ++ [t]).take (min (T.length + 1) maxTokenRun)).map .token).reverse ++ f) ::
        fs ∧ q'.rest = rest ∧ q'.lagged = (T ++ [t]).drop (min (T.length + 1) maxTokenRun) ∧
      q'.budget = lookaheadBudget := by
  simp only [Runs]
  rw [Parser.bump_run_over hT ht he hr]
  simp [Parser.place, Parser.pushTokens, hl, hf]

theorem kindAhead_cons_significant (ht : t.kind.isTrivia = false) (ts : List Token) :
    kindAhead (t :: ts) 0 = t.kind := by
  simp [kindAhead, ht]

theorem name_after_blank (hw : w.kind.isTrivia = true) (ha : a.kind = .ident)
    (hr : q.rest = w :: a :: rest) (hl : q.lagged = []) (hf : q.frames = f :: fs)
    (hs : q.Spent c) (hc : c < lookaheadBudget) :
    Runs Grammar.name q fun _ q' => q'.frames = (.node .name [.token a] :: .token w :: f) :: fs ∧
      q'.rest = rest ∧ q'.lagged = [] ∧ q'.budget = lookaheadBudget := by
  have hat : a.kind.isTrivia = false := by rw [ha]; rfl
  have hhead : q.head = .ident := by
    rw [Parser.head, hr, show w :: a :: rest = [w] ++ a :: rest from rfl,
      kindAhead_trivia_append (by simpa using hw), kindAhead_cons_significant hat, ha]
  unfold Grammar.name
  refine Runs.bind ((atKind_runs .ident hs hc).mono fun b q₁ post => ?_)
  obtain ⟨hb, h₁⟩ := post
  rw [if_pos (by simp [hb, hhead])]
  have hopen : (start.run q₁).2.frames = [] :: (.token w :: f) :: fs := by
    show [] :: q₁.skipTrivia.frames = _
    rw [Parser.skipTrivia_frames_of_synced (h₁.lagged.trans hl) (h₁.frames.trans hf), h₁.rest, hr]
    simp [hw, hat]
  have hrest : (start.run q₁).2.rest = [] ++ a :: rest := by
    rw [start_run_rest, h₁.rest, hr]
    simp [hw, hat]
  refine Runs.bind <| start_runs <| Runs.bind ((bump_run_fields (by simp) hat (by rw [ha]; decide)
    hrest (Parser.skipTrivia_lagged (h₁.lagged.trans hl)) hopen).mono fun _ q₂ post => ?_)
  obtain ⟨hf₂, hr₂, hl₂, hb₂⟩ := post
  have hcap : min (([] : List Token).length + 1) maxTokenRun = 1 := rfl
  rw [hcap] at hf₂ hl₂
  refine ⟨?_, ?_, ?_, ?_⟩
  · rw [complete_run hf₂]
    rfl
  · rw [complete_run_rest, hr₂]
  · rw [complete_run_lagged, hl₂]
    rfl
  · rw [complete_run_budget, hb₂]

theorem genericParams_without_lt {k : Nat} (hs : q.Spent c) (hc : c < lookaheadBudget)
    (hq : q.head ≠ .lt) : Runs (Grammar.genericParams k) q fun _ q' => q.Peeked 1 q' := by
  unfold Grammar.genericParams eat
  refine Runs.bind (Runs.bind ((atKind_runs .lt hs hc).mono fun b q₁ post => ?_))
  obtain ⟨hb, h₁⟩ := post
  rw [if_neg (by simp [hb, hq])]
  exact h₁

theorem structItem_over_trivia (hs : s.kind = .structKw) (hw : w.kind.isTrivia = true)
    (ha : a.kind = .ident) (he : e.kind = .semicolon) (hT : ∀ u ∈ T, u.kind.isTrivia = true)
    (hr : q.rest = s :: w :: a :: (T ++ e :: rest)) (hl : q.lagged = []) (hf : q.frames = f :: fs)
    (k : Nat) :
    Runs (Grammar.structItem (k + 1)) q fun _ q' =>
      q'.frames = ((((T ++ [e]).take (min (T.length + 1) maxTokenRun)).map .token).reverse ++
        [.node .name [.token a], .token w, .token s] ++ f) :: fs ∧ q'.rest = rest := by
  have hst : s.kind.isTrivia = false := by rw [hs]; rfl
  have het : e.kind.isTrivia = false := by rw [he]; rfl
  rw [Grammar.structItem]
  refine Runs.bind ((bump_run_fields (T := []) (by simp) hst (by rw [hs]; decide)
    (by simpa using hr) hl hf).mono fun _ q₁ post => ?_)
  obtain ⟨hf₁, hr₁, hl₁, hb₁⟩ := post
  refine Runs.bind ((name_after_blank hw ha hr₁ (by rw [hl₁]; rfl) hf₁
    (Parser.Spent.of_budget hb₁) (by decide)).mono fun _ q₂ post => ?_)
  obtain ⟨hf₂, hr₂, hl₂, hb₂⟩ := post
  have hhead₂ : q₂.head = .semicolon := by
    rw [Parser.head, hr₂, kindAhead_trivia_append hT, kindAhead_cons_significant het, he]
  refine Runs.bind ((genericParams_without_lt (k := k) (Parser.Spent.of_budget hb₂) (by decide)
    (by rw [hhead₂]; decide)).mono fun _ q₃ h₃ => ?_)
  refine Runs.bind ((current_runs (h₃.spent (Parser.Spent.of_budget hb₂)) (by decide)).mono
    fun k₄ q₄ post => ?_)
  obtain ⟨hk₄, h₄⟩ := post
  rw [hk₄, h₃.head_eq, hhead₂]
  dsimp only
  unfold expect eat
  refine Runs.bind (Runs.bind ((atKind_runs .semicolon ((h₃.trans h₄).spent
    (Parser.Spent.of_budget hb₂)) (by decide)).mono fun b q₅ post => ?_))
  obtain ⟨hb₅, h₅⟩ := post
  have h₃₅ := (h₃.trans h₄).trans h₅
  rw [if_pos (by simp [hb₅, h₄.head_eq, h₃.head_eq, hhead₂])]
  refine Runs.bind ((bump_run_fields hT het (by rw [he]; decide) (by rw [h₃₅.rest, hr₂])
    (by rw [h₃₅.lagged, hl₂]) (by rw [h₃₅.frames, hf₂])).mono fun _ q₆ post => ?_)
  obtain ⟨hf₆, hr₆, -, -⟩ := post
  show q₆.frames = _ ∧ q₆.rest = rest
  exact ⟨by rw [hf₆]; simp [maxTokenRun], hr₆⟩

theorem attrs_without_pound {k : Nat} (hs : q.Spent c) (hc : c < lookaheadBudget)
    (hq : q.head ≠ .pound) : Runs (Grammar.attrs (k + 1)) q fun _ q' => q.Peeked 1 q' := by
  rw [Grammar.attrs]
  refine Runs.bind ((atKind_runs .pound hs hc).mono fun b q₁ post => ?_)
  obtain ⟨hb, h₁⟩ := post
  rw [if_neg (by simp [hb, hq])]
  exact h₁

theorem item_struct_over_trivia (hs : s.kind = .structKw) (hw : w.kind.isTrivia = true)
    (ha : a.kind = .ident) (he : e.kind = .semicolon) (hT : ∀ u ∈ T, u.kind.isTrivia = true)
    (hr : q.rest = s :: w :: a :: (T ++ e :: rest)) (hl : q.lagged = []) (hf : q.frames = f :: fs)
    (hsp : q.Spent c) (hc : c + 2 < lookaheadBudget) (k : Nat) :
    Runs (Grammar.item (k + 2)) q fun _ q' =>
      q'.frames = (.node .structItem ([.token s, .token w, .node .name [.token a]] ++
        ((T ++ [e]).take (min (T.length + 1) maxTokenRun)).map .token) :: f) :: fs ∧
      q'.rest = rest := by
  have hst : s.kind.isTrivia = false := by rw [hs]; rfl
  rw [Grammar.item]
  have hopen : (start.run q).2.frames = [] :: f :: fs := by
    show [] :: q.skipTrivia.frames = _
    rw [Parser.skipTrivia_frames_of_synced hl hf, hr]
    simp [hst]
  have hrest : (start.run q).2.rest = q.rest := by
    rw [start_run_rest, hr]
    simp [hst]
  have hhead : (start.run q).2.head = .structKw := by
    rw [start_run_head, Parser.head, hr, kindAhead_cons_significant hst, hs]
  refine Runs.bind <| start_runs <| Runs.bind ((attrs_without_pound (start_spent hsp) (by omega)
    (by rw [hhead]; decide)).mono fun _ q₁ h₁ => ?_)
  refine Runs.bind ((current_runs (h₁.spent (start_spent hsp)) (by omega)).mono
    fun k₂ q₂ post => ?_)
  obtain ⟨hk₂, h₂⟩ := post
  rw [hk₂, h₁.head_eq, hhead]
  dsimp only
  refine Runs.bind ((structItem_over_trivia hs hw ha he hT (by rw [h₂.rest, h₁.rest, hrest, hr])
    (by rw [h₂.lagged, h₁.lagged]; exact Parser.skipTrivia_lagged hl)
    (by rw [h₂.frames, h₁.frames, hopen]) k).mono fun _ q₃ post => ?_)
  obtain ⟨hf₃, hr₃⟩ := post
  refine ⟨?_, ?_⟩
  · rw [complete_run hf₃]
    simp
  · rw [complete_run_rest, hr₃]

theorem itemsUntil_struct_over_trivia (hs : s.kind = .structKw) (hw : w.kind.isTrivia = true)
    (ha : a.kind = .ident) (he : e.kind = .semicolon) (hT : ∀ u ∈ T, u.kind.isTrivia = true)
    (hr : q.rest = s :: w :: a :: (T ++ [e, Token.eof])) (hl : q.lagged = [])
    (hf : q.frames = f :: fs) (hb : q.budget = lookaheadBudget) (k : Nat) :
    Runs (Grammar.itemsUntil (k + 4) .eof) q fun _ q' =>
      q'.frames = (.node .structItem ([.token s, .token w, .node .name [.token a]] ++
        ((T ++ [e]).take (min (T.length + 1) maxTokenRun)).map .token) :: f) :: fs ∧
      q'.rest = [Token.eof] := by
  have hst : s.kind.isTrivia = false := by rw [hs]; rfl
  have hhead : q.head = .structKw := by rw [Parser.head, hr, kindAhead_cons_significant hst, hs]
  have hs₀ := Parser.Spent.of_budget hb
  rw [Grammar.itemsUntil]
  refine Runs.bind ((atKind_runs .eof hs₀ (by decide)).mono fun b q₁ post => ?_)
  obtain ⟨hb₁, h₁⟩ := post
  rw [if_neg (by simp [hb₁, hhead])]
  refine Runs.bind ((atEnd_runs (h₁.spent hs₀) (by decide)).mono fun b q₂ post => ?_)
  obtain ⟨hb₂, h₂⟩ := post
  rw [if_neg (by simp [hb₂, h₁.head_eq, hhead])]
  refine Runs.bind ((Grammar.atItemStart_runs ((h₁.trans h₂).spent hs₀) (by decide)).mono
    fun b q₃ post => ?_)
  obtain ⟨hb₃, h₃⟩ := post
  have h₁₃ := (h₁.trans h₂).trans h₃
  rw [if_pos (by simp [hb₃, Parser.itemAhead, h₁.head_eq, h₂.head_eq, hhead])]
  refine Runs.bind ((item_struct_over_trivia hs hw ha he hT (by rw [h₁₃.rest, hr])
    (by rw [h₁₃.lagged, hl]) (by rw [h₁₃.frames, hf]) (h₁₃.spent hs₀) (by decide) (k + 1)).mono
    fun _ q₄ post => ?_)
  obtain ⟨hf₄, hr₄⟩ := post
  have hend : q₄.head = .eof := by
    rw [Parser.head, hr₄]
    rfl
  rw [Grammar.itemsUntil]
  refine Runs.bind ((atKind_runs .eof (s := 0) (fun h => absurd hend h) (by decide)).mono
    fun b q₅ post => ?_)
  obtain ⟨hb₅, h₅⟩ := post
  rw [if_pos (by simp [hb₅, hend])]
  exact ⟨h₅.frames.trans hf₄, h₅.rest.trans hr₄⟩

theorem parse_struct_over_trivia {text : String} (hs : s.kind = .structKw)
    (hw : w.kind.isTrivia = true) (ha : a.kind = .ident) (he : e.kind = .semicolon)
    (hT : ∀ u ∈ T, u.kind.isTrivia = true) (hlex : lex text = s :: w :: a :: (T ++ [e, Token.eof])) :
    (parse text .sourceFile).tree = .node .sourceFile [.node .structItem
      ([.token s, .token w, .node .name [.token a]] ++
        ((T ++ [e]).take (min (T.length + 1) maxTokenRun)).map .token)] := by
  set p₀ := Parser.init (lex text) with hp₀
  obtain ⟨n, hn⟩ : ∃ n, stepAllowance (lex text) = n + 4 :=
    ⟨stepAllowance (lex text) - 4, by simp only [stepAllowance]; omega⟩
  obtain ⟨hfr, hrest⟩ := itemsUntil_struct_over_trivia hs hw ha he hT
    (show p₀.rest = _ by rw [hp₀, Parser.init, hlex]) rfl (show p₀.frames = [] :: [] from rfl) rfl n
  have hskip : (((Grammar.itemsUntil (n + 4) .eof).run p₀).2.skipTrivia).frames =
      [[.node .structItem ([.token s, .token w, .node .name [.token a]] ++
        ((T ++ [e]).take (min (T.length + 1) maxTokenRun)).map .token)]] := by
    simp [Parser.skipTrivia, Parser.takeTrivia, Parser.triviaAhead, Parser.place,
      Parser.pushTokens, hrest, hfr, Token.eof, SyntaxKind.isTrivia]
  simp only [parse, Grammar.entryBody, hn, ← hp₀, hskip, List.reverse_singleton]
  rfl

end AtTheCap

theorem Lexer.tokens_struct_a (rest : List Char) :
    Lexer.tokens ('s' :: 't' :: 'r' :: 'u' :: 'c' :: 't' :: ' ' :: 'A' :: '\n' :: rest) =
      ⟨.structKw, "struct"⟩ :: ⟨.whitespace, " "⟩ :: ⟨.ident, "A"⟩ :: Lexer.tokens ('\n' :: rest) := by
  have h₁ : Lexer.scan 's' ('t' :: 'r' :: 'u' :: 'c' :: 't' :: ' ' :: 'A' :: '\n' :: rest) =
      (.structKw, 5) := by
    rw [Lexer.scan_word (.inl rfl)]
    simp [isWordChar, keyword]
  have h₂ : Lexer.scan ' ' ('A' :: '\n' :: rest) = (.whitespace, 0) := by simp [Lexer.scan, isBlank]
  have h₃ : Lexer.scan 'A' ('\n' :: rest) = (.ident, 0) := by
    rw [Lexer.scan_word (.inl rfl)]
    simp [isWordChar, keyword]
  rw [Lexer.tokens_of_scan h₁]
  simp only [List.take_succ_cons, List.take_zero, List.drop_succ_cons, List.drop_zero]
  rw [Lexer.tokens_of_scan h₂, List.drop_zero, Lexer.tokens_of_scan h₃, List.drop_zero]
  simp only [List.take_zero]

/-- After `struct A` and 32767 lines holding only `//`, the `;` is placed by a count carrying
65535 trivia tokens before it, one too many: the struct's node ends with a line break. -/
theorem struct_ends_in_line_break_at_cap :
    ∃ g, (parse (String.ofList (['s', 't', 'r', 'u', 'c', 't', ' ', 'A'] ++
        (List.replicate 32767 ['\n', '/', '/']).flatten ++ ['\n', ';'])) .sourceFile).tree =
      .node .sourceFile [g] ∧ g.trimmed = false ∧ g.tokens.getLast? = some ⟨.whitespace, "\n"⟩ := by
  obtain ⟨r, hr⟩ : ∃ r, (List.replicate 32767 ['\n', '/', '/']).flatten ++ ['\n', ';'] = '\n' :: r :=
    ⟨_, rfl⟩
  set T := Lexer.commentLineTokens 32767 with hT
  have hlex : lex (String.ofList (['s', 't', 'r', 'u', 'c', 't', ' ', 'A'] ++
      (List.replicate 32767 ['\n', '/', '/']).flatten ++ ['\n', ';'])) =
      ⟨.structKw, "struct"⟩ :: ⟨.whitespace, " "⟩ :: ⟨.ident, "A"⟩ ::
        (T ++ [⟨.semicolon, ";"⟩, Token.eof]) := by
    rw [lex, String.toList_ofList, List.append_assoc, hr]
    change Lexer.tokens ('s' :: 't' :: 'r' :: 'u' :: 'c' :: 't' :: ' ' :: 'A' :: '\n' :: r) ++ _ = _
    rw [Lexer.tokens_struct_a, ← hr,
      Lexer.tokens_comment_lines_then 32767 (t := ⟨.semicolon, ";"⟩) (by decide +kernel)]
    simp only [hT, List.cons_append, List.append_assoc, List.nil_append]
  have hlen : T.length = maxTokenRun := by
    rw [Lexer.length_commentLineTokens]
    rfl
  have hTlast : T.getLast? = some ⟨.whitespace, "\n"⟩ := by
    rw [hT, Lexer.commentLineTokens, List.getLast?_append]
    rfl
  rw [parse_struct_over_trivia rfl rfl rfl rfl (Lexer.commentLineTokens_trivia 32767) hlex, hlen,
    Nat.min_eq_right (Nat.le_succ _), ← hlen, List.take_left' rfl]
  have hend : (Green.tokensList ([.token ⟨.structKw, "struct"⟩, .token ⟨.whitespace, " "⟩,
      .node .name [.token ⟨.ident, "A"⟩]] ++ T.map .token)).getLast? = some ⟨.whitespace, "\n"⟩ := by
    rw [Green.tokensList_append, Green.tokensList_map_token, List.getLast?_append, hTlast]
    rfl
  refine ⟨_, rfl, ?_, by rw [Green.tokens_node, hend]⟩
  have hws : (⟨.whitespace, "\n"⟩ : Token).kind.isTrivia = true := rfl
  rw [Green.trimmed_node, Green.significantEdges, hend]
  simp only [Option.any_some, hws, Bool.not_true, Bool.and_false, Bool.false_and]


end MacroTrace
