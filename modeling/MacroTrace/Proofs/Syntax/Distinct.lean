import MacroTrace.Proofs.Syntax.Progress
/-!
Items and statements call one another, so their contracts go through one induction on the step
allowance: each function's contract at one allowance follows from its callees' contracts at the
allowance below. The contracts bound what a run spends of the lookahead budget, so the budget never
runs out while significant input is left, and they say that every tree a run adds is distinct. From
them, every tree under a parse's root is distinct and ranks below the root.
-/
namespace MacroTrace

theorem SyntaxKind.contains_closers (k : SyntaxKind) :
    [SyntaxKind.rParen, .rBracket, .rBrace].contains k = k.isCloser := by
  cases k <;> rfl

namespace Parser

variable {p q u : Parser} {r r' c d d' : Nat}

theorem fuel_of_live {k : Nat} (hp : p.head ≠ .eof) (hn : 8 * p.mark ≤ k) : 8 ≤ k := by
  have := mark_pos hp
  omega

theorem head_eq_eof_of_fuel {k : Nat} (hn : 8 * p.mark ≤ k) (hk : k < 8) : p.head = .eof := by
  by_contra hp
  have := fuel_of_live hp hn
  omega

theorem itemAhead_live (h : p.itemAhead = true) : p.head ≠ .eof := by
  simp only [itemAhead, callAhead, Bool.or_eq_true, Bool.and_eq_true, beq_iff_eq] at h
  rcases h with h | ⟨h, -⟩
  · intro he
    simp [he] at h
  · rw [h]
    decide

@[simp] theorem itemAhead_start (p : Parser) : (start.run p).2.itemAhead = p.itemAhead := by
  simp [itemAhead, callAhead, head, kindAhead_dropWhile_trivia]

@[simp] theorem fragmentEnds_start (stop : List SyntaxKind) (p : Parser) :
    (start.run p).2.fragmentEnds stop = p.fragmentEnds stop := by
  simp [fragmentEnds]

theorem Peeked.itemAhead_eq {c : Nat} (h : Peeked c p q) : q.itemAhead = p.itemAhead := by
  simp [itemAhead, callAhead, head, h.rest]

theorem Peeked.fragmentEnds_eq {c : Nat} (stop : List SyntaxKind) (h : Peeked c p q) :
    q.fragmentEnds stop = p.fragmentEnds stop := by
  simp [fragmentEnds, h.head_eq]

/-- `q` is `p` after a move that took a token into the innermost open node, adding trees of rank
at most `r` and spending at most `d` units of the budget since its last token. -/
structure Took (r d : Nat) (p q : Parser) : Prop where
  step : Step r 0 d p q
  lt : q.mark < p.mark
  holds : q.HoldsToken

namespace Took

theorem spent (h : Took r d p q) : q.Spent d := h.step.spent_of_consumed h.lt

theorem mono (h : Took r d p q) (hr : r ≤ r') (hd : d ≤ d') : Took r' d' p q :=
  ⟨h.step.mono hr le_rfl hd, h.lt, h.holds⟩

theorem next (h : Took r d p q) (h₂ : Step r c d' q u) : Took r (max d' (d + c)) p u :=
  ⟨h.step.chain h.lt h₂, Nat.lt_of_le_of_lt h₂.mark_le h.lt, h₂.holds h.holds⟩

theorem next_consumed (h : Took r d p q) (h₂ : Step r c d' q u)
    (hc : q.head ≠ .eof → u.mark < q.mark) : Took r d' p u :=
  ⟨h.step.then_consumed h₂ hc, Nat.lt_of_le_of_lt h₂.mark_le h.lt, h₂.holds h.holds⟩

theorem peek (h : Took r d p q) (h₂ : Peeked c q u) : Took r (d + c) p u :=
  (h.next h₂.step).mono le_rfl (by omega)

end Took

end Parser

namespace Grammar

/-! ### Contracts -/

def ItemsUntilSpec (n : Nat) : Prop :=
  ∀ (stop : SyntaxKind) {p : Parser} {s : Nat}, p.Spent s → s + 9 ≤ lookaheadBudget →
    8 * p.mark ≤ n → Runs (itemsUntil n stop) p fun _ q =>
      Parser.Step 2 2 14 p q ∧ (q.head ≠ .eof → q.head = stop)

def ItemSpec (n : Nat) : Prop :=
  ∀ {p : Parser} {s : Nat}, p.itemAhead = true → p.Spent s → s + 4 ≤ lookaheadBudget →
    8 * p.mark ≤ n + 2 → Runs (item n) p fun _ q => Parser.Step 2 0 12 p q ∧ q.mark < p.mark

def BodySpec (x : ParseM Unit) (n d : Nat) : Prop :=
  ∀ {p : Parser}, p.head ≠ .eof → 8 * p.mark ≤ n + 3 → Runs x p fun _ q => p.Took 3 d q

def BlockSpec (n : Nat) : Prop :=
  ∀ {p : Parser}, p.head ≠ .eof → 8 * p.mark ≤ n → Runs (block n) p fun _ q =>
    Parser.Step 1 0 0 p q ∧ q.mark < p.mark

def StmtsUntilSpec (n : Nat) : Prop :=
  ∀ (stop : SyntaxKind) {p : Parser} {s : Nat}, p.Spent s → s + 18 ≤ lookaheadBudget →
    8 * p.mark ≤ n → Runs (stmtsUntil n stop) p fun _ q =>
      Parser.Step 4 2 14 p q ∧ (q.head ≠ .eof → q.head = stop)

def StmtSpec (n : Nat) : Prop :=
  ∀ {p : Parser} {s : Nat}, p.head ≠ .eof → p.Spent s → s + 16 ≤ lookaheadBudget →
    8 * p.mark ≤ n + 1 → Runs (stmt n) p fun _ q => Parser.Step 4 0 12 p q ∧ q.mark < p.mark

def LetSpec (n : Nat) : Prop :=
  ∀ {p : Parser}, p.head ≠ .eof → 8 * p.mark ≤ n + 2 → Runs (letStmt n) p fun _ q =>
    Parser.Step 1 0 9 p q ∧ q.mark < p.mark

/-- The contracts of the item and statement grammar at one step allowance. -/
structure Contracts (n : Nat) : Prop where
  itemsUntil : ItemsUntilSpec n
  item : ItemSpec n
  structItem : BodySpec (structItem n) n 6
  fnItem : BodySpec (fnItem n) n 9
  modItem : BodySpec (modItem n) n 3
  typeAlias : BodySpec (typeAlias n) n 12
  block : BlockSpec n
  stmtsUntil : StmtsUntilSpec n
  stmt : StmtSpec n
  letStmt : LetSpec n

/-! ### Shared pieces -/

variable {n : Nat} {p : Parser}

theorem keyword_runs {f : Unit → ParseM Unit} {Q : Unit → Parser → Prop} (hp : p.head ≠ .eof)
    (h : ∀ q, p.Took 3 4 q → Runs (f ()) q Q) :
    Runs (bump >>= fun _ => name >>= fun _ => genericParams n >>= f) p Q := by
  refine Runs.bind ((bump_runs (r := 3) hp).mono fun _ q₁ post => ?_)
  obtain ⟨h₁, hb₁, hm₁, hh₁, -⟩ := post
  have t₁ : p.Took 3 0 q₁ := ⟨h₁, hm₁, hh₁⟩
  refine Runs.bind ((name_runs (Parser.Spent.of_budget hb₁) (by decide)).mono
    fun _ q₂ ⟨h₂, _⟩ => ?_)
  refine Runs.bind ((genericParams_runs (n := n) (h₂.spent (Parser.Spent.of_budget hb₁))
    (by decide)).mono fun _ q₃ h₃ => ?_)
  exact h q₃ ((t₁.next ((h₂.mono (by omega) le_rfl le_rfl).trans
    (h₃.mono (by omega) le_rfl le_rfl))).mono le_rfl (by omega))

theorem braced_runs {x : ParseM Unit} {k : SyntaxKind} {r r' : Nat} (hk : k.chainRank + 1 ≤ r)
    (hk' : k ≠ .macroArgument) (hp : p.head ≠ .eof)
    (hx : ∀ {q : Parser}, q.Spent 0 → q.mark < p.mark → Runs x q fun _ u =>
      Parser.Step r' 2 14 q u ∧ (u.head ≠ .eof → u.head = .rBrace)) :
    Runs (do start; bump; x; expect .rBrace; complete k) p fun _ q =>
      Parser.Step r 0 0 p q ∧ q.mark < p.mark := by
  refine Runs.bind <| start_runs <| Runs.bind <|
    (bump_runs (r := r') (by simpa using hp)).mono fun _ q₁ post => ?_
  obtain ⟨h₁, hb₁, hm₁, hh₁, -⟩ := post
  have hm₁' : q₁.mark < p.mark := by simpa using hm₁
  refine Runs.bind ((hx (Parser.Spent.of_budget hb₁) hm₁').mono fun _ q₂ ⟨h₂, hstop⟩ => ?_)
  refine Runs.bind ((expect_runs (r := r') .rBrace (by decide) (h₂.spent (Parser.Spent.of_budget hb₁))
    (by decide)).mono fun _ q₃ ⟨h₃, hcons⟩ => ?_)
  have h₁₃ : Parser.Step r' 0 0 (start.run p).2 q₃ :=
    (h₁.chain hm₁ h₂).then_consumed h₃ fun hq₂ => hcons (hstop hq₂)
  have hm₃ : q₃.mark < p.mark := Nat.lt_of_le_of_lt (h₂.trans h₃).mark_le hm₁'
  exact ⟨h₁₃.close hm₃ (.inl (h₃.holds (h₂.holds hh₁))) hk fun h => absurd h hk',
    by simpa using hm₃⟩

theorem macroItem_runs {p₀ q : Parser} {c d : Nat} (h : Parser.Step 1 c d (start.run p₀).2 q)
    (hn : 8 * q.mark ≤ n + 11) (hq : q.callAhead = true) :
    Runs (do macroCallParts n; let _ ← eat .semicolon; complete .macroCall) q fun _ u =>
      Parser.Step 2 0 2 p₀ u ∧ u.mark < p₀.mark := by
  refine Runs.bind ((macroCallParts_runs hn hq).mono fun _ q₁ ⟨h₁, hm₁⟩ => ?_)
  have h₀₁ : Parser.Step 1 0 1 (start.run p₀).2 q₁ := h.then_consumed h₁ fun _ => hm₁
  have hm₀₁ : q₁.mark < (start.run p₀).2.mark := Nat.lt_of_lt_of_le hm₁ h.mark_le
  refine Runs.bind ((eat_runs (r := 1) .semicolon (by decide) (h₀₁.spent_of_consumed hm₀₁)
    (by decide)).mono
    fun _ q₂ ⟨_, h₂, _⟩ => ?_)
  have hm₂ : q₂.mark < p₀.mark := by simpa using Nat.lt_of_le_of_lt h₂.mark_le hm₀₁
  exact ⟨(h₀₁.chain hm₀₁ h₂).close hm₂ (.inr le_rfl) le_rfl (by simp), by simpa using hm₂⟩

theorem itemBody_runs {x : ParseM Unit} {k : SyntaxKind} {p₀ q : Parser} {c d d' : Nat}
    (hk : k.chainRank = 0) (hk' : k ≠ .macroArgument) (h : Parser.Step 3 c d (start.run p₀).2 q)
    (hbody : BodySpec x n d')
    (hq : q.head ≠ .eof) (hn : 8 * q.mark ≤ n + 3) :
    Runs (do x; complete k) q fun _ u => Parser.Step 2 0 d' p₀ u ∧ u.mark < p₀.mark := by
  refine Runs.bind ((hbody hq hn).mono fun _ u hu => ?_)
  have hm : u.mark < p₀.mark := by simpa using Nat.lt_of_lt_of_le hu.lt h.mark_le
  exact ⟨(h.then_consumed hu.step fun _ => hu.lt).close hm (.inl hu.holds) (by omega)
    fun h => absurd h hk', by simpa using hm⟩

/-! ### One allowance up -/

theorem structItem_succ : BodySpec (structItem (n + 1)) (n + 1) 6 := by
  intro p hp hn
  rw [structItem]
  refine keyword_runs hp fun q hq => ?_
  refine Runs.bind ((current_runs hq.spent (by decide)).mono fun k q₁ post => ?_)
  obtain ⟨hk, h₁⟩ := post
  have t₁ := hq.peek h₁
  have hm := t₁.lt
  subst hk
  split
  · rename_i hk
    refine (treeNode_runs .fieldList rfl t₁.spent (by decide) (by omega)
      (by rw [h₁.head_eq, hk]; decide) (by simp)).mono fun _ u post => ?_
    obtain ⟨hu, hmu⟩ := post
    exact (t₁.next_consumed (hu.mono (by omega) le_rfl le_rfl) fun _ => hmu).mono le_rfl
      (Nat.zero_le _)
  · rename_i hk
    refine Runs.bind ((treeNode_runs .fieldList rfl t₁.spent (by decide) (by omega)
      (by rw [h₁.head_eq, hk]; decide) (by simp)).mono fun _ u post => ?_)
    obtain ⟨hu, hmu⟩ := post
    have tu := t₁.next_consumed (hu.mono (by omega) le_rfl le_rfl) fun _ => hmu
    exact (expect_runs .semicolon (by decide) tu.spent (by decide)).mono fun _ v hv =>
      (tu.next hv.1).mono le_rfl (by omega)
  · exact (expect_runs .semicolon (by decide) t₁.spent (by decide)).mono fun _ v hv =>
      (t₁.next hv.1).mono le_rfl (by omega)

theorem typeAlias_succ : BodySpec (typeAlias (n + 1)) (n + 1) 12 := by
  intro p hp hn
  rw [typeAlias]
  refine keyword_runs hp fun q hq => ?_
  refine Runs.bind ((expect_runs (r := 3) .eq (by decide) hq.spent (by decide)).mono fun _ q₁ h₁ => ?_)
  have t₁ := (hq.next h₁.1).mono le_rfl (show _ ≤ 5 by omega)
  have hm := t₁.lt
  refine Runs.bind ((fragment_runs rfl [.semicolon] t₁.spent (by decide) (by omega)).mono
    fun _ q₂ h₂ => ?_)
  have t₂ := (t₁.next h₂.1).mono le_rfl (show _ ≤ 11 by omega)
  exact (expect_runs .semicolon (by decide) t₂.spent (by decide)).mono fun _ v hv =>
    (t₂.next hv.1).mono le_rfl (by omega)

theorem modItem_succ (hitems : ItemsUntilSpec n) : BodySpec (modItem (n + 1)) (n + 1) 3 := by
  intro p hp hn
  rw [modItem]
  refine Runs.bind ((bump_runs (r := 3) hp).mono fun _ q₁ post => ?_)
  obtain ⟨h₁, hb₁, hm₁, hh₁, -⟩ := post
  have t₁ : p.Took 3 0 q₁ := ⟨h₁, hm₁, hh₁⟩
  refine Runs.bind ((name_runs (Parser.Spent.of_budget hb₁) (by decide)).mono
    fun _ q₂ post => ?_)
  obtain ⟨h₂, -⟩ := post
  have t₂ := (t₁.next (h₂.mono (by omega) le_rfl le_rfl)).mono le_rfl (show _ ≤ 1 by omega)
  refine Runs.bind ((atKind_runs .lBrace t₂.spent (by decide)).mono fun b q₃ post => ?_)
  obtain ⟨hb₃, h₃⟩ := post
  have t₃ := t₂.peek h₃
  have hm := t₃.lt
  split
  · rename_i hb
    have hlive : q₃.head ≠ .eof := by
      rw [h₃.head_eq]; intro h; simp [hb₃, h] at hb
    refine (braced_runs (r := 3) (by decide) (by decide) hlive fun hq hmq =>
      hitems .rBrace hq (by decide) (by omega)).mono fun _ u post => ?_
    obtain ⟨hu, hmu⟩ := post
    exact (t₃.next_consumed hu fun _ => hmu).mono le_rfl (Nat.zero_le _)
  · exact (expect_runs .semicolon (by decide) t₃.spent (by decide)).mono fun _ v hv =>
      (t₃.next hv.1).mono le_rfl (by omega)

theorem fnItem_succ (hblock : BlockSpec n) : BodySpec (fnItem (n + 1)) (n + 1) 9 := by
  intro p hp hn
  rw [fnItem]
  have body : ∀ {q : Parser}, p.Took 3 7 q →
      Runs (do if (← atKind .lBrace) then block n else expect .semicolon) q
        fun _ u => p.Took 3 9 u := by
    intro q hq
    refine Runs.bind ((atKind_runs .lBrace hq.spent (by decide)).mono
      fun b q₁ post => ?_)
    obtain ⟨hb₁, h₁⟩ := post
    have t₁ := hq.peek h₁
    have hm := t₁.lt
    split
    · rename_i hb
      have hlive : q₁.head ≠ .eof := by
        rw [h₁.head_eq]; intro h; simp [hb₁, h] at hb
      refine (hblock hlive (by omega)).mono fun _ u post => ?_
      obtain ⟨hu, hmu⟩ := post
      exact (t₁.next_consumed (hu.mono (by omega) le_rfl le_rfl) fun _ => hmu).mono le_rfl
        (Nat.zero_le _)
    · exact (expect_runs .semicolon (by decide) t₁.spent (by decide)).mono fun _ u hu =>
        (t₁.next hu.1).mono le_rfl (by omega)
  have ret : ∀ {q : Parser}, p.Took 3 5 q → Runs (do
      if (← atKind .minus) then
        if (← nth 1) == .gt then
          bump; bump
          fragment n .typeRef [.lBrace]
      if (← atKind .lBrace) then block n else expect .semicolon) q
        fun _ u => p.Took 3 9 u := by
    intro q hq
    refine Runs.bind ((atKind_runs .minus hq.spent (by decide)).mono
      fun b q₁ post => ?_)
    obtain ⟨hb₁, h₁⟩ := post
    have t₁ := hq.peek h₁
    split
    · rename_i hb
      have hlive : q₁.head ≠ .eof := by
        rw [h₁.head_eq]; intro h; simp [hb₁, h] at hb
      refine Runs.bind ((nth_runs 1 t₁.spent (by decide) (.inr hlive)).mono
        fun k q₂ post => ?_)
      obtain ⟨hk, h₂⟩ := post
      have t₂ := t₁.peek h₂
      split
      · rename_i hgt
        refine Runs.bind ((bump_runs (r := 3) (by rwa [h₂.head_eq])).mono fun _ q₃ post => ?_)
        obtain ⟨h₃, -, hm₃, -, hh₃⟩ := post
        have hgt : q₃.head ≠ .eof := by
          rw [hh₃, h₂.rest, ← hk, eq_of_beq hgt]
          decide
        refine Runs.bind ((bump_runs (r := 3) hgt).mono fun _ q₄ post => ?_)
        obtain ⟨h₄, -⟩ := post
        have t₄ := t₂.next_consumed (h₃.trans h₄) fun _ => Nat.lt_of_le_of_lt h₄.mark_le hm₃
        have hm := t₄.lt
        refine Runs.bind ((fragment_runs rfl [.lBrace] t₄.spent (by decide) (by omega)).mono
          fun _ q₅ post => ?_)
        obtain ⟨h₅, -⟩ := post
        exact body ((t₄.next h₅).mono le_rfl (by omega))
      · exact body (t₂.mono le_rfl (by omega))
    · exact body (t₁.mono le_rfl (by omega))
  refine keyword_runs hp fun q hq => ?_
  refine Runs.bind ((atKind_runs .lParen hq.spent (by decide)).mono fun b q₁ post => ?_)
  obtain ⟨hb₁, h₁⟩ := post
  have t₁ := hq.peek h₁
  have hm := t₁.lt
  split
  · rename_i hb
    have hlive : q₁.head ≠ .eof := by
      rw [h₁.head_eq]; intro h; simp [hb₁, h] at hb
    refine Runs.bind ((treeNode_runs .paramList rfl t₁.spent (by decide) (by omega) hlive
      (by simp)).mono
      fun _ u post => ?_)
    obtain ⟨hu, hmu⟩ := post
    exact ret ((t₁.next_consumed (hu.mono (by omega) le_rfl le_rfl) fun _ => hmu).mono le_rfl
      (Nat.zero_le _))
  · refine Runs.bind ((error_runs _).mono fun _ u hu => ?_)
    exact ret (t₁.peek hu)

theorem block_succ (hstmts : StmtsUntilSpec n) : BlockSpec (n + 1) := by
  intro p hp hn
  rw [block]
  exact braced_runs (by decide) (by decide) hp fun hq hmq =>
    hstmts .rBrace hq (by decide) (by omega)

theorem itemsUntil_succ (hitem : ItemSpec n) (hitems : ItemsUntilSpec n) :
    ItemsUntilSpec (n + 1) := by
  intro stop p s hs hsb hn
  rw [itemsUntil]
  have rest : ∀ {q : Parser} {d : Nat}, Parser.Step 2 0 d p q → q.mark < p.mark → d ≤ 12 →
      Runs (itemsUntil n stop) q fun _ u =>
        Parser.Step 2 2 14 p u ∧ (u.head ≠ .eof → u.head = stop) := by
    intro q d hq hm hd
    refine (hitems stop ((hq.spent_of_consumed hm).mono hd) (by decide) (by omega)).mono
      fun _ u post => ⟨?_, post.2⟩
    exact (hq.chain hm post.1).mono le_rfl (Nat.zero_le _) (by omega)
  refine Runs.bind ((atKind_runs stop hs (by omega)).mono fun b q₁ post => ?_)
  obtain ⟨hb₁, h₁⟩ := post
  split
  · rename_i hb
    subst hb₁
    exact Runs.pure ⟨h₁.step.mono le_rfl (by omega) (Nat.zero_le _),
      fun _ => by rw [h₁.head_eq]; simpa using hb⟩
  refine Runs.bind ((atEnd_runs (h₁.spent hs) (by omega)).mono fun b q₂ post => ?_)
  obtain ⟨hb₂, h₂⟩ := post
  have h₁₂ := h₁.trans h₂
  split
  · rename_i hb
    subst hb₂
    exact Runs.pure ⟨h₁₂.step.mono le_rfl le_rfl (Nat.zero_le _),
      fun h => absurd (by rw [h₂.head_eq]; simpa using hb) h⟩
  rename_i hend
  have hlive : q₂.head ≠ .eof := by subst hb₂; rw [h₂.head_eq]; simpa using hend
  refine Runs.bind ((atItemStart_runs (h₁₂.spent hs) (by omega)).mono fun b q₃ post => ?_)
  obtain ⟨hb₃, h₃⟩ := post
  have h₁₃ := h₁₂.trans h₃
  split
  · rename_i hb
    have hahead : q₃.itemAhead = true := by rw [h₃.itemAhead_eq, ← hb₃, hb]
    refine Runs.bind ((hitem hahead (h₁₃.spent hs) (by omega)
      (by rw [h₁₃.mark_eq]; omega)).mono fun _ u post => ?_)
    obtain ⟨hu, hmu⟩ := post
    rw [h₁₃.mark_eq] at hmu
    exact rest ((h₁₃.step.trans hu).consumed hmu) hmu (by omega)
  · refine Runs.bind ((errorBump_runs _ (h₁₃.spent hs) (by omega) le_rfl).mono
      fun _ u post => ?_)
    obtain ⟨hu, hmu⟩ := post
    have hmu : u.mark < p.mark := by
      have := hmu (by rwa [h₃.head_eq])
      rwa [h₁₃.mark_eq] at this
    exact rest ((h₁₃.step.trans hu).consumed hmu) hmu (by omega)

theorem stmtsUntil_succ (hstmt : StmtSpec n) (hstmts : StmtsUntilSpec n) :
    StmtsUntilSpec (n + 1) := by
  intro stop p s hs hsb hn
  rw [stmtsUntil]
  refine Runs.bind ((atKind_runs stop hs (by omega)).mono fun b q₁ post => ?_)
  obtain ⟨hb₁, h₁⟩ := post
  split
  · rename_i hb
    subst hb₁
    exact Runs.pure ⟨h₁.step.mono le_rfl (by omega) (Nat.zero_le _),
      fun _ => by rw [h₁.head_eq]; simpa using hb⟩
  refine Runs.bind ((atEnd_runs (h₁.spent hs) (by omega)).mono fun b q₂ post => ?_)
  obtain ⟨hb₂, h₂⟩ := post
  have h₁₂ := h₁.trans h₂
  split
  · rename_i hb
    subst hb₂
    exact Runs.pure ⟨h₁₂.step.mono le_rfl le_rfl (Nat.zero_le _),
      fun h => absurd (by rw [h₂.head_eq]; simpa using hb) h⟩
  rename_i hend
  have hlive : q₂.head ≠ .eof := by subst hb₂; rw [h₂.head_eq]; simpa using hend
  refine Runs.bind ((hstmt hlive (h₁₂.spent hs) (by omega)
    (by rw [h₁₂.mark_eq]; omega)).mono fun _ u post => ?_)
  obtain ⟨hu, hmu⟩ := post
  rw [h₁₂.mark_eq] at hmu
  have hq := (h₁₂.step.trans hu).consumed hmu
  refine (hstmts stop ((hq.spent_of_consumed hmu).mono (show _ ≤ 12 by omega)) (by decide)
    (by omega)).mono fun _ v post => ⟨?_, post.2⟩
  exact (hq.chain hmu post.1).mono le_rfl (Nat.zero_le _) (by omega)

theorem letStmt_succ : LetSpec (n + 1) := by
  intro p hp hn
  rw [letStmt]
  have close : ∀ {q : Parser}, (start.run p).2.Took 3 8 q →
      Runs (do expect .semicolon; complete .letStmt) q fun _ u =>
        Parser.Step 1 0 9 p u ∧ u.mark < p.mark := by
    intro q hq
    refine Runs.bind ((expect_runs (r := 3) .semicolon (by decide) hq.spent (by decide)).mono
      fun _ u post => ?_)
    obtain ⟨hu, -⟩ := post
    have tu := hq.next hu
    have hm : u.mark < p.mark := by simpa using tu.lt
    exact ⟨(tu.step.close hm (.inl tu.holds) (by decide) (by simp)).mono le_rfl le_rfl (by omega),
      by simpa using hm⟩
  have eqPart : ∀ {q : Parser}, (start.run p).2.Took 3 7 q → Runs (do
      if (← eat .eq) then fragment n .expr [.semicolon]
      expect .semicolon
      complete .letStmt) q fun _ u => Parser.Step 1 0 9 p u ∧ u.mark < p.mark := by
    intro q hq
    refine Runs.bind ((eat_runs (r := 3) .eq (by decide) hq.spent (by decide)).mono
      fun b q₁ post => ?_)
    obtain ⟨-, h₁, hb₁⟩ := post
    split
    · rename_i hb
      have t₁ := hq.next_consumed h₁ fun _ => (hb₁ hb).2
      have hm₁ : q₁.mark < p.mark := by simpa using t₁.lt
      refine Runs.bind ((fragment_runs rfl [.semicolon] t₁.spent (by decide) (by omega)).mono
        fun _ q₂ post => ?_)
      obtain ⟨h₂, -⟩ := post
      exact close ((t₁.next h₂).mono le_rfl (by omega))
    · exact close ((hq.next h₁).mono le_rfl (by omega))
  refine Runs.bind <| start_runs <| Runs.bind <|
    (bump_runs (r := 3) (by simpa using hp)).mono fun _ q₁ post => ?_
  obtain ⟨h₁, -, hm₁, hh₁, -⟩ := post
  have t₁ : (start.run p).2.Took 3 0 q₁ := ⟨h₁, hm₁, hh₁⟩
  have hm₁ : q₁.mark < p.mark := by simpa using t₁.lt
  refine Runs.bind ((fragment_runs rfl [.colon, .eq, .semicolon] t₁.spent (by decide)
    (by omega)).mono fun _ q₂ post => ?_)
  obtain ⟨h₂, -⟩ := post
  have t₂ := (t₁.next h₂).mono le_rfl (show _ ≤ 6 by omega)
  refine Runs.bind ((eat_runs (r := 3) .colon (by decide) t₂.spent (by decide)).mono
    fun b q₃ post => ?_)
  obtain ⟨-, h₃, hb₃⟩ := post
  split
  · rename_i hb
    have t₃ := t₂.next_consumed h₃ fun _ => (hb₃ hb).2
    have hm₃ : q₃.mark < p.mark := by simpa using t₃.lt
    refine Runs.bind ((fragment_runs rfl [.eq, .semicolon] t₃.spent (by decide)
      (by omega)).mono fun _ q₄ post => ?_)
    obtain ⟨h₄, -⟩ := post
    exact eqPart ((t₃.next h₄).mono le_rfl (by omega))
  · exact eqPart ((t₂.next h₃).mono le_rfl (by omega))

theorem stmt_succ (hlet : LetSpec n) (hitem : ItemSpec n) : StmtSpec (n + 1) := by
  intro p s hp hs hsb hn
  rw [stmt]
  refine Runs.bind ((current_runs hs (by omega)).mono fun k q₁ post => ?_)
  obtain ⟨hk, h₁⟩ := post
  subst hk
  have hlive₁ : q₁.head ≠ .eof := by rwa [h₁.head_eq]
  split
  · refine (hlet hlive₁ (by rw [h₁.mark_eq]; omega)).mono fun _ u post => ?_
    obtain ⟨hu, hmu⟩ := post
    rw [h₁.mark_eq] at hmu
    exact ⟨((h₁.step.trans hu).consumed hmu).mono (by omega) le_rfl (by omega), hmu⟩
  · refine (bump_runs (r := 4) hlive₁).mono fun _ u post => ?_
    obtain ⟨hu, -, hm₁u, -⟩ := post
    have hmu : u.mark < p.mark := by rw [← h₁.mark_eq]; exact hm₁u
    exact ⟨((h₁.step.trans hu).consumed hmu).mono le_rfl le_rfl (by omega), hmu⟩
  rename_i hnlet hnsemi
  refine Runs.bind ((atMacroCall_runs (h₁.spent hs) (by omega)).mono fun b q₂ post => ?_)
  obtain ⟨hb₂, h₂⟩ := post
  have h₁₂ := h₁.trans h₂
  split
  · rename_i hb
    have hcall : q₂.callAhead = true := by rw [h₂.callAhead_eq, ← hb₂, hb]
    refine Runs.bind <| start_runs <| (macroItem_runs (Parser.Step.refl _)
      (by rw [start_run_mark, h₁₂.mark_eq]; omega) (by rwa [Parser.callAhead_start])).mono
        fun _ u post => ?_
    obtain ⟨hu, hmu⟩ := post
    rw [h₁₂.mark_eq] at hmu
    exact ⟨((h₁₂.step.trans hu).consumed hmu).mono (by omega) le_rfl (by omega), hmu⟩
  refine Runs.bind ((atItemStart_runs (h₁₂.spent hs) (by omega)).mono fun b q₃ post => ?_)
  obtain ⟨hb₃, h₃⟩ := post
  have h₁₃ := h₁₂.trans h₃
  split
  · rename_i hb
    have hahead : q₃.itemAhead = true := by rw [h₃.itemAhead_eq, ← hb₃, hb]
    refine (hitem hahead (h₁₃.spent hs) (by omega) (by rw [h₁₃.mark_eq]; omega)).mono
      fun _ u post => ?_
    obtain ⟨hu, hmu⟩ := post
    rw [h₁₃.mark_eq] at hmu
    exact ⟨((h₁₃.step.trans hu).consumed hmu).mono (by omega) le_rfl (by omega), hmu⟩
  split
  · refine (errorBump_runs (r := 4) _ (h₁₃.spent hs) (by omega) (by omega)).mono
      fun _ u post => ?_
    obtain ⟨hu, hmu⟩ := post
    have hmu : u.mark < p.mark := by
      rw [← h₁₃.mark_eq]; exact hmu (by rwa [h₁₃.head_eq])
    exact ⟨((h₁₃.step.trans hu).consumed hmu).mono le_rfl le_rfl (by omega), hmu⟩
  rename_i hncl
  have hends : q₃.fragmentEnds [.semicolon] = false := by
    have heof : (p.head == .eof) = false := by simpa using hp
    have hsemi : [SyntaxKind.semicolon].contains p.head = false := by simpa using hnsemi
    have hcl : [SyntaxKind.rParen, .rBracket, .rBrace].contains p.head = false := by
      rw [SyntaxKind.contains_closers]; simpa using hncl
    rw [h₁₃.fragmentEnds_eq]
    simp only [Parser.fragmentEnds, heof, hsemi, hcl, Bool.or_false]
  refine Runs.bind <| start_runs <| Runs.bind <| (fragment_runs rfl [.semicolon]
    (start_spent (h₁₃.spent hs)) (by omega) (by rw [start_run_mark, h₁₃.mark_eq]; omega)).mono
      fun _ q₄ post => ?_
  obtain ⟨h₄, -, hcons⟩ := post
  have hm₄ : q₄.mark < (start.run q₃).2.mark := hcons (by simpa using hends)
  refine Runs.bind ((eat_runs (r := 3) .semicolon (by decide) (h₄.spent_of_consumed hm₄)
    (by decide)).mono
    fun _ q₅ post => ?_)
  obtain ⟨-, h₅, -⟩ := post
  have hm₅ : q₅.mark < q₃.mark := by simpa using Nat.lt_of_le_of_lt h₅.mark_le hm₄
  have hc := (h₄.chain hm₄ h₅).close hm₅ (.inr le_rfl) (k := .exprStmt) (r := 4) (by decide)
    (by simp)
  have hm : ((complete .exprStmt).run q₅).2.mark < p.mark := by
    rw [complete_run_mark, ← h₁₃.mark_eq]; exact hm₅
  exact ⟨((h₁₃.step.trans hc).consumed hm).mono le_rfl le_rfl (by omega), hm⟩

theorem item_succ (hc : Contracts n) : ItemSpec (n + 1) := by
  intro p s hahead hs hsb hn
  rw [item]
  have hL : lookaheadBudget = 256 := rfl
  refine Runs.bind <| start_runs <| Runs.bind <| (attrs_runs n (start_spent hs) (by omega)
    (by rw [start_run_mark]; omega)).mono fun _ q₁ post => ?_
  obtain ⟨h₁, -, hpound, hpeek⟩ := post
  refine Runs.bind ((current_runs (h₁.spent (start_spent hs)) (by omega)).mono
    fun k q₂ post => ?_)
  obtain ⟨hk, h₂⟩ := post
  have h₁₂ := h₁.trans h₂.step
  have hm₂ : q₂.mark ≤ p.mark := by simpa using h₁₂.mark_le
  subst hk
  split
  · rename_i hk
    exact (itemBody_runs rfl (by decide) (h₁₂.mono (by omega) le_rfl le_rfl) hc.structItem
      (by rw [h₂.head_eq, hk]; decide) (by omega)).mono fun _ u hu =>
        ⟨hu.1.mono le_rfl le_rfl (by omega), hu.2⟩
  · rename_i hk
    exact (itemBody_runs rfl (by decide) (h₁₂.mono (by omega) le_rfl le_rfl) hc.fnItem
      (by rw [h₂.head_eq, hk]; decide) (by omega)).mono fun _ u hu =>
        ⟨hu.1.mono le_rfl le_rfl (by omega), hu.2⟩
  · rename_i hk
    exact (itemBody_runs rfl (by decide) (h₁₂.mono (by omega) le_rfl le_rfl) hc.modItem
      (by rw [h₂.head_eq, hk]; decide) (by omega)).mono fun _ u hu =>
        ⟨hu.1.mono le_rfl le_rfl (by omega), hu.2⟩
  · rename_i hk
    exact (itemBody_runs rfl (by decide) (h₁₂.mono (by omega) le_rfl le_rfl) hc.typeAlias
      (by rw [h₂.head_eq, hk]; decide) (by omega)).mono fun _ u hu =>
        ⟨hu.1.mono le_rfl le_rfl (by omega), hu.2⟩
  rename_i hns hnf hnm hnt
  refine Runs.bind ((atMacroCall_runs (h₂.spent (h₁.spent (start_spent hs))) (by omega)).mono
    fun b q₃ post => ?_)
  obtain ⟨hb₃, h₃⟩ := post
  have h₁₃ := h₁₂.trans h₃.step
  split
  · rename_i hb
    have hcall : q₃.callAhead = true := by rw [h₃.callAhead_eq, ← hb₃, hb]
    exact (macroItem_runs h₁₃ (by rw [h₃.mark_eq]; omega) hcall).mono fun _ u hu =>
      ⟨hu.1.mono le_rfl le_rfl (by omega), hu.2⟩
  rename_i hb
  have hpd : p.head = .pound := by
    by_contra hpd
    have hq₁ := hpeek (by simpa using hpd)
    have hcall : p.callAhead = false := by
      rw [← Parser.callAhead_start, ← hq₁.callAhead_eq, ← h₂.callAhead_eq]
      simpa [hb₃] using hb
    have hhead : q₁.head = p.head := by rw [hq₁.head_eq]; simp
    simp only [Parser.itemAhead, hcall, Bool.or_false] at hahead
    rw [← hhead] at hahead hpd
    simp_all
  have hm₁ : q₁.mark < p.mark := by simpa using hpound (by simpa using hpd)
  refine Runs.bind ((error_runs _).mono fun _ q₄ h₄ => ?_)
  have hm₄ : q₄.mark < p.mark := by
    rw [h₄.mark_eq, h₃.mark_eq, h₂.mark_eq]; exact hm₁
  have hclose := (h₁₃.trans h₄.step).close hm₄ (.inr le_rfl) (k := .errorNode) (r := 2)
    (by decide) (by simp)
  exact ⟨(hclose.consumed (by simpa using hm₄)).mono le_rfl le_rfl (by omega), by simpa using hm₄⟩

theorem contracts_zero : Contracts 0 where
  itemsUntil stop p _ _ _ hn := by
    rw [itemsUntil]
    exact Runs.pure ⟨(Parser.Step.refl p).mono le_rfl (Nat.zero_le _) (Nat.zero_le _),
      fun h => absurd (Parser.head_eq_eof_of_fuel hn (by decide)) h⟩
  item hahead _ _ hn := absurd (Parser.fuel_of_live (Parser.itemAhead_live hahead) hn) (by decide)
  structItem hp hn := absurd (Parser.fuel_of_live hp hn) (by decide)
  fnItem hp hn := absurd (Parser.fuel_of_live hp hn) (by decide)
  modItem hp hn := absurd (Parser.fuel_of_live hp hn) (by decide)
  typeAlias hp hn := absurd (Parser.fuel_of_live hp hn) (by decide)
  block hp hn := absurd (Parser.fuel_of_live hp hn) (by decide)
  stmtsUntil stop p _ _ _ hn := by
    rw [stmtsUntil]
    exact Runs.pure ⟨(Parser.Step.refl p).mono (Nat.zero_le _) (Nat.zero_le _) (Nat.zero_le _),
      fun h => absurd (Parser.head_eq_eof_of_fuel hn (by decide)) h⟩
  stmt hp _ _ hn := absurd (Parser.fuel_of_live hp hn) (by decide)
  letStmt hp hn := absurd (Parser.fuel_of_live hp hn) (by decide)

theorem contracts : ∀ n, Contracts n
  | 0 => contracts_zero
  | n + 1 =>
    have h := contracts n
    { itemsUntil := itemsUntil_succ h.item h.itemsUntil
      item := item_succ h
      structItem := structItem_succ
      fnItem := fnItem_succ h.block
      modItem := modItem_succ h.itemsUntil
      typeAlias := typeAlias_succ
      block := block_succ h.stmtsUntil
      stmtsUntil := stmtsUntil_succ h.stmt h.stmtsUntil
      stmt := stmt_succ h.letStmt h.item
      letStmt := letStmt_succ }

/-! ### Whole parses -/

theorem fragmentRounds_runs : ∀ (n : Nat) {p : Parser}, p.Spent 0 → 8 * p.mark ≤ n →
    Runs (fragmentRounds n) p fun _ q => Parser.Step 2 4 5 p q ∧ q.head = .eof
  | 0, p, _, hn => by
    rw [fragmentRounds]
    have hend : p.head = .eof := by
      by_contra hp
      have := Parser.mark_pos hp
      omega
    exact Runs.pure ⟨(Parser.Step.refl p).mono le_rfl (Nat.zero_le _) (Nat.zero_le _), hend⟩
  | n + 1, p, hs, hn => by
    rw [fragmentRounds]
    refine Runs.bind ((fragmentTokens_runs [] n hs (by decide) (by omega)).mono
      fun _ q₁ post => ?_)
    obtain ⟨h₁, -, -⟩ := post
    refine Runs.bind ((atEnd_runs (h₁.spent hs) (by decide)).mono fun b q₂ post => ?_)
    obtain ⟨hb₂, h₂⟩ := post
    have h₁₂ := h₁.trans h₂.step
    split
    · rename_i hend
      subst hb₂
      exact Runs.pure ⟨h₁₂.mono le_rfl (by omega) (by omega), by rw [h₂.head_eq]; simpa using hend⟩
    rename_i hend
    have hlive : q₂.head ≠ .eof := by subst hb₂; rw [h₂.head_eq]; simpa using hend
    refine Runs.bind ((errorBump_runs _ (h₂.spent (h₁.spent hs)) (by decide) le_rfl).mono
      fun _ q₃ post => ?_)
    obtain ⟨h₃, hm₃⟩ := post
    have hm₃ := hm₃ hlive
    have h₁₃ : Parser.Step 2 0 0 p q₃ := h₁₂.then_consumed h₃ fun _ => hm₃
    have hm : q₃.mark < p.mark := Nat.lt_of_lt_of_le hm₃ h₁₂.mark_le
    refine (fragmentRounds_runs n (h₁₃.spent_of_consumed hm) (by omega)).mono fun _ u hu => ?_
    exact ⟨(h₁₃.chain hm hu.1).mono le_rfl (Nat.zero_le _) (by omega), hu.2⟩

theorem entryBody_runs (n : Nat) (entry : EntryPoint) {p : Parser} (hs : p.Spent 0)
    (hn : 8 * p.mark ≤ n) :
    Runs (entryBody n entry) p fun _ q => Parser.Step 4 4 14 p q ∧ q.head = .eof := by
  have hstop : ∀ q : Parser, (q.head ≠ .eof → q.head = .eof) → q.head = .eof := fun q h => by
    by_contra hq
    exact hq (h hq)
  cases entry with
  | sourceFile | items =>
    exact ((contracts n).itemsUntil .eof hs (by decide) hn).mono fun _ q ⟨hq, he⟩ =>
      ⟨hq.mono (by omega) (by omega) le_rfl, hstop q he⟩
  | stmts =>
    exact ((contracts n).stmtsUntil .eof hs (by decide) hn).mono fun _ q ⟨hq, he⟩ =>
      ⟨hq.mono le_rfl (by omega) le_rfl, hstop q he⟩
  | expr | pat | type | lifetime =>
    exact (fragmentRounds_runs n hs hn).mono fun _ q hq =>
      ⟨hq.1.mono (by omega) le_rfl (by omega), hq.2⟩

end Grammar

theorem parse_body_runs (text : String) (entry : EntryPoint) :
    Runs (Grammar.entryBody (stepAllowance (lex text)) entry) (Parser.init (lex text))
      fun _ q => Parser.Step 4 4 14 (Parser.init (lex text)) q ∧ q.head = .eof := by
  have hfuel : 8 * (Parser.init (lex text)).mark ≤ stepAllowance (lex text) := by
    have := List.length_dropWhile_le (fun t : Token => t.kind.isTrivia) (lex text)
    simp only [Parser.mark, stepAllowance]
    exact Nat.le_trans (Nat.mul_le_mul_left 8 this) (by omega)
  exact Grammar.entryBody_runs _ entry (Parser.Spent.of_budget rfl) hfuel

/-- The tree of a parse: a root over the trees its entry point's body added, each distinct and of
rank at most four, then the trailing trivia; its tokens are the text's first, and what is left
ends with the end token. -/
theorem parse_tree_shape (text : String) (entry : EntryPoint) :
    ∃ cs rest, (parse text entry).tree = .node entry.rootKind cs ∧
      (∀ c ∈ cs, c.distinct = true ∧ c.rank ≤ 4) ∧ Green.tokensList cs ++ rest = lex text ∧
      ∃ pre t, rest = pre ++ [t] ∧ t.kind = .eof := by
  let p₁ := ((Grammar.entryBody (stepAllowance (lex text)) entry).run (Parser.init (lex text))).2
  have h₁ : Parser.Step 4 4 14 (Parser.init (lex text)) p₁ := (parse_body_runs text entry).1
  obtain ⟨new, hf₁, hfit, ht₁, -⟩ := h₁.adds [] [] rfl
  obtain ⟨ts, h₂, ht₂⟩ := Parser.skipTrivia_spec (p := p₁) hf₁
  have htree : (parse text entry).tree = .node entry.rootKind (new.reverse ++ ts.map .token) := by
    simp only [parse]
    rw [h₂]
    simp
  obtain ⟨pre, t, hend, ht⟩ := (h₁.endsAtEof ⟨_, _, rfl, rfl⟩).dropWhile
  refine ⟨_, p₁.skipTrivia.unplaced, htree, fun c hc => ?_, ?_, p₁.skipTrivia.lagged ++ pre, t,
    by rw [Parser.unplaced, Parser.skipTrivia_rest, hend, List.append_assoc], ht⟩
  · rcases List.mem_append.1 hc with hc | hc
    · exact hfit c (List.mem_reverse.1 hc)
    · obtain ⟨t, -, rfl⟩ := List.mem_map.1 hc
      simp
  · rw [Green.tokensList_append, Green.tokensList_map_token, List.append_assoc, ht₂]
    exact ht₁

theorem parse_tokens_prefix_of_lex (text : String) (entry : EntryPoint) :
    (parse text entry).tree.tokens <+: Lexer.tokens text.toList := by
  obtain ⟨cs, rest, htree, -, htok, pre, t, rfl, ht⟩ := parse_tree_shape text entry
  rw [htree, Green.tokens_node]
  have h : (Green.tokensList cs ++ pre) ++ [t] = Lexer.tokens text.toList ++ [Token.eof] := by
    rw [List.append_assoc, htok, lex]
  exact ⟨pre, List.append_inj_left' h rfl⟩

end MacroTrace
