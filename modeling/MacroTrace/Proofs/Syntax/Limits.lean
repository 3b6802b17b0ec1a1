import MacroTrace.Proofs.Syntax.Distinct
/-!
A parse never reaches its limits. Two runs are in lockstep when they give the same results and
reach states that differ at most in their reserve of extra peeks. A run with more step allowance,
from a parser with any reserve, keeps in lockstep with the parse itself: no grammar function is cut
short by its allowance, and no peek made with the budget spent asks past the end of the input.

The proofs walk each grammar function beside its contract: the contract's run supplies the budget
spent and the tokens left at each step, and the preconditions leave room for one token more than
is left, so that no allowance of the parse ever reaches zero.
-/
namespace MacroTrace

namespace Parser

def withoutReserve (p : Parser) : Parser := { p with reserve := 0 }

@[simp] theorem withoutReserve_rest (p : Parser) : p.withoutReserve.rest = p.rest := rfl

@[simp] theorem withoutReserve_budget (p : Parser) : p.withoutReserve.budget = p.budget := rfl

@[simp] theorem withoutReserve_reserve (p : Parser) : p.withoutReserve.reserve = 0 := rfl

@[simp] theorem withoutReserve_frames (p : Parser) : p.withoutReserve.frames = p.frames := rfl

@[simp] theorem withoutReserve_triviaAhead (p : Parser) :
    p.withoutReserve.triviaAhead = p.triviaAhead := rfl

theorem Peeked.live_of_found {c : Nat} {p q : Parser} {k : SyntaxKind} {b : Bool}
    (h : p.Peeked c q) (hk : k ≠ .eof) (hb : b = (p.head == k)) (hbt : b = true) :
    q.head ≠ .eof := by
  subst hb
  rw [h.head_eq, eq_of_beq hbt]
  exact hk

theorem Peeked.live_of_not_end {c : Nat} {p q : Parser} {b : Bool} (h : p.Peeked c q)
    (hb : b = (p.head == .eof)) (hend : ¬b = true) : q.head ≠ .eof := by
  subst hb
  rw [h.head_eq]
  simpa using hend

end Parser

/-! ### Runs in lockstep -/

section Lockstep

variable {α β : Type} {x x' : ParseM α} {p : Parser}

/-- Running `x'` from `p` with any reserve gives `x`'s result from `p`, and `x`'s final state up to
the reserve. -/
def Lockstep (x x' : ParseM α) (p : Parser) : Prop :=
  ∀ p', p'.withoutReserve = p →
    (x'.run p').1 = (x.run p).1 ∧ (x'.run p').2.withoutReserve = (x.run p).2

namespace Lockstep

theorem bind {f f' : α → ParseM β} {Q : α → Parser → Prop} (hx : Lockstep x x' p)
    (hQ : Runs x p Q) (hf : ∀ a q, Q a q → Lockstep (f a) (f' a) q) :
    Lockstep (x >>= f) (x' >>= f') p := by
  intro p' hp'
  obtain ⟨h₁, h₂⟩ := hx p' hp'
  have h := hf _ _ hQ _ h₂
  show ((f' (x'.run p').1).run (x'.run p').2).1 = _ ∧
    ((f' (x'.run p').1).run (x'.run p').2).2.withoutReserve = _
  rw [h₁]
  exact h

theorem bind_and {f f' : α → ParseM β} {Q₁ Q₂ : α → Parser → Prop}
    (hx : Lockstep x x' p) (hQ : Runs x p fun a q => Q₁ a q ∧ Q₂ a q)
    (hf : ∀ a q, Q₁ a q → Q₂ a q → Lockstep (f a) (f' a) q) :
    Lockstep (x >>= f) (x' >>= f') p :=
  bind hx hQ fun a q h => hf a q h.1 h.2

theorem bind_run {f f' : α → ParseM β} (hx : Lockstep x x' p)
    (hf : Lockstep (f (x.run p).1) (f' (x.run p).1) (x.run p).2) :
    Lockstep (x >>= f) (x' >>= f') p :=
  bind hx (Q := fun a q => a = (x.run p).1 ∧ q = (x.run p).2) ⟨rfl, rfl⟩
    fun _ _ h => by
      obtain ⟨rfl, rfl⟩ := h
      exact hf

theorem pure (a : α) : Lockstep (Pure.pure a : ParseM α) (Pure.pure a) p :=
  fun _ hp' => ⟨rfl, hp'⟩

theorem ite {c : Prop} [Decidable c] {y y' z z' : ParseM α} (h₁ : c → Lockstep y y' p)
    (h₂ : ¬c → Lockstep z z' p) : Lockstep (if c then y else z) (if c then y' else z') p := by
  by_cases h : c
  · simp only [if_pos h]
    exact h₁ h
  · simp only [if_neg h]
    exact h₂ h

theorem of_run_withoutReserve (h : ∀ p', (x.run p').1 = (x.run p'.withoutReserve).1 ∧
    (x.run p').2.withoutReserve = (x.run p'.withoutReserve).2) : Lockstep x x p := by
  intro p' hp'
  subst hp'
  exact h p'

end Lockstep

end Lockstep

/-! ### Moves -/

theorem bump_run_withoutReserve (p : Parser) :
    (bump.run p).2.withoutReserve = (bump.run p.withoutReserve).2 := by
  simp only [bump, ParseM.run_modify, Parser.takeTrivia, Parser.withoutReserve_rest,
    Parser.withoutReserve_triviaAhead]
  cases h : p.rest.dropWhile (·.kind.isTrivia) with
  | nil => rfl
  | cons t ts => by_cases he : t.kind = .eof <;> simp [he, Parser.shift, Parser.place] <;> rfl

theorem complete_run_withoutReserve (k : SyntaxKind) (p : Parser) :
    ((complete k).run p).2.withoutReserve = ((complete k).run p.withoutReserve).2 := by
  simp only [complete, ParseM.run_modify, Parser.withoutReserve_frames]
  cases h : p.frames with
  | nil => rfl
  | cons f fs => cases fs <;> rfl

theorem start_run_withoutReserve (p : Parser) :
    (start.run p).2.withoutReserve = (start.run p.withoutReserve).2 := rfl

theorem error_run_withoutReserve (e : SyntaxError) (p : Parser) :
    ((error e).run p).2.withoutReserve = ((error e).run p.withoutReserve).2 := rfl

section Moves

variable {p : Parser} {s : Nat}

theorem nth_lock {n : Nat} (hs : p.Spent s) (hsb : s < lookaheadBudget)
    (hn : n = 0 ∨ p.head ≠ .eof) : Lockstep (nth n) (nth n) p := by
  intro p' hp'
  subst hp'
  simp only [nth, modifyGet, MonadStateOf.modifyGet, StateT.modifyGet, StateT.run,
    Parser.withoutReserve_budget, Parser.withoutReserve_reserve]
  split
  · rename_i h0
    have hend : p'.withoutReserve.head = .eof := by
      by_contra hp
      have := hs.pos hsb hp
      rw [Parser.withoutReserve_budget] at this
      omega
    split
    · exact ⟨rfl, rfl⟩
    · refine ⟨?_, rfl⟩
      rcases hn with rfl | hp
      · exact hend
      · exact absurd hend hp
  · exact ⟨rfl, rfl⟩

theorem bump_lock : Lockstep bump bump p :=
  Lockstep.of_run_withoutReserve fun p' => ⟨rfl, bump_run_withoutReserve p'⟩

theorem start_lock : Lockstep start start p :=
  Lockstep.of_run_withoutReserve fun p' => ⟨rfl, start_run_withoutReserve p'⟩

theorem complete_lock (k : SyntaxKind) : Lockstep (complete k) (complete k) p :=
  Lockstep.of_run_withoutReserve fun p' => ⟨rfl, complete_run_withoutReserve k p'⟩

theorem error_lock (e : SyntaxError) : Lockstep (error e) (error e) p :=
  Lockstep.of_run_withoutReserve fun p' => ⟨rfl, error_run_withoutReserve e p'⟩

theorem current_lock (hs : p.Spent s) (hsb : s < lookaheadBudget) : Lockstep current current p :=
  nth_lock hs hsb (.inl rfl)

theorem atKind_lock (k : SyntaxKind) (hs : p.Spent s) (hsb : s < lookaheadBudget) :
    Lockstep (atKind k) (atKind k) p :=
  Lockstep.bind (current_lock hs hsb) (current_runs hs hsb) fun _ _ _ => Lockstep.pure _

theorem atAny_lock (ks : List SyntaxKind) (hs : p.Spent s) (hsb : s < lookaheadBudget) :
    Lockstep (atAny ks) (atAny ks) p :=
  Lockstep.bind (current_lock hs hsb) (current_runs hs hsb) fun _ _ _ => Lockstep.pure _

theorem atEnd_lock (hs : p.Spent s) (hsb : s < lookaheadBudget) : Lockstep atEnd atEnd p :=
  atKind_lock _ hs hsb

theorem atMacroCall_lock (hs : p.Spent s) (hsb : s + 1 < lookaheadBudget) :
    Lockstep atMacroCall atMacroCall p := by
  refine Lockstep.bind_and (atKind_lock .ident hs (by omega)) (atKind_runs .ident hs (by omega))
    fun b q hb hq => Lockstep.ite (fun hid => ?_) fun _ => Lockstep.pure _
  have hlive := hq.live_of_found (by decide) hb hid
  exact Lockstep.bind (nth_lock (hq.spent hs) (by omega) (.inr hlive))
    (nth_runs 1 (hq.spent hs) (by omega) (.inr hlive)) fun _ _ _ => Lockstep.pure _

theorem eat_lock (k : SyntaxKind) (hs : p.Spent s) (hsb : s < lookaheadBudget) :
    Lockstep (eat k) (eat k) p :=
  Lockstep.bind (atKind_lock k hs hsb) (atKind_runs k hs hsb) fun _ _ _ =>
    Lockstep.ite (fun _ => Lockstep.bind_run bump_lock (Lockstep.pure _)) fun _ => Lockstep.pure _

theorem expect_lock (k : SyntaxKind) (hk : k ≠ .eof) (hs : p.Spent s)
    (hsb : s < lookaheadBudget) : Lockstep (expect k) (expect k) p :=
  Lockstep.bind (eat_lock k hs hsb) (eat_runs (r := 0) k hk hs hsb) fun _ _ _ =>
    Lockstep.ite (fun _ => Lockstep.pure _) fun _ => error_lock _

theorem nodeOverNext_lock (k : SyntaxKind) :
    Lockstep (start >>= fun _ => bump >>= fun _ => complete k)
      (start >>= fun _ => bump >>= fun _ => complete k) p :=
  Lockstep.bind_run start_lock (Lockstep.bind_run bump_lock (complete_lock k))

theorem errorBump_lock (e : SyntaxError) (hs : p.Spent s) (hsb : s < lookaheadBudget) :
    Lockstep (errorBump e) (errorBump e) p :=
  Lockstep.bind (error_lock e) (error_runs e) fun _ _ hq =>
    Lockstep.bind (atKind_lock .eof (hq.spent hs) hsb) (atKind_runs .eof (hq.spent hs) hsb)
      fun _ _ _ => Lockstep.ite (fun _ => Lockstep.pure _) fun _ => nodeOverNext_lock _

theorem atItemStart_lock (hs : p.Spent s) (hsb : s + 3 ≤ lookaheadBudget) :
    Lockstep Grammar.atItemStart Grammar.atItemStart p :=
  Lockstep.bind_and (atAny_lock _ hs (by omega))
    (atAny_runs [.pound, .structKw, .fnKw, .modKw, .typeKw] hs (by omega)) fun _ _ _ hq =>
      Lockstep.ite (fun _ => Lockstep.pure _) fun _ => atMacroCall_lock (hq.spent hs) (by omega)

theorem atFragmentEnd_lock (stop : List SyntaxKind) (hs : p.Spent s)
    (hsb : s + 3 ≤ lookaheadBudget) :
    Lockstep (Grammar.atFragmentEnd stop) (Grammar.atFragmentEnd stop) p :=
  Lockstep.bind_and (atEnd_lock hs (by omega)) (atEnd_runs hs (by omega)) fun _ _ _ h₁ =>
    Lockstep.ite (fun _ => Lockstep.pure _) fun _ =>
      Lockstep.bind_and (atAny_lock stop (h₁.spent hs) (by omega))
        (atAny_runs stop (h₁.spent hs) (by omega)) fun _ _ _ h₂ =>
          Lockstep.ite (fun _ => Lockstep.pure _) fun _ =>
            atAny_lock _ ((h₁.trans h₂).spent hs) (by omega)

end Moves

/-! ### The grammar -/

namespace Grammar

def Steady {α : Type} (f : Nat → ParseM α) (n : Nat) (p : Parser) : Prop :=
  ∀ m, n ≤ m → Lockstep (f n) (f m) p

theorem Steady.succ {α : Type} {f : Nat → ParseM α} {n : Nat} {p : Parser}
    (h : ∀ m, n ≤ m → Lockstep (f (n + 1)) (f (m + 1)) p) : Steady f (n + 1) p := by
  intro m hnm
  obtain ⟨k, rfl⟩ : ∃ k, m = k + 1 := ⟨m - 1, by omega⟩
  exact h k (by omega)

variable {p : Parser} {s : Nat}

theorem name_lock (hs : p.Spent s) (hsb : s < lookaheadBudget) : Lockstep name name p :=
  Lockstep.bind (atKind_lock .ident hs hsb) (atKind_runs .ident hs hsb) fun _ _ _ =>
    Lockstep.ite (fun _ => nodeOverNext_lock _) fun _ => error_lock _

theorem path_lock : Lockstep path path p := nodeOverNext_lock _

theorem tokenTree_steady : ∀ (n : Nat) (closers : List SyntaxKind) {p : Parser} {s : Nat},
    p.Spent s → s < lookaheadBudget → 8 * p.mark + 8 ≤ n + 3 → .eof ∉ closers →
    Steady (tokenTree · closers) n p
  | 0, _, _, _, _, _, hn, _ => absurd hn (by omega)
  | n + 1, closers, p, s, hs, hsb, hn, hc => by
    refine Steady.succ fun m hle => ?_
    rw [tokenTree, tokenTree]
    refine Lockstep.bind (current_lock hs hsb) (current_runs hs hsb) fun k q post => ?_
    obtain ⟨hk, hq⟩ := post
    subst hk
    have next : ∀ cl : List SyntaxKind, .eof ∉ cl → p.head ≠ .eof →
        Lockstep (bump >>= fun _ => tokenTree n cl) (bump >>= fun _ => tokenTree m cl) q := by
      intro cl hcl hp
      refine Lockstep.bind bump_lock (bump_runs (r := 0) (by rwa [hq.head_eq]))
        fun _ q₂ post => ?_
      obtain ⟨-, hb, hm, -⟩ := post
      rw [hq.mark_eq] at hm
      exact tokenTree_steady n cl (Parser.Spent.of_budget hb) (by decide) (by omega) hcl m hle
    cases hcl : p.head.closer? with
    | some c =>
      obtain ⟨hp, hce⟩ := SyntaxKind.closer?_ne_eof hcl
      refine next _ (fun hmem => ?_) hp
      rcases List.mem_cons.1 hmem with h | h
      · exact hce h.symm
      · exact hc h
    | none =>
      refine Lockstep.ite (fun hclose => ?_) fun _ =>
        Lockstep.ite (fun _ => error_lock _) fun hend => next _ hc (by simpa using hend)
      have hp : p.head ≠ .eof := by
        intro h
        rw [h] at hclose
        exact hc (List.mem_of_mem_head? (by simpa using hclose))
      refine Lockstep.bind bump_lock (bump_runs (r := 0) (by rwa [hq.head_eq]))
        fun _ q₂ post => ?_
      obtain ⟨-, hb, hm, -⟩ := post
      rw [hq.mark_eq] at hm
      exact Lockstep.ite (fun _ => Lockstep.pure _) fun _ =>
        tokenTree_steady n _ (Parser.Spent.of_budget hb) (by decide) (by omega)
          (fun h => hc (List.mem_of_mem_tail h)) m hle

theorem genericRounds_steady : ∀ (n : Nat) {p : Parser} {s : Nat}, p.Spent s →
    s + 3 ≤ lookaheadBudget → p.mark < n → Steady genericRounds n p
  | 0, _, _, _, _, hn => absurd hn (Nat.not_lt_zero _)
  | n + 1, p, s, hs, hsb, hn => by
    refine Steady.succ fun m hle => ?_
    rw [genericRounds, genericRounds]
    refine Lockstep.bind_and (atKind_lock .gt hs (by omega)) (atKind_runs .gt hs (by omega))
      fun _ q₁ _ h₁ => Lockstep.ite (fun _ => Lockstep.pure _) fun _ => ?_
    refine Lockstep.bind_and (atEnd_lock (h₁.spent hs) (by omega))
      (atEnd_runs (h₁.spent hs) (by omega)) fun b q₂ hb₂ h₂ =>
        Lockstep.ite (fun _ => Lockstep.pure _) fun hend => ?_
    have h₁₂ := h₁.trans h₂
    refine Lockstep.bind_and (atAny_lock _ (h₁₂.spent hs) (by omega))
      (atAny_runs [.lBrace, .semicolon] (h₁₂.spent hs) (by omega)) fun _ q₃ _ h₃ =>
        Lockstep.ite (fun _ => Lockstep.bind_run (error_lock _) (Lockstep.pure _)) fun _ => ?_
    have hp : q₃.head ≠ .eof := by
      rw [h₃.head_eq]
      exact h₂.live_of_not_end hb₂ hend
    refine Lockstep.bind bump_lock (bump_runs (r := 0) hp) fun _ q₄ post => ?_
    obtain ⟨-, hb₄, hm₄, -⟩ := post
    have hm : q₄.mark < p.mark := by rwa [h₃.mark_eq, h₂.mark_eq, h₁.mark_eq] at hm₄
    exact genericRounds_steady n (Parser.Spent.of_budget hb₄) (by decide) (by omega) m hle

theorem genericParams_steady (hs : p.Spent s) (hsb : s < lookaheadBudget) {n : Nat}
    (hn : p.mark ≤ n) : Steady genericParams n p := by
  intro m hnm
  unfold genericParams
  refine Lockstep.bind_and (eat_lock .lt hs hsb) (eat_runs (r := 0) .lt (by decide) hs hsb)
    fun b q₁ _ h₁ => Lockstep.ite (fun hb => ?_) fun _ => Lockstep.pure _
  obtain ⟨hbud, hm⟩ := h₁.2 hb
  have hs₁ := Parser.Spent.of_budget hbud
  exact Lockstep.bind (genericRounds_steady n hs₁ (by decide) (by omega) m hnm)
    (genericRounds_runs n hs₁ (by decide)) fun _ _ h₂ =>
      Lockstep.ite (fun _ => expect_lock .gt (by decide) (h₂.spent hs₁) (by decide)) fun _ =>
        Lockstep.pure _

theorem treeNode_steady (k : SyntaxKind) (hs : p.Spent s) (hsb : s < lookaheadBudget)
    {n : Nat} (hn : 8 * p.mark + 8 ≤ n + 3) : Steady (treeNode · k) n p := by
  intro m hnm
  unfold treeNode
  exact Lockstep.bind_run start_lock (Lockstep.bind_run
    (tokenTree_steady n [] (start_spent hs) hsb (by simpa using hn) (by simp) m hnm)
    (complete_lock k))

theorem macroCallParts_steady {n : Nat} (hn : 8 * p.mark + 8 ≤ n + 11)
    (hc : p.callAhead = true) : Steady macroCallParts n p := by
  intro m hnm
  unfold macroCallParts
  refine Lockstep.bind path_lock (path_runs (Parser.callAhead_live hc)) fun _ q₁ post => ?_
  obtain ⟨-, hm₁, -, hh₁⟩ := post
  have hbang : q₁.head ≠ .eof := by
    simp only [Parser.callAhead, Bool.and_eq_true, beq_iff_eq] at hc
    rw [hh₁, hc.2]
    decide
  refine Lockstep.bind bump_lock (bump_runs (r := 1) hbang) fun _ q₂ post => ?_
  obtain ⟨h₂, hb₂, -⟩ := post
  have hm₂ : q₂.mark < p.mark := Nat.lt_of_le_of_lt h₂.mark_le hm₁
  have hs₂ := Parser.Spent.of_budget hb₂
  exact Lockstep.bind_and (atAny_lock _ hs₂ (by decide))
    (atAny_runs [.lParen, .lBrace, .lBracket] hs₂ (by decide)) fun _ q₃ _ h₃ =>
      Lockstep.ite (fun _ => treeNode_steady _ (h₃.spent hs₂) (by decide)
        (by rw [h₃.mark_eq]; omega) m hnm) fun _ => error_lock _

theorem macroCall_steady {n : Nat} (hn : 8 * p.mark + 8 ≤ n + 11) (hc : p.callAhead = true) :
    Steady macroCall n p := by
  intro m hnm
  unfold macroCall
  exact Lockstep.bind_run start_lock (Lockstep.bind_run
    (macroCallParts_steady (by simpa using hn) (by simpa using hc) m hnm) (complete_lock _))

theorem fragmentTokens_steady (stop : List SyntaxKind) : ∀ (n : Nat) {p : Parser} {s : Nat},
    p.Spent s → s + 7 ≤ lookaheadBudget → 8 * p.mark + 8 ≤ n + 2 →
    Steady (fragmentTokens · stop) n p
  | 0, _, _, _, _, hn => absurd hn (by omega)
  | n + 1, p, s, hs, hsb, hn => by
    refine Steady.succ fun m hle => ?_
    rw [fragmentTokens, fragmentTokens]
    refine Lockstep.bind_and (atFragmentEnd_lock stop hs (by omega))
      (atFragmentEnd_runs stop hs (by omega)) fun b q₁ hb₁ h₁ =>
        Lockstep.ite (fun _ => Lockstep.pure _) fun hend => ?_
    have next : ∀ {q : Parser} {d : Nat}, q.Spent d → d ≤ 1 → q.mark < p.mark →
        Lockstep (fragmentTokens n stop) (fragmentTokens m stop) q := fun hq hd hm =>
      fragmentTokens_steady stop n (hq.mono hd) (by decide) (by omega) m hle
    refine Lockstep.bind_and (atMacroCall_lock (h₁.spent hs) (by omega))
      (atMacroCall_runs (h₁.spent hs) (by omega)) fun b q₂ hb₂ h₂ => ?_
    have h₁₂ := h₁.trans h₂
    refine Lockstep.ite (fun hb => ?_) fun _ => ?_
    · have hcall : q₂.callAhead = true := by rw [h₂.callAhead_eq, ← hb₂, hb]
      refine Lockstep.bind_and (macroCall_steady (by rw [h₁₂.mark_eq]; omega) hcall m hle)
        (macroCall_runs (by rw [h₁₂.mark_eq]; omega) hcall) fun _ q₃ h₃ hm₃ => ?_
      exact next (h₃.spent_of_consumed hm₃) le_rfl (h₁₂.mark_eq ▸ hm₃)
    refine Lockstep.bind_and (current_lock (h₁₂.spent hs) (by omega))
      (current_runs (h₁₂.spent hs) (by omega)) fun k q₃ hk h₃ => ?_
    have h₁₂₃ := h₁₂.trans h₃
    subst hk
    have hlive : q₃.head ≠ .eof := by
      rw [h₁₂₃.head_eq]
      intro h
      exact hend (by simp [hb₁, Parser.fragmentEnds, h])
    refine Lockstep.ite (fun _ => ?_) fun _ => ?_
    · refine Lockstep.bind_and (tokenTree_steady n [] (h₁₂₃.spent hs) (by omega)
        (by rw [h₁₂₃.mark_eq]; omega) (by simp) m hle)
        (tokenTree_runs n [] (h₁₂₃.spent hs) (by omega) (by rw [h₁₂₃.mark_eq]; omega)
          (by simp))
        fun _ q₄ h₄ hm₄ => ?_
      exact next (h₄.spent_of_consumed (hm₄ hlive)) (Nat.zero_le _)
        (Nat.lt_of_lt_of_le (hm₄ hlive) (h₁₂₃.mark_eq ▸ le_rfl))
    · refine Lockstep.bind bump_lock (bump_runs (r := 2) hlive) fun _ q₄ post => ?_
      obtain ⟨-, hb₄, hm₄, -⟩ := post
      exact next (Parser.Spent.of_budget hb₄) (Nat.zero_le _) (h₁₂₃.mark_eq ▸ hm₄)

theorem fragment_steady (k : SyntaxKind) (stop : List SyntaxKind) (hs : p.Spent s)
    (hsb : s + 10 ≤ lookaheadBudget) {n : Nat} (hn : 8 * p.mark + 8 ≤ n + 2) :
    Steady (fragment · k stop) n p := by
  intro m hnm
  unfold fragment
  exact Lockstep.bind_and (atFragmentEnd_lock stop hs (by omega))
    (atFragmentEnd_runs stop hs (by omega)) fun _ _ _ h₁ =>
      Lockstep.ite (fun _ => error_lock _) fun _ =>
        Lockstep.bind_run start_lock (Lockstep.bind_run (fragmentTokens_steady stop n
          (start_spent (h₁.spent hs)) (by omega) (by simpa [h₁.mark_eq] using hn) m hnm)
          (complete_lock k))

theorem attr_steady {n : Nat} (hn : 8 * p.mark + 8 ≤ n + 11) (hp : p.head ≠ .eof) :
    Steady attr n p := by
  intro m hnm
  unfold attr
  have tail : ∀ {q : Parser} {d : Nat}, q.Spent d → d ≤ 2 → q.mark < p.mark → Lockstep (do
      let b ← atKind .lParen
      if b = true then do treeNode n .attrArgs; expect .rBracket; complete .attr
      else do expect .rBracket; complete .attr) (do
      let b ← atKind .lParen
      if b = true then do treeNode m .attrArgs; expect .rBracket; complete .attr
      else do expect .rBracket; complete .attr) q := by
    intro q d hs hd hm
    have hs := hs.mono hd
    refine Lockstep.bind_and (atKind_lock .lParen hs (by decide))
      (atKind_runs .lParen hs (by decide)) fun b q₅ hb₅ h₅ =>
        Lockstep.ite (fun hb => ?_) fun _ =>
          Lockstep.bind_run (expect_lock .rBracket (by decide) (h₅.spent hs) (by decide))
            (complete_lock _)
    have hlive := h₅.live_of_found (by decide) hb₅ hb
    exact Lockstep.bind_and (treeNode_steady _ (h₅.spent hs) (by decide)
      (by rw [h₅.mark_eq]; omega) m hnm) (treeNode_runs .attrArgs rfl (h₅.spent hs) (by decide)
        (by rw [h₅.mark_eq]; omega) hlive (by simp)) fun _ u hu hmu =>
      Lockstep.bind_run (expect_lock .rBracket (by decide) (hu.spent_of_consumed hmu)
        (by decide)) (complete_lock _)
  refine Lockstep.bind_run start_lock ?_
  refine Lockstep.bind bump_lock (bump_runs (r := 1) (by simpa using hp)) fun _ q₁ post => ?_
  obtain ⟨-, hb₁, hm₁, -⟩ := post
  have hm₁' : q₁.mark < p.mark := by simpa using hm₁
  have hs₁ := Parser.Spent.of_budget hb₁
  refine Lockstep.bind_and (expect_lock .lBracket (by decide) hs₁ (by decide))
    (expect_runs (r := 1) .lBracket (by decide) hs₁ (by decide)) fun _ q₂ h₂ _ => ?_
  have hm₂ : q₂.mark < p.mark := Nat.lt_of_le_of_lt h₂.mark_le hm₁'
  have hs₂ := h₂.spent hs₁
  refine Lockstep.bind_and (atKind_lock .ident hs₂ (by decide))
    (atKind_runs .ident hs₂ (by decide)) fun b q₃ hb₃ h₃ =>
      Lockstep.ite (fun hb => ?_) fun _ => ?_
  · exact Lockstep.bind_and path_lock (path_runs (h₃.live_of_found (by decide) hb₃ hb))
      fun _ q₄ _ h₄ =>
        tail (Parser.Spent.of_budget h₄.2.1) (Nat.zero_le _)
          (Nat.lt_trans h₄.1 (h₃.mark_eq ▸ hm₂))
  · exact Lockstep.bind (error_lock _) (error_runs _) fun _ q₄ h₄ =>
      tail ((h₃.trans h₄).spent hs₂) le_rfl (by rw [h₄.mark_eq, h₃.mark_eq]; exact hm₂)

theorem attrs_steady : ∀ (n : Nat) {p : Parser} {s : Nat}, p.Spent s → s < lookaheadBudget →
    8 * p.mark + 8 ≤ n + 7 → Steady attrs n p
  | 0, _, _, _, _, hn => absurd hn (by omega)
  | n + 1, p, s, hs, hsb, hn => by
    refine Steady.succ fun m hle => ?_
    rw [attrs, attrs]
    refine Lockstep.bind_and (atKind_lock .pound hs hsb) (atKind_runs .pound hs hsb)
      fun b q₁ hb₁ h₁ => Lockstep.ite (fun hb => ?_) fun _ => Lockstep.pure _
    have hlive := h₁.live_of_found (by decide) hb₁ hb
    refine Lockstep.bind_and (attr_steady (by rw [h₁.mark_eq]; omega) hlive m hle)
      (attr_runs (n := n) (by rw [h₁.mark_eq]; omega) hlive) fun _ q₂ h₂ hm₂ => ?_
    rw [h₁.mark_eq] at hm₂
    exact attrs_steady n (h₂.spent_of_consumed (h₁.mark_eq ▸ hm₂)) (by decide) (by omega)
      m hle

/-! ### Items and statements -/

def BodySteady (f : Nat → ParseM Unit) (n : Nat) : Prop :=
  ∀ {p : Parser}, p.head ≠ .eof → 8 * p.mark + 8 ≤ n + 3 → Steady f n p

/-- The item and statement grammar at allowance `n` runs in lockstep with any larger allowance,
under the preconditions of its contracts with room for one more token. -/
structure Steadiness (n : Nat) : Prop where
  itemsUntil : ∀ (stop : SyntaxKind) {p : Parser} {s : Nat}, p.Spent s →
    s + 9 ≤ lookaheadBudget → 8 * p.mark + 8 ≤ n → Steady (itemsUntil · stop) n p
  item : ∀ {p : Parser} {s : Nat}, p.Spent s → s + 4 ≤ lookaheadBudget →
    8 * p.mark + 8 ≤ n + 2 → Steady item n p
  structItem : BodySteady structItem n
  fnItem : BodySteady fnItem n
  modItem : BodySteady modItem n
  typeAlias : BodySteady typeAlias n
  block : ∀ {p : Parser}, p.head ≠ .eof → 8 * p.mark + 8 ≤ n → Steady block n p
  stmtsUntil : ∀ (stop : SyntaxKind) {p : Parser} {s : Nat}, p.Spent s →
    s + 18 ≤ lookaheadBudget → 8 * p.mark + 8 ≤ n → Steady (stmtsUntil · stop) n p
  stmt : ∀ {p : Parser} {s : Nat}, p.head ≠ .eof → p.Spent s → s + 16 ≤ lookaheadBudget →
    8 * p.mark + 8 ≤ n + 1 → Steady stmt n p
  letStmt : ∀ {p : Parser}, p.head ≠ .eof → 8 * p.mark + 8 ≤ n + 2 → Steady letStmt n p

variable {n m : Nat}

theorem keyword_lock (hle : n ≤ m) {f f' : Unit → ParseM Unit} (hp : p.head ≠ .eof)
    (hn : p.mark ≤ n + 1) (h : ∀ q, p.Took 3 4 q → Lockstep (f ()) (f' ()) q) :
    Lockstep (bump >>= fun _ => name >>= fun _ => genericParams n >>= f)
      (bump >>= fun _ => name >>= fun _ => genericParams m >>= f') p := by
  refine Lockstep.bind bump_lock (bump_runs (r := 3) hp) fun _ q₁ post => ?_
  obtain ⟨h₁, hb₁, hm₁, hh₁, -⟩ := post
  have t₁ : p.Took 3 0 q₁ := ⟨h₁, hm₁, hh₁⟩
  have hs₁ := Parser.Spent.of_budget hb₁
  refine Lockstep.bind_and (name_lock hs₁ (by decide)) (name_runs hs₁ (by decide))
    fun _ q₂ h₂ _ => ?_
  have hm₂ := h₂.mark_le
  refine Lockstep.bind (genericParams_steady (h₂.spent hs₁) (by decide) (by omega) m hle)
    (genericParams_runs (n := n) (h₂.spent hs₁) (by decide)) fun _ q₃ h₃ => ?_
  exact h q₃ ((t₁.next ((h₂.mono (by omega) le_rfl le_rfl).trans
    (h₃.mono (by omega) le_rfl le_rfl))).mono le_rfl (by omega))

theorem braced_lock {x x' : ParseM Unit} {k : SyntaxKind} {r' : Nat} (hp : p.head ≠ .eof)
    (hx : ∀ {q : Parser}, q.Spent 0 → q.mark < p.mark →
      Lockstep x x' q ∧ Runs x q fun _ u => Parser.Step r' 2 14 q u) :
    Lockstep (do start; bump; x; expect .rBrace; complete k)
      (do start; bump; x'; expect .rBrace; complete k) p := by
  refine Lockstep.bind_run start_lock ?_
  refine Lockstep.bind bump_lock (bump_runs (r := 0) (by simpa using hp)) fun _ q₁ post => ?_
  obtain ⟨-, hb₁, hm₁, -⟩ := post
  have hs₁ := Parser.Spent.of_budget hb₁
  obtain ⟨hl, hr⟩ := hx hs₁ (by simpa using hm₁)
  exact Lockstep.bind hl hr fun _ _ h₂ => Lockstep.bind_run
    (expect_lock .rBrace (by decide) (h₂.spent hs₁) (by decide)) (complete_lock k)

theorem macroItem_lock (hle : n ≤ m) (hn : 8 * p.mark + 8 ≤ n + 11)
    (hc : p.callAhead = true) :
    Lockstep (do macroCallParts n; let _ ← eat .semicolon; complete .macroCall)
      (do macroCallParts m; let _ ← eat .semicolon; complete .macroCall) p :=
  Lockstep.bind_and (macroCallParts_steady hn hc m hle) (macroCallParts_runs (by omega) hc)
    fun _ _ h₁ hm₁ => Lockstep.bind_run (eat_lock .semicolon (h₁.spent_of_consumed hm₁)
      (by decide)) (complete_lock _)

theorem structItem_steady_succ : BodySteady structItem (n + 1) := by
  intro p hp hn
  refine Steady.succ fun m hle => ?_
  rw [structItem, structItem]
  refine keyword_lock hle hp (by omega) fun q hq => ?_
  refine Lockstep.bind_and (current_lock hq.spent (by decide)) (current_runs hq.spent (by decide))
    fun k q₁ hk h₁ => ?_
  have t₁ := hq.peek h₁
  have hm := t₁.lt
  split
  · exact treeNode_steady _ t₁.spent (by decide) (by omega) m hle
  · refine Lockstep.bind_and (treeNode_steady _ t₁.spent (by decide) (by omega) m hle)
      (treeNode_runs .fieldList rfl t₁.spent (by decide) (by omega)
        (by rw [h₁.head_eq, ← hk]; decide) (by simp)) fun _ u hu hmu => ?_
    exact expect_lock .semicolon (by decide) (hu.spent_of_consumed hmu) (by decide)
  · exact expect_lock .semicolon (by decide) t₁.spent (by decide)

theorem typeAlias_steady_succ : BodySteady typeAlias (n + 1) := by
  intro p hp hn
  refine Steady.succ fun m hle => ?_
  rw [typeAlias, typeAlias]
  refine keyword_lock hle hp (by omega) fun q hq => ?_
  refine Lockstep.bind (expect_lock .eq (by decide) hq.spent (by decide))
    (expect_runs (r := 3) .eq (by decide) hq.spent (by decide)) fun _ q₁ h₁ => ?_
  have t₁ := (hq.next h₁.1).mono le_rfl (show _ ≤ 5 by omega)
  have hm := t₁.lt
  refine Lockstep.bind (fragment_steady _ [.semicolon] t₁.spent (by decide) (by omega) m hle)
    (fragment_runs rfl [.semicolon] t₁.spent (by decide) (by omega)) fun _ q₂ h₂ => ?_
  have t₂ := (t₁.next h₂.1).mono le_rfl (show _ ≤ 11 by omega)
  exact expect_lock .semicolon (by decide) t₂.spent (by decide)

theorem modItem_steady_succ (hl : Steadiness n) : BodySteady modItem (n + 1) := by
  intro p hp hn
  refine Steady.succ fun m hle => ?_
  rw [modItem, modItem]
  refine Lockstep.bind bump_lock (bump_runs (r := 3) hp) fun _ q₁ post => ?_
  obtain ⟨h₁, hb₁, hm₁, hh₁, -⟩ := post
  have t₁ : p.Took 3 0 q₁ := ⟨h₁, hm₁, hh₁⟩
  have hs₁ := Parser.Spent.of_budget hb₁
  refine Lockstep.bind_and (name_lock hs₁ (by decide)) (name_runs hs₁ (by decide))
    fun _ q₂ h₂ _ => ?_
  have t₂ := (t₁.next (h₂.mono (by omega) le_rfl le_rfl)).mono le_rfl (show _ ≤ 1 by omega)
  refine Lockstep.bind_and (atKind_lock .lBrace t₂.spent (by decide))
    (atKind_runs .lBrace t₂.spent (by decide)) fun b q₃ hb₃ h₃ =>
      Lockstep.ite (fun hb => ?_) fun _ =>
        expect_lock .semicolon (by decide) (t₂.peek h₃).spent (by decide)
  have hm := (t₂.peek h₃).lt
  exact braced_lock (h₃.live_of_found (by decide) hb₃ hb) fun hq hmq =>
    ⟨hl.itemsUntil .rBrace hq (by decide) (by omega) m hle,
      ((contracts n).itemsUntil .rBrace hq (by decide) (by omega)).mono fun _ _ h => h.1⟩

theorem block_steady_succ (hl : Steadiness n) {p : Parser} (hp : p.head ≠ .eof)
    (hn : 8 * p.mark + 8 ≤ n + 1) : Steady block (n + 1) p := by
  refine Steady.succ fun m hle => ?_
  rw [block, block]
  exact braced_lock hp fun hq hmq =>
    ⟨hl.stmtsUntil .rBrace hq (by decide) (by omega) m hle,
      ((contracts n).stmtsUntil .rBrace hq (by decide) (by omega)).mono fun _ _ h => h.1⟩

theorem fnItem_steady_succ (hl : Steadiness n) : BodySteady fnItem (n + 1) := by
  intro p hp hn
  refine Steady.succ fun m hle => ?_
  rw [fnItem, fnItem]
  have body : ∀ {q : Parser}, p.Took 3 7 q →
      Lockstep (do if (← atKind .lBrace) then block n else expect .semicolon)
        (do if (← atKind .lBrace) then block m else expect .semicolon) q := by
    intro q hq
    refine Lockstep.bind_and (atKind_lock .lBrace hq.spent (by decide))
      (atKind_runs .lBrace hq.spent (by decide)) fun b q₁ hb₁ h₁ =>
        Lockstep.ite (fun hb => ?_) fun _ =>
          expect_lock .semicolon (by decide) (hq.peek h₁).spent (by decide)
    have hm := (hq.peek h₁).lt
    exact hl.block (h₁.live_of_found (by decide) hb₁ hb) (by omega) m hle
  have ret : ∀ {q : Parser}, p.Took 3 5 q → Lockstep (do
      if (← atKind .minus) then
        if (← nth 1) == .gt then
          bump; bump
          fragment n .typeRef [.lBrace]
      if (← atKind .lBrace) then block n else expect .semicolon) (do
      if (← atKind .minus) then
        if (← nth 1) == .gt then
          bump; bump
          fragment m .typeRef [.lBrace]
      if (← atKind .lBrace) then block m else expect .semicolon) q := by
    intro q hq
    refine Lockstep.bind_and (atKind_lock .minus hq.spent (by decide))
      (atKind_runs .minus hq.spent (by decide)) fun b q₁ hb₁ h₁ =>
        Lockstep.ite (fun hb => ?_) fun _ => body ((hq.peek h₁).mono le_rfl (by omega))
    have t₁ := hq.peek h₁
    have hlive := h₁.live_of_found (by decide) hb₁ hb
    refine Lockstep.bind_and (nth_lock t₁.spent (by decide) (.inr hlive))
      (nth_runs 1 t₁.spent (by decide) (.inr hlive)) fun k q₂ hk h₂ =>
        Lockstep.ite (fun hgt => ?_) fun _ => body ((t₁.peek h₂).mono le_rfl (by omega))
    have t₂ := t₁.peek h₂
    refine Lockstep.bind bump_lock (bump_runs (r := 3) (by rwa [h₂.head_eq]))
      fun _ q₃ post => ?_
    obtain ⟨h₃, -, hm₃, -, hh₃⟩ := post
    have hgt : q₃.head ≠ .eof := by
      rw [hh₃, h₂.rest, ← hk, eq_of_beq hgt]
      decide
    refine Lockstep.bind bump_lock (bump_runs (r := 3) hgt) fun _ q₄ post => ?_
    obtain ⟨h₄, -⟩ := post
    have t₄ := t₂.next_consumed (h₃.trans h₄) fun _ => Nat.lt_of_le_of_lt h₄.mark_le hm₃
    have hm := t₄.lt
    exact Lockstep.bind_and (fragment_steady _ [.lBrace] t₄.spent (by decide) (by omega) m hle)
      (fragment_runs rfl [.lBrace] t₄.spent (by decide) (by omega)) fun _ q₅ h₅ _ =>
        body ((t₄.next h₅).mono le_rfl (by omega))
  refine keyword_lock hle hp (by omega) fun q hq => ?_
  refine Lockstep.bind_and (atKind_lock .lParen hq.spent (by decide))
    (atKind_runs .lParen hq.spent (by decide)) fun b q₁ hb₁ h₁ =>
      Lockstep.ite (fun hb => ?_) fun _ =>
        Lockstep.bind (error_lock _) (error_runs _) fun _ _ hu => ret ((hq.peek h₁).peek hu)
  have t₁ := hq.peek h₁
  have hm := t₁.lt
  exact Lockstep.bind_and (treeNode_steady _ t₁.spent (by decide) (by omega) m hle)
    (treeNode_runs .paramList rfl t₁.spent (by decide) (by omega)
      (h₁.live_of_found (by decide) hb₁ hb) (by simp))
      fun _ u hu hmu => ret ((t₁.next_consumed (hu.mono (by omega) le_rfl le_rfl)
        fun _ => hmu).mono le_rfl (Nat.zero_le _))

theorem itemsUntil_steady_succ (hl : Steadiness n) (stop : SyntaxKind) {p : Parser} {s : Nat}
    (hs : p.Spent s) (hsb : s + 9 ≤ lookaheadBudget) (hn : 8 * p.mark + 8 ≤ n + 1) :
    Steady (itemsUntil · stop) (n + 1) p := by
  refine Steady.succ fun m hle => ?_
  rw [itemsUntil, itemsUntil]
  have rest : ∀ {q : Parser} {d : Nat}, q.Spent d → d ≤ 12 → q.mark < p.mark →
      Lockstep (itemsUntil n stop) (itemsUntil m stop) q := fun hq hd hm =>
    hl.itemsUntil stop (hq.mono hd) (by decide) (by omega) m hle
  refine Lockstep.bind_and (atKind_lock stop hs (by omega)) (atKind_runs stop hs (by omega))
    fun _ q₁ _ h₁ => Lockstep.ite (fun _ => Lockstep.pure _) fun _ => ?_
  refine Lockstep.bind_and (atEnd_lock (h₁.spent hs) (by omega))
    (atEnd_runs (h₁.spent hs) (by omega)) fun b q₂ hb₂ h₂ =>
      Lockstep.ite (fun _ => Lockstep.pure _) fun hend => ?_
  have h₁₂ := h₁.trans h₂
  refine Lockstep.bind_and (atItemStart_lock (h₁₂.spent hs) (by omega))
    (atItemStart_runs (h₁₂.spent hs) (by omega)) fun b q₃ hb₃ h₃ => ?_
  have h₁₃ := h₁₂.trans h₃
  refine Lockstep.ite (fun hb => ?_) fun _ => ?_
  · have hahead : q₃.itemAhead = true := by rw [h₃.itemAhead_eq, ← hb₃, hb]
    exact Lockstep.bind_and
      (hl.item (h₁₃.spent hs) (by omega) (by rw [h₁₃.mark_eq]; omega) m hle)
      ((contracts n).item hahead (h₁₃.spent hs) (by omega) (by rw [h₁₃.mark_eq]; omega))
        fun _ u hu hmu => rest (hu.spent_of_consumed hmu) le_rfl (h₁₃.mark_eq ▸ hmu)
  · have hlive : q₃.head ≠ .eof := by
      rw [h₃.head_eq]
      exact h₂.live_of_not_end hb₂ hend
    exact Lockstep.bind_and (errorBump_lock _ (h₁₃.spent hs) (by omega))
      (errorBump_runs (r := 2) _ (h₁₃.spent hs) (by omega) le_rfl) fun _ u hu hmu =>
        rest (hu.spent_of_consumed (hmu hlive)) (Nat.zero_le _) (h₁₃.mark_eq ▸ hmu hlive)

theorem stmtsUntil_steady_succ (hl : Steadiness n) (stop : SyntaxKind) {p : Parser} {s : Nat}
    (hs : p.Spent s) (hsb : s + 18 ≤ lookaheadBudget) (hn : 8 * p.mark + 8 ≤ n + 1) :
    Steady (stmtsUntil · stop) (n + 1) p := by
  refine Steady.succ fun m hle => ?_
  rw [stmtsUntil, stmtsUntil]
  refine Lockstep.bind_and (atKind_lock stop hs (by omega)) (atKind_runs stop hs (by omega))
    fun _ q₁ _ h₁ => Lockstep.ite (fun _ => Lockstep.pure _) fun _ => ?_
  refine Lockstep.bind_and (atEnd_lock (h₁.spent hs) (by omega))
    (atEnd_runs (h₁.spent hs) (by omega)) fun b q₂ hb₂ h₂ =>
      Lockstep.ite (fun _ => Lockstep.pure _) fun hend => ?_
  have h₁₂ := h₁.trans h₂
  have hlive := h₂.live_of_not_end hb₂ hend
  exact Lockstep.bind_and
    (hl.stmt hlive (h₁₂.spent hs) (by omega) (by rw [h₁₂.mark_eq]; omega) m hle)
    ((contracts n).stmt hlive (h₁₂.spent hs) (by omega) (by rw [h₁₂.mark_eq]; omega))
      fun _ u hu hmu => hl.stmtsUntil stop (hu.spent_of_consumed hmu) (by decide)
        (by rw [h₁₂.mark_eq] at hmu; omega) m hle

theorem letStmt_steady_succ {p : Parser} (hp : p.head ≠ .eof) (hn : 8 * p.mark + 8 ≤ n + 3) :
    Steady letStmt (n + 1) p := by
  refine Steady.succ fun m hle => ?_
  rw [letStmt, letStmt]
  have eqPart : ∀ {q : Parser} {d : Nat}, q.Spent d → d ≤ 7 → q.mark < p.mark → Lockstep (do
      if (← eat .eq) then fragment n .expr [.semicolon]
      expect .semicolon
      complete .letStmt) (do
      if (← eat .eq) then fragment m .expr [.semicolon]
      expect .semicolon
      complete .letStmt) q := by
    intro q d hq hd hm
    have hq := hq.mono hd
    refine Lockstep.bind_and (eat_lock .eq hq (by decide)) (eat_runs (r := 3) .eq (by decide) hq
      (by decide)) fun b q₁ _ h₁ => Lockstep.ite (fun hb => ?_) fun _ =>
        Lockstep.bind_run (expect_lock .semicolon (by decide) (h₁.1.spent hq) (by decide))
          (complete_lock _)
    obtain ⟨hbud, hm₁⟩ := h₁.2 hb
    have hs₁ := Parser.Spent.of_budget hbud
    exact Lockstep.bind_and (fragment_steady _ [.semicolon] hs₁ (by decide) (by omega) m hle)
      (fragment_runs rfl [.semicolon] hs₁ (by decide) (by omega)) fun _ _ h₂ _ =>
        Lockstep.bind_run (expect_lock .semicolon (by decide) (h₂.spent hs₁) (by decide))
          (complete_lock _)
  refine Lockstep.bind_run start_lock ?_
  refine Lockstep.bind bump_lock (bump_runs (r := 3) (by simpa using hp)) fun _ q₁ post => ?_
  obtain ⟨-, hb₁, hm₁, -⟩ := post
  have hm₁ : q₁.mark < p.mark := by simpa using hm₁
  have hs₁ := Parser.Spent.of_budget hb₁
  refine Lockstep.bind_and (fragment_steady _ [.colon, .eq, .semicolon] hs₁ (by decide) (by omega)
    m hle) (fragment_runs rfl [.colon, .eq, .semicolon] hs₁ (by decide) (by omega))
      fun _ q₂ h₂ _ => ?_
  have hs₂ := h₂.spent hs₁
  have hm₂ := Nat.lt_of_le_of_lt h₂.mark_le hm₁
  refine Lockstep.bind_and (eat_lock .colon hs₂ (by decide)) (eat_runs (r := 3) .colon (by decide)
    hs₂ (by decide)) fun b q₃ _ h₃ => Lockstep.ite (fun hb => ?_) fun _ =>
      eqPart (h₃.1.spent hs₂) (by omega) (Nat.lt_of_le_of_lt h₃.1.mark_le hm₂)
  obtain ⟨hbud, hm₃⟩ := h₃.2 hb
  have hs₃ := Parser.Spent.of_budget hbud
  exact Lockstep.bind_and (fragment_steady _ [.eq, .semicolon] hs₃ (by decide) (by omega) m hle)
    (fragment_runs rfl [.eq, .semicolon] hs₃ (by decide) (by omega)) fun _ _ h₄ _ =>
      eqPart (h₄.spent hs₃) (by omega) (Nat.lt_of_le_of_lt h₄.mark_le (by omega))

theorem stmt_steady_succ (hl : Steadiness n) {p : Parser} {s : Nat} (hp : p.head ≠ .eof)
    (hs : p.Spent s) (hsb : s + 16 ≤ lookaheadBudget) (hn : 8 * p.mark + 8 ≤ n + 2) :
    Steady stmt (n + 1) p := by
  refine Steady.succ fun m hle => ?_
  rw [stmt, stmt]
  refine Lockstep.bind_and (current_lock hs (by omega)) (current_runs hs (by omega))
    fun k q₁ _ h₁ => ?_
  have hlive₁ : q₁.head ≠ .eof := by rwa [h₁.head_eq]
  split
  · exact hl.letStmt hlive₁ (by rw [h₁.mark_eq]; omega) m hle
  · exact bump_lock
  refine Lockstep.bind_and (atMacroCall_lock (h₁.spent hs) (by omega))
    (atMacroCall_runs (h₁.spent hs) (by omega)) fun b q₂ hb₂ h₂ => ?_
  have h₁₂ := h₁.trans h₂
  refine Lockstep.ite (fun hb => ?_) fun _ => ?_
  · have hcall : q₂.callAhead = true := by rw [h₂.callAhead_eq, ← hb₂, hb]
    exact Lockstep.bind_run start_lock (macroItem_lock hle
      (by rw [start_run_mark, h₁₂.mark_eq]; omega) (by rwa [Parser.callAhead_start]))
  refine Lockstep.bind_and (atItemStart_lock (h₁₂.spent hs) (by omega))
    (atItemStart_runs (h₁₂.spent hs) (by omega)) fun _ q₃ _ h₃ => ?_
  have h₁₃ := h₁₂.trans h₃
  refine Lockstep.ite (fun _ => ?_) fun _ =>
    Lockstep.ite (fun _ => errorBump_lock _ (h₁₃.spent hs) (by omega)) fun _ => ?_
  · exact hl.item (h₁₃.spent hs) (by omega) (by rw [h₁₃.mark_eq]; omega) m hle
  have hs₃ := start_spent (h₁₃.spent hs)
  refine Lockstep.bind_run start_lock ?_
  exact Lockstep.bind_and (fragment_steady _ [.semicolon] hs₃ (by omega)
    (by rw [start_run_mark, h₁₃.mark_eq]; omega) m hle) (fragment_runs rfl [.semicolon] hs₃
      (by omega) (by rw [start_run_mark, h₁₃.mark_eq]; omega)) fun _ _ h₄ _ =>
    Lockstep.bind_run (eat_lock .semicolon (h₄.spent hs₃) (by omega)) (complete_lock _)

theorem item_steady_succ (hl : Steadiness n) {p : Parser} {s : Nat} (hs : p.Spent s)
    (hsb : s + 4 ≤ lookaheadBudget) (hn : 8 * p.mark + 8 ≤ n + 3) : Steady item (n + 1) p := by
  refine Steady.succ fun m hle => ?_
  rw [item, item]
  have hL : lookaheadBudget = 256 := rfl
  refine Lockstep.bind_run start_lock ?_
  refine Lockstep.bind_and (attrs_steady n (start_spent hs) (by omega)
    (by rw [start_run_mark]; omega) m hle) (attrs_runs n (start_spent hs) (by omega)
      (by rw [start_run_mark]; omega)) fun _ q₁ h₁ _ => ?_
  have hs₁ := h₁.spent (start_spent hs)
  refine Lockstep.bind_and (current_lock hs₁ (by omega)) (current_runs hs₁ (by omega))
    fun k q₂ hk h₂ => ?_
  have hm₂ : q₂.mark ≤ p.mark := by simpa using (h₁.trans h₂.step).mark_le
  split
  · exact Lockstep.bind_run (hl.structItem (by rw [h₂.head_eq, ← hk]; decide) (by omega) m hle)
      (complete_lock _)
  · exact Lockstep.bind_run (hl.fnItem (by rw [h₂.head_eq, ← hk]; decide) (by omega) m hle)
      (complete_lock _)
  · exact Lockstep.bind_run (hl.modItem (by rw [h₂.head_eq, ← hk]; decide) (by omega) m hle)
      (complete_lock _)
  · exact Lockstep.bind_run (hl.typeAlias (by rw [h₂.head_eq, ← hk]; decide) (by omega) m hle)
      (complete_lock _)
  refine Lockstep.bind_and (atMacroCall_lock (h₂.spent hs₁) (by omega))
    (atMacroCall_runs (h₂.spent hs₁) (by omega)) fun b q₃ hb₃ h₃ =>
      Lockstep.ite (fun hb => ?_) fun _ => Lockstep.bind_run (error_lock _) (complete_lock _)
  have hcall : q₃.callAhead = true := by rw [h₃.callAhead_eq, ← hb₃, hb]
  exact macroItem_lock hle (by rw [h₃.mark_eq]; omega) hcall

theorem steadiness_zero : Steadiness 0 where
  itemsUntil _ _ _ _ _ hn := absurd hn (by omega)
  item _ _ hn := absurd hn (by omega)
  structItem _ hn := absurd hn (by omega)
  fnItem _ hn := absurd hn (by omega)
  modItem _ hn := absurd hn (by omega)
  typeAlias _ hn := absurd hn (by omega)
  block _ hn := absurd hn (by omega)
  stmtsUntil _ _ _ _ _ hn := absurd hn (by omega)
  stmt _ _ _ hn := absurd hn (by omega)
  letStmt _ hn := absurd hn (by omega)

theorem steadiness : ∀ n, Steadiness n
  | 0 => steadiness_zero
  | n + 1 =>
    have h := steadiness n
    { itemsUntil := itemsUntil_steady_succ h
      item := item_steady_succ h
      structItem := structItem_steady_succ
      fnItem := fnItem_steady_succ h
      modItem := modItem_steady_succ h
      typeAlias := typeAlias_steady_succ
      block := block_steady_succ h
      stmtsUntil := stmtsUntil_steady_succ h
      stmt := stmt_steady_succ h
      letStmt := letStmt_steady_succ }

/-! ### Whole parses -/

theorem fragmentRounds_steady : ∀ (n : Nat) {p : Parser}, p.Spent 0 → 8 * p.mark + 8 ≤ n →
    Steady fragmentRounds n p
  | 0, _, _, hn => absurd hn (by omega)
  | n + 1, p, hs, hn => by
    refine Steady.succ fun m hle => ?_
    rw [fragmentRounds, fragmentRounds]
    refine Lockstep.bind_and (fragmentTokens_steady [] n hs (by decide) (by omega) m hle)
      (fragmentTokens_runs [] n hs (by decide) (by omega)) fun _ q₁ h₁ _ => ?_
    have hs₁ := h₁.spent hs
    refine Lockstep.bind_and (atEnd_lock hs₁ (by decide)) (atEnd_runs hs₁ (by decide))
      fun b q₂ hb₂ h₂ => Lockstep.ite (fun _ => Lockstep.pure _) fun hend => ?_
    have hlive := h₂.live_of_not_end hb₂ hend
    refine Lockstep.bind_and (errorBump_lock _ (h₂.spent hs₁) (by decide))
      (errorBump_runs (r := 2) _ (h₂.spent hs₁) (by decide) le_rfl)
        fun _ q₃ h₃ hm₃ => ?_
    have hm : q₃.mark < p.mark := Nat.lt_of_lt_of_le (hm₃ hlive) (h₂.mark_eq ▸ h₁.mark_le)
    exact fragmentRounds_steady n (h₃.spent_of_consumed (hm₃ hlive)) (by omega) m hle

theorem entryBody_steady (n : Nat) (entry : EntryPoint) {p : Parser} (hs : p.Spent 0)
    (hn : 8 * p.mark + 8 ≤ n) : Steady (entryBody · entry) n p := by
  intro m hnm
  cases entry with
  | sourceFile | items => exact (steadiness n).itemsUntil .eof hs (by decide) hn m hnm
  | stmts => exact (steadiness n).stmtsUntil .eof hs (by decide) hn m hnm
  | expr | pat | type | lifetime => exact fragmentRounds_steady n hs hn m hnm

end Grammar

/-- A parse never reaches its limits: its body runs to the end of the input, and a larger step
allowance or extra peeks past the lookahead budget change nothing in its final state but the
reserve. -/
theorem parse_unchanged_by_larger_limits (text : String) (entry : EntryPoint) (extra peeks : Nat) :
    let q := ((Grammar.entryBody (stepAllowance (lex text)) entry).run (Parser.init (lex text))).2
    q.head = .eof ∧
      ((Grammar.entryBody (stepAllowance (lex text) + extra) entry).run
        { Parser.init (lex text) with reserve := peeks }).2.withoutReserve = q := by
  intro q
  have hfuel : 8 * (Parser.init (lex text)).mark + 8 ≤ stepAllowance (lex text) := by
    have := List.length_dropWhile_le (fun t : Token => t.kind.isTrivia) (lex text)
    simp only [Parser.mark, stepAllowance]
    exact Nat.le_trans (Nat.add_le_add_right (Nat.mul_le_mul_left 8 this) 8) (by omega)
  refine ⟨(Grammar.entryBody_runs _ entry (Parser.Spent.of_budget rfl) (by omega)).2, ?_⟩
  exact (Grammar.entryBody_steady _ entry (Parser.Spent.of_budget rfl) hfuel _
    (Nat.le_add_right _ _) _ rfl).2

end MacroTrace
