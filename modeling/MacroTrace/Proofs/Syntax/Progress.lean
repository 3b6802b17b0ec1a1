import Mathlib.Data.List.DropRight
import MacroTrace.Proofs.Syntax.Delimiters

/-! Progress of the parser. Lookahead is rationed: a peek spends one unit of a budget that only a
consumed token restores, and with the budget spent every peek sees the end of input. Every grammar
function also runs on a step allowance. Both are generous. Between two consumed tokens the grammar
peeks a bounded number of times, and every round of a loop and every level of nesting consumes a
token, so neither runs out while a significant token remains (`Step`, and one lemma per grammar
function). Every peek therefore sees the true next token, and every node the grammar closes holds
text. Down a chain of only children the kinds strictly fall in rank, so no node spans exactly
the text of a node of its own kind below it (`Green.distinct`). While no count placing a token
is capped, every macro argument the grammar closes holds the one token tree it read from its
opening delimiter (`Green.delimited`). -/
namespace MacroTrace

namespace SyntaxKind

def chainRank : SyntaxKind → Nat
  | sourceFile | macroItems | macroStmts | macroExpr | macroPat | macroType | macroLifetime => 4
  | exprStmt => 3
  | expr | pat | typeRef => 2
  | macroCall | errorNode => 1
  | _ => 0

theorem closer?_ne_eof {k c : SyntaxKind} (h : k.closer? = some c) : k ≠ .eof ∧ c ≠ .eof := by
  cases k <;> simp [closer?] at h <;> subst h <;> decide

end SyntaxKind

namespace Green

def rank : Green → Nat
  | token _ => 0
  | node k _ => k.chainRank + 1

def soleBelow (k : SyntaxKind) : List Green → Bool
  | [c] => decide (c.rank ≤ k.chainRank)
  | _ => true

mutual
/-- Whether every node of the tree holds a token and ranks above its only child. -/
def distinct : Green → Bool
  | token _ => true
  | node k cs => !(tokensList cs).isEmpty && soleBelow k cs && distinctList cs

def distinctList : List Green → Bool
  | [] => true
  | g :: gs => distinct g && distinctList gs
end

@[simp] theorem rank_token (t : Token) : (token t).rank = 0 := rfl

@[simp] theorem distinct_token (t : Token) : (token t).distinct = true := by simp [distinct]

@[simp] theorem distinct_node (k : SyntaxKind) (cs : List Green) :
    (node k cs).distinct = (!(tokensList cs).isEmpty && soleBelow k cs && distinctList cs) := by
  simp [distinct]

theorem distinctList_eq_true {cs : List Green} :
    distinctList cs = true ↔ ∀ c ∈ cs, c.distinct = true := by
  induction cs with
  | nil => simp [distinctList]
  | cons g gs ih => simp [distinctList, ih]

theorem soleBelow_of {k : SyntaxKind} {cs : List Green}
    (h : (∃ t, token t ∈ cs) ∨ ∀ c ∈ cs, c.rank ≤ k.chainRank) : soleBelow k cs = true := by
  match cs, h with
  | [c], .inl ⟨t, ht⟩ =>
    rw [List.mem_singleton] at ht
    subst ht
    simp [soleBelow]
  | [c], .inr h => simpa [soleBelow] using h c (by simp)
  | [], _ => rfl
  | _ :: _ :: _, _ => rfl

def significantEdges (ts : List Token) : Bool :=
  ts.head?.any (!·.kind.isTrivia) && ts.getLast?.any (!·.kind.isTrivia)

mutual
/-- Whether every node of the tree starts and ends with a significant token, so that the trivia
around a node is held by the nodes above it. -/
def trimmed : Green → Bool
  | token _ => true
  | node _ cs => significantEdges (tokensList cs) && trimmedList cs

def trimmedList : List Green → Bool
  | [] => true
  | g :: gs => trimmed g && trimmedList gs
end

@[simp] theorem trimmed_token (t : Token) : (token t).trimmed = true := by simp [trimmed]

@[simp] theorem trimmed_node (k : SyntaxKind) (cs : List Green) :
    (node k cs).trimmed = (significantEdges (tokensList cs) && trimmedList cs) := by
  simp [trimmed]

theorem trimmedList_eq_true {cs : List Green} :
    trimmedList cs = true ↔ ∀ c ∈ cs, c.trimmed = true := by
  induction cs with
  | nil => simp [trimmedList]
  | cons g gs ih => simp [trimmedList, ih]

def StartsSignificant (gs : List Green) : Prop :=
  ∀ t ∈ (tokensList gs).head?, t.kind.isTrivia = false

def EndsSignificant (gs : List Green) : Prop :=
  ∀ t ∈ (tokensList gs).getLast?, t.kind.isTrivia = false

theorem significantEdges_iff {ts : List Token} : significantEdges ts = true ↔
    ts ≠ [] ∧ (∀ t ∈ ts.head?, t.kind.isTrivia = false) ∧
      ∀ t ∈ ts.getLast?, t.kind.isTrivia = false := by
  cases ts with
  | nil => simp [significantEdges]
  | cons t ts =>
    cases h : (t :: ts).getLast? with
    | none => simp at h
    | some u => simp [significantEdges, h]

theorem EndsSignificant.append {gs hs : List Green} (h₁ : tokensList hs = [] → EndsSignificant gs)
    (h₂ : EndsSignificant hs) : EndsSignificant (gs ++ hs) := by
  intro t ht
  rw [tokensList_append, List.getLast?_append] at ht
  cases h : (tokensList hs).getLast? with
  | none =>
    rw [h, Option.none_or] at ht
    exact h₁ (List.getLast?_eq_none_iff.1 h) t ht
  | some u =>
    rw [h, Option.some_or] at ht
    exact h₂ t (h ▸ ht)

theorem StartsSignificant.append {gs hs : List Green} (h₁ : StartsSignificant gs)
    (h₂ : tokensList gs = [] → StartsSignificant hs) : StartsSignificant (gs ++ hs) := by
  intro t ht
  rw [tokensList_append, List.head?_append] at ht
  cases h : (tokensList gs).head? with
  | none =>
    rw [h, Option.none_or] at ht
    exact h₂ (List.head?_eq_none_iff.1 h) t ht
  | some u =>
    rw [h, Option.some_or] at ht
    exact h₁ t (h ▸ ht)

end Green

theorem kindAhead_zero : ∀ ts : List Token,
    kindAhead ts 0 = ((ts.dropWhile (·.kind.isTrivia)).head?.map (·.kind)).getD .eof
  | [] => rfl
  | t :: ts => by
    by_cases h : t.kind.isTrivia = true
    · simp [kindAhead, h, kindAhead_zero ts]
    · simp [kindAhead, h]

theorem kindAhead_dropWhile_trivia : ∀ (ts : List Token) (i : Nat),
    kindAhead (ts.dropWhile (·.kind.isTrivia)) i = kindAhead ts i
  | [], _ => rfl
  | t :: ts, i => by
    by_cases h : t.kind.isTrivia = true
    · simp [kindAhead, h, kindAhead_dropWhile_trivia ts i]
    · simp [h]

def longestTriviaRun : List Token → Nat
  | [] => 0
  | t :: ts => max ((t :: ts).takeWhile (·.kind.isTrivia)).length (longestTriviaRun ts)

theorem takeWhile_le_longestTriviaRun : ∀ {s ts : List Token}, s <:+ ts →
    (s.takeWhile (·.kind.isTrivia)).length ≤ longestTriviaRun ts
  | s, [], h => by simp [List.suffix_nil.1 h]
  | s, t :: ts, h => by
    rcases List.suffix_cons_iff.1 h with rfl | h
    · exact Nat.le_max_left _ _
    · exact Nat.le_trans (takeWhile_le_longestTriviaRun h) (Nat.le_max_right _ _)

theorem longestTriviaRun_mono : ∀ {s ts : List Token}, s <:+ ts →
    longestTriviaRun s ≤ longestTriviaRun ts
  | s, [], h => by simp [List.suffix_nil.1 h]
  | s, t :: ts, h => by
    rcases List.suffix_cons_iff.1 h with rfl | h
    · exact Nat.le_refl _
    · exact Nat.le_trans (longestTriviaRun_mono h) (Nat.le_max_right _ _)

namespace Parser

def head (p : Parser) : SyntaxKind := kindAhead p.rest 0

def mark (p : Parser) : Nat := (p.rest.dropWhile (·.kind.isTrivia)).length

def Spent (s : Nat) (p : Parser) : Prop := p.head ≠ .eof → lookaheadBudget ≤ p.budget + s

def HoldsToken (p : Parser) : Prop := ∃ t, Green.token t ∈ p.frames.headD []

theorem Spent.mono {s s' : Nat} {p : Parser} (h : p.Spent s) (hs : s ≤ s') : p.Spent s' :=
  fun hp => Nat.le_trans (h hp) (by omega)

theorem Spent.pos {s : Nat} {p : Parser} (h : p.Spent s) (hs : s < lookaheadBudget)
    (hp : p.head ≠ .eof) : 0 < p.budget := by
  have := h hp
  omega

theorem mark_le_of_suffix {p q : Parser} (h : q.rest <:+ p.rest) : q.mark ≤ p.mark := by
  obtain ⟨pre, hpre⟩ := h
  simp only [mark, ← hpre, List.dropWhile_append]
  split
  · exact Nat.le_refl _
  · simp only [List.length_append]
    exact Nat.le_trans (List.length_dropWhile_le _ _) (Nat.le_add_left _ _)

theorem head_eq_of_mark_eq {p q : Parser} (h : q.rest <:+ p.rest) (hm : q.mark = p.mark) :
    q.head = p.head := by
  obtain ⟨pre, hpre⟩ := h
  simp only [mark, ← hpre, List.dropWhile_append] at hm
  simp only [head, kindAhead_zero, ← hpre, List.dropWhile_append]
  split
  · rfl
  · rename_i hne
    have := List.length_dropWhile_le (fun x : Token => x.kind.isTrivia) q.rest
    rw [if_neg hne, List.length_append] at hm
    have hpos : 0 < (pre.dropWhile (·.kind.isTrivia)).length :=
      List.length_pos_iff.2 (by simpa using hne)
    omega

@[simp] theorem push_budget (g : Green) (p : Parser) : (p.push g).budget = p.budget := by
  unfold push; split <;> rfl

@[simp] theorem skipTrivia_budget (p : Parser) : p.skipTrivia.budget = p.budget := rfl

@[simp] theorem skipTrivia_rest (p : Parser) :
    p.skipTrivia.rest = p.rest.dropWhile (·.kind.isTrivia) := rfl

@[simp] theorem takeTrivia_rest (p : Parser) :
    p.takeTrivia.rest = p.rest.dropWhile (·.kind.isTrivia) := rfl

@[simp] theorem shift_budget (p : Parser) : p.shift.budget = p.budget := by
  unfold shift; split <;> rfl

theorem shift_of_cons {q : Parser} {t : Token} {ts : List Token} (h : q.rest = t :: ts) :
    q.shift = { q with rest := ts, offset := q.offset + t.len, lagged := q.lagged ++ [t] } := by
  simp [shift, h]

@[simp] theorem skipTrivia_head (p : Parser) : p.skipTrivia.head = p.head := by
  simp [head, kindAhead_zero, List.dropWhile_idempotent]

@[simp] theorem skipTrivia_mark (p : Parser) : p.skipTrivia.mark = p.mark := by
  simp [mark, List.dropWhile_idempotent]

@[simp] theorem place_rest (n : Nat) (p : Parser) : (p.place n).rest = p.rest := rfl

@[simp] theorem place_budget (n : Nat) (p : Parser) : (p.place n).budget = p.budget := rfl

@[simp] theorem place_lagged (n : Nat) (p : Parser) : (p.place n).lagged = p.lagged.drop n := rfl

theorem skipTrivia_lagged {p : Parser} (h : p.lagged = []) : p.skipTrivia.lagged = [] := by
  simp [skipTrivia, takeTrivia, triviaAhead, h]

def EndsAtEof (p : Parser) : Prop := ∃ pre t, p.rest = pre ++ [t] ∧ t.kind = .eof

theorem EndsAtEof.dropWhile {p : Parser} (h : p.EndsAtEof) :
    ∃ pre t, p.rest.dropWhile (·.kind.isTrivia) = pre ++ [t] ∧ t.kind = .eof := by
  obtain ⟨pre, t, hr, ht⟩ := h
  rw [hr, List.dropWhile_append]
  split
  · exact ⟨[], t, by simp [ht, SyntaxKind.isTrivia], ht⟩
  · exact ⟨_, t, rfl, ht⟩

theorem added_eq {new new' f : List Green} {fs : List (List Green)}
    (h : (new ++ f) :: fs = (new' ++ f) :: fs) : new = new' :=
  List.append_cancel_right (List.cons.inj h).1

/-- How a parse goes on from `p` to `q`. It only takes input, and adds to the innermost open node
trees of rank at most `r` in which every node holds a token, spelling what it took. A peek costs
one unit and a consumed token restores the budget: with no token consumed at most `c` units were
spent, and otherwise at most `d` since the last token. While no count is capped, every node added
starts and ends with a significant token, and so do the tokens added, as long as no trivia was
ahead at the start; and every macro argument added is one token tree, opened by its first token. -/
structure Step (r c d : Nat) (p q : Parser) : Prop where
  suffix : q.rest <:+ p.rest
  ended : p.head = .eof → q.head = .eof
  kept : q.head ≠ .eof → q.mark = p.mark → p.budget ≤ q.budget + c
  renewed : q.head ≠ .eof → q.mark < p.mark → lookaheadBudget ≤ q.budget + d
  adds : ∀ f fs, p.frames = f :: fs → ∃ new, q.frames = (new ++ f) :: fs ∧
    (∀ g ∈ new, g.distinct ∧ g.rank ≤ r) ∧ Green.tokensList new.reverse ++ q.unplaced = p.unplaced ∧
    (Green.tokensList new.reverse = [] → q.rest = p.rest)
  endsAtEof : p.EndsAtEof → q.EndsAtEof
  synced : p.lagged = [] → longestTriviaRun p.rest < maxTokenRun → q.lagged = []
  trims : p.lagged = [] → longestTriviaRun p.rest < maxTokenRun → ∀ f fs new,
    p.frames = f :: fs → q.frames = (new ++ f) :: fs → (∀ g ∈ new, g.trimmed) ∧
      Green.EndsSignificant new.reverse ∧ (p.triviaAhead = 0 → Green.StartsSignificant new.reverse)
  delimits : p.lagged = [] → longestTriviaRun p.rest < maxTokenRun → ∀ f fs new,
    p.frames = f :: fs → q.frames = (new ++ f) :: fs → ∀ g ∈ new, g.delimited

namespace Step

variable {r r' c c' c'' d d' : Nat} {p q u : Parser}

theorem trims_of_frames_eq {p q : Parser} (h : q.frames = p.frames) {f : List Green}
    {fs : List (List Green)} {new : List Green} (hp : p.frames = f :: fs)
    (hq : q.frames = (new ++ f) :: fs) : (∀ g ∈ new, g.trimmed) ∧
      Green.EndsSignificant new.reverse ∧ (p.triviaAhead = 0 → Green.StartsSignificant new.reverse) := by
  obtain rfl : new = [] := added_eq (hq.symm.trans (h.trans hp) : (new ++ f) :: fs = ([] ++ f) :: fs)
  simp [Green.EndsSignificant, Green.StartsSignificant]

theorem delimits_of_frames_eq {p q : Parser} (h : q.frames = p.frames) {f : List Green}
    {fs : List (List Green)} {new : List Green} (hp : p.frames = f :: fs)
    (hq : q.frames = (new ++ f) :: fs) : ∀ g ∈ new, g.delimited := by
  obtain rfl : new = [] := added_eq (hq.symm.trans (h.trans hp) : (new ++ f) :: fs = ([] ++ f) :: fs)
  simp

theorem refl (p : Parser) : Step r 0 0 p p where
  suffix := List.suffix_refl _
  ended := id
  kept _ _ := Nat.le_refl _
  renewed _ h := absurd h (Nat.lt_irrefl _)
  adds f fs h := ⟨[], by simp [h], by simp, by simp, fun _ => rfl⟩
  endsAtEof := id
  synced h _ := h
  trims _ _ _ _ _ hp hq := trims_of_frames_eq rfl hp hq
  delimits _ _ _ _ _ hp hq := delimits_of_frames_eq rfl hp hq

theorem mark_le (h : Step r c d p q) : q.mark ≤ p.mark := mark_le_of_suffix h.suffix

theorem trans (h₁ : Step r c d p q) (h₂ : Step r c' d' q u) :
    Step r (c + c') (max d' (d + c')) p u where
  suffix := h₂.suffix.trans h₁.suffix
  ended hp := h₂.ended (h₁.ended hp)
  kept hu hm := by
    have hq : q.mark = p.mark := Nat.le_antisymm h₁.mark_le (hm ▸ h₂.mark_le)
    have := h₁.kept (by rwa [← head_eq_of_mark_eq h₂.suffix (hm.trans hq.symm)]) hq
    have := h₂.kept hu (hm.trans hq.symm)
    omega
  renewed hu hm := by
    rcases Nat.lt_or_eq_of_le h₂.mark_le with hlt | heq
    · have := h₂.renewed hu hlt
      omega
    · have := h₁.renewed (by rwa [← head_eq_of_mark_eq h₂.suffix heq]) (heq ▸ hm)
      have := h₂.kept hu heq
      omega
  adds f fs hp := by
    obtain ⟨new₁, hq, hP₁, ht₁, hn₁⟩ := h₁.adds f fs hp
    obtain ⟨new₂, hu, hP₂, ht₂, hn₂⟩ := h₂.adds _ fs hq
    refine ⟨new₂ ++ new₁, by rw [hu, List.append_assoc], ?_, ?_, fun h0 => ?_⟩
    · intro g hg
      rcases List.mem_append.1 hg with hg | hg
      · exact hP₂ g hg
      · exact hP₁ g hg
    · rw [List.reverse_append, Green.tokensList_append, List.append_assoc, ht₂, ht₁]
    · rw [List.reverse_append, Green.tokensList_append, List.append_eq_nil_iff] at h0
      rw [hn₂ h0.2, hn₁ h0.1]
  endsAtEof hp := h₂.endsAtEof (h₁.endsAtEof hp)
  synced hl hs := h₂.synced (h₁.synced hl hs)
    (Nat.lt_of_le_of_lt (longestTriviaRun_mono h₁.suffix) hs)
  trims hl hs f fs new hp hu := by
    obtain ⟨new₁, hq, -, -, hn₁⟩ := h₁.adds f fs hp
    obtain ⟨new₂, hu₂, -, -, -⟩ := h₂.adds _ fs hq
    obtain rfl : new = new₂ ++ new₁ :=
      added_eq (hu.symm.trans (by simp only [hu₂, List.append_assoc]))
    obtain ⟨ht₁, he₁, hs₁⟩ := h₁.trims hl hs f fs new₁ hp hq
    obtain ⟨ht₂, he₂, hs₂⟩ := h₂.trims (h₁.synced hl hs)
      (Nat.lt_of_le_of_lt (longestTriviaRun_mono h₁.suffix) hs) _ fs new₂ hq hu₂
    refine ⟨fun g hg => ?_, ?_, fun h0 => ?_⟩
    · rcases List.mem_append.1 hg with hg | hg
      · exact ht₂ g hg
      · exact ht₁ g hg
    · rw [List.reverse_append]
      exact Green.EndsSignificant.append (fun _ => he₁) he₂
    · rw [List.reverse_append]
      refine (hs₁ h0).append fun hnil => hs₂ ?_
      unfold Parser.triviaAhead at h0 ⊢
      rwa [hn₁ hnil]
  delimits hl hs f fs new hp hu := by
    obtain ⟨new₁, hq, -, -, -⟩ := h₁.adds f fs hp
    obtain ⟨new₂, hu₂, -, -, -⟩ := h₂.adds _ fs hq
    obtain rfl : new = new₂ ++ new₁ :=
      added_eq (hu.symm.trans (by simp only [hu₂, List.append_assoc]))
    intro g hg
    rcases List.mem_append.1 hg with hg | hg
    · exact h₂.delimits (h₁.synced hl hs)
        (Nat.lt_of_le_of_lt (longestTriviaRun_mono h₁.suffix) hs) _ fs new₂ hq hu₂ g hg
    · exact h₁.delimits hl hs f fs new₁ hp hq g hg

theorem mono (h : Step r c d p q) (hr : r ≤ r') (hc : c ≤ c') (hd : d ≤ d') : Step r' c' d' p q where
  suffix := h.suffix
  ended := h.ended
  kept hq hm := Nat.le_trans (h.kept hq hm) (by omega)
  renewed hq hm := Nat.le_trans (h.renewed hq hm) (by omega)
  adds f fs hp := by
    obtain ⟨new, hq, hP, ht, hn⟩ := h.adds f fs hp
    exact ⟨new, hq, fun g hg => ⟨(hP g hg).1, Nat.le_trans (hP g hg).2 hr⟩, ht, hn⟩
  endsAtEof := h.endsAtEof
  synced := h.synced
  trims := h.trims
  delimits := h.delimits

theorem spent {s : Nat} (h : Step r c d p q) (hs : p.Spent s) : q.Spent (max (s + c) d) := by
  intro hq
  rcases Nat.lt_or_eq_of_le h.mark_le with hlt | heq
  · have := h.renewed hq hlt
    omega
  · have := hs (by rwa [← head_eq_of_mark_eq h.suffix heq])
    have := h.kept hq heq
    omega

theorem holds (h : Step r c d p q) (hp : p.HoldsToken) : q.HoldsToken := by
  obtain ⟨t, ht⟩ := hp
  cases hf : p.frames with
  | nil => simp [hf] at ht
  | cons f fs =>
    obtain ⟨new, hq, -, -, -⟩ := h.adds f fs hf
    rw [hf] at ht
    exact ⟨t, by rw [hq]; exact List.mem_append_right _ ht⟩

theorem then_consumed (h₁ : Step r c d p q) (h₂ : Step r c' d' q u)
    (hc : q.head ≠ .eof → u.mark < q.mark) : Step r c'' d' p u where
  suffix := h₂.suffix.trans h₁.suffix
  ended hp := h₂.ended (h₁.ended hp)
  kept hu hm := by
    have hq : q.head ≠ .eof := fun hq => hu (h₂.ended hq)
    have := hc hq
    have := h₁.mark_le
    omega
  renewed hu _ := h₂.renewed hu (hc fun hq => hu (h₂.ended hq))
  adds f fs hp := (h₁.trans h₂).adds f fs hp
  endsAtEof hp := h₂.endsAtEof (h₁.endsAtEof hp)
  synced := (h₁.trans h₂).synced
  trims := (h₁.trans h₂).trims
  delimits := (h₁.trans h₂).delimits

theorem consumed (h : Step r c d p q) (hm : q.mark < p.mark) : Step r 0 d p q where
  suffix := h.suffix
  ended := h.ended
  kept _ hm' := absurd hm' (Nat.ne_of_lt hm)
  renewed := h.renewed
  adds := h.adds
  endsAtEof := h.endsAtEof
  synced := h.synced
  trims := h.trims
  delimits := h.delimits

theorem chain (h₁ : Step r c d p q) (hm : q.mark < p.mark) (h₂ : Step r c' d' q u) :
    Step r 0 (max d' (d + c')) p u :=
  ((h₁.trans h₂).consumed (Nat.lt_of_le_of_lt h₂.mark_le hm))

theorem spent_of_consumed (h : Step r c d p q) (hm : q.mark < p.mark) : q.Spent d :=
  fun hq => h.renewed hq hm

end Step

theorem head_of_cons {p : Parser} {t : Token} {ts : List Token}
    (h : p.rest.dropWhile (·.kind.isTrivia) = t :: ts) : p.head = t.kind := by
  simp [head, kindAhead_zero, h]

theorem mark_pos {p : Parser} (h : p.head ≠ .eof) : 0 < p.mark := by
  unfold mark
  cases hd : p.rest.dropWhile (·.kind.isTrivia) with
  | nil => simp [head, kindAhead_zero, hd] at h
  | cons t ts => simp

theorem Spent.of_budget {p : Parser} (h : p.budget = lookaheadBudget) : p.Spent 0 :=
  fun _ => by omega

/-- `q` is `p` after some peeks: the same input and open nodes, and at most `c` units of the
budget gone. -/
structure Peeked (c : Nat) (p q : Parser) : Prop where
  rest : q.rest = p.rest
  frames : q.frames = p.frames
  budget : p.budget ≤ q.budget + c
  lagged : q.lagged = p.lagged

namespace Peeked

variable {c c' r s : Nat} {p q u : Parser}

theorem head_eq (h : Peeked c p q) : q.head = p.head := by simp [Parser.head, h.rest]

theorem mark_eq (h : Peeked c p q) : q.mark = p.mark := by simp [Parser.mark, h.rest]

theorem refl (p : Parser) : Peeked 0 p p := ⟨rfl, rfl, by omega, rfl⟩

theorem trans (h₁ : Peeked c p q) (h₂ : Peeked c' q u) : Peeked (c + c') p u :=
  ⟨h₂.rest.trans h₁.rest, h₂.frames.trans h₁.frames, by have := h₁.budget; have := h₂.budget; omega,
    h₂.lagged.trans h₁.lagged⟩

theorem mono (h : Peeked c p q) (hc : c ≤ c') : Peeked c' p q :=
  ⟨h.rest, h.frames, by have := h.budget; omega, h.lagged⟩

theorem step (h : Peeked c p q) : Step r c 0 p q where
  suffix := h.rest ▸ List.suffix_refl _
  ended hp := h.head_eq ▸ hp
  kept _ _ := h.budget
  renewed _ hm := absurd hm (by rw [h.mark_eq]; exact Nat.lt_irrefl _)
  adds f fs hp := ⟨[], by simp [h.frames, hp], by simp, by simp [unplaced, h.rest, h.lagged],
    fun _ => h.rest⟩
  endsAtEof hp := by simpa [EndsAtEof, h.rest] using hp
  synced hl _ := h.lagged.trans hl
  trims _ _ _ _ _ hp hq := Step.trims_of_frames_eq h.frames hp hq
  delimits _ _ _ _ _ hp hq := Step.delimits_of_frames_eq h.frames hp hq

theorem holds (h : Peeked c p q) (hp : p.HoldsToken) : q.HoldsToken := by
  simpa [HoldsToken, h.frames] using hp

theorem spent (h : Peeked c p q) (hs : p.Spent s) : q.Spent (s + c) := fun hq => by
  have := hs (by rwa [← h.head_eq])
  have := h.budget
  omega

end Peeked

def callAhead (p : Parser) : Bool := p.head == .ident && kindAhead p.rest 1 == .bang

def itemAhead (p : Parser) : Bool :=
  [SyntaxKind.pound, .structKw, .fnKw, .modKw, .typeKw].contains p.head || p.callAhead

def fragmentEnds (stop : List SyntaxKind) (p : Parser) : Bool :=
  p.head == .eof || stop.contains p.head || [SyntaxKind.rParen, .rBracket, .rBrace].contains p.head

theorem callAhead_head {p : Parser} (h : p.callAhead = true) : p.head = .ident := by
  simp only [callAhead, Bool.and_eq_true, beq_iff_eq] at h
  exact h.1

theorem callAhead_live {p : Parser} (h : p.callAhead = true) : p.head ≠ .eof := by
  rw [callAhead_head h]
  decide

theorem Peeked.callAhead_eq {c : Nat} {p q : Parser} (h : Peeked c p q) :
    q.callAhead = p.callAhead := by
  simp [callAhead, head, h.rest]

end Parser

/-! ### Running grammar steps -/

section Runs

variable {α β : Type} {x : ParseM α} {p : Parser}

def Runs (x : ParseM α) (p : Parser) (Q : α → Parser → Prop) : Prop := Q (x.run p).1 (x.run p).2

namespace Runs

theorem bind {f : α → ParseM β} {Q : β → Parser → Prop} (h : Runs x p fun a q => Runs (f a) q Q) :
    Runs (x >>= f) p Q := h

theorem mono {Q Q' : α → Parser → Prop} (h : Runs x p Q) (hQ : ∀ a q, Q a q → Q' a q) :
    Runs x p Q' := hQ _ _ h

theorem pure {a : α} {Q : α → Parser → Prop} (h : Q a p) : Runs (Pure.pure a : ParseM α) p Q := h

theorem and {Q₁ Q₂ : α → Parser → Prop} (h₁ : Runs x p Q₁) (h₂ : Runs x p Q₂) :
    Runs x p fun a q => Q₁ a q ∧ Q₂ a q := ⟨h₁, h₂⟩

theorem imp {P : Prop} {Q : α → Parser → Prop} (h : P → Runs x p Q) :
    Runs x p fun a q => P → Q a q := h

end Runs

end Runs

section Moves

variable {p : Parser} {r s : Nat}

theorem nth_runs (n : Nat) (hs : p.Spent s) (hsb : s < lookaheadBudget) (hn : n = 0 ∨ p.head ≠ .eof) :
    Runs (nth n) p fun k q => k = kindAhead p.rest n ∧ p.Peeked 1 q := by
  simp only [Runs, nth, modifyGet, MonadStateOf.modifyGet, StateT.modifyGet, StateT.run]
  split
  · rename_i h0
    have hend : p.head = .eof := by
      by_contra hp
      have := hs.pos hsb hp
      omega
    split
    · rcases hn with rfl | hp
      · exact ⟨hend.symm, Parser.Peeked.mono (Parser.Peeked.refl p) (by omega)⟩
      · exact absurd hend hp
    · exact ⟨rfl, rfl, rfl, show p.budget ≤ p.budget + 1 by omega, rfl⟩
  · exact ⟨rfl, rfl, rfl, show p.budget ≤ p.budget - 1 + 1 by omega, rfl⟩

theorem current_runs (hs : p.Spent s) (hsb : s < lookaheadBudget) :
    Runs current p fun k q => k = p.head ∧ p.Peeked 1 q :=
  nth_runs 0 hs hsb (.inl rfl)

theorem atKind_runs (k : SyntaxKind) (hs : p.Spent s) (hsb : s < lookaheadBudget) :
    Runs (atKind k) p fun b q => b = (p.head == k) ∧ p.Peeked 1 q :=
  Runs.bind ((current_runs hs hsb).mono fun _ _ ⟨hk, hq⟩ => Runs.pure ⟨by rw [hk], hq⟩)

theorem atAny_runs (ks : List SyntaxKind) (hs : p.Spent s) (hsb : s < lookaheadBudget) :
    Runs (atAny ks) p fun b q => b = ks.contains p.head ∧ p.Peeked 1 q :=
  Runs.bind ((current_runs hs hsb).mono fun _ _ ⟨hk, hq⟩ => Runs.pure ⟨by rw [hk], hq⟩)

theorem atEnd_runs (hs : p.Spent s) (hsb : s < lookaheadBudget) :
    Runs atEnd p fun b q => b = (p.head == .eof) ∧ p.Peeked 1 q :=
  atKind_runs _ hs hsb

theorem atMacroCall_runs (hs : p.Spent s) (hsb : s + 1 < lookaheadBudget) :
    Runs atMacroCall p fun b q => b = p.callAhead ∧ p.Peeked 2 q := by
  refine Runs.bind ((atKind_runs .ident hs (by omega)).mono fun b q ⟨hb, hq⟩ => ?_)
  subst hb
  by_cases hid : p.head = .ident
  · rw [if_pos (by simp [hid])]
    have hlive : q.head ≠ .eof := by rw [hq.head_eq, hid]; simp
    refine Runs.bind ((nth_runs 1 (hq.spent hs) (by omega) (.inr hlive)).mono fun k u ⟨hk, hu⟩ => ?_)
    exact Runs.pure ⟨by simp [Parser.callAhead, hid, hk, hq.rest], hq.trans hu⟩
  · rw [if_neg (by simp [hid])]
    exact Runs.pure ⟨by simp [Parser.callAhead, hid], hq.mono (by omega)⟩

theorem error_runs (e : SyntaxError) : Runs (error e) p fun _ q => p.Peeked 0 q :=
  ⟨rfl, rfl, Nat.le_add_right _ _, rfl⟩

theorem Parser.rest_of_live {p : Parser} (hp : p.head ≠ .eof) : ∃ T t ts,
    p.rest = T ++ t :: ts ∧ (∀ u ∈ T, u.kind.isTrivia = true) ∧ T.length = p.triviaAhead ∧
      t.kind.isTrivia = false ∧ t.kind = p.head := by
  cases hd : p.rest.dropWhile (·.kind.isTrivia) with
  | nil => simp [Parser.head, kindAhead_zero, hd] at hp
  | cons t ts =>
    have ht : t.kind.isTrivia = false := by
      have := List.head?_dropWhile_not (fun t : Token => t.kind.isTrivia) p.rest
      rw [hd] at this
      simpa using this
    exact ⟨p.rest.takeWhile (·.kind.isTrivia), t, ts,
      by rw [← hd, List.takeWhile_append_dropWhile],
      fun u hu => List.all_eq_true.1 List.all_takeWhile u hu, rfl, ht,
      (Parser.head_of_cons hd).symm⟩

theorem Parser.bump_run_over {p : Parser} {T ts : List Token} {t : Token}
    (hT : ∀ u ∈ T, u.kind.isTrivia = true) (ht : t.kind.isTrivia = false) (he : t.kind ≠ .eof)
    (hr : p.rest = T ++ t :: ts) :
    (bump.run p).2 = Parser.place (min (T.length + 1) maxTokenRun)
      { p with
        rest := ts
        offset := p.offset + Token.totalLen T + t.len
        budget := lookaheadBudget
        lagged := p.lagged ++ T ++ [t] } := by
  have htake : p.rest.takeWhile (·.kind.isTrivia) = T := by
    rw [hr, List.takeWhile_append_of_pos hT]
    simp [ht]
  have hdrop : p.rest.dropWhile (·.kind.isTrivia) = t :: ts := by
    rw [hr, List.dropWhile_append_of_pos hT]
    simp [ht]
  simp only [bump, ParseM.run_modify, Parser.takeTrivia, Parser.triviaAhead, htake, hdrop]
  simp [he, Parser.shift, List.append_assoc]

theorem bump_head (hp : p.head ≠ .eof) : (bump.run p).2.head = kindAhead p.rest 1 := by
  obtain ⟨T, t, ts, hr, hT, -, ht, hk⟩ := Parser.rest_of_live hp
  rw [Parser.bump_run_over hT ht (hk ▸ hp) hr, hr, ← kindAhead_dropWhile_trivia (T ++ t :: ts),
    List.dropWhile_append_of_pos hT, List.dropWhile_cons_of_neg (by simp [ht])]
  simp [Parser.head, kindAhead, ht]

/-- What `bump` consumes before it places: the trivia ahead and, unless it is the end, the
significant token after it; then it places as many of the tokens behind as it consumed, up to the
cap. -/
theorem bump_takes (p : Parser) : ∃ (taken : List Token) (q₀ : Parser),
    (bump.run p).2 = q₀.place (min taken.length maxTokenRun) ∧
    taken ++ q₀.rest = p.rest ∧ q₀.lagged = p.lagged ++ taken ∧ q₀.frames = p.frames ∧
    q₀.budget = lookaheadBudget ∧ taken.length ≤ p.triviaAhead + 1 ∧
    (p.head ≠ .eof → taken ≠ [] ∧ q₀.mark < p.mark) ∧ (p.head = .eof → q₀.head = .eof) ∧
    (p.EndsAtEof → q₀.EndsAtEof) := by
  rw [bump, ParseM.run_modify]
  dsimp only
  split
  · rename_i t ts hts
    simp only [Parser.takeTrivia_rest] at hts
    have hp : p.head = t.kind := Parser.head_of_cons hts
    have hnt : t.kind.isTrivia = false := by
      have := List.head?_dropWhile_not (fun t : Token => t.kind.isTrivia) p.rest
      rw [hts] at this
      simpa using this
    split
    · rename_i heof
      have heof : t.kind = .eof := by simpa using heof
      refine ⟨_, _, rfl, List.takeWhile_append_dropWhile, rfl, rfl, rfl, Nat.le_succ _,
        fun h => absurd (hp.trans heof) h, fun _ => ?_,
        fun he => by simpa [Parser.EndsAtEof] using he.dropWhile⟩
      simp only [Parser.head, Parser.takeTrivia_rest, hts, kindAhead, hnt]
      simpa using heof
    · rename_i heof
      have heof : t.kind ≠ .eof := by simpa using heof
      refine ⟨p.rest.takeWhile (·.kind.isTrivia) ++ [t],
        ({ p.takeTrivia with budget := lookaheadBudget } : Parser).shift,
        by rw [List.length_append, List.length_singleton]; rfl, ?_, ?_, Parser.shift_frames _,
        by rw [Parser.shift_budget], by simp [Parser.triviaAhead], fun _ => ⟨by simp, ?_⟩,
        fun h => absurd (hp.symm.trans h) heof, fun he => ?_⟩
      · rw [Parser.shift_of_cons (by exact hts), List.append_assoc, List.singleton_append,
          ← hts]
        exact List.takeWhile_append_dropWhile
      · rw [Parser.shift_of_cons (by exact hts)]
        simp [Parser.takeTrivia]
      · rw [Parser.shift_of_cons (by exact hts)]
        simp only [Parser.mark, hts]
        exact Nat.lt_of_le_of_lt (List.length_dropWhile_le _ _) (by simp)
      · rw [Parser.shift_of_cons (by exact hts)]
        obtain ⟨pre, e, hpre, he⟩ := he.dropWhile
        rw [hts] at hpre
        cases pre with
        | nil =>
          simp only [List.nil_append, List.cons.injEq] at hpre
          exact absurd (hpre.1 ▸ he) heof
        | cons t' pre =>
          simp only [List.cons_append, List.cons.injEq] at hpre
          exact ⟨pre, e, hpre.2, he⟩
  · rename_i hts
    simp only [Parser.takeTrivia_rest] at hts
    have hp : p.head = .eof := by simp [Parser.head, kindAhead_zero, hts]
    refine ⟨_, _, rfl, List.takeWhile_append_dropWhile, rfl, rfl, rfl, Nat.le_succ _,
      fun h => absurd hp h, fun _ => ?_, fun he => ?_⟩
    · simp [Parser.head, hts, kindAhead]
    · obtain ⟨pre, e, hpre, -⟩ := he.dropWhile
      simp [hts] at hpre

theorem Parser.holdsToken_place {q : Parser} {n : Nat} (hn : 0 < n) (hl : q.lagged ≠ []) :
    (q.place n).HoldsToken := by
  have hne : q.lagged.take n ≠ [] := by
    simp only [ne_eq, List.take_eq_nil_iff, not_or]
    exact ⟨Nat.pos_iff_ne_zero.1 hn, hl⟩
  obtain ⟨t, ht⟩ := List.exists_mem_of_ne_nil _ hne
  have ht' : Green.token t ∈ (q.lagged.take n).map Green.token := List.mem_map_of_mem ht
  refine ⟨t, ?_⟩
  cases hf : q.frames <;> simp only [Parser.place, Parser.pushTokens, hf, List.headD_cons,
    List.mem_append, List.mem_reverse, ht', true_or]

theorem bump_runs (hp : p.head ≠ .eof) : Runs bump p fun _ q => Parser.Step r 0 0 p q ∧
    q.budget = lookaheadBudget ∧ q.mark < p.mark ∧ q.HoldsToken ∧ q.head = kindAhead p.rest 1 := by
  have htrims : p.lagged = [] → longestTriviaRun p.rest < maxTokenRun → ∀ f fs new,
      p.frames = f :: fs → (bump.run p).2.frames = (new ++ f) :: fs → (∀ g ∈ new, g.trimmed) ∧
        Green.EndsSignificant new.reverse ∧
          (p.triviaAhead = 0 → Green.StartsSignificant new.reverse) := by
    intro hl hs f fs new hf hnew
    obtain ⟨T, t, ts, hr, hT, hlen, ht, hk⟩ := Parser.rest_of_live hp
    have hcap : T.length + 1 ≤ maxTokenRun := by
      have := takeWhile_le_longestTriviaRun (List.suffix_refl p.rest)
      simp only [Parser.triviaAhead] at hlen
      omega
    rw [Parser.bump_run_over hT ht (hk ▸ hp) hr] at hnew
    simp only [Parser.place, Parser.pushTokens, hf, hl, List.nil_append, Nat.min_eq_left hcap,
      List.take_of_length_le (by simp : (T ++ [t]).length ≤ T.length + 1)] at hnew
    obtain rfl := Parser.added_eq hnew.symm
    refine ⟨by simp, by simp [Green.EndsSignificant, ht], fun h0 => ?_⟩
    obtain rfl : T = [] := List.length_eq_zero_iff.1 (hlen.trans h0)
    simp [Green.StartsSignificant, ht]
  obtain ⟨taken, q₀, hq, htk, hlag, hfr, hb, hlen, hlive, hend, heof⟩ := bump_takes p
  have hhead := bump_head hp
  show Parser.Step r 0 0 p (bump.run p).2 ∧ (bump.run p).2.budget = lookaheadBudget ∧
    (bump.run p).2.mark < p.mark ∧ (bump.run p).2.HoldsToken ∧
      (bump.run p).2.head = kindAhead p.rest 1
  rw [hq] at htrims hhead ⊢
  have hdelims : p.lagged = [] → longestTriviaRun p.rest < maxTokenRun → ∀ f fs new,
      p.frames = f :: fs → (q₀.place (min taken.length maxTokenRun)).frames = (new ++ f) :: fs →
      ∀ g ∈ new, g.delimited := by
    intro _ _ f fs new hf hnew g hg
    rw [Parser.place_frames _ (hfr ▸ hf)] at hnew
    obtain rfl := Parser.added_eq hnew.symm
    obtain ⟨t, -, rfl⟩ := List.mem_map.1 (List.mem_reverse.1 hg)
    simp
  have hcap : 0 < maxTokenRun := by decide
  refine ⟨⟨⟨taken, htk⟩, hend, fun _ hm => absurd hm (Nat.ne_of_lt (hlive hp).2),
    fun _ _ => by simp [hb], fun f fs hf => ?_, heof, fun hl hs => ?_, htrims, hdelims⟩, hb,
    (hlive hp).2,
    Parser.holdsToken_place ?_ ?_, hhead⟩
  · refine ⟨((q₀.lagged.take (min taken.length maxTokenRun)).map .token).reverse,
      Parser.place_frames _ (hfr ▸ hf), fun g hg => ?_, ?_, fun h0 => ?_⟩
    · obtain ⟨t, -, rfl⟩ := List.mem_map.1 (List.mem_reverse.1 hg)
      simp
    · rw [List.reverse_reverse, Green.tokensList_map_token, Parser.place_unplaced]
      simp [Parser.unplaced, hlag, ← htk]
    · rw [List.reverse_reverse, Green.tokensList_map_token, List.take_eq_nil_iff, hlag,
        List.append_eq_nil_iff] at h0
      have : taken = [] := by
        rcases h0 with h0 | h0
        · exact List.length_eq_zero_iff.1 (by omega)
        · exact h0.2
      rw [Parser.place_rest, ← htk, this, List.nil_append]
  · have hrun : p.triviaAhead ≤ longestTriviaRun p.rest :=
      takeWhile_le_longestTriviaRun (List.suffix_refl _)
    rw [Parser.place_lagged, hlag, hl, List.nil_append, Nat.min_eq_left (by omega)]
    exact List.drop_length
  · have := List.length_pos_iff.2 (hlive hp).1
    omega
  · rw [hlag]
    simp [(hlive hp).1]

theorem bump_places {f : List Green} {fs : List (List Green)} (hp : p.head ≠ .eof)
    (hl : p.lagged = []) (htr : longestTriviaRun p.rest < maxTokenRun) (hf : p.frames = f :: fs) :
    Runs bump p fun _ q => ∃ T t, p.rest = T ++ t :: q.rest ∧ (∀ u ∈ T, u.kind.isTrivia = true) ∧
      t.kind.isTrivia = false ∧ t.kind = p.head ∧ q.lagged = [] ∧
      q.frames = (((T ++ [t]).map .token).reverse ++ f) :: fs ∧ q.budget = lookaheadBudget := by
  obtain ⟨T, t, ts, hr, hT, hlen, ht, hk⟩ := Parser.rest_of_live hp
  have hcap : T.length + 1 ≤ maxTokenRun := by
    have := takeWhile_le_longestTriviaRun (List.suffix_refl p.rest)
    simp only [Parser.triviaAhead] at hlen
    omega
  show ∃ T t, _ = T ++ t :: (bump.run p).2.rest ∧ _
  rw [Parser.bump_run_over hT ht (hk ▸ hp) hr]
  refine ⟨T, t, by simpa [Parser.place] using hr, hT, ht, hk, ?_, ?_, rfl⟩
  · simp [Parser.place, hl, Nat.min_eq_left hcap]
  · simp only [Parser.place, Parser.pushTokens, hf, hl, List.nil_append, Nat.min_eq_left hcap,
      List.take_of_length_le (by simp : (T ++ [t]).length ≤ T.length + 1)]

theorem start_runs {Q : Unit → Parser → Prop} (h : Q () (start.run p).2) : Runs start p Q := h

theorem eat_runs (k : SyntaxKind) (hk : k ≠ .eof) (hs : p.Spent s) (hsb : s < lookaheadBudget) :
    Runs (eat k) p fun b q => b = (p.head == k) ∧ Parser.Step r 1 0 p q ∧
      (b = true → q.budget = lookaheadBudget ∧ q.mark < p.mark) := by
  refine Runs.bind ((atKind_runs k hs hsb).mono fun b q post => ?_)
  obtain ⟨hb, hq⟩ := post
  subst hb
  by_cases hpk : p.head = k
  · rw [if_pos (by simp [hpk])]
    refine Runs.bind ((bump_runs (r := r) (by rw [hq.head_eq, hpk]; exact hk)).mono
      fun _ u post => ?_)
    obtain ⟨hu, hb, hm, -⟩ := post
    exact Runs.pure ⟨by simp [hpk], (hq.step.trans hu).mono le_rfl (by omega) (by omega),
      fun _ => ⟨hb, hq.mark_eq ▸ hm⟩⟩
  · rw [if_neg (by simp [hpk])]
    exact Runs.pure ⟨by simp [hpk], hq.step, fun h => absurd h (by decide)⟩

theorem expect_runs (k : SyntaxKind) (hk : k ≠ .eof) (hs : p.Spent s) (hsb : s < lookaheadBudget) :
    Runs (expect k) p fun _ q => Parser.Step r 1 0 p q ∧ (p.head = k → q.mark < p.mark) := by
  refine Runs.bind ((eat_runs (r := r) k hk hs hsb).mono fun b q post => ?_)
  obtain ⟨hb, hq, hbud⟩ := post
  cases b
  · exact (error_runs _).mono fun _ u hu => ⟨(hq.trans hu.step).mono le_rfl (by omega) (by omega),
      fun hpk => absurd hb (by simp [hpk])⟩
  · exact Runs.pure ⟨hq, fun _ => (hbud rfl).2⟩

@[simp] theorem start_run_rest (p : Parser) :
    (start.run p).2.rest = p.rest.dropWhile (·.kind.isTrivia) := rfl

@[simp] theorem start_run_budget (p : Parser) : (start.run p).2.budget = p.budget :=
  Parser.skipTrivia_budget p

@[simp] theorem start_run_head (p : Parser) : (start.run p).2.head = p.head :=
  Parser.skipTrivia_head p

@[simp] theorem start_run_mark (p : Parser) : (start.run p).2.mark = p.mark :=
  Parser.skipTrivia_mark p

@[simp] theorem Parser.callAhead_start (p : Parser) :
    (start.run p).2.callAhead = p.callAhead := by
  simp [Parser.callAhead, Parser.head, kindAhead_dropWhile_trivia]

@[simp] theorem start_run_triviaAhead (p : Parser) : (start.run p).2.triviaAhead = 0 := by
  simp only [Parser.triviaAhead, start_run_rest, List.length_eq_zero_iff]
  cases hd : p.rest.dropWhile (·.kind.isTrivia) with
  | nil => rfl
  | cons t ts =>
    have := List.head?_dropWhile_not (fun t : Token => t.kind.isTrivia) p.rest
    rw [hd] at this
    simpa using this

theorem Parser.skipTrivia_frames_of_synced {f : List Green} {fs : List (List Green)}
    (hl : p.lagged = []) (hf : p.frames = f :: fs) :
    p.skipTrivia.frames = (((p.rest.takeWhile (·.kind.isTrivia)).map .token).reverse ++ f) :: fs := by
  simp [Parser.skipTrivia, Parser.takeTrivia, Parser.place, Parser.pushTokens, Parser.triviaAhead,
    hl, hf]

theorem start_spent (h : p.Spent s) : (start.run p).2.Spent s := fun hp => by
  simpa using h (by simpa using hp)

theorem complete_run {k : SyntaxKind} {q : Parser} {cur g : List Green} {fs : List (List Green)}
    (hq : q.frames = cur :: g :: fs) :
    ((complete k).run q).2 = { q with frames := (.node k cur.reverse :: g) :: fs } := by
  simp [complete, hq, Parser.push]
  rfl

@[simp] theorem complete_run_rest (k : SyntaxKind) (q : Parser) :
    ((complete k).run q).2.rest = q.rest := by
  simp only [complete, ParseM.run_modify]
  split <;> simp

@[simp] theorem complete_run_budget (k : SyntaxKind) (q : Parser) :
    ((complete k).run q).2.budget = q.budget := by
  simp only [complete, ParseM.run_modify]
  split <;> simp

@[simp] theorem complete_run_lagged (k : SyntaxKind) (q : Parser) :
    ((complete k).run q).2.lagged = q.lagged := by
  simp only [complete, ParseM.run_modify]
  split <;> simp

@[simp] theorem complete_run_mark (k : SyntaxKind) (q : Parser) :
    ((complete k).run q).2.mark = q.mark := by
  simp [Parser.mark]

theorem Parser.Step.placed_ne_nil {r c d : Nat} {q : Parser} {f new : List Green}
    {fs : List (List Green)} (h : Parser.Step r c d p q) (hf : p.frames = f :: fs)
    (hq : q.frames = (new ++ f) :: fs) (hm : q.mark < p.mark) : Green.tokensList new.reverse ≠ [] := by
  obtain ⟨new₁, hq₁, -, -, hnone⟩ := h.adds f fs hf
  obtain rfl := added_eq (hq₁.symm.trans hq)
  intro h0
  have : q.mark = p.mark := by simp only [Parser.mark, hnone h0]
  omega

/-- In a parser with nothing left behind, the node that `start` opened and `complete` closed
after a step sits on the trivia `start` skipped, in the frame below, and holds what the step added
to the frame `start` opened. -/
theorem Parser.Step.closes_over_skipped {r' c d : Nat} {k : SyntaxKind} {q : Parser}
    (h : Parser.Step r' c d (start.run p).2 q) (hl : p.lagged = []) {f : List Green}
    {fs : List (List Green)} (hp : p.frames = f :: fs) {new' : List Green}
    (hq' : ((complete k).run q).2.frames = (new' ++ f) :: fs) :
    ∃ new, (start.run p).2.frames =
        [] :: (((p.rest.takeWhile (·.kind.isTrivia)).map .token).reverse ++ f) :: fs ∧
      q.frames = (new ++ []) :: (((p.rest.takeWhile (·.kind.isTrivia)).map .token).reverse ++ f) ::
        fs ∧
      new' = .node k new.reverse :: ((p.rest.takeWhile (·.kind.isTrivia)).map .token).reverse := by
  have hopen : (start.run p).2.frames =
      [] :: (((p.rest.takeWhile (·.kind.isTrivia)).map .token).reverse ++ f) :: fs := by
    show [] :: p.skipTrivia.frames = _
    rw [Parser.skipTrivia_frames_of_synced hl hp]
  obtain ⟨new, hq, -, -, -⟩ := h.adds [] _ hopen
  rw [List.append_nil] at hq
  rw [complete_run hq] at hq'
  exact ⟨new, hopen, by rw [hq, List.append_nil], added_eq hq'.symm⟩

/-- Closing the node that `start` opened at `p`. The node holds what was taken since, so it holds
a token when something was consumed, and its only child, if any, ranks below it when that child
is a token or every tree added ranks low enough. A macro argument closed here is one token tree
when what was added since has that shape. -/
theorem Parser.Step.close {r' c d : Nat} {k : SyntaxKind} {q : Parser}
    (h : Parser.Step r' c d (start.run p).2 q) (hcons : q.mark < p.mark)
    (hsole : q.HoldsToken ∨ r' ≤ k.chainRank) (hr : k.chainRank + 1 ≤ r)
    (hshape : k = .macroArgument → p.lagged = [] → longestTriviaRun p.rest < maxTokenRun →
      ∀ new g fs, (start.run p).2.frames = [] :: g :: fs → q.frames = new :: g :: fs →
        Green.argumentShape new.reverse = true) :
    Parser.Step r c d p ((complete k).run q).2 where
  suffix := by
    rw [complete_run_rest]
    exact h.suffix.trans (List.dropWhile_suffix _)
  ended hp := by
    have := h.ended (by rwa [start_run_head])
    simpa [Parser.head] using this
  kept _ hm := absurd hm (by rw [complete_run_mark]; exact Nat.ne_of_lt hcons)
  renewed hq hm := by
    rw [complete_run_budget]
    rw [complete_run_mark] at hm
    exact h.renewed (by simpa [Parser.head] using hq) (by rwa [start_run_mark])
  adds f fs hp := by
    obtain ⟨ts, htriv, hsplit⟩ := Parser.skipTrivia_spec hp
    have hopen : (start.run p).2.frames = [] :: ((ts.map .token).reverse ++ f) :: fs := by
      show [] :: p.skipTrivia.frames = _
      rw [htriv]
    obtain ⟨new, hq, hfit, htok, -⟩ := h.adds [] _ hopen
    rw [List.append_nil] at hq
    rw [complete_run hq]
    have hne : Green.tokensList new.reverse ≠ [] :=
      h.placed_ne_nil hopen (by rw [hq, List.append_nil]) (by rwa [start_run_mark])
    refine ⟨.node k new.reverse :: (ts.map .token).reverse, by simp, fun g hg => ?_, ?_,
      fun h0 => ?_⟩
    · rcases List.mem_cons.1 hg with rfl | hg
      · have hsb : Green.soleBelow k new.reverse = true := by
          apply Green.soleBelow_of
          rcases hsole with ⟨t, ht⟩ | hk
          · exact .inl ⟨t, by simpa [Parser.HoldsToken, hq] using ht⟩
          · exact .inr fun c hc => Nat.le_trans (hfit c (List.mem_reverse.1 hc)).2 hk
        have hdl : Green.distinctList new.reverse = true :=
          Green.distinctList_eq_true.2 fun c hc => (hfit c (List.mem_reverse.1 hc)).1
        refine ⟨?_, by simpa [Green.rank] using hr⟩
        rw [Green.distinct_node, hsb, hdl]
        simpa using hne
      · obtain ⟨t, -, rfl⟩ := List.mem_map.1 (List.mem_reverse.1 hg)
        simp
    · have htok' : Green.tokensList new.reverse ++ q.unplaced = p.skipTrivia.unplaced := htok
      simp only [List.reverse_cons, List.reverse_reverse, Green.tokensList_append,
        Green.tokensList_map_token, Green.tokensList_cons, Green.tokensList_nil, Green.tokens_node,
        List.append_nil, List.append_assoc, Parser.unplaced_withFrames, htok']
      exact hsplit
    · simp only [List.reverse_cons, List.reverse_reverse, Green.tokensList_append,
        Green.tokensList_map_token, Green.tokensList_cons, Green.tokensList_nil, Green.tokens_node,
        List.append_nil, List.append_eq_nil_iff] at h0
      exact absurd h0.2 hne
  endsAtEof hp := by
    have := h.endsAtEof (by simpa [Parser.EndsAtEof] using hp.dropWhile)
    simpa [Parser.EndsAtEof] using this
  synced hl hs := by
    rw [complete_run_lagged]
    exact h.synced (Parser.skipTrivia_lagged hl)
      (Nat.lt_of_le_of_lt (longestTriviaRun_mono (List.dropWhile_suffix _)) hs)
  trims hl hs f fs new' hp hq' := by
    obtain ⟨new, hopen, hq₀, rfl⟩ := h.closes_over_skipped hl hp hq'
    set T := p.rest.takeWhile (·.kind.isTrivia)
    obtain ⟨ht, he, hst⟩ := h.trims (Parser.skipTrivia_lagged hl)
      (Nat.lt_of_le_of_lt (longestTriviaRun_mono (List.dropWhile_suffix _)) hs) [] _ new hopen hq₀
    have hne : Green.tokensList new.reverse ≠ [] :=
      h.placed_ne_nil hopen hq₀ (by rwa [start_run_mark])
    have hst := hst (start_run_triviaAhead p)
    have hnode : Green.EndsSignificant [.node k new.reverse] := by
      simpa [Green.EndsSignificant] using he
    refine ⟨fun g hg => ?_, ?_, fun h0 => ?_⟩
    · rcases List.mem_cons.1 hg with rfl | hg
      · rw [Green.trimmed_node, Green.significantEdges_iff.2 ⟨hne, hst, he⟩,
          Green.trimmedList_eq_true.2 fun c hc => ht c (List.mem_reverse.1 hc)]
        rfl
      · obtain ⟨t, -, rfl⟩ := List.mem_map.1 (List.mem_reverse.1 hg)
        simp
    · rw [List.reverse_cons, List.reverse_reverse]
      exact Green.EndsSignificant.append (fun h0 => absurd (by simpa using h0) hne) hnode
    · obtain hT : T = [] := List.length_eq_zero_iff.1 h0
      rw [hT]
      simpa [Green.StartsSignificant] using hst
  delimits hl hs f fs new' hp hq' := by
    obtain ⟨new, hopen, hq₀, rfl⟩ := h.closes_over_skipped hl hp hq'
    have hin := h.delimits (Parser.skipTrivia_lagged hl)
      (Nat.lt_of_le_of_lt (longestTriviaRun_mono (List.dropWhile_suffix _)) hs) [] _ new hopen hq₀
    intro g hg
    rcases List.mem_cons.1 hg with rfl | hg
    · rw [Green.delimited_node,
        Green.delimitedList_eq_true.2 fun c hc => hin c (List.mem_reverse.1 hc), Bool.and_true]
      by_cases hk : k = .macroArgument
      · rw [hshape hk hl hs new _ fs hopen (by rw [hq₀, List.append_nil]), Bool.or_true]
      · simp [hk]
    · obtain ⟨t, -, rfl⟩ := List.mem_map.1 (List.mem_reverse.1 hg)
      simp

theorem nodeOverNext_runs {k : SyntaxKind} (hk : k.chainRank + 1 ≤ r) (hk' : k ≠ .macroArgument)
    (hp : p.head ≠ .eof) :
    Runs (start >>= fun _ => bump >>= fun _ => complete k) p fun _ q =>
      Parser.Step r 0 0 p q ∧ q.mark < p.mark ∧ q.budget = lookaheadBudget :=
  Runs.bind <| start_runs <| Runs.bind <| (bump_runs (r := 0) (by rwa [start_run_head])).mono
    fun _ q ⟨hq, hb, hm, hh, _⟩ => by
    rw [start_run_mark] at hm
    exact ⟨hq.close hm (.inl hh) hk fun h => absurd h hk', by simpa using hm, by simpa using hb⟩

theorem errorBump_runs (e : SyntaxError) (hs : p.Spent s) (hsb : s < lookaheadBudget) (hr : 2 ≤ r) :
    Runs (errorBump e) p fun _ q => Parser.Step r 1 0 p q ∧ (p.head ≠ .eof → q.mark < p.mark) := by
  refine Runs.bind ((error_runs e).mono fun _ q₁ hq₁ => ?_)
  refine Runs.bind ((atKind_runs .eof (hq₁.spent hs) hsb).mono fun b q₂ ⟨hb, hq₂⟩ => ?_)
  have hq := hq₁.trans hq₂
  subst hb
  by_cases hend : p.head = .eof
  · rw [if_pos (by simp [hq₁.head_eq, hend])]
    exact Runs.pure ⟨hq.step, fun h => absurd hend h⟩
  · rw [if_neg (by simp [hq₁.head_eq, hend])]
    refine (nodeOverNext_runs (r := r) (k := .errorNode) (by simpa [SyntaxKind.chainRank] using hr) (by decide)
      (by rwa [hq.head_eq])).mono fun _ u ⟨hu, hm, _⟩ => ⟨?_, fun _ => by rwa [← hq.mark_eq]⟩
    exact (hq.step.trans hu).mono le_rfl (by omega) (by omega)

def Parser.TakesTree (closers : List SyntaxKind) (ts : List Token) (f : List Green)
    (fs : List (List Green)) (p q : Parser) : Prop :=
  p.rest = ts ++ q.rest ∧ q.lagged = [] ∧ q.frames = ((ts.map .token).reverse ++ f) :: fs ∧
    SyntaxKind.readsTree closers ((ts.filter (!·.kind.isTrivia)).map (·.kind)) = true

theorem Parser.Peeked.takesNothing {c : Nat} {q : Parser} {f : List Green} {fs : List (List Green)}
    (h : p.Peeked c q) (cl : List SyntaxKind) (hl : p.lagged = []) (hf : p.frames = f :: fs) :
    p.TakesTree cl [] f fs q :=
  ⟨by simp [h.rest], h.lagged.trans hl, by simpa [h.frames] using hf, rfl⟩

theorem Parser.TakesTree.after_bump {closers cl : List SyntaxKind} {T ts : List Token} {t : Token}
    {f : List Green} {fs : List (List Green)} {q u : Parser} (hr : p.rest = T ++ t :: q.rest)
    (hT : ∀ u ∈ T, u.kind.isTrivia = true) (ht : t.kind.isTrivia = false)
    (h : q.TakesTree cl ts (((T ++ [t]).map .token).reverse ++ f) fs u)
    (hstep : SyntaxKind.readsTree cl ((ts.filter (!·.kind.isTrivia)).map (·.kind)) = true →
      SyntaxKind.readsTree closers (t.kind :: (ts.filter (!·.kind.isTrivia)).map (·.kind)) = true) :
    p.TakesTree closers (T ++ t :: ts) f fs u := by
  obtain ⟨hr₁, hl, hf, hreads⟩ := h
  have hnone : T.filter (!·.kind.isTrivia) = [] :=
    List.filter_eq_nil_iff.2 fun u hu => by simp [hT u hu]
  refine ⟨by simp [hr, hr₁], hl, by simp [hf], ?_⟩
  simpa [List.filter_append, hnone, ht] using hstep hreads

end Moves

/-! ### The grammar -/

namespace Grammar

variable {p : Parser} {r s : Nat}

theorem name_runs (hs : p.Spent s) (hsb : s < lookaheadBudget) :
    Runs name p fun _ q => Parser.Step 1 1 0 p q ∧ (p.head = .ident → q.mark < p.mark) := by
  unfold name
  refine Runs.bind ((atKind_runs .ident hs hsb).mono fun b q ⟨hb, hq⟩ => ?_)
  subst hb
  by_cases hid : p.head = .ident
  · rw [if_pos (by simp [hid])]
    refine (nodeOverNext_runs (k := .name) (by decide) (by decide) (by rw [hq.head_eq, hid]; decide)).mono
      fun _ u ⟨hu, hm, _⟩ => ⟨(hq.step.trans hu).mono le_rfl (by omega) (by omega),
        fun _ => by rwa [← hq.mark_eq]⟩
  · rw [if_neg (by simp [hid])]
    exact (error_runs _).mono fun _ u hu => ⟨(hq.trans hu).step, fun h => absurd h hid⟩

theorem path_runs (hp : p.head ≠ .eof) :
    Runs path p fun _ q => Parser.Step 1 0 0 p q ∧ q.mark < p.mark ∧ q.budget = lookaheadBudget ∧
      q.head = kindAhead p.rest 1 := by
  have h := nodeOverNext_runs (k := .path) (r := 1) (by decide) (by decide) hp
  have hhead : ((complete .path).run (bump.run (start.run p).2).2).2.head = kindAhead p.rest 1 := by
    have := bump_head (p := (start.run p).2) (by rwa [start_run_head])
    simp only [Parser.head, complete_run_rest] at this ⊢
    rw [this, start_run_rest, kindAhead_dropWhile_trivia]
  exact ⟨h.1, h.2.1, h.2.2, hhead⟩

theorem tokenTree_runs : ∀ (n : Nat) (closers : List SyntaxKind) {p : Parser} {s : Nat},
    p.Spent s → s < lookaheadBudget → 8 * p.mark ≤ n + 3 → .eof ∉ closers →
    Runs (tokenTree n closers) p fun _ q =>
      Parser.Step 0 1 0 p q ∧ (p.head ≠ .eof → q.mark < p.mark)
  | 0, _, p, _, _, _, hn, _ =>
    Runs.pure ⟨(Parser.Step.refl p).mono le_rfl (by omega) le_rfl,
      fun hp => by have := Parser.mark_pos hp; omega⟩
  | n + 1, closers, p, s, hs, hsb, hn, hc => by
    rw [tokenTree]
    refine Runs.bind ((current_runs hs hsb).mono fun k q post => ?_)
    obtain ⟨hk, hq⟩ := post
    subst hk
    have next : ∀ cl : List SyntaxKind, .eof ∉ cl → p.head ≠ .eof →
        Runs (bump >>= fun _ => tokenTree n cl) q fun _ u =>
          Parser.Step 0 1 0 p u ∧ (p.head ≠ .eof → u.mark < p.mark) := by
      intro cl hcl hp
      refine Runs.bind ((bump_runs (r := 0) (by rwa [hq.head_eq])).mono fun _ q₂ post => ?_)
      obtain ⟨h₂, hb, hm, -⟩ := post
      rw [hq.mark_eq] at hm
      refine (tokenTree_runs n cl (Parser.Spent.of_budget hb) (by decide) (by omega) hcl).mono
        fun _ u post => ?_
      obtain ⟨hu, hcons⟩ := post
      exact ⟨(hq.step.trans h₂).then_consumed hu hcons, fun _ => Nat.lt_of_le_of_lt hu.mark_le hm⟩
    split
    · rename_i c hcl
      obtain ⟨hp, hce⟩ := SyntaxKind.closer?_ne_eof hcl
      refine next _ (fun hmem => ?_) hp
      rcases List.mem_cons.1 hmem with h | h
      · exact hce h.symm
      · exact hc h
    · by_cases hclose : (closers.head? == some p.head) = true
      · rw [if_pos hclose]
        have hp : p.head ≠ .eof := by
          intro h
          rw [h] at hclose
          exact hc (List.mem_of_mem_head? (by simpa using hclose))
        refine Runs.bind ((bump_runs (r := 0) (by rwa [hq.head_eq])).mono fun _ q₂ post => ?_)
        obtain ⟨h₂, hb, hm, -⟩ := post
        rw [hq.mark_eq] at hm
        by_cases htail : closers.tail.isEmpty = true
        · rw [if_pos htail]
          exact Runs.pure ⟨(hq.step.trans h₂).mono le_rfl (by omega) (by omega), fun _ => hm⟩
        · rw [if_neg htail]
          refine (tokenTree_runs n _ (Parser.Spent.of_budget hb) (by decide) (by omega)
            fun h => hc (List.mem_of_mem_tail h)).mono fun _ u post => ?_
          obtain ⟨hu, hcons⟩ := post
          exact ⟨(hq.step.trans h₂).then_consumed hu hcons,
            fun _ => Nat.lt_of_le_of_lt hu.mark_le hm⟩
      · rw [if_neg hclose]
        by_cases hend : p.head = .eof
        · rw [if_pos (by simp [hend])]
          exact (error_runs _).mono fun _ u hu => ⟨(hq.trans hu).step, fun h => absurd hend h⟩
        · rw [if_neg (by simp [hend])]
          exact next _ hc hend

/-- While nothing is left behind and no run of trivia reaches the cap, a token tree owing
`closers` places every token it takes in the innermost open node and reads them as one tree; it
takes something when something significant is ahead. -/
theorem tokenTree_reads : ∀ (n : Nat) (closers : List SyntaxKind) {p : Parser} {s : Nat}
    {f : List Green} {fs : List (List Green)}, p.Spent s → s < lookaheadBudget → .eof ∉ closers →
    p.lagged = [] → longestTriviaRun p.rest < maxTokenRun → p.frames = f :: fs →
    Runs (tokenTree n closers) p fun _ q =>
      ∃ ts, p.TakesTree closers ts f fs q ∧ (p.head ≠ .eof → 0 < n → ts ≠ [])
  | 0, _, p, _, _, _, _, _, _, hl, _, hf =>
    Runs.pure ⟨[], (Parser.Peeked.refl p).takesNothing _ hl hf, fun _ h => absurd h (Nat.lt_irrefl 0)⟩
  | n + 1, closers, p, s, f, fs, hs, hsb, hc, hl, htr, hf => by
    rw [tokenTree]
    refine Runs.bind ((current_runs hs hsb).mono fun k q post => ?_)
    obtain ⟨hk, hq⟩ := post
    subst hk
    have hbump (hp : p.head ≠ .eof) := bump_places (by rwa [hq.head_eq]) (hq.lagged.trans hl)
      (by rwa [hq.rest]) (hq.frames.trans hf)
    have next : ∀ cl : List SyntaxKind, .eof ∉ cl → p.head ≠ .eof →
        (∀ ks, SyntaxKind.readsTree cl ks = true →
          SyntaxKind.readsTree closers (p.head :: ks) = true) →
        Runs (bump >>= fun _ => tokenTree n cl) q fun _ u =>
          ∃ ts, p.TakesTree closers ts f fs u ∧ (p.head ≠ .eof → 0 < n + 1 → ts ≠ []) := by
      intro cl hcl hp hstep
      refine Runs.bind ((hbump hp).mono fun _ q₁ post => ?_)
      obtain ⟨T, t, hr, hT, ht, htk, hl₁, hf₁, hb₁⟩ := post
      rw [hq.head_eq] at htk
      have hshort : longestTriviaRun q₁.rest < maxTokenRun :=
        Nat.lt_of_le_of_lt (longestTriviaRun_mono ⟨T ++ [t], by simp [hr]⟩) (hq.rest ▸ htr)
      refine (tokenTree_reads n cl (Parser.Spent.of_budget hb₁) (by decide) hcl hl₁ hshort
        hf₁).mono fun _ u post => ?_
      obtain ⟨ts, hts, -⟩ := post
      refine ⟨T ++ t :: ts, hts.after_bump (hq.rest ▸ hr) hT ht fun h => ?_, fun _ _ => by simp⟩
      rw [htk]
      exact hstep _ h
    split
    · rename_i c hcl
      obtain ⟨hp, hce⟩ := SyntaxKind.closer?_ne_eof hcl
      refine next _ (fun hmem => ?_) hp fun ks h => by simpa [SyntaxKind.readsTree, hcl] using h
      rcases List.mem_cons.1 hmem with h | h
      · exact hce h.symm
      · exact hc h
    · rename_i hnone
      by_cases hclose : (closers.head? == some p.head) = true
      · rw [if_pos hclose]
        have hp : p.head ≠ .eof := by
          intro h
          rw [h] at hclose
          exact hc (List.mem_of_mem_head? (by simpa using hclose))
        have hpaid : closers.head? = some p.head := by simpa using hclose
        by_cases htail : closers.tail.isEmpty = true
        · rw [if_pos htail]
          refine Runs.bind ((hbump hp).mono fun _ q₁ post => ?_)
          obtain ⟨T, t, hr, hT, ht, htk, hl₁, hf₁, -⟩ := post
          rw [hq.head_eq] at htk
          refine Runs.pure ⟨T ++ [t], ((Parser.Peeked.refl q₁).takesNothing [] hl₁ hf₁).after_bump
            (hq.rest ▸ hr) hT ht fun _ => ?_, fun _ _ => by simp⟩
          simp [SyntaxKind.readsTree, htk, hnone, hpaid, List.isEmpty_iff.1 htail]
        · rw [if_neg htail]
          exact next _ (fun h => hc (List.mem_of_mem_tail h)) hp fun ks h => by
            simpa [SyntaxKind.readsTree, hnone, hpaid, List.isEmpty_iff.not.1 htail] using h
      · rw [if_neg hclose]
        by_cases hend : p.head = .eof
        · rw [if_pos (by simp [hend])]
          exact (error_runs _).mono fun _ u hu =>
            ⟨[], (hq.trans hu).takesNothing _ hl hf, fun h => absurd hend h⟩
        · rw [if_neg (by simp [hend])]
          have hother : ¬closers.head? = some p.head := by simpa using hclose
          exact next _ hc hend fun ks h => by
            simpa [SyntaxKind.readsTree, hnone, hother, hend] using h

theorem tokenTree_shape {n : Nat} {fs : List (List Green)} (hs : p.Spent s)
    (hsb : s < lookaheadBudget) (hn : 0 < n) (ho : p.head.closer?.isSome = true)
    (hl : p.lagged = []) (htr : longestTriviaRun p.rest < maxTokenRun) (h0 : p.triviaAhead = 0)
    (hf : p.frames = [] :: fs) :
    Runs (tokenTree n []) p fun _ q => ∀ new gs, q.frames = new :: gs →
      Green.argumentShape new.reverse = true := by
  have hp : p.head ≠ .eof := fun h => by simp [h, SyntaxKind.closer?] at ho
  refine (tokenTree_reads n [] hs hsb (by simp) hl htr hf).mono fun _ q post => ?_
  obtain ⟨ts, ⟨hr, -, hfq, hreads⟩, hne⟩ := post
  intro new gs hq
  obtain ⟨rfl, -⟩ := List.cons_eq_cons.1 (hq.symm.trans hfq)
  obtain ⟨T, t, rest, hr', -, hlen, -, htk⟩ := Parser.rest_of_live hp
  obtain rfl : T = [] := List.length_eq_zero_iff.1 (hlen.trans h0)
  obtain ⟨o, ts, rfl⟩ := List.exists_cons_of_ne_nil (hne hp hn)
  have hot : o = t ∧ ts ++ q.rest = rest := by simpa using hr.symm.trans hr'
  obtain rfl := hot.1
  rw [List.append_nil, List.reverse_reverse]
  exact Green.argumentShape_tokens (htk ▸ ho) hreads

theorem treeNode_runs (k : SyntaxKind) (hk : k.chainRank = 0) (hs : p.Spent s)
    (hsb : s < lookaheadBudget) (hn : 8 * p.mark ≤ n + 3) (hp : p.head ≠ .eof)
    (hopen : k = .macroArgument → p.head.closer?.isSome = true) :
    Runs (treeNode n k) p fun _ q => Parser.Step 1 1 0 p q ∧ q.mark < p.mark := by
  unfold treeNode
  have hpos : 0 < n := by have := Parser.mark_pos hp; omega
  refine Runs.bind <| start_runs <| Runs.bind <| ((tokenTree_runs n [] (start_spent hs) hsb
    (by simpa using hn) (by simp)).and (Runs.imp fun hpre : k = .macroArgument ∧ p.lagged = [] ∧
      longestTriviaRun p.rest < maxTokenRun =>
    tokenTree_shape (start_spent hs) hsb hpos (by simpa using hopen hpre.1)
      (Parser.skipTrivia_lagged hpre.2.1)
      (Nat.lt_of_le_of_lt (longestTriviaRun_mono (List.dropWhile_suffix _)) hpre.2.2)
      (start_run_triviaAhead p) rfl)).mono fun _ q post => ?_
  obtain ⟨⟨hq, hcons⟩, hshape⟩ := post
  have hm : q.mark < p.mark := by simpa using hcons (by simpa using hp)
  exact ⟨hq.close hm (.inr (by omega)) (by omega)
    fun hk hl htr new _ _ _ hnew => hshape ⟨hk, hl, htr⟩ new _ hnew, by simpa using hm⟩

theorem genericRounds_runs : ∀ (n : Nat) {p : Parser} {s : Nat}, p.Spent s →
    s + 3 ≤ lookaheadBudget → Runs (genericRounds n) p fun _ q => Parser.Step 0 3 3 p q
  | 0, p, _, _, _ => Runs.pure ((Parser.Step.refl p).mono le_rfl (by omega) (by omega))
  | n + 1, p, s, hs, hsb => by
    rw [genericRounds]
    refine Runs.bind ((atKind_runs .gt hs (by omega)).mono fun b q₁ post => ?_)
    obtain ⟨hb₁, h₁⟩ := post
    split
    · exact Runs.pure (h₁.step.mono le_rfl (by omega) (by omega))
    refine Runs.bind ((atEnd_runs (h₁.spent hs) (by omega)).mono fun b q₂ post => ?_)
    obtain ⟨hb₂, h₂⟩ := post
    split
    · exact Runs.pure ((h₁.trans h₂).step.mono le_rfl (by omega) (by omega))
    rename_i hend
    have h₁₂ := h₁.trans h₂
    refine Runs.bind ((atAny_runs [.lBrace, .semicolon] (h₁₂.spent hs) (by omega)).mono
      fun b q₃ post => ?_)
    obtain ⟨hb₃, h₃⟩ := post
    have h₁₂₃ := h₁₂.trans h₃
    split
    · exact Runs.bind ((error_runs _).mono fun _ u hu =>
        Runs.pure ((h₁₂₃.trans hu).step.mono le_rfl (by omega) (by omega)))
    have hp : q₃.head ≠ .eof := by
      rw [h₃.head_eq, h₂.head_eq]
      subst hb₂
      simpa using hend
    refine Runs.bind ((bump_runs (r := 0) hp).mono fun _ q₄ post => ?_)
    obtain ⟨h₄, hb₄, hm₄, -⟩ := post
    have hm : q₄.mark < p.mark := by rwa [h₃.mark_eq, h₂.mark_eq, h₁.mark_eq] at hm₄
    exact (genericRounds_runs n (Parser.Spent.of_budget hb₄) (by decide)).mono fun _ u hu =>
      ((h₁₂₃.step.trans h₄).chain hm hu).mono le_rfl (by omega) (by omega)

theorem genericParams_runs (hs : p.Spent s) (hsb : s < lookaheadBudget) :
    Runs (genericParams n) p fun _ q => Parser.Step 0 1 4 p q := by
  unfold genericParams
  refine Runs.bind ((eat_runs (r := 0) .lt (by decide) hs hsb).mono fun b q₁ post => ?_)
  obtain ⟨_, h₁, hb₁⟩ := post
  split
  · rename_i hb
    obtain ⟨hbud, hm⟩ := hb₁ hb
    refine Runs.bind ((genericRounds_runs n (Parser.Spent.of_budget hbud) (by decide)).mono
      fun b q₂ h₂ => ?_)
    split
    · exact (expect_runs .gt (by decide) (h₂.spent (Parser.Spent.of_budget hbud)) (by decide)).mono
        fun _ u hu => ((h₁.chain hm h₂).trans hu.1).mono le_rfl (by omega) (by omega)
    · exact Runs.pure ((h₁.chain hm h₂).mono le_rfl (by omega) (by omega))
  · exact Runs.pure (h₁.mono le_rfl le_rfl (by omega))

theorem macroCallParts_runs (hn : 8 * p.mark ≤ n + 11) (hc : p.callAhead = true) :
    Runs (macroCallParts n) p fun _ q => Parser.Step 1 0 1 p q ∧ q.mark < p.mark := by
  unfold macroCallParts
  refine Runs.bind ((path_runs (Parser.callAhead_live hc)).mono fun _ q₁ post => ?_)
  obtain ⟨h₁, hm₁, -, hh₁⟩ := post
  have hbang : q₁.head ≠ .eof := by
    simp only [Parser.callAhead, Bool.and_eq_true, beq_iff_eq] at hc
    rw [hh₁, hc.2]
    decide
  refine Runs.bind ((bump_runs (r := 1) hbang).mono fun _ q₂ post => ?_)
  obtain ⟨h₂, hb₂, -⟩ := post
  have h₁₂ := (h₁.chain hm₁ h₂).mono le_rfl le_rfl (Nat.zero_le 0)
  have hm₂ : q₂.mark < p.mark := Nat.lt_of_le_of_lt h₂.mark_le hm₁
  refine Runs.bind ((atAny_runs [.lParen, .lBrace, .lBracket] (Parser.Spent.of_budget hb₂)
    (by decide)).mono fun b q₃ ⟨hb₃, h₃⟩ => ?_)
  split
  · rename_i hb
    have hlive : q₃.head ≠ .eof := by
      rw [h₃.head_eq]
      intro h
      simp [hb₃, h] at hb
    have hopen : q₃.head.closer?.isSome = true := by
      rw [hb₃] at hb
      simp only [List.contains_cons, List.contains_nil, Bool.or_false, Bool.or_eq_true,
        beq_iff_eq] at hb
      rw [h₃.head_eq]
      rcases hb with h | h | h <;> simp [h, SyntaxKind.closer?]
    refine (treeNode_runs .macroArgument rfl (h₃.spent (Parser.Spent.of_budget hb₂)) (by decide)
      (by rw [h₃.mark_eq]; omega) hlive fun _ => hopen).mono fun _ u ⟨hu, hm⟩ => ⟨?_, ?_⟩
    · exact ((h₁₂.trans h₃.step).then_consumed hu fun _ => hm).mono le_rfl (Nat.zero_le _) (by omega)
    · exact Nat.lt_of_le_of_lt hu.mark_le (h₃.mark_eq ▸ hm₂)
  · exact (error_runs _).mono fun _ u hu =>
      ⟨((h₁₂.trans (h₃.trans hu).step).consumed (by rw [hu.mark_eq, h₃.mark_eq]; exact hm₂)).mono
        le_rfl le_rfl (by omega), by rw [hu.mark_eq, h₃.mark_eq]; exact hm₂⟩

theorem macroCall_runs (hn : 8 * p.mark ≤ n + 11) (hc : p.callAhead = true) :
    Runs (macroCall n) p fun _ q => Parser.Step 2 0 1 p q ∧ q.mark < p.mark := by
  unfold macroCall
  refine Runs.bind <| start_runs <| Runs.bind <| (macroCallParts_runs (by simpa using hn)
    (by simpa using hc)).mono fun _ q ⟨hq, hm⟩ => ?_
  have hm : q.mark < p.mark := by simpa using hm
  exact ⟨hq.close hm (.inr le_rfl) le_rfl (by simp), by simpa using hm⟩

theorem atFragmentEnd_runs (stop : List SyntaxKind) (hs : p.Spent s)
    (hsb : s + 3 ≤ lookaheadBudget) :
    Runs (atFragmentEnd stop) p fun b q => b = p.fragmentEnds stop ∧ p.Peeked 3 q := by
  unfold atFragmentEnd
  refine Runs.bind ((atEnd_runs hs (by omega)).mono fun b q₁ ⟨hb₁, h₁⟩ => ?_)
  split
  · rename_i hb
    exact Runs.pure ⟨by simp_all [Parser.fragmentEnds], h₁.mono (by omega)⟩
  rename_i hb
  refine Runs.bind ((atAny_runs stop (h₁.spent hs) (by omega)).mono fun b q₂ ⟨hb₂, h₂⟩ => ?_)
  split
  · exact Runs.pure ⟨by simp_all [Parser.fragmentEnds, h₁.head_eq], (h₁.trans h₂).mono (by omega)⟩
  rename_i hb'
  refine (atAny_runs _ ((h₁.trans h₂).spent hs) (by omega)).mono fun b q₃ ⟨hb₃, h₃⟩ => ?_
  refine ⟨?_, ((h₁.trans h₂).trans h₃).mono (by omega)⟩
  simp_all [Parser.fragmentEnds, h₁.head_eq, h₂.head_eq]

theorem atItemStart_runs (hs : p.Spent s) (hsb : s + 3 ≤ lookaheadBudget) :
    Runs atItemStart p fun b q => b = p.itemAhead ∧ p.Peeked 3 q := by
  unfold atItemStart
  refine Runs.bind ((atAny_runs [.pound, .structKw, .fnKw, .modKw, .typeKw] hs (by omega)).mono
    fun b q₁ ⟨hb₁, h₁⟩ => ?_)
  split
  · exact Runs.pure ⟨by simp_all [Parser.itemAhead], h₁.mono (by omega)⟩
  rename_i hb
  refine (atMacroCall_runs (h₁.spent hs) (by omega)).mono fun b q₂ ⟨hb₂, h₂⟩ => ?_
  refine ⟨?_, (h₁.trans h₂).mono (by omega)⟩
  simp_all [Parser.itemAhead, Parser.callAhead, h₁.head_eq, h₁.rest]

theorem fragmentTokens_runs (stop : List SyntaxKind) : ∀ (n : Nat) {p : Parser} {s : Nat},
    p.Spent s → s + 7 ≤ lookaheadBudget → 8 * p.mark ≤ n + 2 →
    Runs (fragmentTokens n stop) p fun _ q => Parser.Step 2 3 4 p q ∧
      q.fragmentEnds stop = true ∧ (p.fragmentEnds stop = false → q.mark < p.mark)
  | 0, p, _, _, _, hn => by
    have hend : p.head = .eof := by
      by_contra hp
      have := Parser.mark_pos hp
      omega
    exact Runs.pure ⟨(Parser.Step.refl p).mono (Nat.zero_le _) (Nat.zero_le _) (Nat.zero_le _),
      by simp [Parser.fragmentEnds, hend], by simp [Parser.fragmentEnds, hend]⟩
  | n + 1, p, s, hs, hsb, hn => by
    rw [fragmentTokens]
    refine Runs.bind ((atFragmentEnd_runs stop hs (by omega)).mono fun b q₁ post => ?_)
    obtain ⟨hb₁, h₁⟩ := post
    subst hb₁
    by_cases hend : p.fragmentEnds stop = true
    · rw [if_pos hend]
      exact Runs.pure ⟨h₁.step.mono (Nat.zero_le _) le_rfl (Nat.zero_le _),
        by simpa [Parser.fragmentEnds, h₁.head_eq] using hend, fun h => absurd hend (by simp [h])⟩
    rw [if_neg hend]
    have hlive : p.head ≠ .eof := fun h => hend (by simp [Parser.fragmentEnds, h])
    have next : ∀ {q : Parser} {d : Nat}, Parser.Step 2 0 d p q → q.mark < p.mark → d ≤ 1 →
        Runs (fragmentTokens n stop) q fun _ u => Parser.Step 2 3 4 p u ∧
          u.fragmentEnds stop = true ∧ (p.fragmentEnds stop = false → u.mark < p.mark) := by
      intro q d hq hm hd
      refine (fragmentTokens_runs stop n ((hq.spent_of_consumed hm).mono hd) (by decide)
        (by omega)).mono fun _ u post => ?_
      obtain ⟨hu, hends, -⟩ := post
      exact ⟨(hq.chain hm hu).mono le_rfl (Nat.zero_le _) (by omega), hends,
        fun _ => Nat.lt_of_le_of_lt hu.mark_le hm⟩
    refine Runs.bind ((atMacroCall_runs (h₁.spent hs) (by omega)).mono fun b q₂ post => ?_)
    obtain ⟨hb₂, h₂⟩ := post
    have h₁₂ := h₁.trans h₂
    split
    · rename_i hb
      refine Runs.bind ((macroCall_runs (by rw [h₁₂.mark_eq]; omega)
        (by rw [h₂.callAhead_eq, ← hb₂, hb])).mono fun _ q₃ post => ?_)
      obtain ⟨h₃, hm₃⟩ := post
      rw [h₁₂.mark_eq] at hm₃
      exact next ((h₁₂.step.trans h₃).consumed hm₃ |>.mono le_rfl le_rfl (by omega)) hm₃ le_rfl
    refine Runs.bind ((current_runs (h₁₂.spent hs) (by omega)).mono fun k q₃ post => ?_)
    obtain ⟨hk, h₃⟩ := post
    have h₁₂₃ := h₁₂.trans h₃
    subst hk
    split
    · refine Runs.bind ((tokenTree_runs n [] (h₁₂₃.spent hs |>.mono le_rfl) (by omega)
        (by rw [h₁₂₃.mark_eq]; omega) (by simp)).mono fun _ q₄ post => ?_)
      obtain ⟨h₄, hm₄⟩ := post
      have hm : q₄.mark < p.mark := by
        have := hm₄ (by rwa [h₁₂₃.head_eq])
        rwa [h₁₂₃.mark_eq] at this
      exact next (((h₁₂₃.step.trans h₄).consumed hm).mono (by omega) le_rfl le_rfl) hm (by omega)
    · refine Runs.bind ((bump_runs (r := 2) (by rwa [h₁₂₃.head_eq])).mono fun _ q₄ post => ?_)
      obtain ⟨h₄, -, hm₄, -⟩ := post
      have hm : q₄.mark < p.mark := by rwa [h₁₂₃.mark_eq] at hm₄
      exact next ((h₁₂₃.step.trans h₄).consumed hm) hm (Nat.zero_le _)

theorem fragment_runs {k : SyntaxKind} (hk : k.chainRank = 2) (stop : List SyntaxKind)
    (hs : p.Spent s) (hsb : s + 10 ≤ lookaheadBudget) (hn : 8 * p.mark ≤ n + 2) :
    Runs (fragment n k stop) p fun _ q => Parser.Step 3 6 4 p q ∧
      q.fragmentEnds stop = true ∧ (p.fragmentEnds stop = false → q.mark < p.mark) := by
  unfold fragment
  refine Runs.bind ((atFragmentEnd_runs stop hs (by omega)).mono fun b q₁ ⟨hb₁, h₁⟩ => ?_)
  subst hb₁
  by_cases hend : p.fragmentEnds stop = true
  · rw [if_pos hend]
    exact (error_runs _).mono fun _ u hu => ⟨(h₁.trans hu).step.mono le_rfl (by omega) (by omega),
      by simpa [Parser.fragmentEnds, h₁.head_eq, hu.head_eq] using hend,
      fun h => absurd hend (by simp [h])⟩
  rw [if_neg hend]
  have hends₁ : q₁.fragmentEnds stop = false := by
    simpa [Parser.fragmentEnds, h₁.head_eq] using hend
  refine Runs.bind <| start_runs <| Runs.bind <| (fragmentTokens_runs stop n
    (start_spent (h₁.spent hs)) (by omega) (by simpa [h₁.mark_eq] using hn)).mono
      fun _ q ⟨hq, hends, hcons⟩ => ?_
  have hm : q.mark < q₁.mark := by
    simpa using hcons (by simpa [Parser.fragmentEnds] using hends₁)
  refine ⟨(h₁.step.trans (hq.close hm (.inr (by omega)) (by omega)
    (fun h => by subst h; exact absurd hk (by decide)))).mono le_rfl (by omega)
    (by omega), ?_, fun _ => ?_⟩
  · simpa [Parser.fragmentEnds, Parser.head] using hends
  · simpa [h₁.mark_eq] using hm

theorem attr_runs (hn : 8 * p.mark ≤ n + 11) (hp : p.head ≠ .eof) :
    Runs (attr n) p fun _ q => Parser.Step 1 0 4 p q ∧ q.mark < p.mark := by
  unfold attr
  have close : ∀ {u : Parser} {d : Nat}, Parser.Step 1 0 d (start.run p).2 u → u.mark < p.mark →
      u.HoldsToken → d ≤ 3 → Runs (do expect .rBracket; complete .attr) u fun _ v =>
        Parser.Step 1 0 4 p v ∧ v.mark < p.mark := by
    intro u d hu hmu hhu hd
    have hmu' : u.mark < (start.run p).2.mark := by simpa using hmu
    refine Runs.bind ((expect_runs (r := 1) .rBracket (by decide) ((hu.spent_of_consumed hmu').mono hd)
      (by decide)).mono fun _ v ⟨hv, _⟩ => ?_)
    have hmv : v.mark < p.mark := Nat.lt_of_le_of_lt hv.mark_le hmu
    exact ⟨((hu.chain hmu' hv).close hmv (.inl (hv.holds hhu)) le_rfl (by simp)).mono le_rfl le_rfl
      (by omega), by simpa using hmv⟩
  have tail : ∀ {q : Parser} {d : Nat}, Parser.Step 1 0 d (start.run p).2 q → q.mark < p.mark →
      q.HoldsToken → d ≤ 2 → Runs (do
        let b ← atKind .lParen
        if b = true then do treeNode n .attrArgs; expect .rBracket; complete .attr
        else do expect .rBracket; complete .attr) q fun _ v =>
          Parser.Step 1 0 4 p v ∧ v.mark < p.mark := by
    intro q d hq hm hh hd
    have hm' : q.mark < (start.run p).2.mark := by simpa using hm
    have hs := (hq.spent_of_consumed hm').mono hd
    refine Runs.bind ((atKind_runs .lParen hs (by decide)).mono fun b q₅ ⟨hb₅, h₅⟩ => ?_)
    have hq₅ := hq.trans h₅.step
    split
    · rename_i hb
      have hlive : q₅.head ≠ .eof := by
        rw [h₅.head_eq]; intro h; simp [hb₅, h] at hb
      refine Runs.bind ((treeNode_runs .attrArgs rfl (h₅.spent hs) (by decide)
        (by rw [h₅.mark_eq]; omega) hlive (by simp)).mono fun _ u ⟨hu, hmu⟩ => ?_)
      exact close ((hq₅.then_consumed hu fun _ => hmu).mono le_rfl (Nat.zero_le _) le_rfl)
        (Nat.lt_of_le_of_lt hu.mark_le (h₅.mark_eq ▸ hm)) (hu.holds (h₅.holds hh)) (by omega)
    · exact close (hq₅.consumed (h₅.mark_eq ▸ hm')) (h₅.mark_eq ▸ hm) (h₅.holds hh) (by omega)
  refine Runs.bind <| start_runs <| Runs.bind <|
    (bump_runs (r := 1) (by simpa using hp)).mono fun _ q₁ post => ?_
  obtain ⟨h₁, hb₁, hm₁, hh₁, -⟩ := post
  have hm₁' : q₁.mark < p.mark := by simpa using hm₁
  refine Runs.bind ((expect_runs (r := 1) .lBracket (by decide) (Parser.Spent.of_budget hb₁)
    (by decide)).mono
    fun _ q₂ ⟨h₂, _⟩ => ?_)
  have h₁₂ := h₁.chain hm₁ h₂
  have hm₂ : q₂.mark < p.mark := Nat.lt_of_le_of_lt h₂.mark_le hm₁'
  have hs₂ := h₁₂.spent_of_consumed (by simpa using hm₂)
  refine Runs.bind ((atKind_runs .ident hs₂ (by decide)).mono fun b q₃ ⟨hb₃, h₃⟩ => ?_)
  have h₁₃ := h₁₂.trans h₃.step
  have hh₃ := h₃.holds (h₂.holds hh₁)
  split
  · rename_i hb
    have hlive : q₃.head ≠ .eof := by
      rw [h₃.head_eq]; intro h; simp [hb₃, h] at hb
    refine Runs.bind ((path_runs hlive).mono fun _ q₄ ⟨h₄, hm₄, _⟩ => ?_)
    exact tail ((h₁₃.then_consumed h₄ fun _ => hm₄).mono le_rfl (Nat.zero_le _) le_rfl)
      (Nat.lt_trans hm₄ (h₃.mark_eq ▸ hm₂)) (h₄.holds hh₃) (Nat.zero_le _)
  · refine Runs.bind ((error_runs _).mono fun _ q₄ h₄ => ?_)
    exact tail ((h₁₃.trans h₄.step).consumed (by simpa [h₄.mark_eq, h₃.mark_eq] using hm₂))
      (by rw [h₄.mark_eq, h₃.mark_eq]; exact hm₂) (h₄.holds hh₃) (by omega)

theorem attrs_runs : ∀ (n : Nat) {p : Parser} {s : Nat}, p.Spent s → s < lookaheadBudget →
    8 * p.mark ≤ n + 7 → Runs (attrs n) p fun _ q => Parser.Step 1 1 5 p q ∧ q.head ≠ .pound ∧
      (p.head = .pound → q.mark < p.mark) ∧ (p.head ≠ .pound → p.Peeked 1 q)
  | 0, p, _, _, _, hn => by
    have hend : p.head = .eof := by
      by_contra hp
      have := Parser.mark_pos hp
      omega
    exact Runs.pure ⟨(Parser.Step.refl p).mono le_rfl (by omega) (by omega), by rw [hend]; decide,
      fun h => absurd (hend.symm.trans h) (by decide),
      fun _ => (Parser.Peeked.refl p).mono (by omega)⟩
  | n + 1, p, s, hs, hsb, hn => by
    rw [attrs]
    refine Runs.bind ((atKind_runs .pound hs hsb).mono fun b q₁ post => ?_)
    obtain ⟨hb₁, h₁⟩ := post
    subst hb₁
    by_cases hpound : p.head = .pound
    · rw [if_pos (by simp [hpound])]
      refine Runs.bind ((attr_runs (n := n) (by rw [h₁.mark_eq]; omega)
        (by rw [h₁.head_eq, hpound]; decide)).mono fun _ q₂ post => ?_)
      obtain ⟨h₂, hm₂⟩ := post
      rw [h₁.mark_eq] at hm₂
      have h₁₂ := (h₁.step.trans h₂).consumed hm₂
      refine (attrs_runs n (h₁₂.spent_of_consumed hm₂) (by decide) (by omega)).mono
        fun _ u post => ?_
      obtain ⟨hu, hne, -, -⟩ := post
      exact ⟨(h₁₂.chain hm₂ hu).mono le_rfl (Nat.zero_le _) (by omega), hne,
        fun _ => Nat.lt_of_le_of_lt hu.mark_le hm₂, fun h => absurd hpound h⟩
    · rw [if_neg (by simp [hpound])]
      exact Runs.pure ⟨h₁.step.mono le_rfl le_rfl (Nat.zero_le _), by rwa [h₁.head_eq],
        fun h => absurd h hpound, fun _ => h₁⟩

end Grammar

end MacroTrace
