import MacroTrace.Syntax.Grammar
import MacroTrace.Proofs.Syntax.Lexer

/-! What a parse tree is made of. Every grammar function adds trees to the innermost open node
and leaves the outer ones alone (`Pushes`); the tokens of what it adds are the tokens it took
from the input, in order. A bracket `start … complete k` is one added tree (`Closes`). From this,
the tree of a parse spells a prefix of the lexed text, and macro calls and attributes never
nest in themselves: a macro call node holds no macro call node, an attribute no attribute. -/
namespace MacroTrace

namespace Green

mutual
def has (k : SyntaxKind) : Green → Bool
  | token _ => false
  | node k' cs => k' == k || hasList k cs

def hasList (k : SyntaxKind) : List Green → Bool
  | [] => false
  | g :: gs => has k g || hasList k gs
end

/-- The kinds that never nest in themselves. -/
def selfFree (k : SyntaxKind) : Bool := k == .macroCall || k == .attr

mutual
/-- Whether no macro call node holds a macro call node and no attribute an attribute. -/
def wellNested : Green → Bool
  | token _ => true
  | node k cs => (!selfFree k || !hasList k cs) && wellNestedList cs

def wellNestedList : List Green → Bool
  | [] => true
  | g :: gs => wellNested g && wellNestedList gs
end

@[simp] theorem has_token (k : SyntaxKind) (t : Token) : (token t).has k = false := by simp [has]

@[simp] theorem has_node (k k' : SyntaxKind) (cs : List Green) :
    (node k' cs).has k = (k' == k || hasList k cs) := by simp [has]

@[simp] theorem hasList_nil (k : SyntaxKind) : hasList k [] = false := by simp [hasList]

@[simp] theorem hasList_cons (k : SyntaxKind) (g : Green) (gs : List Green) :
    hasList k (g :: gs) = (g.has k || hasList k gs) := by simp [hasList]

theorem hasList_eq_false {k : SyntaxKind} {cs : List Green} :
    hasList k cs = false ↔ ∀ c ∈ cs, c.has k = false := by
  induction cs with
  | nil => simp
  | cons g gs ih => simp [ih]

@[simp] theorem wellNested_token (t : Token) : (token t).wellNested = true := by simp [wellNested]

@[simp] theorem wellNested_node (k : SyntaxKind) (cs : List Green) :
    (node k cs).wellNested = ((!selfFree k || !hasList k cs) && wellNestedList cs) := by
  simp [wellNested]

theorem wellNestedList_eq_true {cs : List Green} :
    wellNestedList cs = true ↔ ∀ c ∈ cs, c.wellNested = true := by
  induction cs with
  | nil => simp [wellNestedList]
  | cons g gs ih => simp [wellNestedList, ih]

@[simp] theorem tokensList_nil : tokensList [] = [] := by simp [tokensList]

@[simp] theorem tokensList_cons (g : Green) (gs : List Green) :
    tokensList (g :: gs) = g.tokens ++ tokensList gs := by simp [tokensList]

@[simp] theorem tokens_token (t : Token) : (token t).tokens = [t] := by simp [tokens]

@[simp] theorem tokensList_append (gs hs : List Green) :
    tokensList (gs ++ hs) = tokensList gs ++ tokensList hs := by
  induction gs with
  | nil => simp
  | cons g gs ih => simp [ih]

@[simp] theorem tokensList_map_token (ts : List Token) : tokensList (ts.map token) = ts := by
  induction ts with
  | nil => simp
  | cons t ts ih => simp [ih]

def Plain (g : Green) : Prop := g.wellNested ∧ g.has .macroCall = false ∧ g.has .attr = false

def CallFree (g : Green) : Prop := g.wellNested ∧ g.has .macroCall = false

theorem Plain.callFree {g : Green} (h : Plain g) : CallFree g := ⟨h.1, h.2.1⟩

theorem plain_token (t : Token) : Plain (token t) := by simp [Plain]

theorem callFree_token (t : Token) : CallFree (token t) := (plain_token t).callFree

theorem wellNested_token' (t : Token) : (token t).wellNested := by simp

theorem wellNested_of_isToken {g : Green} (h : g.isToken) : g.wellNested := by
  cases g with
  | token t => simp
  | node _ _ => simp [isToken] at h

theorem plain_node_tokens {k : SyntaxKind} (hk : selfFree k = false) {cs : List Green}
    (h : ∀ c ∈ cs, c.isToken) : Plain (node k cs) := by
  have hc : ∀ c ∈ cs, Plain c := by
    intro c hc
    cases c with
    | token t => exact plain_token t
    | node _ _ => simp [isToken] at h; exact absurd (h _ hc) (by simp)
  simp only [selfFree, Bool.or_eq_false_iff, beq_eq_false_iff_ne, ne_eq] at hk
  refine ⟨?_, ?_, ?_⟩
  · simpa [wellNestedList_eq_true, selfFree, hk.1, hk.2] using fun c hc' => (hc c hc').1
  · simpa [hk.1, hasList_eq_false] using fun c hc' => (hc c hc').2.1
  · simpa [hk.2, hasList_eq_false] using fun c hc' => (hc c hc').2.2

theorem callFree_attr {cs : List Green} (h : ∀ c ∈ cs, Plain c) : CallFree (node .attr cs) := by
  refine ⟨?_, ?_⟩
  · simpa [selfFree, hasList_eq_false, wellNestedList_eq_true] using
      ⟨fun c hc => (h c hc).2.2, fun c hc => (h c hc).1⟩
  · simpa [hasList_eq_false] using fun c hc => (h c hc).2.1

theorem wellNested_call {cs : List Green} (h : ∀ c ∈ cs, CallFree c) :
    (node .macroCall cs).wellNested := by
  simpa [selfFree, hasList_eq_false, wellNestedList_eq_true] using
    ⟨fun c hc => (h c hc).2, fun c hc => (h c hc).1⟩

theorem wellNested_node_of {k : SyntaxKind} (hk : selfFree k = false) {cs : List Green}
    (h : ∀ c ∈ cs, c.wellNested) : (node k cs).wellNested := by
  simpa [hk, wellNestedList_eq_true] using h

end Green

/-! ### Adding trees to the open node -/

section Frames

variable {α β : Type}

theorem ParseM.run_bind (x : ParseM α) (f : α → ParseM β) (p : Parser) :
    (x >>= f).run p = (f (x.run p).1).run (x.run p).2 := rfl

theorem ParseM.run_modify (g : Parser → Parser) (p : Parser) :
    (modify g : ParseM Unit).run p = ((), g p) := rfl

namespace Parser

def unplaced (p : Parser) : List Token := p.lagged ++ p.rest

end Parser

def Pushes (P : Green → Prop) (x : ParseM α) : Prop :=
  ∀ p f fs, p.frames = f :: fs → ∃ new, (x.run p).2.frames = (new ++ f) :: fs ∧
    (∀ g ∈ new, P g) ∧ Green.tokensList new.reverse ++ (x.run p).2.unplaced = p.unplaced

def Closes (Q P : Green → Prop) (y : ParseM α) : Prop :=
  ∀ p cur g fs, p.frames = cur :: g :: fs → (∀ c ∈ cur, Q c) →
    ∃ t, (y.run p).2.frames = (t :: g) :: fs ∧ P t ∧
      t.tokens ++ (y.run p).2.unplaced = Green.tokensList cur.reverse ++ p.unplaced

namespace Pushes

variable {P Q : Green → Prop}

theorem of_frames_unplaced {x : ParseM α}
    (h : ∀ p, (x.run p).2.frames = p.frames ∧ (x.run p).2.unplaced = p.unplaced) : Pushes P x := by
  intro p f fs hf
  refine ⟨[], ?_, by simp, ?_⟩ <;> simp [(h p).1, (h p).2, hf]

theorem pure (a : α) : Pushes P (Pure.pure a : ParseM α) :=
  of_frames_unplaced fun _ => ⟨rfl, rfl⟩

theorem bind {x : ParseM α} {f : α → ParseM β} (hx : Pushes P x) (hf : ∀ a, Pushes P (f a)) :
    Pushes P (x >>= f) := by
  intro p fr fs h
  obtain ⟨new₁, h₁, hP₁, ht₁⟩ := hx p fr fs h
  obtain ⟨new₂, h₂, hP₂, ht₂⟩ := hf (x.run p).1 (x.run p).2 (new₁ ++ fr) fs h₁
  refine ⟨new₂ ++ new₁, ?_, ?_, ?_⟩
  · rw [ParseM.run_bind, h₂, List.append_assoc]
  · intro g hg
    rcases List.mem_append.1 hg with hg | hg
    · exact hP₂ g hg
    · exact hP₁ g hg
  · rw [ParseM.run_bind, List.reverse_append, Green.tokensList_append, List.append_assoc, ht₂, ht₁]

theorem ite {c : Prop} [Decidable c] {x y : ParseM α} (hx : Pushes P x) (hy : Pushes P y) :
    Pushes P (if c then x else y) := by
  split
  · exact hx
  · exact hy

theorem mono {x : ParseM α} (hx : Pushes P x) (hPQ : ∀ g, P g → Q g) : Pushes Q x := by
  intro p f fs h
  obtain ⟨new, h₁, hP, ht⟩ := hx p f fs h
  exact ⟨new, h₁, fun g hg => hPQ g (hP g hg), ht⟩

end Pushes

namespace Closes

variable {P Q : Green → Prop}

theorem complete (k : SyntaxKind) (h : ∀ cs, (∀ c ∈ cs, Q c) → P (.node k cs)) :
    Closes Q P (MacroTrace.complete k) := by
  intro p cur g fs hf hQ
  refine ⟨.node k cur.reverse, ?_, h _ fun c hc => hQ c (List.mem_reverse.1 hc), ?_⟩ <;>
    rw [MacroTrace.complete, ParseM.run_modify] <;> simp [hf, Parser.push, Parser.unplaced]

theorem bind {x : ParseM α} {f : α → ParseM β} (hx : Pushes Q x) (hf : ∀ a, Closes Q P (f a)) :
    Closes Q P (x >>= f) := by
  intro p cur g fs h hQ
  obtain ⟨new, h₁, hQ₁, ht₁⟩ := hx p cur (g :: fs) h
  have hQ' : ∀ c ∈ new ++ cur, Q c := by
    intro c hc
    rcases List.mem_append.1 hc with hc | hc
    · exact hQ₁ c hc
    · exact hQ c hc
  obtain ⟨t, h₂, hP, ht₂⟩ := hf (x.run p).1 (x.run p).2 (new ++ cur) g fs h₁ hQ'
  refine ⟨t, by rw [ParseM.run_bind, h₂], hP, ?_⟩
  rw [ParseM.run_bind, ht₂, List.reverse_append, Green.tokensList_append, List.append_assoc, ht₁]

theorem ite {c : Prop} [Decidable c] {x y : ParseM α} (hx : Closes Q P x) (hy : Closes Q P y) :
    Closes Q P (if c then x else y) := by
  split
  · exact hx
  · exact hy

theorem weaken {Q' : Green → Prop} {y : ParseM α} (hy : Closes Q' P y) (hQ : ∀ g, Q g → Q' g) :
    Closes Q P y := by
  intro p cur g fs h hc
  exact hy p cur g fs h fun c hc' => hQ c (hc c hc')

end Closes

/-! ### The primitive moves -/

namespace Parser

variable {p : Parser} {f : List Green} {fs : List (List Green)}

@[simp] theorem unplaced_withFrames (q : Parser) (fr : List (List Green)) :
    ({ q with frames := fr } : Parser).unplaced = q.unplaced := rfl

@[simp] theorem push_rest (g : Green) : (p.push g).rest = p.rest := by
  unfold push; split <;> rfl

@[simp] theorem push_lagged (g : Green) : (p.push g).lagged = p.lagged := by
  unfold push; split <;> rfl

theorem place_frames (n : Nat) (h : p.frames = f :: fs) :
    (p.place n).frames = (((p.lagged.take n).map .token).reverse ++ f) :: fs := by
  simp [place, pushTokens, h]

theorem place_unplaced (n : Nat) : p.lagged.take n ++ (p.place n).unplaced = p.unplaced := by
  simp only [place, unplaced, ← List.append_assoc, List.take_append_drop]

@[simp] theorem takeTrivia_unplaced (p : Parser) : p.takeTrivia.unplaced = p.unplaced := by
  simp [takeTrivia, unplaced, List.takeWhile_append_dropWhile]

@[simp] theorem shift_frames (p : Parser) : p.shift.frames = p.frames := by
  unfold shift; split <;> rfl

@[simp] theorem shift_unplaced (p : Parser) : p.shift.unplaced = p.unplaced := by
  unfold shift
  split
  · rename_i t ts hr
    simp [unplaced, hr]
  · rfl

/-- A move that only consumes, followed by placing, places tokens in order from those not yet
placed. -/
theorem place_spec {q : Parser} (n : Nat) (hf : q.frames = f :: fs) (hu : q.unplaced = p.unplaced) :
    ∃ ts : List Token, (q.place n).frames = ((ts.map .token).reverse ++ f) :: fs ∧
      ts ++ (q.place n).unplaced = p.unplaced :=
  ⟨_, place_frames n hf, by rw [place_unplaced, hu]⟩

theorem skipTrivia_spec (h : p.frames = f :: fs) :
    ∃ ts : List Token, p.skipTrivia.frames = ((ts.map .token).reverse ++ f) :: fs ∧
      ts ++ p.skipTrivia.unplaced = p.unplaced :=
  place_spec _ h (takeTrivia_unplaced p)

end Parser

namespace Pushes

variable {P : Green → Prop}

theorem of_tokens (hP : ∀ t, P (.token t)) {x : ParseM α}
    (h : ∀ p f fs, p.frames = f :: fs → ∃ ts : List Token,
      (x.run p).2.frames = ((ts.map .token).reverse ++ f) :: fs ∧
        ts ++ (x.run p).2.unplaced = p.unplaced) :
    Pushes P x := by
  intro p f fs hf
  obtain ⟨ts, h₁, h₂⟩ := h p f fs hf
  refine ⟨(ts.map .token).reverse, h₁, ?_, by simpa using h₂⟩
  intro g hg
  obtain ⟨t, -, rfl⟩ := List.mem_map.1 (List.mem_reverse.1 hg)
  exact hP t

theorem nth (n : Nat) : Pushes P (MacroTrace.nth n) := by
  refine of_frames_unplaced fun p => ?_
  simp only [MacroTrace.nth, modifyGet, MonadStateOf.modifyGet, StateT.modifyGet, StateT.run]
  split
  · split <;> exact ⟨rfl, rfl⟩
  · exact ⟨rfl, rfl⟩

theorem current : Pushes P MacroTrace.current := nth 0

theorem atKind (k : SyntaxKind) : Pushes P (MacroTrace.atKind k) := current.bind fun _ => pure _

theorem atAny (ks : List SyntaxKind) : Pushes P (MacroTrace.atAny ks) :=
  current.bind fun _ => pure _

theorem atEnd : Pushes P MacroTrace.atEnd := atKind _

theorem atMacroCall : Pushes P MacroTrace.atMacroCall :=
  (atKind _).bind fun _ => ite ((nth 1).bind fun _ => pure _) (pure _)

theorem error (e : SyntaxError) : Pushes P (MacroTrace.error e) :=
  of_frames_unplaced fun _ => ⟨rfl, rfl⟩

theorem bump (hP : ∀ t, P (.token t)) : Pushes P MacroTrace.bump := by
  refine of_tokens hP fun p f fs hf => ?_
  have hq : ({ p.takeTrivia with budget := lookaheadBudget } : Parser).unplaced = p.unplaced :=
    Parser.takeTrivia_unplaced p
  simp only [MacroTrace.bump, ParseM.run_modify]
  split
  · split
    · exact Parser.place_spec _ hf hq
    · exact Parser.place_spec _ (by rw [Parser.shift_frames]; exact hf)
        (by rw [Parser.shift_unplaced]; exact hq)
  · exact Parser.place_spec _ hf hq

theorem eat (hP : ∀ t, P (.token t)) (k : SyntaxKind) : Pushes P (MacroTrace.eat k) :=
  (atKind k).bind fun _ => ite ((bump hP).bind fun _ => pure _) (pure _)

theorem expect (hP : ∀ t, P (.token t)) (k : SyntaxKind) : Pushes P (MacroTrace.expect k) :=
  (eat hP k).bind fun _ => ite (pure _) (error _)

theorem start_closes {Q : Green → Prop} (hP : ∀ t, P (.token t)) {y : ParseM α}
    (hy : Closes Q P y) : Pushes P (MacroTrace.start >>= fun _ => y) := by
  intro p f fs hf
  obtain ⟨ts, h₁, h₂⟩ := Parser.skipTrivia_spec hf
  have hs : (MacroTrace.start.run p).2.frames = [] :: ((ts.map .token).reverse ++ f) :: fs := by
    simp only [MacroTrace.start, ParseM.run_modify, h₁]
  obtain ⟨t, h₃, hPt, h₄⟩ := hy _ _ _ _ hs (by simp)
  refine ⟨t :: (ts.map .token).reverse, ?_, ?_, ?_⟩
  · rw [ParseM.run_bind, h₃]; rfl
  · intro g hg
    rcases List.mem_cons.1 hg with rfl | hg
    · exact hPt
    · obtain ⟨t', -, rfl⟩ := List.mem_map.1 (List.mem_reverse.1 hg)
      exact hP t'
  · rw [ParseM.run_bind]
    simp only [List.reverse_cons, List.reverse_reverse, Green.tokensList_append,
      Green.tokensList_map_token, Green.tokensList_cons, Green.tokensList_nil, List.append_nil,
      List.append_assoc, h₄]
    exact h₂

theorem errorBump (hP : ∀ t, P (.token t)) (hE : ∀ cs, (∀ c ∈ cs, c.isToken) → P (.node .errorNode cs))
    (e : SyntaxError) : Pushes P (MacroTrace.errorBump e) := by
  refine (error e).bind fun _ => (atKind _).bind fun _ => ite (pure _) ?_
  refine start_closes hP (Closes.bind (Q := fun g => g.isToken) (bump (by simp [Green.isToken])) fun _ => ?_)
  exact Closes.complete _ fun cs h => hE cs fun c hc => h c hc

end Pushes

end Frames

/-! ### The grammar -/

namespace Grammar

variable {P : Green → Prop}

theorem tokenTree_pushes (hP : ∀ t, P (.token t)) : ∀ n closers, Pushes P (tokenTree n closers)
  | 0, _ => Pushes.pure _
  | n + 1, closers => by
    rw [tokenTree]
    refine Pushes.current.bind fun k => ?_
    split
    · exact (Pushes.bump hP).bind fun _ => tokenTree_pushes hP n _
    · exact Pushes.ite ((Pushes.bump hP).bind fun _ => Pushes.ite (Pushes.pure _)
        (tokenTree_pushes hP n _)) (Pushes.ite (Pushes.error _)
          ((Pushes.bump hP).bind fun _ => tokenTree_pushes hP n _))

theorem genericRounds_pushes (hP : ∀ t, P (.token t)) : ∀ n, Pushes P (genericRounds n)
  | 0 => Pushes.pure _
  | n + 1 => by
    rw [genericRounds]
    refine (Pushes.atKind _).bind fun _ => Pushes.ite (Pushes.pure _) ?_
    refine Pushes.atEnd.bind fun _ => Pushes.ite (Pushes.pure _) ?_
    refine (Pushes.atAny _).bind fun _ => Pushes.ite ((Pushes.error _).bind fun _ => Pushes.pure _) ?_
    exact (Pushes.bump hP).bind fun _ => genericRounds_pushes hP n

theorem genericParams_pushes (hP : ∀ t, P (.token t)) (n : Nat) : Pushes P (genericParams n) :=
  (Pushes.eat hP _).bind fun _ => Pushes.ite ((genericRounds_pushes hP n).bind fun _ =>
    Pushes.ite (Pushes.expect hP _) (Pushes.pure _)) (Pushes.pure _)

theorem node_over_tokens (hP : ∀ t, P (.token t)) {k : SyntaxKind}
    (hN : ∀ cs, (∀ c ∈ cs, c.isToken) → P (.node k cs)) {x : ParseM Unit}
    (hx : Pushes (fun g => g.isToken) x) :
    Pushes P (MacroTrace.start >>= fun _ => x >>= fun _ => MacroTrace.complete k) :=
  Pushes.start_closes hP (Closes.bind hx fun _ => Closes.complete k fun cs h => hN cs h)

theorem token_isToken (t : Token) : (Green.token t).isToken := rfl

theorem name_pushes (hP : ∀ t, P (.token t))
    (hN : ∀ cs, (∀ c ∈ cs, c.isToken) → P (.node .name cs)) : Pushes P name :=
  (Pushes.atKind _).bind fun _ => Pushes.ite
    (node_over_tokens hP hN (Pushes.bump token_isToken)) (Pushes.error _)

theorem path_pushes (hP : ∀ t, P (.token t))
    (hN : ∀ cs, (∀ c ∈ cs, c.isToken) → P (.node .path cs)) : Pushes P path :=
  node_over_tokens hP hN (Pushes.bump token_isToken)

theorem treeNode_pushes (hP : ∀ t, P (.token t)) {k : SyntaxKind}
    (hN : ∀ cs, (∀ c ∈ cs, c.isToken) → P (.node k cs)) (n : Nat) : Pushes P (treeNode n k) :=
  node_over_tokens hP hN (tokenTree_pushes token_isToken n [])

theorem macroCallParts_pushes (n : Nat) : Pushes Green.Plain (macroCallParts n) := by
  refine (path_pushes Green.plain_token fun _ h => Green.plain_node_tokens rfl h).bind fun _ => ?_
  refine (Pushes.bump Green.plain_token).bind fun _ => ?_
  exact (Pushes.atAny _).bind fun _ => Pushes.ite
    (treeNode_pushes Green.plain_token (fun _ h => Green.plain_node_tokens rfl h) n) (Pushes.error _)

theorem macroCall_pushes (n : Nat) : Pushes (fun g => g.wellNested) (macroCall n) :=
  Pushes.start_closes Green.wellNested_token'
    (Closes.bind ((macroCallParts_pushes n).mono fun _ h => h.callFree) fun _ =>
      Closes.complete _ fun _ h => Green.wellNested_call h)

theorem atFragmentEnd_pushes (stop : List SyntaxKind) : Pushes P (atFragmentEnd stop) :=
  Pushes.atEnd.bind fun _ => Pushes.ite (Pushes.pure _)
    ((Pushes.atAny _).bind fun _ => Pushes.ite (Pushes.pure _) (Pushes.atAny _))

theorem atItemStart_pushes : Pushes P atItemStart :=
  (Pushes.atAny _).bind fun _ => Pushes.ite (Pushes.pure _) Pushes.atMacroCall

theorem fragmentTokens_pushes :
    ∀ n stop, Pushes (fun g => g.wellNested) (fragmentTokens n stop)
  | 0, _ => Pushes.pure _
  | n + 1, stop => by
    rw [fragmentTokens]
    dsimp only
    have next := fragmentTokens_pushes n stop
    refine (atFragmentEnd_pushes stop).bind fun _ => Pushes.ite (Pushes.pure _) ?_
    refine Pushes.atMacroCall.bind fun _ => Pushes.ite ((macroCall_pushes n).bind fun _ => next) ?_
    exact Pushes.current.bind fun _ => Pushes.ite
      ((tokenTree_pushes Green.wellNested_token' n []).bind fun _ => next)
      ((Pushes.bump Green.wellNested_token').bind fun _ => next)

theorem fragment_pushes (n : Nat) {k : SyntaxKind} (hk : Green.selfFree k = false)
    (stop : List SyntaxKind) : Pushes (fun g => g.wellNested) (fragment n k stop) :=
  (atFragmentEnd_pushes stop).bind fun _ => Pushes.ite (Pushes.error _)
    (Pushes.start_closes Green.wellNested_token' (Closes.bind (fragmentTokens_pushes n stop)
      fun _ => Closes.complete _ fun _ h => Green.wellNested_node_of hk h))

theorem attr_pushes (n : Nat) : Pushes Green.CallFree (attr n) := by
  unfold attr
  dsimp only
  have hN : ∀ {k : SyntaxKind}, Green.selfFree k = false →
      ∀ cs, (∀ c ∈ cs, c.isToken) → Green.Plain (.node k cs) :=
    fun hk _ h => Green.plain_node_tokens hk h
  have tail : Closes Green.Plain Green.CallFree (do
      let b ← atKind .lParen
      if b = true then do treeNode n .attrArgs; expect .rBracket; complete .attr
      else do expect .rBracket; complete .attr) := by
    have close : Closes Green.Plain Green.CallFree (do expect .rBracket; complete .attr) :=
      Closes.bind (Pushes.expect Green.plain_token _) fun _ =>
        Closes.complete _ fun _ h => Green.callFree_attr h
    exact Closes.bind (Pushes.atKind _) fun _ =>
      Closes.ite (Closes.bind (treeNode_pushes Green.plain_token (hN rfl) n) fun _ => close) close
  refine Pushes.start_closes (Q := Green.Plain) Green.callFree_token ?_
  refine Closes.bind (Pushes.bump Green.plain_token) fun _ => ?_
  refine Closes.bind (Pushes.expect Green.plain_token _) fun _ => ?_
  exact Closes.bind (Pushes.atKind _) fun _ => Closes.ite
    (Closes.bind (path_pushes Green.plain_token (hN rfl)) fun _ => tail)
    (Closes.bind (Pushes.error _) fun _ => tail)

theorem attrs_pushes : ∀ n, Pushes Green.CallFree (attrs n)
  | 0 => Pushes.pure _
  | n + 1 => by
    rw [attrs]
    exact (Pushes.atKind _).bind fun _ =>
      Pushes.ite ((attr_pushes n).bind fun _ => attrs_pushes n) (Pushes.pure _)

theorem wellNested_closes {k : SyntaxKind} (hk : Green.selfFree k = false) :
    Closes (fun g => g.wellNested) (fun g => g.wellNested) (complete k) :=
  Closes.complete k fun _ h => Green.wellNested_node_of hk h

theorem errorBump_pushes (e : SyntaxError) : Pushes (fun g => g.wellNested) (errorBump e) :=
  Pushes.errorBump Green.wellNested_token'
    (fun _ h => Green.wellNested_node_of rfl fun c hc => Green.wellNested_of_isToken (h c hc)) e

theorem name_pushes' : Pushes (fun g => g.wellNested) name :=
  name_pushes Green.wellNested_token'
    (fun _ h => Green.wellNested_node_of rfl fun c hc => Green.wellNested_of_isToken (h c hc))

theorem treeNode_pushes' (n : Nat) {k : SyntaxKind} (hk : Green.selfFree k = false) :
    Pushes (fun g => g.wellNested) (treeNode n k) :=
  treeNode_pushes Green.wellNested_token'
    (fun _ h => Green.wellNested_node_of hk fun c hc => Green.wellNested_of_isToken (h c hc)) n

theorem items_pushes : ∀ n,
    (∀ stop, Pushes (fun g => g.wellNested) (itemsUntil n stop)) ∧
    Pushes (fun g => g.wellNested) (item n) ∧
    Pushes (fun g => g.wellNested) (structItem n) ∧
    Pushes (fun g => g.wellNested) (fnItem n) ∧
    Pushes (fun g => g.wellNested) (modItem n) ∧
    Pushes (fun g => g.wellNested) (typeAlias n) ∧
    Pushes (fun g => g.wellNested) (block n) ∧
    (∀ stop, Pushes (fun g => g.wellNested) (stmtsUntil n stop)) ∧
    Pushes (fun g => g.wellNested) (stmt n) ∧
    Pushes (fun g => g.wellNested) (letStmt n)
  | 0 => ⟨fun _ => Pushes.pure _, Pushes.pure _, Pushes.pure _, Pushes.pure _, Pushes.pure _,
      Pushes.pure _, Pushes.pure _, fun _ => Pushes.pure _, Pushes.pure _, Pushes.pure _⟩
  | n + 1 => by
    obtain ⟨hItems, hItem, hStruct, hFn, hMod, hType, hBlock, hStmts, hStmt, hLet⟩ := items_pushes n
    have hBump := Pushes.bump (P := fun g => g.wellNested) Green.wellNested_token'
    have hExpect := Pushes.expect (P := fun g => g.wellNested) Green.wellNested_token'
    have hEat := Pushes.eat (P := fun g => g.wellNested) Green.wellNested_token'
    refine ⟨fun stop => ?_, ?_, ?_, ?_, ?_, ?_, ?_, fun stop => ?_, ?_, ?_⟩
    · rw [itemsUntil]
      dsimp only
      exact (Pushes.atKind _).bind fun _ => Pushes.ite (Pushes.pure _)
        (Pushes.atEnd.bind fun _ => Pushes.ite (Pushes.pure _) (atItemStart_pushes.bind fun _ =>
          Pushes.ite (hItem.bind fun _ => hItems stop) ((errorBump_pushes _).bind fun _ => hItems stop)))
    · rw [item]
      refine Pushes.start_closes (Q := Green.CallFree) Green.wellNested_token'
        (Closes.bind (attrs_pushes n) fun _ => Closes.bind Pushes.current fun k => ?_)
      have body : ∀ {k : SyntaxKind} {x : ParseM Unit}, Green.selfFree k = false →
          Pushes (fun g => g.wellNested) x →
          Closes Green.CallFree (fun g => g.wellNested) (x >>= fun _ => complete k) :=
        fun hk hx => (Closes.bind hx fun _ => wellNested_closes hk).weaken fun _ h => h.1
      split
      · exact body rfl hStruct
      · exact body rfl hFn
      · exact body rfl hMod
      · exact body rfl hType
      · refine Closes.bind Pushes.atMacroCall fun _ => Closes.ite ?_ ?_
        · exact Closes.bind ((macroCallParts_pushes n).mono fun _ h => h.callFree) fun _ =>
            Closes.bind (Pushes.eat Green.callFree_token _) fun _ =>
              Closes.complete _ fun _ h => Green.wellNested_call h
        · exact Closes.bind (Pushes.error _) fun _ => Closes.complete _ fun _ h =>
            Green.wellNested_node_of rfl fun c hc => (h c hc).1
    · rw [structItem]
      refine hBump.bind fun _ => name_pushes'.bind fun _ =>
        (genericParams_pushes Green.wellNested_token' n).bind fun _ => Pushes.current.bind fun _ => ?_
      split
      · exact treeNode_pushes' n rfl
      · exact (treeNode_pushes' n rfl).bind fun _ => hExpect _
      · exact hExpect _
    · rw [fnItem]
      dsimp only
      have tail := (Pushes.atKind (P := fun g => g.wellNested) .lBrace).bind fun b =>
        Pushes.ite (c := b = true) hBlock (hExpect .semicolon)
      refine hBump.bind fun _ => name_pushes'.bind fun _ =>
        (genericParams_pushes Green.wellNested_token' n).bind fun _ => (Pushes.atKind _).bind fun _ =>
          Pushes.ite ((treeNode_pushes' n rfl).bind fun _ => ?_) ((Pushes.error _).bind fun _ => ?_) <;>
      exact (Pushes.atKind _).bind fun _ => Pushes.ite ((Pushes.nth 1).bind fun _ =>
        Pushes.ite (hBump.bind fun _ => hBump.bind fun _ =>
          (fragment_pushes n rfl _).bind fun _ => tail) tail) tail
    · rw [modItem]
      refine hBump.bind fun _ => name_pushes'.bind fun _ => (Pushes.atKind _).bind fun _ =>
        Pushes.ite ?_ (hExpect _)
      exact Pushes.start_closes Green.wellNested_token' (Closes.bind hBump fun _ =>
        Closes.bind (hItems _) fun _ => Closes.bind (hExpect _) fun _ => wellNested_closes rfl)
    · rw [typeAlias]
      exact hBump.bind fun _ => name_pushes'.bind fun _ =>
        (genericParams_pushes Green.wellNested_token' n).bind fun _ => (hExpect _).bind fun _ =>
          (fragment_pushes n rfl _).bind fun _ => hExpect _
    · rw [block]
      exact Pushes.start_closes Green.wellNested_token' (Closes.bind hBump fun _ =>
        Closes.bind (hStmts _) fun _ => Closes.bind (hExpect _) fun _ => wellNested_closes rfl)
    · rw [stmtsUntil]
      exact (Pushes.atKind _).bind fun _ => Pushes.ite (Pushes.pure _)
        (Pushes.atEnd.bind fun _ => Pushes.ite (Pushes.pure _) (hStmt.bind fun _ => hStmts stop))
    · rw [stmt]
      refine Pushes.current.bind fun k => ?_
      split
      · exact hLet
      · exact hBump
      · refine Pushes.atMacroCall.bind fun _ => Pushes.ite ?_ ?_
        · exact Pushes.start_closes Green.wellNested_token'
            (Closes.bind ((macroCallParts_pushes n).mono fun _ h => h.callFree) fun _ =>
              Closes.bind (Pushes.eat Green.callFree_token _) fun _ =>
                Closes.complete _ fun _ h => Green.wellNested_call h)
        · refine atItemStart_pushes.bind fun _ => Pushes.ite hItem (Pushes.ite (errorBump_pushes _) ?_)
          exact Pushes.start_closes Green.wellNested_token' (Closes.bind (fragment_pushes n rfl _)
            fun _ => Closes.bind (hEat _) fun _ => wellNested_closes rfl)
    · rw [letStmt]
      dsimp only
      have close : Closes (fun g => g.wellNested) (fun g => g.wellNested) (do
          expect .semicolon; complete .letStmt) :=
        Closes.bind (hExpect _) fun _ => wellNested_closes rfl
      have init : Closes (fun g => g.wellNested) (fun g => g.wellNested) (do
          let b ← eat .eq
          if b = true then do fragment n .expr [.semicolon]; expect .semicolon; complete .letStmt
          else do expect .semicolon; complete .letStmt) :=
        Closes.bind (hEat _) fun _ => Closes.ite (Closes.bind (fragment_pushes n rfl _) fun _ => close) close
      exact Pushes.start_closes Green.wellNested_token' (Closes.bind hBump fun _ =>
        Closes.bind (fragment_pushes n rfl _) fun _ => Closes.bind (hEat _) fun _ =>
          Closes.ite (Closes.bind (fragment_pushes n rfl _) fun _ => init) init)

theorem fragmentRounds_pushes : ∀ n, Pushes (fun g => g.wellNested) (fragmentRounds n)
  | 0 => Pushes.pure _
  | n + 1 => by
    rw [fragmentRounds]
    exact (fragmentTokens_pushes n []).bind fun _ => Pushes.atEnd.bind fun _ =>
      Pushes.ite (Pushes.pure _) ((errorBump_pushes _).bind fun _ => fragmentRounds_pushes n)

theorem entryBody_pushes (n : Nat) (entry : EntryPoint) :
    Pushes (fun g => g.wellNested) (entryBody n entry) := by
  cases entry with
  | sourceFile | items => exact (items_pushes n).1 _
  | stmts => exact (items_pushes n).2.2.2.2.2.2.2.1 _
  | expr | pat | type | lifetime => exact fragmentRounds_pushes n

end Grammar

theorem EntryPoint.selfFree_rootKind (entry : EntryPoint) : Green.selfFree entry.rootKind = false := by
  cases entry <;> rfl

theorem parse_tree_spec (text : String) (entry : EntryPoint) :
    ∃ rest, (parse text entry).tree.tokens ++ rest = lex text ∧
      (parse text entry).tree.wellNested ∧ (parse text entry).tree.kind = entry.rootKind := by
  let p₀ := Parser.init (lex text)
  let p₁ := ((Grammar.entryBody (stepAllowance (lex text)) entry).run p₀).2
  obtain ⟨new, h₁, hw, ht₁⟩ := Grammar.entryBody_pushes (stepAllowance (lex text)) entry p₀ [] []
    rfl
  obtain ⟨ts, h₂, ht₂⟩ := Parser.skipTrivia_spec (p := p₁) h₁
  have htree : (parse text entry).tree = .node entry.rootKind (new.reverse ++ ts.map .token) := by
    simp only [parse]
    rw [h₂]
    simp
  refine ⟨p₁.skipTrivia.unplaced, ?_, ?_, by rw [htree]; rfl⟩
  · rw [htree, Green.tokens_node, Green.tokensList_append, Green.tokensList_map_token,
      List.append_assoc, ht₂]
    exact ht₁
  · rw [htree]
    refine Green.wellNested_node_of entry.selfFree_rootKind fun c hc => ?_
    rcases List.mem_append.1 hc with hc | hc
    · exact hw c (List.mem_reverse.1 hc)
    · obtain ⟨t, -, rfl⟩ := List.mem_map.1 hc
      simp

end MacroTrace
