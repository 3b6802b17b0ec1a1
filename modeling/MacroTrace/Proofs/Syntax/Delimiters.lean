import MacroTrace.Proofs.Syntax.Parse
/-! Delimiters of token trees. A token tree keeps the closers it owes as a stack: an opening
delimiter owes its closer, the closer owed first is paid off by a token of its kind, and the tree
stops once it owes nothing. A macro argument is one such tree, opened by its first token; so when
what it reads pays off every closer it opened, its last token is the closer of its first. -/
namespace MacroTrace

namespace SyntaxKind

def owe (closers : List SyntaxKind) (k : SyntaxKind) : List SyntaxKind :=
  match k.closer? with
  | some c => c :: closers
  | none => if closers.head? = some k then closers.tail else closers

def readsTree : List SyntaxKind → List SyntaxKind → Bool
  | _, [] => true
  | closers, k :: ks =>
    match k.closer? with
    | some c => readsTree (c :: closers) ks
    | none =>
      if closers.head? = some k then
        if closers.tail = [] then ks.isEmpty else readsTree closers.tail ks
      else k != .eof && readsTree closers ks

/-- A token tree that reads all of `ks` and pays off every closer it owes pays off the one owed
first, `c`, with its last kind. -/
theorem readsTree_pays_last (c : SyntaxKind) : ∀ (ks s : List SyntaxKind),
    readsTree (s ++ [c]) ks = true → ks.foldl owe (s ++ [c]) = [] → ks.getLast? = some c
  | [], s, _, hpaid => by simp at hpaid
  | k :: ks, s, hreads, hpaid => by
    have hlast : ks.getLast? = some c → (k :: ks).getLast? = some c := by
      cases ks with
      | nil => simp
      | cons k' ks => simp [List.getLast?_cons_cons]
    rw [List.foldl_cons] at hpaid
    cases hk : k.closer? with
    | some c' =>
      simp only [readsTree, hk] at hreads
      simp only [owe, hk] at hpaid
      exact hlast (readsTree_pays_last c ks (c' :: s) hreads hpaid)
    | none =>
      simp only [readsTree, hk] at hreads
      simp only [owe, hk] at hpaid
      by_cases hh : (s ++ [c]).head? = some k
      · rw [if_pos hh] at hreads hpaid
        cases s with
        | nil =>
          obtain rfl : c = k := by simpa using hh
          simp only [List.nil_append, List.tail_cons, if_true, List.isEmpty_iff] at hreads
          simp [hreads]
        | cons x s =>
          simp only [List.cons_append, List.tail_cons, List.append_eq_nil_iff, List.cons_ne_nil,
            and_false, if_false] at hreads hpaid
          exact hlast (readsTree_pays_last c ks s hreads hpaid)
      · rw [if_neg hh] at hreads hpaid
        rw [Bool.and_eq_true] at hreads
        exact hlast (readsTree_pays_last c ks s hreads.2 hpaid)

end SyntaxKind

namespace Green

def significantKinds (gs : List Green) : List SyntaxKind :=
  ((tokensList gs).filter (!·.kind.isTrivia)).map (·.kind)

/-- The children of a macro argument: tokens read as one token tree, the first an opening
delimiter. -/
def argumentShape : List Green → Bool
  | token o :: rest => o.kind.closer?.isSome && rest.all (·.isToken) &&
      SyntaxKind.readsTree [] (significantKinds (token o :: rest))
  | _ => false

mutual
def delimited : Green → Bool
  | token _ => true
  | node k cs => (k != .macroArgument || argumentShape cs) && delimitedList cs

def delimitedList : List Green → Bool
  | [] => true
  | g :: gs => delimited g && delimitedList gs
end

@[simp] theorem delimited_token (t : Token) : (token t).delimited = true := by simp [delimited]

@[simp] theorem delimited_node (k : SyntaxKind) (cs : List Green) :
    (node k cs).delimited = ((k != .macroArgument || argumentShape cs) && delimitedList cs) := by
  simp [delimited]

theorem delimitedList_eq_true {cs : List Green} :
    delimitedList cs = true ↔ ∀ c ∈ cs, c.delimited = true := by
  induction cs with
  | nil => simp [delimitedList]
  | cons g gs ih => simp [delimitedList, ih]

theorem argumentShape_eq_true {cs : List Green} (h : argumentShape cs = true) :
    ∃ t gs, cs = token t :: gs ∧ t.kind.closer?.isSome = true ∧ gs.all (·.isToken) = true ∧
      SyntaxKind.readsTree [] (significantKinds cs) = true := by
  rcases cs with _ | ⟨_ | ⟨k, cs⟩, gs⟩
  · simp [argumentShape] at h
  · simp only [argumentShape, Bool.and_eq_true] at h
    exact ⟨_, gs, rfl, h.1.1, h.1.2, h.2⟩
  · simp [argumentShape] at h

theorem argumentShape_tokens {o : Token} {ts : List Token} (ho : o.kind.closer?.isSome = true)
    (h : SyntaxKind.readsTree [] (((o :: ts).filter (!·.kind.isTrivia)).map (·.kind)) = true) :
    argumentShape ((o :: ts).map token) = true := by
  simp only [List.map_cons, argumentShape, ho, Bool.true_and, Bool.and_eq_true, List.all_eq_true,
    List.mem_map]
  refine ⟨fun g hg => ?_, ?_⟩
  · obtain ⟨t, -, rfl⟩ := hg
    rfl
  · rw [significantKinds, ← List.map_cons, tokensList_map_token]
    exact h

end Green

end MacroTrace
