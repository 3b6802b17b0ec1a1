import MacroTrace.Trace.Mapping
/-!
Locating where elements came from. The file-level nodes of an expansion file come from the call
that file expands; the chain of calls goes outwards, one enclosing expansion at a time, up to
the depth limit. Offsets follow the chain as far as they map, and a source token is followed
forward into every copy the expansions made of it.
-/
namespace MacroTrace

namespace Session

/-- The call that directly produced a node: only file-level nodes of an expansion file have one. -/
def expandedFrom (n : FileElement) : Session (Option MacroCall) := do
  if !n.isFileLevel then return none
  expansionCall n.file

def firstSome {α β : Type} (f : α → Session (Option β)) : List α → Session (Option β)
  | [] => return none
  | a :: as => do
    match ← f a with
    | some b => return some b
    | none => firstSome f as

/-- The innermost call an element was expanded from: the first that produced the element's node
or one of its ancestors. -/
def nonRecursiveCall (e : FileElement) : Session (Option MacroCall) := do
  match e.node? with
  | none => return none
  | some n => firstSome expandedFrom n.ancestors

/-- The call a call was itself expanded from. -/
def callExpandedFrom (c : MacroCall) : Session (Option MacroCall) := nonRecursiveCall c.element

/-- The chain of calls an element was expanded from, innermost first, and whether the depth
limit cut it short. -/
def expandedFromChain (e : FileElement) : Session (List MacroCall × Bool) := do
  let limit ← maxDepth
  let first ← nonRecursiveCall e
  go limit first 0 []
where
  go (limit : Nat) (next : Option MacroCall) (yielded : Nat) (acc : List MacroCall) :
      Session (List MacroCall × Bool) := do
    if yielded ≥ limit then return (acc.reverse, next.isSome)
    match next with
    | none => return (acc.reverse, false)
    | some c =>
      let next' ← callExpandedFrom c
      go limit next' (yielded + 1) (c :: acc)
  termination_by limit - yielded

/-- The outermost call an element was expanded from; none past the depth limit. -/
def outermostCall (e : FileElement) : Session (Option MacroCall) := do
  let (chain, exceeded) ← expandedFromChain e
  return if exceeded then none else chain.getLast?

/-- How many expansions lie between an element and source text; none past the depth limit. -/
def expansionDepth (e : FileElement) : Session (Option Nat) := do
  let (chain, exceeded) ← expandedFromChain e
  return if exceeded then none else some chain.length

/-- Whether an element comes from a macro expansion. -/
def isExpanded (e : FileElement) : Session Bool := return (← nonRecursiveCall e).isSome

/-- The call that produced a node, by expansion or, for a file-level node, by inclusion. -/
def expandedOrIncludedFrom (n : FileElement) : Session (Option MacroCall) := do
  match ← expandedFrom n with
  | some c => return some c
  | none => if n.isFileLevel then includedFrom n.file else return none

/-- Follows a virtual offset out through the calls its file was expanded from, as far as it maps:
the last call reached and the offset in its file. None past the depth limit. -/
def callAndOffset (f : FileId) (off : Nat) : Session (Option (MacroCall × Nat)) := do
  let limit ← maxDepth
  go limit (limit + 1) f off 0 none
where
  go (limit : Nat) : Nat → FileId → Nat → Nat → Option (MacroCall × Nat) →
      Session (Option (MacroCall × Nat))
    | 0, _, _, _, reached => return reached
    | n + 1, f, off, depth, reached => do
      let some c ← expansionCall f | return reached
      if depth == limit then return none
      let some mapped ← offsetToBody c off | return reached
      go limit n c.file mapped (depth + 1) (some (c, mapped))

/-- The token that an element's first token was expanded from, in the last call its start maps
into. With `strict`, a token that is itself expanded is refused. -/
def elementExpandedFrom (e : FileElement) (strict : Bool) : Session (Option FileElement) := do
  let some start ← elementStart e | return none
  let some (c, off) ← callAndOffset e.file start | return none
  let some t ← tokenStartingAt c.file off | return none
  if strict && (← isExpanded t) then return none
  return some t

/-- The call holding the token an element's start was expanded from. -/
def leafCall (e : FileElement) : Session (Option MacroCall) := do
  let some start ← elementStart e | return none
  return (← callAndOffset e.file start).map (·.1)

/-- The outermost call whose input holds a token: a function-like call around its argument, or
the first plain attribute of an enclosing item. -/
def callHolding (t : FileElement) : Option MacroCall :=
  let outer := match t.parent? with
    | some p => p.ancestors.reverse
    | none => []
  outer.findSome? fun n =>
    if n.kind == .macroArgument then
      match n.parent? with
      | some p => if p.kind == .macroCall then some (MacroCall.fnLike t.file t.root p.elem) else none
      | none => none
    else if n.kind.isItem then
      match n.elem.attrs.find? (!·.isDerive) with
      | some a => MacroCall.attr? t.file t.root a
      | none => none
    else none

/-- The tokens of the expansion that a token was directly copied to; none when the token is in no
call body or the call does not expand. -/
def directCopies (t : FileElement) : Session (Option (List FileElement)) := do
  let some c := callHolding t | return none
  let some e ← expansion c | return none
  let some start ← elementStart t | return none
  let some offs ← offsetToExpansion c e start | return none
  return some (← offs.filterMapM fun o => tokenStartingAt e.file o)

/-- A stack shrinks when its top entry is replaced by finitely many entries, each below it: the
discipline of a depth-first stack, well founded when the order on entries is. -/
inductive Shrinks {α : Type} (r : α → α → Prop) : List α → List α → Prop
  | replaceTop {a : α} {rest : List α} (t : List α) :
      (∀ x ∈ t, r x a) → Shrinks r (t ++ rest) (a :: rest)

theorem Shrinks.acc_cons {α : Type} {r : α → α → Prop} {a : α} (ha : Acc r a) :
    ∀ rest, Acc (Shrinks r) rest → Acc (Shrinks r) (a :: rest) := by
  induction ha with
  | intro a _ ih =>
    intro rest hrest
    constructor
    rintro _ ⟨t, ht⟩
    induction t with
    | nil => exact hrest
    | cons x t iht =>
      exact ih x (ht x List.mem_cons_self) _ (iht fun y hy => ht y (List.mem_cons_of_mem _ hy))

theorem Shrinks.wf {α : Type} {r : α → α → Prop} (hr : WellFounded r) :
    WellFounded (Shrinks r) := by
  refine ⟨fun l => ?_⟩
  induction l with
  | nil => exact ⟨_, fun _ h => by cases h⟩
  | cons a l ih => exact Shrinks.acc_cons (hr.apply a) l ih

/-- The levels each entry of a token stack may still go below the depth limit. -/
structure Budgets where
  levels : List Nat

instance : WellFoundedRelation Budgets :=
  invImage Budgets.levels ⟨Shrinks (· < ·), Shrinks.wf Nat.lt_wfRel.wf⟩

/-- Rounds of the token stack: a copy that is itself in an expanded call body is replaced by its
own copies, one level deeper and only below the limit; any other copy is final. -/
def copyRounds (limit : Nat) : List (FileElement × Nat) → List FileElement →
    Session (Option (List FileElement))
  | [], acc => return some acc.reverse
  | (t, depth) :: stack, acc => do
    match ← directCopies t with
    | some copies =>
      if depth ≥ limit then return none
      else copyRounds limit (copies.map (·, depth + 1) ++ stack) acc
    | none => copyRounds limit stack (t :: acc)
termination_by stack _ => Budgets.mk (stack.map (limit - ·.2))
decreasing_by
  all_goals simp only [List.map_append, List.map_map, List.map_cons]
  · exact Shrinks.replaceTop _ fun x hx => by
      simp only [List.mem_map, Function.comp_def] at hx
      omega
  · exact Shrinks.replaceTop [] fun _ h => nomatch h

/-- Every token a source token was copied to, following nested expansions to the innermost
copies, depth first; none when the token is in no expanded call body or past the depth limit. -/
def expansionElements (t : FileElement) : Session (Option (List FileElement)) := do
  let limit ← maxDepth
  let some first ← directCopies t | return none
  copyRounds limit (first.map (·, 1)) []

end Session

end MacroTrace
