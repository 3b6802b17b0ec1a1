import MacroTrace.Proofs.Trace.Copies
import MacroTrace.Proofs.OffsetMap.Specification
import Mathlib

/-! The work lists of the lookups compute depth-first recursions. The range lookup pops a query,
splits it along the map of its call and pushes the fragments back, in order, as queries of the
enclosing call; it answers what the recursion `traceRange` answers, which concatenates the answers
of the fragments in order and rejects the whole range at the first level that fails. Both run the
same lookups in the same order, so they agree on faults and on the workspace they leave as well.

The rounds the range lookup allows suffice: a query costs its depth below the limit times its
weight, and the fragments of a query stand apart inside it, so together they weigh no more than
the query does. -/
namespace MacroTrace

namespace OffsetMap

variable {m : OffsetMap}

/-- Fragments that stand apart: no two share a position of the query, and none is empty unless
the query is. -/
structure Separate (q : Segment) (frags : List Segment) : Prop where
  pairwise : frags.Pairwise fun a b => a.sharesPosition b = false
  nonempty : 0 < q.len → ∀ f ∈ frags, 0 < f.len

theorem overlapsAny_eq_ok_false {frag : Segment} :
    ∀ {l : List Segment}, rangeToBody.overlapsAny frag l = .ok false →
      ∀ g ∈ l, g.sharesPosition frag = false
  | [], _ => by simp
  | f :: l, h => by
    unfold rangeToBody.overlapsAny at h
    cases ha : f.dstRange with
    | error e => simp [ha, bind, Except.bind] at h
    | ok ra =>
      cases hb : frag.dstRange with
      | error e => simp [ha, hb, bind, Except.bind] at h
      | ok rb =>
        simp only [ha, hb, bind, Except.bind, overlaps_dstRange ha hb] at h
        split at h
        · cases h
        · rename_i hshare
          intro g hg
          rcases List.mem_cons.1 hg with rfl | hg
          · simpa using hshare
          · exact overlapsAny_eq_ok_false h g hg

theorem dstIntersection_len_pos {s part : Segment} {pos : TextRange}
    (h : s.dstIntersection pos = .ok (some part)) (hpos : pos.start < pos.stop) : 0 < part.len := by
  unfold Segment.dstIntersection at h
  cases hd : s.dstRange with
  | error e => simp [hd, bind, Except.bind] at h
  | ok d =>
    have hne : pos.isEmpty = false := by simp [TextRange.isEmpty]; omega
    simp only [hd, hne, bind, Except.bind, Bool.false_eq_true, if_false] at h
    split at h
    · cases h
    · rename_i c hc
      cases hadd : Offset.add s.src (c.start - s.dst) with
      | error e => simp [hadd] at h
      | ok src =>
        simp only [hadd, pure, Except.pure, Except.ok.injEq, Option.some.injEq] at h
        subst h
        obtain ⟨-, hc⟩ := Option.filter_eq_some_iff.1 hc
        have := c.le
        simp only [TextRange.isEmpty, Bool.not_eq_true', beq_eq_false_iff_ne] at hc
        simp only [TextRange.len]
        omega

theorem rangeToBody_go_separate (m : OffsetMap) {q : Segment} {pos : TextRange}
    (hpos : pos.start = q.src ∧ pos.stop = q.src + q.len) :
    ∀ (segs acc frags : List Segment), Separate q acc.reverse →
      rangeToBody.go m q pos segs acc = .ok (.mapped frags) → Separate q frags
  | [], acc, frags, hacc, h => by
    simp only [rangeToBody.go, pure, Except.pure, Except.ok.injEq] at h
    rwa [mapped_of_collected h]
  | s :: rest, acc, frags, hacc, h => by
    unfold rangeToBody.go at h
    split at h
    · simp only [pure, Except.pure, Except.ok.injEq] at h
      rwa [mapped_of_collected h]
    cases hi : s.dstIntersection pos with
    | error e => simp [hi, bind, Except.bind] at h
    | ok part? =>
      simp only [hi, bind, Except.bind] at h
      cases part? with
      | none => exact rangeToBody_go_separate m hpos rest acc frags hacc h
      | some part =>
        cases hadd : Offset.add q.dst (part.dst - pos.start) with
        | error e => simp [hadd] at h
        | ok dst =>
          simp only [hadd] at h
          cases hov : rangeToBody.overlapsAny ⟨part.src, dst, part.len⟩ acc.reverse with
          | error e => simp [hov] at h
          | ok b =>
            simp only [hov] at h
            split at h
            · cases h
            · rename_i hb
              obtain rfl : b = false := by simpa using hb
              refine rangeToBody_go_separate m hpos rest _ frags ⟨?_, ?_⟩ h
              · rw [List.reverse_cons, List.pairwise_append]
                exact ⟨hacc.pairwise, List.pairwise_singleton _ _, fun g hg f hf => by
                  rw [List.mem_singleton.1 hf]
                  exact overlapsAny_eq_ok_false hov g hg⟩
              · intro hq f hf
                rcases List.mem_append.1 (List.reverse_cons ▸ hf) with hf | hf
                · exact hacc.nonempty hq f hf
                · rw [List.mem_singleton.1 hf]
                  show 0 < part.len
                  refine dstIntersection_len_pos hi ?_
                  omega

theorem rangeToBody_eq_go {q : Segment} {o : Outcome (List Segment)} (h : m.rangeToBody q = .ok o) :
    ∃ pos segs, (pos.start = q.src ∧ pos.stop = q.src + q.len) ∧
      rangeToBody.go m q pos segs [] = .ok o := by
  unfold rangeToBody at h
  cases hpos : q.srcRange with
  | error e => simp [hpos, bind, Except.bind] at h
  | ok pos =>
    obtain ⟨-, h₁, h₂⟩ := TextRange.ofLength_eq_ok hpos
    simp only [hpos, bind, Except.bind] at h
    split at h
    · split at h
      · cases h
      · exact ⟨pos, _, ⟨h₁, h₂⟩, h⟩
    · exact ⟨pos, _, ⟨h₁, h₂⟩, h⟩

theorem rangeToBody_separate {q : Segment} {frags : List Segment}
    (h : m.rangeToBody q = .ok (.mapped frags)) : Separate q frags := by
  obtain ⟨pos, segs, hpos, hgo⟩ := rangeToBody_eq_go h
  exact rangeToBody_go_separate m hpos segs [] frags ⟨List.Pairwise.nil, by simp⟩ hgo

theorem sum_len_le_of_apart {q : Segment} {frags : List Segment}
    (hpair : frags.Pairwise fun a b => a.sharesPosition b = false) (hpos : ∀ f ∈ frags, 0 < f.len)
    (hin : ∀ f ∈ frags, q.dst ≤ f.dst ∧ f.dst + f.len ≤ q.dst + q.len) :
    (frags.map (·.len)).sum ≤ q.len := by
  have hself : ∀ f ∈ frags, f.sharesPosition f = true := fun f hf => by
    have := hpos f hf
    simp [Segment.sharesPosition]
    omega
  have hnd : frags.Nodup := hpair.imp_of_mem fun ha _ hab heq => by
    subst heq
    simp [hself _ ha] at hab
  have : Std.Symm fun a b : Segment => a.sharesPosition b = false :=
    ⟨fun a b h => by rwa [Segment.sharesPosition_comm]⟩
  have hdisj : (↑frags.toFinset : Set Segment).PairwiseDisjoint
      fun f => Finset.Ico f.dst (f.dst + f.len) := by
    intro a ha b hb hne
    have hab := hpair.forall (List.mem_toFinset.1 ha) (List.mem_toFinset.1 hb) hne
    have ha₀ := hpos a (List.mem_toFinset.1 ha)
    have hb₀ := hpos b (List.mem_toFinset.1 hb)
    have hnz : (a.len == 0 || b.len == 0) = false := by simp; omega
    simp only [Segment.sharesPosition, hnz, Bool.false_eq_true, if_false, Bool.and_eq_false_iff,
      decide_eq_false_iff_not] at hab
    rw [Function.onFun, Finset.disjoint_left]
    intro x hx hx'
    simp only [Finset.mem_Ico] at hx hx'
    omega
  calc (frags.map (·.len)).sum
      = ∑ f ∈ frags.toFinset, (Finset.Ico f.dst (f.dst + f.len)).card := by
        rw [List.sum_toFinset _ hnd]
        simp
    _ = (frags.toFinset.biUnion fun f => Finset.Ico f.dst (f.dst + f.len)).card :=
        (Finset.card_biUnion hdisj).symm
    _ ≤ (Finset.Ico q.dst (q.dst + q.len)).card := by
        refine Finset.card_le_card fun x hx => ?_
        simp only [Finset.mem_biUnion, List.mem_toFinset, Finset.mem_Ico] at hx ⊢
        obtain ⟨f, hf, hx⟩ := hx
        have := hin f hf
        omega
    _ = q.len := by simp

theorem Separate.weight_le {q : Segment} {frags : List Segment} (hs : Separate q frags)
    (hin : ∀ f ∈ frags, q.dst ≤ f.dst ∧ f.dst + f.len ≤ q.dst + q.len) :
    (frags.map fun f => max f.len 1).sum ≤ max q.len 1 := by
  rcases Nat.eq_zero_or_pos q.len with hq | hq
  · match frags, hs, hin with
    | [], _, _ => simp
    | [f], _, hin =>
      have := hin f List.mem_cons_self
      simp only [List.map_cons, List.map_nil, List.sum_cons, List.sum_nil, hq]
      omega
    | f :: g :: _, hs, hin =>
      have hf := hin f List.mem_cons_self
      have hg := hin g (List.mem_cons_of_mem _ List.mem_cons_self)
      have hfg := List.rel_of_pairwise_cons hs.pairwise List.mem_cons_self
      have hf₀ : f.len = 0 := by omega
      have hg₀ : g.len = 0 := by omega
      have hdst : f.dst = g.dst := by omega
      simp [Segment.sharesPosition, hf₀, hdst] at hfg
  · have hlen : (frags.map fun f => max f.len 1) = frags.map (·.len) :=
      List.map_congr_left fun f hf => by have := hs.nonempty hq f hf; omega
    rw [hlen]
    have := sum_len_le_of_apart hs.pairwise (hs.nonempty hq) hin
    omega

theorem rangeToBody_weight_le {q : Segment} {frags : List Segment}
    (h : m.rangeToBody q = .ok (.mapped frags)) :
    (frags.map fun f => max f.len 1).sum ≤ max q.len 1 :=
  (rangeToBody_separate h).weight_le fun f hf => by
    obtain ⟨u, -, d, -, -, h₁, h₂, -, h₃⟩ := rangeToBody_fragment h f hf
    omega

end OffsetMap

theorem flatMapM_append {m : Type → Type} [Monad m] [LawfulMonad m] {α β : Type}
    (f : α → m (List β)) (l₁ l₂ : List α) :
    (l₁ ++ l₂).flatMapM f = do
      let a ← l₁.flatMapM f
      let b ← l₂.flatMapM f
      return a ++ b := by
  induction l₁ with
  | nil => simp
  | cons x l₁ ih =>
    simp only [List.cons_append, List.flatMapM_cons, ih, bind_assoc, pure_bind, List.append_assoc]

theorem flatMapM_map {m : Type → Type} [Monad m] [LawfulMonad m] {α β γ : Type}
    (f : β → m (List γ)) (g : α → β) (l : List α) :
    (l.map g).flatMapM f = l.flatMapM (f ∘ g) := by
  induction l with
  | nil => rfl
  | cons x l ih => simp [ih]

namespace Session

/-- The range lookup as a recursion: the fragments of a query at a call, moved into the call's
body, are the answer when the call's file is no expansion, and otherwise each is traced through
the enclosing call, one level deeper, their answers concatenated in order. A query past the
depth limit, at a call with no expansion, or ambiguous at its level fails the whole trace; one
that cannot move below the expansion's base, maps to nothing, or meets a call with no body
answers nothing. -/
def traceRange (limit : Nat) (c : MacroCall) (q : Segment) (depth : Nat) :
    OptionT Session (List TextRange) := do
  if limit < depth then failure else do
    let some e ← OptionT.lift (expansion c) | failure
    let some loc := q.shiftLeft? e.base | return []
    match ← OptionT.lift (lift (e.map.rangeToBody loc)) with
    | .unmapped => return []
    | .ambiguous => failure
    | .mapped frags =>
      let some body ← OptionT.lift (bodyTextRange c) | return []
      let frags := frags.filterMap (Segment.fromBodyRelative? · body)
      match ← OptionT.lift (expansionCall c.file) with
      | none => OptionT.lift (frags.mapM fun f => lift f.srcRange)
      | some parent => frags.flatMapM fun f => traceRange limit parent f (depth + 1)
termination_by limit + 1 - depth

def rangeCost (limit : Nat) (x : MacroCall × Segment × Nat) : Nat :=
  (limit + 2 - x.2.2) * max x.2.1.len 1 + 1

@[simp] theorem lift_ok {α : Type} (a : α) : lift (.ok a) = pure a := rfl

theorem weight_fromBodyRelative_le (body : TextRange) : ∀ frags : List Segment,
    ((frags.filterMap (Segment.fromBodyRelative? · body)).map fun f => max f.len 1).sum ≤
      (frags.map fun f => max f.len 1).sum
  | [] => le_rfl
  | f :: frags => by
    have ih := weight_fromBodyRelative_le body frags
    rw [List.filterMap_cons]
    rcases h : f.fromBodyRelative? body with _ | f'
    · simp only [List.map_cons, List.sum_cons]
      omega
    · obtain ⟨rfl, -⟩ := Segment.fromBodyRelative?_eq_some h
      simp only [List.map_cons, List.sum_cons]
      omega

theorem rangeCost_children_lt {limit depth : Nat} (hd : ¬ limit < depth) (c parent : MacroCall)
    {q : Segment} {fs : List Segment} (hw : (fs.map fun f => max f.len 1).sum ≤ max q.len 1) :
    ((fs.map fun f => (parent, f, depth + 1)).map (rangeCost limit)).sum <
      rangeCost limit (c, q, depth) := by
  have hstep : limit + 2 - depth = limit + 2 - (depth + 1) + 1 := by omega
  have hle : ∀ f ∈ fs, (rangeCost limit ∘ fun f => (parent, f, depth + 1)) f ≤
      (limit + 2 - depth) * max f.len 1 := by
    intro f _
    have : 1 ≤ max f.len 1 := le_max_right _ _
    simp only [Function.comp, rangeCost, hstep, Nat.succ_mul]
    omega
  calc ((fs.map fun f => (parent, f, depth + 1)).map (rangeCost limit)).sum
      ≤ (fs.map fun f => (limit + 2 - depth) * max f.len 1).sum := by
        rw [List.map_map]
        exact List.sum_le_sum hle
    _ = (limit + 2 - depth) * (fs.map fun f => max f.len 1).sum := List.sum_map_mul_left _ _ _
    _ ≤ (limit + 2 - depth) * max q.len 1 := Nat.mul_le_mul_left _ hw
    _ < rangeCost limit (c, q, depth) := Nat.lt_succ_self _

theorem run_flatMapM_append_bind {α β γ : Type} (f : α → OptionT Session (List β))
    (l₁ l₂ : List α) (k : Option (List β) → Session γ) :
    ((l₁ ++ l₂).flatMapM f).run >>= k =
      (l₁.flatMapM f).run >>= fun r => match r with
        | none => k none
        | some a => (l₂.flatMapM f).run >>= fun r' => k (r'.map (a ++ ·)) := by
  rw [flatMapM_append]
  simp only [OptionT.run_bind, OptionT.run_pure, Option.elimM, bind_assoc]
  refine bind_congr fun r => ?_
  cases r with
  | none => simp
  | some a =>
    simp only [Option.elim_some, bind_assoc]
    refine bind_congr fun r' => ?_
    cases r' <;> simp

theorem run_flatMapM_cons_bind {α β γ : Type} (f : α → OptionT Session (List β)) (x : α)
    (l : List α) (k : Option (List β) → Session γ) :
    ((x :: l).flatMapM f).run >>= k =
      (f x).run >>= fun r => match r with
        | none => k none
        | some a => (l.flatMapM f).run >>= fun r' => k (r'.map (a ++ ·)) := by
  rw [← List.singleton_append, run_flatMapM_append_bind]
  simp only [List.flatMapM_cons, List.flatMapM_nil, OptionT.run_bind, Option.elimM, bind_assoc]
  refine bind_congr fun r => ?_
  cases r <;> simp

theorem rangeRounds_eq_flatMapM (limit : Nat) : ∀ (n : Nat) (work : List (MacroCall × Segment × Nat))
    (acc : List TextRange), (work.map (rangeCost limit)).sum < n →
    rangeRounds limit n work acc =
      (work.flatMapM fun x => traceRange limit x.1 x.2.1 x.2.2).run >>=
        fun r => pure (r.elim [] (acc ++ ·))
  | 0, _, _, h => absurd h (Nat.not_lt_zero _)
  | n + 1, [], acc, _ => by simp [rangeRounds]
  | n + 1, (c, q, depth) :: work, acc, hn => by
    have hcost : rangeCost limit (c, q, depth) + (work.map (rangeCost limit)).sum < n + 1 := by
      rwa [List.map_cons, List.sum_cons] at hn
    have hpos : 0 < rangeCost limit (c, q, depth) := Nat.succ_pos _
    have hnext : ∀ a, ((work.flatMapM fun x => traceRange limit x.1 x.2.1 x.2.2).run >>=
        fun r => pure ((r.map (a ++ ·)).elim [] (acc ++ ·))) =
          rangeRounds limit n work (acc ++ a) := fun a => by
      rw [rangeRounds_eq_flatMapM limit n work (acc ++ a) (by omega)]
      refine bind_congr fun r => ?_
      cases r <;> simp
    rw [run_flatMapM_cons_bind]
    simp only [hnext, Option.elim_none]
    rw [rangeRounds, traceRange]
    by_cases hd : limit < depth
    · rw [if_pos hd, if_pos hd]
      simp
    rw [if_neg hd, if_neg hd]
    simp only [OptionT.run_bind_lift, bind_assoc]
    refine bind_congr fun e? => ?_
    rcases e? with _ | e
    · simp
    rcases hloc : q.shiftLeft? e.base with _ | loc
    · simp [hloc]
    simp only [hloc, OptionT.run_bind_lift, bind_assoc]
    rcases hx : e.map.rangeToBody loc with f | o
    · simp [lift]
    simp only [lift_ok, pure_bind]
    rcases o with frags | _ | _
    · simp only [OptionT.run_bind_lift, bind_assoc]
      refine bind_congr fun body? => ?_
      rcases body? with _ | body
      · simp
      simp only [OptionT.run_bind_lift, bind_assoc]
      refine bind_congr fun parent? => ?_
      rcases parent? with _ | parent
      · simp
      have hlen : loc.len = q.len := by
        simp only [Segment.shiftLeft?, Option.map_eq_some_iff] at hloc
        obtain ⟨_, -, rfl⟩ := hloc
        rfl
      have hfuel := rangeCost_children_lt hd c parent
        ((weight_fromBodyRelative_le body frags).trans
          (hlen ▸ OffsetMap.rangeToBody_weight_le hx))
      simp only
      rw [rangeRounds_eq_flatMapM limit n _ acc (by rw [List.map_append, List.sum_append]; omega),
        run_flatMapM_append_bind, flatMapM_map]
      simp only [Function.comp_def, hnext, Option.elim_none]
    · simp
    · simp

/-- The range lookup is the recursion `traceRange` from the query at the range's own offsets, at
depth one, with no range when it fails. -/
theorem rangeToBody_eq_traceRange (c : MacroCall) (r : TextRange) :
    rangeToBody c r = do
      let limit ← maxDepth
      return ((← (traceRange limit c ⟨r.start, r.start, r.len⟩ 1).run).getD []) := by
  unfold rangeToBody
  refine bind_congr fun limit => ?_
  have hfuel : rangeCost limit (c, ⟨r.start, r.start, r.len⟩, 1) < (limit + 2) * (r.len + 2) := by
    have h₁ : (limit + 1) * max r.len 1 ≤ (limit + 1) * (r.len + 1) :=
      Nat.mul_le_mul_left _ (by omega)
    have h₂ : (limit + 1) * (r.len + 1) + 2 ≤ (limit + 2) * (r.len + 2) := by
      ring_nf
      omega
    show (limit + 1) * max r.len 1 + 1 < _
    omega
  rw [rangeRounds_eq_flatMapM limit _ _ [] (by simpa using hfuel), run_flatMapM_cons_bind]
  refine bind_congr fun r => ?_
  cases r <;> simp

/-- Following a token forward as a recursion: a token in no expanded call body is its own answer;
otherwise, below the depth limit, the answers of its direct copies, one level deeper, concatenated
in the order the lookup gives them. At or past the limit the whole trace fails. -/
def copyTrace (limit : Nat) (t : FileElement) (depth : Nat) : OptionT Session (List FileElement) := do
  match ← OptionT.lift (directCopies t) with
  | none => return [t]
  | some copies =>
    if limit ≤ depth then failure else
      copies.flatMapM fun u => copyTrace limit u (depth + 1)
termination_by limit - depth

theorem copyTrace_run_bind {γ : Type} (limit : Nat) (t : FileElement) (d : Nat)
    (k : Option (List FileElement) → Session γ) :
    (copyTrace limit t d).run >>= k = directCopies t >>= fun c? => match c? with
      | none => k (some [t])
      | some copies => if limit ≤ d then k none else
          (copies.flatMapM fun u => copyTrace limit u (d + 1)).run >>= k := by
  rw [copyTrace]
  simp only [OptionT.run_bind_lift, bind_assoc]
  refine bind_congr fun c? => ?_
  rcases c? with _ | copies
  · simp
  · by_cases hd : limit ≤ d <;> simp [hd]

theorem copyRounds_eq_flatMapM (limit : Nat) (stack : List (FileElement × Nat))
    (acc : List FileElement) : ∀ w : Workspace, (copyRounds limit stack acc).run.run w =
      ((stack.flatMapM fun x => copyTrace limit x.1 x.2).run >>=
        fun r => pure (r.map (acc.reverse ++ ·))).run.run w := by
  induction stack, acc using copyRounds.induct limit with
  | case1 acc =>
    intro w
    simp [copyRounds]
  | case2 t d rest acc ihpush ihpop =>
    intro w
    simp only [run_flatMapM_cons_bind, copyTrace_run_bind]
    rcases h : (directCopies t).run.run w with ⟨_ | _ | copies, w₁⟩
    · rw [copyRounds, run_bind, h, run_bind, h]
    · rw [copyRounds, run_bind, h, run_bind, h]
      simp only
      rw [ihpop w₁]
      simp [Option.map_map, Function.comp_def]
    · by_cases hd : limit ≤ d
      · rw [copyRounds, run_bind, h, run_bind, h]
        simp [hd]
      · rw [copyRounds, run_bind, h, run_bind, h]
        simp only [ge_iff_le, hd, if_false]
        rw [ihpush copies (by omega) w₁, run_flatMapM_append_bind, flatMapM_map]
        rfl

/-- The copy rounds, from the first copies of a token at depth one, are tracing them in turn:
from every workspace the rounds answer what the recursion answers and leave the workspace it
leaves. -/
theorem copyRounds_eq_copyTrace (limit : Nat) (first : List FileElement) (w : Workspace) :
    (copyRounds limit (first.map (·, 1)) []).run.run w =
      (first.flatMapM fun u => copyTrace limit u 1).run.run.run w := by
  rw [copyRounds_eq_flatMapM, flatMapM_map]
  simp [Function.comp_def]

end Session

/-- Copies of a token are listed in the order of the map's segments, by destination and then
source, which need not be the order of their offsets: a map override of two segments, the second
starting inside the first, copies the token `y` of `m!(x y)` to offsets 5 and then 4. -/
theorem copies_follow_map_order : ∃ (w : Workspace) (root : Green) (tok : Element)
    (ts : List FileElement) (w₁ : Workspace),
    w.Reachable (some [⟨0, 3, 5⟩, ⟨2, 4, 1⟩]) ∧ w.tree? 0 = some root ∧ root.tokenAt 5 = some tok ∧
    (Session.expansionElements ⟨0, root, tok⟩).run.run w = (.ok (some ts), w₁) ∧
    ts.map (·.elem.start) = [5, 4] := by
  have hm : OffsetMap.ofList [⟨0, 3, 5⟩, ⟨2, 4, 1⟩] = .ok ⟨[⟨0, 3, 5⟩, ⟨2, 4, 1⟩], false⟩ := by
    rw [OffsetMap.ofList, List.mergeSort_of_pairwise (by decide)]
    rfl
  have hw := @Workspace.Reachable.create _ [("m", .template "$x*" "abcd;;")]
    [⟨"lib.rs", "m!(x y)", 0⟩] defaultMaxDepth _ _ (Workspace.create_override hm rfl)
  refine ⟨_, _, _, _, _, hw, Option.eq_some_of_isSome ?tree, Option.eq_some_of_isSome ?tok,
    Session.run_expansionElements_of_within
      (Session.run_eq_of_isSome (x := Session.expansionElementsWithin 20 _) ?forward), ?order⟩
  case tree => decide +kernel
  case tok => decide +kernel
  case forward => decide +kernel
  case order => decide +kernel

end MacroTrace
