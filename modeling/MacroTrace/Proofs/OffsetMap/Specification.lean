import MacroTrace.Proofs.OffsetMap.Lookup
import MacroTrace.Proofs.Expansion.Template
import Mathlib.Data.Multiset.Sort
import Mathlib.Data.List.Pairwise

/-! What the lookups of a map answer, read off the multiset of its segments alone. An offset of
the expansion maps through the one segment whose destination holds it, and is ambiguous when more
than one does; an offset of the body maps to every destination position it was copied to, in the
order of the segments by destination and source; a range maps to the parts of segments inside it,
carried to the query's offsets, and is ambiguous when two parts share a position of the query.

A map sorts its segments stably, so segments that tie on destination and source keep their input
order, and when destinations are disjoint it searches by bisection. Neither changes an answer:
tied segments give equal offsets, and two tied parts of a range always share a position. -/
namespace MacroTrace

namespace Segment

def dstHolds (u : Segment) (o : Nat) : Bool := u.dst ≤ o && o < u.dst + u.len

def Precedes (a b : Segment) : Prop :=
  a.dst < b.dst ∨ a.dst = b.dst ∧ (a.src < b.src ∨ a.src = b.src ∧ a.len ≤ b.len)

instance : DecidableRel Precedes := fun _ _ => inferInstanceAs (Decidable (_ ∨ _))

instance : IsTrans Segment Precedes := ⟨fun _ _ _ => by unfold Precedes; omega⟩

instance : Std.Total Precedes := ⟨fun _ _ => by unfold Precedes; omega⟩

instance : Std.Antisymm Precedes where
  antisymm a b hab hba := by
    cases a; cases b
    simp only [Precedes] at hab hba
    simp only [mk.injEq]
    omega

theorem le_of_precedes {a b : Segment} (h : Precedes a b) : a.le b = true := by
  simp only [Precedes] at h
  simp only [le, Bool.or_eq_true, Bool.and_eq_true, decide_eq_true_eq, beq_iff_eq]
  omega

def clip (q u : Segment) : Option Segment :=
  if q.len = 0 then
    if u.dstHolds q.src then some ⟨u.src + (q.src - u.dst), q.dst, 0⟩ else none
  else
    let a := max u.dst q.src
    let b := min (u.dst + u.len) (q.src + q.len)
    if a < b then some ⟨u.src + (a - u.dst), q.dst + (a - q.src), b - a⟩ else none

def sharesPosition (a b : Segment) : Bool :=
  if a.len == 0 || b.len == 0 then a.dst == b.dst
  else a.dst < b.dst + b.len && b.dst < a.dst + a.len

theorem sharesPosition_comm (a b : Segment) : a.sharesPosition b = b.sharesPosition a := by
  unfold sharesPosition
  rw [Bool.or_comm]
  split
  · exact Bool.beq_comm
  · rw [Bool.and_comm]

variable {q u f : Segment}

theorem clip_within (h : q.clip u = some f) : q.dst ≤ f.dst ∧ f.dst + f.len ≤ q.dst + q.len := by
  unfold clip at h
  dsimp only at h
  split at h
  · split at h
    · cases h
      simp only
      omega
    · cases h
  · split at h
    · cases h
      simp only
      omega
    · cases h

theorem clip_of_outside (h : u.dst + u.len ≤ q.src ∨ q.src + q.len < u.dst) : q.clip u = none := by
  unfold clip dstHolds
  split
  · simp only [Bool.and_eq_true, decide_eq_true_eq]
    split
    · omega
    · rfl
  · dsimp only
    split
    · omega
    · rfl

end Segment

theorem TextRange.ofLength_eq_ok {s l : Nat} {r : TextRange} (h : TextRange.ofLength s l = .ok r) :
    s + l ≤ maxOffset ∧ r.start = s ∧ r.stop = s + l := by
  unfold TextRange.ofLength at h
  split at h
  · cases h
    exact ⟨by assumption, rfl, rfl⟩
  · cases h

namespace OffsetMap

/-- The segments of a multiset, sorted by destination, source and length. -/
def canonical (s : Multiset Segment) : List Segment := s.sort Segment.Precedes

def holderOutcome (o : Nat) : List Segment → Outcome Nat
  | [] => .unmapped
  | [u] => .mapped (u.src + (o - u.dst))
  | _ :: _ :: _ => .ambiguous

theorem holderOutcome_cons (o : Nat) (u : Segment) (l : List Segment) :
    holderOutcome o (u :: l) = if l = [] then .mapped (u.src + (o - u.dst)) else .ambiguous := by
  cases l <;> rfl

/-- The body offset an expansion offset was copied from: through the one segment whose
destination holds it; ambiguous when more do, unmapped when none does. -/
def bodySpec (s : Multiset Segment) (o : Nat) : Outcome Nat :=
  holderOutcome o ((canonical s).filter (·.dstHolds o))

def copyOf (o : Nat) (u : Segment) : Option Nat :=
  if u.src ≤ o ∧ o < u.src + u.len then some (u.dst + (o - u.src)) else none

/-- Every expansion offset a body offset was copied to, by destination and source. -/
def expansionSpec (s : Multiset Segment) (o : Nat) : List Nat :=
  (canonical s).filterMap (copyOf o)

/-- The answer of a range lookup from its parts: unmapped when there are none, ambiguous when
two share a position of the query. -/
def fragmentOutcome (frags : List Segment) : Outcome (List Segment) :=
  if frags = [] then .unmapped
  else if frags.Pairwise (fun a b => a.sharesPosition b = false) then .mapped frags
  else .ambiguous

theorem collected_eq (acc : List Segment) :
    (if acc.isEmpty then Outcome.unmapped else .mapped acc.reverse) =
      if acc.reverse = [] then .unmapped else .mapped acc.reverse := by
  cases acc <;> simp

theorem fragmentOutcome_of_pairwise {frags : List Segment}
    (h : frags.Pairwise fun a b => a.sharesPosition b = false) :
    fragmentOutcome frags = if frags = [] then .unmapped else .mapped frags := by
  simp only [fragmentOutcome, h, if_true]

theorem fragmentOutcome_of_shares {earlier later : List Segment} {f : Segment}
    (h : ∃ g ∈ earlier, g.sharesPosition f = true) :
    fragmentOutcome (earlier ++ f :: later) = .ambiguous := by
  obtain ⟨g, hg, hgf⟩ := h
  have hnot : ¬ (earlier ++ f :: later).Pairwise fun a b => a.sharesPosition b = false :=
    fun hp => by
      have := (List.pairwise_append.1 hp).2.2 g hg f List.mem_cons_self
      rw [hgf] at this
      cases this
  simp only [fragmentOutcome, hnot, if_false, List.append_eq_nil_iff, reduceCtorEq, and_false]

/-- The body fragments an expansion range was copied from: the parts of segments inside it. -/
def rangeSpec (s : Multiset Segment) (q : Segment) : Outcome (List Segment) :=
  fragmentOutcome ((canonical s).filterMap q.clip)

/-- A map answers the specification of a multiset of segments: every lookup from the expansion,
every lookup from the body, and every lookup of a range within offsets, without a fault. -/
structure Answers (m : OffsetMap) (s : Multiset Segment) : Prop where
  toBody : ∀ o, m.toBody o = .ok (bodySpec s o)
  toExpansion : ∀ o, m.toExpansion o = .ok (expansionSpec s o)
  rangeToBody : ∀ q : Segment, q.src + q.len ≤ maxOffset → q.dst + q.len ≤ maxOffset →
    m.rangeToBody q = .ok (rangeSpec s q)

/-! ### What the lookups rely on -/

/-- What the lookups of a map rely on: segments sorted by destination then source and within
offsets, and the disjointness flag set only when each segment ends before the next one starts. -/
structure Searchable (m : OffsetMap) : Prop where
  sorted : m.segments.Pairwise fun a b => a.le b = true
  srcFits : ∀ u ∈ m.segments, u.src + u.len ≤ maxOffset
  dstFits : ∀ u ∈ m.segments, u.dst + u.len ≤ maxOffset
  disjoint : m.disjoint = true → m.segments.Pairwise fun a b => a.dst + a.len ≤ b.dst

theorem dstDisjoint_ok : ∀ {l : List Segment}, (∀ u ∈ l, u.dst + u.len ≤ maxOffset) →
    ∃ b, dstDisjoint l = .ok b ∧ (b = true → l.Pairwise fun a b => a.dst + a.len ≤ b.dst)
  | [], _ => ⟨true, rfl, fun _ => List.Pairwise.nil⟩
  | [_], _ => ⟨true, rfl, fun _ => List.pairwise_singleton _ _⟩
  | a :: b :: rest, hfit => by
    obtain ⟨flag, hflag, hpair⟩ :=
      dstDisjoint_ok (l := b :: rest) fun u hu => hfit u (List.mem_cons_of_mem a hu)
    have hend : a.dstEnd = .ok (a.dst + a.len) :=
      Offset.add_eq_ok_iff.2 ⟨hfit a List.mem_cons_self, rfl⟩
    by_cases hab : a.dst + a.len ≤ b.dst
    · refine ⟨flag, ?_, fun h => ?_⟩
      · simp only [dstDisjoint, hend, bind, Except.bind, hab, if_true, hflag]
      · have hrest := hpair h
        refine List.Pairwise.cons (fun c hc => ?_) hrest
        rcases List.mem_cons.1 hc with rfl | hc
        · exact hab
        · have := List.rel_of_pairwise_cons hrest hc
          omega
    · refine ⟨false, ?_, fun h => by cases h⟩
      simp only [dstDisjoint, hend, bind, Except.bind, hab]
      rfl

theorem ofList_searchable {us : List Segment}
    (hfit : ∀ u ∈ us, u.src + u.len ≤ maxOffset ∧ u.dst + u.len ≤ maxOffset) :
    ∃ m, ofList us = .ok m ∧ m.segments = us.mergeSort Segment.le ∧ m.Searchable := by
  have hmem : ∀ u ∈ us.mergeSort Segment.le, u ∈ us :=
    fun u hu => (List.mergeSort_perm us _).subset hu
  obtain ⟨flag, hflag, hpair⟩ := dstDisjoint_ok fun u hu => (hfit u (hmem u hu)).2
  refine ⟨⟨us.mergeSort Segment.le, flag⟩, ?_, rfl,
    ⟨List.pairwise_mergeSort Segment.le_trans Segment.le_total us,
      fun u hu => (hfit u (hmem u hu)).1, fun u hu => (hfit u (hmem u hu)).2, hpair⟩⟩
  simp only [ofList, hflag, bind, Except.bind, pure, Except.pure]

theorem Searchable.scan {m : OffsetMap} (h : m.Searchable) :
    ({ m with disjoint := false } : OffsetMap).Searchable :=
  ⟨h.sorted, h.srcFits, h.dstFits, fun hd => by cases hd⟩

/-! ### Offsets of the expansion -/

theorem toBody_scan_eq (o : Nat) : ∀ (l : List Segment) (found : Option Nat),
    (∀ u ∈ l, u.src + u.len ≤ maxOffset ∧ u.dst + u.len ≤ maxOffset) →
    toBody.scan o l found = .ok (match found with
      | none => holderOutcome o (l.filter (·.dstHolds o))
      | some v => if l.filter (·.dstHolds o) = [] then .mapped v else .ambiguous)
  | [], none, _ => rfl
  | [], some _, _ => rfl
  | s :: rest, found, hfit => by
    obtain ⟨hs, hd⟩ := hfit s List.mem_cons_self
    have ih := fun found => toBody_scan_eq o rest found fun u hu => hfit u (List.mem_cons_of_mem s hu)
    unfold toBody.scan
    by_cases hin : s.dstHolds o = true
    · have hv : Offset.add s.src (o - s.dst) = .ok (s.src + (o - s.dst)) := by
        simp only [Segment.dstHolds, Bool.and_eq_true, decide_eq_true_eq] at hin
        exact Offset.add_eq_ok_iff.2 ⟨by omega, rfl⟩
      simp only [Segment.dstHolds] at hin
      cases found with
      | none =>
        simp only [dstRange_eq hd, TextRange.contains, hin, hv, ih, bind, Except.bind,
          Option.isSome_none, Bool.false_eq_true, if_true, if_false, List.filter_cons,
          Segment.dstHolds, holderOutcome_cons]
        congr 2
      | some v =>
        simp only [dstRange_eq hd, TextRange.contains, hin, bind, Except.bind, pure, Except.pure,
          Option.isSome_some, if_true, List.filter_cons, Segment.dstHolds, reduceCtorEq, if_false]
    · simp only [Segment.dstHolds, Bool.not_eq_true] at hin
      simp [dstRange_eq hd, TextRange.contains, hin, ih, bind, Except.bind, Segment.dstHolds]

namespace Searchable

variable {m : OffsetMap} (h : m.Searchable)
include h

theorem holders_eq (hd : m.disjoint = true) (o : Nat) {p : Nat}
    (hp : (m.segments.findIdx fun s => !decide (s.dst + s.len ≤ o)) = p)
    (hlt : p < m.segments.length) :
    m.segments.filter (·.dstHolds o) =
      if m.segments[p].dst ≤ o then [m.segments[p]] else [] := by
  have hend : o < m.segments[p].dst + m.segments[p].len := by
    have hstop := @List.findIdx_getElem _ (fun s => !decide (s.dst + s.len ≤ o)) m.segments
      (hp ▸ hlt)
    simp only [hp, Bool.not_eq_eq_eq_not, Bool.not_true, decide_eq_false_iff_not] at hstop
    omega
  have hbefore : (m.segments.take p).filter (·.dstHolds o) = [] := by
    refine List.filter_eq_nil_iff.2 fun a ha => ?_
    obtain ⟨j, hj, rfl⟩ := List.mem_take_iff_getElem.1 ha
    have := List.not_of_lt_findIdx (hp ▸ (by omega : j < p))
    simp only [Bool.not_eq_false', decide_eq_true_eq] at this
    simp only [Segment.dstHolds, Bool.and_eq_true, decide_eq_true_eq]
    omega
  have hafter : (m.segments.drop (p + 1)).filter (·.dstHolds o) = [] := by
    refine List.filter_eq_nil_iff.2 fun a ha => ?_
    obtain ⟨j, hj, rfl⟩ := List.mem_drop_iff_getElem.1 ha
    have := List.pairwise_iff_getElem.1 (h.disjoint hd) p (p + 1 + j) hlt (by omega) (by omega)
    simp only [Segment.dstHolds, Bool.and_eq_true, decide_eq_true_eq]
    omega
  conv_lhs => rw [← List.take_append_drop p m.segments, List.drop_eq_getElem_cons hlt]
  rw [List.filter_append, List.filter_cons, hbefore, hafter]
  by_cases hs : m.segments[p].dst ≤ o
  · simp [Segment.dstHolds, hs, hend]
  · simp [Segment.dstHolds, hs]

theorem toBody_eq (o : Nat) :
    m.toBody o = .ok (holderOutcome o (m.segments.filter (·.dstHolds o))) := by
  cases hd : m.disjoint with
  | false =>
    rw [toBody, hd, if_neg Bool.false_ne_true]
    exact toBody_scan_eq o _ none fun u hu => ⟨h.srcFits u hu, h.dstFits u hu⟩
  | true =>
    rw [toBody, if_pos hd, firstEndingAfter_eq h.dstFits (h.disjoint hd)]
    simp only [bind, Except.bind]
    generalize hp : m.segments.findIdx (fun s => !decide (s.dst + s.len ≤ o)) = p
    by_cases hlt : p < m.segments.length
    · have hend : o < m.segments[p].dst + m.segments[p].len := by
        have hstop := @List.findIdx_getElem _ (fun s => !decide (s.dst + s.len ≤ o)) m.segments
          (hp ▸ hlt)
        simp only [hp, Bool.not_eq_eq_eq_not, Bool.not_true, decide_eq_false_iff_not] at hstop
        omega
      have hu := List.getElem_mem hlt
      rw [List.drop_eq_getElem_cons hlt, Ordered.findIn_cons (h.dstFits _ hu) hend,
        h.holders_eq hd o hp hlt]
      by_cases hs : m.segments[p].dst ≤ o
      · have hadd : Offset.add m.segments[p].src (o - m.segments[p].dst) =
            .ok (m.segments[p].src + (o - m.segments[p].dst)) :=
          Offset.add_eq_ok_iff.2 ⟨by have := h.srcFits _ hu; omega, rfl⟩
        simp only [hs, if_true, hadd]
        rfl
      · simp only [hs, if_false]
        rfl
    · have hnone : m.segments.filter (·.dstHolds o) = [] := by
        refine List.filter_eq_nil_iff.2 fun a ha => ?_
        obtain ⟨j, hj, rfl⟩ := List.mem_iff_getElem.1 ha
        have := List.not_of_lt_findIdx (hp ▸ (by omega : j < p))
        simp only [Bool.not_eq_false', decide_eq_true_eq] at this
        simp only [Segment.dstHolds, Bool.and_eq_true, decide_eq_true_eq]
        omega
      rw [List.drop_of_length_le (by omega), hnone]
      rfl

theorem toExpansion_eq (o : Nat) : m.toExpansion o = .ok (m.segments.filterMap (copyOf o)) :=
  toExpansion_go_eq o m.segments fun u hu => ⟨h.srcFits u hu, h.dstFits u hu⟩

end Searchable

/-! ### Ranges -/

theorem dstIntersection_srcSpan {q s : Segment} (hs : s.src + s.len ≤ maxOffset)
    (hd : s.dst + s.len ≤ maxOffset) :
    s.dstIntersection q.srcSpan =
      .ok ((q.clip s).map fun f => ⟨f.src, q.src + (f.dst - q.dst), f.len⟩) := by
  unfold Segment.dstIntersection Segment.clip
  rw [dstRange_eq hd]
  simp only [bind, Except.bind]
  by_cases hz : q.len = 0
  · rw [if_pos (by simp [Segment.srcSpan, TextRange.isEmpty, hz]), if_pos hz]
    by_cases hin : s.dst ≤ q.src ∧ q.src < s.dst + s.len
    · have hadd : Offset.add s.src (q.src - s.dst) = .ok (s.src + (q.src - s.dst)) :=
        Offset.add_eq_ok_iff.2 ⟨by omega, rfl⟩
      have hdec : (decide (s.dst ≤ q.src) && decide (q.src < s.dst + s.len)) = true := by
        simp only [Bool.and_eq_true]
        exact ⟨decide_eq_true hin.1, decide_eq_true hin.2⟩
      rw [if_pos (by exact hdec), if_pos (by exact hdec)]
      simp [Segment.srcSpan, hadd, hz, pure, Except.pure, TextRange.len]
    · have hdec : ¬(decide (s.dst ≤ q.src) && decide (q.src < s.dst + s.len)) = true := by
        simp only [Bool.and_eq_true]
        exact fun h => hin ⟨of_decide_eq_true h.1, of_decide_eq_true h.2⟩
      rw [if_neg (by exact hdec), if_neg (by exact hdec)]
      rfl
  · rw [if_neg (by simp [Segment.srcSpan, TextRange.isEmpty, hz]), if_neg hz]
    simp only [TextRange.intersect, Segment.srcSpan]
    by_cases hlt : max s.dst q.src < min (s.dst + s.len) (q.src + q.len)
    · have hadd : Offset.add s.src (max s.dst q.src - s.dst) =
          .ok (s.src + (max s.dst q.src - s.dst)) := Offset.add_eq_ok_iff.2 ⟨by omega, rfl⟩
      simp [hlt, hlt.le, hadd, pure, Except.pure, Option.filter, Nat.ne_of_lt hlt, TextRange.len,
        TextRange.isEmpty]
    · rw [if_neg hlt]
      by_cases hle : max s.dst q.src ≤ min (s.dst + s.len) (q.src + q.len)
      · have heq : max s.dst q.src = min (s.dst + s.len) (q.src + q.len) := by omega
        simp [heq, Option.filter, TextRange.isEmpty]
        rfl
      · simp [hle, Option.filter]
        rfl

theorem overlaps_dstRange {a b : Segment} {ra rb : TextRange} (ha : a.dstRange = .ok ra)
    (hb : b.dstRange = .ok rb) : ra.overlaps rb = a.sharesPosition b := by
  obtain ⟨-, ha₁, ha₂⟩ := TextRange.ofLength_eq_ok ha
  obtain ⟨-, hb₁, hb₂⟩ := TextRange.ofLength_eq_ok hb
  have hempty : ∀ x n : Nat, (x == x + n) = (n == 0) := fun x n => by cases n <;> simp
  simp only [TextRange.overlaps, TextRange.isEmpty, Segment.sharesPosition, ha₁, ha₂, hb₁, hb₂,
    hempty]

theorem overlapsAny_eq (frag : Segment) (hfrag : frag.dst + frag.len ≤ maxOffset) :
    ∀ l : List Segment, (∀ f ∈ l, f.dst + f.len ≤ maxOffset) →
      rangeToBody.overlapsAny frag l = .ok (l.any (·.sharesPosition frag))
  | [], _ => rfl
  | f :: l, hl => by
    have ih := overlapsAny_eq frag hfrag l fun g hg => hl g (List.mem_cons_of_mem f hg)
    have hf := dstRange_eq (hl f List.mem_cons_self)
    have hb := dstRange_eq hfrag
    unfold rangeToBody.overlapsAny
    simp only [hf, hb, bind, Except.bind, overlaps_dstRange hf hb, List.any_cons]
    cases f.sharesPosition frag
    · simpa using ih
    · rfl

/-- The range scan collects the parts of the segments it reads after those it has collected: it is
ambiguous at the first part that shares a position with an earlier one, and the early stop of a
disjoint map passes over segments that start past the query, which have no part. -/
theorem rangeToBody_go_eq (m : OffsetMap) {q : Segment} (hqd : q.dst + q.len ≤ maxOffset) :
    ∀ (l acc : List Segment), (∀ u ∈ l, u.src + u.len ≤ maxOffset ∧ u.dst + u.len ≤ maxOffset) →
      l.Pairwise (fun a b => a.dst ≤ b.dst) → (∀ f ∈ acc, f.dst + f.len ≤ maxOffset) →
      acc.reverse.Pairwise (fun a b => a.sharesPosition b = false) →
      rangeToBody.go m q q.srcSpan l acc =
        .ok (fragmentOutcome (acc.reverse ++ l.filterMap q.clip))
  | [], acc, _, _, _, hacc => by
    rw [List.filterMap_nil, List.append_nil, fragmentOutcome_of_pairwise hacc, ← collected_eq]
    rfl
  | s :: rest, acc, hfit, hsorted, haccFit, hacc => by
    obtain ⟨hs, hd⟩ := hfit s List.mem_cons_self
    have hrest : ∀ u ∈ rest, u.src + u.len ≤ maxOffset ∧ u.dst + u.len ≤ maxOffset :=
      fun u hu => hfit u (List.mem_cons_of_mem s hu)
    have ih := rangeToBody_go_eq m hqd rest
    unfold rangeToBody.go
    by_cases hstop : m.disjoint = true ∧ q.src + q.len < s.dst
    · have hnone : (s :: rest).filterMap q.clip = [] := by
        refine List.filterMap_eq_nil_iff.2 fun u hu => Segment.clip_of_outside (.inr ?_)
        rcases List.mem_cons.1 hu with rfl | hu
        · exact hstop.2
        · have := List.rel_of_pairwise_cons hsorted hu
          omega
      rw [if_pos (by simp only [Bool.and_eq_true]; exact ⟨hstop.1, decide_eq_true hstop.2⟩),
        hnone, List.append_nil, fragmentOutcome_of_pairwise hacc, ← collected_eq]
      rfl
    · rw [if_neg (by
        simp only [Bool.and_eq_true]
        exact fun h => hstop ⟨h.1, of_decide_eq_true h.2⟩)]
      simp only [dstIntersection_srcSpan hs hd, bind, Except.bind]
      cases hc : q.clip s with
      | none =>
        simpa [hc] using ih acc hrest (List.Pairwise.of_cons hsorted) haccFit hacc
      | some f =>
        obtain ⟨hlo, hhi⟩ := Segment.clip_within hc
        have hdst : Offset.add q.dst (q.src + (f.dst - q.dst) - q.srcSpan.start) = .ok f.dst :=
          Offset.add_eq_ok_iff.2 ⟨by simp only [Segment.srcSpan]; omega,
            by simp only [Segment.srcSpan]; omega⟩
        have hov := overlapsAny_eq f (by omega) acc.reverse
          fun g hg => haccFit g (List.mem_reverse.1 hg)
        simp only [Option.map_some, hdst, hov, List.filterMap_cons, hc]
        cases hany : acc.reverse.any (·.sharesPosition f)
        · have hacc' : (f :: acc).reverse.Pairwise fun a b => a.sharesPosition b = false := by
            rw [List.reverse_cons, List.pairwise_append]
            refine ⟨hacc, List.pairwise_singleton _ _, fun g hg b hb => ?_⟩
            rw [List.mem_singleton.1 hb]
            simpa using List.any_eq_false.1 hany g hg
          have := ih (f :: acc) hrest (List.Pairwise.of_cons hsorted)
            (fun g hg => by
              rcases List.mem_cons.1 hg with rfl | hg
              · omega
              · exact haccFit g hg) hacc'
          simpa [List.reverse_cons, List.append_assoc] using this
        · rw [fragmentOutcome_of_shares (by simpa using hany)]
          rfl

theorem Searchable.rangeToBody_eq {m : OffsetMap} (h : m.Searchable) {q : Segment}
    (hq : q.src + q.len ≤ maxOffset) (hqd : q.dst + q.len ≤ maxOffset) :
    m.rangeToBody q = .ok (fragmentOutcome (m.segments.filterMap q.clip)) := by
  have hfit : ∀ u ∈ m.segments, u.src + u.len ≤ maxOffset ∧ u.dst + u.len ≤ maxOffset :=
    fun u hu => ⟨h.srcFits u hu, h.dstFits u hu⟩
  have hdst : m.segments.Pairwise fun a b => a.dst ≤ b.dst := h.sorted.imp fun {a b} hab => by
    simp only [Segment.le, Bool.or_eq_true, Bool.and_eq_true, decide_eq_true_eq,
      beq_iff_eq] at hab
    omega
  have hpos : q.srcRange = .ok q.srcSpan := srcRange_eq hq
  cases hd : m.disjoint with
  | false =>
    unfold rangeToBody
    simp only [hpos, hd, bind, Except.bind]
    exact rangeToBody_go_eq m hqd _ [] hfit hdst (by simp) (by simp)
  | true =>
    have hp : (partitionPoint m.segments fun s => do return (← s.dstEnd) ≤ q.srcSpan.start) =
        .ok (m.segments.findIdx fun s => !decide (s.dst + s.len ≤ q.src)) :=
      firstEndingAfter_eq h.dstFits (h.disjoint hd) q.src
    generalize hidx : m.segments.findIdx (fun s => !decide (s.dst + s.len ≤ q.src)) = p at hp
    have hrun : m.rangeToBody q = rangeToBody.go m q q.srcSpan (m.segments.drop p) [] := by
      unfold rangeToBody
      rw [hpos]
      show (if m.disjoint = true then do
          let i ← partitionPoint m.segments fun s => do return (← s.dstEnd) ≤ q.srcSpan.start
          let candidates ← pure (m.segments.drop i)
          rangeToBody.go m q q.srcSpan candidates []
        else do
          let candidates ← pure m.segments
          rangeToBody.go m q q.srcSpan candidates []) = _
      rw [hd, if_pos rfl, hp]
      rfl
    have hskip : (m.segments.take p).filterMap q.clip = [] := by
      refine List.filterMap_eq_nil_iff.2 fun a ha => Segment.clip_of_outside (.inl ?_)
      obtain ⟨j, hj, rfl⟩ := List.mem_take_iff_getElem.1 ha
      have := List.not_of_lt_findIdx (hidx ▸ (by omega : j < p))
      simpa using this
    rw [hrun]
    conv_rhs => rw [← List.take_append_drop p m.segments, List.filterMap_append, hskip,
      List.nil_append]
    exact rangeToBody_go_eq m hqd _ [] (fun u hu => hfit u (List.mem_of_mem_drop hu))
      (hdst.sublist (List.drop_sublist _ _)) (by simp) (by simp)

/-! ### Order of tied segments -/

theorem canonical_sorted (s : Multiset Segment) :
    (canonical s).Pairwise fun a b => a.le b = true :=
  (Multiset.pairwise_sort s Segment.Precedes).imp Segment.le_of_precedes

theorem canonical_perm (us : List Segment) : (canonical ↑us).Perm us :=
  Multiset.coe_eq_coe.1 (Multiset.sort_eq _ _)

theorem filterMap_filter_isSome {β : Type} (g : Segment → Option β) (k : List Segment) :
    (k.filter fun u => (g u).isSome).filterMap g = k.filterMap g := by
  rw [List.filterMap_filter]
  congr 1
  funext u
  cases g u <;> rfl

theorem filterMap_eq_of_tied {β : Type} {g : Segment → Option β}
    (hg : ∀ a b, a.dst = b.dst → a.src = b.src → (g a).isSome → (g b).isSome → g a = g b)
    {l l' : List Segment} (hp : l.Perm l') (hl : l.Pairwise fun a b => a.le b = true)
    (hl' : l'.Pairwise fun a b => a.le b = true) : l.filterMap g = l'.filterMap g := by
  let key : Segment → Nat × Nat := fun u => (u.dst, u.src)
  let keyLe : Nat × Nat → Nat × Nat → Prop := fun a b => a.1 < b.1 ∨ a.1 = b.1 ∧ a.2 ≤ b.2
  have hsorted : ∀ {k : List Segment}, k.Pairwise (fun a b => a.le b = true) →
      ((k.filter fun u => (g u).isSome).map key).Pairwise keyLe := fun hk => by
    refine List.pairwise_map.2 ((hk.sublist List.filter_sublist).imp fun {a b} hab => ?_)
    simp only [Segment.le, Bool.or_eq_true, Bool.and_eq_true, decide_eq_true_eq,
      beq_iff_eq] at hab
    simp only [keyLe, key]
    omega
  have hkeys : (l.filter fun u => (g u).isSome).map key =
      (l'.filter fun u => (g u).isSome).map key := by
    refine List.Perm.eq_of_pairwise (fun a b _ _ hab hba => ?_) (hsorted hl) (hsorted hl')
      ((hp.filter _).map key)
    simp only [keyLe] at hab hba
    exact Prod.ext (by omega) (by omega)
  have hzip : ∀ {k k' : List Segment}, (∀ u ∈ k, (g u).isSome) → (∀ u ∈ k', (g u).isSome) →
      k.map key = k'.map key → k.filterMap g = k'.filterMap g := by
    intro k
    induction k with
    | nil => intro k' _ _ h; rw [List.map_eq_nil_iff.1 h.symm]
    | cons a t ih =>
      intro k' hk hk' h
      cases k' with
      | nil => cases h
      | cons b t' =>
        simp only [List.map_cons, List.cons.injEq, Prod.mk.injEq, key] at h
        have hab := hg a b h.1.1 h.1.2 (hk a List.mem_cons_self) (hk' b List.mem_cons_self)
        obtain ⟨x, hx⟩ := Option.isSome_iff_exists.1 (hk a List.mem_cons_self)
        rw [List.filterMap_cons_some hx, List.filterMap_cons_some (hab ▸ hx),
          ih (fun u hu => hk u (List.mem_cons_of_mem a hu))
            (fun u hu => hk' u (List.mem_cons_of_mem b hu)) h.2]
  rw [← filterMap_filter_isSome g l, ← filterMap_filter_isSome g l']
  exact hzip (fun u hu => by simpa using (List.mem_filter.1 hu).2)
    (fun u hu => by simpa using (List.mem_filter.1 hu).2) hkeys

theorem holderOutcome_perm {l l' : List Segment} (h : l.Perm l') (o : Nat) :
    holderOutcome o l = holderOutcome o l' := by
  match l, l', h with
  | [], _, h => rw [List.nil_perm.1 h]
  | [u], _, h => rw [List.singleton_perm.1 h]
  | _ :: _ :: _, [], h => cases h.length_eq
  | _ :: _ :: _, [_], h => cases h.length_eq
  | _ :: _ :: _, _ :: _ :: _, _ => rfl

theorem clip_tied_shares {q a b fa fb : Segment} (hdst : a.dst = b.dst)
    (ha : q.clip a = some fa) (hb : q.clip b = some fb) : fa.sharesPosition fb = true := by
  unfold Segment.clip at ha hb
  dsimp only at ha hb
  by_cases hz : q.len = 0
  · simp only [hz, if_true, Option.ite_none_right_eq_some, Option.some.injEq] at ha hb
    obtain ⟨-, rfl⟩ := ha
    obtain ⟨-, rfl⟩ := hb
    simp [Segment.sharesPosition]
  · simp only [hz, if_false, Option.ite_none_right_eq_some, Option.some.injEq] at ha hb
    obtain ⟨ha, rfl⟩ := ha
    obtain ⟨hb, rfl⟩ := hb
    rw [hdst] at ha ⊢
    generalize max b.dst q.src = start at ha hb ⊢
    generalize min (b.dst + a.len) (q.src + q.len) = stopA at ha ⊢
    generalize min (b.dst + b.len) (q.src + q.len) = stopB at hb ⊢
    simp only [Segment.sharesPosition, beq_iff_eq, Bool.or_eq_true]
    split
    · simp
    · simp
      omega

theorem fragmentOutcome_of_tied {q a b fa fb : Segment} {l : List Segment} (ha : a ∈ l)
    (hb : b ∈ l) (hne : a ≠ b) (hdst : a.dst = b.dst) (hfa : q.clip a = some fa)
    (hfb : q.clip b = some fb) : fragmentOutcome (l.filterMap q.clip) = .ambiguous := by
  have hnot : ¬ (l.filterMap q.clip).Pairwise fun x y => x.sharesPosition y = false := by
    intro hp
    rw [List.pairwise_filterMap] at hp
    have : Std.Symm fun x y : Segment => ∀ fx, q.clip x = some fx → ∀ fy, q.clip y = some fy →
        fx.sharesPosition fy = false :=
      ⟨fun x y h fy hy fx hx => by rw [Segment.sharesPosition_comm]; exact h fx hx fy hy⟩
    have := hp.forall ha hb hne fa hfa fb hfb
    rw [clip_tied_shares hdst hfa hfb] at this
    cases this
  have hne' : l.filterMap q.clip ≠ [] := fun h => by
    rw [List.filterMap_eq_nil_iff] at h
    rw [h a ha] at hfa
    cases hfa
  simp only [fragmentOutcome, hne', hnot, if_false]

theorem fragmentOutcome_eq_of_tied (q : Segment) {l l' : List Segment} (hp : l.Perm l')
    (hl : l.Pairwise fun a b => a.le b = true) (hl' : l'.Pairwise fun a b => a.le b = true) :
    fragmentOutcome (l.filterMap q.clip) = fragmentOutcome (l'.filterMap q.clip) := by
  by_cases htie : ∃ a ∈ l, ∃ b ∈ l, a ≠ b ∧ a.dst = b.dst ∧ (q.clip a).isSome ∧ (q.clip b).isSome
  · obtain ⟨a, ha, b, hb, hne, hdst, hsa, hsb⟩ := htie
    obtain ⟨fa, hfa⟩ := Option.isSome_iff_exists.1 hsa
    obtain ⟨fb, hfb⟩ := Option.isSome_iff_exists.1 hsb
    rw [fragmentOutcome_of_tied ha hb hne hdst hfa hfb,
      fragmentOutcome_of_tied (hp.subset ha) (hp.subset hb) hne hdst hfa hfb]
  · have hsame : (l.filter fun u => (q.clip u).isSome) = l'.filter fun u => (q.clip u).isSome := by
      refine List.Perm.eq_of_pairwise (fun a b ha hb hab hba => ?_)
        (hl.sublist List.filter_sublist) (hl'.sublist List.filter_sublist) (hp.filter _)
      rw [List.mem_filter] at ha hb
      simp only [Segment.le, Bool.or_eq_true, Bool.and_eq_true, decide_eq_true_eq,
        beq_iff_eq] at hab hba
      by_contra hne
      exact htie ⟨a, ha.1, b, hp.symm.subset hb.1, hne, by omega, ha.2, hb.2⟩
    rw [← filterMap_filter_isSome, hsame, filterMap_filter_isSome]

/-! ### The lookups answer the specification -/

theorem Searchable.answers {m : OffsetMap} (h : m.Searchable) {us : List Segment}
    (hp : m.segments.Perm us) : m.Answers ↑us := by
  have hperm : m.segments.Perm (canonical ↑us) := hp.trans (canonical_perm us).symm
  refine ⟨fun o => ?_, fun o => ?_, fun q hq hqd => ?_⟩
  · rw [h.toBody_eq, bodySpec, holderOutcome_perm (hperm.filter _)]
  · rw [h.toExpansion_eq, expansionSpec,
      filterMap_eq_of_tied (fun a b hd hs _ _ => ?_) hperm h.sorted (canonical_sorted _)]
    by_cases ha : a.src ≤ o ∧ o < a.src + a.len <;> by_cases hb : b.src ≤ o ∧ o < b.src + b.len <;>
      simp_all [copyOf]
  · rw [h.rangeToBody_eq hq hqd, rangeSpec,
      fragmentOutcome_eq_of_tied q hperm h.sorted (canonical_sorted _)]

/-- Building a map from segments within offsets does not fault, and its lookups answer the
specification over the multiset of segments: by bisection where the map found the destinations
disjoint, and by scanning alike, never faulting. -/
theorem ofList_answers_spec {us : List Segment}
    (hfit : ∀ u ∈ us, u.src + u.len ≤ maxOffset ∧ u.dst + u.len ≤ maxOffset) :
    ∃ m, ofList us = .ok m ∧ m.Answers ↑us ∧
      ({ m with disjoint := false } : OffsetMap).Answers ↑us := by
  obtain ⟨m, hm, hseg, hs⟩ := ofList_searchable hfit
  have hp : m.segments.Perm us := hseg ▸ List.mergeSort_perm us _
  exact ⟨m, hm, hs.answers hp, hs.scan.answers hp⟩

/-- An empty segment and a longer one at the same destination: the map is disjoint, and its
lookups answer the specification. -/
theorem empty_segment_answers_spec :
    (∀ u ∈ [(⟨0, 3, 0⟩ : Segment), ⟨5, 3, 2⟩],
      u.src + u.len ≤ maxOffset ∧ u.dst + u.len ≤ maxOffset) ∧
    ∃ m, ofList [⟨0, 3, 0⟩, ⟨5, 3, 2⟩] = .ok m ∧ m.Answers ↑[(⟨0, 3, 0⟩ : Segment), ⟨5, 3, 2⟩] ∧
      ({ m with disjoint := false } : OffsetMap).Answers ↑[(⟨0, 3, 0⟩ : Segment), ⟨5, 3, 2⟩] :=
  ⟨by decide, ofList_answers_spec (by decide)⟩

end OffsetMap

end MacroTrace
