import MacroTrace.Expansion.OffsetMap
import MacroTrace.Proofs.Search

/-! Lookups in an ordered map. When the segments are non-empty, each ends before the next one
starts and no end passes the largest offset, the bisection stops at the one segment whose
destination can hold an offset: the lookup from the expansion answers that segment's source
position, or nothing when no segment holds the offset, and never faults. The lookup from the
body answers, in segment order, the destination position of every segment whose source holds
the offset. A range lookup answers fragments, each a part of one segment whose destination lies
inside the query, moved to the segment's source. -/
namespace MacroTrace

namespace OffsetMap

/-- A map of non-empty segments, each ending before the next one starts, checked disjoint, with
both ends of every segment within offsets. -/
structure Ordered (m : OffsetMap) : Prop where
  disjoint : m.disjoint = true
  pos : ∀ u ∈ m.segments, 0 < u.len
  ordered : m.segments.Pairwise fun a b => a.dst + a.len ≤ b.dst
  dstFits : ∀ u ∈ m.segments, u.dst + u.len ≤ maxOffset
  srcFits : ∀ u ∈ m.segments, u.src + u.len ≤ maxOffset

def Holds (u : Segment) (o : Nat) : Prop := u.dst ≤ o ∧ o < u.dst + u.len

variable {m : OffsetMap} {o : Nat}

theorem dstRange_eq {u : Segment} (h : u.dst + u.len ≤ maxOffset) :
    u.dstRange = .ok ⟨u.dst, u.dst + u.len, by omega⟩ := by
  simp [Segment.dstRange, TextRange.ofLength, h]

theorem srcRange_eq {u : Segment} (h : u.src + u.len ≤ maxOffset) :
    u.srcRange = .ok ⟨u.src, u.src + u.len, by omega⟩ := by
  simp [Segment.srcRange, TextRange.ofLength, h]

/-- Over segments that end within offsets, each ending before the next one starts, the bisection
stops at the first segment that ends past the offset. -/
theorem firstEndingAfter_eq (hfit : ∀ u ∈ m.segments, u.dst + u.len ≤ maxOffset)
    (hord : m.segments.Pairwise fun a b => a.dst + a.len ≤ b.dst) (o : Nat) :
    m.firstEndingAfter o = .ok (m.segments.findIdx fun s => !decide (s.dst + s.len ≤ o)) := by
  unfold firstEndingAfter
  refine partitionPoint_eq_findIdx (fun s hs => ?_) ?_
  · simp [Segment.dstEnd, Offset.add, hfit s hs, bind, Except.bind, pure, Except.pure]
  · refine hord.imp fun {a b} hab hb => ?_
    simp only [decide_eq_true_eq] at hb ⊢
    omega

namespace Ordered

theorem holds_of_lt (h : m.Ordered) {i j : Nat} (hi : i < m.segments.length)
    (hj : j < m.segments.length) (hij : i < j) : m.segments[i].dst + m.segments[i].len ≤
      m.segments[j].dst :=
  List.pairwise_iff_getElem.1 h.ordered i j hi hj hij

theorem holds_unique (h : m.Ordered) {u v : Segment} (hu : u ∈ m.segments) (hv : v ∈ m.segments)
    (hhu : Holds u o) (hhv : Holds v o) : u = v := by
  obtain ⟨i, hi, rfl⟩ := List.mem_iff_getElem.1 hu
  obtain ⟨j, hj, rfl⟩ := List.mem_iff_getElem.1 hv
  simp only [Holds] at hhu hhv
  rcases Nat.lt_trichotomy i j with hij | rfl | hij
  · have := h.holds_of_lt hi hj hij
    omega
  · rfl
  · have := h.holds_of_lt hj hi hij
    omega

theorem findIn_cons {u : Segment} {rest : List Segment} (hu : u.dst + u.len ≤ maxOffset)
    (hend : o < u.dst + u.len) :
    findIn o (u :: rest) = .ok (if u.dst ≤ o then some u else none) := by
  unfold findIn
  split
  · rename_i hle
    simp [dstRange_eq hu, bind, Except.bind, TextRange.contains, hle, hend, pure, Except.pure]
  · simp only [pure, Except.pure]

theorem toBody_of_holds (h : m.Ordered) {u : Segment} (hu : u ∈ m.segments) (ho : Holds u o) :
    m.toBody o = .ok (.mapped (u.src + (o - u.dst))) := by
  obtain ⟨k, hk, rfl⟩ := List.mem_iff_getElem.1 hu
  obtain ⟨hstart, hend⟩ := ho
  have hidx : (m.segments.findIdx fun s => !decide (s.dst + s.len ≤ o)) = k := by
    refine (List.findIdx_eq hk).2 ⟨by simpa using hend, fun j hj => ?_⟩
    have := h.holds_of_lt (by omega) hk hj
    simp only [Bool.not_eq_false', decide_eq_true_eq]
    omega
  have hadd : Offset.add m.segments[k].src (o - m.segments[k].dst) =
      .ok (m.segments[k].src + (o - m.segments[k].dst)) := by
    have := h.srcFits _ hu
    exact Offset.add_eq_ok_iff.2 ⟨by omega, rfl⟩
  rw [toBody, if_pos h.disjoint, firstEndingAfter_eq h.dstFits h.ordered, hidx]
  simp only [bind, Except.bind]
  rw [List.drop_eq_getElem_cons hk, findIn_cons (h.dstFits _ hu) hend, if_pos hstart]
  simp only [hadd]
  rfl

theorem toBody_of_not_holds (h : m.Ordered) (ho : ∀ u ∈ m.segments, ¬ Holds u o) :
    m.toBody o = .ok .unmapped := by
  rw [toBody, if_pos h.disjoint, firstEndingAfter_eq h.dstFits h.ordered]
  simp only [bind, Except.bind]
  generalize hp : m.segments.findIdx (fun s => !decide (s.dst + s.len ≤ o)) = p
  by_cases hlt : p < m.segments.length
  · have hend : o < m.segments[p].dst + m.segments[p].len := by
      have hstop : (!decide (m.segments[p].dst + m.segments[p].len ≤ o)) = true := by
        subst hp
        exact @List.findIdx_getElem _ (fun s => !decide (s.dst + s.len ≤ o)) m.segments hlt
      simp only [Bool.not_eq_eq_eq_not, Bool.not_true, decide_eq_false_iff_not] at hstop
      omega
    have hstart : ¬ m.segments[p].dst ≤ o := fun hle =>
      ho _ (List.getElem_mem hlt) ⟨hle, hend⟩
    rw [List.drop_eq_getElem_cons hlt, findIn_cons (h.dstFits _ (List.getElem_mem hlt)) hend,
      if_neg hstart]
    rfl
  · rw [List.drop_of_length_le (by omega)]
    rfl

end Ordered

theorem toExpansion_go_eq (r : Nat) : ∀ segs : List Segment,
    (∀ u ∈ segs, u.src + u.len ≤ maxOffset ∧ u.dst + u.len ≤ maxOffset) →
    toExpansion.go r segs = .ok (segs.filterMap fun u =>
      if u.src ≤ r ∧ r < u.src + u.len then some (u.dst + (r - u.src)) else none)
  | [], _ => rfl
  | u :: rest, hfit => by
    have ih := toExpansion_go_eq r rest fun v hv => hfit v (List.mem_cons_of_mem u hv)
    obtain ⟨hs, hd⟩ := hfit u List.mem_cons_self
    unfold toExpansion.go
    by_cases hin : u.src ≤ r ∧ r < u.src + u.len
    · have hdst : u.dst + (r - u.src) ≤ maxOffset := by omega
      simp [srcRange_eq hs, TextRange.contains, hin, Offset.add, hdst, ih, bind, Except.bind,
        pure, Except.pure]
    · simp only [srcRange_eq hs, bind, Except.bind, TextRange.contains, Bool.and_eq_true,
        decide_eq_true_eq, hin, if_false, ih, List.filterMap_cons]

theorem Ordered.toExpansion_eq (h : m.Ordered) (r : Nat) :
    m.toExpansion r = .ok (m.segments.filterMap fun u =>
      if u.src ≤ r ∧ r < u.src + u.len then some (u.dst + (r - u.src)) else none) :=
  toExpansion_go_eq r m.segments fun u hu => ⟨h.srcFits u hu, h.dstFits u hu⟩

/-! ### Ranges -/

def Fragment (m : OffsetMap) (q f : Segment) : Prop :=
  ∃ u ∈ m.segments, ∃ d, u.dst ≤ d ∧ d + f.len ≤ u.dst + u.len ∧ q.src ≤ d ∧
    d + f.len ≤ q.src + q.len ∧ f.src = u.src + (d - u.dst) ∧ f.dst = q.dst + (d - q.src)

theorem dstIntersection_spec {s part : Segment} {pos : TextRange}
    (h : s.dstIntersection pos = .ok (some part)) :
    s.dst ≤ part.dst ∧ part.dst + part.len ≤ s.dst + s.len ∧ pos.start ≤ part.dst ∧
      part.dst + part.len ≤ pos.stop ∧ part.src = s.src + (part.dst - s.dst) := by
  unfold Segment.dstIntersection at h
  cases hd : s.dstRange with
  | error e => simp [hd, bind, Except.bind] at h
  | ok d =>
    have hfit : s.dst + s.len ≤ maxOffset ∧ d = ⟨s.dst, s.dst + s.len, by omega⟩ := by
      simp only [Segment.dstRange, TextRange.ofLength] at hd
      split at hd
      · cases hd
        exact ⟨by assumption, rfl⟩
      · cases hd
    obtain ⟨-, rfl⟩ := hfit
    simp only [hd, bind, Except.bind] at h
    split at h
    · cases h
    · rename_i c hc
      cases hadd : Offset.add s.src (c.start - s.dst) with
      | error e => simp [hadd] at h
      | ok src =>
        simp only [hadd, pure, Except.pure, Except.ok.injEq, Option.some.injEq] at h
        subst h
        obtain ⟨-, rfl⟩ := Offset.add_eq_ok_iff.1 hadd
        have hin : s.dst ≤ c.start ∧ c.stop ≤ s.dst + s.len ∧ pos.start ≤ c.start ∧
            c.stop ≤ pos.stop := by
          split at hc
          · split at hc
            · rename_i hempty hcont
              cases hc
              simp only [TextRange.isEmpty, beq_iff_eq] at hempty
              simp only [TextRange.contains, Bool.and_eq_true, decide_eq_true_eq] at hcont
              omega
            · cases hc
          · simp only [Option.filter_eq_some_iff, TextRange.intersect] at hc
            obtain ⟨hc, -⟩ := hc
            split at hc
            · cases hc
              simp only
              omega
            · cases hc
        have := c.le
        refine ⟨hin.1, ?_, hin.2.2.1, ?_, rfl⟩ <;> simp only [TextRange.len] <;> omega

theorem mapped_of_collected {acc frags : List Segment}
    (h : (if acc.isEmpty then .unmapped else .mapped acc.reverse) = Outcome.mapped frags) :
    frags = acc.reverse := by
  split at h
  · cases h
  · cases h
    rfl

theorem rangeToBody_go_fragment {q : Segment} {pos : TextRange}
    (hpos : pos.start = q.src ∧ pos.stop = q.src + q.len) (segs : List Segment) :
    ∀ (acc frags : List Segment), (∀ s ∈ segs, s ∈ m.segments) →
      (∀ f ∈ acc, m.Fragment q f) → rangeToBody.go m q pos segs acc = .ok (.mapped frags) →
      ∀ f ∈ frags, m.Fragment q f := by
  induction segs with
  | nil =>
    intro acc frags _ hacc h
    simp only [rangeToBody.go, pure, Except.pure, Except.ok.injEq] at h
    rw [mapped_of_collected h]
    exact fun f hf => hacc f (List.mem_reverse.1 hf)
  | cons s rest ih =>
    intro acc frags hsegs hacc h
    unfold rangeToBody.go at h
    split at h
    · simp only [pure, Except.pure, Except.ok.injEq] at h
      rw [mapped_of_collected h]
      exact fun f hf => hacc f (List.mem_reverse.1 hf)
    · have hrest : ∀ x ∈ rest, x ∈ m.segments := fun x hx => hsegs x (List.mem_cons_of_mem s hx)
      cases hi : s.dstIntersection pos with
      | error e => simp [hi, bind, Except.bind] at h
      | ok part? =>
        simp only [hi, bind, Except.bind] at h
        cases part? with
        | none => exact ih acc frags hrest hacc h
        | some part =>
          cases hadd : Offset.add q.dst (part.dst - pos.start) with
          | error e => simp [hadd] at h
          | ok dst =>
            obtain ⟨-, rfl⟩ := Offset.add_eq_ok_iff.1 hadd
            simp only [hadd] at h
            have hfrag : m.Fragment q ⟨part.src, q.dst + (part.dst - pos.start), part.len⟩ := by
              obtain ⟨h₁, h₂, h₃, h₄, h₅⟩ := dstIntersection_spec hi
              refine ⟨s, hsegs s List.mem_cons_self, part.dst, ?_⟩
              dsimp only
              omega
            cases hov : rangeToBody.overlapsAny ⟨part.src, q.dst + (part.dst - pos.start), part.len⟩
                acc.reverse with
            | error e => simp [hov] at h
            | ok b =>
              simp only [hov] at h
              split at h
              · cases h
              · refine ih _ frags hrest ?_ h
                intro f hf
                rcases List.mem_cons.1 hf with rfl | hf
                · exact hfrag
                · exact hacc f hf

theorem rangeToBody_fragment {q : Segment} {frags : List Segment}
    (h : m.rangeToBody q = .ok (.mapped frags)) : ∀ f ∈ frags, m.Fragment q f := by
  unfold rangeToBody at h
  cases hpos : q.srcRange with
  | error e => simp [hpos, bind, Except.bind] at h
  | ok pos =>
    have hq : pos.start = q.src ∧ pos.stop = q.src + q.len := by
      simp only [Segment.srcRange, TextRange.ofLength] at hpos
      split at hpos
      · cases hpos
        exact ⟨rfl, rfl⟩
      · cases hpos
    simp only [hpos, bind, Except.bind] at h
    split at h
    · split at h
      · cases h
      · rename_i i _
        exact rangeToBody_go_fragment hq _ [] frags (fun s hs => List.mem_of_mem_drop hs)
          (fun _ hf => by simp at hf) h
    · exact rangeToBody_go_fragment hq _ [] frags (fun s hs => hs) (fun _ hf => by simp at hf) h

end OffsetMap

end MacroTrace
