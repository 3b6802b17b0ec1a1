import MacroTrace.Expansion.OffsetMap
/-! How an offset map depends on the order of its segments. Sorting is stable on (destination,
source), so segments that tie on both keys keep their input order. When no two different
segments tie, the sorted list, and with it the whole map, is the same for every order
(`ofList_eq_of_perm`). When two do, only neighbours are compared, and the disjointness flag can
change with the order: an empty segment before a longer one at the same place passes the check,
the other way round fails it (`disjoint_depends_on_order`). -/
namespace MacroTrace
namespace OffsetMap

theorem ofList_eq_of_perm {segs segs' : List Segment}
    (untied : ∀ a ∈ segs, ∀ b ∈ segs, a.dst = b.dst → a.src = b.src → a = b)
    (p : segs.Perm segs') : ofList segs = ofList segs' := by
  have same : segs.mergeSort Segment.le = segs'.mergeSort Segment.le := by
    refine List.Perm.eq_of_pairwise ?_
      (List.pairwise_mergeSort Segment.le_trans Segment.le_total segs)
      (List.pairwise_mergeSort Segment.le_trans Segment.le_total segs')
      ((List.mergeSort_perm _ _).trans (p.trans (List.mergeSort_perm _ _).symm))
    intro a b ha hb hab hba
    have ha' := (List.mergeSort_perm segs _).subset ha
    have hb' := p.symm.subset ((List.mergeSort_perm segs' _).subset hb)
    simp only [Segment.le, Bool.or_eq_true, Bool.and_eq_true, decide_eq_true_eq,
      beq_iff_eq] at hab hba
    exact untied a ha' b hb' (by omega) (by omega)
  simp only [ofList, same]

/-- Without ties on (destination, source) between different segments, the disjointness flag, or
the fault met while computing it, is the same in every order. -/
theorem disjoint_eq_of_perm {segs segs' : List Segment}
    (untied : ∀ a ∈ segs, ∀ b ∈ segs, a.dst = b.dst → a.src = b.src → a = b)
    (p : segs.Perm segs') :
    (ofList segs).map disjoint = (ofList segs').map disjoint := by
  rw [ofList_eq_of_perm untied p]

/-- Two segments at one destination with different sources give one flag in both orders. -/
theorem disjoint_eq_of_perm_swap :
    (∀ a ∈ [(⟨0, 5, 0⟩ : Segment), ⟨1, 5, 3⟩], ∀ b ∈ [(⟨0, 5, 0⟩ : Segment), ⟨1, 5, 3⟩],
        a.dst = b.dst → a.src = b.src → a = b) ∧
      [(⟨0, 5, 0⟩ : Segment), ⟨1, 5, 3⟩].Perm [⟨1, 5, 3⟩, ⟨0, 5, 0⟩] ∧
      (ofList [⟨0, 5, 0⟩, ⟨1, 5, 3⟩]).map disjoint =
        (ofList [⟨1, 5, 3⟩, ⟨0, 5, 0⟩]).map disjoint :=
  ⟨by decide, List.Perm.swap _ _ _, disjoint_eq_of_perm (by decide) (List.Perm.swap _ _ _)⟩

/-- Disjointness is not a property of the set of segments: swapping two tied segments flips it. -/
theorem disjoint_depends_on_order :
    ¬ ∀ segs segs' : List Segment, segs.Perm segs' →
      (ofList segs).map disjoint = (ofList segs').map disjoint := by
  intro h
  have one : (ofList [⟨0, 5, 0⟩, ⟨0, 5, 3⟩]).map disjoint = .ok true := by
    rw [ofList, List.mergeSort_of_pairwise (by decide)]; rfl
  have other : (ofList [⟨0, 5, 3⟩, ⟨0, 5, 0⟩]).map disjoint = .ok false := by
    rw [ofList, List.mergeSort_of_pairwise (by decide)]; rfl
  have := h _ _ (List.Perm.swap ⟨0, 5, 0⟩ ⟨0, 5, 3⟩ [])
  rw [one, other] at this
  cases this

end OffsetMap
end MacroTrace
