import MacroTrace.Search

/-! The search finds the partition point. A probe that answers `lt` before some index and `gt`
from it on, without effect, leads every window that holds the index to a smaller one that still
holds it, and the last probe names it. A predicate that holds of a prefix of the list is such a
probe, so `partitionPoint` answers the length of that prefix. A probe that answers `eq` at one
index, `lt` before it and `gt` after it leads the search to find that index. -/
namespace MacroTrace

section

variable {m : Type → Type} [Monad m] [LawfulMonad m] {α : Type}

def SplitsAt (xs : List α) (probe : α → m Ordering) (p : Nat) : Prop :=
  p ≤ xs.length ∧ ∀ i (h : i < xs.length), probe xs[i] = pure (if i < p then .lt else .gt)

variable {xs : List α} {probe : α → m Ordering} {p : Nat}

omit [LawfulMonad m] in
/-- A probe that answers `g i` at each index of the list, without effect, is answered so there,
and `gt` past the end. -/
theorem probeAt_of_getElem {g : Nat → Ordering}
    (h : ∀ i (hi : i < xs.length), probe xs[i] = pure (g i)) (i : Nat) :
    probeAt xs probe i = pure (if i < xs.length then g i else .gt) := by
  unfold MacroTrace.probeAt
  split
  · rename_i x hx
    obtain ⟨hi, rfl⟩ := List.getElem?_eq_some_iff.1 hx
    rw [if_pos hi]
    exact h i hi
  · rename_i hx
    rw [if_neg (Nat.not_lt.2 (List.getElem?_eq_none_iff.1 hx))]

omit [LawfulMonad m] in
theorem SplitsAt.probeAt (h : SplitsAt xs probe p) (i : Nat) :
    probeAt xs probe i = pure (if i < p then .lt else .gt) := by
  rw [probeAt_of_getElem h.2]
  by_cases hi : i < xs.length
  · rw [if_pos hi]
  · have hge : ¬ i < p := by
      have := h.1
      omega
    rw [if_neg hi, if_neg hge]

theorem SplitsAt.searchWindow (h : SplitsAt xs probe p) :
    ∀ (size base : Nat), 0 < size → base ≤ p → p ≤ base + size →
      MacroTrace.searchWindow xs probe base size = pure (.gap p) := by
  intro size
  induction size using Nat.strongRecOn with
  | ind size ih =>
    intro base hpos hb hp
    rw [MacroTrace.searchWindow]
    split
    · rw [h.probeAt, pure_bind]
      by_cases hlt : base < p
      · obtain rfl : p = base + 1 := by omega
        simp only [Nat.lt_add_one, if_true]
      · obtain rfl : p = base := by omega
        simp only [Nat.lt_irrefl, if_false]
    · rename_i hs
      dsimp only
      rw [h.probeAt, pure_bind]
      by_cases hlt : base + size / 2 < p
      · simp only [hlt, if_true]
        exact ih (size - size / 2) (by omega) (base + size / 2) (by omega) (by omega) (by omega)
      · simp only [hlt, if_false]
        exact ih (size - size / 2) (by omega) base (by omega) hb (by omega)

theorem SplitsAt.searchBy (h : SplitsAt xs probe p) :
    MacroTrace.searchBy xs probe = pure (.gap p) := by
  unfold MacroTrace.searchBy
  split
  · rename_i hnil
    have : p = 0 := by
      have := h.1
      simp only [List.isEmpty_iff] at hnil
      simp [hnil] at this
      exact this
    rw [this]
  · rename_i hne
    have : 0 < xs.length := by
      cases xs with
      | nil => simp at hne
      | cons _ _ => simp
    exact h.searchWindow xs.length 0 this (Nat.zero_le p) (by simpa using h.1)

theorem partitionPoint_eq_findIdx {pred : α → m Bool} {f : α → Bool}
    (hf : ∀ x ∈ xs, pred x = pure (f x)) (hfront : xs.Pairwise fun a b => f b = true → f a = true) :
    partitionPoint xs pred = pure (xs.findIdx fun x => !f x) := by
  have hsplit : SplitsAt xs (fun x => do return if (← pred x) then .lt else .gt)
      (xs.findIdx fun x => !f x) := by
    refine ⟨List.findIdx_le_length, fun i hi => ?_⟩
    dsimp only
    rw [hf _ (List.getElem_mem hi), pure_bind]
    congr 1
    by_cases hlt : i < xs.findIdx fun x => !f x
    · have hfx : f xs[i] = true := by simpa using List.not_of_lt_findIdx hlt
      simp only [hfx, hlt, if_true]
    · have hfi : xs.findIdx (fun x => !f x) < xs.length := by omega
      have hstop := List.findIdx_getElem (w := hfi)
      have hfail : f xs[i] = false := by
        cases hfx : f xs[i]
        · rfl
        · by_cases heq : i = xs.findIdx fun x => !f x
          · subst heq
            simp [hfx] at hstop
          · have hrel := List.pairwise_iff_getElem.1 hfront _ _ hfi hi (by omega) hfx
            simp [hrel] at hstop
      simp [hfail, hlt]
  unfold partitionPoint
  rw [hsplit.searchBy, pure_bind]
  rfl

def FindsAt (xs : List α) (probe : α → m Ordering) (p : Nat) : Prop :=
  p < xs.length ∧ ∀ i (h : i < xs.length),
    probe xs[i] = pure (if i < p then .lt else if i = p then .eq else .gt)

omit [LawfulMonad m] in
theorem FindsAt.probeAt (h : FindsAt xs probe p) (i : Nat) :
    probeAt xs probe i = pure (if i < p then .lt else if i = p then .eq else .gt) := by
  rw [probeAt_of_getElem h.2]
  by_cases hi : i < xs.length
  · rw [if_pos hi]
  · have hgt : ¬ i < p ∧ i ≠ p := by
      have := h.1
      omega
    rw [if_neg hi, if_neg hgt.1, if_neg hgt.2]

theorem FindsAt.searchWindow (h : FindsAt xs probe p) :
    ∀ (size base : Nat), 0 < size → base ≤ p → p < base + size →
      MacroTrace.searchWindow xs probe base size = pure (.found p) := by
  intro size
  induction size using Nat.strongRecOn with
  | ind size ih =>
    intro base hpos hb hp
    rw [MacroTrace.searchWindow]
    split
    · obtain rfl : p = base := by omega
      simp only [h.probeAt, Nat.lt_irrefl, if_false, if_true, pure_bind]
    · dsimp only
      rw [h.probeAt, pure_bind]
      by_cases hgt : p < base + size / 2
      · have hne : ¬ (base + size / 2 < p) ∧ base + size / 2 ≠ p := by omega
        simp only [hne.1, hne.2, if_false, beq_self_eq_true, if_true]
        exact ih (size - size / 2) (by omega) base (by omega) hb (by omega)
      · have hc : ((if base + size / 2 < p then Ordering.lt
            else if base + size / 2 = p then .eq else .gt) == .gt) = false := by
          by_cases hlt : base + size / 2 < p
          · simp only [hlt, if_true]
            rfl
          · obtain rfl : base + size / 2 = p := by omega
            simp only [Nat.lt_irrefl, if_false]
            rfl
        rw [hc, if_neg Bool.false_ne_true]
        exact ih (size - size / 2) (by omega) (base + size / 2) (by omega) (by omega) (by omega)

theorem FindsAt.searchBy (h : FindsAt xs probe p) :
    MacroTrace.searchBy xs probe = pure (.found p) := by
  unfold MacroTrace.searchBy
  have hne : xs.isEmpty = false := by
    have := h.1
    cases xs with
    | nil => simp at this
    | cons _ _ => rfl
  rw [hne, if_neg Bool.false_ne_true]
  exact h.searchWindow xs.length 0 (by have := h.1; omega) (Nat.zero_le p) (by simpa using h.1)

end

end MacroTrace
