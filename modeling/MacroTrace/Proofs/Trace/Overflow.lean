import MacroTrace.Proofs.Trace.RoundTrip
import MacroTrace.Proofs.OffsetMap.Specification

/-! Where the lookup from a body offset to its copies can overflow. It moves the offset into the
body, reads the copies off the map and adds the expansion's base to each, and only the last step
is unchecked: when the map's segments each lie within offsets, the lookup faults exactly when a
copy lies past the last offset once the base is added. Segments the macros record never reach
that far, but a map override whose segments each fit can. -/
namespace MacroTrace

namespace Session

theorem mapM_lift_add_overflow (base : Nat) : ∀ (l : List Nat) (w : Workspace),
    (∃ x ∈ l, maxOffset < x + base) →
    (l.mapM fun x => lift (Offset.add x base)).run.run w = (.error .addOverflow, w)
  | [], _, h => by simp at h
  | x :: l, w, h => by
    rw [List.mapM_cons, run_bind]
    by_cases hx : x + base ≤ maxOffset
    · have hl : ∃ y ∈ l, maxOffset < y + base := by
        obtain ⟨y, hy, hlt⟩ := h
        rcases List.mem_cons.1 hy with rfl | hy
        · omega
        · exact ⟨y, hy, hlt⟩
      have hadd : Offset.add x base = .ok (x + base) := Offset.add_eq_ok_iff.2 ⟨hx, rfl⟩
      simp only [run_lift, hadd, run_bind, mapM_lift_add_overflow base l w hl]
    · have hadd : Offset.add x base = .error .addOverflow := by simp [Offset.add, hx]
      simp only [run_lift, hadd]

variable {w w' : Workspace} {c : MacroCall} {e : Expansion} {body : TextRange}

/-- Once a call's body is found and the map's segments lie within offsets, the lookup of a body
offset's copies answers nothing outside the body, and inside it the copies moved by the
expansion's base, unless one of them passes the last offset: then it faults. -/
theorem offsetToExpansion_run_of_fitting
    (hb : (bodyTextRange c).run.run w = (.ok (some body), w'))
    (hunits : ∀ u ∈ e.map.segments, u.src + u.len ≤ maxOffset ∧ u.dst + u.len ≤ maxOffset)
    (s : Nat) :
    ((offsetToExpansion c e s).run.run w).1 =
      if body.contains s then
        if (e.map.segments.filterMap (OffsetMap.copyOf (s - body.start))).all
          (· + e.base ≤ maxOffset)
        then .ok (some ((e.map.segments.filterMap (OffsetMap.copyOf (s - body.start))).map
          (· + e.base)))
        else .error .addOverflow
      else .ok none := by
  unfold offsetToExpansion
  rw [run_bind_of_ok (toBodyRelative_run hb s)]
  by_cases hin : body.contains s = true
  · have hcopies : e.map.toExpansion (s - body.start) =
        .ok (e.map.segments.filterMap (OffsetMap.copyOf (s - body.start))) :=
      OffsetMap.toExpansion_go_eq _ _ hunits
    simp only [hin, if_true, run_bind, run_lift, hcopies]
    rcases hall : (e.map.segments.filterMap (OffsetMap.copyOf (s - body.start))).all
      (· + e.base ≤ maxOffset) with _ | _
    · obtain ⟨x, hx, hlt⟩ := List.all_eq_false.1 hall
      have hpast : maxOffset < x + e.base := by simpa using hlt
      simp only [Bool.false_eq_true, if_false, mapM_lift_add_overflow _ _ _ ⟨x, hx, hpast⟩]
    · have hle := fun x hx => of_decide_eq_true (List.all_eq_true.1 hall x hx)
      simp only [if_true, mapM_lift_add _ _ _ hle, run_pure]
  · simp only [hin, Bool.false_eq_true, if_false, run_pure]

end Session

/-- A map override of one segment that fits on its own, copying to the last offset but one: once
a first call is expanded at base zero, the second call's expansion gets a base past zero, and
looking up where a body offset of that call was copied faults. -/
theorem override_copy_overflows_base : ∃ (w : Workspace) (c₀ c₁ : MacroCall),
    w.Reachable (some [⟨0, 4294967294, 1⟩]) ∧
    (∀ u ∈ [(⟨0, 4294967294, 1⟩ : Segment)],
      u.src + u.len ≤ maxOffset ∧ u.dst + u.len ≤ maxOffset) ∧
    c₀ ∈ w.callsIn 0 ∧ c₁ ∈ w.callsIn 1 ∧ ∃ (e₀ e₁ : Expansion) (w₁ w₂ : Workspace),
      (Session.expansion c₀).run.run w = (.ok (some e₀), w₁) ∧
      (Session.expansion c₁).run.run w₁ = (.ok (some e₁), w₂) ∧
      ((Session.offsetToExpansion c₁ e₁ 3).run.run w₂).1 = .error .addOverflow := by
  have hm : OffsetMap.ofList [⟨0, 4294967294, 1⟩] = .ok ⟨[⟨0, 4294967294, 1⟩], true⟩ := by
    rw [OffsetMap.ofList, List.mergeSort_of_pairwise (by simp)]
    rfl
  have hw := @Workspace.Reachable.create _ [("m", .template "$x" "$x")]
    [⟨"lib.rs", "m!(a);", 0⟩, ⟨"b.rs", "m!(b);", 0⟩] defaultMaxDepth _ _
    (Workspace.create_override hm rfl)
  refine ⟨_, _, _, hw, by decide, List.get_mem _ ⟨0, ?first⟩, List.get_mem _ ⟨0, ?second⟩,
    _, _, _, _, Session.run_eq_of_isSome ?expand₀, Session.run_eq_of_isSome ?expand₁, ?fault⟩
  case first => decide +kernel
  case second => decide +kernel
  case expand₀ => decide +kernel
  case expand₁ => decide +kernel
  case fault => decide +kernel

end MacroTrace
