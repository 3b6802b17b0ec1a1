import MacroTrace.Proofs.Workspace.Request
/-!
Virtual offsets of expansion files. Every workspace a request reaches keeps its base offsets
accounted for: the allocator stands at what the expansion files reserve together, and each stored
expansion sits at what the expansion files created before its own reserve. So an expansion file's
virtual range ends before the range of any expansion file created after it begins.
-/
namespace MacroTrace

namespace Workspace

theorem foldl_define_allocator (ms : List (String × MacroSpec)) : ∀ w : Workspace,
    (ms.foldl (fun w x => w.define x.1 x.2.toDef) w).allocator = w.allocator := by
  induction ms with
  | nil => intro w; rfl
  | cons m ms ih => intro w; exact ih (w.define m.1 m.2.toDef)

theorem foldl_addSource_allocated (ss : List SourceSpec) : ∀ p : List FileId × Workspace,
    p.2.Allocated →
    (ss.foldl (fun x s => (x.1 ++ [(x.2.addSource s.path s.text s.crate).1],
      (x.2.addSource s.path s.text s.crate).2)) p).2.Allocated := by
  induction ss with
  | nil => intro p hp; exact hp
  | cons s ss ih => intro p hp; exact ih _ (hp.addSource _ _ _ _)

theorem create_allocated {macros sources maxDepth override w ids}
    (h : create macros sources maxDepth override = .ok (w, ids)) : w.Allocated := by
  obtain ⟨replacement, -, rfl⟩ := create_eq_ok h
  obtain ⟨hf, he, -⟩ := foldl_define macros { maxDepth, mapOverride := replacement }
  have ha := foldl_define_allocator macros { maxDepth, mapOverride := replacement }
  refine foldl_addSource_allocated sources ([], _) ⟨?_, fun k e hk => ?_⟩
  · simp [reservedBefore, hf, ha]
  · rw [he] at hk
    cases hk

theorem Reachable.allocated {override : Option (List Segment)} {w : Workspace}
    (h : w.Reachable override) : w.Allocated := by
  induction h with
  | create hc => exact create_allocated hc
  | step s hr ih => exact (Step.exec_sound s hr.coherent).2.allocated ih

variable {w : Workspace}

theorem Allocated.base_lt (h : w.Allocated) {k₁ k₂ : CallKey} {e₁ e₂ : Expansion}
    (h₁ : w.expansions k₁ = some (some e₁)) (h₂ : w.expansions k₂ = some (some e₂))
    (hlt : e₁.file < e₂.file) {t₁ : String} (ht₁ : w.text? e₁.file = some t₁) :
    e₁.base + t₁.utf8ByteSize < e₂.base := by
  obtain ⟨x₁, hx₁, ho₁, hb₁⟩ := h.bases k₁ e₁ h₁
  obtain ⟨x₂, -, -, hb₂⟩ := h.bases k₂ e₂ h₂
  have htext : x₁.text = t₁ := by simpa [text?, hx₁] using ht₁
  rw [hb₁, hb₂, ← htext]
  exact reservedBefore_expansion_lt hx₁ ho₁ hlt

theorem Allocated.base_eq_succ (h : w.Allocated) {k₁ k₂ : CallKey} {e₁ e₂ : Expansion}
    (h₁ : w.expansions k₁ = some (some e₁)) (h₂ : w.expansions k₂ = some (some e₂))
    (hlt : e₁.file < e₂.file)
    (hsrc : ∀ g x, e₁.file < g → g < e₂.file → w.file? g = some x → ∃ crate, x.origin = .source crate)
    {t₁ : String} (ht₁ : w.text? e₁.file = some t₁) : e₂.base = e₁.base + t₁.utf8ByteSize + 1 := by
  obtain ⟨x₁, hx₁, ho₁, hb₁⟩ := h.bases k₁ e₁ h₁
  obtain ⟨x₂, -, -, hb₂⟩ := h.bases k₂ e₂ h₂
  have htext : x₁.text = t₁ := by simpa [text?, hx₁] using ht₁
  rw [hb₂, reservedBefore_of_sources hlt fun g x hg => hsrc g x hg, reservedBefore_succ hx₁,
    FileEntry.reserve_of_expansion ho₁, hb₁, htext, Nat.add_assoc]

theorem Allocated.base_eq_zero (h : w.Allocated) {k : CallKey} {e : Expansion}
    (he : w.expansions k = some (some e))
    (hsrc : ∀ g x, g < e.file → w.file? g = some x → ∃ crate, x.origin = .source crate) :
    e.base = 0 := by
  obtain ⟨x, -, -, hb⟩ := h.bases k e he
  rw [hb, reservedBefore_of_sources (Nat.zero_le _) fun g x _ hg => hsrc g x hg]
  rfl

end Workspace

/-- Base offsets are handed out without overlap. One allocation hands out the next offset and moves
past the `len + 1` offsets it reserves exactly when they fit below `maxOffset`, and otherwise
refuses and stays as it was; along a run from a fresh allocator each call answers from the
allocator the earlier calls left, and a successful call's interval ends before any later base. In
every workspace a request reaches, an expansion whose file came first ends before another begins,
the first expansion is based at zero, and each later one one past the end of the expansion
created just before it. -/
theorem allocated_bases_disjoint :
    (∀ (a : Allocator) (len : Nat), a.allocate len =
      if a.next + len + 1 ≤ maxOffset then (some a.next, ⟨a.next + len + 1⟩) else (none, a)) ∧
    (∀ (lens : List Nat) (i : Nat), (Allocator.allocateAll {} lens)[i]? =
      lens[i]?.map fun len => ((({} : Allocator).allocateAfter (lens.take i)).allocate len).1) ∧
    (∀ (lens : List Nat) (i j bi bj : Nat), i < j →
      (Allocator.allocateAll {} lens)[i]? = some (some bi) →
      (Allocator.allocateAll {} lens)[j]? = some (some bj) →
      ∃ len, lens[i]? = some len ∧ bi + len < bj) ∧
    (∀ (override : Option (List Segment)) (w : Workspace), w.Reachable override →
      ∀ k₁ k₂ e₁ e₂ t₁, w.expansions k₁ = some (some e₁) → w.expansions k₂ = some (some e₂) →
        e₁.file < e₂.file → w.text? e₁.file = some t₁ →
        e₁.base + t₁.utf8ByteSize < e₂.base ∧
        ((∀ g x, e₁.file < g → g < e₂.file → w.file? g = some x →
          ∃ crate, x.origin = .source crate) → e₂.base = e₁.base + t₁.utf8ByteSize + 1)) ∧
    (∀ (override : Option (List Segment)) (w : Workspace), w.Reachable override →
      ∀ k e, w.expansions k = some (some e) →
        (∀ g x, g < e.file → w.file? g = some x → ∃ crate, x.origin = .source crate) →
        e.base = 0) :=
  ⟨Allocator.allocate_eq, Allocator.allocateAll_getElem? {},
    fun lens _ _ _ _ hij hi hj => Allocator.allocateAll_base_lt {} lens hij hi hj,
    fun _ _ hw _ _ _ _ _ h₁ h₂ hlt ht₁ => ⟨hw.allocated.base_lt h₁ h₂ hlt ht₁,
      fun hsrc => hw.allocated.base_eq_succ h₁ h₂ hlt hsrc ht₁⟩,
    fun _ _ hw _ _ he hsrc => hw.allocated.base_eq_zero he hsrc⟩

/-- Lengths 3 and 5 get bases 0 and 4, and the first interval ends before the second base. -/
theorem allocated_bases_three_five : (Allocator.allocateAll {} [3, 5])[0]? = some (some 0) ∧
    (Allocator.allocateAll {} [3, 5])[1]? = some (some 4) ∧
    ∃ len, [3, 5][0]? = some len ∧ 0 + len < 4 :=
  ⟨rfl, rfl, allocated_bases_disjoint.2.2.1 [3, 5] 0 1 0 4 (by decide) rfl rfl⟩

end MacroTrace
