import MacroTrace.Trace.Navigate
import MacroTrace.Proofs.Workspace.Session
import MacroTrace.Proofs.Workspace.Calls

/-! Every lookup keeps the workspace invariant. Lookups change the workspace in two ways only:
expanding calls, and changing the overlay. Each lookup expands only calls it found in the
workspace (the call an expansion file comes from, a listed call, the call holding a genuine
token), so each is sound, and lookups that hand out calls or tokens hand out genuine ones. -/
namespace MacroTrace

namespace Session

variable {w : Workspace}

/-! ### Reads -/

theorem maxDepth_sound : Sound w maxDepth fun a w' => a = w.maxDepth ∧ w' = w := Sound.read

theorem expansionCall_sound (f : FileId) :
    Sound w (expansionCall f) fun a w' => a = w.expansionCall f ∧ w' = w := Sound.read

theorem includedFrom_sound (f : FileId) :
    Sound w (includedFrom f) fun a w' => a = w.includedFrom f ∧ w' = w := Sound.read

theorem tree?_sound (f : FileId) : Sound w (tree? f) fun a w' => a = w.tree? f ∧ w' = w :=
  Sound.read

theorem fileCrate_sound (f : FileId) :
    Sound w (fileCrate f) fun a w' => a = w.fileCrate f ∧ w' = w := Sound.read

theorem overlay_sound : Sound w overlay fun a w' => a = w.overlay ∧ w' = w := Sound.read

theorem expansionCall_sound' (f : FileId) :
    Sound w (expansionCall f) fun a w' => ∀ c, a = some c → c.Genuine w' :=
  (expansionCall_sound f).mono fun _ _ ⟨ha, hw⟩ _ hc =>
    hw ▸ Workspace.expansionCall_genuine (ha ▸ hc)

/-! ### Offsets -/

theorem fileStartOffset_sound (f : FileId) : Sound w (fileStartOffset f) fun _ _ => True := by
  unfold fileStartOffset
  refine Sound.bind (expansionCall_sound' f) ?_
  rintro r w₁ - - hr
  split
  · exact Sound.pure trivial
  · rename_i c
    exact Sound.bind (expansion_sound (hr c rfl)) fun _ _ _ _ _ => Sound.pure trivial

theorem elementRange_sound (e : FileElement) : Sound w (elementRange e) fun _ _ => True := by
  unfold elementRange
  refine Sound.bind (fileStartOffset_sound _) ?_
  rintro r w₁ - - -
  split
  · exact Sound.pure trivial
  · exact Sound.bind Sound.lift fun _ _ _ _ _ => Sound.pure trivial

theorem elementStart_sound (e : FileElement) : Sound w (elementStart e) fun _ _ => True :=
  Sound.bind (elementRange_sound e) fun _ _ _ _ _ => Sound.pure trivial

theorem tokenStartingAt_sound (f : FileId) (off : Nat) :
    Sound w (tokenStartingAt f off) fun r w' => ∀ t, r = some t → t.Genuine w' := by
  unfold tokenStartingAt
  refine Sound.bind (fileStartOffset_sound f) ?_
  rintro r w₁ - - -
  split
  · split
    · refine Sound.bind (tree?_sound f) ?_
      rintro r w₂ - - ⟨rfl, rfl⟩
      split
      · rename_i root hroot
        split
        · exact Sound.pure (by simp)
        · split
          · rename_i t ht
            refine Sound.pure ?_
            intro t' h
            split at h
            · cases h
              exact ⟨hroot, Green.tokenAt_mem ht⟩
            · cases h
          · exact Sound.pure (by simp)
      · exact Sound.pure (by simp)
    · exact Sound.pure (by simp)
  · exact Sound.pure (by simp)

theorem bodyTextRange_sound (c : MacroCall) : Sound w (bodyTextRange c) fun _ _ => True := by
  unfold bodyTextRange
  split
  · refine Sound.bind (fileStartOffset_sound _) ?_
    rintro r w₁ - - -
    split
    · exact Sound.bind Sound.lift fun _ _ _ _ _ => Sound.pure trivial
    · exact Sound.pure trivial
  · exact Sound.pure trivial

/-! ### Mapping -/

theorem toBodyRelative_sound (c : MacroCall) (off : Nat) :
    Sound w (toBodyRelative c off) fun _ _ => True := by
  unfold toBodyRelative
  refine Sound.bind (bodyTextRange_sound c) ?_
  rintro r w₁ - - -
  split
  · exact Sound.pure trivial
  · exact Sound.pure trivial

theorem fromBodyRelative_sound (c : MacroCall) (rel : Nat) :
    Sound w (fromBodyRelative c rel) fun _ _ => True := by
  unfold fromBodyRelative
  refine Sound.bind (bodyTextRange_sound c) ?_
  rintro r w₁ - - -
  split
  · exact Sound.pure trivial
  · exact Sound.pure trivial

theorem offsetToBodyRelative_sound {c : MacroCall} (hc : c.Genuine w) (off : Nat) :
    Sound w (offsetToBodyRelative c off) fun _ _ => True := by
  unfold offsetToBodyRelative
  refine Sound.bind (expansion_sound hc) ?_
  rintro r w₁ - - -
  split
  · split
    · exact Sound.bind Sound.lift fun _ _ _ _ _ => Sound.pure trivial
    · exact Sound.pure trivial
  · exact Sound.pure trivial

theorem offsetToBody_sound {c : MacroCall} (hc : c.Genuine w) (off : Nat) :
    Sound w (offsetToBody c off) fun _ _ => True := by
  unfold offsetToBody
  refine Sound.bind (offsetToBodyRelative_sound hc off) ?_
  rintro r w₁ - - -
  split
  · exact fromBodyRelative_sound c _
  · exact Sound.pure trivial

theorem offsetToExpansion_sound (c : MacroCall) (e : Expansion) (off : Nat) :
    Sound w (offsetToExpansion c e off) fun _ _ => True := by
  unfold offsetToExpansion
  refine Sound.bind (toBodyRelative_sound c off) ?_
  rintro r w₁ - - -
  split
  · refine Sound.bind Sound.lift ?_
    rintro locals w₂ - - -
    exact Sound.bind (Sound.mapM (fun _ _ => Sound.lift.mono fun _ _ _ => trivial) _ _)
      fun _ _ _ _ _ => Sound.pure trivial
  · exact Sound.pure trivial

/-- The range work list expands only calls written in the workspace: the queries' calls and the
calls their files come from. -/
theorem rangeRounds_sound (limit : Nat) :
    ∀ (n : Nat) (work : List (MacroCall × Segment × Nat)) (acc : List TextRange) (w : Workspace),
      (∀ q ∈ work, q.1.Genuine w) → Sound w (rangeRounds limit n work acc) fun _ _ => True
  | 0, _, _, _, _ => Sound.pure trivial
  | _ + 1, [], _, _, _ => Sound.pure trivial
  | n + 1, (c, q, depth) :: work, acc, w, hwork => by
    have hc : c.Genuine w := hwork _ List.mem_cons_self
    have hrest : ∀ w', w.Grows w' → ∀ q ∈ work, q.1.Genuine w' :=
      fun w' hg q hq => (hwork q (List.mem_cons_of_mem _ hq)).mono hg
    simp only [rangeRounds]
    split
    · exact Sound.pure trivial
    · refine Sound.bind (expansion_sound hc) ?_
      rintro r w₁ hg₁ - -
      split
      · split
        · refine Sound.bind Sound.lift ?_
          rintro o w₂ - - ⟨-, rfl⟩
          split
          · exact rangeRounds_sound limit n work acc w₂ (hrest w₂ hg₁)
          · exact Sound.pure trivial
          · refine Sound.bind (bodyTextRange_sound c) ?_
            rintro b w₃ hg₃ - -
            split
            · refine Sound.bind (expansionCall_sound' c.file) ?_
              rintro p w₄ hg₄ - hp
              split
              · refine Sound.bind (Sound.mapM (fun _ _ => Sound.lift.mono fun _ _ _ => trivial) _ _) ?_
                rintro rs w₅ hg₅ - -
                exact rangeRounds_sound limit n work _ w₅ (hrest w₅ (hg₁.trans (hg₃.trans (hg₄.trans hg₅))))
              · rename_i parent
                refine rangeRounds_sound limit n _ acc w₄ ?_
                intro q hq
                simp only [List.mem_append, List.mem_map] at hq
                rcases hq with ⟨f, -, rfl⟩ | hq
                · exact hp parent rfl
                · exact hrest w₄ (hg₁.trans (hg₃.trans hg₄)) q hq
            · exact rangeRounds_sound limit n work acc w₃ (hrest w₃ (hg₁.trans hg₃))
        · exact rangeRounds_sound limit n work acc w₁ (hrest w₁ hg₁)
      · exact Sound.pure trivial

theorem rangeToBody_sound {c : MacroCall} (hc : c.Genuine w) (r : TextRange) :
    Sound w (rangeToBody c r) fun _ _ => True := by
  unfold rangeToBody
  refine Sound.bind maxDepth_sound ?_
  rintro limit _ - - ⟨-, rfl⟩
  exact rangeRounds_sound limit _ _ _ _ (by simpa using hc)

theorem rangeToBodyStrict_sound {c : MacroCall} (hc : c.Genuine w) (r : TextRange) :
    Sound w (rangeToBodyStrict c r) fun _ _ => True :=
  Sound.bind (rangeToBody_sound hc r) fun _ _ _ _ _ => by
    split
    · exact Sound.pure trivial
    · exact Sound.pure trivial

/-! ### Locating -/

theorem expandedFrom_sound (n : FileElement) :
    Sound w (expandedFrom n) fun r w' => ∀ c, r = some c → c.Genuine w' := by
  unfold expandedFrom
  split
  · exact Sound.pure (by simp)
  · exact expansionCall_sound' n.file

theorem firstSome_sound {α : Type} {f : α → Session (Option MacroCall)}
    (hf : ∀ a w, Sound w (f a) fun r w' => ∀ c, r = some c → c.Genuine w') :
    ∀ (as : List α) (w : Workspace), Sound w (firstSome f as) fun r w' => ∀ c, r = some c → c.Genuine w'
  | [], w => Sound.pure (by simp)
  | a :: as, w => by
    simp only [firstSome]
    refine Sound.bind (hf a w) ?_
    rintro r w₁ - - hr
    split
    · exact Sound.pure (by simpa using hr _ rfl)
    · exact firstSome_sound hf as w₁

theorem nonRecursiveCall_sound (e : FileElement) :
    Sound w (nonRecursiveCall e) fun r w' => ∀ c, r = some c → c.Genuine w' := by
  unfold nonRecursiveCall
  split
  · exact Sound.pure (by simp)
  · exact firstSome_sound (fun n w => expandedFrom_sound n) _ w

theorem callExpandedFrom_sound (c : MacroCall) :
    Sound w (callExpandedFrom c) fun r w' => ∀ c', r = some c' → c'.Genuine w' :=
  nonRecursiveCall_sound _

theorem expandedFromChain_go_sound (limit : Nat) (next : Option MacroCall) (yielded : Nat)
    (acc : List MacroCall) : ∀ w, Sound w (expandedFromChain.go limit next yielded acc) fun _ _ => True := by
  induction next, yielded, acc using expandedFromChain.go.induct limit with
  | case1 next yielded acc h =>
    intro w
    rw [expandedFromChain.go.eq_def, if_pos h]
    exact Sound.pure trivial
  | case2 yielded acc h =>
    intro w
    rw [expandedFromChain.go.eq_def, if_neg h]
    exact Sound.pure trivial
  | case3 yielded acc h c ih =>
    intro w
    rw [expandedFromChain.go.eq_def, if_neg h]
    exact Sound.bind (callExpandedFrom_sound c) fun next' w' _ _ _ => ih next' w'

theorem expandedFromChain_sound (e : FileElement) :
    Sound w (expandedFromChain e) fun _ _ => True := by
  unfold expandedFromChain
  refine Sound.bind maxDepth_sound ?_
  rintro limit w₁ - - -
  exact Sound.bind (nonRecursiveCall_sound e) fun first w₂ _ _ _ =>
    expandedFromChain_go_sound limit first 0 [] w₂

theorem outermostCall_sound (e : FileElement) : Sound w (outermostCall e) fun _ _ => True :=
  Sound.bind (expandedFromChain_sound e) fun _ _ _ _ _ => Sound.pure trivial

theorem expansionDepth_sound (e : FileElement) : Sound w (expansionDepth e) fun _ _ => True :=
  Sound.bind (expandedFromChain_sound e) fun _ _ _ _ _ => Sound.pure trivial

theorem isExpanded_sound (e : FileElement) : Sound w (isExpanded e) fun _ _ => True :=
  Sound.bind (nonRecursiveCall_sound e) fun _ _ _ _ _ => Sound.pure trivial

theorem expandedOrIncludedFrom_sound (n : FileElement) :
    Sound w (expandedOrIncludedFrom n) fun _ _ => True := by
  unfold expandedOrIncludedFrom
  refine Sound.bind (expandedFrom_sound n) ?_
  rintro r w₁ - - -
  split
  · exact Sound.pure trivial
  · split
    · exact (includedFrom_sound n.file).mono fun _ _ _ => trivial
    · exact Sound.pure trivial

theorem callAndOffset_go_sound (limit : Nat) :
    ∀ (n : Nat) (f : FileId) (off depth : Nat) (reached : Option (MacroCall × Nat)) (w : Workspace),
      Sound w (callAndOffset.go limit n f off depth reached) fun _ _ => True
  | 0, _, _, _, _, _ => Sound.pure trivial
  | n + 1, f, off, depth, reached, w => by
    simp only [callAndOffset.go]
    refine Sound.bind (expansionCall_sound' f) ?_
    rintro r w₁ - - hr
    split
    · rename_i c
      split
      · exact Sound.pure trivial
      · refine Sound.bind (offsetToBody_sound (hr c rfl) off) ?_
        rintro m w₂ - - -
        split
        · exact callAndOffset_go_sound limit n _ _ _ _ w₂
        · exact Sound.pure trivial
    · exact Sound.pure trivial

theorem callAndOffset_sound (f : FileId) (off : Nat) :
    Sound w (callAndOffset f off) fun _ _ => True :=
  Sound.bind maxDepth_sound fun limit w₁ _ _ _ => callAndOffset_go_sound limit _ _ _ _ _ w₁

theorem elementExpandedFrom_sound (e : FileElement) (strict : Bool) :
    Sound w (elementExpandedFrom e strict) fun _ _ => True := by
  unfold elementExpandedFrom
  refine Sound.bind (elementStart_sound e) ?_
  rintro r w₁ - - -
  split
  · refine Sound.bind (callAndOffset_sound _ _) ?_
    rintro r w₂ - - -
    split
    · refine Sound.bind (tokenStartingAt_sound _ _) ?_
      rintro r w₃ - - -
      split
      · refine Sound.bind (isExpanded_sound _) ?_
        rintro b w₄ - - -
        split
        · exact Sound.pure trivial
        · exact Sound.pure trivial
      · exact Sound.pure trivial
    · exact Sound.pure trivial
  · exact Sound.pure trivial

theorem leafCall_sound (e : FileElement) : Sound w (leafCall e) fun _ _ => True := by
  unfold leafCall
  refine Sound.bind (elementStart_sound e) ?_
  rintro r w₁ - - -
  split
  · exact Sound.bind (callAndOffset_sound _ _) fun _ _ _ _ _ => Sound.pure trivial
  · exact Sound.pure trivial

theorem directCopies_sound {t : FileElement} (ht : t.Genuine w) :
    Sound w (directCopies t) fun r w' => ∀ ts, r = some ts → ∀ t' ∈ ts, t'.Genuine w' := by
  unfold directCopies
  split
  · rename_i c hc
    refine Sound.bind (expansion_sound (callHolding_genuine ht hc)) ?_
    rintro r w₁ - - -
    split
    · rename_i e
      refine Sound.bind (elementStart_sound t) ?_
      rintro r w₂ - - -
      split
      · refine Sound.bind (offsetToExpansion_sound c e _) ?_
        rintro r w₃ - - -
        split
        · refine Sound.bind (Sound.filterMapM (fun _ _ _ _ hg h => h.mono hg) _ w₃
            fun o _ w _ => tokenStartingAt_sound e.file o) ?_
          rintro ts w₄ - - hts
          exact Sound.pure (by simpa using hts)
        · exact Sound.pure (by simp)
      · exact Sound.pure (by simp)
    · exact Sound.pure (by simp)
  · exact Sound.pure (by simp)

theorem copyRounds_sound (limit : Nat) (stack : List (FileElement × Nat)) (acc : List FileElement) :
    ∀ w : Workspace, (∀ p ∈ stack, p.1.Genuine w) →
      Sound w (copyRounds limit stack acc) fun _ _ => True := by
  induction stack, acc using copyRounds.induct limit with
  | case1 acc =>
    intro w _
    rw [copyRounds]
    exact Sound.pure trivial
  | case2 t depth stack acc ihpush ihpop =>
    intro w hstack
    have hrest : ∀ w', w.Grows w' → ∀ p ∈ stack, p.1.Genuine w' :=
      fun w' hg p hp => (hstack p (List.mem_cons_of_mem _ hp)).mono hg
    rw [copyRounds]
    refine Sound.bind (directCopies_sound (hstack _ List.mem_cons_self)) ?_
    rintro r w₁ hg - hr
    split
    · rename_i copies
      split
      · exact Sound.pure trivial
      · rename_i hd
        refine ihpush copies hd w₁ ?_
        intro p hp
        simp only [List.mem_append, List.mem_map] at hp
        rcases hp with ⟨t', ht', rfl⟩ | hp
        · exact hr copies rfl t' ht'
        · exact hrest w₁ hg p hp
    · exact ihpop w₁ (hrest w₁ hg)

theorem expansionElements_sound {t : FileElement} (ht : t.Genuine w) :
    Sound w (expansionElements t) fun _ _ => True := by
  unfold expansionElements
  refine Sound.bind maxDepth_sound ?_
  rintro limit _ - - ⟨-, rfl⟩
  refine Sound.bind (directCopies_sound ht) ?_
  rintro r w₁ - - hr
  split
  · rename_i first
    refine copyRounds_sound limit _ [] w₁ ?_
    intro p hp
    simp only [List.mem_map] at hp
    obtain ⟨t', ht', rfl⟩ := hp
    exact hr first rfl t' ht'
  · exact Sound.pure trivial

/-! ### Contexts -/

theorem resolvePtr_sound (p : NodePtr) : Sound w (resolvePtr p) fun _ _ => True := by
  unfold resolvePtr
  refine Sound.bind (tree?_sound p.file) ?_
  rintro r w₁ - - -
  split
  · exact Sound.pure trivial
  · exact Sound.pure trivial

theorem explicitContext_sound (f : FileId) : Sound w (explicitContext f) fun _ _ => True := by
  unfold explicitContext
  refine Sound.bind overlay_sound ?_
  rintro o w₁ - - -
  split
  · exact resolvePtr_sound _
  · exact Sound.pure trivial

theorem rememberedContext_sound (f : FileId) : Sound w (rememberedContext f) fun _ _ => True := by
  unfold rememberedContext
  refine Sound.bind overlay_sound ?_
  rintro o w₁ - - -
  split
  · exact resolvePtr_sound _
  · exact Sound.pure trivial

theorem climbFrom_sound (f : FileId) (a : FileElement) : Sound w
    (if (a.kind == SyntaxKind.itemList) = true then pure (f, Climb.found a)
    else if (!a.isFileLevel) = true then
      match a.parent? with
      | some p => pure (f, Climb.found p)
      | none => pure (f, Climb.stuck)
    else do
      match ← explicitContext a.file with
      | some p => pure (f, Climb.found p)
      | _ =>
        match ← rememberedContext a.file with
        | some p => pure (f, Climb.found p)
        | _ =>
          if (← expansionCall a.file).isSome then pure (f, Climb.next a.file)
          else if (← includedFrom a.file).isSome then pure (f, Climb.next a.file)
          else pure (f, Climb.found a.fileRoot)) fun _ _ => True := by
  split
  · exact Sound.pure trivial
  · split
    · split
      · exact Sound.pure trivial
      · exact Sound.pure trivial
    · refine Sound.seq (explicitContext_sound _) fun _ _ _ => ?_
      split
      · exact Sound.pure trivial
      · refine Sound.seq (rememberedContext_sound _) fun _ _ _ => ?_
        split
        · exact Sound.pure trivial
        · refine Sound.seq ((expansionCall_sound _).mono fun _ _ _ => trivial) fun _ _ _ => ?_
          split
          · exact Sound.pure trivial
          · refine Sound.seq ((includedFrom_sound _).mono fun _ _ _ => trivial) fun _ _ _ => ?_
            split
            · exact Sound.pure trivial
            · exact Sound.pure trivial

theorem climbStep_sound (f : FileId) : Sound w (climbStep f) fun _ _ => True := by
  unfold climbStep
  simp only [pure_bind, Bool.false_eq_true, ↓reduceIte]
  refine Sound.bind (expansionCall_sound f) ?_
  rintro v w₁ - - -
  split
  · split
    · exact climbFrom_sound f _
    · exact Sound.pure trivial
  · refine Sound.seq ((includedFrom_sound f).mono fun _ _ _ => trivial) fun d w₂ _ => ?_
    split
    · split
      · exact climbFrom_sound f _
      · exact Sound.pure trivial
    · exact Sound.pure trivial

theorem climb_sound (limit : Nat) :
    ∀ (n : Nat) (f : FileId) (visited : List FileId) (w : Workspace),
      Sound w (climb limit n f visited) fun _ _ => True
  | 0, _, _, _ => Sound.pure trivial
  | n + 1, f, visited, w => by
    simp only [climb]
    split
    · exact Sound.pure trivial
    · refine Sound.seq (climbStep_sound f) fun x w₁ _ => ?_
      split
      · exact Sound.pure trivial
      · refine Sound.seq (Sound.forIn (fun _ _ _ => Sound.seq (modifyOverlay_sound _)
          fun _ _ _ => Sound.pure trivial) _ _ _) fun _ _ _ => Sound.pure trivial
      · exact climb_sound limit n _ _ _

theorem callSiteContext_sound (f : FileId) : Sound w (callSiteContext f) fun _ _ => True := by
  unfold callSiteContext
  refine Sound.seq (rememberedContext_sound f) fun r w₁ _ => ?_
  split
  · exact Sound.pure trivial
  · exact Sound.seq (maxDepth_sound.mono fun _ _ _ => trivial) fun limit w₂ _ =>
      climb_sound limit _ f [] w₂

theorem getContext_sound (n : FileElement) (access : IndexAccess) :
    Sound w (getContext n access) fun _ _ => True := by
  unfold getContext
  dsimp only
  split
  · exact Sound.pure trivial
  · refine Sound.seq (explicitContext_sound _) fun r w₁ _ => ?_
    split
    · exact Sound.pure trivial
    · split
      · refine Sound.seq (callSiteContext_sound _) fun r w₂ _ => ?_
        split
        · exact Sound.pure trivial
        · exact Sound.pure trivial
      · exact Sound.pure trivial

theorem crateOfFile_go_sound : ∀ (n : Nat) (f : FileId) (w : Workspace),
    Sound w (crateOfFile.go n f) fun _ _ => True
  | 0, _, _ => Sound.pure trivial
  | n + 1, f, w => by
    simp only [crateOfFile.go]
    refine Sound.seq ((fileCrate_sound f).mono fun _ _ _ => trivial) fun r w₁ _ => ?_
    split
    · exact Sound.pure trivial
    · refine Sound.seq (overlay_sound.mono fun _ _ _ => trivial) fun o w₂ _ => ?_
      split
      · exact crateOfFile_go_sound n _ _
      · refine Sound.seq ((expansionCall_sound f).mono fun _ _ _ => trivial) fun r w₃ _ => ?_
        split
        · exact crateOfFile_go_sound n _ _
        · refine Sound.seq ((includedFrom_sound f).mono fun _ _ _ => trivial) fun r w₄ _ => ?_
          split
          · exact crateOfFile_go_sound n _ _
          · exact Sound.pure trivial

theorem crateOfFile_sound (f : FileId) : Sound w (crateOfFile f) fun _ _ => True :=
  Sound.seq (maxDepth_sound.mono fun _ _ _ => trivial) fun _ w₁ _ => crateOfFile_go_sound _ f w₁

theorem ancestorsWithContexts_go_sound (access : IndexAccess) (limit : Nat) :
    ∀ (k : Nat) (node : Option FileElement) (changes : Nat) (acc : List FileElement) (w : Workspace),
      Sound w (ancestorsWithContexts.go access limit k node changes acc) fun _ _ => True
  | 0, _, _, _, _ => Sound.pure trivial
  | _ + 1, none, _, _, _ => Sound.pure trivial
  | k + 1, some node, changes, acc, w => by
    simp only [ancestorsWithContexts.go]
    exact Sound.seq (getContext_sound node access) fun _ w₁ _ =>
      ancestorsWithContexts_go_sound access limit k _ _ _ w₁

theorem ancestorsWithContexts_sound (n : FileElement) (access : IndexAccess) (count : Nat) :
    Sound w (ancestorsWithContexts n access count) fun _ _ => True :=
  Sound.seq (maxDepth_sound.mono fun _ _ _ => trivial) fun limit w₁ _ =>
    ancestorsWithContexts_go_sound access limit count _ 0 [] w₁

/-! ### Navigation -/

theorem navigationTarget_sound (e : FileElement) :
    Sound w (navigationTarget e) fun _ _ => True := by
  unfold navigationTarget
  dsimp only
  refine Sound.seq (elementExpandedFrom_sound _ true) fun r w₁ _ => ?_
  split
  · exact Sound.pure trivial
  · refine Sound.seq (outermostCall_sound e) fun r w₂ _ => ?_
    split
    · exact Sound.pure trivial
    · exact Sound.pure trivial

theorem expansionElementOrSelf_sound {t : FileElement} (ht : t.Genuine w) :
    Sound w (expansionElementOrSelf t) fun _ _ => True := by
  unfold expansionElementOrSelf
  refine Sound.seq (expansionElements_sound ht) fun r w₁ _ => ?_
  split
  · exact Sound.pure trivial
  · exact Sound.pure trivial

theorem cameFromMacroCall_sound (e : FileElement) :
    Sound w (cameFromMacroCall e) fun _ _ => True := by
  unfold cameFromMacroCall
  refine Sound.bind (nonRecursiveCall_sound e) ?_
  rintro r w₁ - - hr
  split
  · rename_i c
    split
    · exact Sound.pure trivial
    · refine Sound.bind (elementStart_sound e) ?_
      rintro s w₂ hg - -
      split
      · exact Sound.seq (offsetToBodyRelative_sound ((hr c rfl).mono hg) _) fun _ _ _ =>
          Sound.pure trivial
      · exact Sound.pure trivial
  · exact Sound.pure trivial

theorem placeRounds_sound (target : FileId) :
    ∀ (n : Nat) (f : FileId) (off : Nat) (r : TextRange) (w : Workspace),
      Sound w (placeRounds target n f off r) fun _ _ => True
  | 0, _, _, _, _ => Sound.pure trivial
  | n + 1, f, off, r, w => by
    simp only [placeRounds]
    refine Sound.bind (expansionCall_sound' f) ?_
    rintro c? w₁ - - hc
    split
    on_goal 2 => exact Sound.pure trivial
    rename_i c
    refine Sound.seq ((expansion_sound (hc c rfl)).mono fun _ _ _ => trivial) fun e? w₂ _ => ?_
    split
    on_goal 2 => exact Sound.pure trivial
    rename_i e
    refine Sound.seq (bodyTextRange_sound c) fun b? w₃ _ => ?_
    split
    on_goal 2 => exact Sound.pure trivial
    split
    on_goal 2 => exact Sound.pure trivial
    refine Sound.bind_lift fun o _ => ?_
    split
    on_goal 2 => exact Sound.pure trivial
    refine Sound.bind_lift fun mapped _ => ?_
    split
    on_goal 2 => exact Sound.pure trivial
    split
    on_goal 2 => exact Sound.pure trivial
    refine Sound.bind_lift fun u? _ => ?_
    split
    on_goal 2 => exact Sound.pure trivial
    refine Sound.bind_lift fun shifted _ => Sound.bind_lift fun relative _ =>
      Sound.bind_lift fun meeting _ => ?_
    split
    · exact Sound.pure trivial
    · split
      · exact Sound.pure trivial
      · exact Sound.bind_lift fun next _ => placeRounds_sound target n _ _ _ _

theorem offsetInFile_sound (anchor : FileElement) (off : Nat) (r : TextRange) (target : FileId) :
    Sound w (offsetInFile anchor off r target) fun _ _ => True :=
  Sound.seq (maxDepth_sound.mono fun _ _ _ => trivial) fun _ w₁ _ =>
    placeRounds_sound target _ _ _ _ w₁

theorem inlayHintOffset_sound (anchor : FileElement) (target : FileId) :
    Sound w (inlayHintOffset anchor target) fun _ _ => True := by
  unfold inlayHintOffset
  refine Sound.seq (elementRange_sound anchor) fun r? w₁ _ => ?_
  split
  on_goal 2 => exact Sound.pure trivial
  split
  · exact Sound.pure trivial
  · split
    on_goal 2 => exact Sound.pure trivial
    split
    on_goal 2 => exact Sound.pure trivial
    refine Sound.seq (elementRange_sound _) fun sr? w₂ _ => ?_
    split
    · exact offsetInFile_sound _ _ _ _
    · exact Sound.pure trivial

theorem callStart_sound (c : MacroCall) : Sound w (callStart c) fun _ _ => True := by
  unfold callStart
  refine Sound.seq (fileStartOffset_sound _) fun b? w₁ _ => ?_
  split
  · exact Sound.bind_lift fun _ _ => Sound.pure trivial
  · exact Sound.pure trivial

theorem localLoc_sound (f : FileId) (off : Nat) : Sound w (localLoc f off) fun _ _ => True := by
  unfold localLoc
  refine Sound.seq (fileStartOffset_sound _) fun b? w₁ _ => ?_
  split
  · exact Sound.pure trivial
  · exact Sound.pure trivial

theorem frameRounds_sound : ∀ (n : Nat) (f : FileId) (off : Option Nat) (acc : List Frame)
    (w : Workspace), Sound w (frameRounds n f off acc) fun _ _ => True
  | 0, _, _, _, _ => Sound.pure trivial
  | n + 1, f, off, acc, w => by
    simp only [frameRounds, pure_bind]
    refine Sound.bind (expansionCall_sound' f) ?_
    rintro c? w₁ - - hc
    split
    · rename_i c
      split
      · refine Sound.bind (offsetToBody_sound (hc c rfl) _) fun m w₂ _ _ _ => ?_
        split
        · exact Sound.seq (localLoc_sound _ _) fun _ w₃ _ => frameRounds_sound n _ _ _ w₃
        · exact Sound.seq (callStart_sound c) fun _ w₃ _ => frameRounds_sound n _ _ _ w₃
      · exact Sound.seq (callStart_sound c) fun _ w₂ _ => frameRounds_sound n _ _ _ w₂
    · refine Sound.seq ((includedFrom_sound f).mono fun _ _ _ => trivial) fun i? w₂ _ => ?_
      split
      · rename_i c
        split
        · exact Sound.seq (localLoc_sound _ _) fun _ w₃ _ =>
            Sound.seq (callStart_sound c) fun _ w₄ _ => frameRounds_sound n _ _ _ w₄
        · exact Sound.seq (callStart_sound c) fun _ w₃ _ => frameRounds_sound n _ _ _ w₃
      · exact Sound.pure trivial

theorem frames_sound (e : FileElement) : Sound w (frames e) fun _ _ => True :=
  Sound.seq (maxDepth_sound.mono fun _ _ _ => trivial) fun _ _ _ =>
    Sound.seq (elementStart_sound e) fun _ w₂ _ => frameRounds_sound _ _ _ _ w₂

end Session

end MacroTrace
