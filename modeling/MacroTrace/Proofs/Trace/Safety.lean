import MacroTrace.Proofs.Trace.Reach
import MacroTrace.Proofs.Trace.Overflow
import MacroTrace.Proofs.Trace.Placement
import MacroTrace.Proofs.Trace.Navigation

/-! Lookups that answer without a fault. Offsets are 32-bit, and a lookup faults where a sum it
does not check passes the last offset. The context and chain lookups only read the workspace or
change its overlay, and never fault. Once every file that no call expands to has a text within
offsets and a map override, if there is one, can be searched, the offset lookups, the lookups
from an expansion to its call's body, the locator and the frames answer from every coherent
workspace without a fault: what they add up is bounded by a file's text placed at its base. The
lookups that add a base or a body start to an offset read off a map (the copies of a body
offset, the range trace and inlay-hint placement) answer without a fault when the maps are the
macros' own, whose copies lie in the expansion text and whose sources lie in the call's body. -/
namespace MacroTrace

namespace Workspace

variable {w w' : Workspace}

/-- Offsets stay within range: every file's text fits, and the map that replaces the expansions'
own, when there is one, can be searched. -/
structure Fits (w : Workspace) : Prop where
  texts : ∀ f text, w.text? f = some text → text.utf8ByteSize ≤ maxOffset
  override : ∀ m, w.mapOverride = some m → m.Searchable

theorem Fits.of_files (h : w.Fits) (hf : w'.files = w.files)
    (ho : w'.mapOverride = w.mapOverride) : w'.Fits :=
  ⟨fun f text ht => h.texts f text (by simpa [text?, file?, hf] using ht),
    fun m hm => h.override m (ho ▸ hm)⟩

/-- Growing keeps offsets in range when each file it adds fits. -/
theorem Fits.grow (h : w.Fits) (hg : w.Grows w')
    (hnew : ∀ f text, w.file? f = none → w'.text? f = some text → text.utf8ByteSize ≤ maxOffset) :
    w'.Fits := by
  refine ⟨fun f text ht => ?_, fun m hm => h.override m (hg.mapOverride ▸ hm)⟩
  cases hf : w.file? f with
  | none => exact hnew f text hf ht
  | some x =>
    have hx : w.text? f = some x.text := by simp [text?, hf]
    rw [hg.text? hx, Option.some.injEq] at ht
    exact ht ▸ h.texts f x.text hx

/-- A file's text, placed at its base, ends within offsets. -/
theorem Fits.placed (h : w.Fits) (hw : w.Coherent) {f : FileId} {base : Nat}
    (hb : w.FileBase f base) : w.Placed f base := by
  refine ⟨hb, fun text ht => ?_⟩
  rcases hb with ⟨hc, rfl⟩ | ⟨p, ep, hp, hs, rfl⟩
  · simpa using h.texts f text ht
  · have := (hw.cached p.key ep hs p (expansionCall_genuine hp) rfl).base_fits
      ((hw.text?_of_expansionCall hp hs).trans ht)
    omega

/-- The map of a stored expansion can be searched: its segments follow one another within the
expansion text and copy from the call's body, which lies within its file's text. -/
theorem Fits.searchable (h : w.Fits) (hw : w.Coherent) {c : MacroCall} {e : Expansion}
    (hc : c.Genuine w) (hf : w.Faithful c e) : e.map.Searchable := by
  cases hlb : c.localBodyRange? with
  | none => exact (hf.ordered_of_no_body hw hc hlb).searchable
  | some lb =>
    obtain ⟨text, htext, hs, -⟩ := hc.spells hw
    obtain ⟨piece, hspan⟩ := MacroCall.localBodyRange_spans hs hc.1.2 hlb
    have hstop := hspan.stop_le
    rw [← utf8ByteSize_eq_bytesOf] at hstop
    have := h.texts _ text htext
    exact (hf.ordered hw hc hlb (by omega)).searchable

/-- The map an expansion lookup answers with can be searched, the override's or the stored one. -/
theorem Fits.expansion_searchable (h : w.Fits) (hw : w.Coherent) {c : MacroCall} {s : Expansion}
    (hc : c.Genuine w) (hs : w.expansions c.key = some (some s)) :
    ({ s with map := w.mapOverride.getD s.map } : Expansion).map.Searchable := by
  cases hm : w.mapOverride with
  | none => exact h.searchable hw hc (hw.cached c.key s hs c hc rfl)
  | some m => exact h.override m hm

theorem Fits.addSource (h : w.Fits) {text : String} (ht : text.utf8ByteSize ≤ maxOffset)
    (path : String) (crate : Nat) : (w.addSource path text crate).2.Fits := by
  refine ⟨fun f text' h' => ?_, h.override⟩
  unfold text? file? Workspace.addSource addFile at h'
  simp only [Array.getElem?_push, Option.map_eq_some_iff] at h'
  obtain ⟨x, hx, rfl⟩ := h'
  split at hx
  · cases hx
    exact ht
  · exact h.texts f x.text (by simp [text?, file?, hx])

theorem foldl_addSource_fits (ss : List SourceSpec)
    (hss : ∀ s ∈ ss, s.text.utf8ByteSize ≤ maxOffset) : ∀ p : List FileId × Workspace, p.2.Fits →
    (ss.foldl (fun x s => (x.1 ++ [(x.2.addSource s.path s.text s.crate).1],
      (x.2.addSource s.path s.text s.crate).2)) p).2.Fits := by
  induction ss with
  | nil => intro p hp; exact hp
  | cons s ss ih =>
    intro p hp
    exact ih (fun s' hs' => hss s' (List.mem_cons_of_mem s hs')) _
      (hp.addSource (hss s List.mem_cons_self) _ _)

/-- A created workspace keeps offsets in range when its source texts fit and each segment of its
map override does. -/
theorem create_fits {macros : List (String × MacroSpec)} {sources : List SourceSpec}
    {maxDepth : Nat} {override : Option (List Segment)} {w : Workspace} {ids : List FileId}
    (h : create macros sources maxDepth override = .ok (w, ids))
    (hsrc : ∀ s ∈ sources, s.text.utf8ByteSize ≤ maxOffset)
    (hunits : ∀ segs, override = some segs →
      ∀ u ∈ segs, u.src + u.len ≤ maxOffset ∧ u.dst + u.len ≤ maxOffset) : w.Fits := by
  have hstart : ∀ replacement : Option OffsetMap,
      (∀ m, replacement = some m → m.Searchable) →
      (macros.foldl (fun w x => w.define x.1 x.2.toDef)
        ({ maxDepth, mapOverride := replacement } : Workspace)).Fits := fun replacement hr => by
    obtain ⟨hf, -, ho⟩ := foldl_define macros { maxDepth, mapOverride := replacement }
    refine Fits.of_files ⟨fun f text ht => ?_, fun m hm => hr m hm⟩ hf ho
    simp [text?, file?] at ht
  unfold create at h
  cases override with
  | none =>
    simp only [bind, Except.bind, pure, Except.pure, Except.ok.injEq, Prod.mk.injEq] at h
    rw [← h.1]
    exact foldl_addSource_fits sources hsrc _ (hstart none fun _ hm => by cases hm)
  | some segs =>
    cases hm : OffsetMap.ofList segs with
    | error e =>
      simp only [hm, Functor.map, Except.map, bind, Except.bind, reduceCtorEq] at h
    | ok m =>
      simp only [hm, Functor.map, Except.map, bind, Except.bind, pure, Except.pure,
        Except.ok.injEq, Prod.mk.injEq] at h
      rw [← h.1]
      refine foldl_addSource_fits sources hsrc _ (hstart (some m) fun m' hm' => ?_)
      obtain ⟨m'', hof, -, hs⟩ := OffsetMap.ofList_searchable (hunits segs rfl)
      rw [hm, Except.ok.injEq] at hof
      cases hm'
      rw [hof]
      exact hs

end Workspace

namespace Session

variable {α β : Type} {w : Workspace}

/-- A lookup run from `w` answers without a fault. -/
def FaultFree (w : Workspace) (x : Session α) : Prop :=
  ∃ a w', x.run.run w = (.ok a, w')

/-- Run from a coherent workspace whose offsets fit, a lookup answers without a fault and ends in a
coherent workspace that grows the first and whose offsets still fit; its answer satisfies `Q`
there. -/
def Safe (w : Workspace) (x : Session α) (Q : α → Workspace → Prop) : Prop :=
  w.Coherent → w.Fits → ∃ a w', x.run.run w = (.ok a, w') ∧ w'.Coherent ∧ w.Grows w' ∧
    w'.Fits ∧ Q a w'

/-- A lookup that answers without a fault from every workspace and leaves its files and its map
override as they are: it only reads, or changes the overlay. -/
def Steady (x : Session α) : Prop :=
  ∀ w, ∃ a w', x.run.run w = (.ok a, w') ∧ w'.files = w.files ∧ w'.mapOverride = w.mapOverride

namespace Safe

variable {x : Session α} {Q Q' : α → Workspace → Prop}

theorem faultFree (h : Safe w x Q) (hw : w.Coherent) (hf : w.Fits) : FaultFree w x := by
  obtain ⟨a, w', hrun, -⟩ := h hw hf
  exact ⟨a, w', hrun⟩

theorem pure {a : α} (h : Q a w) : Safe w (Pure.pure a : Session α) Q :=
  fun hw hf => ⟨a, w, rfl, hw, Workspace.Grows.refl w, hf, h⟩

theorem bind {f : α → Session β} {R : α → Workspace → Prop} {Q : β → Workspace → Prop}
    (hx : Safe w x R)
    (hf : ∀ a w', w.Grows w' → w'.Coherent → w'.Fits → R a w' → Safe w' (f a) Q) :
    Safe w (x >>= f) Q := by
  intro hw hfits
  obtain ⟨a, w₁, hrun, hw₁, hg₁, hf₁, hr⟩ := hx hw hfits
  obtain ⟨b, w₂, hrun₂, hw₂, hg₂, hf₂, hq⟩ := hf a w₁ hg₁ hw₁ hf₁ hr hw₁ hf₁
  exact ⟨b, w₂, (run_bind_of_ok hrun).trans hrun₂, hw₂, hg₁.trans hg₂, hf₂, hq⟩

theorem mono (h : Safe w x Q) (hq : ∀ a w', Q a w' → Q' a w') : Safe w x Q' := by
  intro hw hf
  obtain ⟨a, w', hrun, hw', hg, hf', hr⟩ := h hw hf
  exact ⟨a, w', hrun, hw', hg, hf', hq a w' hr⟩

/-- A sound lookup is safe once it answers without a fault and keeps offsets in range. -/
theorem of_sound (hs : Sound w x Q)
    (h : w.Coherent → w.Fits → ∃ a w', x.run.run w = (.ok a, w') ∧ w'.Fits) : Safe w x Q := by
  intro hw hf
  obtain ⟨a, w', hrun, hf'⟩ := h hw hf
  obtain ⟨hw', hg, hq⟩ := hs hw
  rw [hrun] at hw' hg hq
  exact ⟨a, w', hrun, hw', hg, hf', hq a rfl⟩

theorem of_steady (h : Steady x) (hs : Sound w x Q) : Safe w x Q :=
  of_sound hs fun _ hf => by
    obtain ⟨a, w', hrun, hfiles, ho⟩ := h w
    exact ⟨a, w', hrun, hf.of_files hfiles ho⟩

theorem lift {y : Except Fault α} {a : α} (hy : y = .ok a) :
    Safe w (Session.lift y) fun b w' => b = a ∧ w' = w := by
  subst hy
  exact pure ⟨rfl, rfl⟩

theorem mono_grows (h : Safe w x Q) (hq : ∀ a w', w.Grows w' → Q a w' → Q' a w') :
    Safe w x Q' := by
  intro hw hf
  obtain ⟨a, w', hrun, hw', hg, hf', hr⟩ := h hw hf
  exact ⟨a, w', hrun, hw', hg, hf', hq a w' hg hr⟩

/-- What a sound lookup guarantees of its answer holds of a safe one. -/
theorem and_sound {Q' : α → Workspace → Prop} (hs : Sound w x Q) (h : Safe w x Q') :
    Safe w x Q := by
  intro hw hf
  obtain ⟨a, w', hrun, hw', hg, hf', -⟩ := h hw hf
  have hq := (hs hw).2.2 a (by rw [hrun])
  rw [hrun] at hq
  exact ⟨a, w', hrun, hw', hg, hf', hq⟩

/-- A lookup that answers and keeps the workspace is safe. -/
theorem of_run {a : α} (h : x.run.run w = (.ok a, w)) : Safe w x fun b w' => b = a ∧ w' = w :=
  fun hw hf => ⟨a, w, h, hw, Workspace.Grows.refl w, hf, rfl, rfl⟩

theorem filterMapM {f : α → Session (Option β)} (hf : ∀ a w, Safe w (f a) fun _ _ => True) :
    ∀ (l : List α) (w : Workspace), Safe w (l.filterMapM f) fun _ _ => True
  | [], _ => pure trivial
  | a :: l, w => by
    rw [List.filterMapM_cons]
    refine bind (hf a w) fun r w₁ _ _ _ _ => ?_
    split
    · exact filterMapM hf l w₁
    · exact bind (filterMapM hf l w₁) fun _ _ _ _ _ _ => pure trivial

/-- A safe lookup followed by lookups that only read is safe. -/
theorem bind_steady {f : α → Session β} {R : α → Workspace → Prop} {Q : β → Workspace → Prop}
    (hx : Safe w x R) (hf : ∀ a, Steady (f a)) (hs : Sound w (x >>= f) Q) : Safe w (x >>= f) Q :=
  of_sound hs fun hw hfits => by
    obtain ⟨a, w₁, hrun, -, -, hf₁, -⟩ := hx hw hfits
    obtain ⟨b, w₂, hrun₂, hfiles, ho⟩ := hf a w₁
    exact ⟨b, w₂, (run_bind_of_ok hrun).trans hrun₂, hf₁.of_files hfiles ho⟩

end Safe

namespace Steady

variable {x : Session α}

theorem faultFree (h : Steady x) (w : Workspace) : FaultFree w x := by
  obtain ⟨a, w', hrun, -⟩ := h w
  exact ⟨a, w', hrun⟩

theorem pure (a : α) : Steady (Pure.pure a : Session α) := fun w => ⟨a, w, rfl, rfl, rfl⟩

theorem bind {f : α → Session β} (hx : Steady x) (hf : ∀ a, Steady (f a)) : Steady (x >>= f) := by
  intro w
  obtain ⟨a, w₁, hrun, hfiles, ho⟩ := hx w
  obtain ⟨b, w₂, hrun₂, hfiles₂, ho₂⟩ := hf a w₁
  exact ⟨b, w₂, (run_bind_of_ok hrun).trans hrun₂, hfiles₂.trans hfiles, ho₂.trans ho⟩

theorem read (g : Workspace → α) : Steady (do return g (← MonadState.get) : Session α) :=
  fun w => ⟨g w, w, rfl, rfl, rfl⟩

theorem modifyOverlay (g : Overlay → Overlay) : Steady (Session.modifyOverlay g) :=
  fun _ => ⟨(), _, rfl, rfl, rfl⟩

theorem forIn {γ : Type} {f : α → γ → Session (ForInStep γ)} (hf : ∀ a b, Steady (f a b)) :
    ∀ (l : List α) (b : γ), Steady (ForIn.forIn l b f)
  | [], b => pure b
  | a :: l, b => by
    rw [List.forIn_cons]
    refine bind (hf a b) fun r => ?_
    split
    · exact pure _
    · exact forIn hf l _

end Steady


/-! ### Lookups that only read -/

theorem maxDepth_steady : Steady maxDepth := Steady.read _

theorem expansionCall_steady (f : FileId) : Steady (expansionCall f) := Steady.read _

theorem includedFrom_steady (f : FileId) : Steady (includedFrom f) := Steady.read _

theorem tree?_steady (f : FileId) : Steady (tree? f) := Steady.read _

theorem fileCrate_steady (f : FileId) : Steady (fileCrate f) := Steady.read _

theorem overlay_steady : Steady overlay := Steady.read _

theorem expandedFrom_steady (n : FileElement) : Steady (expandedFrom n) := by
  unfold expandedFrom
  split
  · exact Steady.pure _
  · exact expansionCall_steady _

theorem firstSome_steady {f : α → Session (Option β)} (hf : ∀ a, Steady (f a)) :
    ∀ as : List α, Steady (firstSome f as)
  | [] => Steady.pure _
  | a :: as => by
    simp only [firstSome]
    refine Steady.bind (hf a) fun r => ?_
    split
    · exact Steady.pure _
    · exact firstSome_steady hf as

theorem nonRecursiveCall_steady (e : FileElement) : Steady (nonRecursiveCall e) := by
  unfold nonRecursiveCall
  split
  · exact Steady.pure _
  · exact firstSome_steady expandedFrom_steady _

theorem expandedFromChain_go_steady (limit : Nat) (next : Option MacroCall) (yielded : Nat)
    (acc : List MacroCall) : Steady (expandedFromChain.go limit next yielded acc) := by
  induction next, yielded, acc using expandedFromChain.go.induct limit with
  | case1 next yielded acc h =>
    rw [expandedFromChain.go.eq_def, if_pos h]
    exact Steady.pure _
  | case2 yielded acc h =>
    rw [expandedFromChain.go.eq_def, if_neg h]
    exact Steady.pure _
  | case3 yielded acc h c ih =>
    rw [expandedFromChain.go.eq_def, if_neg h]
    exact Steady.bind (nonRecursiveCall_steady _) ih

theorem expandedFromChain_steady (e : FileElement) : Steady (expandedFromChain e) :=
  Steady.bind maxDepth_steady fun limit =>
    Steady.bind (nonRecursiveCall_steady e) fun first => expandedFromChain_go_steady limit first 0 []

theorem outermostCall_steady (e : FileElement) : Steady (outermostCall e) :=
  Steady.bind (expandedFromChain_steady e) fun _ => Steady.pure _

theorem expansionDepth_steady (e : FileElement) : Steady (expansionDepth e) :=
  Steady.bind (expandedFromChain_steady e) fun _ => Steady.pure _

theorem isExpanded_steady (e : FileElement) : Steady (isExpanded e) :=
  Steady.bind (nonRecursiveCall_steady e) fun _ => Steady.pure _

theorem expandedOrIncludedFrom_steady (n : FileElement) : Steady (expandedOrIncludedFrom n) := by
  unfold expandedOrIncludedFrom
  refine Steady.bind (expandedFrom_steady n) fun r => ?_
  split
  · exact Steady.pure _
  · split
    · exact includedFrom_steady _
    · exact Steady.pure _

/-! ### Contexts -/

theorem resolvePtr_steady (p : NodePtr) : Steady (resolvePtr p) := by
  unfold resolvePtr
  refine Steady.bind (tree?_steady p.file) fun r => ?_
  split
  · exact Steady.pure _
  · exact Steady.pure _

theorem explicitContext_steady (f : FileId) : Steady (explicitContext f) := by
  unfold explicitContext
  refine Steady.bind overlay_steady fun o => ?_
  split
  · exact resolvePtr_steady _
  · exact Steady.pure _

theorem rememberedContext_steady (f : FileId) : Steady (rememberedContext f) := by
  unfold rememberedContext
  refine Steady.bind overlay_steady fun o => ?_
  split
  · exact resolvePtr_steady _
  · exact Steady.pure _

theorem climbFrom_steady (f : FileId) (a : FileElement) : Steady
    (if (a.kind == SyntaxKind.itemList) = true then pure (f, Climb.found a)
    else if (!a.isFileLevel) = true then
      match a.parent? with
      | some p => pure (f, Climb.found p)
      | none => pure (f, Climb.stuck)
    else do
      match ← explicitContext a.file with
      | some p => pure (f, Climb.found p)
      | _ =>
        match ← rememberedContext a.file with
        | some p => pure (f, Climb.found p)
        | _ =>
          if (← expansionCall a.file).isSome then pure (f, Climb.next a.file)
          else if (← includedFrom a.file).isSome then pure (f, Climb.next a.file)
          else pure (f, Climb.found a.fileRoot)) := by
  split
  · exact Steady.pure _
  · split
    · split
      · exact Steady.pure _
      · exact Steady.pure _
    · refine Steady.bind (explicitContext_steady _) fun r => ?_
      split
      · exact Steady.pure _
      · refine Steady.bind (rememberedContext_steady _) fun r => ?_
        split
        · exact Steady.pure _
        · refine Steady.bind (expansionCall_steady _) fun r => ?_
          split
          · exact Steady.pure _
          · refine Steady.bind (includedFrom_steady _) fun r => ?_
            split
            · exact Steady.pure _
            · exact Steady.pure _

theorem climbStep_steady (f : FileId) : Steady (climbStep f) := by
  unfold climbStep
  simp only [pure_bind, Bool.false_eq_true, ↓reduceIte]
  refine Steady.bind (expansionCall_steady f) fun v => ?_
  split
  · split
    · exact climbFrom_steady f _
    · exact Steady.pure _
  · refine Steady.bind (includedFrom_steady f) fun d => ?_
    split
    · split
      · exact climbFrom_steady f _
      · exact Steady.pure _
    · exact Steady.pure _

theorem climb_steady (limit : Nat) :
    ∀ (n : Nat) (f : FileId) (visited : List FileId), Steady (climb limit n f visited)
  | 0, _, _ => Steady.pure _
  | n + 1, f, visited => by
    simp only [climb]
    split
    · exact Steady.pure _
    · refine Steady.bind (climbStep_steady f) fun x => ?_
      split
      · exact Steady.pure _
      · exact Steady.bind (Steady.forIn (fun _ _ => Steady.bind (Steady.modifyOverlay _)
          fun _ => Steady.pure _) _ _) fun _ => Steady.pure _
      · exact climb_steady limit n _ _

theorem callSiteContext_steady (f : FileId) : Steady (callSiteContext f) := by
  unfold callSiteContext
  refine Steady.bind (rememberedContext_steady f) fun r => ?_
  split
  · exact Steady.pure _
  · exact Steady.bind maxDepth_steady fun limit => climb_steady limit _ f []

theorem getContext_steady (n : FileElement) (access : IndexAccess) :
    Steady (getContext n access) := by
  unfold getContext
  split
  · exact Steady.pure _
  · refine Steady.bind (explicitContext_steady _) fun r => ?_
    split
    · exact Steady.pure _
    · split
      · refine Steady.bind (callSiteContext_steady _) fun r => ?_
        split
        · exact Steady.pure _
        · exact Steady.pure _
      · exact Steady.pure _

theorem crateOfFile_go_steady : ∀ (n : Nat) (f : FileId), Steady (crateOfFile.go n f)
  | 0, _ => Steady.pure _
  | n + 1, f => by
    simp only [crateOfFile.go]
    refine Steady.bind (fileCrate_steady f) fun r => ?_
    split
    · exact Steady.pure _
    · refine Steady.bind overlay_steady fun o => ?_
      split
      · exact crateOfFile_go_steady n _
      · refine Steady.bind (expansionCall_steady f) fun r => ?_
        split
        · exact crateOfFile_go_steady n _
        · refine Steady.bind (includedFrom_steady f) fun r => ?_
          split
          · exact crateOfFile_go_steady n _
          · exact Steady.pure _

theorem crateOfFile_steady (f : FileId) : Steady (crateOfFile f) :=
  Steady.bind maxDepth_steady fun _ => crateOfFile_go_steady _ f

theorem ancestorsWithContexts_go_steady (access : IndexAccess) (limit : Nat) :
    ∀ (k : Nat) (node : Option FileElement) (changes : Nat) (acc : List FileElement),
      Steady (ancestorsWithContexts.go access limit k node changes acc)
  | 0, _, _, _ => Steady.pure _
  | _ + 1, none, _, _ => Steady.pure _
  | k + 1, some node, changes, acc => by
    simp only [ancestorsWithContexts.go]
    exact Steady.bind (getContext_steady node access) fun _ =>
      ancestorsWithContexts_go_steady access limit k _ _ _

theorem ancestorsWithContexts_steady (n : FileElement) (access : IndexAccess) (count : Nat) :
    Steady (ancestorsWithContexts n access count) :=
  Steady.bind maxDepth_steady fun limit => ancestorsWithContexts_go_steady access limit count _ 0 []


/-! ### Expanding a call -/

section Expanding

variable {c : MacroCall}

/-- A call's macro output has a map without a fault, since its copies lie in the output text, and
the file it adds fits, since the allocator placed the whole text below the last offset. -/
theorem computeExpansion_fits (hw : w.Coherent) (hf : w.Fits) (hc : c.Genuine w) :
    ∃ r w', (computeExpansion c).run.run w = (.ok r, w') ∧ w'.Fits := by
  have hset : ∀ w' : Workspace, (set w' : Session PUnit).run.run w = (.ok (), w') := fun _ => rfl
  cases hrun : w.runMacro c with
  | none =>
    refine ⟨none, w, ?_, hf⟩
    simp only [computeExpansion, run_bind, run_get, hrun, run_pure]
  | some out =>
    rcases halloc : w.allocator.allocate out.text.utf8ByteSize with ⟨_ | base, alloc⟩
    · refine ⟨none, w, ?_, hf⟩
      simp only [computeExpansion, run_bind, run_get, hrun, halloc, run_pure]
    · obtain ⟨hbase, hnext, hfit⟩ := Allocator.allocate_eq_some (congrArg Prod.fst halloc)
      simp only [halloc] at hnext
      obtain ⟨text, htext, hs, -⟩ := hc.spells hw
      obtain ⟨piece, hcopies, -⟩ := Workspace.runMacro_copies htext hs hc.1.2 hrun
      have hmap := OffsetMap.ofList_of_ordered hcopies.pos hcopies.ordered fun u hu => by
        have := hcopies.fits hu
        omega
      have hlift : ∀ w' : Workspace, (liftM (OffsetMap.ofList out.segments) : Session OffsetMap).run.run w' =
          (.ok ⟨out.segments, true⟩, w') := fun _ => by rw [hmap]; rfl
      have hg : w.Grows ({ w with allocator := alloc }.addFile none out.text
          c.contextKind.entryPoint (.expansion c.key)).2 :=
        Workspace.Grows.addFile _ _ _ _ (by rw [FileEntry.reserve_of_expansion rfl]; dsimp only; omega)
      refine ⟨some ⟨w.files.size, c.contextKind, base, ⟨out.segments, true⟩⟩, _, ?_,
        hf.grow hg fun f text' hnone ht => ?_⟩
      · simp only [computeExpansion, run_bind, run_get, hrun, halloc, hset, hlift, run_pure]
        rfl
      · simp only [Workspace.addFile, Workspace.text?, Workspace.file?, Array.getElem?_push,
          Option.map_eq_some_iff] at ht
        obtain ⟨x, hx, rfl⟩ := ht
        split at hx
        · cases hx
          dsimp only
          omega
        · simp only [Workspace.file?] at hnone
          rw [hnone] at hx
          cases hx

theorem storedExpansion_fits (hw : w.Coherent) (hf : w.Fits) (hc : c.Genuine w) :
    ∃ r w', (storedExpansion c).run.run w = (.ok r, w') ∧ w'.Fits := by
  cases hk : w.expansions c.key with
  | some v =>
    refine ⟨v, w, ?_, hf⟩
    simp only [storedExpansion, run_bind, run_get, hk, run_pure]
  | none =>
    by_cases hinc : c.isInclude = true
    · refine ⟨none, w, ?_, hf⟩
      simp only [storedExpansion, run_bind, run_get, hk, hinc, if_true, run_pure]
    · obtain ⟨r, w₁, hrun, hf₁⟩ := computeExpansion_fits hw hf hc
      refine ⟨r, w₁.store c r, ?_, hf₁.of_files rfl rfl⟩
      simp only [storedExpansion, run_bind, run_get, hk, hinc, Bool.false_eq_true, if_false, hrun]
      rfl

/-- Expanding a call written in the workspace never faults; the expansion it answers is stored
under the call's key, with the override's map when there is one. -/
theorem expansion_safe (hc : c.Genuine w) :
    Safe w (expansion c) fun r w' => ∀ e, r = some e →
      ∃ s, w'.expansions c.key = some (some s) ∧ e = { s with map := w'.mapOverride.getD s.map } := by
  refine Safe.of_sound (expansion_sound_override hc) fun hw hf => ?_
  obtain ⟨r, w₁, hrun, hf₁⟩ := storedExpansion_fits hw hf hc
  unfold expansion
  rw [run_bind_of_ok hrun]
  cases hm : w₁.mapOverride with
  | none => exact ⟨r, w₁, by simp only [run_bind, run_get, hm, run_pure], hf₁⟩
  | some m =>
    exact ⟨r.map fun x => { x with map := m }, w₁, by simp only [run_bind, run_get, hm, run_pure],
      hf₁⟩

end Expanding


/-! ### Offsets -/

section Offsets

variable {c : MacroCall}

theorem expansionCall_safe (f : FileId) :
    Safe w (expansionCall f) fun a w' => a = w.expansionCall f ∧ w' = w :=
  Safe.of_steady (expansionCall_steady f) (expansionCall_sound f)

theorem maxDepth_safe : Safe w maxDepth fun a w' => a = w.maxDepth ∧ w' = w :=
  Safe.of_steady maxDepth_steady maxDepth_sound

/-- The base a file's offsets start at is the base of the expansion it comes from, also under an
override, which replaces maps but keeps bases. -/
theorem fileStartOffset_safe (f : FileId) :
    Safe w (fileStartOffset f) fun r w' => ∀ base, r = some base → w'.FileBase f base := by
  unfold fileStartOffset
  refine Safe.bind (expansionCall_safe f) ?_
  rintro a w₁ - - - ⟨rfl, rfl⟩
  split
  · rename_i hcall
    exact Safe.pure (by rintro base ⟨⟩; exact .inl ⟨hcall, rfl⟩)
  · rename_i p hp
    refine Safe.bind (expansion_safe (Workspace.expansionCall_genuine hp)) ?_
    rintro r w₂ hg - - hr
    refine Safe.pure ?_
    rintro base hb
    obtain ⟨ep, rfl, rfl⟩ := Option.map_eq_some_iff.1 hb
    obtain ⟨s, hs, rfl⟩ := hr ep rfl
    exact .inr ⟨p, s, hg.expansionCall hp, hs, rfl⟩

theorem elementRange_safe {e : FileElement} (he : e.Genuine w) :
    Safe w (elementRange e) fun _ _ => True := by
  unfold elementRange
  refine Safe.bind (fileStartOffset_safe e.file) ?_
  rintro (_ | base) w₁ hg hw₁ hf₁ hr
  · exact Safe.pure trivial
  · have hfit := (hf₁.placed hw₁ (hr base rfl)).elem_fits hw₁ (he.mono hg)
    exact Safe.bind (Safe.lift (TextRange.shiftRight_of_fits hfit)) fun _ _ _ _ _ _ =>
      Safe.pure trivial

theorem elementStart_safe {e : FileElement} (he : e.Genuine w) :
    Safe w (elementStart e) fun _ _ => True :=
  Safe.bind (elementRange_safe he) fun _ _ _ _ _ _ => Safe.pure trivial

theorem tokenStartingAt_safe (f : FileId) (off : Nat) :
    Safe w (tokenStartingAt f off) fun r w' => ∀ t, r = some t → t.Genuine w' := by
  unfold tokenStartingAt
  refine Safe.bind_steady (fileStartOffset_safe f) (fun b => ?_) (tokenStartingAt_sound f off)
  split
  · split
    · refine Steady.bind (tree?_steady f) fun r => ?_
      split
      · split
        · exact Steady.pure _
        · split
          · exact Steady.pure _
          · exact Steady.pure _
      · exact Steady.pure _
    · exact Steady.pure _
  · exact Steady.pure _

/-- A call's body, moved to its file's base, ends within offsets. -/
theorem bodyTextRange_safe (hc : c.Genuine w) :
    Safe w (bodyTextRange c) fun r _ => ∀ body, r = some body →
      ∃ lb, c.localBodyRange? = some lb ∧ body.len = lb.len ∧ body.stop ≤ maxOffset := by
  unfold bodyTextRange
  split
  · rename_i lb hlb
    refine Safe.bind (fileStartOffset_safe c.file) ?_
    rintro (_ | base) w₁ hg hw₁ hf₁ hr
    · exact Safe.pure (by simp)
    · have hfit := (hf₁.placed hw₁ (hr base rfl)).body_fits hw₁ (hc.mono hg) hlb
      refine Safe.bind (Safe.lift (TextRange.shiftRight_of_fits hfit)) ?_
      rintro _ _ - - - ⟨rfl, rfl⟩
      refine Safe.pure ?_
      rintro body ⟨⟩
      exact ⟨lb, hlb, by simp only [TextRange.len]; omega, hfit⟩
  · exact Safe.pure (by simp)

theorem toBodyRelative_safe (hc : c.Genuine w) (off : Nat) :
    Safe w (toBodyRelative c off) fun _ _ => True := by
  unfold toBodyRelative
  refine Safe.bind (bodyTextRange_safe hc) fun r _ _ _ _ _ => ?_
  split
  · exact Safe.pure trivial
  · exact Safe.pure trivial

theorem fromBodyRelative_safe (hc : c.Genuine w) (rel : Nat) :
    Safe w (fromBodyRelative c rel) fun _ _ => True := by
  unfold fromBodyRelative
  refine Safe.bind (bodyTextRange_safe hc) fun r _ _ _ _ _ => ?_
  split
  · exact Safe.pure trivial
  · exact Safe.pure trivial

theorem callStart_safe (hc : c.Genuine w) : Safe w (callStart c) fun _ _ => True := by
  unfold callStart
  refine Safe.bind (fileStartOffset_safe c.file) ?_
  rintro (_ | base) w₁ hg hw₁ hf₁ hr
  · exact Safe.pure trivial
  · have hfit := (hf₁.placed hw₁ (hr base rfl)).elem_fits hw₁ (hc.1.mono hg)
    exact Safe.bind (Safe.lift (Offset.add_eq_ok_iff.2 ⟨by
      simp only [MacroCall.element_elem] at hfit; omega, rfl⟩)) fun _ _ _ _ _ _ => Safe.pure trivial

theorem localLoc_safe (f : FileId) (off : Nat) : Safe w (localLoc f off) fun _ _ => True := by
  unfold localLoc
  refine Safe.bind (fileStartOffset_safe f) fun r _ _ _ _ _ => ?_
  split
  · exact Safe.pure trivial
  · exact Safe.pure trivial

end Offsets


/-! ### From an expansion to its call's body -/

section Mapping

variable {c : MacroCall}

theorem offsetToBodyRelative_safe (hc : c.Genuine w) (off : Nat) :
    Safe w (offsetToBodyRelative c off) fun _ _ => True := by
  unfold offsetToBodyRelative
  refine Safe.bind (expansion_safe hc) ?_
  intro r w₁ hg hw₁ hf₁ he
  cases r with
  | none => exact Safe.pure trivial
  | some e =>
    obtain ⟨s, hs, rfl⟩ := he e rfl
    have hsearch := hf₁.expansion_searchable hw₁ (hc.mono hg) hs
    dsimp only
    split
    · refine Safe.bind (Safe.lift (hsearch.toBody_eq _)) fun _ _ _ _ _ _ => ?_
      exact Safe.pure trivial
    · exact Safe.pure trivial

theorem offsetToBody_safe (hc : c.Genuine w) (off : Nat) :
    Safe w (offsetToBody c off) fun _ _ => True := by
  unfold offsetToBody
  refine Safe.bind (offsetToBodyRelative_safe hc off) ?_
  rintro (_ | rel) w₁ hg - - -
  · exact Safe.pure trivial
  · exact fromBodyRelative_safe (hc.mono hg) rel

end Mapping

/-! ### Locating -/

theorem callAndOffset_go_safe (limit : Nat) :
    ∀ (n : Nat) (f : FileId) (off depth : Nat) (reached : Option (MacroCall × Nat))
      (w : Workspace), Safe w (callAndOffset.go limit n f off depth reached) fun _ _ => True
  | 0, _, _, _, _, _ => Safe.pure trivial
  | n + 1, f, off, depth, reached, w => by
    simp only [callAndOffset.go]
    refine Safe.bind (expansionCall_safe f) ?_
    rintro _ w₁ - - - ⟨rfl, rfl⟩
    split
    · rename_i c hc
      split
      · exact Safe.pure trivial
      · refine Safe.bind (offsetToBody_safe (Workspace.expansionCall_genuine hc) off) ?_
        rintro (_ | mapped) w₂ - - - -
        · exact Safe.pure trivial
        · exact callAndOffset_go_safe limit n _ _ _ _ w₂
    · exact Safe.pure trivial

theorem callAndOffset_safe (f : FileId) (off : Nat) :
    Safe w (callAndOffset f off) fun _ _ => True :=
  Safe.bind maxDepth_safe fun limit w₁ _ _ _ _ => callAndOffset_go_safe limit _ _ _ _ _ w₁

theorem isExpanded_safe (e : FileElement) : Safe w (isExpanded e) fun _ _ => True :=
  Safe.of_steady (isExpanded_steady e) (isExpanded_sound e)

theorem elementExpandedFrom_safe {e : FileElement} (he : e.Genuine w) (strict : Bool) :
    Safe w (elementExpandedFrom e strict) fun _ _ => True := by
  unfold elementExpandedFrom
  refine Safe.bind (elementStart_safe he) ?_
  rintro (_ | start) w₁ - - - -
  · exact Safe.pure trivial
  · refine Safe.bind (callAndOffset_safe _ _) ?_
    rintro (_ | ⟨c, off⟩) w₂ - - - -
    · exact Safe.pure trivial
    · refine Safe.bind (tokenStartingAt_safe _ _) ?_
      rintro (_ | t) w₃ - - - -
      · exact Safe.pure trivial
      · refine Safe.bind (isExpanded_safe t) fun b _ _ _ _ _ => ?_
        split
        · exact Safe.pure trivial
        · exact Safe.pure trivial

theorem leafCall_safe {e : FileElement} (he : e.Genuine w) : Safe w (leafCall e) fun _ _ => True := by
  unfold leafCall
  refine Safe.bind (elementStart_safe he) ?_
  rintro (_ | start) w₁ - - - -
  · exact Safe.pure trivial
  · exact Safe.bind (callAndOffset_safe _ _) fun _ _ _ _ _ _ => Safe.pure trivial

/-! ### Navigation -/

theorem navigationTarget_safe {e : FileElement} (he : e.Genuine w) :
    Safe w (navigationTarget e) fun _ _ => True := by
  unfold navigationTarget
  refine Safe.bind (elementExpandedFrom_safe ?target true) ?_
  case target =>
    split
    · split
      · rename_i t ht
        exact he.withElem_nameToken ht
      · exact he
    · exact he
  rintro r w₁ - - - -
  split
  · exact Safe.pure trivial
  · refine Safe.bind (Safe.of_steady (outermostCall_steady e) (outermostCall_sound e)) ?_
    rintro r w₂ - - - -
    split
    · exact Safe.pure trivial
    · exact Safe.pure trivial

theorem cameFromMacroCall_safe {e : FileElement} (he : e.Genuine w) :
    Safe w (cameFromMacroCall e) fun _ _ => True := by
  unfold cameFromMacroCall
  refine Safe.bind (Safe.of_steady (nonRecursiveCall_steady e) (nonRecursiveCall_sound e)) ?_
  rintro (_ | c) w₁ hg₁ - - hc
  · exact Safe.pure trivial
  · dsimp only
    split
    · exact Safe.pure trivial
    · refine Safe.bind (elementStart_safe (he.mono hg₁)) ?_
      rintro (_ | start) w₂ hg₂ - - -
      · exact Safe.pure trivial
      · exact Safe.bind (offsetToBodyRelative_safe ((hc c rfl).mono hg₂) _)
          fun _ _ _ _ _ _ => Safe.pure trivial

theorem frameRounds_safe : ∀ (n : Nat) (f : FileId) (off : Option Nat) (acc : List Frame)
    (w : Workspace), Safe w (frameRounds n f off acc) fun _ _ => True
  | 0, _, _, _, _ => Safe.pure trivial
  | n + 1, f, off, acc, w => by
    simp only [frameRounds, pure_bind]
    refine Safe.bind (expansionCall_safe f) ?_
    rintro _ w₁ - - - ⟨rfl, rfl⟩
    split
    · rename_i c hcall
      have hc := Workspace.expansionCall_genuine hcall
      split
      · refine Safe.bind (offsetToBody_safe hc _) fun m w₂ hg₂ _ _ _ => ?_
        split
        · exact Safe.bind (localLoc_safe _ _) fun _ w₃ _ _ _ _ => frameRounds_safe n _ _ _ w₃
        · exact Safe.bind (callStart_safe (hc.mono hg₂)) fun _ w₃ _ _ _ _ =>
            frameRounds_safe n _ _ _ w₃
      · exact Safe.bind (callStart_safe hc) fun _ w₂ _ _ _ _ => frameRounds_safe n _ _ _ w₂
    · refine Safe.bind (Safe.of_steady (includedFrom_steady f) (includedFrom_sound f)) ?_
      rintro _ w₂ - - - ⟨rfl, rfl⟩
      split
      · rename_i c hinc
        have hc := Workspace.includedFrom_genuine hinc
        split
        · exact Safe.bind (localLoc_safe _ _) fun _ w₃ hg₃ _ _ _ =>
            Safe.bind (callStart_safe (hc.mono hg₃)) fun _ w₄ _ _ _ _ => frameRounds_safe n _ _ _ w₄
        · exact Safe.bind (callStart_safe hc) fun _ w₃ _ _ _ _ => frameRounds_safe n _ _ _ w₃
      · exact Safe.pure trivial

theorem frames_safe {e : FileElement} (he : e.Genuine w) : Safe w (frames e) fun _ _ => True := by
  unfold frames
  refine Safe.bind maxDepth_safe ?_
  rintro _ _ - - - ⟨-, rfl⟩
  exact Safe.bind (elementStart_safe he) fun _ w₂ _ _ _ _ => frameRounds_safe _ _ _ _ w₂


/-! ### Lookups that add to a mapped offset

These add a base or a body start to an offset read off a map without checking the sum. With the
macros' own maps the sum stays within the file the offset lands in. -/

section OwnMaps

variable {c : MacroCall}

/-- Without an override, an expansion lookup answers the stored expansion. -/
theorem expansion_safe_stored (hnone : w.mapOverride = none) (hc : c.Genuine w) :
    Safe w (expansion c) fun r w' => w'.mapOverride = none ∧
      ∀ e, r = some e → w'.expansions c.key = some (some e) :=
  (expansion_safe hc).mono_grows fun _ _ hg h => ⟨hg.mapOverride.trans hnone, fun e he => by
    obtain ⟨s, hs, rfl⟩ := h e he
    rw [hg.mapOverride, hnone]
    exact hs⟩

/-- The copies of a body offset, moved by the base of the call's stored expansion, end within the
expansion file placed at its base. -/
theorem offsetToExpansion_safe (hc : c.Genuine w) {e : Expansion}
    (hs : w.expansions c.key = some (some e)) (off : Nat) :
    Safe w (offsetToExpansion c e off) fun _ _ => True := by
  unfold offsetToExpansion
  refine Safe.bind (toBodyRelative_safe hc off) ?_
  rintro (_ | rel) w₁ hg hw₁ hf₁ -
  · exact Safe.pure trivial
  · have hc₁ := hc.mono hg
    have hfaith := hw₁.cached c.key e (hg.expansions _ _ hs) c hc₁ rfl
    refine Safe.bind (Safe.lift ((hf₁.searchable hw₁ hc₁ hfaith).toExpansion_eq rel)) ?_
    rintro _ w₂ - - - ⟨rfl, rfl⟩
    have hle : ∀ x ∈ e.map.segments.filterMap (OffsetMap.copyOf rel), x + e.base ≤ maxOffset := by
      intro x hx
      obtain ⟨u, hu, hcopy⟩ := List.mem_filterMap.1 hx
      have := hfaith.dst_fits hw₁ hc₁ u hu
      simp only [OffsetMap.copyOf] at hcopy
      split at hcopy
      · cases hcopy
        omega
      · cases hcopy
    exact Safe.bind (Safe.of_run (mapM_lift_add _ _ _ hle)) fun _ _ _ _ _ _ => Safe.pure trivial

theorem directCopies_safe (hnone : w.mapOverride = none) {t : FileElement} (ht : t.Genuine w) :
    Safe w (directCopies t) fun r w' => ∀ ts, r = some ts → ∀ t' ∈ ts, t'.Genuine w' := by
  refine Safe.and_sound (directCopies_sound ht) (?_ : Safe w (directCopies t) fun _ _ => True)
  unfold directCopies
  split
  · rename_i c hch
    have hc := callHolding_genuine ht hch
    refine Safe.bind (expansion_safe_stored hnone hc) ?_
    rintro (_ | e) w₁ hg₁ - - ⟨-, he⟩
    · exact Safe.pure trivial
    · refine Safe.bind (elementStart_safe (ht.mono hg₁)) ?_
      rintro (_ | start) w₂ hg₂ - - -
      · exact Safe.pure trivial
      · refine Safe.bind (offsetToExpansion_safe (hc.mono (hg₁.trans hg₂))
          (hg₂.expansions _ _ (he e rfl)) start) ?_
        rintro (_ | offs) w₃ - - - -
        · exact Safe.pure trivial
        · exact Safe.bind (Safe.filterMapM (fun o w => (tokenStartingAt_safe e.file o).mono
            fun _ _ _ => trivial) offs w₃) fun _ _ _ _ _ _ => Safe.pure trivial
  · exact Safe.pure trivial

theorem copyRounds_safe (limit : Nat) (stack : List (FileElement × Nat)) (acc : List FileElement) :
    ∀ w : Workspace, w.mapOverride = none → (∀ p ∈ stack, p.1.Genuine w) →
      Safe w (copyRounds limit stack acc) fun _ _ => True := by
  induction stack, acc using copyRounds.induct limit with
  | case1 acc =>
    intro w _ _
    rw [copyRounds]
    exact Safe.pure trivial
  | case2 t depth stack acc ihpush ihpop =>
    intro w hnone hstack
    have hrest : ∀ w', w.Grows w' → ∀ p ∈ stack, p.1.Genuine w' :=
      fun w' hg p hp => (hstack p (List.mem_cons_of_mem _ hp)).mono hg
    rw [copyRounds]
    refine Safe.bind (directCopies_safe hnone (hstack _ List.mem_cons_self)) ?_
    rintro r w₁ hg - - hr
    split
    · rename_i copies
      split
      · exact Safe.pure trivial
      · rename_i hd
        refine ihpush copies hd w₁ (hg.mapOverride.trans hnone) fun p hp => ?_
        simp only [List.mem_append, List.mem_map] at hp
        rcases hp with ⟨t', ht', rfl⟩ | hp
        · exact hr copies rfl t' ht'
        · exact hrest w₁ hg p hp
    · exact ihpop w₁ (hg.mapOverride.trans hnone) (hrest w₁ hg)

theorem expansionElements_safe (hnone : w.mapOverride = none) {t : FileElement} (ht : t.Genuine w) :
    Safe w (expansionElements t) fun _ _ => True := by
  unfold expansionElements
  refine Safe.bind maxDepth_safe ?_
  rintro limit _ - - - ⟨-, rfl⟩
  refine Safe.bind (directCopies_safe hnone ht) ?_
  rintro (_ | first) w₁ hg - - hr
  · exact Safe.pure trivial
  · refine copyRounds_safe limit _ [] w₁ (hg.mapOverride.trans hnone) fun p hp => ?_
    simp only [List.mem_map] at hp
    obtain ⟨t', ht', rfl⟩ := hp
    exact hr first rfl t' ht'

theorem expansionElementOrSelf_safe (hnone : w.mapOverride = none) {t : FileElement}
    (ht : t.Genuine w) : Safe w (expansionElementOrSelf t) fun _ _ => True := by
  unfold expansionElementOrSelf
  refine Safe.bind (expansionElements_safe hnone ht) fun r _ _ _ _ _ => ?_
  split
  · exact Safe.pure trivial
  · exact Safe.pure trivial

theorem fragmentOutcome_mapped {l frags : List Segment}
    (h : OffsetMap.fragmentOutcome l = .mapped frags) : frags = l := by
  unfold OffsetMap.fragmentOutcome at h
  split at h
  · cases h
  · split at h
    · cases h
      rfl
    · cases h

/-- The range work list keeps every query within offsets: a query's fragments in the call body lie
within the body, and carry positions of the query. -/
theorem rangeRounds_safe (limit : Nat) :
    ∀ (n : Nat) (work : List (MacroCall × Segment × Nat)) (acc : List TextRange) (w : Workspace),
      w.mapOverride = none → (∀ x ∈ work, x.1.Genuine w ∧ x.2.1.src + x.2.1.len ≤ maxOffset ∧
        x.2.1.dst + x.2.1.len ≤ maxOffset) →
      Safe w (rangeRounds limit n work acc) fun _ _ => True
  | 0, _, _, _, _, _ => Safe.pure trivial
  | _ + 1, [], _, _, _, _ => Safe.pure trivial
  | n + 1, (c, q, depth) :: work, acc, w, hnone, hwork => by
    obtain ⟨hc, hq, hqd⟩ := hwork _ List.mem_cons_self
    dsimp only at hc hq hqd
    have hrest : ∀ w', w.Grows w' → ∀ x ∈ work, x.1.Genuine w' ∧
        x.2.1.src + x.2.1.len ≤ maxOffset ∧ x.2.1.dst + x.2.1.len ≤ maxOffset :=
      fun w' hg x hx => by
        obtain ⟨hx₁, hx₂⟩ := hwork x (List.mem_cons_of_mem _ hx)
        exact ⟨hx₁.mono hg, hx₂⟩
    simp only [rangeRounds]
    split
    · exact Safe.pure trivial
    refine Safe.bind (expansion_safe_stored hnone hc) ?_
    rintro (_ | e) w₁ hg₁ hw₁ hf₁ ⟨hnone₁, he⟩
    · exact Safe.pure trivial
    have hc₁ := hc.mono hg₁
    have hfaith := hw₁.cached c.key e (he e rfl) c hc₁ rfl
    dsimp only
    split
    · rename_i loc hloc
      obtain ⟨hle, rfl⟩ : e.base ≤ q.src ∧ loc = { q with src := q.src - e.base } := by
        simp only [Segment.shiftLeft?, Option.map_eq_some_iff, Offset.sub?_eq_some_iff] at hloc
        obtain ⟨src, ⟨h₁, rfl⟩, rfl⟩ := hloc
        exact ⟨h₁, rfl⟩
      refine Safe.bind (Safe.lift ((hf₁.searchable hw₁ hc₁ hfaith).rangeToBody_eq
        (by dsimp only; omega) (by dsimp only; omega))) ?_
      rintro _ w₂ - - - ⟨rfl, hw₂⟩
      subst w₂
      split
      · exact rangeRounds_safe limit n work acc w₁ hnone₁ (hrest w₁ hg₁)
      · exact Safe.pure trivial
      · rename_i frags hfrags
        obtain rfl := fragmentOutcome_mapped hfrags
        refine Safe.bind (bodyTextRange_safe hc₁) ?_
        rintro (_ | body) w₃ hg₃ hw₃ - hbody
        · exact rangeRounds_safe limit n work acc w₃ (hg₃.mapOverride.trans hnone₁)
            (hrest w₃ (hg₁.trans hg₃))
        obtain ⟨lb, hlb, hlen, hstop⟩ := hbody body rfl
        have hfrag : ∀ f ∈ e.bodyFragments body q,
            f.src + f.len ≤ maxOffset ∧ f.dst + f.len ≤ q.dst + q.len :=
          Expansion.bodyFragments_fit hw₃ (hc₁.mono hg₃) (hfaith.mono hg₃) hlb hlen hstop
        have hbf : e.bodyFragments body q = (e.map.segments.filterMap
            (Segment.clip { q with src := q.src - e.base })).filterMap
              (Segment.fromBodyRelative? · body) := by
          unfold Expansion.bodyFragments
          rw [hloc]
        rw [hbf] at hfrag
        refine Safe.bind (expansionCall_safe c.file) ?_
        rintro _ w₄ - - - ⟨rfl, hw₄⟩
        subst w₄
        split
        · refine Safe.bind (Safe.of_run (run_mapM_srcRange _ fun f hf => (hfrag f hf).1)) ?_
          rintro _ w₅ - - - ⟨-, hw₅⟩
          subst w₅
          exact rangeRounds_safe limit n work _ w₃ (hg₃.mapOverride.trans hnone₁)
            (hrest w₃ (hg₁.trans hg₃))
        · rename_i parent hparent
          refine rangeRounds_safe limit n _ acc w₃ (hg₃.mapOverride.trans hnone₁) fun x hx => ?_
          simp only [List.mem_append, List.mem_map] at hx
          rcases hx with ⟨f, hf, rfl⟩ | hx
          · have := hfrag f hf
            exact ⟨Workspace.expansionCall_genuine hparent, this.1, by dsimp only; omega⟩
          · exact hrest w₃ (hg₁.trans hg₃) x hx
    · exact rangeRounds_safe limit n work acc w₁ hnone₁ (hrest w₁ hg₁)

theorem rangeToBody_safe (hnone : w.mapOverride = none) {c : MacroCall} (hc : c.Genuine w)
    {r : TextRange} (hr : r.stop ≤ maxOffset) : Safe w (rangeToBody c r) fun _ _ => True := by
  unfold rangeToBody
  refine Safe.bind maxDepth_safe ?_
  rintro limit w₁ - - - ⟨-, hw₁⟩
  subst w₁
  refine rangeRounds_safe limit _ _ _ w hnone fun x hx => ?_
  rw [List.mem_singleton] at hx
  subst hx
  have := r.le
  exact ⟨hc, by simp only [TextRange.len]; omega, by simp only [TextRange.len]; omega⟩

theorem rangeToBodyStrict_safe (hnone : w.mapOverride = none) {c : MacroCall} (hc : c.Genuine w)
    {r : TextRange} (hr : r.stop ≤ maxOffset) : Safe w (rangeToBodyStrict c r) fun _ _ => True := by
  unfold rangeToBodyStrict
  refine Safe.bind (rangeToBody_safe hnone hc hr) fun rs _ _ _ _ _ => ?_
  split
  · exact Safe.pure trivial
  · exact Safe.pure trivial

/-- Each level of inlay-hint placement either answers or goes on one file out; with the macros'
own maps the offset and the statement range it carries stay within the call's body. -/
theorem placeRounds_safe (target : FileId) :
    ∀ (n : Nat) (f : FileId) (off : Nat) (r : TextRange) (w : Workspace),
      w.mapOverride = none → Safe w (placeRounds target n f off r) fun _ _ => True
  | 0, _, _, _, _, _ => Safe.pure trivial
  | n + 1, f, off, r, w, hnone => by
    intro hw hf
    cases hcall : w.expansionCall f with
    | none =>
      refine ⟨none, w, ?_, hw, Workspace.Grows.refl w, hf, trivial⟩
      simp only [placeRounds, run_bind, run_expansionCall, hcall, run_pure]
    | some c =>
      have hc := Workspace.expansionCall_genuine hcall
      obtain ⟨r₁, w₁, he, hw₁, hg₁, hf₁, -⟩ := expansion_safe hc hw hf
      cases r₁ with
      | none =>
        refine ⟨none, w₁, ?_, hw₁, hg₁, hf₁, trivial⟩
        simp only [placeRounds, run_bind, run_expansionCall, hcall, he, run_pure]
      | some e =>
        obtain ⟨b, w₂, hb, hw₂, hg₂, hf₂, -⟩ := bodyTextRange_safe (hc.mono hg₁) hw₁ hf₁
        cases b with
        | none =>
          refine ⟨none, w₂, ?_, hw₂, hg₁.trans hg₂, hf₂, trivial⟩
          simp only [placeRounds, run_bind, run_expansionCall, hcall, he, hb, run_pure]
        | some body =>
          rcases placeRounds_succ_cases hw hnone hcall he hb target n off r with
            ⟨hrun, -⟩ | ⟨mapped, next, -, hrun⟩
          · exact ⟨none, w₂, hrun, hw₂, hg₁.trans hg₂, hf₂, trivial⟩
          · rw [hrun]
            split
            · exact ⟨_, w₂, rfl, hw₂, hg₁.trans hg₂, hf₂, trivial⟩
            · obtain ⟨a, w₃, hrun₃, hw₃, hg₃, hf₃, -⟩ := placeRounds_safe target n c.file mapped
                next w₂ ((hg₁.trans hg₂).mapOverride.trans hnone) hw₂ hf₂
              exact ⟨a, w₃, hrun₃, hw₃, (hg₁.trans hg₂).trans hg₃, hf₃, trivial⟩

theorem offsetInFile_safe (hnone : w.mapOverride = none) (anchor : FileElement) (off : Nat)
    (r : TextRange) (target : FileId) : Safe w (offsetInFile anchor off r target) fun _ _ => True :=
  Safe.bind maxDepth_safe fun _ w₁ hg _ _ _ =>
    placeRounds_safe target _ _ _ _ w₁ (hg.mapOverride.trans hnone)

theorem inlayHintOffset_safe (hnone : w.mapOverride = none) {anchor : FileElement}
    (ha : anchor.Genuine w) (target : FileId) :
    Safe w (inlayHintOffset anchor target) fun _ _ => True := by
  unfold inlayHintOffset
  refine Safe.bind (elementRange_safe ha) ?_
  rintro (_ | r) w₁ hg₁ hw₁ - -
  · exact Safe.pure trivial
  · dsimp only
    split
    · exact Safe.pure trivial
    · obtain ⟨n, hn, hng, -⟩ := (ha.mono hg₁).node? hw₁
      rw [hn]
      dsimp only
      split
      · rename_i stmt hstmt
        have hs : stmt.Genuine w₁ := hng.ancestors (List.mem_of_find?_eq_some hstmt)
        refine Safe.bind (elementRange_safe hs) ?_
        rintro (_ | sr) w₂ hg₂ - - -
        · exact Safe.pure trivial
        · exact offsetInFile_safe ((hg₁.trans hg₂).mapOverride.trans hnone) _ _ _ _
      · exact Safe.pure trivial

end OwnMaps


/-- No lookup faults on a coherent workspace whose texts fit and whose map override, if any, can be
searched: the chain, depth and context lookups never do; the offset lookups, the lookups from an
expansion to its call's body, the locator, navigation targets and frames do not, for elements and
calls the workspace holds; the copies of a body offset read off a call's stored expansion do not.
Without an override, neither do the range trace for a range within offsets, the forward lookup
of a token's copies, or inlay-hint placement. With a map whose segments each fit, which is what an
override hands the copy lookup, that lookup faults exactly when a copy passes the last offset once
the expansion's base is added. -/
theorem lookups_answer_without_faults {w : Workspace} (hw : w.Coherent) (hfits : w.Fits) :
    (∀ (e : FileElement) (access : IndexAccess) (count : Nat),
      FaultFree w (expansionDepth e) ∧ FaultFree w (outermostCall e) ∧
      FaultFree w (isExpanded e) ∧ FaultFree w (expandedOrIncludedFrom e) ∧
      FaultFree w (getContext e access) ∧ FaultFree w (ancestorsWithContexts e access count)) ∧
    (∀ f : FileId, FaultFree w (crateOfFile f) ∧ FaultFree w (fileStartOffset f) ∧
      ∀ off, FaultFree w (tokenStartingAt f off)) ∧
    (∀ e : FileElement, e.Genuine w → ∀ strict : Bool,
      FaultFree w (elementRange e) ∧ FaultFree w (elementExpandedFrom e strict) ∧
      FaultFree w (leafCall e) ∧ FaultFree w (navigationTarget e) ∧
      FaultFree w (cameFromMacroCall e) ∧ FaultFree w (frames e)) ∧
    (∀ c : MacroCall, c.Genuine w → ∀ off : Nat,
      FaultFree w (expansion c) ∧ FaultFree w (offsetToBodyRelative c off) ∧
      FaultFree w (offsetToBody c off) ∧
      ∀ e, w.expansions c.key = some (some e) → FaultFree w (offsetToExpansion c e off)) ∧
    (w.mapOverride = none →
      (∀ c : MacroCall, c.Genuine w → ∀ r : TextRange, r.stop ≤ maxOffset →
        FaultFree w (rangeToBody c r) ∧ FaultFree w (rangeToBodyStrict c r)) ∧
      (∀ t : FileElement, t.Genuine w →
        FaultFree w (expansionElements t) ∧ FaultFree w (expansionElementOrSelf t)) ∧
      (∀ anchor : FileElement, anchor.Genuine w → ∀ (off : Nat) (r : TextRange) (target : FileId),
        FaultFree w (offsetInFile anchor off r target) ∧ FaultFree w (inlayHintOffset anchor target))) ∧
    (∀ (c : MacroCall) (e : Expansion) (body : TextRange) (w' : Workspace),
      (bodyTextRange c).run.run w = (.ok (some body), w') →
      (∀ u ∈ e.map.segments, u.src + u.len ≤ maxOffset ∧ u.dst + u.len ≤ maxOffset) → ∀ s : Nat,
      ((offsetToExpansion c e s).run.run w).1 =
        if body.contains s then
          if (e.map.segments.filterMap (OffsetMap.copyOf (s - body.start))).all
            (· + e.base ≤ maxOffset)
          then .ok (some ((e.map.segments.filterMap (OffsetMap.copyOf (s - body.start))).map
            (· + e.base)))
          else .error .addOverflow
        else .ok none) := by
  refine ⟨fun e access count => ?steady, fun f => ?files, fun e he strict => ?elements,
    fun c hc off => ?calls, fun hnone => ⟨fun c hc r hr => ?ranges, fun t ht => ?copies,
      fun anchor ha off r target => ?hints⟩, fun c e body w' hb hunits s =>
        offsetToExpansion_run_of_fitting hb hunits s⟩
  case steady =>
    exact ⟨(expansionDepth_steady e).faultFree w, (outermostCall_steady e).faultFree w,
      (isExpanded_steady e).faultFree w, (expandedOrIncludedFrom_steady e).faultFree w,
      (getContext_steady e access).faultFree w,
      (ancestorsWithContexts_steady e access count).faultFree w⟩
  case files =>
    exact ⟨(crateOfFile_steady f).faultFree w, (fileStartOffset_safe f).faultFree hw hfits,
      fun off => (tokenStartingAt_safe f off).faultFree hw hfits⟩
  case elements =>
    exact ⟨(elementRange_safe he).faultFree hw hfits,
      (elementExpandedFrom_safe he strict).faultFree hw hfits, (leafCall_safe he).faultFree hw hfits,
      (navigationTarget_safe he).faultFree hw hfits, (cameFromMacroCall_safe he).faultFree hw hfits,
      (frames_safe he).faultFree hw hfits⟩
  case calls =>
    exact ⟨(expansion_safe hc).faultFree hw hfits,
      (offsetToBodyRelative_safe hc off).faultFree hw hfits,
      (offsetToBody_safe hc off).faultFree hw hfits,
      fun e hs => (offsetToExpansion_safe hc hs off).faultFree hw hfits⟩
  case ranges =>
    exact ⟨(rangeToBody_safe hnone hc hr).faultFree hw hfits,
      (rangeToBodyStrict_safe hnone hc hr).faultFree hw hfits⟩
  case copies =>
    exact ⟨(expansionElements_safe hnone ht).faultFree hw hfits,
      (expansionElementOrSelf_safe hnone ht).faultFree hw hfits⟩
  case hints =>
    exact ⟨(offsetInFile_safe hnone anchor off r target).faultFree hw hfits,
      (inlayHintOffset_safe hnone ha target).faultFree hw hfits⟩

/-- A workspace created from a copying macro and one source meets both conditions: every token's
copies are found, and every element's frames are listed, without a fault. -/
theorem created_workspace_lookups_answer : ∃ w : Workspace, w.Reachable none ∧ w.Fits ∧
    (∀ t : FileElement, t.Genuine w → FaultFree w (expansionElements t)) ∧
    ∀ e : FileElement, e.Genuine w → FaultFree w (frames e) := by
  obtain ⟨w, ids, hc⟩ : ∃ w ids, Workspace.create [("m", .template "$x" "$x")]
      [⟨"lib.rs", "m!(a);", 0⟩] defaultMaxDepth none = .ok (w, ids) := ⟨_, _, rfl⟩
  have hw : w.Reachable none := .create hc
  have hfits : w.Fits := Workspace.create_fits hc (by decide) (by simp)
  obtain ⟨-, -, helements, -, hown, -⟩ := lookups_answer_without_faults hw.coherent hfits
  obtain ⟨-, hcopies, -⟩ := hown hw.mapOverride
  exact ⟨w, hw, hfits, fun t ht => (hcopies t ht).1, fun e he => (helements e he false).2.2.2.2.2⟩

end Session

end MacroTrace
