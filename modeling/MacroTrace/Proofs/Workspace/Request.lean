import MacroTrace.Workspace.Step
import MacroTrace.Proofs.Trace.Sound

/-! Requests keep the workspace invariant. Finding a reference is sound and names what the
workspace holds: a call reference a genuine call, an element reference a genuine element. Every
step is sound, so every workspace a request reaches, created from macros and sources and then
stepped any number of times, is coherent and keeps the map override it was created with. -/
namespace MacroTrace

open Session

theorem Green.descendants_root (root : Green) :
    Green.descendants (Element.root root) = root.members := rfl

theorem Selector.pick_mem {root : Green} {s : Selector} {e : Element} (h : s.pick root = some e) :
    e ∈ root.members := by
  cases s with
  | token text nth =>
    rw [← Green.descendants_root]
    exact List.mem_of_mem_filter (List.mem_of_getElem? h)
  | node kind nth =>
    rw [← Green.descendants_root]
    exact List.mem_of_mem_filter (List.mem_of_getElem? h)
  | atOffset n =>
    simp only [pick] at h
    split at h
    · exact Green.tokenAt_mem h
    · cases h
  | root =>
    cases h
    exact Green.root_mem_members root

namespace StepM

variable {w : Workspace} {α : Type}

theorem run_session (x : Session α) (w : Workspace) :
    (session x).run.run w = ((x.run.run w).1.mapError StepError.fault, (x.run.run w).2) := rfl

theorem session_sound {x : Session α} {Q : α → Workspace → Prop} (h : Sound w x Q) :
    Sound w (session x) Q := by
  intro hw
  obtain ⟨hc, hg, hq⟩ := h hw
  rw [run_session]
  refine ⟨hc, hg, fun a ha => hq a ?_⟩
  cases hr : (x.run.run w).1 with
  | error e =>
    rw [hr] at ha
    cases ha
  | ok b =>
    rw [hr] at ha
    cases ha
    rfl

theorem field_sound (f : Field α) : Sound w (field f) fun _ _ => True := by
  cases f with
  | error m => exact Sound.throw
  | ok a => exact Sound.pure trivial

theorem missing_sound {e : LookupError} {Q : α → Workspace → Prop} : Sound w (missing e) Q :=
  Sound.throw

end StepM

mutual

theorem FileRef.resolve_sound : ∀ (r : FileRef) (w : Workspace),
    Sound w r.resolve fun _ _ => True
  | .id n, w => Sound.pure trivial
  | .path p, w => by
    unfold FileRef.resolve
    refine Sound.bind Sound.get ?_
    rintro _ w₁ - - ⟨rfl, rfl⟩
    split
    · exact Sound.pure trivial
    · exact StepM.missing_sound
  | .expansionOf c, w => by
    unfold FileRef.resolve
    refine Sound.bind (CallRef.resolve_sound c w) ?_
    rintro call w₁ - - hc
    refine Sound.seq (StepM.session_sound
      ((expansion_sound hc).mono fun _ _ _ => trivial)) fun r w₂ _ => ?_
    split
    · exact Sound.pure trivial
    · exact StepM.missing_sound
  | .malformed m, w => Sound.throw

theorem CallRef.resolve_sound : ∀ (r : CallRef) (w : Workspace),
    Sound w r.resolve fun c w' => c.Genuine w'
  | .named file name nth, w => by
    unfold CallRef.resolve
    refine Sound.seq (FileRef.resolve_sound file w) fun f w₁ _ => ?_
    refine Sound.seq (StepM.field_sound nth) fun n w₂ _ => ?_
    refine Sound.bind Sound.get ?_
    rintro _ w₃ - - ⟨rfl, rfl⟩
    split
    · rename_i c hc
      exact Sound.pure
        (Workspace.callsIn_genuine (List.mem_of_mem_filter (List.mem_of_getElem? hc)))
    · exact StepM.missing_sound
  | .index file i, w => by
    unfold CallRef.resolve
    refine Sound.seq (FileRef.resolve_sound file w) fun f w₁ _ => ?_
    refine Sound.seq (StepM.field_sound i) fun n w₂ _ => ?_
    refine Sound.bind Sound.get ?_
    rintro _ w₃ - - ⟨rfl, rfl⟩
    split
    · rename_i c hc
      exact Sound.pure (Workspace.callsIn_genuine (List.mem_of_getElem? hc))
    · exact StepM.missing_sound
  | .producing file, w => by
    unfold CallRef.resolve
    refine Sound.seq (FileRef.resolve_sound file w) fun f w₁ _ => ?_
    refine Sound.bind Sound.get ?_
    rintro _ w₂ - - ⟨rfl, rfl⟩
    split
    · rename_i c hc
      exact Sound.pure (Workspace.expansionCall_genuine hc)
    · exact StepM.missing_sound

end

theorem ElementRef.resolve_sound {w : Workspace} (r : ElementRef) :
    Sound w r.resolve fun e w' => e.Genuine w' := by
  unfold ElementRef.resolve
  refine Sound.seq (FileRef.resolve_sound r.file w) fun f w₁ _ => ?_
  refine Sound.bind Sound.get ?_
  rintro _ w₂ - - ⟨rfl, rfl⟩
  split
  · rename_i root hroot
    refine Sound.bind (StepM.field_sound r.selector) fun s w₃ hg _ _ => ?_
    split
    · rename_i e he
      exact Sound.pure ⟨hg.tree? hroot, Selector.pick_mem he⟩
    · exact StepM.missing_sound
  · exact StepM.missing_sound

theorem ElementRef.resolveNode_sound {w : Workspace} (r : ElementRef) :
    Sound w r.resolveNode fun e w' => e.Genuine w' := by
  unfold ElementRef.resolveNode
  refine Sound.bind r.resolve_sound fun e w₁ _ _ he => ?_
  split
  · exact Sound.throw
  · exact Sound.pure he

theorem ElementRef.resolveToken_sound {w : Workspace} (r : ElementRef) :
    Sound w r.resolveToken fun e w' => e.Genuine w' := by
  unfold ElementRef.resolveToken
  refine Sound.bind r.resolve_sound fun e w₁ _ _ he => ?_
  split
  · exact Sound.pure he
  · exact Sound.throw

namespace StepM

variable {w : Workspace}

theorem call_sound (c : Field CallRef) : Sound w (call c) fun c w' => c.Genuine w' :=
  Sound.bind (field_sound c) fun r w₁ _ _ _ => r.resolve_sound w₁

theorem element_sound (e : Field ElementRef) : Sound w (element e) fun e w' => e.Genuine w' :=
  Sound.bind (field_sound e) fun r _ _ _ _ => r.resolve_sound

theorem node_sound (n : Field ElementRef) : Sound w (node n) fun e w' => e.Genuine w' :=
  Sound.bind (field_sound n) fun r _ _ _ _ => r.resolveNode_sound

theorem token_sound (t : Field ElementRef) : Sound w (token t) fun e w' => e.Genuine w' :=
  Sound.bind (field_sound t) fun r _ _ _ _ => r.resolveToken_sound

end StepM

namespace Step

variable {w : Workspace}

theorem expandRounds_visit_sound (limit : Nat) :
    ∀ (cs : List MacroCall) (acc : List (MacroCall × Option FileId)) (pushed : List FileId)
      (w : Workspace), (∀ c ∈ cs, c.Genuine w) →
      Sound w (expandRounds.visit limit cs acc pushed) fun _ _ => True
  | [], _, _, _, _ => Sound.pure trivial
  | c :: cs, acc, pushed, w, hcs => by
    unfold expandRounds.visit
    split
    · exact Sound.pure trivial
    · refine Sound.bind (expansion_sound (hcs c List.mem_cons_self)) fun r w₁ hg _ _ => ?_
      exact expandRounds_visit_sound limit cs _ _ w₁
        fun c' hc' => (hcs c' (List.mem_cons_of_mem c hc')).mono hg

theorem expandRounds_sound (limit : Nat) :
    ∀ (n : Nat) (stack : List FileId) (acc : List (MacroCall × Option FileId)) (w : Workspace),
      Sound w (expandRounds limit n stack acc) fun _ _ => True
  | 0, _, _, _ => Sound.pure trivial
  | _ + 1, [], _, _ => Sound.pure trivial
  | n + 1, f :: stack, acc, w => by
    unfold expandRounds
    refine Sound.bind Sound.get ?_
    rintro _ w₁ - - ⟨rfl, rfl⟩
    refine Sound.seq (expandRounds_visit_sound limit _ _ _ w₁
      fun c hc => Workspace.callsIn_genuine hc) fun r w₂ _ => ?_
    obtain ⟨acc', pushed, full⟩ := r
    dsimp only
    split
    · exact Sound.pure trivial
    · exact expandRounds_sound limit n _ _ w₂

theorem answer_sound {α β : Type} {x : Session α} {Q : α → Workspace → Prop} {g : α → β}
    (h : Sound w x Q) : Sound w (do return g (← StepM.session x) : StepM β) fun _ _ => True :=
  Sound.seq (StepM.session_sound (h.mono fun _ _ _ => trivial)) fun _ _ _ => Sound.pure trivial

theorem run_sound : ∀ (s : Step) (w : Workspace), Sound w s.run fun _ _ => True
  | expand c, w => by
    refine Sound.bind (StepM.call_sound c) fun call w₁ _ _ hc => ?_
    refine Sound.seq (StepM.session_sound ((expansion_sound hc).mono fun _ _ _ => trivial))
      fun r w₂ _ => ?_
    split
    · exact Sound.pure trivial
    · exact Sound.bind Sound.get fun _ _ _ _ _ => Sound.pure trivial
  | expandAll files limit, w =>
    Sound.seq (StepM.field_sound limit) fun _ w₁ _ =>
      Sound.seq (Sound.mapM (fun r w => FileRef.resolve_sound r w) files w₁) fun _ w₂ _ =>
        answer_sound (expandRounds_sound _ _ _ _ w₂)
  | file f, w =>
    Sound.seq (f.resolve_sound w) fun _ w₁ _ =>
      Sound.seq (StepM.session_sound (fileStartOffset_sound _)) fun _ _ _ =>
        Sound.bind Sound.get fun _ _ _ _ _ => Sound.pure trivial
  | calls f, w =>
    Sound.seq (f.resolve_sound w) fun _ _ _ => Sound.bind Sound.get fun _ _ _ _ _ => Sound.pure trivial
  | callInfo c, w =>
    Sound.bind (StepM.call_sound c) fun call _ _ _ _ =>
      Sound.seq (StepM.session_sound (bodyTextRange_sound call)) fun _ _ _ => Sound.pure trivial
  | element e, w => Sound.bind (StepM.element_sound e) fun _ _ _ _ _ => Sound.pure trivial
  | expandedFrom n, w =>
    Sound.bind (StepM.node_sound n) fun a _ _ _ _ => answer_sound (expandedFrom_sound a)
  | expandedOrIncludedFrom n, w =>
    Sound.bind (StepM.node_sound n) fun a _ _ _ _ => answer_sound (expandedOrIncludedFrom_sound a)
  | nonRecursive e, w =>
    Sound.bind (StepM.element_sound e) fun a _ _ _ _ => answer_sound (nonRecursiveCall_sound a)
  | outermost e, w =>
    Sound.bind (StepM.element_sound e) fun a _ _ _ _ => answer_sound (outermostCall_sound a)
  | includedFrom e, w =>
    Sound.bind (StepM.element_sound e) fun a _ _ _ _ => answer_sound (includedFrom_sound a.file)
  | leafCall e, w => Sound.bind (StepM.element_sound e) fun a _ _ _ _ => answer_sound (leafCall_sound a)
  | chain e, w =>
    Sound.bind (StepM.element_sound e) fun a _ _ _ _ =>
      Sound.seq (StepM.session_sound (expandedFromChain_sound a)) fun _ _ _ => Sound.pure trivial
  | depth e, w =>
    Sound.bind (StepM.element_sound e) fun a _ _ _ _ => answer_sound (expansionDepth_sound a)
  | isExpanded e, w =>
    Sound.bind (StepM.element_sound e) fun a _ _ _ _ => answer_sound (isExpanded_sound a)
  | isIncluded e, w =>
    Sound.bind (StepM.element_sound e) fun a _ _ _ _ => answer_sound (includedFrom_sound a.file)
  | cameFromMacroCall e, w =>
    Sound.bind (StepM.element_sound e) fun a _ _ _ _ => answer_sound (cameFromMacroCall_sound a)
  | isFileLevel n, w => Sound.bind (StepM.node_sound n) fun _ _ _ _ _ => Sound.pure trivial
  | elementExpandedFrom e strict, w =>
    Sound.bind (StepM.element_sound e) fun a _ _ _ _ => Sound.seq (StepM.field_sound strict)
      fun b _ _ => answer_sound (elementExpandedFrom_sound a b)
  | expansionElements t, w =>
    Sound.bind (StepM.token_sound t) fun _ _ _ _ ht => answer_sound (expansionElements_sound ht)
  | elementOrSelf t, w =>
    Sound.bind (StepM.token_sound t) fun _ _ _ _ ht => answer_sound (expansionElementOrSelf_sound ht)
  | navigationTarget e, w =>
    Sound.bind (StepM.element_sound e) fun a _ _ _ _ => answer_sound (navigationTarget_sound a)
  | offsetInFile e offset range target, w =>
    Sound.bind (StepM.element_sound e) fun _ _ _ _ _ => Sound.seq (StepM.field_sound offset)
      fun _ _ _ => Sound.seq (StepM.field_sound range) fun _ w₃ _ =>
        Sound.seq (target.resolve_sound w₃) fun _ _ _ => answer_sound (offsetInFile_sound _ _ _ _)
  | inlayHintOffset e target, w =>
    Sound.bind (StepM.element_sound e) fun _ w₁ _ _ _ =>
      Sound.seq (target.resolve_sound w₁) fun _ _ _ => answer_sound (inlayHintOffset_sound _ _)
  | frames e, w => Sound.bind (StepM.element_sound e) fun a _ _ _ _ => answer_sound (frames_sound a)
  | getContext n access, w =>
    Sound.bind (StepM.node_sound n) fun _ _ _ _ _ => Sound.seq (StepM.field_sound access)
      fun _ _ _ => answer_sound (getContext_sound _ _)
  | setContext n ctx, w =>
    Sound.bind (StepM.node_sound n) fun _ _ _ _ _ => Sound.bind (StepM.node_sound ctx) fun _ _ _ _ _ =>
      Sound.seq (StepM.session_sound (modifyOverlay_sound _)) fun _ _ _ => Sound.pure trivial
  | forgetFile f, w =>
    Sound.seq (f.resolve_sound w) fun _ _ _ =>
      Sound.seq (StepM.session_sound (modifyOverlay_sound _)) fun _ _ _ => Sound.pure trivial
  | crateOfFile f, w =>
    Sound.seq (f.resolve_sound w) fun _ _ _ => answer_sound (crateOfFile_sound _)
  | ancestors n limit access, w =>
    Sound.bind (StepM.node_sound n) fun _ _ _ _ _ => Sound.seq (StepM.field_sound limit) fun _ _ _ =>
      Sound.seq (StepM.field_sound access) fun _ _ _ =>
        answer_sound (ancestorsWithContexts_sound _ _ _)
  | offsetToBody c offset, w =>
    Sound.bind (StepM.call_sound c) fun _ _ _ _ hc => Sound.seq (StepM.field_sound offset)
      fun _ _ hg => answer_sound (offsetToBody_sound (hc.mono hg) _)
  | offsetToExpansion c offset, w => by
    refine Sound.bind (StepM.call_sound c) fun call w₁ _ _ hc => ?_
    refine Sound.seq (StepM.session_sound ((expansion_sound hc).mono fun _ _ _ => trivial))
      fun r w₂ _ => ?_
    split
    · exact Sound.seq (StepM.field_sound offset) fun _ _ _ =>
        answer_sound (offsetToExpansion_sound _ _ _)
    · exact StepM.missing_sound
  | rangeToBody c range, w =>
    Sound.bind (StepM.call_sound c) fun _ _ _ _ hc => Sound.seq (StepM.field_sound range)
      fun _ _ hg => answer_sound (rangeToBody_sound (hc.mono hg) _)
  | rangeToBodyStrict c range, w =>
    Sound.bind (StepM.call_sound c) fun _ _ _ _ hc => Sound.seq (StepM.field_sound range)
      fun _ _ hg => answer_sound (rangeToBodyStrict_sound (hc.mono hg) _)
  | elementRange e, w =>
    Sound.bind (StepM.element_sound e) fun a _ _ _ _ => answer_sound (elementRange_sound a)
  | fileStartOffset f, w =>
    Sound.seq (f.resolve_sound w) fun _ _ _ => answer_sound (fileStartOffset_sound _)
  | tokenStartingAt f offset, w =>
    Sound.seq (f.resolve_sound w) fun _ _ _ => Sound.seq (StepM.field_sound offset) fun _ _ _ =>
      answer_sound (tokenStartingAt_sound _ _)

theorem exec_sound (s : Step) {w : Workspace} (hw : w.Coherent) :
    (s.exec w).2.Coherent ∧ w.Grows (s.exec w).2 :=
  (run_sound s w hw).imp_right And.left

end Step

namespace Workspace

theorem Coherent.of_empty {w : Workspace} (hfiles : ∀ f, w.file? f = none)
    (hnone : ∀ k, w.expansions k = none) : w.Coherent where
  parsed f x hx := by
    rw [hfiles] at hx
    cases hx
  produced f x k hx := by
    rw [hfiles] at hx
    cases hx
  keys k v hk := by
    rw [hnone] at hk
    cases hk
  cached k e hk := by
    rw [hnone] at hk
    cases hk

theorem foldl_define (ms : List (String × MacroSpec)) : ∀ w : Workspace,
    let w' := ms.foldl (fun w x => w.define x.1 x.2.toDef) w
    w'.files = w.files ∧ w'.expansions = w.expansions ∧ w'.mapOverride = w.mapOverride := by
  induction ms with
  | nil => intro w; exact ⟨rfl, rfl, rfl⟩
  | cons m ms ih => intro w; exact ih (w.define m.1 m.2.toDef)

theorem foldl_addSource (ss : List SourceSpec) : ∀ p : List FileId × Workspace, p.2.Coherent →
    let q := ss.foldl (fun x s => (x.1 ++ [(x.2.addSource s.path s.text s.crate).1],
      (x.2.addSource s.path s.text s.crate).2)) p
    q.2.Coherent ∧ q.2.mapOverride = p.2.mapOverride := by
  induction ss with
  | nil => intro p hp; exact ⟨hp, rfl⟩
  | cons s ss ih =>
    intro p hp
    exact ih _ (hp.addFile _ _ _ _ fun _ h => by cases h)

/-- A created workspace is the source files added in order to a workspace where the macros were
registered in order, starting from one with the depth limit and the map the override builds,
if any. -/
theorem create_eq_ok {macros sources maxDepth override w ids}
    (h : create macros sources maxDepth override = .ok (w, ids)) :
    ∃ replacement : Option OffsetMap, (override = none → replacement = none) ∧
      w = (sources.foldl (fun x s => (x.1 ++ [(x.2.addSource s.path s.text s.crate).1],
        (x.2.addSource s.path s.text s.crate).2))
        ([], macros.foldl (fun w x => w.define x.1 x.2.toDef)
          { maxDepth, mapOverride := replacement })).2 := by
  unfold create at h
  simp only at h
  cases override with
  | none =>
    simp only [bind, Except.bind, pure, Except.pure, Except.ok.injEq, Prod.mk.injEq] at h
    exact ⟨none, fun _ => rfl, h.1.symm⟩
  | some segs =>
    cases hm : OffsetMap.ofList segs with
    | error e =>
      simp only [hm, Functor.map, Except.map, bind, Except.bind, reduceCtorEq] at h
    | ok m =>
      simp only [hm, Functor.map, Except.map, bind, Except.bind, pure, Except.pure,
        Except.ok.injEq, Prod.mk.injEq] at h
      exact ⟨some m, fun h => absurd h (Option.some_ne_none segs), h.1.symm⟩

theorem create_coherent {macros sources maxDepth override w ids}
    (h : create macros sources maxDepth override = .ok (w, ids)) :
    w.Coherent ∧ (override = none → w.mapOverride = none) := by
  obtain ⟨replacement, hnone, rfl⟩ := create_eq_ok h
  obtain ⟨hf, he, ho⟩ := foldl_define macros { maxDepth, mapOverride := replacement }
  have hstart : (macros.foldl (fun w x => w.define x.1 x.2.toDef)
      ({ maxDepth, mapOverride := replacement } : Workspace)).Coherent :=
    Coherent.of_empty (fun f => by simp [file?, hf]) (fun k => by rw [he])
  obtain ⟨hc, ho'⟩ := foldl_addSource sources ([], _) hstart
  exact ⟨hc, fun hn => ho'.trans (ho.trans (hnone hn))⟩

theorem create_override {macros : List (String × MacroSpec)} {sources : List SourceSpec}
    {maxDepth : Nat} {segs : List Segment} {m : OffsetMap} {w : Workspace} {ids : List FileId}
    (hm : OffsetMap.ofList segs = .ok m) (h : create macros sources maxDepth none = .ok (w, ids)) :
    create macros sources maxDepth (some segs) = .ok ({ w with mapOverride := some m }, ids) := by
  have hdef : ∀ (ms : List (String × MacroSpec)) (v : Workspace),
      ms.foldl (fun w x => w.define x.1 x.2.toDef) { v with mapOverride := some m } =
        { ms.foldl (fun w x => w.define x.1 x.2.toDef) v with mapOverride := some m } := by
    intro ms
    induction ms with
    | nil => intro v; rfl
    | cons x ms ih => intro v; exact ih (v.define x.1 x.2.toDef)
  have hsrc : ∀ (ss : List SourceSpec) (ids : List FileId) (v : Workspace),
      ss.foldl (fun x s => (x.1 ++ [(x.2.addSource s.path s.text s.crate).1],
        (x.2.addSource s.path s.text s.crate).2)) (ids, { v with mapOverride := some m }) =
      ((ss.foldl (fun x s => (x.1 ++ [(x.2.addSource s.path s.text s.crate).1],
          (x.2.addSource s.path s.text s.crate).2)) (ids, v)).1,
        { (ss.foldl (fun x s => (x.1 ++ [(x.2.addSource s.path s.text s.crate).1],
          (x.2.addSource s.path s.text s.crate).2)) (ids, v)).2 with mapOverride := some m }) := by
    intro ss
    induction ss with
    | nil => intro ids v; rfl
    | cons s ss ih => intro ids v; exact ih _ (v.addSource s.path s.text s.crate).2
  unfold create at h ⊢
  simp only [hm, Functor.map, Except.map, bind, Except.bind, pure, Except.pure] at h ⊢
  obtain ⟨rfl, rfl⟩ := Prod.mk.inj (Except.ok.inj h)
  have hstart : List.foldl (fun w x => w.define x.1 x.2.toDef)
      ({ maxDepth, mapOverride := some m } : Workspace) macros =
      { List.foldl (fun w x => w.define x.1 x.2.toDef) ({ maxDepth } : Workspace) macros with
        mapOverride := some m } := hdef macros { maxDepth }
  rw [hstart, hsrc]

/-- The workspaces a request reaches when it gives a map override: the one it creates, then the
one each step leaves. -/
inductive Reachable (override : Option (List Segment)) : Workspace → Prop
  | create {macros sources maxDepth w ids} :
      create macros sources maxDepth override = .ok (w, ids) → Reachable override w
  | step {w : Workspace} (s : Step) : Reachable override w → Reachable override (s.exec w).2

theorem Reachable.coherent {override : Option (List Segment)} {w : Workspace}
    (h : w.Reachable override) : w.Coherent := by
  induction h with
  | create hc => exact (create_coherent hc).1
  | step s _ ih => exact (Step.exec_sound s ih).1

theorem Reachable.mapOverride {w : Workspace} (h : w.Reachable none) : w.mapOverride = none := by
  induction h with
  | create hc => exact (create_coherent hc).2 rfl
  | step s hr ih => exact (Step.exec_sound s hr.coherent).2.mapOverride.trans ih

end Workspace

end MacroTrace
