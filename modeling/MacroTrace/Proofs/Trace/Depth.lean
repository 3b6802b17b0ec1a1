import MacroTrace.Proofs.Context.Links
/-! Depth limits along a chain of expansions. A chain leads from a file, through the calls that
made each file, up to a file no call made. The lookups that walk such a chain each count against
the depth limit in their own way. The chain of calls an element was expanded from, the crate of a
file, the offset mapped back to its source and the range mapped back to its source all follow at
most as many expansions as the limit. The climb to a call-site context passes through one more.
The forward walk over copies makes the first copies before it reads the limit. -/
namespace MacroTrace

namespace Workspace

variable {w w' : Workspace}

/-- `w.CallChain P f n top`: following the calls that made them, `n` expansions lead from the file
`f` up to the file `top`, which no call made; every call on the way satisfies `P`. -/
inductive CallChain (w : Workspace) (P : MacroCall → Prop) : FileId → Nat → FileId → Prop
  | top {f : FileId} : w.expansionCall f = none → CallChain w P f 0 f
  | step {f : FileId} {c : MacroCall} {n : Nat} {top : FileId} : w.expansionCall f = some c →
      P c → CallChain w P c.file n top → CallChain w P f (n + 1) top

/-- The calls that made the files above `f`, innermost first, at most `k` of them. -/
def callsUp (w : Workspace) : Nat → FileId → List MacroCall
  | 0, _ => []
  | k + 1, f =>
    match w.expansionCall f with
    | none => []
    | some c => c :: w.callsUp k c.file

@[simp] theorem callsUp_zero (f : FileId) : w.callsUp 0 f = [] := rfl

theorem callsUp_succ_of_none {f : FileId} (h : w.expansionCall f = none) (k : Nat) :
    w.callsUp (k + 1) f = [] := by
  simp only [callsUp, h]

theorem callsUp_succ_of_call {f : FileId} {c : MacroCall} (h : w.expansionCall f = some c)
    (k : Nat) : w.callsUp (k + 1) f = c :: w.callsUp k c.file := by
  simp only [callsUp, h]

namespace CallChain

variable {P Q : MacroCall → Prop} {f top : FileId} {n : Nat}

theorem unique {m : Nat} {top' : FileId} (h : w.CallChain P f n top)
    (h' : w.CallChain Q f m top') : n = m ∧ top = top' := by
  induction h generalizing m with
  | top hf =>
    cases h' with
    | top _ => exact ⟨rfl, rfl⟩
    | step hf' _ _ => rw [hf] at hf'; cases hf'
  | step hf _ _ ih =>
    cases h' with
    | top hf' => rw [hf] at hf'; cases hf'
    | step hf' _ hc' =>
      rw [hf, Option.some.injEq] at hf'
      subst hf'
      obtain ⟨rfl, rfl⟩ := ih hc'
      exact ⟨rfl, rfl⟩

theorem top_none (h : w.CallChain P f n top) : w.expansionCall top = none := by
  induction h with
  | top hf => exact hf
  | step _ _ _ ih => exact ih

theorem eq_zero (h : w.CallChain P f n top) (hf : w.expansionCall f = none) : n = 0 := by
  cases h with
  | top _ => rfl
  | step hf' _ _ => rw [hf] at hf'; cases hf'

theorem of_call {c : MacroCall} (h : w.CallChain P f n top) (hf : w.expansionCall f = some c) :
    ∃ m, n = m + 1 ∧ P c ∧ w.CallChain P c.file m top := by
  cases h with
  | top hf' => rw [hf] at hf'; cases hf'
  | step hf' hp hc =>
    rw [hf, Option.some.injEq] at hf'
    subst hf'
    exact ⟨_, rfl, hp, hc⟩

theorem top_file (h : w.CallChain P f n top) (hf : (w.file? f).isSome) : (w.file? top).isSome := by
  induction h with
  | top _ => exact hf
  | step hc _ _ ih =>
    obtain ⟨x, hx⟩ := file?_of_tree? (expansionCall_genuine hc).1.1
    exact ih (by rw [MacroCall.element_file] at hx; simp [hx])

theorem rootOf?_top (h : w.CallChain P f n top) (hpos : 0 < n) : (w.rootOf? top).isSome := by
  induction h with
  | top _ => omega
  | @step f c n top hc _ hrest ih =>
    cases hrest with
    | top _ =>
      have htree : w.tree? c.file = some c.root := (expansionCall_genuine hc).1.1
      simp [rootOf?, htree]
    | step _ _ _ => exact ih (by omega)

theorem weaken (h : w.CallChain P f n top) (hPQ : ∀ c, P c → Q c) : w.CallChain Q f n top := by
  induction h with
  | top hf => exact .top hf
  | step hf hp _ ih => exact .step hf (hPQ _ hp) ih

theorem mono (hw : w.Coherent) (hg : w.Grows w') (h : w.CallChain P f n top)
    (htop : (w.file? top).isSome) : w'.CallChain P f n top := by
  induction h with
  | top hf =>
    obtain ⟨x, hx⟩ := Option.isSome_iff_exists.1 htop
    exact .top ((hw.expansionCall_grows hg hx).trans hf)
  | step hf hp _ ih => exact .step (hg.expansionCall hf) hp (ih htop)

theorem length_callsUp (h : w.CallChain P f n top) (k : Nat) :
    (w.callsUp k f).length = min n k := by
  induction h generalizing k with
  | top hf => cases k <;> simp [callsUp_succ_of_none hf]
  | step hf _ _ ih =>
    cases k with
    | zero => simp
    | succ k =>
      rw [callsUp_succ_of_call hf, List.length_cons, ih]
      omega

end CallChain

theorem Copied.callChain {t b : FileElement} {k : Nat} (h : w.Copied t b k)
    (hsrc : w.expansionCall t.file = none) : w.CallChain (fun _ => True) b.file k t.file := by
  induction h with
  | first hs =>
    rw [hs.file]
    refine .step hs.origin trivial ?_
    rw [hs.call_file]
    exact .top hsrc
  | next _ hs ih =>
    rw [hs.file]
    refine .step hs.origin trivial ?_
    rw [hs.call_file]
    exact ih

theorem fileCrate_of_expansionCall {f : FileId} {c : MacroCall} (h : w.expansionCall f = some c) :
    w.fileCrate f = none := by
  unfold expansionCall at h
  unfold fileCrate
  split at h
  · rename_i hx
    rw [hx]
  · cases h

theorem Coherent.tree_isToken (hw : w.Coherent) {f : FileId} {root : Green}
    (h : w.tree? f = some root) : root.isToken = false := by
  simp only [tree?, Option.map_eq_some_iff] at h
  obtain ⟨x, hx, rfl⟩ := h
  obtain ⟨entry, hentry⟩ := hw.parsed f x hx
  rw [hentry]
  rfl

theorem Grows.withOverlay (w : Workspace) (o : Overlay) : w.Grows { w with overlay := o } :=
  Grows.of_fields rfl rfl rfl rfl rfl rfl

theorem Coherent.withOverlay (h : w.Coherent) (o : Overlay) :
    ({ w with overlay := o } : Workspace).Coherent :=
  h.of_fields rfl rfl rfl rfl rfl

end Workspace

/-- A function-like call written at file level: the file-level nodes of its expansion climb to
its file. -/
def MacroCall.FileLevelFnLike (c : MacroCall) : Prop :=
  c.kind = .fnLike ∧ c.element.isFileLevel = true

/-- No context is set, inherited or remembered for a file. -/
structure Overlay.Untouched (o : Overlay) (f : FileId) : Prop where
  explicit : o.explicit f = none
  inherited : o.inherited f = none
  callSite : o.callSite f = none

namespace FileElement

variable {w : Workspace} {e : FileElement}

theorem Genuine.node? (hw : w.Coherent) (h : e.Genuine w) :
    ∃ n, e.node? = some n ∧ n.Genuine w ∧ n.file = e.file := by
  unfold FileElement.node?
  cases ht : e.isToken with
  | false => exact ⟨e, rfl, h, rfl⟩
  | true =>
    cases htr : e.elem.trail with
    | nil =>
      have hroot : e.elem = Element.root e.root :=
        Green.eq_of_trail_eq h.2 (Green.root_mem_members e.root) (by simp [htr, Element.root])
      have := hw.tree_isToken h.1
      simp [FileElement.isToken, Element.isToken, hroot, Element.root, this] at ht
    | cons i t =>
      obtain ⟨p, hp, hpm, -⟩ := Green.parent?_of_trail h.2 htr
      exact ⟨e.withElem p, by simp [FileElement.parent?, hp], ⟨h.1, hpm⟩, rfl⟩

end FileElement

namespace Session

variable {w : Workspace}

/-! ### The chain of calls -/

theorem firstSome_expandedFrom_run {f : FileId} : ∀ (l : List FileElement), (∀ a ∈ l, a.file = f) →
    (∃ a ∈ l, a.isFileLevel = true) →
      (firstSome expandedFrom l).run.run w = (.ok (w.expansionCall f), w)
  | [], _, ⟨_, ha, _⟩ => absurd ha List.not_mem_nil
  | a :: l, hf, ⟨b, hb, hlevel⟩ => by
    have hrest : ∀ a' ∈ l, a'.file = f := fun a' ha' => hf a' (List.mem_cons_of_mem _ ha')
    cases ha : a.isFileLevel with
    | true =>
      have hrun : (expandedFrom a).run.run w = (.ok (w.expansionCall f), w) := by
        simp [expandedFrom, ha, hf a List.mem_cons_self]
      cases hc : w.expansionCall f with
      | some c => simp only [firstSome, run_bind, hrun, hc, run_pure]
      | none =>
        simp only [firstSome, run_bind, hrun, hc]
        exact firstSome_run_none l fun a' ha' =>
          expandedFrom_run_of_none ((hrest a' ha').symm ▸ hc)
    | false =>
      have hrun : (expandedFrom a).run.run w = (.ok none, w) := by
        simp only [expandedFrom, ha, Bool.not_false, if_true]
        rfl
      have hb' : b ∈ l := by
        rcases List.mem_cons.1 hb with rfl | hb
        · rw [ha] at hlevel
          cases hlevel
        · exact hb
      simp only [firstSome, run_bind, hrun]
      exact firstSome_expandedFrom_run l hrest ⟨b, hb', hlevel⟩

theorem nonRecursiveCall_run (hw : w.Coherent) {e : FileElement} (he : e.Genuine w) :
    (nonRecursiveCall e).run.run w = (.ok (w.expansionCall e.file), w) := by
  obtain ⟨n, hn, hng, hnf⟩ := he.node? hw
  have hroot : n.withElem (Element.root n.root) ∈ n.ancestors :=
    List.mem_map_of_mem (Green.mem_ancestors (Green.root_mem_members n.root) hng.2
      List.nil_suffix)
  have hfile : ∀ a ∈ n.ancestors, a.file = n.file := by
    intro a ha
    simp only [FileElement.ancestors, List.mem_map] at ha
    obtain ⟨x, -, rfl⟩ := ha
    rfl
  unfold nonRecursiveCall
  simp only [hn]
  rw [← hnf]
  exact firstSome_expandedFrom_run n.ancestors hfile ⟨_, hroot, rfl⟩

theorem callExpandedFrom_run (hw : w.Coherent) {c : MacroCall} (hc : c.Genuine w) :
    (callExpandedFrom c).run.run w = (.ok (w.expansionCall c.file), w) :=
  nonRecursiveCall_run hw hc.1

/-- Collecting the chain of calls from a file `m` expansions below its top, with `y` calls
collected so far, collects the calls above the file up to the limit, and reports the limit
exceeded exactly when calls remain once `limit` are collected. -/
theorem expandedFromChain_go_callsUp (hw : w.Coherent) {P : MacroCall → Prop} {limit : Nat}
    {f top : FileId} {m : Nat} (h : w.CallChain P f m top) : ∀ (y : Nat) (acc : List MacroCall),
      y ≤ limit → (expandedFromChain.go limit (w.expansionCall f) y acc).run.run w =
        (.ok (acc.reverse ++ w.callsUp (limit - y) f, decide (limit < y + m)), w) := by
  induction h with
  | @top g hf =>
    intro y acc hy
    have hflag : decide (limit < y + 0) = false := by simp only [decide_eq_false_iff_not]; omega
    have hcalls : w.callsUp (limit - y) g = [] := by
      cases limit - y <;> simp [Workspace.callsUp_succ_of_none hf]
    rw [expandedFromChain.go.eq_def, hf, hflag, hcalls, List.append_nil]
    split <;> rfl
  | @step f c n top hf hp hc ih =>
    intro y acc hy
    rw [expandedFromChain.go.eq_def, hf]
    by_cases hy' : y ≥ limit
    · obtain rfl : y = limit := by omega
      have hflag : decide (y < y + (n + 1)) = true := by simp only [decide_eq_true_iff]; omega
      rw [if_pos hy', hflag, Nat.sub_self, Workspace.callsUp_zero, List.append_nil]
      rfl
    · obtain ⟨k, hk⟩ : ∃ k, limit - y = k + 1 := ⟨limit - y - 1, by omega⟩
      have hk' : limit - (y + 1) = k := by omega
      simp only [hy', if_false, run_bind,
        callExpandedFrom_run hw (Workspace.expansionCall_genuine hf), ih (y + 1) (c :: acc) (by omega),
        hk, hk', Workspace.callsUp_succ_of_call hf, List.reverse_cons, List.append_assoc,
        List.singleton_append, Nat.add_assoc, Nat.add_comm 1 n]

theorem expandedFromChain_run_callsUp (hw : w.Coherent) {P : MacroCall → Prop} {e : FileElement}
    (he : e.Genuine w) {m : Nat} {top : FileId} (h : w.CallChain P e.file m top) :
    (expandedFromChain e).run.run w =
      (.ok (w.callsUp w.maxDepth e.file, decide (w.maxDepth < m)), w) := by
  unfold expandedFromChain
  simp only [run_bind, run_maxDepth, nonRecursiveCall_run hw he,
    expandedFromChain_go_callsUp hw h 0 [] (Nat.zero_le w.maxDepth), List.reverse_nil,
    List.nil_append, Nat.sub_zero, Nat.zero_add]

theorem expansionDepth_chain (hw : w.Coherent) {P : MacroCall → Prop} {e : FileElement}
    (he : e.Genuine w) {m : Nat} {top : FileId} (h : w.CallChain P e.file m top) :
    (expansionDepth e).run.run w = (.ok (if m ≤ w.maxDepth then some m else none), w) := by
  unfold expansionDepth
  simp only [run_bind, expandedFromChain_run_callsUp hw he h, run_pure]
  by_cases hm : m ≤ w.maxDepth
  · rw [h.length_callsUp, Nat.min_eq_left hm]
    simp [Nat.not_lt.2 hm, hm]
  · simp only [hm, if_false, decide_eq_true (by omega : w.maxDepth < m), if_true]

/-! ### The crate of a file -/

theorem crateOfFile_go_chain {P : MacroCall → Prop}
    (hP : ∀ c, P c → w.overlay.Untouched c.file) {f top : FileId} {m : Nat}
    (h : w.CallChain P f m top) (hf : w.overlay.Untouched f) (hinc : w.includedFrom top = none) :
    ∀ fuel, (crateOfFile.go fuel f).run.run w =
      (.ok (if m < fuel then w.fileCrate top else none), w) := by
  induction h with
  | @top f hnone =>
    intro fuel
    cases fuel with
    | zero => rfl
    | succ fuel =>
      cases hc : w.fileCrate f with
      | some k => rw [crateOfFile_go_of_crate hc, if_pos (Nat.succ_pos _)]
      | none =>
        rw [crateOfFile_go_of_call hc hf.inherited, hnone, hinc, if_pos (Nat.succ_pos _)]
  | @step f c n top hcall hp hc ih =>
    intro fuel
    cases fuel with
    | zero => rfl
    | succ fuel =>
      rw [crateOfFile_go_of_call (Workspace.fileCrate_of_expansionCall hcall) hf.inherited, hcall]
      simp only [ih (hP c hp) hinc fuel, Nat.add_lt_add_iff_right]

theorem crateOfFile_chain {P : MacroCall → Prop} (hP : ∀ c, P c → w.overlay.Untouched c.file)
    {f top : FileId} {m : Nat} (h : w.CallChain P f m top) (hf : w.overlay.Untouched f)
    (hinc : w.includedFrom top = none) :
    (crateOfFile f).run.run w = (.ok (if m ≤ w.maxDepth then w.fileCrate top else none), w) := by
  simp only [crateOfFile, run_bind, run_maxDepth, crateOfFile_go_chain hP h hf hinc,
    Nat.lt_succ_iff]

/-! ### The call-site context -/

theorem run_explicitContext_none {f : FileId} (h : w.overlay.explicit f = none) :
    (explicitContext f).run.run w = (.ok none, w) := by
  simp only [explicitContext, run_bind, run_overlay, h]
  rfl

theorem run_rememberedContext_none {f : FileId} (h : w.overlay.callSite f = none) :
    (rememberedContext f).run.run w = (.ok none, w) := by
  simp only [rememberedContext, run_bind, run_overlay, h]
  rfl

/-- One step of the climb from a file made by a function-like call written at file level of a
file with no context: the climb goes on to that file when it is an expansion or included, and
ends at its root otherwise. -/
theorem run_climbStep_fileLevel {f : FileId} {c : MacroCall} (hf : w.expansionCall f = some c)
    (hc : c.FileLevelFnLike) (hx : w.overlay.explicit c.file = none)
    (hm : w.overlay.callSite c.file = none) :
    (climbStep f).run.run w = (.ok (f, match w.expansionCall c.file, w.includedFrom c.file with
      | none, none => .found c.element.fileRoot
      | _, _ => .next c.file), w) := by
  have hkind := (Workspace.expansionCall_genuine hf).2
  obtain ⟨file, kind, root, node⟩ := c
  obtain ⟨hk, hlevel⟩ := hc
  dsimp only at hk hkind
  subst hk
  simp only [if_true] at hkind
  simp only [MacroCall.element, FileElement.isFileLevel] at hlevel
  simp only [climbStep, run_bind, run_expansionCall, hf, run_pure, MacroCall.owner?,
    Bool.false_eq_true, if_false, FileElement.kind, hkind, reduceCtorEq, beq_iff_eq,
    FileElement.isFileLevel, hlevel, Bool.not_true, run_explicitContext_none hx,
    run_rememberedContext_none hm]
  cases hc : w.expansionCall file with
  | some _ => simp only [Option.isSome_some, if_true, run_pure]
  | none =>
    simp only [Option.isSome_none, Bool.false_eq_true, if_false, run_bind, run_includedFrom]
    cases w.includedFrom file <;> rfl

theorem run_forIn_remember (p : NodePtr) : ∀ (l : List FileId) (w : Workspace),
    (forIn l PUnit.unit fun g _ => do
      modifyOverlay fun x => x.remember g p
      pure (ForInStep.yield PUnit.unit) : Session PUnit).run.run w =
      (.ok PUnit.unit, { w with overlay := l.foldl (fun o g => o.remember g p) w.overlay })
  | [], _ => rfl
  | g :: l, w => by
    simp only [List.forIn_cons, run_bind, run_modifyOverlay, run_pure]
    exact run_forIn_remember p l _

/-- The climb from a file `m` expansions below its top, through file-level function-like calls
in files with no contexts set or remembered, reaches the root of the top once `m - 1` more files
fit beside those already passed; the fuel it is given always suffices. -/
theorem climb_chain {P : MacroCall → Prop}
    (hP : ∀ c, P c → c.FileLevelFnLike ∧ w.overlay.Untouched c.file) {limit : Nat} {top : FileId}
    (hinc : w.includedFrom top = none) {f : FileId} {m : Nat} (h : w.CallChain P f m top)
    (hpos : 0 < m) :
    ∀ (fuel : Nat) (visited : List FileId), limit + 2 ≤ fuel + visited.length →
      ((climb limit fuel f visited).run.run w).1 =
        .ok (if visited.length + m ≤ limit + 1 then w.rootOf? top else none) := by
  induction h with
  | top _ => omega
  | @step f c n top hf hp hc ih =>
    intro fuel v hfuel
    cases fuel with
    | zero =>
      rw [if_neg (by omega)]
      rfl
    | succ fuel =>
      by_cases hv : v.length > limit
      · rw [if_neg (by omega)]
        simp only [climb, hv, if_true, run_pure]
      have hstep := run_climbStep_fileLevel hf (hP c hp).1 (hP c hp).2.explicit
        (hP c hp).2.callSite
      cases hc with
      | top htop =>
        simp only [htop, hinc] at hstep
        have htree : w.tree? c.file = some c.root := (Workspace.expansionCall_genuine hf).1.1
        have hroot : w.rootOf? c.file = some c.element.fileRoot := by
          simp [Workspace.rootOf?, htree, FileElement.fileRoot, MacroCall.element,
            FileElement.withElem]
        simp only [climb, hv, if_false, run_bind, hstep, run_forIn_remember, run_pure]
        rw [if_pos (by omega), hroot]
      | step hf' _ _ =>
        simp only [hf'] at hstep
        simp only [climb, hv, if_false, run_bind, hstep]
        rw [ih hinc (by omega) fuel (f :: v) (by simp only [List.length_cons]; omega)]
        rw [List.length_cons, Nat.add_assoc, Nat.add_comm 1]

/-- A file-level node of a file `m` expansions below its top, through file-level function-like
calls, with no contexts set or remembered for any file on the way, has the top's root as its
context when the index may be consulted and `m` is at most one more than the limit; otherwise its
structural parent. -/
theorem getContext_chain {P : MacroCall → Prop}
    (hP : ∀ c, P c → c.FileLevelFnLike ∧ w.overlay.Untouched c.file) {top : FileId}
    (hinc : w.includedFrom top = none) {x : FileElement} (hlevel : x.isFileLevel = true)
    (hx : w.overlay.Untouched x.file) {m : Nat} (h : w.CallChain P x.file m top) (hpos : 0 < m) :
    ((getContext x .allowed).run.run w).1 =
      .ok (if m ≤ w.maxDepth + 1 then w.rootOf? top else x.parent?) := by
  have hclimb := climb_chain hP hinc h hpos (w.maxDepth + 2) []
    (by simp : w.maxDepth + 2 ≤ w.maxDepth + 2 + ([] : List FileId).length)
  simp only [List.length_nil, Nat.zero_add] at hclimb
  obtain ⟨w', hrun⟩ : ∃ w', (climb w.maxDepth (w.maxDepth + 2) x.file []).run.run w =
      (.ok (if m ≤ w.maxDepth + 1 then w.rootOf? top else none), w') := ⟨_, Prod.ext hclimb rfl⟩
  unfold getContext callSiteContext
  simp only [hlevel, Bool.not_true, Bool.false_eq_true, if_false, run_bind,
    run_explicitContext_none hx.explicit, beq_self_eq_true, if_true,
    run_rememberedContext_none hx.callSite,
    run_maxDepth, hrun]
  by_cases hle : m ≤ w.maxDepth + 1
  · obtain ⟨r, hr⟩ := Option.isSome_iff_exists.1 (h.rootOf?_top hpos)
    simp only [hle, if_true, hr]
    rfl
  · simp only [hle, if_false]
    rfl

/-! ### Mapping back past the limit -/

theorem callAndOffset_go_at_limit {f : FileId} {c : MacroCall} (hf : w.expansionCall f = some c)
    (limit n off : Nat) (reached : Option (MacroCall × Nat)) :
    (callAndOffset.go limit (n + 1) f off limit reached).run.run w = (.ok none, w) := by
  simp only [callAndOffset.go, run_bind, run_expansionCall, hf, beq_self_eq_true, if_true, run_pure]

/-- Mapping a copy's virtual start outwards, with the copy `k` expansions below its token and the
walk already `depth` levels out, gives up once `limit` levels are left behind with a call still
to leave, which happens exactly when the copy lies deeper than the levels that remain. -/
theorem callAndOffset_go_past_limit (hw : w.Coherent) (hnone : w.mapOverride = none)
    {t : FileElement} {limit : Nat} {b : FileElement} {k : Nat} (h : w.Copied t b k) :
    ∀ (n depth base : Nat) (reached : Option (MacroCall × Nat)), w.FileBase b.file base →
      depth ≤ limit → limit < k + depth → limit - depth < n →
      (callAndOffset.go limit n b.file (b.elem.start + base) depth reached).run.run w =
        (.ok none, w) := by
  induction h with
  | @first b c e hs =>
    intro n depth base reached _ hle hlt hn
    obtain ⟨n, rfl⟩ : ∃ m, n = m + 1 := ⟨n - 1, by omega⟩
    rw [show depth = limit by omega]
    exact callAndOffset_go_at_limit (hs.file ▸ hs.origin) limit n _ reached
  | @next a b c e k _ hs ih =>
    intro n depth base reached hfb hle hlt hn
    obtain ⟨n, rfl⟩ : ∃ m, n = m + 1 := ⟨n - 1, by omega⟩
    by_cases hd : depth = limit
    · subst hd
      exact callAndOffset_go_at_limit (hs.file ▸ hs.origin) depth n _ reached
    · obtain ⟨base', hfa, hstep⟩ := callAndOffset_go_step hw hnone hs hfb limit depth hd n reached
      rw [hstep]
      exact ih n (depth + 1) base' _ hfa (by omega) (by omega) (by omega)

theorem elementExpandedFrom_past_limit (hw : w.Coherent) (hnone : w.mapOverride = none)
    {t b : FileElement} {k : Nat} (h : w.Copied t b k) (hk : w.maxDepth < k) (strict : Bool) :
    (elementExpandedFrom b strict).run.run w = (.ok none, w) := by
  obtain ⟨a, c, e, hlast⟩ := h.last_step
  have hfb : w.FileBase b.file e.base :=
    .inr ⟨c, e, hlast.file ▸ hlast.origin, hlast.stored, rfl⟩
  have hgo := callAndOffset_go_past_limit hw hnone h (w.maxDepth + 1) 0 e.base none hfb
    (Nat.zero_le _) (by omega) (by omega)
  unfold elementExpandedFrom callAndOffset
  simp only [run_bind, elementStart_run hnone hfb (hlast.fits hw), run_maxDepth, hgo, run_pure]

/-- The range work list of a chain deeper than the limit answers nothing. Each query `d` levels
out asks a call whose file lies `n - d` expansions below the top, so a query reaching the top's
file would have to be `n` levels out, past the limit, where the list is dropped whole. -/
theorem rangeRounds_past_limit {limit n : Nat} {top : FileId} (hlt : limit < n) (fuel : Nat)
    (work : List (MacroCall × Segment × Nat)) (w : Workspace) (hw : w.Coherent)
    (htop : (w.file? top).isSome)
    (hwork : ∀ q ∈ work, q.1.Genuine w ∧
      ∃ m, w.CallChain (fun _ => True) q.1.file m top ∧ q.2.2 + m = n) :
    Sound w (rangeRounds limit fuel work []) fun rs _ => rs = [] := by
  have keep : ∀ {w w' : Workspace} {work : List (MacroCall × Segment × Nat)}, w.Coherent →
      w.Grows w' → (w.file? top).isSome → (∀ q ∈ work, q.1.Genuine w ∧
        ∃ m, w.CallChain (fun _ => True) q.1.file m top ∧ q.2.2 + m = n) →
      (w'.file? top).isSome ∧ ∀ q ∈ work, q.1.Genuine w' ∧
        ∃ m, w'.CallChain (fun _ => True) q.1.file m top ∧ q.2.2 + m = n := by
    intro w w' work hw hg htop hwork
    obtain ⟨y, hy⟩ := Option.isSome_iff_exists.1 htop
    refine ⟨by simp [hg.files _ _ hy], fun q hq => ?_⟩
    obtain ⟨hq₁, m, hq₂, hq₃⟩ := hwork q hq
    exact ⟨hq₁.mono hg, m, hq₂.mono hw hg htop, hq₃⟩
  refine rangeRounds_sound_of_invariant (I := fun w work acc => acc = [] ∧ (w.file? top).isSome ∧
      ∀ q ∈ work, q.1.Genuine w ∧ ∃ m, w.CallChain (fun _ => True) q.1.file m top ∧ q.2.2 + m = n)
    (B := fun _ _ _ => True) (fun _ => rfl) (fun h => h.1) (fun h => (h.2.2 _ List.mem_cons_self).1)
    (fun _ _ => bodyTextRange_sound _) ?drop ?collect ?push fuel work [] w hw ⟨rfl, htop, hwork⟩
  case drop =>
    intro w w' x work acc hw h hg
    exact ⟨h.1, keep hw hg h.2.1 fun q hq => h.2.2 q (List.mem_cons_of_mem _ hq)⟩
  case collect =>
    intro w w' d q depth work acc e loc frags body moved rs hw h hle hg _ _ _ hnc _
    obtain ⟨-, m, hch, hd⟩ := h.2.2 _ List.mem_cons_self
    have := (hch.mono hw hg h.2.1).eq_zero hnc
    dsimp only at hd
    omega
  case push =>
    intro w w' d q depth work acc e loc frags body moved p hw h hle hg _ _ _ hp
    obtain ⟨-, m, hch, hd⟩ := h.2.2 _ List.mem_cons_self
    obtain ⟨m', rfl, -, hpch⟩ := (hch.mono hw hg h.2.1).of_call hp
    obtain ⟨htop', hrest⟩ := keep hw hg h.2.1 fun q hq => h.2.2 q (List.mem_cons_of_mem _ hq)
    refine ⟨h.1, htop', fun x hx => ?_⟩
    simp only [List.mem_append, List.mem_map] at hx
    rcases hx with ⟨f, -, rfl⟩ | hx
    · exact ⟨Workspace.expansionCall_genuine hp, m', hpch, by dsimp only at hd ⊢; omega⟩
    · exact hrest x hx

theorem rangeToBody_past_limit (hw : w.Coherent) {P : MacroCall → Prop} {c : MacroCall}
    (hc : c.Genuine w) {m : Nat} {top : FileId} (hch : w.CallChain P c.file m top)
    (hlt : w.maxDepth < m + 1) (r : TextRange) :
    Sound w (rangeToBody c r) fun rs _ => rs = [] := by
  have htop : (w.file? top).isSome := by
    obtain ⟨x, hx⟩ := Workspace.file?_of_tree? hc.1.1
    exact hch.top_file (by rw [MacroCall.element_file] at hx; simp [hx])
  unfold rangeToBody
  refine Sound.bind maxDepth_sound ?_
  rintro limit w' - - ⟨rfl, hw'⟩
  subst w'
  refine rangeRounds_past_limit hlt _ _ w hw htop fun x hx => ?_
  rw [List.mem_singleton] at hx
  subst hx
  exact ⟨hc, m, hch.weaken fun _ _ => trivial, Nat.add_comm 1 m⟩

end Session

end MacroTrace
