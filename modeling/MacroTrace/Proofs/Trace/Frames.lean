import MacroTrace.Proofs.Trace.Depth
import MacroTrace.Proofs.Workspace.History

/-! Frames follow the chain of expansions. The frames of an element list the calls between it and
source text, innermost first: one frame per call that made the file above, at most the depth
limit of them, each with the call's site and, while the element's start keeps mapping back into
the call's body, the place it maps to there. Once every call of the chain has its expansion
stored, and no include call names the source file at its top, the frames are exactly the calls
the chain lookup collects, and their origins follow the walk outwards of the call-and-offset
lookup, level by level. No lookup on the way changes the workspace. -/
namespace MacroTrace

namespace Workspace

variable {w : Workspace}

def Stores (w : Workspace) (c : MacroCall) : Prop := ((w.expansions c.key).bind id).isSome

instance (c : MacroCall) : Decidable (w.Stores c) :=
  inferInstanceAs (Decidable (((w.expansions c.key).bind id).isSome = true))

theorem Stores.stored {c : MacroCall} (h : w.Stores c) : ∃ x, w.expansions c.key = some (some x) :=
  ⟨_, expansions_eq_some_get h⟩

/-- A file lies within offsets from `base`: the base is the file's own, and its text ends at or
below the largest offset from there. -/
structure FitsAt (w : Workspace) (f : FileId) (base : Nat) : Prop where
  base_eq : w.FileBase f base
  fits : ∀ text, w.text? f = some text → text.utf8ByteSize + base ≤ maxOffset

theorem CallChain.fitsAt (hw : w.Coherent) {f top : FileId} {n : Nat}
    (h : w.CallChain w.Stores f n top)
    (htop : ∀ text, w.text? top = some text → text.utf8ByteSize ≤ maxOffset) :
    ∃ base, w.FitsAt f base := by
  cases h with
  | top hf => exact ⟨0, .inl ⟨hf, rfl⟩, htop⟩
  | @step _ c _ _ hf hs _ =>
    obtain ⟨x, hx⟩ := hs.stored
    have hfaith : w.Faithful c x := hw.cached _ x hx c (expansionCall_genuine hf) rfl
    refine ⟨x.base, .inr ⟨c, x, hf, hx, rfl⟩, fun text ht => ?_⟩
    have := hfaith.base_fits ((hw.text?_of_expansionCall hf hx).trans ht)
    omega

variable {base : Nat}

theorem FitsAt.element (hw : w.Coherent) {x : FileElement} (hfa : w.FitsAt x.file base)
    (hx : x.Genuine w) : x.elem.start + x.elem.green.width + base ≤ maxOffset := by
  obtain ⟨text, ht, hs, -⟩ := hx.spells hw
  have hstop := (hs.spans hx.2).stop_le
  rw [← utf8ByteSize_eq_bytesOf] at hstop
  have := hfa.fits text ht
  simp only [Element.range] at hstop
  omega

theorem FitsAt.body (hw : w.Coherent) {c : MacroCall} (hfa : w.FitsAt c.file base)
    (hc : c.Genuine w) {lb : TextRange} (hlb : c.localBodyRange? = some lb) :
    lb.stop + base ≤ maxOffset := by
  obtain ⟨text, ht, hs, -⟩ := hc.spells hw
  obtain ⟨piece, hsp⟩ := MacroCall.localBodyRange_spans hs hc.1.2 hlb
  have hstop := hsp.stop_le
  rw [← utf8ByteSize_eq_bytesOf] at hstop
  have := hfa.fits text ht
  omega

theorem Faithful.ordered_of_no_body (hw : w.Coherent) {c : MacroCall} {e : Expansion}
    (hc : c.Genuine w) (h : w.Faithful c e) (hlb : c.localBodyRange? = none) : e.map.Ordered := by
  have hm := h.mapsBody hw hc
  refine ⟨hm.disjoint, hm.pos, hm.ordered, fun u hu => ?_, fun u hu => ?_⟩ <;>
  · obtain ⟨body, -, -, -, hb, -⟩ := hm.copies u hu
    rw [hlb] at hb
    cases hb

/-- `w.CarriesOut f off k c o`: the walk outwards of the call-and-offset lookup carries the
virtual offset `off` of the file `f` through `k` calls, the last `c`, to the virtual offset `o` of
`c`'s file: each round the offset lookup maps the offset into the body of the call that made the
current file. -/
inductive CarriesOut (w : Workspace) : FileId → Nat → Nat → MacroCall → Nat → Prop
  | one {f : FileId} {off : Nat} {c : MacroCall} {o : Nat} : w.expansionCall f = some c →
      ((Session.offsetToBody c off).run.run w).1 = .ok (some o) → CarriesOut w f off 1 c o
  | cons {f : FileId} {off : Nat} {c : MacroCall} {o k : Nat} {c' : MacroCall} {o' : Nat} :
      w.expansionCall f = some c → ((Session.offsetToBody c off).run.run w).1 = .ok (some o) →
      CarriesOut w c.file o k c' o' → CarriesOut w f off (k + 1) c' o'

namespace CarriesOut

variable {f : FileId} {off k : Nat} {c' : MacroCall} {o' : Nat}

theorem pos (h : w.CarriesOut f off k c' o') : 0 < k := by
  cases h <;> omega

theorem succ_cases (h : w.CarriesOut f off (k + 1) c' o') : ∃ c o, w.expansionCall f = some c ∧
    ((Session.offsetToBody c off).run.run w).1 = .ok (some o) ∧
    (k = 0 ∧ c' = c ∧ o' = o ∨ w.CarriesOut c.file o k c' o') := by
  cases h with
  | one hf hm => exact ⟨_, _, hf, hm, .inl ⟨rfl, rfl, rfl⟩⟩
  | cons hf hm hrest => exact ⟨_, _, hf, hm, .inr hrest⟩

end CarriesOut

end Workspace

namespace Session

variable {w : Workspace} {base : Nat}

theorem localLoc_run (hnone : w.mapOverride = none) {f : FileId} (hfb : w.FileBase f base)
    (o : Nat) : (localLoc f o).run.run w = (.ok ((Offset.sub? o base).map (FileLoc.mk f)), w) := by
  unfold localLoc
  simp only [run_bind, fileStartOffset_run hnone hfb, run_pure]

theorem callStart_run (hw : w.Coherent) (hnone : w.mapOverride = none) {c : MacroCall}
    (hc : c.Genuine w) (hfa : w.FitsAt c.file base) :
    (callStart c).run.run w = (.ok (some (base + c.node.start)), w) := by
  have hfit : c.node.start + c.node.green.width + base ≤ maxOffset := hfa.element hw hc.1
  have hadd : Offset.add base c.node.start = .ok (base + c.node.start) :=
    Offset.add_eq_ok_iff.2 ⟨by omega, rfl⟩
  unfold callStart
  simp only [run_bind, fileStartOffset_run hnone hfa.base_eq, run_lift, hadd, run_pure]

theorem offsetToBody_run_of_fits (hw : w.Coherent) (hnone : w.mapOverride = none)
    {c : MacroCall} (hc : c.Genuine w) (hs : w.Stores c) (hfa : w.FitsAt c.file base) (o : Nat) :
    ∃ r, (offsetToBody c o).run.run w = (.ok r, w) ∧ ∀ s, r = some s → base ≤ s := by
  obtain ⟨x, hx⟩ := hs.stored
  have hf : w.Faithful c x := hw.cached _ x hx c hc rfl
  unfold offsetToBody
  cases hlb : c.localBodyRange? with
  | none =>
    obtain ⟨r, hr, -⟩ := offsetToBodyRelative_run hx hnone (hf.ordered_of_no_body hw hc hlb) o
    rw [run_bind_of_ok hr]
    refine ⟨none, ?_, by simp⟩
    cases r with
    | none => rfl
    | some rel => simp only [fromBodyRelative, bodyTextRange, hlb, run_bind, run_pure]
  | some lb =>
    have hfit := hfa.body hw hc hlb
    have hb := bodyTextRange_run hnone hlb hfa.base_eq hfit
    obtain ⟨r, hr, -⟩ := offsetToBodyRelative_run hx hnone (hf.ordered hw hc hlb (by omega)) o
    rw [run_bind_of_ok hr]
    cases r with
    | none => exact ⟨none, rfl, by simp⟩
    | some rel =>
      rw [fromBodyRelative_run hb]
      refine ⟨_, rfl, fun s hs => ?_⟩
      obtain ⟨hadd, -⟩ := Option.filter_eq_some_iff.1 hs
      obtain ⟨-, rfl⟩ := Offset.add?_eq_some_iff.1 hadd
      dsimp only
      omega

/-- One round of frame collection from a file that a call with a stored expansion made, the
call's file within offsets: the round adds the call's frame and goes on from the call's file.
Where the current offset maps into the call's body, the frame's origin is that place, local to
the call's file, and the next round starts from it. -/
theorem frameRounds_succ_of_call (hw : w.Coherent) (hnone : w.mapOverride = none) {f : FileId}
    {c : MacroCall} (hf : w.expansionCall f = some c) (hs : w.Stores c)
    (hfa : w.FitsAt c.file base) (n : Nat) (off : Option Nat) (acc : List Frame) :
    ∃ origin next, (frameRounds (n + 1) f off acc).run.run w =
        (frameRounds n c.file next (⟨.macroCall, c.file, c.node.range, origin⟩ :: acc)).run.run w ∧
      ∀ o₀ o, off = some o₀ → ((offsetToBody c o₀).run.run w).1 = .ok (some o) →
        origin = some ⟨c.file, o - base⟩ ∧ next = some o := by
  have hc := Workspace.expansionCall_genuine hf
  have hstart := callStart_run hw hnone hc hfa
  cases off with
  | none =>
    refine ⟨none, some (base + c.node.start), ?_, fun o₀ o h => by cases h⟩
    simp only [frameRounds, run_bind, run_expansionCall, hf, run_pure, hstart]
  | some o₀ =>
    obtain ⟨r, hr, hrb⟩ := offsetToBody_run_of_fits hw hnone hc hs hfa o₀
    cases r with
    | none =>
      refine ⟨none, some (base + c.node.start), ?_, fun o₀' o h hm => ?_⟩
      · simp only [frameRounds, run_bind, run_expansionCall, hf, hr, run_pure, hstart]
      · cases h
        rw [hr] at hm
        cases hm
    | some s =>
      refine ⟨some ⟨c.file, s - base⟩, some s, ?_, fun o₀' o h hm => ?_⟩
      · simp only [frameRounds, run_bind, run_expansionCall, hf, hr, localLoc_run hnone hfa.base_eq,
          Offset.sub?_eq_some_iff.2 ⟨hrb s rfl, rfl⟩, Option.map_some, run_pure]
      · cases h
        obtain rfl : s = o := by simpa [hr] using hm
        exact ⟨rfl, rfl⟩

/-- Frame collection along a chain of calls with stored expansions, from a file `m` expansions
below a source file that no include call names and whose text lies within offsets: the rounds add
one frame for each call above the file, as many as there are rounds, each with the call's site,
without change to the workspace. Where the walk outwards carries the starting offset through
`k + 1` calls within the rounds, the first `k + 1` frames have origins, the last the walk's offset
local to the last call's file. -/
theorem frameRounds_chain (hw : w.Coherent) (hnone : w.mapOverride = none) {top : FileId}
    (hinc : w.includedFrom top = none)
    (htop : ∀ text, w.text? top = some text → text.utf8ByteSize ≤ maxOffset) {f : FileId}
    {m : Nat} (h : w.CallChain w.Stores f m top) : ∀ (n : Nat) (off : Option Nat)
      (acc : List Frame), ∃ fs, (frameRounds n f off acc).run.run w = (.ok (acc.reverse ++ fs), w) ∧
        fs.map (fun fr => (fr.kind, fr.callFile, fr.callRange)) =
          (w.callsUp n f).map (fun c => (FrameKind.macroCall, c.file, c.node.range)) ∧
        ∀ o₀ k c o, off = some o₀ → w.CarriesOut f o₀ (k + 1) c o → k < n →
          (∀ i ≤ k, (fs[i]?.bind (·.origin)).isSome) ∧
          ∃ base, w.FileBase c.file base ∧ fs[k]?.bind (·.origin) = some ⟨c.file, o - base⟩ := by
  induction h with
  | @top g hg =>
    intro n off acc
    refine ⟨[], ?_, ?_, fun o₀ k c o _ hk _ => ?_⟩
    · cases n with
      | zero => simp only [frameRounds, run_pure, List.append_nil]
      | succ n =>
        simp only [frameRounds, run_bind, run_expansionCall, hg, run_includedFrom, hinc, run_pure,
          List.append_nil]
    · cases n <;> simp [Workspace.callsUp_succ_of_none hg]
    · obtain ⟨c', -, hc', -⟩ := hk.succ_cases
      rw [hg] at hc'
      cases hc'
  | @step g c m top hg hs hrest ih =>
    intro n off acc
    cases n with
    | zero =>
      refine ⟨[], by simp only [frameRounds, run_pure, List.append_nil], rfl, ?_⟩
      intro _ k _ _ _ _ hk
      exact absurd hk (Nat.not_lt_zero k)
    | succ n =>
      obtain ⟨base, hfa⟩ := hrest.fitsAt hw htop
      obtain ⟨origin, next, hround, horigin⟩ :=
        frameRounds_succ_of_call hw hnone hg hs hfa n off acc
      obtain ⟨fs, hrun, hsites, hcarry⟩ :=
        ih hinc htop n next (⟨.macroCall, c.file, c.node.range, origin⟩ :: acc)
      refine ⟨⟨.macroCall, c.file, c.node.range, origin⟩ :: fs, ?_, ?_, ?_⟩
      · rw [hround, hrun, List.reverse_cons, List.append_assoc, List.singleton_append]
      · rw [Workspace.callsUp_succ_of_call hg, List.map_cons, List.map_cons, hsites]
      · intro o₀ k c' o hoff hk hlt
        obtain ⟨c₁, o₁, hc₁, hm, hnext⟩ := hk.succ_cases
        obtain rfl : c₁ = c := Option.some.inj (hc₁.symm.trans hg)
        obtain ⟨rfl, rfl⟩ := horigin o₀ o₁ hoff hm
        rcases hnext with ⟨rfl, rfl, rfl⟩ | hk'
        · refine ⟨fun i hi => ?_, base, hfa.base_eq, rfl⟩
          obtain rfl : i = 0 := by omega
          rfl
        · obtain ⟨k, rfl⟩ : ∃ j, k = j + 1 := ⟨k - 1, by have := hk'.pos; omega⟩
          obtain ⟨hsome, base', hb', hlast⟩ := hcarry o₁ k c' o rfl hk' (by omega)
          refine ⟨fun i hi => ?_, base', hb', hlast⟩
          cases i with
          | zero => rfl
          | succ i => exact hsome i (by omega)

theorem offsetToBody_run_of_chain (hw : w.Coherent) (hnone : w.mapOverride = none) {top : FileId}
    (htop : ∀ text, w.text? top = some text → text.utf8ByteSize ≤ maxOffset) {f : FileId}
    {m : Nat} (hchain : w.CallChain w.Stores f m top) {c : MacroCall}
    (hf : w.expansionCall f = some c) {off o : Nat}
    (hm : ((offsetToBody c off).run.run w).1 = .ok (some o)) :
    (offsetToBody c off).run.run w = (.ok (some o), w) := by
  obtain ⟨m', -, hs, hrest⟩ := hchain.of_call hf
  obtain ⟨base, hfa⟩ := hrest.fitsAt hw htop
  obtain ⟨r, hr, -⟩ :=
    offsetToBody_run_of_fits hw hnone (Workspace.expansionCall_genuine hf) hs hfa off
  rw [hr] at hm ⊢
  obtain rfl : r = some o := by simpa using hm
  rfl

/-- The call-and-offset lookup walks as `CarriesOut` says: along a chain of calls with stored
expansions under a source file within offsets, below the depth limit, its walk through `k`
calls reaches, after `k` rounds, the last of them and the offset it carries to. -/
theorem callAndOffset_go_of_carries (hw : w.Coherent) (hnone : w.mapOverride = none)
    {top : FileId} (htop : ∀ text, w.text? top = some text → text.utf8ByteSize ≤ maxOffset)
    {f : FileId} {off k : Nat} {c : MacroCall} {o : Nat} (h : w.CarriesOut f off k c o)
    {m : Nat} (hchain : w.CallChain w.Stores f m top) (limit : Nat) :
    ∀ (fuel depth : Nat) (reached : Option (MacroCall × Nat)), depth + k ≤ limit →
      (callAndOffset.go limit (fuel + k) f off depth reached).run.run w =
        (callAndOffset.go limit fuel c.file o (depth + k) (some (c, o))).run.run w := by
  induction h generalizing m with
  | one hf hm =>
    intro fuel depth reached hle
    have hne : depth ≠ limit := by omega
    simp only [callAndOffset.go, run_bind, run_expansionCall, hf, beq_iff_eq, hne, if_false,
      offsetToBody_run_of_chain hw hnone htop hchain hf hm]
  | @cons f off c o k c' o' hf hm _ ih =>
    intro fuel depth reached hle
    have hne : depth ≠ limit := by omega
    obtain ⟨m', -, -, hrest⟩ := hchain.of_call hf
    rw [show fuel + (k + 1) = (fuel + k) + 1 by omega]
    simp only [callAndOffset.go, run_bind, run_expansionCall, hf, beq_iff_eq, hne, if_false,
      offsetToBody_run_of_chain hw hnone htop hchain hf hm]
    rw [ih hrest fuel (depth + 1) _ (by omega), Nat.add_assoc, Nat.add_comm 1 k]

end Session

open Session in
/-- Frames follow the chain of expansions. Take a genuine element whose file a chain of `n`
expansions, each stored, leads to from a source file that no include call names and whose text
lies within offsets. The frames, the chain lookup and the element's start are read without change
to the workspace. There are as many frames as the chain has calls, up to the depth limit, each a
macro-call frame at the site of the call the chain lookup gives at its place. Where the walk
outwards of the call-and-offset lookup carries the element's start through `k + 1` calls within
the limit, the first `k + 1` frames have origins, the last of them the walk's offset local to the
last call's file. -/
theorem frames_follow_expansion_chain {w : Workspace} (hw : w.Reachable none) {e : FileElement}
    (he : e.Genuine w) {n : Nat} {top : FileId} (hchain : w.CallChain w.Stores e.file n top)
    (hinc : w.includedFrom top = none)
    (htop : ∀ text, w.text? top = some text → text.utf8ByteSize ≤ maxOffset) :
    ∃ fs cs start, (frames e).run.run w = (.ok fs, w) ∧
      (expandedFromChain e).run.run w = (.ok (cs, decide (w.maxDepth < n)), w) ∧
      (elementStart e).run.run w = (.ok (some start), w) ∧
      fs.length = min n w.maxDepth ∧
      fs.map (fun fr => (fr.kind, fr.callFile, fr.callRange)) =
        cs.map (fun c => (FrameKind.macroCall, c.file, c.node.range)) ∧
      ∀ k c o, w.CarriesOut e.file start (k + 1) c o → k < w.maxDepth →
        (∀ i ≤ k, (fs[i]?.bind (·.origin)).isSome) ∧
        ∃ base, w.FileBase c.file base ∧ fs[k]?.bind (·.origin) = some ⟨c.file, o - base⟩ := by
  have hwc := hw.coherent
  have hnone := hw.mapOverride
  obtain ⟨base, hfa⟩ := hchain.fitsAt hwc htop
  have hstart := elementStart_run hnone hfa.base_eq (hfa.element hwc he)
  obtain ⟨fs, hrun, hsites, hcarry⟩ :=
    frameRounds_chain hwc hnone hinc htop hchain w.maxDepth (some (e.elem.start + base)) []
  refine ⟨fs, _, _, ?_, expandedFromChain_run_callsUp hwc he hchain, hstart, ?_, hsites,
    fun k c o hk hlt => hcarry _ k c o rfl hk hlt⟩
  · unfold frames
    simp only [run_bind, run_maxDepth, hstart, hrun, List.reverse_nil, List.nil_append]
  · rw [← List.length_map, hsites, List.length_map, hchain.length_callsUp]

open Session in
/-- The token `A` under two nested expansions, with a depth limit of two: the source file's
`outer!(A);` expands to `inner!(A);`, which expands to `struct A;`, and the frames of that `A` are
the two calls. -/
theorem nested_token_frames : ∃ (w : Workspace) (e : FileElement), w.Reachable none ∧
    e.Genuine w ∧ w.CallChain w.Stores e.file 2 0 ∧ w.includedFrom 0 = none ∧
    (∀ text, w.text? 0 = some text → text.utf8ByteSize ≤ maxOffset) ∧
    ∃ fs cs start, (frames e).run.run w = (.ok fs, w) ∧
      (expandedFromChain e).run.run w = (.ok (cs, decide (w.maxDepth < 2)), w) ∧
      (elementStart e).run.run w = (.ok (some start), w) ∧
      fs.length = min 2 w.maxDepth ∧
      fs.map (fun fr => (fr.kind, fr.callFile, fr.callRange)) =
        cs.map (fun c => (FrameKind.macroCall, c.file, c.node.range)) ∧
      ∀ k c o, w.CarriesOut e.file start (k + 1) c o → k < w.maxDepth →
        (∀ i ≤ k, (fs[i]?.bind (·.origin)).isSome) ∧
        ∃ base, w.FileBase c.file base ∧ fs[k]?.bind (·.origin) = some ⟨c.file, o - base⟩ := by
  let w₀ : Workspace := ((Workspace.create
    [("outer", .template "$x" "inner!($x);"), ("inner", .template "$x" "struct $x;")]
    [⟨"lib.rs", "outer!(A);", 0⟩] 2 none).toOption.map (·.1)).getD {}
  have hw₀ : w₀.Reachable none := @Workspace.Reachable.create none
    [("outer", .template "$x" "inner!($x);"), ("inner", .template "$x" "struct $x;")]
    [⟨"lib.rs", "outer!(A);", 0⟩] 2 w₀ [0] rfl
  let w : Workspace := (Step.exec (.expandAll [.id 0] (.ok 64)) w₀).2
  have hw : w.Reachable none := .step _ hw₀
  let root : Green := (w.tree? 2).getD default
  have hroot : w.tree? 2 = some root :=
    (Option.getD_of_ne_none (Option.isSome_iff_ne_none.1 (by decide +kernel)) default).symm
  let tok : Element := (root.tokenAt 7).getD default
  have htok : root.tokenAt 7 = some tok :=
    (Option.getD_of_ne_none (Option.isSome_iff_ne_none.1 (by decide +kernel)) default).symm
  let e : FileElement := ⟨2, root, tok⟩
  have he : e.Genuine w := ⟨hroot, Green.tokenAt_mem htok⟩
  let c₂ : MacroCall := (w.expansionCall 2).getD default
  let c₁ : MacroCall := (w.expansionCall c₂.file).getD default
  have h₂ : w.expansionCall 2 = some c₂ :=
    (Option.getD_of_ne_none (Option.isSome_iff_ne_none.1 (by decide +kernel)) default).symm
  have h₁ : w.expansionCall c₂.file = some c₁ :=
    (Option.getD_of_ne_none (Option.isSome_iff_ne_none.1 (by decide +kernel)) default).symm
  have hc₁ : c₁.file = 0 := by decide +kernel
  have h₀ : w.expansionCall c₁.file = none := Option.isNone_iff_eq_none.1 (by decide +kernel)
  have hsource : w.CallChain w.Stores c₁.file 0 0 := by
    have h := (Workspace.CallChain.top h₀ : w.CallChain w.Stores c₁.file 0 c₁.file)
    rw [hc₁] at h ⊢
    exact h
  have hchain : w.CallChain w.Stores e.file 2 0 :=
    .step h₂ (by decide +kernel) (.step h₁ (by decide +kernel) hsource)
  have hinc : w.includedFrom 0 = none := Option.isNone_iff_eq_none.1 (by decide +kernel)
  have htop : ∀ text, w.text? 0 = some text → text.utf8ByteSize ≤ maxOffset := by
    intro text ht
    have htext : w.text? 0 = some "outer!(A);" := by decide +kernel
    rw [htext, Option.some.injEq] at ht
    subst ht
    decide
  exact ⟨w, e, hw, he, hchain, hinc, htop, frames_follow_expansion_chain hw he hchain hinc htop⟩
end MacroTrace
