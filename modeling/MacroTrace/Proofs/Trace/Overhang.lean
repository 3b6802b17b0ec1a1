import MacroTrace.Proofs.Trace.Copies
import MacroTrace.Proofs.OffsetMap.Specification
/-! Ranges under any map start in the outermost body. The range lookup moves each fragment of a
query into the body of the query's call and keeps it when its start is still in the body; it
never looks at where the fragment ends. A fragment is a piece of one segment of the map, so when
every segment copies from within the body of its call, as with the maps the expander builds, the
answer ends in the body too. A map given in place of the expander's can have a segment longer than
what is left of the body, and the answer then starts in the body of the outermost call but runs
past its end. -/
namespace MacroTrace

namespace Workspace

variable {w w' : Workspace} {c : MacroCall}

theorem Climbs.genuine (hc : c.Genuine w) {d : MacroCall} (h : w.Climbs c d) : d.Genuine w := by
  induction h with
  | refl => exact hc
  | tail _ hp _ => exact expansionCall_genuine hp

theorem Climbs.of_grows (hw : w.Coherent) (hg : w.Grows w') (hc : c.Genuine w) {d : MacroCall}
    (h : w'.Climbs c d) : w.Climbs c d := by
  induction h with
  | refl => exact .refl
  | tail _ hp ih =>
    obtain ⟨x, hx⟩ := file?_of_tree? (ih.genuine hc).1.1
    exact ih.tail ((hw.expansionCall_grows hg hx).symm.trans hp)

/-- Every segment of a map given in place of the expander's copies from within the body of each
call that climbing from `c` reaches. Without a map override this holds of nothing to check. -/
def FitsBodies (w : Workspace) (c : MacroCall) : Prop :=
  ∀ m, w.mapOverride = some m → ∀ d lb, w.Climbs c d → d.localBodyRange? = some lb →
    ∀ u ∈ m.segments, u.src + u.len ≤ lb.len

theorem FitsBodies.of_grows (hg : w.Grows w') (h : w'.FitsBodies c) : w.FitsBodies c :=
  fun m hm d lb hd hlb =>
  h m (hg.mapOverride.trans hm) d lb (hd.mono hg) hlb

def LiesInBody (w : Workspace) (c : MacroCall) (s : TextRange) : Prop :=
  ∃ top body, top.Genuine w ∧ w.Climbs c top ∧ w.expansionCall top.file = none ∧
    top.localBodyRange? = some body ∧ body.start ≤ s.start ∧ s.start ≤ body.stop ∧
    (w.FitsBodies c → s.stop ≤ body.stop)

theorem LiesInBody.mono (hw : w.Coherent) (hg : w.Grows w') {s : TextRange}
    (h : w.LiesInBody c s) : w'.LiesInBody c s := by
  obtain ⟨top, body, htop, hclimb, hsrc, hbody, h₁, h₂, hend⟩ := h
  obtain ⟨x, hx⟩ := file?_of_tree? htop.1.1
  exact ⟨top, body, htop.mono hg, hclimb.mono hg, (hw.expansionCall_grows hg hx).trans hsrc,
    hbody, h₁, h₂, fun hfit => hend (hfit.of_grows hg)⟩

theorem FitsBodies.src_le (hw : w.Coherent) (hfit : w.FitsBodies c) {d : MacroCall}
    (hd : d.Genuine w) (hclimb : w.Climbs c d) {s : Expansion}
    (hs : w.expansions d.key = some (some s)) {lb : TextRange}
    (hlb : d.localBodyRange? = some lb) :
    ∀ u ∈ (w.mapOverride.getD s.map).segments, u.src + u.len ≤ lb.len := by
  cases hm : w.mapOverride with
  | none => exact (hw.cached _ _ hs d hd rfl).src_le_len hw hd hlb
  | some m => exact hfit m hm d lb hclimb hlb

end Workspace

namespace Session

variable {w : Workspace}

theorem fileStartOffset_source (f : FileId) :
    Sound w (fileStartOffset f) fun b w' => ∀ base, b = some base →
      w'.expansionCall f = none → base = 0 := by
  unfold fileStartOffset
  refine Sound.bind (expansionCall_sound f) ?_
  rintro a w₁ - - ⟨rfl, rfl⟩
  split
  · exact Sound.pure (by rintro base ⟨⟩ -; rfl)
  · rename_i p hp
    refine Sound.bind (expansion_sound (Workspace.expansionCall_genuine hp)) ?_
    rintro r w₂ hg - -
    refine Sound.pure fun base _ hnone => ?_
    rw [hg.expansionCall hp] at hnone
    cases hnone

theorem bodyTextRange_source (d : MacroCall) :
    Sound w (bodyTextRange d) fun b w' => ∀ body, b = some body →
      w'.expansionCall d.file = none → d.localBodyRange? = some body := by
  unfold bodyTextRange
  split
  · rename_i lb hlb
    refine Sound.bind (fileStartOffset_source d.file) ?_
    rintro b w₁ - - hb
    split
    · rename_i base
      refine Sound.bind_lift fun s hs => Sound.pure ?_
      rintro body ⟨⟩ hnone
      obtain rfl := hb base rfl hnone
      obtain ⟨h₁, h₂, -⟩ := TextRange.shiftRight_eq_ok hs
      rw [hlb, Option.some.injEq]
      exact TextRange.eq_of_start_stop h₁.symm h₂.symm
    · exact Sound.pure (by rintro body ⟨⟩)
  · exact Sound.pure (by rintro body ⟨⟩)

/-- Every range the rounds of the range lookup answer lies in the body of a call that climbing
from `c` reaches, as far as `LiesInBody` says, while every query they start from asks such a call
and every range they collected already lies there. -/
theorem rangeRounds_in_body (c : MacroCall) (limit n : Nat)
    (work : List (MacroCall × Segment × Nat)) (acc : List TextRange) (w : Workspace)
    (hw : w.Coherent) (hwork : ∀ x ∈ work, x.1.Genuine w ∧ w.Climbs c x.1)
    (hacc : ∀ s ∈ acc, w.LiesInBody c s) :
    Sound w (rangeRounds limit n work acc) fun rs w' => ∀ s ∈ rs, w'.LiesInBody c s := by
  refine rangeRounds_sound_of_invariant (I := fun w work acc =>
      (∀ x ∈ work, x.1.Genuine w ∧ w.Climbs c x.1) ∧ ∀ s ∈ acc, w.LiesInBody c s)
    (B := fun d b w' => ∀ body, b = some body → w'.expansionCall d.file = none →
      d.localBodyRange? = some body)
    (fun _ => by simp) (fun h => h.2) (fun h => (h.1 _ List.mem_cons_self).1)
    (fun _ _ => bodyTextRange_source _) ?drop ?collect ?push n work acc w hw ⟨hwork, hacc⟩
  case drop =>
    intro w w' x work acc hw h hg
    exact ⟨fun y hy => (h.1 y (List.mem_cons_of_mem _ hy)).imp (·.mono hg) (·.mono hg),
      fun s hs => (h.2 s hs).mono hw hg⟩
  case collect =>
    intro w w' d q depth work acc e loc frags body moved rs hw h _ hg hw' hround hb hnc hrs
    obtain ⟨hd, hclimb⟩ := h.1 _ List.mem_cons_self
    refine ⟨fun y hy => (h.1 y (List.mem_cons_of_mem _ hy)).imp (·.mono hg) (·.mono hg),
      fun s hs => ?_⟩
    rcases List.mem_append.1 hs with hs | hs
    · exact (h.2 s hs).mono hw hg
    · obtain ⟨f', hf', hsrc⟩ := hrs s hs
      obtain ⟨f, hf, hmoved, hle⟩ := hround.moved f' hf'
      have hlb := hb body rfl hnc
      obtain ⟨-, hstart, hstop⟩ := TextRange.ofLength_eq_ok hsrc
      obtain ⟨st, hst, rfl⟩ := hround.expansion
      obtain ⟨u, hu, dd, hu₁, hu₂, -, -, hfsrc, -⟩ := OffsetMap.rangeToBody_fragment hround.splits f hf
      subst hmoved
      refine ⟨d, body, hd.mono hg, hclimb.mono hg, hnc, hlb, ?_, ?_, fun hfit => ?_⟩
      · rw [hstart]
        exact Nat.le_add_left _ _
      · rw [hstart]
        exact hle
      · have hfits := hfit.src_le hw' (hd.mono hg) (hclimb.mono hg) hst hlb u hu
        have hbody := body.le
        simp only [TextRange.len] at hfits
        rw [hstop]
        dsimp only at hfsrc ⊢
        omega
  case push =>
    intro w w' d q depth work acc e loc frags body moved p hw h _ hg hw' hround hb hp
    obtain ⟨-, hclimb⟩ := h.1 _ List.mem_cons_self
    refine ⟨fun x hx => ?_, fun s hs => (h.2 s hs).mono hw hg⟩
    simp only [List.mem_append, List.mem_map] at hx
    rcases hx with ⟨f', -, rfl⟩ | hx
    · exact ⟨Workspace.expansionCall_genuine hp, (hclimb.mono hg).tail hp⟩
    · exact (h.1 x (List.mem_cons_of_mem _ hx)).imp (·.mono hg) (·.mono hg)

theorem rangeToBody_in_body {c : MacroCall} (hc : c.Genuine w) (r : TextRange) :
    Sound w (rangeToBody c r) fun rs w' => ∀ s ∈ rs, w'.LiesInBody c s := by
  unfold rangeToBody
  refine Sound.bind maxDepth_sound ?_
  rintro limit _ - hw ⟨-, rfl⟩
  refine rangeRounds_in_body c limit _ _ [] _ hw (fun x hx => ?_) (by simp)
  rw [List.mem_singleton] at hx
  subst hx
  exact ⟨hc, .refl⟩

theorem run_eq_of_isOk {α : Type} {x : Session α} (h : (x.run.run w).1.toOption.isSome = true) :
    x.run.run w = (.ok ((x.run.run w).1.toOption.get h), (x.run.run w).2) := by
  revert h
  rcases x.run.run w with ⟨_ | a, w'⟩ <;> intro h
  · simp [Except.toOption] at h
  · rfl

end Session

/-- Ranges of an expansion lie in the body of the outermost call: every range that the lookup from
a range of a listed call's expansion answers, whatever map a request gives for expansions, starts
inside the body of the call that climbing from the call's file ends at, in a file that no call
expands to; and it ends inside that body when each segment of the map copies from within the body
of every call on the climb, as the expander's own maps always do. -/
theorem range_answers_within_outer_body {override : Option (List Segment)} {w : Workspace}
    (hw : w.Reachable override) {f : FileId} {c : MacroCall} (hc : c ∈ w.callsIn f)
    (r : TextRange) {rs : List TextRange} {w' : Workspace}
    (hrun : (Session.rangeToBody c r).run.run w = (.ok rs, w')) :
    ∀ s ∈ rs, ∃ top body, w'.Climbs c top ∧ w'.expansionCall top.file = none ∧
      top.localBodyRange? = some body ∧ body.start ≤ s.start ∧ s.start ≤ body.stop ∧
      (w.FitsBodies c → s.stop ≤ body.stop) := by
  have hcg := Workspace.callsIn_genuine hc
  obtain ⟨hw', hg, hpost⟩ := Session.rangeToBody_in_body hcg r hw.coherent
  rw [hrun] at hg hw' hpost
  intro s hs
  obtain ⟨top, body, -, hclimb, hsrc, hbody, h₁, h₂, hend⟩ := hpost rs rfl s hs
  refine ⟨top, body, hclimb, hsrc, hbody, h₁, h₂, fun hfit => hend fun m hm d lb hd hlb => ?_⟩
  exact hfit m (hg.mapOverride.symm.trans hm) d lb (hd.of_grows hw.coherent hg hcg) hlb

theorem OffsetMap.ofList_copy_three :
    OffsetMap.ofList [⟨0, 0, 3⟩] = .ok ⟨[⟨0, 0, 3⟩], true⟩ := by
  rw [OffsetMap.ofList, List.mergeSort_of_pairwise (by decide)]
  rfl

/-- A map that copies three bytes from the start of a one-byte body still answers a range that
starts in the body. -/
theorem overlong_map_answer_starts_in_body : ∃ (w : Workspace) (c : MacroCall)
    (rs : List TextRange) (w' : Workspace), w.Reachable (some [⟨0, 0, 3⟩]) ∧ c ∈ w.callsIn 0 ∧
      (Session.rangeToBody c ⟨0, 3, Nat.zero_le 3⟩).run.run w = (.ok rs, w') ∧
      ∀ s ∈ rs, ∃ top body, w'.Climbs c top ∧ w'.expansionCall top.file = none ∧
        top.localBodyRange? = some body ∧ body.start ≤ s.start ∧ s.start ≤ body.stop ∧
        (w.FitsBodies c → s.stop ≤ body.stop) := by
  have hw := @Workspace.Reachable.create _ [("m", .template "$x" "$x bcd")]
    [⟨"lib.rs", "m!(a);", 0⟩] defaultMaxDepth _ _
    (Workspace.create_override OffsetMap.ofList_copy_three rfl)
  refine ⟨_, _, _, _, hw, List.get_mem _ ⟨0, ?listed⟩, Session.run_eq_of_isOk ?ranges, ?starts⟩
  case starts =>
    exact range_answers_within_outer_body hw (List.get_mem _ _) _
      (Session.run_eq_of_isOk ?ranges)
  case listed => decide +kernel
  case ranges => decide +kernel

/-- The same map makes the answer run past the end of the body: the body of the call is the one
byte at 3, and the answer is the three bytes from 3. -/
theorem overlong_map_answer_runs_past_body : ∃ (w : Workspace) (c : MacroCall) (body s : TextRange),
    w.Reachable (some [⟨0, 0, 3⟩]) ∧ c ∈ w.callsIn 0 ∧ w.expansionCall c.file = none ∧
      c.localBodyRange? = some body ∧
      ((Session.rangeToBody c ⟨0, 3, Nat.zero_le 3⟩).run.run w).1 = .ok [s] ∧
      body.stop < s.stop := by
  have hw := @Workspace.Reachable.create _ [("m", .template "$x" "$x bcd")]
    [⟨"lib.rs", "m!(a);", 0⟩] defaultMaxDepth _ _
    (Workspace.create_override OffsetMap.ofList_copy_three rfl)
  refine ⟨_, _, ⟨3, 4, Nat.le_succ 3⟩, ⟨3, 6, Nat.le_add_right 3 3⟩, hw,
    List.get_mem _ ⟨0, ?listed⟩, ?source, ?body, ?ranges, by decide⟩
  case listed => decide +kernel
  case source => decide +kernel
  case body => decide +kernel
  case ranges => decide +kernel

end MacroTrace
