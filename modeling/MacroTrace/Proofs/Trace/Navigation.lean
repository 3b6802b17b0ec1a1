import MacroTrace.Proofs.Trace.Frames
/-! Navigation lands in source text. For an element inside an expansion, navigation first maps the
element, or an item's name, strictly back to the token it was copied from; a strict answer is
refused when that token is itself expanded, so it lies in a file no call expands to. Failing
that it names the path of the outermost call of the element's chain, and the chain lookup stops
only at a call whose file no call expands to, or reports the depth limit exceeded. An element of
a file no call expands to maps back to nothing and has no chain, so it is not navigated from. -/
namespace MacroTrace

theorem MacroCall.pathElement?_mem {c : MacroCall} {root : Green} (hc : c.node ∈ root.members)
    {p : Element} (hp : c.pathElement? = some p) : p ∈ root.members := by
  unfold MacroCall.pathElement? at hp
  split at hp
  · exact Green.mem_members_of_mem_children hc (Element.mem_children_of_child? hp).1
  · exact Green.mem_members_of_mem_children hc (Element.mem_children_of_child? hp).1
  · rename_i i hk
    simp only [MacroCall.deriveToken?, hk, Element.attrArgs, Option.bind_eq_some_iff] at hp
    obtain ⟨args, hargs, hi⟩ := hp
    have hmem : p ∈ args.significantTokens :=
      List.mem_of_mem_filter (List.mem_of_getElem? hi)
    exact Green.mem_members_of_mem_children
      (Green.mem_members_of_mem_children hc (Element.mem_children_of_child? hargs).1)
      (Element.mem_children_of_significantTokens hmem).1

namespace FileElement

theorem Genuine.withElem_nameToken {w : Workspace} {e : FileElement} (he : e.Genuine w)
    {t : Element} (ht : e.elem.nameToken = some t) : (e.withElem t).Genuine w := by
  simp only [Element.nameToken, Element.nameNode, Option.bind_eq_some_iff] at ht
  obtain ⟨n, hn, htok⟩ := ht
  exact ⟨he.1, Green.mem_members_of_mem_children
    (Green.mem_members_of_mem_children he.2 (Element.mem_children_of_child? hn).1)
    (Element.mem_children_of_token? htok).1⟩

end FileElement

namespace Session

variable {α : Type} {w : Workspace}

theorem Sound.of_run {x : Session α} {Q : α → Workspace → Prop}
    (h : w.Coherent → ∃ a, x.run.run w = (.ok a, w) ∧ Q a w) : Sound w x Q := by
  intro hw
  obtain ⟨a, hrun, hq⟩ := h hw
  rw [hrun]
  exact ⟨hw, Workspace.Grows.refl w, fun b hb => by cases hb; exact hq⟩

theorem Sound.and {x : Session α} {Q₁ Q₂ : α → Workspace → Prop} (h₁ : Sound w x Q₁)
    (h₂ : Sound w x Q₂) : Sound w x fun a w' => Q₁ a w' ∧ Q₂ a w' := fun hw =>
  ⟨(h₁ hw).1, (h₁ hw).2.1, fun a ha => ⟨(h₁ hw).2.2 a ha, (h₂ hw).2.2 a ha⟩⟩

/-! ### Reads from a source file -/

theorem fileStartOffset_run_of_source {f : FileId} (hsrc : w.expansionCall f = none) :
    (fileStartOffset f).run.run w = (.ok (some 0), w) := by
  unfold fileStartOffset
  simp only [run_bind, run_expansionCall, hsrc, run_pure]

theorem elementStart_run_of_source {e : FileElement} (hsrc : w.expansionCall e.file = none)
    (hfit : e.elem.start + e.elem.green.width ≤ maxOffset) :
    (elementStart e).run.run w = (.ok (some e.elem.start), w) := by
  have hshift : e.range.shiftRight 0 = .ok e.range := by
    simp [TextRange.shiftRight, TextRange.shiftRight?, FileElement.range, Element.range, hfit]
  unfold elementStart elementRange
  simp only [run_bind, fileStartOffset_run_of_source hsrc, run_lift, hshift, run_pure]
  rfl

theorem elementExpandedFrom_run_of_source (hw : w.Coherent) {e : FileElement} (he : e.Genuine w)
    (hsrc : w.expansionCall e.file = none)
    (hfit : ∀ text, w.text? e.file = some text → text.utf8ByteSize ≤ maxOffset) (strict : Bool) :
    (elementExpandedFrom e strict).run.run w = (.ok none, w) := by
  have hfa : w.FitsAt e.file 0 := ⟨.inl ⟨hsrc, rfl⟩, by simpa using hfit⟩
  have hend := hfa.element hw he
  unfold elementExpandedFrom callAndOffset callAndOffset.go
  simp only [run_bind, elementStart_run_of_source hsrc (by omega), run_maxDepth,
    run_expansionCall, hsrc, run_pure]

/-! ### The strict answer -/

theorem isExpanded_run (hw : w.Coherent) {t : FileElement} (ht : t.Genuine w) :
    (isExpanded t).run.run w = (.ok (w.expansionCall t.file).isSome, w) := by
  unfold isExpanded
  simp only [run_bind, nonRecursiveCall_run hw ht, run_pure]

theorem isExpanded_sound_of_genuine {t : FileElement} (ht : t.Genuine w) :
    Sound w (isExpanded t) fun b w' => w' = w ∧ b = (w.expansionCall t.file).isSome :=
  Sound.of_run fun hw => ⟨_, isExpanded_run hw ht, rfl, rfl⟩

theorem tokenStartingAt_isToken (f : FileId) (off : Nat) :
    Sound w (tokenStartingAt f off) fun r _ => ∀ t, r = some t → t.isToken = true := by
  unfold tokenStartingAt
  refine Sound.seq (fileStartOffset_sound f) fun r w₁ _ => ?_
  split
  · split
    · refine Sound.seq ((tree?_sound f).mono fun _ _ _ => trivial) fun r w₂ _ => ?_
      split
      · split
        · exact Sound.pure (by simp)
        · split
          · rename_i t ht
            refine Sound.pure fun t' h => ?_
            split at h
            · cases h
              exact Green.tokenAt_isToken ht
            · cases h
          · exact Sound.pure (by simp)
      · exact Sound.pure (by simp)
    · exact Sound.pure (by simp)
  · exact Sound.pure (by simp)

theorem elementExpandedFrom_strict (e : FileElement) :
    Sound w (elementExpandedFrom e true) fun r w' => ∀ t, r = some t →
      t.Genuine w' ∧ t.isToken = true ∧ w'.expansionCall t.file = none := by
  unfold elementExpandedFrom
  refine Sound.seq (elementStart_sound e) fun r w₁ _ => ?_
  split
  · refine Sound.seq (callAndOffset_sound _ _) fun r w₂ _ => ?_
    split
    · refine Sound.bind ((tokenStartingAt_sound _ _).and (tokenStartingAt_isToken _ _)) ?_
      rintro r w₃ - - hr
      split
      · rename_i t
        obtain ⟨ht, htok⟩ := hr
        refine Sound.bind (isExpanded_sound_of_genuine (ht t rfl)) ?_
        rintro b w₄ - - hb
        obtain ⟨rfl, rfl⟩ := hb
        cases hcall : w₄.expansionCall t.file with
        | some p =>
          simp only [Option.isSome_some, Bool.and_true, if_true]
          exact Sound.pure (by simp)
        | none =>
          simp only [Option.isSome_none, Bool.and_false, Bool.false_eq_true, if_false]
          refine Sound.pure fun t' h => ?_
          cases h
          exact ⟨ht t rfl, htok t rfl, hcall⟩
      · exact Sound.pure (by simp)
    · exact Sound.pure (by simp)
  · exact Sound.pure (by simp)

/-! ### The outermost call -/

/-- The chain lookup, from a call reached by climbing from `c₀` and with the last call collected
the one whose file that call made, answers a chain that, unless cut by the limit, ends at a call
reached by climbing from `c₀` whose file no call expands to. Nothing changes on the way. -/
theorem expandedFromChain_go_top (hw : w.Coherent) (limit : Nat) (c₀ : MacroCall)
    (next : Option MacroCall) (yielded : Nat) (acc : List MacroCall)
    (hnext : ∀ c, next = some c → c.Genuine w ∧ w.Climbs c₀ c)
    (hacc : ∀ c, acc.head? = some c → c.Genuine w ∧ w.Climbs c₀ c ∧ w.expansionCall c.file = next) :
    ∃ chain exceeded, (expandedFromChain.go limit next yielded acc).run.run w =
      (.ok (chain, exceeded), w) ∧ (exceeded = false → ∀ c, chain.getLast? = some c →
        c.Genuine w ∧ w.Climbs c₀ c ∧ w.expansionCall c.file = none) := by
  induction next, yielded, acc using expandedFromChain.go.induct limit with
  | case1 next yielded acc h =>
    rw [expandedFromChain.go.eq_def, if_pos h]
    refine ⟨acc.reverse, next.isSome, rfl, fun hex c hc => ?_⟩
    rw [List.getLast?_reverse] at hc
    obtain ⟨hg, hclimb, hfile⟩ := hacc c hc
    exact ⟨hg, hclimb, hfile.trans (Option.not_isSome_iff_eq_none.1 (by simp [hex]))⟩
  | case2 yielded acc h =>
    rw [expandedFromChain.go.eq_def, if_neg h]
    refine ⟨acc.reverse, false, rfl, fun _ c hc => ?_⟩
    rw [List.getLast?_reverse] at hc
    exact hacc c hc
  | case3 yielded acc h c ih =>
    obtain ⟨hc, hclimb⟩ := hnext c rfl
    obtain ⟨chain, exceeded, hrun, htop⟩ := ih (w.expansionCall c.file)
      (fun c' hc' => ⟨Workspace.expansionCall_genuine hc', hclimb.tail hc'⟩)
      (fun c' hc' => by
        obtain rfl : c = c' := Option.some.inj hc'
        exact ⟨hc, hclimb, rfl⟩)
    rw [expandedFromChain.go.eq_def, if_neg h]
    exact ⟨chain, exceeded, by simp only [run_bind, callExpandedFrom_run hw hc, hrun], htop⟩

theorem outermostCall_run (hw : w.Coherent) {e : FileElement} (he : e.Genuine w) :
    ∃ r, (outermostCall e).run.run w = (.ok r, w) ∧ ∀ c, r = some c →
      c.Genuine w ∧ w.expansionCall c.file = none ∧
      ∃ c₀, w.expansionCall e.file = some c₀ ∧ w.Climbs c₀ c := by
  unfold outermostCall expandedFromChain
  simp only [run_bind, run_maxDepth, nonRecursiveCall_run hw he]
  cases hfirst : w.expansionCall e.file with
  | none =>
    have hrun : (expandedFromChain.go w.maxDepth none 0 []).run.run w = (.ok ([], false), w) := by
      rw [expandedFromChain.go.eq_def]
      split <;> rfl
    simp only [hrun, run_pure]
    exact ⟨_, rfl, by simp⟩
  | some c₀ =>
    obtain ⟨chain, exceeded, hrun, htop⟩ := expandedFromChain_go_top hw w.maxDepth c₀ (some c₀)
      0 [] (fun c hc => by
        obtain rfl : c₀ = c := Option.some.inj hc
        exact ⟨Workspace.expansionCall_genuine hfirst, .refl⟩) (by simp)
    simp only [hrun, run_pure]
    refine ⟨_, rfl, fun c hc => ?_⟩
    cases exceeded with
    | true => simp at hc
    | false =>
      obtain ⟨hg, hclimb, hsrc⟩ := htop rfl c (by simpa using hc)
      exact ⟨hg, hsrc, c₀, rfl, hclimb⟩

theorem outermostCall_top {e : FileElement} (he : e.Genuine w) :
    Sound w (outermostCall e) fun r w' => w' = w ∧ ∀ c, r = some c →
      c.Genuine w ∧ w.expansionCall c.file = none ∧
      ∃ c₀, w.expansionCall e.file = some c₀ ∧ w.Climbs c₀ c :=
  Sound.of_run fun hw => by
    obtain ⟨r, hrun, htop⟩ := outermostCall_run hw he
    exact ⟨r, hrun, rfl, htop⟩

/-! ### Navigation -/

theorem navigationTarget_run_of_source (hw : w.Coherent) {e : FileElement} (he : e.Genuine w)
    (hsrc : w.expansionCall e.file = none)
    (hfit : ∀ text, w.text? e.file = some text → text.utf8ByteSize ≤ maxOffset) :
    (navigationTarget e).run.run w = (.ok none, w) := by
  obtain ⟨r, hout, htop⟩ := outermostCall_run hw he
  obtain rfl : r = none := by
    cases r with
    | none => rfl
    | some c =>
      obtain ⟨-, -, c₀, hc₀, -⟩ := htop c rfl
      rw [hsrc] at hc₀
      cases hc₀
  unfold navigationTarget
  dsimp only
  split
  · split
    · rename_i t ht
      simp only [run_bind, elementExpandedFrom_run_of_source hw (he.withElem_nameToken ht) hsrc
        hfit, hout, run_pure]
    · simp only [run_bind, elementExpandedFrom_run_of_source hw he hsrc hfit, hout, run_pure]
  · simp only [run_bind, elementExpandedFrom_run_of_source hw he hsrc hfit, hout, run_pure]

theorem navigationTarget_lands {e : FileElement} (he : e.Genuine w) :
    Sound w (navigationTarget e) fun r w' => ∀ x, r = some x →
      x.Genuine w' ∧ w'.expansionCall x.file = none ∧ (x.isToken = true ∨
        ∃ c₀ c, w'.expansionCall e.file = some c₀ ∧ w'.Climbs c₀ c ∧
          c.pathElement? = some x.elem ∧ x.file = c.file) := by
  unfold navigationTarget
  dsimp only
  refine Sound.bind (elementExpandedFrom_strict _) ?_
  rintro r₁ w₁ hg₁ - hr₁
  split
  next _ t =>
    refine Sound.pure fun x hx => ?_
    obtain rfl := Option.some.inj hx
    obtain ⟨ht, htok, hsrc⟩ := hr₁ t rfl
    exact ⟨ht, hsrc, .inl htok⟩
  next =>
    refine Sound.bind (outermostCall_top (he.mono hg₁)) ?_
    rintro r₂ w₂ - - hout
    obtain ⟨rfl, htop⟩ := hout
    split
    next c =>
      obtain ⟨hc, hsrc, c₀, hc₀, hclimb⟩ := htop c rfl
      refine Sound.pure fun x hx => ?_
      obtain ⟨p, hp, rfl⟩ := Option.map_eq_some_iff.1 hx
      exact ⟨⟨hc.1.1, MacroCall.pathElement?_mem hc.1.2 hp⟩, hsrc,
        .inr ⟨c₀, c, hc₀, hclimb, hp, rfl⟩⟩
    next => exact Sound.pure (by simp)

end Session

/-- Navigation never lands in generated code. From an element of a file that no call expands
to, within offsets, it answers nothing and changes nothing. Whatever it answers is an element of a
file that no call expands to: a token, which the element or its name maps back to strictly, or
the path of the call at the top of the chain above the element's file. -/
theorem navigation_lands_in_source {override : Option (List Segment)} {w : Workspace}
    (hw : w.Reachable override) {e : FileElement} (he : e.Genuine w) :
    (w.expansionCall e.file = none →
      (∀ text, w.text? e.file = some text → text.utf8ByteSize ≤ maxOffset) →
      (Session.navigationTarget e).run.run w = (.ok none, w)) ∧
    ∀ x w', (Session.navigationTarget e).run.run w = (.ok (some x), w') →
      x.Genuine w' ∧ w'.expansionCall x.file = none ∧ (x.isToken = true ∨
        ∃ c₀ c, w.expansionCall e.file = some c₀ ∧ w'.Climbs c₀ c ∧
          c.pathElement? = some x.elem ∧ x.file = c.file) := by
  have hc := hw.coherent
  refine ⟨Session.navigationTarget_run_of_source hc he, fun x w' hrun => ?_⟩
  obtain ⟨-, hg, hpost⟩ := Session.navigationTarget_lands he hc
  rw [hrun] at hg hpost
  obtain ⟨hx, hsrc, hend⟩ := hpost (some x) rfl x rfl
  obtain ⟨f, hf⟩ := Workspace.file?_of_tree? he.1
  rw [hw.coherent.expansionCall_grows hg hf] at hend
  exact ⟨hx, hsrc, hend⟩

/-- From the struct that an expansion of `m!(A);` defines, navigation lands on a token of the
source file. -/
theorem expanded_struct_navigates_to_source : ∃ (w : Workspace) (root : Green) (elem : Element),
    w.Reachable none ∧ w.tree? 1 = some root ∧ elem ∈ root.members ∧ ∃ x w',
      (Session.navigationTarget ⟨1, root, elem⟩).run.run w = (.ok (some x), w') ∧
      x.Genuine w' ∧ w'.expansionCall x.file = none ∧ (x.isToken = true ∨
        ∃ c₀ c, w.expansionCall 1 = some c₀ ∧ w'.Climbs c₀ c ∧
          c.pathElement? = some x.elem ∧ x.file = c.file) := by
  have hw := Workspace.Reachable.step (.expand (.ok (.named (.id 0) "m" (.ok 0))))
    (@Workspace.Reachable.create none [("m", .template "$x" "struct $x;")]
      [⟨"lib.rs", "m!(A);", 0⟩] defaultMaxDepth _ _ rfl)
  refine ⟨_, _, _, hw, Option.eq_some_of_isSome ?tree, List.get_mem _ ⟨1, ?index⟩, _, _,
    Session.run_eq_of_isSome ?nav, (navigation_lands_in_source hw
      ⟨Option.eq_some_of_isSome ?tree, List.get_mem _ ⟨1, ?index⟩⟩).2 _ _
      (Session.run_eq_of_isSome ?nav)⟩
  case tree => decide +kernel
  case index => decide +kernel
  case nav => decide +kernel

end MacroTrace
