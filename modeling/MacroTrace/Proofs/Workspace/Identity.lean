import MacroTrace.Proofs.Trace.Copies
import MacroTrace.Proofs.Workspace.Pointer
import MacroTrace.Proofs.Workspace.Request
/-!
Nodes and calls are named exactly. A reference names a node by its file, kind and range, and a call
is named by its key; the trees the parser builds never nest a node in another of the same kind and
range, so each name leads back to the node or call it was taken from. The file a call's expansion
creates leads back to the call, and starts at the expansion's base.
-/
namespace MacroTrace

theorem callsInTree_kind {f : FileId} {root : Green} {c : MacroCall}
    (h : c ∈ callsInTree f root) :
    (c.kind = .attr → c.node.isDerive = false) ∧
    (∀ i, c.kind = .derive i → c.node.isDerive = true ∧
      (c.node.attrArgs.bind fun args => args.idents[i]?).isSome = true) := by
  simp only [callsInTree, List.mem_mergeSort, List.mem_append, List.mem_map, List.mem_flatMap,
    List.mem_filter] at h
  rcases h with ⟨n, -, rfl⟩ | ⟨item, -, hc⟩
  · simp [MacroCall.fnLike]
  · simp only [MacroCall.forItem, List.mem_flatMap] at hc
    obtain ⟨a, -, hc⟩ := hc
    split at hc
    · simp only [List.mem_filterMap, MacroCall.derive?, Option.ite_none_right_eq_some,
        Option.some.injEq] at hc
      obtain ⟨i, -, hd, rfl⟩ := hc
      simp only [Bool.and_eq_true] at hd
      refine ⟨fun h => (by cases h), fun j hj => ?_⟩
      cases hj
      exact hd
    · rename_i hnd
      simp only [MacroCall.attr?, Option.mem_toList, Option.ite_none_left_eq_some,
        Option.some.injEq] at hc
      obtain ⟨-, rfl⟩ := hc
      exact ⟨fun _ => by simpa using hnd, fun i h => by cases h⟩

namespace Workspace

variable {w w' : Workspace}

theorem Coherent.separated (hw : w.Coherent) {f : FileId} {root : Green}
    (h : w.tree? f = some root) : root.Separated := by
  simp only [tree?, Option.map_eq_some_iff] at h
  obtain ⟨x, hx, rfl⟩ := h
  obtain ⟨entry, hentry⟩ := hw.parsed f x hx
  rw [hentry]
  exact Green.separated_parse x.text entry

theorem Grows.callsIn (hg : w.Grows w') {f : FileId} {c : MacroCall} (h : c ∈ w.callsIn f) :
    c ∈ w'.callsIn f := by
  simp only [Workspace.callsIn] at h ⊢
  split at h
  · rename_i root hroot
    rw [hg.tree? hroot]
    exact h
  · simp at h

end Workspace

namespace Workspace

variable {w : Workspace}

theorem Coherent.callOfKey_of_mem (hw : w.Coherent) {f : FileId} {c : MacroCall}
    (h : c ∈ w.callsIn f) : w.callOfKey c.key = some c := by
  have hc := callsIn_genuine h
  have hroot : w.tree? c.file = some c.root := hc.1.1
  have hn : (NodePtr.mk c.file c.node.kind c.node.range).resolveIn c.root = some c.node :=
    NodePtr.resolveIn_self (hw.separated hroot) hc.1.2 (hc.node_isToken hw) c.file
  have hkind : c.node.kind = if c.kind = .fnLike then .macroCall else .attr := hc.2
  obtain ⟨hattr, hderive⟩ : (c.kind = .attr → c.node.isDerive = false) ∧
      (∀ i, c.kind = .derive i → c.node.isDerive = true ∧
        (c.node.attrArgs.bind fun args => args.idents[i]?).isSome = true) := by
    simp only [callsIn] at h
    split at h
    · exact callsInTree_kind h
    · simp at h
  obtain ⟨file, kind, root, node⟩ := c
  dsimp only at hroot hn hkind hattr hderive ⊢
  cases kind with
  | fnLike =>
    rw [if_pos rfl] at hkind
    rw [hkind] at hn
    simp [callOfKey, MacroCall.key, hroot, hn, MacroCall.fnLike]
  | attr =>
    rw [if_neg (by simp)] at hkind
    rw [hkind] at hn
    simp [callOfKey, MacroCall.key, hroot, hn, MacroCall.attr?, hattr rfl]
  | derive i =>
    rw [if_neg (by simp)] at hkind
    rw [hkind] at hn
    obtain ⟨hd, hi⟩ := hderive i rfl
    simp [callOfKey, MacroCall.key, hroot, hn, MacroCall.derive?, hd, hi]

end Workspace

namespace Session

variable {w : Workspace} {c : MacroCall} {s : Expansion}

theorem expansion_run_of_stored_override (hs : w.expansions c.key = some (some s)) :
    (expansion c).run.run w = (.ok (some { s with map := w.mapOverride.getD s.map }), w) := by
  unfold expansion storedExpansion
  rcases hm : w.mapOverride with _ | m <;>
    simp only [run_bind, run_get, hs, run_pure, hm, Option.map_some, Option.getD_none,
      Option.getD_some]

theorem fileStartOffset_run_of_call {f : FileId} (hf : w.expansionCall f = some c)
    (hs : w.expansions c.key = some (some s)) :
    (fileStartOffset f).run.run w = (.ok (some s.base), w) := by
  unfold fileStartOffset
  simp only [run_bind, run_expansionCall, hf, expansion_run_of_stored_override hs, run_pure,
    Option.map_some]

theorem resolvePtr_run (p : NodePtr) : (resolvePtr p).run.run w =
    (.ok ((w.tree? p.file).bind fun root => (p.resolveIn root).map fun n => ⟨p.file, root, n⟩),
      w) := by
  unfold resolvePtr
  rcases h : w.tree? p.file with _ | root <;> simp only [run_bind, run_tree?, h, run_pure,
    Option.bind_none, Option.bind_some]

end Session

/-- Nodes and calls are identified exactly by their names. In every parse, the reference to a node
by its file, kind and range resolves to the node itself, and in every workspace a request reaches
it does so against the node's file. A call listed in a file, once its expansion is looked up, is
the call the expansion's file comes from, and that file starts at the expansion's base. -/
theorem nodes_and_calls_named_exactly :
    (∀ (text : String) (entry : EntryPoint) (f : FileId) (n : Element),
      n ∈ (parse text entry).tree.members → n.isToken = false →
      (NodePtr.ofElement ⟨f, (parse text entry).tree, n⟩).resolveIn (parse text entry).tree =
        some n) ∧
    (∀ (override : Option (List Segment)) (w : Workspace), w.Reachable override →
      ∀ (n : FileElement), n.Genuine w → n.elem.isToken = false →
        (Session.resolvePtr (NodePtr.ofElement n)).run.run w = (.ok (some n), w)) ∧
    (∀ (override : Option (List Segment)) (w : Workspace), w.Reachable override →
      ∀ (f : FileId) (c : MacroCall) (e : Expansion) (w' : Workspace), c ∈ w.callsIn f →
        (Session.expansion c).run.run w = (.ok (some e), w') →
        w'.expansionCall e.file = some c ∧
          (Session.fileStartOffset e.file).run.run w' = (.ok (some e.base), w')) := by
  refine ⟨fun text entry f n hn ht => ?parse, fun override w hw n hn ht => ?resolve,
    fun override w hw f c e w' hmem he => ?call⟩
  case parse => exact NodePtr.resolveIn_self (Green.separated_parse text entry) hn ht f
  case resolve =>
    have hroot : w.tree? n.file = some n.root := hn.1
    have hself := NodePtr.resolveIn_self (hw.coherent.separated hroot) hn.2 ht n.file
    simp only [Session.resolvePtr_run, NodePtr.ofElement, FileElement.kind, FileElement.range,
      hroot, Option.bind_some, hself, Option.map_some]
  case call =>
    have hc := Workspace.callsIn_genuine hmem
    obtain ⟨hw', hg, hpost⟩ := Session.expansion_sound_override hc hw.coherent
    rw [he] at hw' hg hpost
    dsimp only at hw' hg hpost
    obtain ⟨s, hs, rfl⟩ := hpost (some e) rfl e rfl
    obtain ⟨out, -, hfile, -⟩ := hw'.cached _ s hs c (hc.mono hg) rfl
    have hcall : w'.expansionCall s.file = some c := by
      simp only [Workspace.expansionCall, hfile]
      exact hw'.callOfKey_of_mem (hg.callsIn hmem)
    exact ⟨hcall, Session.fileStartOffset_run_of_call (s := s) hcall hs⟩

/-- In the workspace of one call of a macro that parenthesises its argument, the reference to the
file's root resolves to the root, and the call's expansion file leads back to the call and starts at
the expansion's base. -/
theorem parenthesised_call_named_exactly :
    (NodePtr.ofElement ⟨0, (parse "paren!(a)" .sourceFile).tree,
      Element.root (parse "paren!(a)" .sourceFile).tree⟩).resolveIn
        (parse "paren!(a)" .sourceFile).tree =
      some (Element.root (parse "paren!(a)" .sourceFile).tree) ∧
    ∃ (w : Workspace) (c : MacroCall), w.Reachable none ∧ c ∈ w.callsIn 0 ∧
      ∃ e w', (Session.expansion c).run.run w = (.ok (some e), w') ∧
        w'.expansionCall e.file = some c ∧
        (Session.fileStartOffset e.file).run.run w' = (.ok (some e.base), w') := by
  have hw := @Workspace.Reachable.create none [("paren", .template "$x" "($x)")]
    [⟨"lib.rs", "paren!(a)", 0⟩] defaultMaxDepth _ _ rfl
  refine ⟨nodes_and_calls_named_exactly.1 _ _ 0 _ (Green.root_mem_members _) ?root,
    _, _, hw, List.get_mem _ ⟨0, ?listed⟩, _, _, Session.run_eq_of_isSome ?expands,
    nodes_and_calls_named_exactly.2.2 none _ hw 0 _ _ _ (List.get_mem _ _)
      (Session.run_eq_of_isSome ?expands)⟩
  case root => decide +kernel
  case listed => decide +kernel
  case expands => decide +kernel

end MacroTrace
