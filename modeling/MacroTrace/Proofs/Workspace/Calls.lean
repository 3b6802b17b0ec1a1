import MacroTrace.Workspace.Reference
import MacroTrace.Proofs.Workspace.Invariant
import MacroTrace.Proofs.Syntax.Descent
import Mathlib.Logic.Relation

/-! Calls and elements the workspace hands out are written in it. The elements found by walking a
tree (covering a range, the token at an offset, a node's ancestors) are members of the tree; so a
call listed for a file, found again from its key, or holding a token's text is a genuine call of
the workspace, and an element a reference names is a genuine element. The call an expansion file
comes from stays the same as the workspace grows, and so does the chain of calls met by climbing
from a call's file to the call it comes from. -/
namespace MacroTrace

namespace Green

variable {root : Green}

theorem elementAt?_mem {t : List Nat} {e : Element} (h : root.elementAt? t = some e) :
    e ∈ root.members :=
  locate_go_mem _ _ _ (root_mem_members root) h

theorem ancestors_mem {e a : Element} (he : e ∈ root.members) (ha : a ∈ root.ancestors e) :
    a ∈ root.members := by
  simp only [ancestors, List.mem_cons, List.mem_filterMap] at ha
  rcases ha with rfl | ⟨t, -, ht⟩
  · exact he
  · exact elementAt?_mem ht

theorem coverFrom_mem {r : TextRange} :
    ∀ (n : Nat) (e : Element), e ∈ root.members → coverFrom n e r ∈ root.members
  | 0, e, he => he
  | n + 1, e, he => by
    simp only [coverFrom]
    split
    · exact he
    · split
      · rename_i c hc
        exact coverFrom_mem n c (mem_members_of_mem_children he (childAtRange_mem hc))
      · exact he

theorem covering_mem (r : TextRange) : root.covering r ∈ root.members :=
  coverFrom_mem _ _ (root_mem_members root)

theorem tokenAtFrom_mem {off : Nat} :
    ∀ (n : Nat) (e t : Element), e ∈ root.members → tokenAtFrom n e off = some t → t ∈ root.members
  | 0, _, _, _, h => by simp [tokenAtFrom] at h
  | n + 1, e, t, he, h => by
    simp only [tokenAtFrom] at h
    split at h
    · cases h
      exact he
    · split at h
      · cases h
      · split at h
        · rename_i c hc
          have hc' := List.mem_of_mem_filter (List.mem_of_getLast? hc)
          exact tokenAtFrom_mem n c t (mem_members_of_mem_children he hc') h
        · cases h

theorem tokenAt_mem {off : Nat} {t : Element} (h : root.tokenAt off = some t) : t ∈ root.members :=
  tokenAtFrom_mem _ _ t (root_mem_members root) h

theorem tokenAtFrom_isToken {off : Nat} :
    ∀ (n : Nat) (e t : Element), tokenAtFrom n e off = some t → t.isToken = true
  | 0, _, _, h => by simp [tokenAtFrom] at h
  | n + 1, e, t, h => by
    simp only [tokenAtFrom] at h
    split at h
    · cases h
      assumption
    · split at h
      · cases h
      · split at h
        · exact tokenAtFrom_isToken n _ t h
        · cases h

theorem tokenAt_isToken {off : Nat} {t : Element} (h : root.tokenAt off = some t) :
    t.isToken = true :=
  tokenAtFrom_isToken _ _ t h

end Green

theorem NodePtr.resolveIn_spec {p : NodePtr} {root : Green} {n : Element}
    (h : p.resolveIn root = some n) : n ∈ root.members ∧ n.kind = p.kind ∧ n.range = p.range := by
  simp only [resolveIn] at h
  split at h
  · simp only [Option.bind_eq_some_iff] at h
    obtain ⟨s, hs, hn⟩ := h
    have hsm : s ∈ root.members := by
      split at hs
      · exact (Green.parent?_spec (Green.covering_mem _) hs).2
      · cases hs
        exact Green.covering_mem _
    have hp := List.find?_some hn
    simp only [Bool.and_eq_true, beq_iff_eq] at hp
    exact ⟨Green.ancestors_mem hsm (List.mem_of_find?_eq_some hn), hp.1.1,
      TextRange.eq_of_start_stop hp.1.2 hp.2⟩
  · cases h

theorem NodePtr.containsRange_of_mem {root : Green} {x : Element} (hx : x ∈ root.members) :
    (Element.root root).range.containsRange x.range = true := by
  have := Green.preorderAt_bounds root 0 [] x hx
  simp only [TextRange.containsRange, Bool.and_eq_true, decide_eq_true_eq]
  simp only [Element.range, Element.root]
  omega

theorem NodePtr.searchStart_of_mem {root : Green} {x : Element} (hx : x ∈ root.members)
    (hn : x.isToken = false) (hpos : 0 < x.green.width) :
    ∃ s, (if (root.covering x.range).isToken then root.parent? (root.covering x.range)
      else some (root.covering x.range)) = some s ∧ s ∈ root.members ∧ s.isToken = false ∧
      x.trail <:+ s.trail := by
  have hcov := Green.covering_under hx hn hpos
  have hcm : root.covering x.range ∈ root.members := Green.covering_mem x.range
  have hsuf := Green.descendants_suffix hcov
  by_cases htok : (root.covering x.range).isToken = true
  · have hne : x.trail ≠ (root.covering x.range).trail := fun h => by
      rw [← Green.eq_of_trail_eq hx hcm h, hn] at htok
      cases htok
    cases hct : (root.covering x.range).trail with
    | nil =>
      rw [hct] at hsuf hne
      exact absurd (List.suffix_nil.1 hsuf) hne
    | cons j t =>
      obtain ⟨p, hp, hpm, hpt⟩ := Green.parent?_of_trail hcm hct
      have hpn : p.isToken = false := by
        have hc := (Green.parent?_spec hcm hp).1
        cases hg : p.green with
        | token tk => simp [Element.children, hg, Green.children, Element.siblings] at hc
        | node k cs => simp [Element.isToken, hg, Green.isToken]
      rw [hct] at hsuf hne
      rcases List.suffix_cons_iff.1 hsuf with h | h
      · exact absurd h hne
      · exact ⟨p, by rw [if_pos htok, hp], hpm, hpn, hpt ▸ h⟩
  · exact ⟨_, by rw [if_neg htok], hcm, by simpa using htok, hsuf⟩

/-- A reference to a non-empty node by the node's own kind and range finds a node: the search
starts under the node, at the covering element or its parent, so the node is among the
ancestors it looks through. -/
theorem NodePtr.resolveIn_of_mem {root : Green} {x : Element} (hx : x ∈ root.members)
    (hn : x.isToken = false) (hpos : 0 < x.green.width) (f : FileId) :
    ∃ n, (NodePtr.mk f x.kind x.range).resolveIn root = some n := by
  obtain ⟨s, hs, hsm, -, hxs⟩ := NodePtr.searchStart_of_mem hx hn hpos
  simp only [NodePtr.resolveIn]
  rw [if_pos (NodePtr.containsRange_of_mem hx), hs, Option.bind_some]
  exact Option.isSome_iff_exists.1
    (List.find?_isSome.2 ⟨x, Green.mem_ancestors hx hsm hxs, by simp⟩)

namespace Workspace

variable {w : Workspace}

theorem callOfKey_genuine {key : CallKey} {c : MacroCall} (h : w.callOfKey key = some c) :
    c.Genuine w ∧ c.key = key := by
  simp only [callOfKey, bind, Option.bind_eq_some_iff] at h
  obtain ⟨root, hroot, node, hnode, h⟩ := h
  obtain ⟨hmem, hkind, hrange⟩ := NodePtr.resolveIn_spec hnode
  simp only at hkind hrange
  have hcall : c.file = key.file ∧ c.root = root ∧ c.node = node ∧ c.kind = key.kind := by
    split at h
    · rename_i hk
      cases h
      exact ⟨rfl, rfl, rfl, hk.symm⟩
    · rename_i hk
      simp only [MacroCall.attr?, Option.ite_none_left_eq_some, Option.some.injEq] at h
      obtain ⟨-, rfl⟩ := h
      exact ⟨rfl, rfl, rfl, hk.symm⟩
    · rename_i i hk
      simp only [MacroCall.derive?, Option.ite_none_right_eq_some, Option.some.injEq] at h
      obtain ⟨-, rfl⟩ := h
      exact ⟨rfl, rfl, rfl, hk.symm⟩
  obtain ⟨hf, hr, hn, hk⟩ := hcall
  refine ⟨⟨⟨by simp [MacroCall.element, hf, hr, hroot], by simpa [hr, hn] using hmem⟩, ?_⟩, ?_⟩
  · rw [hn, hkind, hk]
    cases key.kind <;> rfl
  · cases key
    simp only [MacroCall.key, CallKey.mk.injEq]
    exact ⟨hf, by rw [hn, hrange], hk⟩

theorem expansionCall_genuine {f : FileId} {c : MacroCall} (h : w.expansionCall f = some c) :
    c.Genuine w := by
  simp only [expansionCall] at h
  split at h
  · exact (callOfKey_genuine h).1
  · cases h

end Workspace

theorem callsInTree_spec {f : FileId} {root : Green} {c : MacroCall} (h : c ∈ callsInTree f root) :
    c.file = f ∧ c.root = root ∧ c.node ∈ root.members ∧
      c.node.kind = if c.kind = .fnLike then .macroCall else .attr := by
  simp only [callsInTree, List.mem_mergeSort, List.mem_append, List.mem_map, List.mem_flatMap,
    List.mem_filter] at h
  rcases h with ⟨n, ⟨⟨hn, -⟩, hk⟩, rfl⟩ | ⟨item, ⟨⟨hi, -⟩, -⟩, hc⟩
  · exact ⟨rfl, rfl, hn, by simpa [MacroCall.fnLike] using hk⟩
  · have him : item ∈ root.members := hi
    simp only [MacroCall.forItem, List.mem_flatMap] at hc
    obtain ⟨a, ha, hc⟩ := hc
    simp only [Element.attrs, Element.childrenOfKind, Element.childNodes, List.mem_filter,
      beq_iff_eq] at ha
    have ham := Green.mem_members_of_mem_children him ha.1.1
    split at hc
    · simp only [List.mem_filterMap, MacroCall.derive?, Option.ite_none_right_eq_some,
        Option.some.injEq] at hc
      obtain ⟨i, -, -, rfl⟩ := hc
      exact ⟨rfl, rfl, ham, by simp [ha.2]⟩
    · simp only [MacroCall.attr?, Option.mem_toList, Option.ite_none_left_eq_some,
        Option.some.injEq] at hc
      obtain ⟨-, rfl⟩ := hc
      exact ⟨rfl, rfl, ham, by simp [ha.2]⟩

namespace Workspace

variable {w : Workspace}

theorem callsIn_genuine {f : FileId} {c : MacroCall} (h : c ∈ w.callsIn f) : c.Genuine w := by
  simp only [callsIn] at h
  split at h
  · rename_i t ht
    obtain ⟨hf, hr, hn, hk⟩ := callsInTree_spec h
    exact ⟨⟨by simp [MacroCall.element, hf, hr, ht], by simpa [hr] using hn⟩, hk⟩
  · simp at h

theorem includedFrom_genuine {f : FileId} {c : MacroCall} (h : w.includedFrom f = some c) :
    c.Genuine w := by
  simp only [includedFrom] at h
  obtain ⟨g, -, hg⟩ := List.mem_flatMap.1 (List.mem_of_find?_eq_some h)
  exact callsIn_genuine hg

end Workspace

namespace FileElement

variable {w : Workspace} {e : FileElement}

theorem Genuine.parent? (h : e.Genuine w) {p : FileElement} (hp : e.parent? = some p) :
    p.Genuine w ∧ e.elem ∈ p.elem.children := by
  simp only [FileElement.parent?, Option.map_eq_some_iff] at hp
  obtain ⟨q, hq, rfl⟩ := hp
  obtain ⟨hc, hm⟩ := Green.parent?_spec h.2 hq
  exact ⟨⟨h.1, hm⟩, hc⟩

theorem Genuine.ancestors (h : e.Genuine w) {a : FileElement} (ha : a ∈ e.ancestors) :
    a.Genuine w := by
  simp only [FileElement.ancestors, List.mem_map] at ha
  obtain ⟨x, hx, rfl⟩ := ha
  exact ⟨h.1, Green.ancestors_mem h.2 hx⟩

end FileElement

namespace Session

theorem callHolding_genuine {w : Workspace} {t : FileElement} (ht : t.Genuine w) {c : MacroCall}
    (h : callHolding t = some c) : c.Genuine w := by
  simp only [callHolding] at h
  obtain ⟨n, hn, hc⟩ := List.exists_of_findSome?_eq_some h
  have hng : n.Genuine w ∧ n.file = t.file ∧ n.root = t.root := by
    split at hn
    · rename_i p hp
      have hpg := (ht.parent? hp).1
      have hp' := hp
      simp only [FileElement.parent?, Option.map_eq_some_iff] at hp'
      obtain ⟨q, -, rfl⟩ := hp'
      simp only [FileElement.ancestors, List.mem_reverse, List.mem_map] at hn
      obtain ⟨x, hx, rfl⟩ := hn
      exact ⟨⟨ht.1, Green.ancestors_mem hpg.2 hx⟩, rfl, rfl⟩
    · simp at hn
  obtain ⟨hng, hnf, hnr⟩ := hng
  split at hc
  · split at hc
    · rename_i p hp
      split at hc
      · rename_i hk
        cases hc
        have hpg := (hng.parent? hp).1
        have hp' := hp
        simp only [FileElement.parent?, Option.map_eq_some_iff] at hp'
        obtain ⟨q, -, rfl⟩ := hp'
        refine ⟨⟨by simpa [MacroCall.fnLike, ← hnf, ← hnr] using hng.1, by
          simpa [MacroCall.fnLike, ← hnr] using hpg.2⟩, by simpa [MacroCall.fnLike] using hk⟩
      · cases hc
    · cases hc
  · split at hc
    · split at hc
      · rename_i a ha
        simp only [MacroCall.attr?, Option.ite_none_left_eq_some, Option.some.injEq] at hc
        obtain ⟨-, rfl⟩ := hc
        have ha' := List.mem_of_find?_eq_some ha
        simp only [Element.attrs, Element.childrenOfKind, Element.childNodes, List.mem_filter,
          beq_iff_eq] at ha'
        refine ⟨⟨by simpa [MacroCall.element, ← hnf, ← hnr] using hng.1, ?_⟩, by simp [ha'.2]⟩
        simpa [← hnr] using Green.mem_members_of_mem_children hng.2 ha'.1.1
      · cases hc
    · cases hc

theorem callHolding_spec {t : FileElement} {c : MacroCall} (h : callHolding t = some c) :
    c.file = t.file ∧ c.root = t.root ∧
      (c.kind = .fnLike ∨ c.kind = .attr ∧ c.node.isDerive = false) := by
  simp only [callHolding] at h
  obtain ⟨n, -, hc⟩ := List.exists_of_findSome?_eq_some h
  split at hc
  · split at hc
    · split at hc
      · cases hc
        exact ⟨rfl, rfl, .inl rfl⟩
      · cases hc
    · cases hc
  · split at hc
    · split at hc
      · simp only [MacroCall.attr?, Option.ite_none_left_eq_some, Option.some.injEq] at hc
        obtain ⟨hd, rfl⟩ := hc
        exact ⟨rfl, rfl, .inr ⟨rfl, by simpa using hd⟩⟩
      · cases hc
    · cases hc

end Session

namespace Workspace

variable {w w' : Workspace}

theorem Grows.callOfKey (hg : w.Grows w') {key : CallKey} {root : Green}
    (ht : w.tree? key.file = some root) : w'.callOfKey key = w.callOfKey key := by
  simp only [Workspace.callOfKey, hg.tree? ht, ht]

theorem callOfKey_tree? {key : CallKey} {c : MacroCall} (h : w.callOfKey key = some c) :
    ∃ root, w.tree? key.file = some root := by
  simp only [Workspace.callOfKey, bind, Option.bind_eq_some_iff] at h
  obtain ⟨root, hroot, -⟩ := h
  exact ⟨root, hroot⟩

theorem Grows.expansionCall (hg : w.Grows w') {f : FileId} {p : MacroCall}
    (h : w.expansionCall f = some p) : w'.expansionCall f = some p := by
  unfold Workspace.expansionCall at h ⊢
  split at h
  · rename_i x path text tree key hx
    obtain ⟨root, hroot⟩ := callOfKey_tree? h
    rw [hg.files f _ hx]
    exact (hg.callOfKey hroot).trans h
  · cases h

theorem Coherent.expansionCall_grows (hw : w.Coherent) (hg : w.Grows w') {f : FileId}
    {x : FileEntry} (hf : w.file? f = some x) : w'.expansionCall f = w.expansionCall f := by
  unfold Workspace.expansionCall
  rw [hg.files f x hf, hf]
  rcases x with ⟨path, text, tree, _ | key⟩
  · rfl
  · obtain ⟨c, -, hc, rfl, -⟩ := hw.produced f _ key hf rfl
    exact hg.callOfKey hc.1.1

def Climbs (w : Workspace) (c top : MacroCall) : Prop :=
  Relation.ReflTransGen (fun d p => w.expansionCall d.file = some p) c top

theorem Climbs.mono (hg : w.Grows w') {c top : MacroCall} (h : w.Climbs c top) :
    w'.Climbs c top :=
  Relation.ReflTransGen.mono (fun _ _ => hg.expansionCall) _ _ h

end Workspace

end MacroTrace
