import MacroTrace.Proofs.Trace.Copies
/-! Context links. Setting a context writes a file's explicit context and, when the context lies
in another file, the file's inherited link to that file; forgetting a file drops the entries kept
for it and those pointing into it. Along every run of such edits the two tables stay linked: a
file whose explicit context lies in another file links to that file, and a file that links
somewhere links away from itself and has an explicit context. The crate of a file follows: a
source file keeps its own, a file whose context lies elsewhere takes the crate reached from the
context's file, and a file with no context the crate reached through the call that made or
included it. -/
namespace MacroTrace

namespace Overlay

def setContext (o : Overlay) (f : FileId) (p : NodePtr) : Overlay :=
  let o := (o.setExplicit f p).clearCallSites
  if p.file != f then o.setInherited f p.file else o

@[simp] theorem setContext_explicit (o : Overlay) (f : FileId) (p : NodePtr) (g : FileId) :
    (o.setContext f p).explicit g = if g = f then some p else o.explicit g := by
  unfold setContext
  split <;> rfl

@[simp] theorem setContext_inherited (o : Overlay) (f : FileId) (p : NodePtr) (g : FileId) :
    (o.setContext f p).inherited g =
      if p.file ≠ f ∧ g = f then some p.file else o.inherited g := by
  unfold setContext
  by_cases hp : p.file = f
  · simp [hp, clearCallSites, setExplicit]
  · by_cases hg : g = f <;> simp [hp, hg, setInherited, clearCallSites, setExplicit]

@[simp] theorem forgetFile_explicit (o : Overlay) (f g : FileId) :
    (o.forgetFile f).explicit g = if g = f then none else (o.explicit g).filter (·.file != f) :=
  rfl

@[simp] theorem forgetFile_inherited (o : Overlay) (f g : FileId) :
    (o.forgetFile f).inherited g = if g = f then none else (o.inherited g).filter (· != f) :=
  rfl

@[simp] theorem remember_explicit (o : Overlay) (f : FileId) (p : NodePtr) :
    (o.remember f p).explicit = o.explicit := rfl

@[simp] theorem remember_inherited (o : Overlay) (f : FileId) (p : NodePtr) :
    (o.remember f p).inherited = o.inherited := rfl

/-- The overlays that a run of edits reaches from the empty one: contexts set, files forgotten,
and call-site contexts remembered by lookups. -/
inductive Edited : Overlay → Prop
  | empty : Edited {}
  | setContext {o : Overlay} (f : FileId) (p : NodePtr) : Edited o → Edited (o.setContext f p)
  | forgetFile {o : Overlay} (f : FileId) : Edited o → Edited (o.forgetFile f)
  | remember {o : Overlay} (f : FileId) (p : NodePtr) : Edited o → Edited (o.remember f p)

/-- The explicit and inherited tables agree: a context in another file comes with a link to that
file, and a link leads away from its file to the file of its context, unless that context has
since been set into the file itself. -/
structure Linked (o : Overlay) : Prop where
  inherited_of_explicit : ∀ f p, o.explicit f = some p → p.file ≠ f → o.inherited f = some p.file
  explicit_of_inherited : ∀ f g, o.inherited f = some g →
    g ≠ f ∧ ∃ p, o.explicit f = some p ∧ (p.file = g ∨ p.file = f)

namespace Linked

variable {o : Overlay}

theorem empty : Linked {} := ⟨fun _ _ h => (by cases h), fun _ _ h => (by cases h)⟩

theorem setContext (h : o.Linked) (f : FileId) (p : NodePtr) : (o.setContext f p).Linked := by
  constructor
  · intro g q hq hne
    by_cases hg : g = f
    · subst hg
      simp only [setContext_explicit, if_true, Option.some.injEq] at hq
      subst hq
      simp [hne]
    · simp only [setContext_explicit, hg, if_false] at hq
      simp [hg, h.inherited_of_explicit g q hq hne]
  · intro g g' hg'
    by_cases hg : g = f
    · subst hg
      by_cases hp : p.file = g
      · simp only [setContext_inherited, hp, ne_eq, not_true_eq_false, false_and, if_false] at hg'
        exact ⟨(h.explicit_of_inherited g g' hg').1, p, by simp, .inr hp⟩
      · simp only [setContext_inherited, ne_eq, hp, not_false_eq_true, and_self, if_true,
          Option.some.injEq] at hg'
        subst hg'
        exact ⟨hp, p, by simp, .inl rfl⟩
    · simp only [setContext_inherited, hg, and_false, if_false] at hg'
      simpa [hg] using h.explicit_of_inherited g g' hg'

theorem forgetFile (h : o.Linked) (f : FileId) : (o.forgetFile f).Linked := by
  constructor
  · intro g q hq hne
    by_cases hg : g = f
    · simp [hg] at hq
    · simp only [forgetFile_explicit, hg, if_false, Option.filter_eq_some_iff, bne_iff_ne,
        ne_eq] at hq
      simp [hg, h.inherited_of_explicit g q hq.1 hne, hq.2]
  · intro g g' hg'
    by_cases hg : g = f
    · simp [hg] at hg'
    · simp only [forgetFile_inherited, hg, if_false, Option.filter_eq_some_iff, bne_iff_ne,
        ne_eq] at hg'
      obtain ⟨hne, q, hq, hqg⟩ := h.explicit_of_inherited g g' hg'.1
      have hq' : q.file ≠ f := by
        rcases hqg with hqg | hqg <;> rw [hqg]
        · exact hg'.2
        · exact hg
      exact ⟨hne, q, by simp [hg, hq, hq'], hqg⟩

theorem remember (h : o.Linked) (f : FileId) (p : NodePtr) : (o.remember f p).Linked :=
  ⟨h.inherited_of_explicit, h.explicit_of_inherited⟩

end Linked

theorem Edited.linked {o : Overlay} (h : o.Edited) : o.Linked := by
  induction h with
  | empty => exact .empty
  | setContext f p _ ih => exact ih.setContext f p
  | forgetFile f _ ih => exact ih.forgetFile f
  | remember f p _ ih => exact ih.remember f p

end Overlay

namespace Session

variable {w : Workspace}

@[simp] theorem run_fileCrate (f : FileId) : (fileCrate f).run.run w = (.ok (w.fileCrate f), w) :=
  rfl

@[simp] theorem run_overlay : overlay.run.run w = (.ok w.overlay, w) := rfl

@[simp] theorem run_includedFrom (f : FileId) :
    (includedFrom f).run.run w = (.ok (w.includedFrom f), w) := rfl

@[simp] theorem run_modifyOverlay (g : Overlay → Overlay) :
    (modifyOverlay g).run.run w = (.ok (), { w with overlay := g w.overlay }) := rfl

theorem run_setContext (n ctx : FileElement) : (setContext n ctx).run.run w =
    (.ok (), { w with overlay := w.overlay.setContext n.file (NodePtr.ofElement ctx) }) := rfl

theorem run_forgetFile (f : FileId) :
    (forgetFile f).run.run w = (.ok (), { w with overlay := w.overlay.forgetFile f }) := rfl

theorem crateOfFile_go_of_crate {n : Nat} {f : FileId} {k : Nat} (h : w.fileCrate f = some k) :
    (crateOfFile.go (n + 1) f).run.run w = (.ok (some k), w) := by
  simp only [crateOfFile.go, run_bind, run_fileCrate, h, run_pure]

theorem crateOfFile_go_of_inherited {n : Nat} {f g : FileId} (hc : w.fileCrate f = none)
    (hi : w.overlay.inherited f = some g) :
    (crateOfFile.go (n + 1) f).run.run w = (crateOfFile.go n g).run.run w := by
  simp only [crateOfFile.go, run_bind, run_fileCrate, hc, run_overlay, hi]

theorem crateOfFile_go_of_call {n : Nat} {f : FileId} (hc : w.fileCrate f = none)
    (hi : w.overlay.inherited f = none) : (crateOfFile.go (n + 1) f).run.run w =
      match w.expansionCall f, w.includedFrom f with
      | some c, _ => (crateOfFile.go n c.file).run.run w
      | none, some c => (crateOfFile.go n c.file).run.run w
      | none, none => (.ok none, w) := by
  simp only [crateOfFile.go, run_bind, run_fileCrate, hc, run_overlay, hi, run_expansionCall]
  cases w.expansionCall f with
  | some c => rfl
  | none =>
    simp only [run_bind, run_includedFrom]
    cases w.includedFrom f <;> rfl

end Session

open Session in
/-- Along every run of context edits, a file whose explicit context lies in another file links to
that file, and a file that links somewhere links away from itself, to the file of its explicit
context unless that context was since set into the file itself: where a file's context does not
lie in the file, its link is exactly its context's file. So the crate of a source file is its own;
a file without one whose context lies in another file takes the crate reached from that file, one
level of the depth limit spent; one whose context lies in itself still follows the link an earlier
context left, if any; and one without a context takes the crate reached through the call that
made or included it. -/
theorem crate_follows_context_links {w : Workspace} (ho : w.overlay.Edited) (f : FileId) :
    (∀ p, w.overlay.explicit f = some p → p.file ≠ f → w.overlay.inherited f = some p.file) ∧
    (∀ g, w.overlay.inherited f = some g →
      g ≠ f ∧ ∃ p, w.overlay.explicit f = some p ∧ (p.file = g ∨ p.file = f)) ∧
    ((∀ p, w.overlay.explicit f = some p → p.file ≠ f) → ∀ g,
      w.overlay.inherited f = some g ↔ ∃ p, w.overlay.explicit f = some p ∧ p.file = g ∧ g ≠ f) ∧
    (∀ k, w.fileCrate f = some k → (crateOfFile f).run.run w = (.ok (some k), w)) ∧
    (w.fileCrate f = none → ∀ p, w.overlay.explicit f = some p → p.file ≠ f →
      (crateOfFile f).run.run w = (crateOfFile.go w.maxDepth p.file).run.run w) ∧
    (w.fileCrate f = none → ∀ p, w.overlay.explicit f = some p → p.file = f →
      (crateOfFile f).run.run w = match w.overlay.inherited f, w.expansionCall f,
          w.includedFrom f with
        | some g, _, _ => (crateOfFile.go w.maxDepth g).run.run w
        | none, some c, _ => (crateOfFile.go w.maxDepth c.file).run.run w
        | none, none, some c => (crateOfFile.go w.maxDepth c.file).run.run w
        | none, none, none => (.ok none, w)) ∧
    (w.fileCrate f = none → w.overlay.explicit f = none →
      (crateOfFile f).run.run w = match w.expansionCall f, w.includedFrom f with
        | some c, _ => (crateOfFile.go w.maxDepth c.file).run.run w
        | none, some c => (crateOfFile.go w.maxDepth c.file).run.run w
        | none, none => (.ok none, w)) := by
  have hl := ho.linked
  have hrun : (crateOfFile f).run.run w = (crateOfFile.go (w.maxDepth + 1) f).run.run w := by
    simp only [crateOfFile, run_bind, run_maxDepth]
  refine ⟨hl.inherited_of_explicit f, hl.explicit_of_inherited f, fun hout g => ⟨fun hg => ?_, ?_⟩,
    fun k hk => ?_, fun hc p hp hne => ?_, fun hc p hp hself => ?_, fun hc hnone => ?_⟩
  · obtain ⟨hne, p, hp, hpg⟩ := hl.explicit_of_inherited f g hg
    have hpf : p.file ≠ f := hout p hp
    exact ⟨p, hp, hpg.resolve_right hpf, hne⟩
  · rintro ⟨p, hp, rfl, hne⟩
    exact hl.inherited_of_explicit f p hp hne
  · rw [hrun, crateOfFile_go_of_crate hk]
  · rw [hrun, crateOfFile_go_of_inherited hc (hl.inherited_of_explicit f p hp hne)]
  · rw [hrun]
    cases hi : w.overlay.inherited f with
    | some g => rw [crateOfFile_go_of_inherited hc hi]
    | none =>
      rw [crateOfFile_go_of_call hc hi]
      cases w.expansionCall f <;> cases w.includedFrom f <;> rfl
  · have hi : w.overlay.inherited f = none := by
      cases hi : w.overlay.inherited f with
      | none => rfl
      | some g =>
        obtain ⟨-, p, hp, -⟩ := hl.explicit_of_inherited f g hi
        rw [hnone] at hp
        cases hp
    rw [hrun, crateOfFile_go_of_call hc hi]

open Session in
/-- The struct an expansion makes, given a context in a file of another crate, takes that file's
crate. -/
theorem expansion_takes_context_crate : ∃ w : Workspace, w.overlay.Edited ∧
    w.fileCrate 2 = none ∧ (w.overlay.explicit 2).map (·.file) = some 1 ∧
    (crateOfFile 2).run.run w = (crateOfFile.go w.maxDepth 1).run.run w ∧
    ((crateOfFile.go w.maxDepth 1).run.run w).1 = .ok (some 2) := by
  let w₀ := ((Workspace.create [("foo", .template "$i" "struct $i;")]
    [⟨"main.wf", "foo!(X);", 1⟩, ⟨"other.wf", "struct Other;", 2⟩] defaultMaxDepth none).toOption.map
      (·.1)).getD {}
  let w₁ := ((Session.expansion (w₀.callsIn 0).head!).run.run w₀).2
  let p : NodePtr := ⟨1, .structItem, ⟨0, 13, by decide⟩⟩
  have ho : ({ w₁ with overlay := ({} : Overlay).setContext 2 p } : Workspace).overlay.Edited :=
    .setContext 2 p .empty
  refine ⟨_, ho, ?source, rfl, (crate_follows_context_links ho 2).2.2.2.2.1 ?source p rfl
    (by decide), ?crate⟩
  case source => decide +kernel
  case crate => decide +kernel

open Session in
/-- Crates do not follow contexts the way the links promise, in two ways. A source file keeps its
own crate when its context is set into a file of another crate. And once the context of an
expansion is set into another file and then into the expansion itself, its link still leads to
the other file, whose crate it takes instead of the crate of the file its call is written in. -/
theorem context_crates_diverge :
    (∃ w : Workspace, w.Reachable none ∧ (w.overlay.explicit 0).map (·.file) = some 1 ∧
      ((crateOfFile 0).run.run w).1 = .ok (some 1) ∧
      ((crateOfFile 1).run.run w).1 = .ok (some 2)) ∧
    (∃ w : Workspace, w.Reachable none ∧ (w.overlay.explicit 2).map (·.file) = some 2 ∧
      w.overlay.inherited 2 = some 1 ∧ (w.expansionCall 2).map (·.file) = some 0 ∧
      ((crateOfFile 2).run.run w).1 = .ok (some 2) ∧
      ((crateOfFile 0).run.run w).1 = .ok (some 1)) := by
  have hsource := Workspace.Reachable.step (.setContext (.ok ⟨.id 0, .ok (.node .structItem 0)⟩)
    (.ok ⟨.id 1, .ok (.node .structItem 0)⟩)) (@Workspace.Reachable.create none []
      [⟨"main.wf", "struct A;", 1⟩, ⟨"other.wf", "struct B;", 2⟩] defaultMaxDepth _ _ rfl)
  have hstale := Workspace.Reachable.step
    (.setContext (.ok ⟨.expansionOf (.named (.id 0) "m" (.ok 0)), .ok .root⟩)
      (.ok ⟨.expansionOf (.named (.id 0) "m" (.ok 0)), .ok (.node .structItem 0)⟩))
    (Workspace.Reachable.step
      (.setContext (.ok ⟨.expansionOf (.named (.id 0) "m" (.ok 0)), .ok .root⟩)
        (.ok ⟨.id 1, .ok (.node .structItem 0)⟩))
      (@Workspace.Reachable.create none [("m", .template "$x" "struct $x;")]
        [⟨"lib.rs", "m!(X);", 1⟩, ⟨"other.wf", "struct B;", 2⟩] defaultMaxDepth _ _ rfl))
  refine ⟨⟨_, hsource, ?explicit, ?own, ?other⟩, ⟨_, hstale, ?self, ?link, ?call, ?stale, ?outer⟩⟩
  all_goals decide +kernel

end MacroTrace
