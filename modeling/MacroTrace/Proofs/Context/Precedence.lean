import MacroTrace.Proofs.Trace.Depth
import MacroTrace.Proofs.Workspace.Pointer
/-!
Which context a lookup answers, over whole runs of a client's operations: contexts set by hand,
files forgotten, and lookups, which change only the remembered call-site contexts. A node below
file level has its structural parent. A file-level node whose file has a context set by hand (by
the last `setContext` on a node of the file, neither file forgotten since) has exactly that
context under either access: the reference kept for it, the context's file, kind and range, names
the same node again, because in a parsed tree no node has a proper descendant of its own kind and
range. Without one, a lookup that may not consult the index answers the structural parent, and
one that may answers the call-site context when there is one and the structural parent otherwise.
-/
namespace MacroTrace

/-- What a client does with the resolver: set a node's context, forget a file, or look up a
node's context. -/
inductive ContextOp where
  | set (n ctx : FileElement)
  | forget (f : FileId)
  | lookup (n : FileElement) (access : IndexAccess)

namespace ContextOp

def run : ContextOp → Session Unit
  | set n ctx => Session.setContext n ctx
  | forget f => Session.forgetFile f
  | lookup n access => do let _ ← Session.getContext n access

/-- The workspace after a run of operations, each from where the one before left off. -/
def runAll (w : Workspace) (ops : List ContextOp) : Workspace :=
  ops.foldl (fun w op => (op.run.run.run w).2) w

/-- The context set by hand for a file after an operation: the operation's context when it sets
one on a node of the file; none when it forgets the file, or the context's file; otherwise as
before. -/
def track (f : FileId) (c : Option FileElement) : ContextOp → Option FileElement
  | set n ctx => if n.file = f then some ctx else c
  | forget g => if g = f then none else c.filter (·.file != g)
  | lookup _ _ => c

/-- The context of the last `set` on a node of a file, unless that file or the context's file
was forgotten after it. -/
def lastContext (f : FileId) (ops : List ContextOp) : Option FileElement :=
  ops.foldl (track f) none

theorem mem_of_foldl_track {f : FileId} {x : FileElement} :
    ∀ (ops : List ContextOp) (c : Option FileElement), ops.foldl (track f) c = some x →
      c = some x ∨ ∃ m, set m x ∈ ops
  | [], _, h => .inl h
  | op :: ops, c, h => by
    rcases mem_of_foldl_track ops _ h with h | ⟨m, hm⟩
    · cases op with
      | set n ctx =>
        simp only [track] at h
        split at h
        · cases h
          exact .inr ⟨n, List.mem_cons_self⟩
        · exact .inl h
      | forget g =>
        simp only [track] at h
        split at h
        · cases h
        · exact .inl (Option.eq_some_of_filter_eq_some h)
      | lookup _ _ => exact .inl h
    · exact .inr ⟨m, List.mem_cons_of_mem _ hm⟩

theorem mem_of_lastContext {f : FileId} {ops : List ContextOp} {x : FileElement}
    (h : lastContext f ops = some x) : ∃ m, set m x ∈ ops := by
  rcases mem_of_foldl_track ops none h with h | h
  · cases h
  · exact h

end ContextOp

def Workspace.resolve (w : Workspace) (p : NodePtr) : Option FileElement :=
  (w.tree? p.file).bind fun root => (p.resolveIn root).map fun n => ⟨p.file, root, n⟩

namespace Session

variable {α β : Type} {w : Workspace}

theorem run_resolvePtr (p : NodePtr) : (resolvePtr p).run.run w = (.ok (w.resolve p), w) := by
  unfold resolvePtr
  cases h : w.tree? p.file <;> simp only [run_bind, run_tree?, h, run_pure, Workspace.resolve,
    Option.bind_none, Option.bind_some]

theorem run_explicitContext (f : FileId) :
    (explicitContext f).run.run w = (.ok ((w.overlay.explicit f).bind w.resolve), w) := by
  unfold explicitContext
  cases h : w.overlay.explicit f <;> simp only [run_bind, run_overlay, h, run_pure,
    run_resolvePtr, Option.bind_none, Option.bind_some]

theorem run_rememberedContext (f : FileId) :
    (rememberedContext f).run.run w = (.ok ((w.overlay.callSite f).bind w.resolve), w) := by
  unfold rememberedContext
  cases h : w.overlay.callSite f <;> simp only [run_bind, run_overlay, h, run_pure,
    run_resolvePtr, Option.bind_none, Option.bind_some]

/-! ### What a lookup changes -/

def Reads (x : Session α) : Prop := ∀ w, (x.run.run w).2 = w

/-- A workspace as a lookup leaves it: the same files, and the same contexts set by hand. -/
structure Keeps (w w' : Workspace) : Prop where
  files : w'.files = w.files
  explicit : w'.overlay.explicit = w.overlay.explicit

def KeepsContexts (x : Session α) : Prop := ∀ w, Keeps w (x.run.run w).2

theorem Keeps.trans {w₁ w₂ w₃ : Workspace} (h₁ : Keeps w₁ w₂) (h₂ : Keeps w₂ w₃) : Keeps w₁ w₃ :=
  ⟨h₂.files.trans h₁.files, h₂.explicit.trans h₁.explicit⟩

theorem Reads.pure (a : α) : Reads (Pure.pure a : Session α) := fun _ => rfl

theorem state_bind {x : Session α} {f : α → Session β} {w : Workspace} (P : Workspace → Prop)
    (hx : P (x.run.run w).2) (hf : ∀ a w', x.run.run w = (.ok a, w') → P ((f a).run.run w').2) :
    P ((x >>= f).run.run w).2 := by
  rw [run_bind]
  rcases hr : x.run.run w with ⟨_ | a, w'⟩ <;> rw [hr] at hx
  · exact hx
  · exact hf a w' hr

theorem Reads.bind {x : Session α} {f : α → Session β} (hx : Reads x) (hf : ∀ a, Reads (f a)) :
    Reads (x >>= f) := fun w =>
  state_bind (· = w) (hx w) fun a w' hr => by
    have hw := hx w
    rw [hr] at hw
    exact (hf a w').trans hw

theorem Reads.keeps {x : Session α} (h : Reads x) : KeepsContexts x := fun w =>
  (h w).symm ▸ ⟨rfl, rfl⟩

theorem KeepsContexts.bind {x : Session α} {f : α → Session β} (hx : KeepsContexts x)
    (hf : ∀ a, KeepsContexts (f a)) : KeepsContexts (x >>= f) := fun w =>
  state_bind (Keeps w) (hx w) fun a w' hr => by
    have hw := hx w
    rw [hr] at hw
    exact hw.trans (hf a w')

theorem reads_expansionCall (f : FileId) : Reads (expansionCall f) := fun _ => rfl

theorem reads_includedFrom (f : FileId) : Reads (includedFrom f) := fun _ => rfl

theorem reads_maxDepth : Reads maxDepth := fun _ => rfl

theorem reads_explicitContext (f : FileId) : Reads (explicitContext f) := fun w => by
  rw [run_explicitContext]

theorem reads_rememberedContext (f : FileId) : Reads (rememberedContext f) := fun w => by
  rw [run_rememberedContext]

theorem reads_climbStep (f : FileId) : Reads (climbStep f) := by
  unfold climbStep
  refine (reads_expansionCall f).bind fun via => ?_
  extract_lets jp
  have hjp : ∀ x, Reads (jp x) := by
    rintro ⟨call, included⟩
    simp -zeta only [jp]
    split
    · split
      · extract_lets ownerElem anchor
        split
        · exact Reads.pure _
        split
        · split <;> exact Reads.pure _
        refine (reads_explicitContext _).bind fun c => ?_
        split
        · exact Reads.pure _
        refine (reads_rememberedContext _).bind fun c => ?_
        split
        · exact Reads.pure _
        refine (reads_expansionCall _).bind fun c => ?_
        split
        · exact Reads.pure _
        refine (reads_includedFrom _).bind fun c => ?_
        split <;> exact Reads.pure _
      · exact Reads.pure _
    · exact Reads.pure _
  split
  · exact (Reads.pure _).bind hjp
  · exact (reads_includedFrom f).bind fun _ => (Reads.pure _).bind hjp

theorem keeps_forIn_remember (p : NodePtr) (l : List FileId) :
    KeepsContexts (forIn l PUnit.unit fun g _ => do
      modifyOverlay fun x => x.remember g p
      pure (ForInStep.yield PUnit.unit) : Session PUnit) := by
  intro w
  rw [run_forIn_remember]
  refine ⟨rfl, ?_⟩
  show (l.foldl (fun o g => o.remember g p) w.overlay).explicit = w.overlay.explicit
  induction l generalizing w with
  | nil => rfl
  | cons g l ih => exact ih { w with overlay := w.overlay.remember g p }

theorem keeps_climb (limit : Nat) : ∀ (fuel : Nat) (f : FileId) (visited : List FileId),
    KeepsContexts (climb limit fuel f visited)
  | 0, _, _ => (Reads.pure _).keeps
  | fuel + 1, f, visited => by
    unfold climb
    split
    · exact (Reads.pure _).keeps
    refine (reads_climbStep f).keeps.bind fun r => ?_
    obtain ⟨_, step⟩ := r
    cases step with
    | stuck => exact (Reads.pure _).keeps
    | found ctx => exact (keeps_forIn_remember _ _).bind fun _ => (Reads.pure _).keeps
    | next g => exact keeps_climb limit fuel g _

theorem keeps_callSiteContext (f : FileId) : KeepsContexts (callSiteContext f) := by
  unfold callSiteContext
  refine (reads_rememberedContext f).keeps.bind fun c => ?_
  split
  · exact (Reads.pure _).keeps
  exact reads_maxDepth.keeps.bind fun limit => keeps_climb limit _ f []

theorem keeps_getContext (n : FileElement) (access : IndexAccess) :
    KeepsContexts (getContext n access) := by
  unfold getContext
  split
  · exact (Reads.pure _).keeps
  refine (reads_explicitContext _).keeps.bind fun c => ?_
  split
  · exact (Reads.pure _).keeps
  split
  · refine (keeps_callSiteContext _).bind fun c => ?_
    split <;> exact (Reads.pure _).keeps
  · exact (Reads.pure _).keeps

end Session

namespace ContextOp

/-! ### Runs of operations -/

theorem keeps_run_lookup (n : FileElement) (access : IndexAccess) :
    Session.KeepsContexts (lookup n access).run :=
  (Session.keeps_getContext n access).bind fun _ => (Session.Reads.pure _).keeps

theorem run_files (op : ContextOp) (w : Workspace) : (op.run.run.run w).2.files = w.files := by
  cases op with
  | set n ctx => rfl
  | forget f => rfl
  | lookup n access => exact (keeps_run_lookup n access w).files

theorem run_explicit (op : ContextOp) {w : Workspace} {f : FileId} {c : Option FileElement}
    (h : w.overlay.explicit f = c.map NodePtr.ofElement) :
    (op.run.run.run w).2.overlay.explicit f = (track f c op).map NodePtr.ofElement := by
  cases op with
  | set n ctx =>
    rw [run, Session.run_setContext]
    simp only [Overlay.setContext_explicit, track, h]
    by_cases hf : f = n.file
    · simp [hf]
    · simp [hf, Ne.symm hf]
  | forget g =>
    rw [run, Session.run_forgetFile]
    simp only [Overlay.forgetFile_explicit, track, h]
    by_cases hf : f = g
    · simp [hf]
    · cases c <;> simp [hf, Ne.symm hf, Option.filter, NodePtr.ofElement, apply_ite]
  | lookup n access =>
    rw [(keeps_run_lookup n access w).explicit, h]
    rfl

theorem runAll_spec : ∀ (ops : List ContextOp) (w : Workspace) (c : FileId → Option FileElement),
    (∀ f, w.overlay.explicit f = (c f).map NodePtr.ofElement) →
      (runAll w ops).files = w.files ∧
      ∀ f, (runAll w ops).overlay.explicit f = (ops.foldl (track f) (c f)).map NodePtr.ofElement
  | [], _, _, h => ⟨rfl, h⟩
  | op :: ops, w, c, h => by
    obtain ⟨hfiles, hexp⟩ := runAll_spec ops _ (fun f => track f (c f) op)
      (fun f => run_explicit op (h f))
    exact ⟨hfiles.trans (run_files op w), hexp⟩

end ContextOp

theorem FileElement.Genuine.separated {w : Workspace} (hw : w.Coherent) {x : FileElement}
    (hx : x.Genuine w) : x.root.Separated := by
  have htree := hx.1
  simp only [Workspace.tree?, Option.map_eq_some_iff] at htree
  obtain ⟨e, he, hroot⟩ := htree
  obtain ⟨entry, hentry⟩ := hw.parsed _ e he
  rw [← hroot, hentry]
  exact Green.separated_parse _ entry

namespace Session

variable {w : Workspace}

theorem run_resolvePtr_ofElement {x : FileElement} (hsep : x.root.Separated)
    (htree : w.tree? x.file = some x.root) (hmem : x.elem ∈ x.root.members)
    (hn : x.elem.isToken = false) :
    (resolvePtr (NodePtr.ofElement x)).run.run w = (.ok (some x), w) := by
  rw [run_resolvePtr]
  simp only [Workspace.resolve, NodePtr.ofElement, htree, Option.bind_some, FileElement.kind, FileElement.range,
    NodePtr.resolveIn_self hsep hmem hn, Option.map_some]

theorem run_explicitContext_some {f : FileId} {p : NodePtr} (h : w.overlay.explicit f = some p) :
    (explicitContext f).run.run w = (resolvePtr p).run.run w := by
  rw [run_explicitContext, run_resolvePtr, h, Option.bind_some]

theorem run_getContext_explicit {n x : FileElement} (hlevel : n.isFileLevel = true)
    (hx : (explicitContext n.file).run.run w = (.ok (some x), w)) (access : IndexAccess) :
    (getContext n access).run.run w = (.ok (some x), w) := by
  unfold getContext
  simp only [hlevel, Bool.not_true, Bool.false_eq_true, if_false, run_bind, hx]
  rfl

/-- A file-level node whose file has no context set by hand answers its structural parent when
the index may not be consulted, and otherwise the call-site context of its file when there is
one. -/
theorem run_getContext_unset {n : FileElement} (hlevel : n.isFileLevel = true)
    (hx : w.overlay.explicit n.file = none) :
    (getContext n .forbidden).run.run w = (.ok n.parent?, w) ∧
      (getContext n .allowed).run.run w =
        (do let c ← callSiteContext n.file; return c.or n.parent?).run.run w := by
  have hnone : (explicitContext n.file).run.run w = (.ok none, w) := by
    rw [run_explicitContext, hx, Option.bind_none]
  unfold getContext
  simp only [hlevel, Bool.not_true, Bool.false_eq_true, if_false, run_bind, hnone]
  refine ⟨rfl, ?_⟩
  have hallowed : (IndexAccess.allowed == IndexAccess.allowed) = true := rfl
  rw [if_pos hallowed, run_bind]
  rcases (callSiteContext n.file).run.run w with ⟨_ | _ | c, w'⟩ <;> rfl

end Session

open Session in
/-- Which context a lookup answers after a run of operations from a coherent workspace with no
context set by hand, every context set being a node of a workspace file. A node below file level
answers its structural parent. A file-level node whose file was last given a context `x` by hand,
neither file forgotten since, answers exactly `x` under either access, and changes nothing. With
no such context, a lookup that may not consult the index answers the structural parent, and one
that may answers the call-site context of the node's file when there is one, and the structural
parent otherwise. -/
theorem context_precedence {w₀ : Workspace} (hw : w₀.Coherent)
    (hnone : ∀ f, w₀.overlay.explicit f = none) (ops : List ContextOp)
    (hops : ∀ m x, ContextOp.set m x ∈ ops → x.Genuine w₀ ∧ x.elem.isToken = false)
    (n : FileElement) (access : IndexAccess) :
    (n.isFileLevel = false →
      (getContext n access).run.run (ContextOp.runAll w₀ ops) =
        (.ok n.parent?, ContextOp.runAll w₀ ops)) ∧
    (n.isFileLevel = true → ∀ x, ContextOp.lastContext n.file ops = some x →
      (getContext n access).run.run (ContextOp.runAll w₀ ops) =
        (.ok (some x), ContextOp.runAll w₀ ops)) ∧
    (n.isFileLevel = true → ContextOp.lastContext n.file ops = none →
      (getContext n .forbidden).run.run (ContextOp.runAll w₀ ops) =
        (.ok n.parent?, ContextOp.runAll w₀ ops) ∧
      (getContext n .allowed).run.run (ContextOp.runAll w₀ ops) =
        (do let c ← callSiteContext n.file; return c.or n.parent?).run.run
          (ContextOp.runAll w₀ ops)) := by
  obtain ⟨hfiles, hexp⟩ := ContextOp.runAll_spec ops w₀ (fun _ => none) (fun f => by simp [hnone])
  set w := ContextOp.runAll w₀ ops
  refine ⟨fun hlevel => ?below, fun hlevel x hx => ?set, fun hlevel hx => ?unset⟩
  case below =>
    simp only [getContext, hlevel, Bool.not_false, if_true, run_pure]
  case set =>
    obtain ⟨m, hm⟩ := ContextOp.mem_of_lastContext hx
    obtain ⟨hgen, hn⟩ := hops m x hm
    have htree : w.tree? x.file = some x.root := by
      rw [Workspace.tree?, Workspace.file?, hfiles]
      exact hgen.1
    have hset : w.overlay.explicit n.file = some (NodePtr.ofElement x) := by
      rw [hexp]
      exact congrArg (Option.map _) hx
    refine run_getContext_explicit hlevel ?_ access
    rw [run_explicitContext_some hset]
    exact run_resolvePtr_ofElement (hgen.separated hw) htree hgen.2 hn
  case unset =>
    have hunset : w.overlay.explicit n.file = none := by
      rw [hexp]
      exact congrArg (Option.map _) hx
    exact run_getContext_unset hlevel hunset

open Session in
/-- A struct spanning its whole file shares its range with the file's root; set by hand as the
context of another file, it is answered as the struct, even to a lookup that may not consult the
index. -/
theorem lookup_answers_struct_set_by_hand :
    let w₀ := ((({} : Workspace).addSource "main.wf" "struct A;" 1).2.addSource "other.wf"
      "struct B;" 2).2
    let main := (parse "struct A;" .sourceFile).tree
    let other := (parse "struct B;" .sourceFile).tree
    let n : FileElement := ⟨0, main, Element.root main⟩
    let x : FileElement := ⟨1, other, (Element.root other).children.head!⟩
    let ops := [ContextOp.set n x, .lookup n .allowed]
    x.kind = .structItem ∧ x.range = (FileElement.mk 1 other (Element.root other)).range ∧
      (getContext n .forbidden).run.run (ContextOp.runAll w₀ ops) =
        (.ok (some x), ContextOp.runAll w₀ ops) := by
  intro w₀ main other n x ops
  have hw : w₀.Coherent :=
    ((Workspace.Coherent.of_empty (fun _ => rfl) (fun _ => rfl)).addFile _ _ _ _
      fun _ h => by cases h).addFile _ _ _ _ fun _ h => by cases h
  have hchildren : (Element.root other).children ≠ [] := by decide +kernel
  have htree : w₀.tree? 1 = some other := by
    simp only [w₀, Workspace.addSource, Workspace.addFile, Workspace.tree?, Workspace.file?]
    rfl
  have hmem : (Element.root other).children.head! ∈ other.members :=
    Green.mem_members_of_mem_children (Green.root_mem_members other)
      (List.head!_mem_self hchildren)
  have hx : x.Genuine w₀ ∧ x.elem.isToken = false := by
    simp only [x, FileElement.Genuine]
    exact ⟨⟨htree, hmem⟩, by decide +kernel⟩
  have hops : ∀ m c, ContextOp.set m c ∈ ops → c.Genuine w₀ ∧ c.elem.isToken = false := by
    intro m c hm
    simp only [ops, List.mem_cons, ContextOp.set.injEq, reduceCtorEq, List.not_mem_nil,
      or_false] at hm
    obtain ⟨-, rfl⟩ := hm
    exact hx
  refine ⟨by decide +kernel, by decide +kernel, ?_⟩
  exact (context_precedence hw (fun _ => rfl) ops hops n .forbidden).2.1 rfl x rfl

end MacroTrace
