import Mathlib.Data.List.Chain
import MacroTrace.Proofs.Context.Precedence
/-!
The walk over a node's logical ancestors. Each step takes the logical parent of the node reached,
and the walk stops after the step that would change files once more than the depth limit allows;
nothing else stops it. Below file level a step climbs to the structural parent, so between two
changes of file the walk climbs its tree, unless a file-level node's logical parent is another
node of its own file: a context set by hand into the file itself, or a call-site context that
leads back into it, as for a file whose `include` sits in one of its own modules. Such a step
starts a cycle that never changes files, and the walk never ends. Without one, every node reached
lies in a workspace tree, so the walk ends within `(limit + 1) * (d + 1)` nodes, `d` the depth of
the deepest file tree.
-/
namespace MacroTrace

namespace Element

theorem trail_of_mem_children {e c : Element} (hc : c ∈ e.children) :
    ∃ i, c.trail = i :: e.trail := by
  obtain ⟨j, hj, rfl⟩ := List.getElem_of_mem hc
  exact ⟨0 + j, Green.siblings_trail e.trail e.green.children e.start 0 j _
    (List.getElem?_eq_getElem hj)⟩

end Element

namespace Green

theorem trail_length_le_of_mem_descendants {a : Element} :
    ∀ {e : Element}, a ∈ descendants e → a.trail.length ≤ e.trail.length + e.green.depth := by
  intro e
  induction hd : e.green.depth using Nat.strong_induction_on generalizing e with
  | _ d ih =>
    intro ha
    rcases mem_descendants_iff.1 ha with rfl | ⟨c, hc, hac⟩
    · omega
    · obtain ⟨i, hi⟩ := Element.trail_of_mem_children hc
      have hlt : c.green.depth < d := hd ▸ depth_lt_of_mem_children hc
      have hca := ih _ hlt rfl hac
      rw [hi, List.length_cons] at hca
      omega

theorem trail_length_le_depth {root : Green} {e : Element} (he : e ∈ root.members) :
    e.trail.length ≤ root.depth := by
  have h := trail_length_le_of_mem_descendants (e := Element.root root) he
  simpa [Element.root] using h

end Green

def deepestTree : List FileEntry → Nat
  | [] => 0
  | e :: es => max e.tree.depth (deepestTree es)

theorem depth_le_deepestTree {e : FileEntry} :
    ∀ {es : List FileEntry}, e ∈ es → e.tree.depth ≤ deepestTree es
  | _ :: _, .head _ => Nat.le_max_left _ _
  | _ :: _, .tail _ h => Nat.le_trans (depth_le_deepestTree h) (Nat.le_max_right _ _)

namespace Workspace

def treeDepth (w : Workspace) : Nat := deepestTree w.files.toList

theorem depth_le_treeDepth {w : Workspace} {f : FileId} {t : Green} (h : w.tree? f = some t) :
    t.depth ≤ w.treeDepth := by
  simp only [tree?, file?, Option.map_eq_some_iff] at h
  obtain ⟨e, he, rfl⟩ := h
  exact depth_le_deepestTree (Array.mem_toList_iff.2 (Array.mem_of_getElem? he))

end Workspace

namespace FileElement

variable {w w' : Workspace} {e p : FileElement}

theorem Genuine.of_files (h : e.Genuine w) (hf : w'.files = w.files) : e.Genuine w' := by
  refine ⟨?_, h.2⟩
  rw [← h.1]
  simp only [Workspace.tree?, Workspace.file?, hf]

theorem Genuine.trail_le (h : e.Genuine w) : e.elem.trail.length ≤ w.treeDepth :=
  Nat.le_trans (Green.trail_length_le_depth h.2) (Workspace.depth_le_treeDepth h.1)

theorem Genuine.fileRoot (h : e.Genuine w) : e.fileRoot.Genuine w :=
  ⟨h.1, Green.root_mem_members e.root⟩

theorem Genuine.containingModule (h : e.Genuine w) : (Session.containingModule e).Genuine w := by
  unfold Session.containingModule
  cases hf : (e.ancestors.drop 1).find? fun a => a.kind == .itemList || a.parent?.isNone with
  | none => exact h
  | some a => exact h.ancestors (List.mem_of_mem_drop (List.mem_of_find?_eq_some hf))

theorem containingModule_file (e : FileElement) : (Session.containingModule e).file = e.file := by
  unfold Session.containingModule
  cases hf : (e.ancestors.drop 1).find? fun a => a.kind == .itemList || a.parent?.isNone with
  | none => rfl
  | some a =>
    obtain ⟨x, -, rfl⟩ := List.mem_map.1 (List.mem_of_mem_drop (List.mem_of_find?_eq_some hf))
    rfl

theorem parent?_file_trail (hp : e.parent? = some p) :
    p.file = e.file ∧ p.elem.trail.length < e.elem.trail.length := by
  simp only [parent?, Option.map_eq_some_iff] at hp
  obtain ⟨q, hq, rfl⟩ := hp
  refine ⟨rfl, ?_⟩
  simp only [Green.parent?] at hq
  split at hq
  · cases hq
  · rename_i i t ht
    simp only [Green.elementAt?, Green.locate] at hq
    have hqt := Green.locate_go_trail _ _ _ hq
    simp only [List.reverse_reverse, Element.root, List.append_nil] at hqt
    simp [withElem, hqt, ht]

end FileElement

theorem MacroCall.Genuine.owner? {w : Workspace} {c : MacroCall} (hc : c.Genuine w) {o : Element}
    (ho : c.owner? = some o) : (⟨c.file, c.root, o⟩ : FileElement).Genuine w := by
  cases hk : c.kind with
  | fnLike =>
    simp only [MacroCall.owner?, hk, Option.some.injEq] at ho
    subst ho
    exact hc.1
  | attr | derive _ =>
    simp only [MacroCall.owner?, hk, Green.attrOwner, Option.filter_eq_some_iff] at ho
    exact (hc.1.parent? (p := ⟨c.file, c.root, o⟩)
      (by simp [FileElement.parent?, MacroCall.element, FileElement.withElem, ho.1])).1

namespace Workspace

variable {w : Workspace} {f a x : FileId}

/-- One step out of a file: to the file of the call whose expansion it is or, when there is
none, of the include call that names it. -/
def FileStep (w : Workspace) (f g : FileId) : Prop :=
  (∃ c, w.expansionCall f = some c ∧ c.file = g) ∨
    (w.expansionCall f = none ∧ ∃ c, w.includedFrom f = some c ∧ c.file = g)

/-- A file lies below another when stepping out of files leads from the one to the other. -/
def Below (w : Workspace) (f g : FileId) : Prop := Relation.TransGen w.FileStep f g

/-- The file `x` lies outside the file `f`: it is neither `f` nor a file below `f`, and leads
back to none of them. -/
def Outside (w : Workspace) (f x : FileId) : Prop :=
  ∀ g, (g = f ∨ w.Below g f) → x ≠ g ∧ ¬ w.Below x g

/-- Contexts point up: stepping out of files never comes back to a file, and no context set by
hand or remembered for a file lies in the file itself or in a file below it. -/
structure ContextsPointUp (w : Workspace) : Prop where
  acyclic : ∀ f, ¬ w.Below f f
  explicit : ∀ g p, w.overlay.explicit g = some p → p.file ≠ g ∧ ¬ w.Below p.file g
  remembered : ∀ g p, w.overlay.callSite g = some p → p.file ≠ g ∧ ¬ w.Below p.file g

theorem fileStep_of_files {w' : Workspace} (h : w'.files = w.files) : w'.FileStep = w.FileStep := by
  unfold FileStep expansionCall callOfKey includedFrom includeTarget callsIn tree? text? fileId? file?
  rw [h]

@[simp] theorem below_withOverlay (o : Overlay) :
    ({ w with overlay := o } : Workspace).Below f g ↔ w.Below f g := by
  rw [Below, Below, @fileStep_of_files w { w with overlay := o } rfl]

theorem outside_of_away (hx : x ≠ f ∧ ¬ w.Below x f) : w.Outside f x := by
  intro g hg
  rcases hg with rfl | hg
  · exact hx
  · exact ⟨fun h => hx.2 (h ▸ hg), fun h => hx.2 (h.trans hg)⟩

theorem Outside.of_step (hs : w.FileStep f a) (h : w.Outside a x) : w.Outside f x := by
  intro g hg
  refine h g (.inr ?_)
  rcases hg with rfl | hg
  · exact .single hs
  · exact hg.tail hs

theorem ContextsPointUp.outside_of_step (hu : w.ContextsPointUp) (hs : w.FileStep f a) :
    w.Outside f a :=
  outside_of_away ⟨fun h => hu.acyclic f (by subst h; exact .single hs),
    fun h => hu.acyclic f (.head hs h)⟩

end Workspace

namespace Session

variable {α β : Type} {w : Workspace}

/-- A lookup run from `w` returns a value, and the value and the workspace it leaves satisfy `Q`. -/
def Returns (w : Workspace) (x : Session α) (Q : α → Workspace → Prop) : Prop :=
  ∃ a w', x.run.run w = (.ok a, w') ∧ Q a w'

namespace Returns

variable {x : Session α} {Q R : α → Workspace → Prop}

theorem pure {a : α} (h : Q a w) : Returns w (Pure.pure a : Session α) Q := ⟨a, w, rfl, h⟩

theorem of_run {v : α} (h : x.run.run w = (.ok v, w)) : Returns w x fun a w' => a = v ∧ w' = w :=
  ⟨v, w, h, rfl, rfl⟩

theorem bind {f : α → Session β} {Q : β → Workspace → Prop} (hx : Returns w x R)
    (hf : ∀ a w', R a w' → Returns w' (f a) Q) : Returns w (x >>= f) Q := by
  obtain ⟨a, w', hrun, hr⟩ := hx
  obtain ⟨b, w'', hrun', hq⟩ := hf a w' hr
  exact ⟨b, w'', by rw [run_bind, hrun]; exact hrun', hq⟩

theorem mono (h : Returns w x Q) (hq : ∀ a w', Q a w' → R a w') : Returns w x R := by
  obtain ⟨a, w', hrun, ha⟩ := h
  exact ⟨a, w', hrun, hq a w' ha⟩

end Returns

def GenuineAnswer (w : Workspace) (r : Option FileElement) : Prop := ∀ e, r = some e → e.Genuine w

/-- A context answer read off a table entry: a node of the workspace's trees, in the entry's
file. -/
structure EntryAnswer (w : Workspace) (table : Option NodePtr) (r : Option FileElement) : Prop where
  genuine : GenuineAnswer w r
  entry : ∀ y, r = some y → ∃ p, table = some p ∧ y.file = p.file

theorem resolvePtr_returns (p : NodePtr) :
    Returns w (resolvePtr p) fun r w' => w' = w ∧ EntryAnswer w (some p) r := by
  refine ⟨_, w, run_resolvePtr p, rfl, fun e he => ?_, fun e he => ?_⟩ <;>
    simp only [Workspace.resolve, Option.bind_eq_some_iff, Option.map_eq_some_iff] at he <;>
    obtain ⟨root, hroot, n, hn, rfl⟩ := he
  · exact ⟨hroot, (NodePtr.resolveIn_spec hn).1⟩
  · exact ⟨p, rfl, rfl⟩

theorem explicitContext_returns (f : FileId) :
    Returns w (explicitContext f) fun r w' => w' = w ∧ EntryAnswer w (w.overlay.explicit f) r := by
  unfold explicitContext
  refine (Returns.of_run run_overlay).bind ?_
  rintro o w' ⟨rfl, rfl⟩
  split
  · rename_i p hp
    rw [hp]
    exact resolvePtr_returns _
  · exact Returns.pure ⟨rfl, fun _ h => (by cases h), fun _ h => by cases h⟩

theorem rememberedContext_returns (f : FileId) :
    Returns w (rememberedContext f) fun r w' =>
      w' = w ∧ EntryAnswer w (w.overlay.callSite f) r := by
  unfold rememberedContext
  refine (Returns.of_run run_overlay).bind ?_
  rintro o w' ⟨rfl, rfl⟩
  split
  · rename_i p hp
    rw [hp]
    exact resolvePtr_returns _
  · exact Returns.pure ⟨rfl, fun _ h => (by cases h), fun _ h => by cases h⟩

theorem climbStep_returns (f : FileId) :
    Returns w (climbStep f) fun r w' => w' = w ∧
      (∀ c, r.2 = .found c → c.Genuine w ∧ (w.ContextsPointUp → w.Outside f c.file)) ∧
      ∀ g, r.2 = .next g → w.FileStep f g := by
  unfold climbStep
  refine (Returns.of_run (run_expansionCall f)).bind ?_
  rintro v w' ⟨rfl, rfl⟩
  extract_lets jp
  have hjp : ∀ (call : Option MacroCall) (included : Bool),
      (∀ c, call = some c → c.Genuine w' ∧ w'.FileStep f c.file) →
      Returns w' (jp (call, included)) fun r w'' => w'' = w' ∧
        (∀ c, r.2 = .found c → c.Genuine w' ∧ (w'.ContextsPointUp → w'.Outside f c.file)) ∧
        ∀ g, r.2 = .next g → w'.FileStep f g := by
    intro call included hcall
    simp -zeta only [jp]
    split
    · rename_i call
      obtain ⟨hcg, hstep⟩ := hcall call rfl
      split
      · rename_i owner ho
        extract_lets ownerElem anchor
        have hanchor : anchor.Genuine w' := by
          have hown := hcg.owner? ho
          simp only [anchor]
          split
          · exact hown.containingModule
          · exact hown
        have hfile : anchor.file = call.file := by
          simp only [anchor]
          split
          · exact FileElement.containingModule_file _
          · rfl
        rw [← hfile] at hstep
        have hout : ∀ c : FileElement, c.file = anchor.file → w'.ContextsPointUp →
            w'.Outside f c.file := fun c hc hu => hc ▸ hu.outside_of_step hstep
        have hpoint : ∀ c : FileElement, ∀ p : NodePtr, c.file = p.file →
            p.file ≠ anchor.file ∧ ¬ w'.Below p.file anchor.file → w'.Outside f c.file :=
          fun c p hc hp => hc ▸ (Workspace.outside_of_away hp).of_step hstep
        split
        · exact Returns.pure ⟨rfl, fun c h => by cases h; exact ⟨hanchor, hout _ rfl⟩,
            fun g h => by cases h⟩
        split
        · split
          · rename_i p hp
            exact Returns.pure ⟨rfl, fun c h => by
              cases h
              exact ⟨(hanchor.parent? hp).1, hout _ (FileElement.parent?_file_trail hp).1⟩,
              fun g h => by cases h⟩
          · exact Returns.pure ⟨rfl, fun c h => (by cases h), fun g h => by cases h⟩
        refine (explicitContext_returns _).bind ?_
        rintro r w'' ⟨hw, hr, hrf⟩
        subst hw
        split
        · refine Returns.pure ⟨rfl, fun _ h => ?_, fun g h => by cases h⟩
          cases h
          obtain ⟨p, hp, hpf⟩ := hrf _ rfl
          exact ⟨hr _ rfl, fun hu => hpoint _ p hpf (hu.explicit _ p hp)⟩
        refine (rememberedContext_returns _).bind ?_
        rintro r w'' ⟨hw, hr, hrf⟩
        subst hw
        split
        · refine Returns.pure ⟨rfl, fun _ h => ?_, fun g h => by cases h⟩
          cases h
          obtain ⟨p, hp, hpf⟩ := hrf _ rfl
          exact ⟨hr _ rfl, fun hu => hpoint _ p hpf (hu.remembered _ p hp)⟩
        refine (Returns.of_run (run_expansionCall _)).bind ?_
        rintro r w'' ⟨_, hw⟩
        subst hw
        split
        · exact Returns.pure ⟨rfl, fun c h => (by cases h), fun g h => by cases h; exact hstep⟩
        refine (Returns.of_run (run_includedFrom _)).bind ?_
        rintro r w'' ⟨_, hw⟩
        subst hw
        split
        · exact Returns.pure ⟨rfl, fun c h => (by cases h), fun g h => by cases h; exact hstep⟩
        · exact Returns.pure ⟨rfl, fun c h => by cases h; exact ⟨hanchor.fileRoot, hout _ rfl⟩,
            fun g h => by cases h⟩
      · exact Returns.pure ⟨rfl, fun c h => (by cases h), fun g h => by cases h⟩
    · exact Returns.pure ⟨rfl, fun c h => (by cases h), fun g h => by cases h⟩
  split
  · rename_i c hc
    rw [pure_bind]
    exact hjp (some c) false fun _ h => by
      cases h
      exact ⟨Workspace.expansionCall_genuine hc, .inl ⟨_, hc, rfl⟩⟩
  · rename_i hnone
    refine (Returns.of_run (run_includedFrom f)).bind ?_
    rintro r w'' ⟨hr, hw⟩
    subst hw hr
    rw [pure_bind]
    exact hjp _ true fun c h => ⟨Workspace.includedFrom_genuine h, .inr ⟨hnone, c, h, rfl⟩⟩

theorem callSite_foldl_remember (p : NodePtr) :
    ∀ (l : List FileId) (o : Overlay) (g : FileId),
      (l.foldl (fun o g => o.remember g p) o).callSite g = if g ∈ l then some p else o.callSite g
  | [], o, g => by simp
  | h :: l, o, g => by
    rw [List.foldl_cons, callSite_foldl_remember p l]
    by_cases hl : g ∈ l
    · simp [hl]
    · by_cases hg : g = h <;> simp [hl, hg, Overlay.remember]

theorem explicit_foldl_remember (p : NodePtr) :
    ∀ (l : List FileId) (o : Overlay), (l.foldl (fun o g => o.remember g p) o).explicit = o.explicit
  | [], _ => rfl
  | _ :: l, _ => explicit_foldl_remember p l _

/-- The climb changes only remembered contexts, and a context it finds lies in a workspace tree.
Where contexts point up and the files passed so far lie below the current one, the context lies
outside the current file and every context it remembers points up. -/
theorem climb_returns (limit : Nat) : ∀ (fuel : Nat) (f : FileId) (visited : List FileId)
    (w : Workspace), (∀ g ∈ visited, w.Below g f) →
    Returns w (climb limit fuel f visited) fun r w' => w' = { w with overlay := w'.overlay } ∧
      w'.overlay.explicit = w.overlay.explicit ∧ GenuineAnswer w r ∧
      (w.ContextsPointUp → w'.ContextsPointUp ∧ ∀ y, r = some y → w.Outside f y.file)
  | 0, _, _, w, _ =>
    Returns.pure ⟨rfl, rfl, fun _ h => (by cases h), fun hu => ⟨hu, fun _ h => by cases h⟩⟩
  | fuel + 1, f, visited, w, hvisited => by
    unfold climb
    split
    · exact Returns.pure ⟨rfl, rfl, fun _ h => (by cases h), fun hu => ⟨hu, fun _ h => by cases h⟩⟩
    refine (climbStep_returns f).bind ?_
    rintro r w₁ ⟨rfl, hfound, hnext⟩
    obtain ⟨_, step⟩ := r
    cases step with
    | stuck =>
      exact Returns.pure ⟨rfl, rfl, fun _ h => (by cases h), fun hu => ⟨hu, fun _ h => by cases h⟩⟩
    | found ctx =>
      refine ⟨some ctx,
        { w₁ with
          overlay := (f :: visited).reverse.foldl (fun o g => o.remember g (.ofElement ctx))
            w₁.overlay },
        by simp only [run_bind, run_forIn_remember, run_pure], rfl,
        explicit_foldl_remember _ _ _, fun _ h => by cases h; exact (hfound ctx rfl).1,
        fun hu => ⟨⟨?_, ?_, ?_⟩, fun _ h => by cases h; exact (hfound ctx rfl).2 hu⟩⟩
      · intro g
        rw [Workspace.below_withOverlay]
        exact hu.acyclic g
      · intro g q hq
        simp only [explicit_foldl_remember, Workspace.below_withOverlay] at hq ⊢
        exact hu.explicit g q hq
      · intro g q hq
        simp only [callSite_foldl_remember, List.mem_reverse, List.mem_cons,
          Workspace.below_withOverlay] at hq ⊢
        split at hq
        · rename_i hg
          cases hq
          exact (hfound ctx rfl).2 hu g (hg.imp_right (hvisited g))
        · exact hu.remembered g q hq
    | next g =>
      refine (climb_returns limit fuel g (f :: visited) w₁ fun x hx => ?_).mono ?_
      · rcases List.mem_cons.1 hx with rfl | hx
        · exact .single (hnext g rfl)
        · exact (hvisited x hx).tail (hnext g rfl)
      · rintro r w'' ⟨hw, hx, hr, hu⟩
        exact ⟨hw, hx, hr, fun hu' => (hu hu').imp_right fun h y hy => (h y hy).of_step (hnext g rfl)⟩

theorem callSiteContext_returns (f : FileId) :
    Returns w (callSiteContext f) fun r w' => w' = { w with overlay := w'.overlay } ∧
      w'.overlay.explicit = w.overlay.explicit ∧ GenuineAnswer w r ∧
      (w.ContextsPointUp → w'.ContextsPointUp ∧ ∀ y, r = some y → w.Outside f y.file) := by
  unfold callSiteContext
  refine (rememberedContext_returns f).bind ?_
  rintro r w' ⟨hw, hr, hrf⟩
  subst hw
  split
  · refine Returns.pure ⟨rfl, rfl, hr, fun hu => ⟨hu, fun y hy => ?_⟩⟩
    obtain ⟨p, hp, hpf⟩ := hrf y hy
    exact hpf ▸ Workspace.outside_of_away (hu.remembered f p hp)
  · refine (Returns.of_run run_maxDepth).bind ?_
    rintro limit w'' ⟨-, hw⟩
    exact hw ▸ climb_returns _ _ f [] _ (by simp)

/-- One step of the walk: a lookup changes only remembered contexts, answers a node of the
workspace's trees, and below file level answers the structural parent. Where contexts point up
they still do afterwards, and an answer in the node's own file is its structural parent. -/
theorem getContext_returns {n : FileElement} (hn : n.Genuine w) (access : IndexAccess) :
    Returns w (getContext n access) fun r w' => w' = { w with overlay := w'.overlay } ∧
      GenuineAnswer w r ∧ (n.isFileLevel = false → r = n.parent?) ∧
      (w.ContextsPointUp → w'.ContextsPointUp ∧
        ∀ y, r = some y → y.file = n.file → n.parent? = some y) := by
  have hparent : GenuineAnswer w n.parent? := fun p hp => (hn.parent? hp).1
  unfold getContext
  split
  · rename_i hlevel
    exact Returns.pure ⟨rfl, hparent, fun _ => rfl, fun hu => ⟨hu, fun y hy _ => hy⟩⟩
  rename_i hlevel
  have hfl : n.isFileLevel = true := by simpa using hlevel
  refine (explicitContext_returns n.file).bind ?_
  rintro r w' ⟨hw, hr, hrf⟩
  subst hw
  split
  · refine Returns.pure ⟨rfl, fun _ h => by cases h; exact hr _ rfl,
      fun h => absurd hfl (by simp [h]), fun hu => ⟨hu, fun y hy hyf => ?_⟩⟩
    cases hy
    obtain ⟨p, hp, hpf⟩ := hrf _ rfl
    exact absurd (hpf.symm.trans hyf) (hu.explicit _ p hp).1
  split
  · refine (callSiteContext_returns n.file).bind ?_
    rintro r w'' ⟨hw, hx, hr', hu'⟩
    split
    · refine Returns.pure ⟨hw, fun _ h => by cases h; exact hr' _ rfl,
        fun h => absurd hfl (by simp [h]), fun hu => ⟨(hu' hu).1, fun y hy hyf => ?_⟩⟩
      cases hy
      exact absurd hyf ((hu' hu).2 _ rfl n.file (.inl rfl)).1
    · exact Returns.pure ⟨hw, hparent, fun _ => rfl, fun hu => ⟨(hu' hu).1, fun y hy _ => hy⟩⟩
  · exact Returns.pure ⟨rfl, hparent, fun _ => rfl, fun hu => ⟨hu, fun y hy _ => hy⟩⟩

end Session

def fileChanges : List FileElement → Nat
  | a :: b :: t => (if a.file = b.file then 0 else 1) + fileChanges (b :: t)
  | _ => 0

@[simp] theorem fileChanges_nil : fileChanges [] = 0 := rfl

@[simp] theorem fileChanges_singleton (a : FileElement) : fileChanges [a] = 0 := rfl

theorem length_le_of_climbing {d : Nat} (a : FileElement) (t : List FileElement)
    (hd : ∀ x ∈ a :: t, x.elem.trail.length ≤ d)
    (hc : (a :: t).IsChain fun x y => x.file = y.file → y.elem.trail.length < x.elem.trail.length) :
    (a :: t).length ≤ fileChanges (a :: t) * (d + 1) + a.elem.trail.length + 1 := by
  induction t generalizing a with
  | nil => simp [fileChanges]
  | cons b t ih =>
    obtain ⟨hab, hrest⟩ := List.isChain_cons_cons.1 hc
    have hb := ih b (fun x hx => hd x (List.mem_cons_of_mem _ hx)) hrest
    have hbd := hd b (List.mem_cons_of_mem _ List.mem_cons_self)
    rw [fileChanges, List.length_cons]
    by_cases hf : a.file = b.file
    · have := hab hf
      rw [if_pos hf, Nat.zero_add]
      generalize fileChanges (b :: t) * (d + 1) = k at hb ⊢
      omega
    · rw [if_neg hf, Nat.add_mul, Nat.one_mul]
      generalize fileChanges (b :: t) * (d + 1) = k at hb ⊢
      omega

theorem changes_add_fileChanges_cons {x : FileElement} {M : List FileElement}
    {changes c' limit : Nat} (hc : changes ≤ limit)
    (hnext : ∀ y, M.head? = some y → c' = if x.file = y.file then changes else changes + 1)
    (hM : M ≠ [] → c' + fileChanges M ≤ limit) : changes + fileChanges (x :: M) ≤ limit := by
  cases M with
  | nil => simpa using hc
  | cons y M =>
    have h := hM (List.cons_ne_nil _ _)
    rw [hnext y rfl] at h
    rw [fileChanges]
    by_cases hxy : x.file = y.file
    · simp only [hxy, if_true] at h ⊢
      omega
    · simp only [hxy, if_false] at h ⊢
      omega

namespace Session

/-- The walk from a node of the workspace keeps the files, and yields nodes of the workspace's
trees, each below file level followed by its structural parent, changing files no more often than
the depth limit still allows. Where contexts point up, each node followed by one of its own file
is followed by its structural parent. -/
theorem ancestorsWithContexts_go_returns (access : IndexAccess) (limit : Nat) :
    ∀ (k : Nat) (node : Option FileElement) (changes : Nat) (acc : List FileElement)
      (w : Workspace), GenuineAnswer w node → (∀ x, node = some x → changes ≤ limit) →
      Returns w (ancestorsWithContexts.go access limit k node changes acc) fun L w' =>
        w'.files = w.files ∧ ∃ M, L = acc.reverse ++ M ∧
          M.head? = (if k = 0 then none else node) ∧ (∀ x ∈ M, x.Genuine w) ∧
          M.IsChain (fun a b => a.isFileLevel = false → a.parent? = some b) ∧
          (M ≠ [] → changes + fileChanges M ≤ limit) ∧
          (w.ContextsPointUp → M.IsChain (fun a b => a.file = b.file → a.parent? = some b))
  | 0, _, _, _, _, _, _ =>
    Returns.pure ⟨rfl, [], by simp, by simp, by simp, .nil, fun h => absurd rfl h, fun _ => .nil⟩
  | _ + 1, none, _, _, _, _, _ =>
    Returns.pure ⟨rfl, [], by simp, by simp, by simp, .nil, fun h => absurd rfl h, fun _ => .nil⟩
  | k + 1, some x, changes, acc, w, hx, hc => by
    have hxg := hx x rfl
    simp only [ancestorsWithContexts.go]
    refine (getContext_returns hxg access).bind ?_
    rintro r w' ⟨hw', hr, hpar, hup⟩
    have hf : w'.files = w.files := by rw [hw']
    have step : ∀ c', (∀ y, r = some y → c' = if x.file = y.file then changes else changes + 1) →
        (r = none → c' = changes) →
        Returns w' (ancestorsWithContexts.go access limit k (if c' > limit then none else r) c'
          (x :: acc)) fun L w'' => w''.files = w.files ∧ ∃ M, L = acc.reverse ++ M ∧
            M.head? = (if k + 1 = 0 then none else some x) ∧ (∀ x ∈ M, x.Genuine w) ∧
            M.IsChain (fun a b => a.isFileLevel = false → a.parent? = some b) ∧
            (M ≠ [] → changes + fileChanges M ≤ limit) ∧
            (w.ContextsPointUp → M.IsChain (fun a b => a.file = b.file → a.parent? = some b)) := by
      intro c' hsome hnone
      have hnext : ∀ y, (if c' > limit then none else r) = some y → r = some y ∧ c' ≤ limit := by
        intro y hy
        split at hy
        · cases hy
        · exact ⟨hy, by omega⟩
      refine (ancestorsWithContexts_go_returns access limit k _ c' (x :: acc) w'
        (fun y hy => ((hr y (hnext y hy).1).of_files hf))
        (fun y hy => (hnext y hy).2)).mono ?_
      rintro L w'' ⟨hf', M, rfl, hhead, hgen, hchain, hchanges, hsame⟩
      have hfirst : ∀ y, M.head? = some y → r = some y := by
        intro y hy
        rw [hhead] at hy
        split at hy
        · cases hy
        · exact (hnext y hy).1
      refine ⟨hf'.trans hf, x :: M, by simp, by simp, ?_, ?_, fun _ => ?_, fun hu => ?_⟩
      · intro y hy
        rcases List.mem_cons.1 hy with rfl | hy
        · exact hxg
        · exact (hgen y hy).of_files hf.symm
      · refine List.isChain_cons.2 ⟨fun y hy hlevel => ?_, hchain⟩
        rw [← hpar hlevel]
        exact hfirst y (Option.mem_def.1 hy)
      · exact changes_add_fileChanges_cons (hc x rfl) (fun y hy => hsome y (hfirst y hy)) hchanges
      · exact List.isChain_cons.2 ⟨fun y hy => (hup hu).2 y (hfirst y (Option.mem_def.1 hy)) ∘ Eq.symm,
          hsame (hup hu).1⟩
    cases r with
    | none => exact step changes (fun _ h => by cases h) fun _ => rfl
    | some p =>
      refine step _ (fun y hy => ?_) (fun h => by cases h)
      cases hy
      by_cases hxp : x.file = p.file
      · simp [hxp]
      · simp [hxp, Ne.symm hxp]

end Session

open Session in
/-- The walk from a node of the workspace answers, starting at the node, changing files at most
as often as the depth limit allows, and following every node below file level by its structural
parent. Where contexts point up (stepping out through the calls that made or included the files
never leads back to a file, and no context set by hand or remembered lies in its own file or in a
file below it), every node the walk follows by a node of its own file is followed by its
structural parent; so the walk yields at most `limit + 1` stretches of one file, each at most as
long as the deepest tree is deep, whatever number of nodes was asked for. -/
theorem ancestors_end_when_contexts_point_up {w : Workspace} {n : FileElement}
    (hn : n.Genuine w) (access : IndexAccess) (count : Nat) :
    ∃ L w', (ancestorsWithContexts n access count).run.run w = (.ok L, w') ∧
      L.head? = (if count = 0 then none else some n) ∧ fileChanges L ≤ w.maxDepth ∧
      L.IsChain (fun a b => a.isFileLevel = false → a.parent? = some b) ∧
      (w.ContextsPointUp → L.IsChain (fun a b => a.file = b.file → a.parent? = some b) ∧
        L.length ≤ (w.maxDepth + 1) * (w.treeDepth + 1)) := by
  have hwalk := ancestorsWithContexts_go_returns access w.maxDepth count (some n) 0 [] w
    (fun x hx => by cases hx; exact hn) fun _ _ => Nat.zero_le _
  obtain ⟨L, w', hrun, -, M, hLM, hhead, hgen, hchain, hchanges, hsame⟩ := hwalk
  simp only [List.reverse_nil, List.nil_append] at hLM
  subst hLM
  have hrun' : (ancestorsWithContexts n access count).run.run w = (.ok L, w') := by
    simp only [ancestorsWithContexts, run_bind, run_maxDepth]
    exact hrun
  have hfc : fileChanges L ≤ w.maxDepth := by
    cases L with
    | nil => simp
    | cons a M => simpa using hchanges (List.cons_ne_nil _ _)
  refine ⟨L, w', hrun', hhead, hfc, hchain, fun hu => ⟨hsame hu, ?_⟩⟩
  cases L with
  | nil => simp
  | cons a M =>
    have hd : ∀ x ∈ a :: M, x.elem.trail.length ≤ w.treeDepth := fun x hx =>
      (hgen x hx).trail_le
    have hup := length_le_of_climbing a M hd
      ((hsame hu).imp fun x y h hsame => (FileElement.parent?_file_trail (h hsame)).2)
    have hfc' := Nat.mul_le_mul_right (w.treeDepth + 1) hfc
    have ha := hd a List.mem_cons_self
    calc (a :: M).length
        ≤ fileChanges (a :: M) * (w.treeDepth + 1) + a.elem.trail.length + 1 := hup
      _ ≤ w.maxDepth * (w.treeDepth + 1) + (w.treeDepth + 1) := by omega
      _ = (w.maxDepth + 1) * (w.treeDepth + 1) := (Nat.succ_mul _ _).symm

open Session in
/-- In a one-struct file with no context set, contexts point up, and the walk from the struct
climbs to the file's root and stops. -/
theorem struct_walk_climbs_to_root :
    let w := (({} : Workspace).addSource "lib.rs" "struct A;" 0).2
    let root := (parse "struct A;" .sourceFile).tree
    let x : FileElement := ⟨0, root, (Element.root root).children.head!⟩
    x.Genuine w ∧ w.ContextsPointUp ∧ ∃ L w', (ancestorsWithContexts x .allowed 5).run.run w = (.ok L, w') ∧
      L.head? = (if 5 = 0 then none else some x) ∧ fileChanges L ≤ w.maxDepth ∧
      L.IsChain (fun a b => a.isFileLevel = false → a.parent? = some b) ∧
      (w.ContextsPointUp → L.IsChain (fun a b => a.file = b.file → a.parent? = some b) ∧
        L.length ≤ (w.maxDepth + 1) * (w.treeDepth + 1)) := by
  intro w root x
  have hchildren : (Element.root root).children ≠ [] := by decide +kernel
  have htree : w.tree? 0 = some root := by
    simp only [w, Workspace.addSource, Workspace.addFile, Workspace.tree?, Workspace.file?]
    rfl
  have hmem : (Element.root root).children.head! ∈ root.members :=
    Green.mem_members_of_mem_children (Green.root_mem_members root)
      (List.head!_mem_self hchildren)
  have hx : x.Genuine w := by
    simp only [x, FileElement.Genuine]
    exact ⟨htree, hmem⟩
  have hcall : ∀ f, w.expansionCall f = none := by
    intro f
    rcases f with _ | f
    · rfl
    · have hnone : w.file? (f + 1) = none := Array.getElem?_eq_none (by
        show f + 1 ≥ 1
        omega)
      simp only [Workspace.expansionCall, hnone]
  have hnil : ((List.range w.files.size).flatMap w.callsIn).isEmpty = true := by decide +kernel
  have hstep : ∀ f g, ¬ w.FileStep f g := by
    rintro f g (⟨c, hc, -⟩ | ⟨-, c, hc, -⟩)
    · rw [hcall f] at hc
      cases hc
    · rw [Workspace.includedFrom, List.isEmpty_iff.1 hnil] at hc
      cases hc
  have hu : w.ContextsPointUp := by
    refine ⟨fun f h => ?_, fun g p h => (by cases h), fun g p h => by cases h⟩
    obtain ⟨g, -, hs⟩ := Relation.TransGen.tail'_iff.1 h
    exact hstep g f hs
  exact ⟨hx, hu, ancestors_end_when_contexts_point_up hx .allowed 5⟩

open Session in
/-- Set by hand as the context of its own file, the struct of a one-struct file is the context of
itself: the walk from it yields it again at every step and never ends, under either access. -/
theorem context_into_own_file_walks_forever :
    let w₀ := (({} : Workspace).addSource "lib.rs" "struct A;" 0).2
    let root := (parse "struct A;" .sourceFile).tree
    let x : FileElement := ⟨0, root, (Element.root root).children.head!⟩
    let w := ((setContext x x).run.run w₀).2
    x.kind = .structItem ∧ ∀ access count,
      (ancestorsWithContexts x access count).run.run w = (.ok (List.replicate count x), w) := by
  intro w₀ root x w
  have hchildren : (Element.root root).children ≠ [] := by decide +kernel
  have htree : w.tree? 0 = some root := by
    simp only [w, run_setContext, w₀, Workspace.addSource, Workspace.addFile, Workspace.tree?,
      Workspace.file?]
    rfl
  have hmem : x.elem ∈ x.root.members := by
    simp only [x]
    exact Green.mem_members_of_mem_children (Green.root_mem_members root)
      (List.head!_mem_self hchildren)
  have hexp : w.overlay.explicit x.file = some (NodePtr.ofElement x) := by
    simp [w, run_setContext]
  have hlevel : x.isFileLevel = true := by decide +kernel
  have htok : x.elem.isToken = false := by
    simp only [x]
    decide +kernel
  have hstep : ∀ access, (getContext x access).run.run w = (.ok (some x), w) := fun access =>
    run_getContext_explicit hlevel (by
      rw [run_explicitContext_some hexp]
      exact run_resolvePtr_ofElement (x := x) (Green.separated_parse "struct A;" .sourceFile) htree hmem
        htok) access
  have hgo : ∀ access limit k acc, (ancestorsWithContexts.go access limit k (some x) 0 acc).run.run w =
      (.ok (acc.reverse ++ List.replicate k x), w) := by
    intro access limit k
    induction k with
    | zero => intro acc; simp [ancestorsWithContexts.go]; rfl
    | succ k ih =>
      intro acc
      simp only [ancestorsWithContexts.go, run_bind, hstep, bne_self_eq_false, Bool.false_eq_true,
        if_false, Nat.not_lt_zero, ih, List.reverse_cons, List.replicate_succ, List.append_assoc,
        List.singleton_append]
  refine ⟨by decide +kernel, fun access count => ?_⟩
  unfold ancestorsWithContexts
  simp only [run_bind, run_maxDepth, hgo, List.reverse_nil, List.nil_append]

end MacroTrace
