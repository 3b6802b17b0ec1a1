import MacroTrace.Proofs.Context.Walk
/-! Remembered call-site contexts. A lookup remembers the context its climb finds for every file
the climb passed, and later climbs read those entries first. An entry is faithful when the climb
from its file, with nothing remembered, finds what it names. Lookups keep the entries faithful,
setting a context clears them, and forgetting a file keeps them faithful unless a remembered climb
read a context set by hand in that file. While they are faithful, a lookup answers as with
nothing remembered, unless the climb from the node's file runs past the depth limit: an entry
written by a shallower climb then completes it, and an entry found through a context set by hand
outlives that context when its file is forgotten. -/
namespace MacroTrace

theorem Element.isToken_of_mem_children {e c : Element} (h : c ∈ e.children) :
    e.isToken = false := by
  obtain ⟨g, s, t⟩ := e
  cases g with
  | token tk => simp [Element.children, Green.children, Element.siblings] at h
  | node k cs => rfl

theorem Green.isToken_of_mem_ancestors {root : Green} {s n : Element} (hs : s ∈ root.members)
    (hst : s.isToken = false) (hn : n ∈ root.ancestors s) : n.isToken = false := by
  cases h : n.isToken
  · rfl
  · have hdesc := mem_descendants_of_suffix (ancestors_mem hs hn) hs (suffix_of_mem_ancestors hn)
    rw [eq_of_mem_descendants h hdesc, h] at hst
    cases hst

theorem NodePtr.resolveIn_isToken {p : NodePtr} {root : Green} {n : Element}
    (h : p.resolveIn root = some n) : n.isToken = false := by
  simp only [resolveIn] at h
  split at h
  · simp only [Option.bind_eq_some_iff] at h
    obtain ⟨s, hs, hn⟩ := h
    have hsm : s ∈ root.members ∧ s.isToken = false := by
      split at hs
      · obtain ⟨hc, hm⟩ := Green.parent?_spec (Green.covering_mem _) hs
        exact ⟨hm, Element.isToken_of_mem_children hc⟩
      · rename_i hcov
        cases hs
        exact ⟨Green.covering_mem _, by simpa using hcov⟩
    exact Green.isToken_of_mem_ancestors hsm.1 hsm.2 (List.mem_of_find?_eq_some hn)
  · cases h

namespace Workspace

variable {w w' : Workspace}

theorem Coherent.isToken_of_isNode (hw : w.Coherent) {x : FileElement} (hx : x.Genuine w)
    (hk : x.elem.kind.isNode = true) : x.elem.isToken = false := by
  cases ht : x.elem.isToken
  · rfl
  · obtain ⟨text, -, hsp, -⟩ := hx.spells hw
    rw [hsp.not_isNode_of_isToken hx.2 ht] at hk
    cases hk

theorem resolve_genuine {p : NodePtr} {y : FileElement} (h : w.resolve p = some y) :
    y.Genuine w ∧ y.elem.isToken = false ∧ y.file = p.file := by
  simp only [resolve, Option.bind_eq_some_iff, Option.map_eq_some_iff] at h
  obtain ⟨root, hroot, n, hn, rfl⟩ := h
  exact ⟨⟨hroot, (NodePtr.resolveIn_spec hn).1⟩, NodePtr.resolveIn_isToken hn, rfl⟩

theorem resolve_ofElement (hw : w.Coherent) {y : FileElement} (hy : y.Genuine w)
    (hn : y.elem.isToken = false) : w.resolve (NodePtr.ofElement y) = some y := by
  have h := Session.run_resolvePtr_ofElement (hy.separated hw) hy.1 hy.2 hn
  rw [Session.run_resolvePtr] at h
  exact Except.ok.inj (Prod.mk.inj h).1

/-! ### One step of the climb -/

def climbCall (w : Workspace) (f : FileId) : Option MacroCall × Bool :=
  match w.expansionCall f with
  | some c => (some c, false)
  | none => (w.includedFrom f, true)

/-- The anchor a climb step reads: the owner of the call that made the file or, for an included
file, the module around that owner. -/
def climbAnchor (w : Workspace) (f : FileId) : Option FileElement :=
  match w.climbCall f with
  | (some call, included) => call.owner?.map fun owner =>
    if included then Session.containingModule ⟨call.file, call.root, owner⟩
    else ⟨call.file, call.root, owner⟩
  | (none, _) => none

def climbOn (w : Workspace) (anchor : FileElement) : Session.Climb :=
  if (w.expansionCall anchor.file).isSome then .next anchor.file
  else if (w.includedFrom anchor.file).isSome then .next anchor.file
  else .found anchor.fileRoot

/-- What an anchor says: an item list, or a node below file level, answers by its position; a
file-level anchor answers the context set or remembered for its file, or the climb goes on. -/
def anchorOutcome (w : Workspace) (anchor : FileElement) : Session.Climb :=
  if anchor.kind == .itemList then .found anchor
  else if !anchor.isFileLevel then
    match anchor.parent? with
    | some p => .found p
    | none => .stuck
  else match (w.overlay.explicit anchor.file).bind w.resolve with
    | some c => .found c
    | none => match (w.overlay.callSite anchor.file).bind w.resolve with
      | some c => .found c
      | none => w.climbOn anchor

def climbOutcome (w : Workspace) (f : FileId) : Session.Climb :=
  match w.climbAnchor f with
  | some a => w.anchorOutcome a
  | none => .stuck

theorem climbAnchor_of_files (h : w'.files = w.files) : w'.climbAnchor = w.climbAnchor := by
  unfold climbAnchor climbCall expansionCall callOfKey includedFrom includeTarget callsIn tree?
    text? fileId? file?
  rw [h]

theorem climbOn_of_files (h : w'.files = w.files) : w'.climbOn = w.climbOn := by
  unfold climbOn expansionCall callOfKey includedFrom includeTarget callsIn tree? text? fileId?
    file?
  rw [h]

theorem resolve_of_files (h : w'.files = w.files) : w'.resolve = w.resolve := by
  unfold resolve tree? file?
  rw [h]

@[simp] theorem climbAnchor_withOverlay (o : Overlay) :
    ({ w with overlay := o } : Workspace).climbAnchor = w.climbAnchor :=
  climbAnchor_of_files rfl

@[simp] theorem resolve_withOverlay (o : Overlay) :
    ({ w with overlay := o } : Workspace).resolve = w.resolve :=
  resolve_of_files rfl

@[simp] theorem climbOn_withOverlay (o : Overlay) :
    ({ w with overlay := o } : Workspace).climbOn = w.climbOn :=
  climbOn_of_files rfl

theorem climbAnchor_eq_none {f : FileId} (he : w.expansionCall f = none)
    (hi : w.includedFrom f = none) : w.climbAnchor f = none := by
  simp [climbAnchor, climbCall, he, hi]

theorem climbAnchor_genuine {f : FileId} {a : FileElement} (h : w.climbAnchor f = some a) :
    a.Genuine w := by
  unfold climbAnchor climbCall at h
  cases hc : w.expansionCall f with
  | some c =>
    simp only [hc, Bool.false_eq_true, if_false, Option.map_eq_some_iff] at h
    obtain ⟨owner, ho, rfl⟩ := h
    exact (expansionCall_genuine hc).owner? ho
  | none =>
    cases hi : w.includedFrom f with
    | some c =>
      simp only [hc, hi, if_true, Option.map_eq_some_iff] at h
      obtain ⟨owner, ho, rfl⟩ := h
      exact ((includedFrom_genuine hi).owner? ho).containingModule
    | none => simp [hc, hi] at h

theorem Coherent.anchorOutcome_found (hw : w.Coherent) {a y : FileElement} (ha : a.Genuine w)
    (h : w.anchorOutcome a = .found y) : y.Genuine w ∧ y.elem.isToken = false := by
  unfold anchorOutcome at h
  split at h
  · rename_i hk
    cases h
    exact ⟨ha, hw.isToken_of_isNode ha (by simp only [beq_iff_eq, FileElement.kind] at hk; rw [hk]; decide)⟩
  split at h
  · split at h
    · rename_i p hp
      cases h
      obtain ⟨hg, hc⟩ := ha.parent? hp
      exact ⟨hg, Element.isToken_of_mem_children hc⟩
    · cases h
  split at h
  · rename_i c hc
    cases h
    obtain ⟨p, -, hp⟩ := Option.bind_eq_some_iff.1 hc
    exact (resolve_genuine hp).imp_right And.left
  split at h
  · rename_i c hc
    cases h
    obtain ⟨p, -, hp⟩ := Option.bind_eq_some_iff.1 hc
    exact (resolve_genuine hp).imp_right And.left
  unfold climbOn at h
  split at h
  · cases h
  split at h
  · cases h
  cases h
  exact ⟨ha.fileRoot, hw.tree_isToken ha.1⟩

/-! ### The climb with nothing remembered -/

/-- The workspace with nothing remembered. -/
def cleared (w : Workspace) : Workspace := { w with overlay := w.overlay.clearCallSites }

@[simp] theorem cleared_explicit : w.cleared.overlay.explicit = w.overlay.explicit := rfl

@[simp] theorem cleared_callSite (f : FileId) : w.cleared.overlay.callSite f = none := rfl

@[simp] theorem cleared_maxDepth : w.cleared.maxDepth = w.maxDepth := rfl

@[simp] theorem cleared_climbAnchor : w.cleared.climbAnchor = w.climbAnchor :=
  climbAnchor_of_files rfl

@[simp] theorem cleared_climbOn : w.cleared.climbOn = w.climbOn := climbOn_of_files rfl

@[simp] theorem cleared_resolve : w.cleared.resolve = w.resolve := resolve_of_files rfl

theorem cleared_anchorOutcome_of (h : w'.files = w.files)
    (hx : w'.overlay.explicit = w.overlay.explicit) :
    w'.cleared.anchorOutcome = w.cleared.anchorOutcome := by
  have hr : w'.resolve = w.resolve := resolve_of_files h
  have ho : w'.climbOn = w.climbOn := climbOn_of_files h
  have hx' : w'.cleared.overlay.explicit = w.cleared.overlay.explicit := hx
  funext a
  simp only [anchorOutcome, cleared_resolve, cleared_climbOn, hr, ho, hx']
  rfl

/-- `w.Finds f path y`: with nothing remembered, the climb from `f` reads the anchors in the files
`path`, in order, and finds `y` at the last. -/
inductive Finds (w : Workspace) : FileId → List FileId → FileElement → Prop
  | found {f : FileId} {a y : FileElement} : w.climbAnchor f = some a →
      w.cleared.anchorOutcome a = .found y → Finds w f [a.file] y
  | next {f : FileId} {a y : FileElement} {path : List FileId} : w.climbAnchor f = some a →
      w.cleared.anchorOutcome a = .next a.file → Finds w a.file path y →
      Finds w f (a.file :: path) y

theorem Finds.anchor {f : FileId} {path : List FileId} {y : FileElement} (h : w.Finds f path y) :
    ∃ a, w.climbAnchor f = some a := by
  cases h with
  | found ha _ => exact ⟨_, ha⟩
  | next ha _ _ => exact ⟨_, ha⟩

theorem Finds.of_found {f : FileId} {a y y' : FileElement} {path : List FileId}
    (ha : w.climbAnchor f = some a) (ho : w.cleared.anchorOutcome a = .found y)
    (h : w.Finds f path y') : path = [a.file] ∧ y' = y := by
  cases h with
  | found ha' ho' =>
    rw [ha] at ha'
    cases ha'
    rw [ho] at ho'
    cases ho'
    exact ⟨rfl, rfl⟩
  | next ha' ho' _ =>
    rw [ha] at ha'
    cases ha'
    rw [ho] at ho'
    cases ho'

theorem Finds.of_files (h : w'.files = w.files) (hx : w'.overlay.explicit = w.overlay.explicit)
    {f : FileId} {path : List FileId} {y : FileElement} (hf : w.Finds f path y) :
    w'.Finds f path y := by
  induction hf with
  | found ha ho =>
    exact .found (by rw [climbAnchor_of_files h]; exact ha)
      (by rw [cleared_anchorOutcome_of h hx]; exact ho)
  | next ha ho _ ih =>
    exact .next (by rw [climbAnchor_of_files h]; exact ha)
      (by rw [cleared_anchorOutcome_of h hx]; exact ho) ih

theorem Finds.withOverlay {o : Overlay} (hx : o.explicit = w.overlay.explicit) {f : FileId}
    {path : List FileId} {y : FileElement} (h : w.Finds f path y) :
    ({ w with overlay := o } : Workspace).Finds f path y :=
  h.of_files (show ({ w with overlay := o } : Workspace).files = w.files from rfl) hx

/-- Every remembered entry that names a node names what the climb from its file finds with
nothing remembered. -/
def MemoFaithful (w : Workspace) : Prop :=
  ∀ g p y, w.overlay.callSite g = some p → w.resolve p = some y → ∃ path, w.Finds g path y

theorem memoFaithful_of_callSite (h : ∀ g, w.overlay.callSite g = none) : w.MemoFaithful :=
  fun g p y hp => by rw [h g] at hp; cases hp

theorem cleared_memoFaithful (w : Workspace) : w.cleared.MemoFaithful :=
  memoFaithful_of_callSite fun _ => rfl

/-- With faithful entries, one climb step answers as with nothing remembered, except that an
entry for the anchor's file answers at once where the step with nothing remembered goes on into
that file. -/
theorem MemoFaithful.climbOutcome_eq_or_hit (hm : w.MemoFaithful) (f : FileId) :
    w.climbOutcome f = w.cleared.climbOutcome f ∨
      ∃ a y path, w.climbAnchor f = some a ∧ w.cleared.anchorOutcome a = .next a.file ∧
        w.climbOutcome f = .found y ∧ w.Finds a.file path y := by
  unfold climbOutcome
  rw [cleared_climbAnchor]
  cases ha : w.climbAnchor f with
  | none => exact .inl rfl
  | some a =>
    simp only [anchorOutcome, cleared_resolve, cleared_climbOn, cleared_explicit,
      cleared_callSite, Option.bind_none]
    split
    · exact .inl rfl
    rename_i hk
    split
    · exact .inl rfl
    rename_i hlevel
    cases hx : (w.overlay.explicit a.file).bind w.resolve with
    | some c => exact .inl rfl
    | none =>
    cases hc : (w.overlay.callSite a.file).bind w.resolve with
    | none => exact .inl rfl
    | some y =>
      obtain ⟨p, hp, hy⟩ := Option.bind_eq_some_iff.1 hc
      obtain ⟨path, hf⟩ := hm _ p y hp hy
      obtain ⟨b, hb⟩ := hf.anchor
      have hon : w.climbOn a = .next a.file := by
        unfold climbOn
        split
        · rfl
        split
        · rfl
        rename_i he hi
        rw [climbAnchor_eq_none (Option.not_isSome_iff_eq_none.1 he)
          (Option.not_isSome_iff_eq_none.1 hi)] at hb
        cases hb
      refine .inr ⟨a, y, path, rfl, ?_, rfl, hf⟩
      rw [if_neg hk, if_neg hlevel, hx]
      exact hon

theorem climbOutcome_next {f g : FileId} (h : w.climbOutcome f = .next g) :
    ∃ a, w.climbAnchor f = some a ∧ w.anchorOutcome a = .next g := by
  unfold climbOutcome at h
  split at h
  · exact ⟨_, ‹_›, h⟩
  · cases h

theorem anchorOutcome_next {a : FileElement} {g : FileId} (h : w.anchorOutcome a = .next g) :
    g = a.file := by
  unfold anchorOutcome at h
  split at h
  · cases h
  split at h
  · split at h <;> cases h
  split at h
  · cases h
  split at h
  · cases h
  unfold climbOn at h
  split at h
  · cases h
    rfl
  split at h
  · cases h
    rfl
  · cases h

theorem climbOutcome_found {f : FileId} {y : FileElement} (h : w.climbOutcome f = .found y) :
    ∃ a, w.climbAnchor f = some a ∧ w.anchorOutcome a = .found y := by
  unfold climbOutcome at h
  split at h
  · exact ⟨_, ‹_›, h⟩
  · cases h

theorem Coherent.found_genuine (hw : w.Coherent) {f : FileId} {y : FileElement}
    (h : w.climbOutcome f = .found y) : y.Genuine w ∧ y.elem.isToken = false := by
  obtain ⟨a, ha, ho⟩ := climbOutcome_found h
  exact hw.anchorOutcome_found (climbAnchor_genuine ha) ho

theorem Finds.of_next {f : FileId} {a y : FileElement} {path : List FileId}
    (ha : w.climbAnchor f = some a) (ho : w.cleared.anchorOutcome a = .next a.file)
    (h : w.Finds f path y) : ∃ path', path = a.file :: path' ∧ w.Finds a.file path' y := by
  cases h with
  | found ha' ho' =>
    rw [ha] at ha'
    cases ha'
    rw [ho] at ho'
    cases ho'
  | next ha' _ hf =>
    rw [ha] at ha'
    cases ha'
    exact ⟨_, rfl, hf⟩

theorem Finds.eq_of_top {f : FileId} {a y : FileElement} {path : List FileId}
    (ha : w.climbAnchor f = some a) (he : w.expansionCall a.file = none)
    (hi : w.includedFrom a.file = none) (h : w.Finds f path y) : path = [a.file] := by
  cases h with
  | found ha' _ =>
    rw [ha] at ha'
    cases ha'
    rfl
  | next ha' _ hf =>
    rw [ha] at ha'
    cases ha'
    obtain ⟨b, hb⟩ := hf.anchor
    rw [climbAnchor_eq_none he hi] at hb
    cases hb

theorem MemoFaithful.finds_of_found (hm : w.MemoFaithful) {f : FileId} {y : FileElement}
    (h : w.climbOutcome f = .found y) : ∃ path, w.Finds f path y := by
  rcases hm.climbOutcome_eq_or_hit f with heq | ⟨a, y', path, ha, hnext, hfound, hf⟩
  · rw [heq] at h
    obtain ⟨a, ha, ho⟩ := climbOutcome_found h
    rw [cleared_climbAnchor] at ha
    exact ⟨_, .found ha ho⟩
  · rw [hfound] at h
    cases h
    exact ⟨_, .next ha hnext hf⟩

theorem MemoFaithful.finds_of_next (hm : w.MemoFaithful) {f g : FileId} {y : FileElement}
    {path : List FileId} (h : w.climbOutcome f = .next g) (hf : w.Finds g path y) :
    w.Finds f (g :: path) y := by
  rcases hm.climbOutcome_eq_or_hit f with heq | ⟨a, y', path', ha, hnext, hfound, -⟩
  · rw [heq] at h
    obtain ⟨a, ha, ho⟩ := climbOutcome_next h
    rw [cleared_climbAnchor] at ha
    obtain rfl := anchorOutcome_next ho
    exact .next ha ho hf
  · rw [hfound] at h
    cases h

theorem MemoFaithful.remember (hw : w.Coherent) (hm : w.MemoFaithful) {y : FileElement}
    (hy : y.Genuine w) (hn : y.elem.isToken = false) (l : List FileId)
    (hl : ∀ g ∈ l, ∃ path, w.Finds g path y) :
    ({ w with overlay := l.foldl (fun o g => o.remember g (NodePtr.ofElement y)) w.overlay } :
      Workspace).MemoFaithful := by
  have hx := Session.explicit_foldl_remember (NodePtr.ofElement y) l w.overlay
  intro g p z hp hz
  rw [resolve_withOverlay] at hz
  rw [Session.callSite_foldl_remember] at hp
  split at hp
  · rename_i hg
    cases hp
    rw [resolve_ofElement hw hy hn] at hz
    cases hz
    obtain ⟨path, hf⟩ := hl g hg
    exact ⟨path, hf.withOverlay hx⟩
  · obtain ⟨path, hf⟩ := hm g p z hp hz
    exact ⟨path, hf.withOverlay hx⟩

theorem memoFaithful_setContext (f : FileId) (p : NodePtr) :
    ({ w with overlay := w.overlay.setContext f p } : Workspace).MemoFaithful := by
  refine memoFaithful_of_callSite fun g => ?_
  unfold Overlay.setContext
  split <;> rfl

theorem explicit_forgetFile_bind {f h : FileId}
    (hne : ∀ z, (w.overlay.explicit h).bind w.resolve = some z → z.file ≠ f)
    (hf : h = f → (w.overlay.explicit f).bind w.resolve = none) :
    ((w.overlay.forgetFile f).explicit h).bind w.resolve =
      (w.overlay.explicit h).bind w.resolve := by
  rw [Overlay.forgetFile_explicit]
  split
  · rename_i hh
    subst hh
    rw [hf rfl]
    rfl
  cases hp : w.overlay.explicit h with
  | none => rfl
  | some p =>
    rw [hp] at hne
    by_cases hpf : p.file = f
    · have hr : w.resolve p = none := by
        cases hr : w.resolve p with
        | none => rfl
        | some z => exact absurd ((resolve_genuine hr).2.2.trans hpf) (hne z hr)
      simp [Option.filter, hpf, hr]
    · simp [Option.filter, hpf]

theorem cleared_anchorOutcome_forgetFile {a : FileElement} {o : Session.Climb} {f : FileId}
    (ho : w.cleared.anchorOutcome a = o) (hno : ∀ z, o = .found z → z.file ≠ f)
    (hf : a.file = f → (w.overlay.explicit f).bind w.resolve = none) :
    ({ w with overlay := w.overlay.forgetFile f } : Workspace).cleared.anchorOutcome a = o := by
  subst ho
  unfold anchorOutcome
  simp only [cleared_resolve, cleared_climbOn, cleared_explicit, cleared_callSite,
    resolve_withOverlay, climbOn_withOverlay, Option.bind_none]
  split
  · rfl
  rename_i hk
  split
  · rfl
  rename_i hlevel
  have hne : ∀ z, (w.overlay.explicit a.file).bind w.resolve = some z → z.file ≠ f := by
    intro z hz
    refine hno z ?_
    unfold anchorOutcome
    simp only [cleared_resolve, cleared_explicit, hz, if_neg hk, if_neg hlevel]
  rw [explicit_forgetFile_bind hne hf]

theorem Finds.forgetFile {f g : FileId} {path : List FileId} {y : FileElement}
    (h : w.Finds g path y) (hy : y.file ≠ f)
    (hf : f ∈ path → (w.overlay.explicit f).bind w.resolve = none) :
    ({ w with overlay := w.overlay.forgetFile f } : Workspace).Finds g path y := by
  induction h with
  | found ha ho =>
    refine .found (by rw [climbAnchor_withOverlay]; exact ha)
      (cleared_anchorOutcome_forgetFile ho (fun z hz => ?_) fun he => hf (by simp [he]))
    cases hz
    exact hy
  | next ha ho _ ih =>
    refine .next (by rw [climbAnchor_withOverlay]; exact ha)
      (cleared_anchorOutcome_forgetFile ho (fun z hz => by cases hz) fun he => hf (by simp [he]))
      (ih hy fun hp => hf (List.mem_cons_of_mem _ hp))

/-- Forgetting a file keeps the entries faithful when no remembered entry's climb read a context
set by hand in that file. -/
def ForgetKeepsMemo (w : Workspace) (f : FileId) : Prop :=
  ∀ g p y path, w.overlay.callSite g = some p → w.resolve p = some y → w.Finds g path y →
    f ∈ path → (w.overlay.explicit f).bind w.resolve = none

theorem MemoFaithful.forgetFile (hm : w.MemoFaithful) {f : FileId} (hk : w.ForgetKeepsMemo f) :
    ({ w with overlay := w.overlay.forgetFile f } : Workspace).MemoFaithful := by
  intro g p y hp hy
  rw [resolve_withOverlay] at hy
  simp only [Overlay.forgetFile] at hp
  split at hp
  · cases hp
  obtain ⟨hp, hpf⟩ := Option.filter_eq_some_iff.1 hp
  obtain ⟨path, hf⟩ := hm g p y hp hy
  have hyf : y.file ≠ f := by
    rw [(resolve_genuine hy).2.2]
    simpa using hpf
  exact ⟨path, hf.forgetFile hyf (hk g p y path hp hy hf)⟩

end Workspace

namespace Session

variable {w : Workspace}

theorem run_climbStep (f : FileId) :
    (climbStep f).run.run w = (.ok (f, w.climbOutcome f), w) := by
  unfold climbStep Workspace.climbOutcome Workspace.climbAnchor Workspace.climbCall
  extract_lets jp
  have hjp : ∀ (call : Option MacroCall) (included : Bool), (jp (call, included)).run.run w =
      (.ok (f, match (call, included) with
        | (some call, included) => match call.owner?.map fun owner =>
            if included then Session.containingModule ⟨call.file, call.root, owner⟩
            else ⟨call.file, call.root, owner⟩ with
          | some a => w.anchorOutcome a
          | none => .stuck
        | (none, _) => .stuck), w) := by
    intro call included
    simp -zeta only [jp]
    rcases call with _ | call
    · rfl
    cases ho : call.owner? with
    | none =>
      simp only [ho, Option.map_none]
      rfl
    | some owner =>
      simp only [ho, Option.map_some]
      generalize (if included = true then containingModule ⟨call.file, call.root, owner⟩
        else ⟨call.file, call.root, owner⟩) = anchor
      unfold Workspace.anchorOutcome
      split
      · rfl
      split
      · cases anchor.parent? <;> rfl
      simp only [run_bind, run_explicitContext]
      cases (w.overlay.explicit anchor.file).bind w.resolve with
      | some c => rfl
      | none =>
        simp only [run_bind, run_rememberedContext]
        cases (w.overlay.callSite anchor.file).bind w.resolve with
        | some c => rfl
        | none =>
          simp only [run_bind, run_expansionCall, Workspace.climbOn]
          split
          · rfl
          simp only [run_bind, run_includedFrom]
          split <;> rfl
  cases hc : w.expansionCall f with
  | some c => simp only [run_bind, run_expansionCall, hc, run_pure, hjp]
  | none =>
    simp only [run_bind, run_expansionCall, hc, run_includedFrom, run_pure, hjp]
    cases w.includedFrom f <;> rfl

theorem climb_cleared_of_finds (limit : Nat) {f : FileId} {path : List FileId} {y : FileElement}
    (h : w.Finds f path y) : ∀ (fuel : Nat) (visited : List FileId),
      visited.length + path.length ≤ limit + 1 → path.length ≤ fuel →
      ((climb limit fuel f visited).run.run w.cleared).1 = .ok (some y) := by
  induction h with
  | @found f a y ha ho =>
    intro fuel visited hb hf
    obtain ⟨fuel, rfl⟩ : ∃ n, fuel = n + 1 := ⟨fuel - 1, by simp at hf; omega⟩
    have hcut : ¬ visited.length > limit := by simp at hb; omega
    have hstep : w.cleared.climbOutcome f = .found y := by
      rw [Workspace.climbOutcome, Workspace.cleared_climbAnchor, ha]
      exact ho
    simp only [climb, hcut, if_false, run_bind, run_climbStep, hstep, run_forIn_remember,
      run_pure]
  | @next f a y path ha ho _ ih =>
    intro fuel visited hb hf
    obtain ⟨fuel, rfl⟩ : ∃ n, fuel = n + 1 := ⟨fuel - 1, by simp at hf; omega⟩
    have hcut : ¬ visited.length > limit := by simp at hb; omega
    have hstep : w.cleared.climbOutcome f = .next a.file := by
      rw [Workspace.climbOutcome, Workspace.cleared_climbAnchor, ha]
      exact ho
    simp only [climb, hcut, if_false, run_bind, run_climbStep, hstep]
    exact ih fuel (f :: visited) (by simp at hb ⊢; omega) (by simp at hf; omega)

theorem climb_of_faithful (hm : w.MemoFaithful) (limit : Nat) : ∀ (fuel : Nat) (f : FileId)
    (visited : List FileId),
    (∀ path y, w.Finds f path y → visited.length + path.length ≤ limit + 1 ∧ path.length ≤ fuel) →
    ((climb limit fuel f visited).run.run w).1 = ((climb limit fuel f visited).run.run w.cleared).1
  | 0, _, _, _ => rfl
  | fuel + 1, f, visited, hb => by
    unfold climb
    split
    · rfl
    simp only [run_bind, run_climbStep]
    rcases hm.climbOutcome_eq_or_hit f with heq | ⟨a, y, path, ha, hnext, hfound, hf⟩
    · rw [heq]
      cases hc : w.cleared.climbOutcome f with
      | stuck => rfl
      | found ctx => simp only [run_bind, run_forIn_remember, run_pure]
      | next g =>
        obtain ⟨a, ha, hg⟩ := Workspace.climbOutcome_next hc
        rw [Workspace.cleared_climbAnchor] at ha
        obtain rfl := Workspace.anchorOutcome_next hg
        refine climb_of_faithful hm limit fuel a.file (f :: visited) fun path y hf => ?_
        have := hb _ y (.next ha hg hf)
        simp only [List.length_cons] at this ⊢
        omega
    · rw [hfound]
      have hc : w.cleared.climbOutcome f = .next a.file := by
        rw [Workspace.climbOutcome, Workspace.cleared_climbAnchor, ha]
        exact hnext
      have hbud := hb _ y (.next ha hnext hf)
      simp only [List.length_cons] at hbud
      rw [hc]
      simp only [run_bind, run_forIn_remember, run_pure]
      rw [climb_cleared_of_finds limit hf fuel (f :: visited) (by simp; omega) (by omega)]

theorem fst_run_bind {x : Session α} {k : α → Session β} {w w' : Workspace}
    (hx : (x.run.run w).1 = (x.run.run w').1)
    (hk : ∀ a v v', ((k a).run.run v).1 = ((k a).run.run v').1) :
    ((x >>= k).run.run w).1 = ((x >>= k).run.run w').1 := by
  rw [run_bind, run_bind]
  cases h₁ : x.run.run w with
  | mk r v =>
    cases h₂ : x.run.run w' with
    | mk r' v' =>
      rw [h₁, h₂] at hx
      change r = r' at hx
      subst hx
      cases r with
      | error e => rfl
      | ok a => exact hk a v v'

theorem callSiteContext_of_faithful (hm : w.MemoFaithful) (f : FileId)
    (hshort : ∀ path y, w.Finds f path y → path.length ≤ w.maxDepth + 1) :
    ((callSiteContext f).run.run w).1 = ((callSiteContext f).run.run w.cleared).1 := by
  unfold callSiteContext
  simp only [run_bind, run_rememberedContext, run_rememberedContext_none (Workspace.cleared_callSite f),
    run_maxDepth, Workspace.cleared_maxDepth]
  cases hc : (w.overlay.callSite f).bind w.resolve with
  | some y =>
    obtain ⟨p, hp, hy⟩ := Option.bind_eq_some_iff.1 hc
    obtain ⟨path, hf⟩ := hm f p y hp hy
    have hlen := hshort path y hf
    rw [climb_cleared_of_finds w.maxDepth hf (w.maxDepth + 2) [] (by simpa using hlen)
      (by omega)]
    rfl
  | none =>
    exact climb_of_faithful hm w.maxDepth (w.maxDepth + 2) f [] fun path y hf => by
      have := hshort path y hf
      simp only [List.length_nil, Nat.zero_add]
      omega

theorem getContext_of_faithful (hm : w.MemoFaithful) (n : FileElement) (access : IndexAccess)
    (hshort : ∀ path y, w.Finds n.file path y → path.length ≤ w.maxDepth + 1) :
    ((getContext n access).run.run w).1 = ((getContext n access).run.run w.cleared).1 := by
  have hx : (explicitContext n.file).run.run w.cleared =
      (.ok ((w.overlay.explicit n.file).bind w.resolve), w.cleared) := by
    rw [run_explicitContext, Workspace.resolve_of_files rfl]
    rfl
  unfold getContext
  split
  · rfl
  simp only [run_bind, run_explicitContext, hx]
  cases (w.overlay.explicit n.file).bind w.resolve with
  | some c => rfl
  | none =>
    dsimp only
    split
    · exact fst_run_bind (callSiteContext_of_faithful hm n.file hshort) fun c v v' => by
        cases c <;> rfl
    · rfl

/-- A session that keeps the remembered entries of a coherent workspace faithful and changes
nothing else. -/
def KeepsFaithful (x : Session α) : Prop :=
  ∀ w : Workspace, w.Coherent → w.MemoFaithful →
    ∃ o, (x.run.run w).2 = { w with overlay := o } ∧ ({ w with overlay := o } : Workspace).MemoFaithful

theorem Reads.keepsFaithful {x : Session α} (h : Reads x) : KeepsFaithful x :=
  fun w _ hm => ⟨w.overlay, h w, hm⟩

theorem KeepsFaithful.bind {x : Session α} {f : α → Session β} (hx : KeepsFaithful x)
    (hf : ∀ a, KeepsFaithful (f a)) : KeepsFaithful (x >>= f) := fun w hw hm => by
  obtain ⟨o, hx₁, hx₂⟩ := hx w hw hm
  refine state_bind (fun w' => ∃ o, w' = { w with overlay := o } ∧
    ({ w with overlay := o } : Workspace).MemoFaithful) ⟨o, hx₁, hx₂⟩ fun a w' hr => ?_
  rw [hr] at hx₁
  subst hx₁
  exact hf a _ (hw.withOverlay o) hx₂

theorem climb_keepsFaithful (hw : w.Coherent) (hm : w.MemoFaithful) (limit : Nat) :
    ∀ (fuel : Nat) (f : FileId) (visited : List FileId),
    (∀ g ∈ visited, ∀ path y, w.Finds f path y → ∃ path', w.Finds g path' y) →
    ∃ o, ((climb limit fuel f visited).run.run w).2 = { w with overlay := o } ∧
      ({ w with overlay := o } : Workspace).MemoFaithful
  | 0, _, _, _ => ⟨w.overlay, rfl, hm⟩
  | fuel + 1, f, visited, hv => by
    unfold climb
    split
    · exact ⟨w.overlay, rfl, hm⟩
    simp only [run_bind, run_climbStep]
    cases hc : w.climbOutcome f with
    | stuck => exact ⟨w.overlay, rfl, hm⟩
    | found y =>
      simp only [run_bind, run_forIn_remember, run_pure]
      obtain ⟨hy, hn⟩ := hw.found_genuine hc
      obtain ⟨path, hf⟩ := hm.finds_of_found hc
      refine ⟨_, rfl, hm.remember hw hy hn _ fun g hg => ?_⟩
      rcases List.mem_cons.1 (List.mem_reverse.1 hg) with rfl | hg
      · exact ⟨path, hf⟩
      · exact hv g hg path y hf
    | next g =>
      refine climb_keepsFaithful hw hm limit fuel g (f :: visited) fun g' hg' path y hf => ?_
      rcases List.mem_cons.1 hg' with rfl | hg'
      · exact ⟨_, hm.finds_of_next hc hf⟩
      · exact hv g' hg' _ y (hm.finds_of_next hc hf)

theorem keepsFaithful_callSiteContext (f : FileId) : KeepsFaithful (callSiteContext f) := by
  unfold callSiteContext
  refine (reads_rememberedContext f).keepsFaithful.bind fun c => ?_
  split
  · exact (Reads.pure _).keepsFaithful
  refine reads_maxDepth.keepsFaithful.bind fun limit w hw hm => ?_
  exact climb_keepsFaithful hw hm limit _ f [] fun g hg => by cases hg

theorem keepsFaithful_getContext (n : FileElement) (access : IndexAccess) :
    KeepsFaithful (getContext n access) := by
  unfold getContext
  split
  · exact (Reads.pure _).keepsFaithful
  refine (reads_explicitContext _).keepsFaithful.bind fun c => ?_
  split
  · exact (Reads.pure _).keepsFaithful
  split
  · refine (keepsFaithful_callSiteContext _).bind fun c => ?_
    split <;> exact (Reads.pure _).keepsFaithful
  · exact (Reads.pure _).keepsFaithful

end Session

namespace ContextOp

/-- Every forgetting in a run of operations keeps the remembered entries faithful, each judged in
the workspace the operations before it leave. -/
def KeepsMemo : Workspace → List ContextOp → Prop
  | _, [] => True
  | w, op :: ops => (∀ f, op = forget f → w.ForgetKeepsMemo f) ∧ KeepsMemo (op.run.run.run w).2 ops

theorem keepsMemo_of_no_forget : ∀ (ops : List ContextOp) (w : Workspace),
    (∀ f, forget f ∉ ops) → KeepsMemo w ops
  | [], _, _ => trivial
  | op :: ops, w, h => by
    refine ⟨fun f hf => ?_, keepsMemo_of_no_forget ops _ fun f hf => h f (List.mem_cons_of_mem _ hf)⟩
    subst hf
    exact absurd List.mem_cons_self (h f)

theorem run_keepsFaithful (op : ContextOp) {w : Workspace} (hw : w.Coherent) (hm : w.MemoFaithful)
    (hop : ∀ f, op = forget f → w.ForgetKeepsMemo f) :
    ∃ o, (op.run.run.run w).2 = { w with overlay := o } ∧
      ({ w with overlay := o } : Workspace).MemoFaithful := by
  cases op with
  | set n ctx =>
    exact ⟨w.overlay.setContext n.file (NodePtr.ofElement ctx), rfl,
      Workspace.memoFaithful_setContext _ _⟩
  | forget f => exact ⟨w.overlay.forgetFile f, rfl, hm.forgetFile (hop f rfl)⟩
  | lookup n access =>
    exact ((Session.keepsFaithful_getContext n access).bind fun _ =>
      (Session.Reads.pure _).keepsFaithful) w hw hm

theorem runAll_keepsFaithful : ∀ (ops : List ContextOp) (w : Workspace), w.Coherent →
    w.MemoFaithful → KeepsMemo w ops →
    ∃ o, runAll w ops = { w with overlay := o } ∧ (runAll w ops).MemoFaithful
  | [], w, _, hm, _ => ⟨w.overlay, rfl, hm⟩
  | op :: ops, w, hw, hm, hk => by
    obtain ⟨o, h₁, h₂⟩ := op.run_keepsFaithful hw hm hk.1
    have hw' : (op.run.run.run w).2.Coherent := h₁ ▸ hw.withOverlay o
    obtain ⟨o', h₃, h₄⟩ := runAll_keepsFaithful ops _ hw' (h₁ ▸ h₂) hk.2
    refine ⟨o', ?_, h₄⟩
    show runAll (op.run.run.run w).2 ops = _
    rw [h₃, h₁]

end ContextOp

open Session in
/-- Remembered contexts change no answer while they are faithful. From a coherent workspace whose
entries are faithful (one with none remembered, say), after any run of settings, lookups and
forgettings in which no forgotten file held a context set by hand that a remembered climb read, a
lookup answers what the resolver answers with the same files, the same contexts set by hand and
nothing remembered, once the climb from the node's file with nothing remembered stays within the
depth limit. -/
theorem remembered_contexts_change_no_answer {w₀ : Workspace} (hw : w₀.Coherent)
    (hm : w₀.MemoFaithful) (ops : List ContextOp) (hops : ContextOp.KeepsMemo w₀ ops)
    (n : FileElement) (access : IndexAccess)
    (hshort : ∀ path y, (ContextOp.runAll w₀ ops).Finds n.file path y →
      path.length ≤ w₀.maxDepth + 1) :
    ((getContext n access).run.run (ContextOp.runAll w₀ ops)).1 =
      ((getContext n access).run.run (ContextOp.runAll w₀ ops).cleared).1 := by
  obtain ⟨o, hrun, hm'⟩ := ContextOp.runAll_keepsFaithful ops w₀ hw hm hops
  have hdepth : (ContextOp.runAll w₀ ops).maxDepth = w₀.maxDepth := by rw [hrun]
  refine getContext_of_faithful hm' n access fun path y hf => ?_
  rw [hdepth]
  exact hshort path y hf

open Session in
/-- After a lookup for the root of the inner expansion of `nest!(a);` has remembered the source
root for both expansion files, a lookup for the root of the outer expansion reads that entry and
answers as with nothing remembered. -/
theorem remembered_root_matches_fresh_lookup : ∃ (w : Workspace) (root₁ root₂ : Green),
    w.Reachable none ∧ w.tree? 1 = some root₁ ∧ w.tree? 2 = some root₂ ∧
    ((ContextOp.runAll w.cleared [.lookup ⟨2, root₂, Element.root root₂⟩ .allowed]).overlay.callSite
      1).isSome ∧
    ((getContext ⟨1, root₁, Element.root root₁⟩ .allowed).run.run
        (ContextOp.runAll w.cleared [.lookup ⟨2, root₂, Element.root root₂⟩ .allowed])).1 =
      ((getContext ⟨1, root₁, Element.root root₁⟩ .allowed).run.run
        (ContextOp.runAll w.cleared [.lookup ⟨2, root₂, Element.root root₂⟩ .allowed]).cleared).1 := by
  have hR := Workspace.Reachable.step
    (.expand (.ok (.named (.expansionOf (.named (.id 0) "nest" (.ok 0))) "nest" (.ok 0))))
    (@Workspace.Reachable.create none [("nest", .template "$x*" "nest!($x)")]
      [⟨"main.wf", "nest!(a);\n", 0⟩] defaultMaxDepth _ _ rfl)
  refine ⟨_, _, _, hR, Option.eq_some_of_isSome ?tree₁, Option.eq_some_of_isSome ?tree₂, ?memo,
    remembered_contexts_change_no_answer (hR.coherent.withOverlay _)
      (Workspace.cleared_memoFaithful _) _ (ContextOp.keepsMemo_of_no_forget _ _ ?noForget) _ _
      fun path y hf => ?short⟩
  case tree₁ => decide +kernel
  case tree₂ => decide +kernel
  case memo => decide +kernel
  case noForget => simp
  case short =>
    rw [hf.eq_of_top (Option.eq_some_of_isSome ?anchor) (Option.isNone_iff_eq_none.1 ?made)
      (Option.isNone_iff_eq_none.1 ?included)]
    case anchor => decide +kernel
    case made => decide +kernel
    case included => decide +kernel
    simp

open Session in
/-- Remembered entries change answers. With a depth limit of zero, a lookup for the root of the
first expansion of `nest!(a);` remembers the source root for that file; the root of the expansion
inside it then finds that entry, where the resolver with no entries remembered stops at the limit.
And a lookup through a context set by hand for the first expansion remembers the context for the
inner one; once the first expansion is forgotten, the entry still answers that context, where the
resolver with no entries remembered climbs to the source root. -/
theorem remembered_context_changes_answers :
    (∃ w : Workspace, w.Reachable none ∧ w.maxDepth = 0 ∧ ∃ root, w.tree? 2 = some root ∧
      (((getContext ⟨2, root, Element.root root⟩ .allowed).run.run w).1.toOption.bind id).map
        (·.file) = some 0 ∧
      ((getContext ⟨2, root, Element.root root⟩ .allowed).run.run
        { w with overlay := w.overlay.clearCallSites }).1 = .ok none) ∧
    (∃ w : Workspace, w.Reachable none ∧ ∃ root, w.tree? 2 = some root ∧
      (((getContext ⟨2, root, Element.root root⟩ .allowed).run.run w).1.toOption.bind id).map
        (fun c => (c.file, c.kind)) = some (0, .macroCall) ∧
      (((getContext ⟨2, root, Element.root root⟩ .allowed).run.run
        { w with overlay := w.overlay.clearCallSites }).1.toOption.bind id).map
        (fun c => (c.file, c.kind)) = some (0, .sourceFile)) := by
  have hcut := Workspace.Reachable.step
    (.expand (.ok (.named (.expansionOf (.named (.id 0) "nest" (.ok 0))) "nest" (.ok 0))))
    (Workspace.Reachable.step
      (.getContext (.ok ⟨.expansionOf (.named (.id 0) "nest" (.ok 0)), .ok .root⟩) (.ok .allowed))
      (@Workspace.Reachable.create none [("nest", .template "$x*" "nest!($x)")]
        [⟨"main.wf", "nest!(a);\n", 0⟩] 0 _ _ rfl))
  have hforgot := Workspace.Reachable.step
    (.forgetFile (.expansionOf (.named (.id 0) "nest" (.ok 0))))
    (Workspace.Reachable.step
      (.getContext (.ok ⟨.expansionOf (.named (.expansionOf (.named (.id 0) "nest" (.ok 0))) "nest"
        (.ok 0)), .ok .root⟩) (.ok .allowed))
      (Workspace.Reachable.step
        (.setContext (.ok ⟨.expansionOf (.named (.id 0) "nest" (.ok 0)), .ok .root⟩)
          (.ok ⟨.id 0, .ok (.node .macroCall 0)⟩))
        (@Workspace.Reachable.create none [("nest", .template "$x*" "nest!($x)")]
          [⟨"main.wf", "nest!(a);\n", 0⟩] defaultMaxDepth _ _ rfl)))
  refine ⟨⟨_, hcut, ?depth, _, Option.eq_some_of_isSome ?tree, ?memo, run_eq_ok_none ?fresh⟩,
    ⟨_, hforgot, _, Option.eq_some_of_isSome ?tree', ?memo', ?fresh'⟩⟩
  case depth => decide +kernel
  case tree => decide +kernel
  case memo => decide +kernel
  case fresh => decide +kernel
  case tree' => decide +kernel
  case memo' => decide +kernel
  case fresh' => decide +kernel

end MacroTrace
