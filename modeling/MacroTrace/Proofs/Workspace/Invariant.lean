import MacroTrace.Workspace.Basic
import MacroTrace.Proofs.Expansion.Macro
import MacroTrace.Proofs.Expansion.Allocation

/-! The workspace invariant. Files only ever get added, and every file's tree is its text parsed
from some entry point. An expansion the workspace keeps for a call key is what the macro of the
call written under that key makes, added as a file at a base where it fits, with the map of its
segments. Keys name calls faithfully: in a parsed tree two calls with one key are one call, once
one of them names its macro. -/
namespace MacroTrace

namespace FileElement

@[simp] theorem withElem_file (e : FileElement) (x : Element) : (e.withElem x).file = e.file := rfl

@[simp] theorem withElem_root (e : FileElement) (x : Element) : (e.withElem x).root = e.root := rfl

@[simp] theorem withElem_elem (e : FileElement) (x : Element) : (e.withElem x).elem = x := rfl

@[simp] theorem kind_eq (e : FileElement) : e.kind = e.elem.kind := rfl

/-- An element of a workspace file: listed from the file's current tree. -/
def Genuine (w : Workspace) (e : FileElement) : Prop :=
  w.tree? e.file = some e.root ∧ e.elem ∈ e.root.members

end FileElement

namespace MacroCall

@[simp] theorem element_file (c : MacroCall) : c.element.file = c.file := rfl

@[simp] theorem element_root (c : MacroCall) : c.element.root = c.root := rfl

@[simp] theorem element_elem (c : MacroCall) : c.element.elem = c.node := rfl

/-- A call written in a workspace file: its node is listed from the file's tree, and it is a macro
call node for a function-like call and an attribute node otherwise. -/
def Genuine (w : Workspace) (c : MacroCall) : Prop :=
  c.element.Genuine w ∧ c.node.kind = if c.kind = .fnLike then .macroCall else .attr

end MacroCall

namespace Workspace

/-- A workspace grows into another: files and stored expansions stay, and so do the macros, the
depth limit and the map override; and base offsets stay accounted for. -/
structure Grows (w w' : Workspace) : Prop where
  files : ∀ f x, w.file? f = some x → w'.file? f = some x
  macros : w'.macros = w.macros
  expansions : ∀ k v, w.expansions k = some v → w'.expansions k = some v
  maxDepth : w'.maxDepth = w.maxDepth
  mapOverride : w'.mapOverride = w.mapOverride
  allocated : w.Allocated → w'.Allocated

namespace Grows

variable {w w' w'' : Workspace}

@[refl] theorem refl (w : Workspace) : Grows w w :=
  ⟨fun _ _ h => h, rfl, fun _ _ h => h, rfl, rfl, id⟩

@[trans] theorem trans (h : Grows w w') (h' : Grows w' w'') : Grows w w'' :=
  ⟨fun f x hx => h'.files f x (h.files f x hx), h'.macros.trans h.macros,
    fun k v hk => h'.expansions k v (h.expansions k v hk), h'.maxDepth.trans h.maxDepth,
    h'.mapOverride.trans h.mapOverride, fun ha => h'.allocated (h.allocated ha)⟩

theorem text? (h : Grows w w') {f : FileId} {t : String} (ht : w.text? f = some t) :
    w'.text? f = some t := by
  simp only [Workspace.text?, Option.map_eq_some_iff] at ht ⊢
  obtain ⟨x, hx, rfl⟩ := ht
  exact ⟨x, h.files f x hx, rfl⟩

theorem tree? (h : Grows w w') {f : FileId} {t : Green} (ht : w.tree? f = some t) :
    w'.tree? f = some t := by
  simp only [Workspace.tree?, Option.map_eq_some_iff] at ht ⊢
  obtain ⟨x, hx, rfl⟩ := ht
  exact ⟨x, h.files f x hx, rfl⟩

theorem runMacro (h : Grows w w') {c : MacroCall} {out : Expanded} (hr : w.runMacro c = some out) :
    w'.runMacro c = some out := by
  have ht : ∃ t, w.text? c.file = some t := by
    simp only [Workspace.runMacro, bind, Option.bind_eq_some_iff] at hr
    obtain ⟨-, -, -, -, t, ht, -⟩ := hr
    exact ⟨t, ht⟩
  obtain ⟨t, ht⟩ := ht
  rw [← hr]
  simp only [Workspace.runMacro, h.macros, ht, h.text? ht]

theorem file?_of_lt (h : Grows w w') {f : FileId} (hf : f < w.files.size) :
    w'.file? f = w.file? f := by
  have hx : w.file? f = some w.files[f] := by simp [Workspace.file?, hf]
  rw [hx, h.files f _ hx]

theorem size_le (h : Grows w w') : w.files.size ≤ w'.files.size := by
  rcases Nat.eq_zero_or_pos w.files.size with h₀ | hpos
  · omega
  · have hx : w.file? (w.files.size - 1) = some w.files[w.files.size - 1] := by
      simp [Workspace.file?]
    have := h.files _ _ hx
    simp only [Workspace.file?, Array.getElem?_eq_some_iff] at this
    obtain ⟨hlt, -⟩ := this
    omega

end Grows

/-- A stored expansion is what the call's macro makes, added as a file parsed in the call's
context, at a base where its text fits, with the map of its segments. -/
def Faithful (w : Workspace) (c : MacroCall) (e : Expansion) : Prop :=
  ∃ out, w.runMacro c = some out ∧
    w.file? e.file = some ⟨none, out.text, (parse out.text c.contextKind.entryPoint).tree,
      .expansion c.key⟩ ∧
    OffsetMap.ofList out.segments = .ok e.map ∧ e.context = c.contextKind ∧
    e.base + out.text.utf8ByteSize < maxOffset

theorem Faithful.mono {w w' : Workspace} {c : MacroCall} {e : Expansion} (hg : Grows w w')
    (h : Faithful w c e) : Faithful w' c e := by
  obtain ⟨out, hr, hf, hm, hc, hb⟩ := h
  exact ⟨out, hg.runMacro hr, hg.files _ _ hf, hm, hc, hb⟩

/-- A text is what the macro of a call written under a key makes. -/
def Produced (w : Workspace) (k : CallKey) (text : String) : Prop :=
  ∃ c out, c.Genuine w ∧ c.key = k ∧ w.runMacro c = some out ∧ out.text = text

/-- The workspace invariant: every file is parsed from its text, every expansion file holds what
the macro of a call under its key makes, and every stored expansion is faithful to each call
written under its key. -/
structure Coherent (w : Workspace) : Prop where
  parsed : ∀ f x, w.file? f = some x → ∃ entry, x.tree = (parse x.text entry).tree
  produced : ∀ f x k, w.file? f = some x → x.origin = .expansion k → w.Produced k x.text
  keys : ∀ k v, w.expansions k = some v → k.file < w.files.size
  cached : ∀ k e, w.expansions k = some (some e) → ∀ c, c.Genuine w → c.key = k → Faithful w c e

end Workspace

namespace FileElement

theorem Genuine.mono {w w' : Workspace} {e : FileElement} (hg : w.Grows w') (h : e.Genuine w) :
    e.Genuine w' :=
  ⟨hg.tree? h.1, h.2⟩

theorem Genuine.spells {w : Workspace} {e : FileElement} (hw : w.Coherent) (h : e.Genuine w) :
    ∃ text, w.text? e.file = some text ∧ e.root.Spells text ∧ e.root.wellNested := by
  have ht : w.tree? e.file = some e.root := h.1
  simp only [Workspace.tree?, Option.map_eq_some_iff] at ht
  obtain ⟨x, hx, hroot⟩ := ht
  obtain ⟨entry, hentry⟩ := hw.parsed _ x hx
  obtain ⟨rest, htok, hnest, -⟩ := parse_tree_spec x.text entry
  refine ⟨x.text, by simp [Workspace.text?, hx], ⟨rest, ?_⟩, ?_⟩
  · rw [← hroot, hentry]
    exact htok
  · rw [← hroot, hentry]
    exact hnest

end FileElement

namespace MacroCall

variable {w : Workspace} {c c' : MacroCall}

theorem Genuine.mono {w' : Workspace} (hg : w.Grows w') (h : c.Genuine w) : c.Genuine w' :=
  ⟨FileElement.Genuine.mono hg h.1, h.2⟩

theorem Genuine.of_grows {w' : Workspace} (hg : w.Grows w') (h : c.Genuine w')
    (hf : c.file < w.files.size) : c.Genuine w := by
  refine ⟨⟨?_, h.1.2⟩, h.2⟩
  have := h.1.1
  simp only [element, Workspace.tree?] at this ⊢
  rwa [← hg.file?_of_lt hf]

theorem Genuine.spells (hw : w.Coherent) (h : c.Genuine w) :
    ∃ text, w.text? c.file = some text ∧ c.root.Spells text ∧ c.root.wellNested :=
  FileElement.Genuine.spells hw h.1

/-- A call is written over a node: its tree spells a text, where a macro call or an attribute is
never a single token. -/
theorem Genuine.node_isToken (hw : w.Coherent) (hc : c.Genuine w) : c.node.isToken = false := by
  obtain ⟨text, -, hs, -⟩ := hc.spells hw
  cases ht : c.node.isToken
  · rfl
  · have : Green.selfFree c.node.kind = false := hs.selfFree_of_isToken hc.1.2 ht
    rw [hc.2] at this
    split at this <;> cases this

theorem Genuine.eq_of_key (hw : w.Coherent) (hc : c.Genuine w) (hc' : c'.Genuine w)
    (hk : c.key = c'.key) (hpos : 0 < c.node.green.width) : c = c' := by
  simp only [key, CallKey.mk.injEq] at hk
  obtain ⟨hfile, hrange, hkind⟩ := hk
  have hroot : c.root = c'.root := by
    have h₁ := hc.1.1
    have h₂ := hc'.1.1
    simp only [element] at h₁ h₂
    rw [hfile, h₂] at h₁
    exact (Option.some.inj h₁).symm
  obtain ⟨-, -, -, hnest⟩ := hc.spells hw
  have hnodeKind : c.node.kind = c'.node.kind := by rw [hc.2, hc'.2, hkind]
  have hself : Green.selfFree c.node.kind = true := by
    rw [hc.2]
    split <;> rfl
  simp only [TextRange.mk.injEq, Element.range] at hrange
  have heq : c.node = c'.node :=
    Green.preorderAt_unique c.root 0 [] c.node c'.node hnest hc.1.2 (hroot ▸ hc'.1.2)
      (hc.node_isToken hw) (hc'.node_isToken hw) hnodeKind hself hrange.1
      (by omega) hpos
  cases c
  cases c'
  simp_all

end MacroCall

namespace Workspace

theorem Produced.mono {w w' : Workspace} {k : CallKey} {text : String} (hg : w.Grows w')
    (h : w.Produced k text) : w'.Produced k text := by
  obtain ⟨c, out, hc, hk, hr, ht⟩ := h
  exact ⟨c, out, hc.mono hg, hk, hg.runMacro hr, ht⟩

theorem Coherent.of_grows {w w' : Workspace} (h : w.Coherent) (hg : w.Grows w')
    (hparsed : ∀ f x, w'.file? f = some x → ∃ entry, x.tree = (parse x.text entry).tree)
    (hproduced : ∀ f x k, w'.file? f = some x → x.origin = .expansion k → w'.Produced k x.text)
    (hexp : ∀ k v, w'.expansions k = some v → w.expansions k = some v) : w'.Coherent where
  parsed := hparsed
  produced := hproduced
  keys k v hk := Nat.lt_of_lt_of_le (h.keys k v (hexp k v hk)) hg.size_le
  cached k e hk c hc hck := by
    have hk' := hexp k _ hk
    have hf : c.file < w.files.size := by
      have := h.keys k _ hk'
      rwa [← hck] at this
    exact (h.cached k e hk' c (hc.of_grows hg hf) hck).mono hg

end Workspace

end MacroTrace
