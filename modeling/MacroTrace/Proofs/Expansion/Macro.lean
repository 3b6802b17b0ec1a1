import MacroTrace.Workspace.Basic
import MacroTrace.Proofs.Expansion.Template
import MacroTrace.Proofs.Syntax.Element

/-! What a macro run copies. The ranges a call hands to its macro (the body between a macro
argument's delimiters, the item an attribute is attached to, a derived item's name inside that
item) fall on character boundaries of the file's text, so whatever a macro makes copies faithfully
from the call's body as it stands in the file. -/
namespace MacroTrace

namespace Element

theorem rightDelim_mem {a c : Element} (h : a.rightDelim = some c) : c ∈ a.significantTokens := by
  simp only [rightDelim, bind, Option.bind_eq_some_iff] at h
  obtain ⟨o, -, l, hl, h⟩ := h
  split at h
  · cases h
    exact List.mem_of_getLast? hl
  · cases h

end Element

namespace Green

variable {root : Green} {text : String}

theorem Spells.spans_child (hs : root.Spells text) {a c : Element} (ha : a ∈ root.members)
    (hc : c ∈ a.children) : Spans text.toList c.range (Token.chars c.green.tokens) :=
  hs.spans (mem_members_of_mem_children ha hc)

theorem Spells.spans_bodyRange (hs : root.Spells text) {a : Element} (ha : a ∈ root.members)
    {r : TextRange} (h : a.bodyRange = some r) : ∃ piece, Spans text.toList r piece := by
  simp only [Element.bodyRange, bind, Option.bind_eq_some_iff] at h
  obtain ⟨o, ho, h⟩ := h
  have hopen := (hs.spans_child ha
    (Element.mem_children_of_significantTokens (List.mem_of_mem_head? ho)).1).boundary_stop
  split at h
  · rename_i c hc
    have hclose := (hs.spans_child ha
      (Element.mem_children_of_significantTokens (Element.rightDelim_mem hc)).1).boundary_start
    split at h
    · cases h
      exact Spans.of_boundaries _ hopen hclose
    · cases h
  · split at h
    · cases h
      exact Spans.of_boundaries _ hopen (hs.spans ha).boundary_stop
    · cases h

/-- A range inside a member, taken relative to the member's start, falls on character boundaries
of the member's text. -/
theorem Spells.spans_relative (hs : root.Spells text) {o e : Element} (ho : o ∈ root.members)
    (he : e ∈ root.members) (hin : o.start ≤ e.start ∧ e.start + e.green.width ≤ o.start + o.green.width)
    {r : TextRange} (hr : e.range.shiftLeft? o.start = some r) :
    ∃ piece, Spans (Token.chars o.green.tokens) r piece := by
  simp only [TextRange.shiftLeft?, Option.dite_none_right_eq_some, Option.some.injEq] at hr
  obtain ⟨-, rfl⟩ := hr
  exact ⟨_, (hs.spans ho).sub (hs.spans he) (by simp [Element.range]; omega)
    (by simp [Element.range]; omega)⟩

theorem Spells.width_pos_of_ident (hs : root.Spells text) {t : Element} (ht : t ∈ root.members)
    (htok : t.isToken = true) (hk : t.kind = .ident) : 0 < t.green.width := by
  cases hg : t.green with
  | token tk =>
    rw [← hg]
    refine hs.width_pos ht hg ?_
    simp only [Element.kind, hg, kind] at hk
    simp [hk]
  | node k cs => simp [Element.isToken, hg, isToken] at htok

theorem width_pos_of_child {e c : Element} (hc : c ∈ e.children) (h : 0 < c.green.width) :
    0 < e.green.width := by
  have := Element.children_bounds hc
  omega

end Green

namespace MacroCall

variable {c : MacroCall} {text : String}

theorem localBodyRange_spans (hs : c.root.Spells text) (hn : c.node ∈ c.root.members)
    {r : TextRange} (h : c.localBodyRange? = some r) :
    ∃ piece, Spans text.toList r piece := by
  simp only [localBodyRange?, Option.filter_eq_some_iff] at h
  obtain ⟨h, -⟩ := h
  cases hk : c.kind with
  | fnLike =>
    simp only [hk, Option.bind_eq_some_iff] at h
    obtain ⟨a, ha, hr⟩ := h
    exact hs.spans_bodyRange
      (Green.mem_members_of_mem_children hn (Element.mem_children_of_child? ha).1) hr
  | attr | derive _ =>
    simp only [hk, owner?, Green.attrOwner, Option.map_eq_some_iff, Option.filter_eq_some_iff] at h
    obtain ⟨o, ⟨hp, -⟩, rfl⟩ := h
    exact ⟨_, hs.spans (Green.parent?_spec hn hp).2⟩

theorem localBodyRange_owner (hn : c.node ∈ c.root.members) (hk : c.kind ≠ .fnLike)
    {r : TextRange} (h : c.localBodyRange? = some r) :
    ∃ o, c.owner? = some o ∧ o.range = r ∧ o ∈ c.root.members ∧ c.node ∈ o.children := by
  have howner : c.owner? = c.root.attrOwner c.node := by
    cases hc : c.kind with
    | fnLike => exact absurd hc hk
    | attr | derive _ => simp [owner?, hc]
  simp only [localBodyRange?, Option.filter_eq_some_iff] at h
  obtain ⟨h, -⟩ := h
  cases hc : c.kind with
  | fnLike => exact absurd hc hk
  | attr | derive _ =>
    simp only [Option.map_eq_some_iff] at h
    obtain ⟨o, ho, rfl⟩ := h
    have hp := ho
    simp only [howner, Green.attrOwner, Option.filter_eq_some_iff] at hp
    have := Green.parent?_spec hn hp.1
    exact ⟨o, ho, rfl, this.2, this.1⟩

theorem width_pos_of_name? (hs : c.root.Spells text) (hn : c.node ∈ c.root.members) {name : String}
    (h : c.name? = some name) : 0 < c.node.green.width := by
  cases hk : c.kind with
  | fnLike | attr =>
    simp only [name?, hk, Element.pathName, Element.pathNode, Element.identText,
      Element.identToken, Option.bind_eq_some_iff, Option.map_eq_some_iff] at h
    obtain ⟨p, hp, t, ht, -⟩ := h
    have hpc := (Element.mem_children_of_child? hp).1
    obtain ⟨htc, htk, htt⟩ := Element.mem_children_of_token? ht
    have hpm := Green.mem_members_of_mem_children hn hpc
    exact Green.width_pos_of_child hpc (Green.width_pos_of_child htc
      (hs.width_pos_of_ident (Green.mem_members_of_mem_children hpm htc) htt htk))
  | derive i =>
    simp only [name?, hk, deriveToken?, Option.map_eq_some_iff, Option.bind_eq_some_iff] at h
    obtain ⟨t, ⟨a, ha, ht⟩, -⟩ := h
    have hac := (Element.mem_children_of_child? ha).1
    have hti : t ∈ a.idents := List.mem_of_getElem? ht
    simp only [Element.idents, List.mem_filter, beq_iff_eq] at hti
    obtain ⟨htc, htt⟩ := Element.mem_children_of_significantTokens hti.1
    have ham := Green.mem_members_of_mem_children hn hac
    exact Green.width_pos_of_child hac (Green.width_pos_of_child htc
      (hs.width_pos_of_ident (Green.mem_members_of_mem_children ham htc) htt hti.2))

end MacroCall

namespace Workspace

variable {w : Workspace} {c : MacroCall} {text : String}

theorem runMacro_copies (ht : w.text? c.file = some text) (hs : c.root.Spells text)
    (hn : c.node ∈ c.root.members) {out : Expanded} (h : w.runMacro c = some out) :
    ∃ piece, out.Copies piece ∧ match c.localBodyRange? with
      | some body => Spans text.toList body piece
      | none => piece = [] := by
  simp only [runMacro, bind, Option.bind_eq_some_iff] at h
  obtain ⟨name, -, d, -, text', ht', h⟩ := h
  rw [ht] at ht'
  cases ht'
  split at h
  · rename_i pattern template hk
    cases hb : c.localBodyRange? with
    | none =>
      simp only [hb, Option.bind_eq_some_iff, Option.some.injEq] at h
      obtain ⟨b, hm, rfl⟩ := h
      exact ⟨[], by simpa using copies_substitute template (matchPattern_cut hm), rfl⟩
    | some r =>
      simp only [hb, Option.bind_eq_some_iff, Option.some.injEq] at h
      obtain ⟨b, hm, rfl⟩ := h
      obtain ⟨piece, hp⟩ := c.localBodyRange_spans hs hn hb
      refine ⟨piece, ?_, hp⟩
      simpa [hp.sliceText_eq] using copies_substitute template (matchPattern_cut hm)
  · rename_i hk
    simp only [Option.bind_eq_some_iff, Option.some.injEq] at h
    obtain ⟨item, hi, attr, ha, rfl⟩ := h
    obtain ⟨o, -, rfl, ho, hno⟩ := c.localBodyRange_owner hn (by simp [hk]) hi
    have hspan := hs.spans ho
    obtain ⟨_, hattr⟩ := hs.spans_relative ho hn (Element.children_bounds hno) ha
    refine ⟨_, ?_, by simpa [hi] using hspan⟩
    rw [hspan.sliceText_eq]
    simpa using @copies_stripAttribute (String.ofList (Token.chars o.green.tokens)) attr
      (by simpa using hattr.boundary_start) (by simpa using hattr.boundary_stop)
  · rename_i template i hk
    simp only [Option.bind_eq_some_iff, Option.some.injEq] at h
    obtain ⟨item, hi, owner, hown, tok, htok, nameRange, hname, rfl⟩ := h
    obtain ⟨o, ho', rfl, ho, -⟩ := c.localBodyRange_owner hn (by simp [hk]) hi
    rw [ho'] at hown
    obtain rfl := Option.some.inj hown
    simp only [Element.nameToken, Element.nameNode, Option.bind_eq_some_iff] at htok
    obtain ⟨n, hn', ht'⟩ := htok
    have hno := (Element.mem_children_of_child? hn').1
    have htn := (Element.mem_children_of_token? ht').1
    have hnm := Green.mem_members_of_mem_children ho hno
    have hbn := Element.children_bounds hno
    have hbt := Element.children_bounds htn
    obtain ⟨_, hnameSpan⟩ := hs.spans_relative ho (Green.mem_members_of_mem_children hnm htn)
      (by omega) hname
    have hspan := hs.spans ho
    refine ⟨_, ?_, by simpa [hi] using hspan⟩
    have hcut : Bindings.Cut [("name", nameRange)]
        (String.ofList (Token.chars o.green.tokens)).toList := by
      simpa [Bindings.Cut] using ⟨_, hnameSpan⟩
    rw [hspan.sliceText_eq]
    simpa using copies_substitute template hcut
  · cases h

end Workspace

end MacroTrace
