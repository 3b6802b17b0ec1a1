import MacroTrace.Proofs.Syntax.Element
import MacroTrace.Proofs.Search

/-! Descending a tree. The descendants of an element are the element and the descendants of its
children, which follow one another inside it. A descendant's trail ends with the trail of the
element above it, and a member is fixed by its trail, so a member's ancestors are the members
whose trails end its own. Descending by ranges finds what the tree holds: the child search finds
the child holding a non-empty range, the element covering a node's range lies under that node,
and the token at the start of a non-empty token is that token. -/
namespace MacroTrace

namespace Green

mutual
theorem preorderAt_descendants : ∀ (g : Green) (s : Nat) (t : List Nat) (e : Element),
    e ∈ preorderAt g s t → ∀ a ∈ descendants e, a ∈ preorderAt g s t
  | token tk, s, t, e, h, a, ha => by
    simp [preorderAt] at h; subst h
    exact ha
  | node k cs, s, t, e, h, a, ha => by
    simp only [preorderAt, List.mem_cons] at h
    rcases h with rfl | h
    · exact ha
    · exact List.mem_cons_of_mem _ (preorderList_descendants cs s 0 t e h a ha)

theorem preorderList_descendants : ∀ (gs : List Green) (s i : Nat) (t : List Nat) (e : Element),
    e ∈ preorderList gs s i t → ∀ a ∈ descendants e, a ∈ preorderList gs s i t
  | [], _, _, _, e, h, _, _ => by simp [preorderList] at h
  | g :: gs, s, i, t, e, h, a, ha => by
    simp only [preorderList, List.mem_append] at h ⊢
    rcases h with h | h
    · exact .inl (preorderAt_descendants g s (i :: t) e h a ha)
    · exact .inr (preorderList_descendants gs (s + g.width) (i + 1) t e h a ha)
end

mutual
theorem preorderAt_suffix : ∀ (g : Green) (s : Nat) (t : List Nat) (e : Element),
    e ∈ preorderAt g s t → t <:+ e.trail
  | token tk, s, t, e, h => by
    simp [preorderAt] at h; subst h
    exact List.suffix_refl t
  | node k cs, s, t, e, h => by
    simp only [preorderAt, List.mem_cons] at h
    rcases h with rfl | h
    · exact List.suffix_refl t
    · exact preorderList_suffix cs s 0 t e h

theorem preorderList_suffix : ∀ (gs : List Green) (s i : Nat) (t : List Nat) (e : Element),
    e ∈ preorderList gs s i t → t <:+ e.trail
  | [], _, _, _, e, h => by simp [preorderList] at h
  | g :: gs, s, i, t, e, h => by
    simp only [preorderList, List.mem_append] at h
    rcases h with h | h
    · exact (List.suffix_cons i t).trans (preorderAt_suffix g s (i :: t) e h)
    · exact preorderList_suffix gs (s + g.width) (i + 1) t e h
end

theorem mem_preorderList {a : Element} (t : List Nat) : ∀ (gs : List Green) (s i : Nat),
    a ∈ preorderList gs s i t ↔ ∃ c ∈ Element.siblings t gs s i, a ∈ descendants c
  | [], _, _ => by simp [preorderList, Element.siblings]
  | g :: gs, s, i => by
    simp only [preorderList, List.mem_append, Element.siblings, List.mem_cons, exists_eq_or_imp,
      mem_preorderList t gs]
    rfl

theorem siblings_ordered (t : List Nat) : ∀ (gs : List Green) (s i : Nat),
    (Element.siblings t gs s i).Pairwise fun a b => a.start + a.green.width ≤ b.start
  | [], _, _ => List.Pairwise.nil
  | g :: gs, s, i => by
    simp only [Element.siblings, List.pairwise_cons]
    refine ⟨fun b hb => ?_, siblings_ordered t gs _ _⟩
    exact (preorderList_bounds gs _ _ t b (siblings_subset t gs _ _ b hb)).1

theorem siblings_green (t : List Nat) : ∀ (gs : List Green) (s i : Nat) (c : Element),
    c ∈ Element.siblings t gs s i → c.green ∈ gs
  | [], _, _, c, h => by simp [Element.siblings] at h
  | g :: gs, s, i, c, h => by
    simp only [Element.siblings, List.mem_cons] at h
    rcases h with rfl | h
    · exact List.mem_cons_self
    · exact List.mem_cons_of_mem g (siblings_green t gs _ _ c h)

theorem depth_le_depthList {g : Green} : ∀ {gs : List Green}, g ∈ gs → g.depth ≤ depth.depthList gs
  | [], h => by simp at h
  | _ :: gs, h => by
    simp only [depth.depthList]
    rcases List.mem_cons.1 h with rfl | h
    · exact Nat.le_max_left _ _
    · exact Nat.le_trans (depth_le_depthList h) (Nat.le_max_right _ _)

theorem mem_descendants_self (e : Element) : e ∈ descendants e := by
  obtain ⟨g, s, t⟩ := e
  cases g <;> simp [descendants, Green.preorderAt]

theorem mem_descendants_iff {e a : Element} :
    a ∈ descendants e ↔ a = e ∨ ∃ c ∈ e.children, a ∈ descendants c := by
  obtain ⟨g, s, t⟩ := e
  cases g with
  | token tk => simp [descendants, Green.preorderAt, Element.children, Green.children, Element.siblings]
  | node k cs =>
    change a ∈ Green.preorderAt (.node k cs) s t ↔ _
    simp only [Green.preorderAt, List.mem_cons, Green.mem_preorderList]
    rfl

theorem mem_descendants_of_mem_children {e c : Element} (hc : c ∈ e.children) :
    c ∈ descendants e :=
  mem_descendants_iff.2 (.inr ⟨c, hc, mem_descendants_self c⟩)

theorem descendants_trans {e b a : Element} (hb : b ∈ descendants e) (ha : a ∈ descendants b) :
    a ∈ descendants e :=
  Green.preorderAt_descendants e.green e.start e.trail b hb a ha

theorem descendants_bounds {e a : Element} (ha : a ∈ descendants e) :
    e.start ≤ a.start ∧ a.start + a.green.width ≤ e.start + e.green.width :=
  Green.preorderAt_bounds e.green e.start e.trail a ha

theorem descendants_suffix {e a : Element} (ha : a ∈ descendants e) : e.trail <:+ a.trail :=
  Green.preorderAt_suffix e.green e.start e.trail a ha

theorem eq_of_mem_descendants {e a : Element} (he : e.isToken = true) (ha : a ∈ descendants e) :
    a = e := by
  obtain ⟨g, s, t⟩ := e
  cases g with
  | token tk => simpa [descendants, Green.preorderAt] using ha
  | node k cs => simp [Element.isToken, Green.isToken] at he

theorem children_ordered (e : Element) :
    e.children.Pairwise fun a b => a.start + a.green.width ≤ b.start :=
  Green.siblings_ordered e.trail e.green.children e.start 0

theorem depth_lt_of_mem_children {e c : Element} (hc : c ∈ e.children) :
    c.green.depth < e.green.depth := by
  have hg := Green.siblings_green _ _ _ _ c hc
  cases h : e.green with
  | token tk => simp [h, Green.children] at hg
  | node k cs =>
    simp only [h, Green.children] at hg
    have := Green.depth_le_depthList hg
    simp only [Green.depth]
    omega

theorem childAtRange_mem {e c : Element} {r : TextRange} (h : childAtRange e r = some c) :
    c ∈ e.children := by
  simp only [childAtRange] at h
  split at h
  · rename_i c' hc'
    split at h
    · cases h
      exact List.mem_of_getElem? hc'
    · cases h
  · cases h

theorem childAtRange_eq {e c : Element} {r : TextRange} (hc : c ∈ e.children)
    (hr : c.range.containsRange r = true) (hne : r.start < r.stop) :
    childAtRange e r = some c := by
  obtain ⟨p, hp, rfl⟩ := List.mem_iff_getElem.1 hc
  simp only [TextRange.containsRange, Bool.and_eq_true, decide_eq_true_eq] at hr
  simp only [Element.range] at hr
  have hord := List.pairwise_iff_getElem.1 (children_ordered e)
  have hfind : FindsAt (m := Id) e.children (fun x => pure (x.range.ordering r)) p := by
    refine ⟨hp, fun i hi => ?_⟩
    simp only [TextRange.ordering]
    rcases Nat.lt_trichotomy i p with hlt | rfl | hgt
    · have := hord i p hi hp hlt
      rw [if_pos hlt, if_pos (show e.children[i].range.stop ≤ r.start by
        simp only [Element.range]; omega)]
    · rw [if_neg (Nat.lt_irrefl i), if_pos rfl,
        if_neg (show ¬ e.children[i].range.stop ≤ r.start by simp only [Element.range]; omega),
        if_neg (show ¬ r.stop ≤ e.children[i].range.start by simp only [Element.range]; omega)]
    · have := hord p i hp hi hgt
      rw [if_neg (Nat.lt_asymm hgt), if_neg (Nat.ne_of_gt hgt),
        if_neg (show ¬ e.children[i].range.stop ≤ r.start by simp only [Element.range]; omega),
        if_pos (show r.stop ≤ e.children[i].range.start by simp only [Element.range]; omega)]
  have hs : searchBy (m := Id) e.children (fun x => pure (x.range.ordering r)) = .found p :=
    hfind.searchBy
  simp only [childAtRange]
  rw [hs, List.getElem?_eq_getElem hp]
  simp [TextRange.containsRange, Element.range, hr]

theorem coverFrom_mem_descendants {r : TextRange} :
    ∀ (n : Nat) (e : Element), coverFrom n e r ∈ descendants e
  | 0, e => mem_descendants_self e
  | n + 1, e => by
    simp only [coverFrom]
    split
    · exact mem_descendants_self e
    · split
      · rename_i c hc
        exact descendants_trans (mem_descendants_of_mem_children (childAtRange_mem hc))
          (coverFrom_mem_descendants n c)
      · exact mem_descendants_self e

theorem coverFrom_under {x : Element} (hx : x.isToken = false) (hpos : 0 < x.green.width) :
    ∀ (n : Nat) (e : Element), x ∈ descendants e → e.green.depth < n →
      coverFrom n e x.range ∈ descendants x
  | 0, _, _, hn => absurd hn (Nat.not_lt_zero _)
  | n + 1, e, he, hn => by
    rcases mem_descendants_iff.1 he with rfl | ⟨c, hc, hxc⟩
    · exact coverFrom_mem_descendants (n + 1) x
    simp only [coverFrom]
    split
    · rename_i htok
      rw [← eq_of_mem_descendants htok he]
      exact mem_descendants_self x
    · have hb := descendants_bounds hxc
      have hrange : c.range.containsRange x.range = true := by
        simp only [TextRange.containsRange, Bool.and_eq_true, decide_eq_true_eq]
        simp only [Element.range]
        omega
      rw [childAtRange_eq hc hrange (by simp only [Element.range]; omega)]
      exact coverFrom_under hx hpos n c hxc
        (Nat.lt_of_lt_of_le (depth_lt_of_mem_children hc) (Nat.le_of_lt_succ hn))

variable {root : Green}

theorem elementAt?_of_mem {e : Element} (he : e ∈ root.members) :
    root.elementAt? e.trail = some e := by
  obtain ⟨path, hgo⟩ := preorderAt_locate root 0 [] e he
  have htrail := locate_go_trail path _ e hgo
  simp only [List.append_nil] at htrail
  simp only [elementAt?, locate, Element.root, htrail, List.reverse_reverse]
  exact hgo

theorem eq_of_trail_eq {a b : Element} (ha : a ∈ root.members) (hb : b ∈ root.members)
    (h : a.trail = b.trail) : a = b := by
  have := elementAt?_of_mem ha
  rw [h, elementAt?_of_mem hb, Option.some.injEq] at this
  exact this.symm

theorem mem_outerTrails {t : List Nat} : ∀ {l : List Nat}, t <:+ l → t ≠ l → t ∈ outerTrails l
  | [], h, hne => absurd (List.suffix_nil.1 h) hne
  | _ :: l, h, hne => by
    simp only [outerTrails, List.mem_cons]
    rcases List.suffix_cons_iff.1 h with h | h
    · exact absurd h hne
    · by_cases heq : t = l
      · exact .inl heq
      · exact .inr (mem_outerTrails h heq)

theorem mem_ancestors {a e : Element} (ha : a ∈ root.members) (he : e ∈ root.members)
    (h : a.trail <:+ e.trail) : a ∈ root.ancestors e := by
  by_cases heq : a.trail = e.trail
  · rw [eq_of_trail_eq ha he heq]
    exact List.mem_cons_self
  · exact List.mem_cons_of_mem _
      (List.mem_filterMap.2 ⟨a.trail, mem_outerTrails h heq, elementAt?_of_mem ha⟩)

theorem parent?_of_trail {e : Element} (he : e ∈ root.members) {i : Nat} {t : List Nat}
    (ht : e.trail = i :: t) : ∃ p, root.parent? e = some p ∧ p ∈ root.members ∧ p.trail = t := by
  obtain ⟨path, hgo⟩ := preorderAt_locate root 0 [] e he
  have htrail := locate_go_trail path _ e hgo
  have hpath : path = t.reverse ++ [i] := by
    simp only [List.append_nil] at htrail
    rw [← List.reverse_reverse path, ← htrail, ht]
    simp
  rw [hpath, locate_go_append] at hgo
  obtain ⟨p, hp, -⟩ := Option.bind_eq_some_iff.1 hgo
  refine ⟨p, ?_, locate_go_mem _ _ _ (root_mem_members root) hp, ?_⟩
  · simp only [parent?, ht, elementAt?, locate]
    exact hp
  · simpa using locate_go_trail _ _ _ hp

theorem covering_under {x : Element} (hx : x ∈ root.members) (hn : x.isToken = false)
    (hpos : 0 < x.green.width) : root.covering x.range ∈ descendants x :=
  coverFrom_under hn hpos _ _ hx (Nat.lt_succ_self _)

/-- The token at the start of a non-empty token under an element is that token: the children
holding the start end at or after it, and the last of them holds the token. -/
theorem tokenAtFrom_start {t : Element} (ht : t.isToken = true) (hpos : 0 < t.green.width) :
    ∀ (n : Nat) (e : Element), t ∈ descendants e → e.green.depth < n →
      tokenAtFrom n e t.start = some t
  | 0, _, _, hn => absurd hn (Nat.not_lt_zero _)
  | n + 1, e, he, hn => by
    simp only [tokenAtFrom]
    split
    · rename_i htok
      rw [eq_of_mem_descendants htok he]
    · rename_i hnode
      obtain ⟨c, hc, htc⟩ : ∃ c ∈ e.children, t ∈ descendants c := by
        rcases mem_descendants_iff.1 he with rfl | h
        · exact absurd ht hnode
        · exact h
      have hb := descendants_bounds htc
      have hcb := Element.children_bounds hc
      have hnonempty : e.range.isEmpty = false := by
        simp only [TextRange.isEmpty, beq_eq_false_iff_ne]
        simp only [Element.range]
        omega
      rw [hnonempty, if_neg Bool.false_ne_true]
      obtain ⟨l₁, l₂, hsplit⟩ := List.append_of_mem hc
      have hafter : ∀ b ∈ l₂, c.start + c.green.width ≤ b.start := by
        have hord := children_ordered e
        rw [hsplit] at hord
        exact (List.pairwise_cons.1 (List.pairwise_append.1 hord).2.1).1
      have hfilter : e.children.filter (fun x => !x.range.isEmpty &&
          x.range.containsInclusive t.start) = l₁.filter (fun x => !x.range.isEmpty &&
          x.range.containsInclusive t.start) ++ [c] := by
        have hnil : l₂.filter (fun x => !x.range.isEmpty && x.range.containsInclusive t.start) =
            [] := by
          refine List.filter_eq_nil_iff.2 fun b hb' => ?_
          have := hafter b hb'
          simp only [TextRange.containsInclusive, Bool.and_eq_true, decide_eq_true_eq]
          simp only [Element.range]
          omega
        have hhold : (!c.range.isEmpty && c.range.containsInclusive t.start) = true := by
          simp only [TextRange.containsInclusive, TextRange.isEmpty, Bool.and_eq_true,
            Bool.not_eq_true', beq_eq_false_iff_ne, decide_eq_true_eq]
          simp only [Element.range]
          omega
        rw [hsplit, List.filter_append, @List.filter_cons_of_pos _
          (fun x => !x.range.isEmpty && x.range.containsInclusive t.start) c l₂ hhold, hnil]
      rw [hfilter, List.getLast?_concat]
      exact tokenAtFrom_start ht hpos n c htc
        (Nat.lt_of_lt_of_le (depth_lt_of_mem_children hc) (Nat.le_of_lt_succ hn))

theorem tokenAt_start {t : Element} (hm : t ∈ root.members) (ht : t.isToken = true)
    (hpos : 0 < t.green.width) : root.tokenAt t.start = some t :=
  tokenAtFrom_start ht hpos _ _ hm (Nat.lt_succ_self _)

end Green

end MacroTrace
