import MacroTrace.Proofs.Syntax.Distinct
import MacroTrace.Proofs.Workspace.Calls
/-!
A reference names a node by its file, kind and range. In a parsed tree every node below the root
holds a token and ranks above an only child, and every token holds text. So a node that shares
its range with a node inside it has a single child, which ranks below it, and ranks fall strictly
down such chains: no node has a proper descendant of its own kind and range. Resolving a node's
own kind and range, which looks for the innermost match around where the range is covered,
therefore finds the node itself.
-/
namespace MacroTrace

namespace Green

def Ranked : Green → Prop
  | token _ => True
  | node k cs => soleBelow k cs = true ∧ ∀ c ∈ cs, c.distinct = true

/-- A tree whose nodes are told apart by kind and range: it is ranked and its tokens hold text. -/
structure Separated (g : Green) : Prop where
  ranked : g.Ranked
  tokens_pos : ∀ t ∈ g.tokens, 0 < t.len

theorem ranked_of_distinct {g : Green} (h : g.distinct = true) : g.Ranked := by
  cases g with
  | token t => trivial
  | node k cs =>
    simp only [distinct_node, Bool.and_eq_true] at h
    exact ⟨h.1.2, distinctList_eq_true.1 h.2⟩

theorem tokens_ne_nil_of_distinct {g : Green} (h : g.distinct = true) : g.tokens ≠ [] := by
  cases g with
  | token t => simp [tokens]
  | node k cs =>
    simp only [distinct_node, Bool.and_eq_true, Bool.not_eq_true', List.isEmpty_eq_false_iff]
      at h
    simpa [tokens] using h.1.1

theorem mem_tokensList {g : Green} {gs : List Green} (hg : g ∈ gs) {t : Token}
    (ht : t ∈ g.tokens) : t ∈ tokensList gs := by
  induction gs with
  | nil => cases hg
  | cons d ds ih =>
    rw [tokensList_cons, List.mem_append]
    rcases List.mem_cons.1 hg with rfl | hg
    · exact .inl ht
    · exact .inr (ih hg)

theorem width_le_widthList {g : Green} {gs : List Green} (hg : g ∈ gs) : g.width ≤ widthList gs := by
  induction gs with
  | nil => cases hg
  | cons d ds ih =>
    rw [widthList_cons]
    rcases List.mem_cons.1 hg with rfl | hg
    · omega
    · have := ih hg
      omega

theorem eq_singleton_of_width {gs : List Green} (hpos : ∀ d ∈ gs, 0 < d.width) {g : Green}
    (hg : g ∈ gs) (hw : widthList gs ≤ g.width) : gs = [g] := by
  cases gs with
  | nil => cases hg
  | cons d ds =>
    rw [widthList_cons] at hw
    rcases List.mem_cons.1 hg with rfl | hg
    · cases ds with
      | nil => rfl
      | cons e es =>
        have := hpos e (by simp)
        have := width_le_widthList (List.mem_cons_self : e ∈ e :: es)
        omega
    · have := width_le_widthList hg
      have := hpos d (by simp)
      omega

theorem totalLen_pos {ts : List Token} (hne : ts ≠ []) (hpos : ∀ t ∈ ts, 0 < t.len) :
    0 < Token.totalLen ts := by
  obtain ⟨t, ts', rfl⟩ := List.exists_cons_of_ne_nil hne
  have := hpos t (by simp)
  rw [Token.totalLen_cons]
  omega

namespace Separated

variable {k : SyntaxKind} {cs : List Green} {c : Green}

theorem child (h : (node k cs).Separated) (hc : c ∈ cs) : c.Separated :=
  ⟨ranked_of_distinct (h.ranked.2 c hc), fun t ht => h.tokens_pos t (mem_tokensList hc ht)⟩

theorem child_width_pos (h : (node k cs).Separated) (hc : c ∈ cs) : 0 < c.width := by
  rw [width_eq_totalLen]
  exact totalLen_pos (tokens_ne_nil_of_distinct (h.ranked.2 c hc)) (h.child hc).tokens_pos

theorem rank_lt_of_width (h : (node k cs).Separated) (hc : c ∈ cs)
    (hw : (node k cs).width ≤ c.width) : c.rank < (node k cs).rank := by
  have hone := eq_singleton_of_width (fun d hd => h.child_width_pos hd) hc hw
  have hsole := h.ranked.1
  rw [hone] at hsole
  simp only [soleBelow, decide_eq_true_eq] at hsole
  show c.rank < k.chainRank + 1
  omega

end Separated

/-! ### Elements of a separated tree -/

variable {root : Green}

theorem green_mem_children {e c : Element} (hc : c ∈ e.children) : c.green ∈ e.green.children :=
  siblings_green _ _ _ _ c hc

theorem distinct_descendant {x e : Element} (hx : x.green.distinct = true)
    (he : e ∈ descendants x) : e.green.distinct = true := by
  rcases mem_descendants_iff.1 he with rfl | ⟨c, hc, hec⟩
  · exact hx
  · have hcs := green_mem_children hc
    cases hg : x.green with
    | token t => simp [hg, children] at hcs
    | node k cs =>
      rw [hg] at hx hcs
      exact distinct_descendant ((ranked_of_distinct hx).2 _ hcs) hec
termination_by x.green.depth
decreasing_by exact depth_lt_of_mem_children hc

theorem Separated.descendant {x e : Element} (hx : x.green.Separated) (he : e ∈ descendants x) :
    e.green.Separated := by
  rcases mem_descendants_iff.1 he with rfl | ⟨c, hc, hec⟩
  · exact hx
  · have hcs := green_mem_children hc
    cases hg : x.green with
    | token t => simp [hg, children] at hcs
    | node k cs =>
      rw [hg] at hx hcs
      exact Separated.descendant (hx.child hcs) hec
termination_by x.green.depth
decreasing_by exact depth_lt_of_mem_children hc

theorem Separated.member (h : root.Separated) {e : Element} (he : e ∈ root.members) :
    e.green.Separated :=
  Separated.descendant (x := Element.root root) h he

/-- Below a separated element, a proper descendant with the element's range ranks below it: the
child on the way down spans the whole element, so it is the only child. -/
theorem rank_lt_of_range_eq {x y : Element} (hx : x.green.Separated) (hy : y ∈ descendants x)
    (hne : y ≠ x) (hr : y.range = x.range) : y.green.rank < x.green.rank := by
  obtain ⟨c, hc, hyc⟩ := (mem_descendants_iff.1 hy).resolve_left hne
  have hcb := Element.children_bounds hc
  have hyb := descendants_bounds hyc
  have hs : y.start = x.start := congrArg TextRange.start hr
  have he : y.start + y.green.width = x.start + x.green.width := congrArg TextRange.stop hr
  have hcs := green_mem_children hc
  cases hg : x.green with
  | token t => simp [hg, children] at hcs
  | node k cs =>
    rw [hg] at hx hcs he hcb
    have hlt := hx.rank_lt_of_width hcs (by omega)
    by_cases hyc' : y = c
    · subst hyc'
      exact hlt
    · have hcr : y.range = c.range :=
        TextRange.eq_of_start_stop (by simp only [Element.range]; omega)
          (by simp only [Element.range]; omega)
      have := rank_lt_of_range_eq (hx.child hcs) hyc hyc' hcr
      omega
termination_by x.green.depth
decreasing_by exact depth_lt_of_mem_children hc

theorem kind_ne_of_range_eq {x y : Element} (hx : x.green.Separated) (hy : y ∈ descendants x)
    (hne : y ≠ x) (hr : y.range = x.range) (hyn : y.isToken = false) : y.kind ≠ x.kind := by
  intro hk
  have hlt := rank_lt_of_range_eq hx hy hne hr
  cases hxg : x.green with
  | token t =>
    exact hne (eq_of_mem_descendants (by simp [Element.isToken, hxg, isToken]) hy)
  | node k cs =>
    cases hyg : y.green with
    | token t => simp [Element.isToken, hyg, isToken] at hyn
    | node k' cs' =>
      simp only [Element.kind, hxg, hyg, kind] at hk
      rw [hxg, hyg] at hlt
      simp only [rank, hk] at hlt
      omega

theorem locate_go_descendants : ∀ (path : List Nat) (e r : Element), locate.go e path = some r →
    r ∈ descendants e
  | [], e, r, h => by
    simp only [locate.go, Option.some.injEq] at h
    exact h ▸ mem_descendants_self e
  | i :: is, e, r, h => by
    simp only [locate.go, childAt?_eq_children] at h
    split at h
    · rename_i c hc
      exact descendants_trans (mem_descendants_of_mem_children (List.mem_of_getElem? hc))
        (locate_go_descendants is c r h)
    · cases h

theorem mem_descendants_of_suffix {a b : Element} (ha : a ∈ root.members) (hb : b ∈ root.members)
    (h : a.trail <:+ b.trail) : b ∈ descendants a := by
  obtain ⟨extra, hext⟩ := h
  obtain ⟨path, hgo⟩ := preorderAt_locate root 0 [] b hb
  have htrail := locate_go_trail path _ b hgo
  simp only [List.append_nil] at htrail
  have hpath : path = a.trail.reverse ++ extra.reverse := by
    rw [← List.reverse_reverse path, ← htrail, ← hext, List.reverse_append]
  have ha' : locate.go ⟨root, 0, []⟩ a.trail.reverse = some a := elementAt?_of_mem ha
  rw [hpath, locate_go_append, ha', Option.bind_some] at hgo
  exact locate_go_descendants _ _ _ hgo

theorem suffix_of_mem_outerTrails {t : List Nat} : ∀ {l : List Nat}, t ∈ outerTrails l → t <:+ l
  | [], h => by simp [outerTrails] at h
  | _ :: l, h => by
    simp only [outerTrails, List.mem_cons] at h
    rcases h with rfl | h
    · exact List.suffix_cons _ _
    · exact (suffix_of_mem_outerTrails h).trans (List.suffix_cons _ _)

theorem suffix_of_mem_ancestors {a e : Element} (ha : a ∈ root.ancestors e) :
    a.trail <:+ e.trail := by
  simp only [ancestors, List.mem_cons, List.mem_filterMap] at ha
  rcases ha with rfl | ⟨t, ht, hat⟩
  · exact List.suffix_refl _
  · have := locate_go_trail _ _ _ hat
    simp only [Element.root, List.append_nil, List.reverse_reverse] at this
    exact this ▸ suffix_of_mem_outerTrails ht

theorem eq_of_mem_ancestors (h : root.Separated) {s x n : Element} (hsm : s ∈ root.members)
    (hs : s.isToken = false) (hx : x ∈ root.members) (hxn : x.isToken = false)
    (hxs : x ∈ root.ancestors s) (hns : n ∈ root.ancestors s) (hk : n.kind = x.kind)
    (hr : n.range = x.range) : n = x := by
  have hn := ancestors_mem hsm hns
  by_contra hne
  rcases List.suffix_or_suffix_of_suffix (suffix_of_mem_ancestors hns)
    (suffix_of_mem_ancestors hxs) with hsuf | hsuf
  · exact kind_ne_of_range_eq (h.member hn) (mem_descendants_of_suffix hn hx hsuf)
      (Ne.symm hne) hr.symm hxn hk.symm
  · have hnd := mem_descendants_of_suffix hx hn hsuf
    have hnn : n.isToken = false := by
      by_contra htok
      have hsn := eq_of_mem_descendants (by simpa using htok)
        (mem_descendants_of_suffix hn hsm (suffix_of_mem_ancestors hns))
      rw [hsn] at hs
      simp_all
    exact kind_ne_of_range_eq (h.member hx) hnd hne hr hnn hk

theorem Separated.eq_root_of_width (h : root.Separated) {x : Element} (hx : x ∈ root.members)
    (hw : x.green.width = 0) : x = Element.root root := by
  by_contra hne
  obtain ⟨c, hc, hxc⟩ := (mem_descendants_iff.1 hx).resolve_left hne
  have hcs := green_mem_children hc
  cases root with
  | token t => simp [Element.root, children] at hcs
  | node k cs =>
    have hd := distinct_descendant (h.ranked.2 _ hcs) hxc
    have := totalLen_pos (tokens_ne_nil_of_distinct hd) (h.member hx).tokens_pos
    rw [← width_eq_totalLen] at this
    omega

theorem Separated.children_eq_nil (h : (node k cs).Separated) (hw : (node k cs).width = 0) :
    cs = [] := by
  cases cs with
  | nil => rfl
  | cons c cs =>
    have := h.child_width_pos (List.mem_cons_self (a := c) (l := cs))
    have := width_le_widthList (List.mem_cons_self : c ∈ c :: cs)
    simp only [width] at hw
    omega

theorem separated_parse (text : String) (entry : EntryPoint) : (parse text entry).tree.Separated := by
  obtain ⟨cs, -, htree, hcs, -⟩ := parse_tree_shape text entry
  have hroot : entry.rootKind.chainRank = 4 := by cases entry <;> rfl
  refine ⟨?_, fun t ht =>
    Lexer.len_pos_of_mem ((parse_tokens_prefix_of_lex text entry).subset ht)⟩
  rw [htree]
  exact ⟨soleBelow_of (.inr fun c hc => hroot ▸ (hcs c hc).2), fun c hc => (hcs c hc).1⟩

end Green

theorem find?_eq_of_unique {α : Type} {l : List α} {p : α → Bool} {x : α} (hx : x ∈ l)
    (hp : p x = true) (h : ∀ n ∈ l, p n = true → n = x) : l.find? p = some x := by
  obtain ⟨n, hn⟩ := Option.isSome_iff_exists.1 (List.find?_isSome.2 ⟨x, hx, hp⟩)
  rw [hn, h n (List.mem_of_find?_eq_some hn) (List.find?_some hn)]

open Green in
theorem NodePtr.resolveIn_self {root : Green} (h : root.Separated) {x : Element}
    (hx : x ∈ root.members) (hn : x.isToken = false) (f : FileId) :
    (NodePtr.mk f x.kind x.range).resolveIn root = some x := by
  by_cases hpos : 0 < x.green.width
  · obtain ⟨s, hs, hsm, hsn, hxs⟩ := NodePtr.searchStart_of_mem hx hn hpos
    have hxa := mem_ancestors hx hsm hxs
    simp only [NodePtr.resolveIn]
    rw [if_pos (NodePtr.containsRange_of_mem hx), hs, Option.bind_some]
    refine find?_eq_of_unique hxa (by simp) fun n hns hp => ?_
    simp only [Bool.and_eq_true, beq_iff_eq] at hp
    exact eq_of_mem_ancestors h hsm hsn hx hn hxa hns hp.1.1
      (TextRange.eq_of_start_stop hp.1.2 hp.2)
  · have hw : x.green.width = 0 := by omega
    obtain rfl := h.eq_root_of_width hx hw
    cases root with
    | token t => simp [Element.root, Element.isToken, isToken] at hn
    | node k cs =>
      obtain rfl := h.children_eq_nil hw
      simp [NodePtr.resolveIn, covering, coverFrom, childAtRange, Element.children,
        Element.siblings, children, ancestors, outerTrails, TextRange.containsRange, Element.root,
        Element.isToken, isToken]

end MacroTrace
