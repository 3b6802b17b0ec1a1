import MacroTrace.Syntax.View
import MacroTrace.Proofs.Syntax.Parse

/-! Elements of a tree. The members of a tree are the elements its preorder walk lists; a member
spans a run of the tree's tokens, starting where the tokens before it end. Children and parents
of members are members, and in a well nested tree two different macro call nodes, or two
different attribute nodes, never share a non-empty range. -/
namespace MacroTrace

namespace Green

mutual
theorem width_eq_totalLen : ∀ g : Green, g.width = Token.totalLen g.tokens
  | token t => by simp [width]
  | node k cs => by simp [widthList_eq_totalLen cs]

theorem widthList_eq_totalLen : ∀ gs : List Green, widthList gs = Token.totalLen (tokensList gs)
  | [] => by simp [widthList]
  | g :: gs => by simp [width_eq_totalLen g, widthList_eq_totalLen gs]
end

@[simp] theorem widthList_nil : widthList [] = 0 := by simp [widthList]

/-- The elements of a tree, its preorder walk from the root. -/
def members (root : Green) : List Element := preorderAt root 0 []

mutual
theorem preorderAt_bounds : ∀ (g : Green) (s : Nat) (t : List Nat) (e : Element),
    e ∈ preorderAt g s t → s ≤ e.start ∧ e.start + e.green.width ≤ s + g.width
  | token tk, s, t, e, h => by simp [preorderAt] at h; subst h; simp
  | node k cs, s, t, e, h => by
    simp only [preorderAt, List.mem_cons] at h
    rcases h with rfl | h
    · simp
    · have := preorderList_bounds cs s 0 t e h
      simpa using this

theorem preorderList_bounds : ∀ (gs : List Green) (s i : Nat) (t : List Nat) (e : Element),
    e ∈ preorderList gs s i t → s ≤ e.start ∧ e.start + e.green.width ≤ s + widthList gs
  | [], _, _, _, e, h => by simp [preorderList] at h
  | g :: gs, s, i, t, e, h => by
    simp only [preorderList, List.mem_append] at h
    rcases h with h | h
    · have := preorderAt_bounds g s (i :: t) e h
      simp; omega
    · have := preorderList_bounds gs (s + g.width) (i + 1) t e h
      simp; omega
end

mutual
theorem preorderAt_tokens : ∀ (g : Green) (s : Nat) (t : List Nat) (e : Element),
    e ∈ preorderAt g s t → ∃ pre post, g.tokens = pre ++ e.green.tokens ++ post ∧
      s + Token.totalLen pre = e.start
  | token tk, s, t, e, h => by
    simp [preorderAt] at h; subst h
    exact ⟨[], [], by simp, by simp⟩
  | node k cs, s, t, e, h => by
    simp only [preorderAt, List.mem_cons] at h
    rcases h with rfl | h
    · exact ⟨[], [], by simp, by simp⟩
    · obtain ⟨pre, post, h₁, h₂⟩ := preorderList_tokens cs s 0 t e h
      exact ⟨pre, post, by simpa using h₁, h₂⟩

theorem preorderList_tokens : ∀ (gs : List Green) (s i : Nat) (t : List Nat) (e : Element),
    e ∈ preorderList gs s i t → ∃ pre post, tokensList gs = pre ++ e.green.tokens ++ post ∧
      s + Token.totalLen pre = e.start
  | [], _, _, _, e, h => by simp [preorderList] at h
  | g :: gs, s, i, t, e, h => by
    simp only [preorderList, List.mem_append] at h
    rcases h with h | h
    · obtain ⟨pre, post, h₁, h₂⟩ := preorderAt_tokens g s (i :: t) e h
      exact ⟨pre, post ++ tokensList gs, by simp [h₁], h₂⟩
    · obtain ⟨pre, post, h₁, h₂⟩ := preorderList_tokens gs (s + g.width) (i + 1) t e h
      refine ⟨g.tokens ++ pre, post, by simp [h₁], ?_⟩
      rw [Token.totalLen_append, ← width_eq_totalLen]
      omega
end

theorem siblings_subset (t : List Nat) :
    ∀ (gs : List Green) (s i : Nat) (c : Element), c ∈ Element.siblings t gs s i →
      c ∈ preorderList gs s i t
  | [], _, _, c, h => by simp [Element.siblings] at h
  | g :: gs, s, i, c, h => by
    simp only [Element.siblings, List.mem_cons] at h
    simp only [preorderList, List.mem_append]
    rcases h with rfl | h
    · left; cases g <;> simp [preorderAt]
    · exact .inr (siblings_subset t gs _ _ c h)

mutual
theorem preorderAt_children : ∀ (g : Green) (s : Nat) (t : List Nat) (e : Element),
    e ∈ preorderAt g s t → ∀ c ∈ e.children, c ∈ preorderAt g s t
  | token tk, s, t, e, h, c, hc => by
    simp [preorderAt] at h; subst h
    simp [Element.children, Green.children, Element.siblings] at hc
  | node k cs, s, t, e, h, c, hc => by
    simp only [preorderAt, List.mem_cons] at h ⊢
    rcases h with rfl | h
    · exact .inr (siblings_subset t cs s 0 c hc)
    · exact .inr (preorderList_children cs s 0 t e h c hc)

theorem preorderList_children : ∀ (gs : List Green) (s i : Nat) (t : List Nat) (e : Element),
    e ∈ preorderList gs s i t → ∀ c ∈ e.children, c ∈ preorderList gs s i t
  | [], _, _, _, e, h, _, _ => by simp [preorderList] at h
  | g :: gs, s, i, t, e, h, c, hc => by
    simp only [preorderList, List.mem_append] at h ⊢
    rcases h with h | h
    · exact .inl (preorderAt_children g s (i :: t) e h c hc)
    · exact .inr (preorderList_children gs (s + g.width) (i + 1) t e h c hc)
end

mutual
theorem preorderAt_has : ∀ (g : Green) (s : Nat) (t : List Nat) (e : Element),
    e ∈ preorderAt g s t → e.isToken = false → g.has e.kind
  | token tk, s, t, e, h, hn => by simp [preorderAt] at h; subst h; simp [Element.isToken, isToken] at hn
  | node k cs, s, t, e, h, hn => by
    simp only [preorderAt, List.mem_cons] at h
    rcases h with rfl | h
    · simp [Element.kind, kind]
    · simp [preorderList_has cs s 0 t e h hn]

theorem preorderList_has : ∀ (gs : List Green) (s i : Nat) (t : List Nat) (e : Element),
    e ∈ preorderList gs s i t → e.isToken = false → hasList e.kind gs
  | [], _, _, _, e, h, _ => by simp [preorderList] at h
  | g :: gs, s, i, t, e, h, hn => by
    simp only [preorderList, List.mem_append] at h
    rcases h with h | h
    · simp [preorderAt_has g s (i :: t) e h hn]
    · simp [preorderList_has gs (s + g.width) (i + 1) t e h hn]
end

mutual
/-- In a well nested tree, two nodes of a kind that never nests in itself, at one start and of
one positive width, are the same node. -/
theorem preorderAt_unique : ∀ (g : Green) (s : Nat) (t : List Nat) (e₁ e₂ : Element),
    g.wellNested → e₁ ∈ preorderAt g s t → e₂ ∈ preorderAt g s t →
    e₁.isToken = false → e₂.isToken = false → e₁.kind = e₂.kind → selfFree e₁.kind →
    e₁.start = e₂.start → e₁.green.width = e₂.green.width → 0 < e₁.green.width → e₁ = e₂
  | token tk, s, t, e₁, e₂, _, h₁, h₂, _, _, _, _, _, _, _ => by
    simp [preorderAt] at h₁ h₂; rw [h₁, h₂]
  | node k cs, s, t, e₁, e₂, hw, h₁, h₂, hn₁, hn₂, hk, hsf, hs, hwd, hpos => by
    simp only [preorderAt, List.mem_cons] at h₁ h₂
    simp only [wellNested_node, Bool.and_eq_true, Bool.or_eq_true, Bool.not_eq_true'] at hw
    rcases h₁ with rfl | h₁ <;> rcases h₂ with rfl | h₂
    · rfl
    · have := preorderList_has cs s 0 t e₂ h₂ hn₂
      simp only [Element.kind, kind] at hk hsf this
      rw [← hk] at this
      rcases hw.1 with h | h <;> simp_all
    · have := preorderList_has cs s 0 t e₁ h₁ hn₁
      simp only [Element.kind, kind] at hk hsf this
      rw [hk] at this
      rcases hw.1 with h | h <;> simp_all
    · exact preorderList_unique cs s 0 t e₁ e₂ hw.2 h₁ h₂ hn₁ hn₂ hk hsf hs hwd hpos

theorem preorderList_unique : ∀ (gs : List Green) (s i : Nat) (t : List Nat) (e₁ e₂ : Element),
    wellNestedList gs → e₁ ∈ preorderList gs s i t → e₂ ∈ preorderList gs s i t →
    e₁.isToken = false → e₂.isToken = false → e₁.kind = e₂.kind → selfFree e₁.kind →
    e₁.start = e₂.start → e₁.green.width = e₂.green.width → 0 < e₁.green.width → e₁ = e₂
  | [], _, _, _, e₁, _, _, h₁, _, _, _, _, _, _, _, _ => by simp [preorderList] at h₁
  | g :: gs, s, i, t, e₁, e₂, hw, h₁, h₂, hn₁, hn₂, hk, hsf, hs, hwd, hpos => by
    simp only [wellNestedList, Bool.and_eq_true] at hw
    simp only [preorderList, List.mem_append] at h₁ h₂
    rcases h₁ with h₁ | h₁ <;> rcases h₂ with h₂ | h₂
    · exact preorderAt_unique g s (i :: t) e₁ e₂ hw.1 h₁ h₂ hn₁ hn₂ hk hsf hs hwd hpos
    · have := preorderAt_bounds g s (i :: t) e₁ h₁
      have := preorderList_bounds gs (s + g.width) (i + 1) t e₂ h₂
      omega
    · have := preorderList_bounds gs (s + g.width) (i + 1) t e₁ h₁
      have := preorderAt_bounds g s (i :: t) e₂ h₂
      omega
    · exact preorderList_unique gs (s + g.width) (i + 1) t e₁ e₂ hw.2 h₁ h₂ hn₁ hn₂ hk hsf hs hwd
        hpos
end

/-! ### Trails and parents -/

theorem siblings_trail (t : List Nat) : ∀ (gs : List Green) (s i j : Nat) (c : Element),
    (Element.siblings t gs s i)[j]? = some c → c.trail = (i + j) :: t
  | [], _, _, _, c, h => by simp [Element.siblings] at h
  | g :: gs, s, i, 0, c, h => by simp [Element.siblings] at h; simp [← h]
  | g :: gs, s, i, j + 1, c, h => by
    simp only [Element.siblings, List.getElem?_cons_succ] at h
    rw [siblings_trail t gs _ _ j c h]
    simp; omega

theorem siblings_getElem? (t : List Nat) : ∀ (gs : List Green) (s i j : Nat),
    (Element.siblings t gs s i)[j]? =
      gs[j]?.map fun g => ⟨g, s + Green.widthList (gs.take j), (i + j) :: t⟩
  | [], _, _, _ => rfl
  | g :: gs, s, i, 0 => by simp [Element.siblings]
  | g :: gs, s, i, j + 1 => by
    simp only [Element.siblings, List.getElem?_cons_succ, siblings_getElem? t gs, List.take_succ_cons,
      Green.widthList]
    simp only [Nat.add_assoc, Nat.add_comm 1 j]

@[simp] theorem childAt?_eq_children (e : Element) (i : Nat) : e.childAt? i = e.children[i]? := by
  simp [Element.childAt?, Element.children, siblings_getElem?]

theorem locate_go_append (e : Element) (p q : List Nat) :
    locate.go e (p ++ q) = (locate.go e p).bind fun x => locate.go x q := by
  induction p generalizing e with
  | nil => simp [locate.go]
  | cons i is ih =>
    simp only [List.cons_append, locate.go, childAt?_eq_children]
    split
    · exact ih _
    · rfl

theorem locate_go_trail : ∀ (path : List Nat) (e r : Element), locate.go e path = some r →
    r.trail = path.reverse ++ e.trail
  | [], e, r, h => by simp [locate.go] at h; simp [h]
  | i :: is, e, r, h => by
    simp only [locate.go, childAt?_eq_children] at h
    split at h
    · rename_i c hc
      have hct : c.trail = i :: e.trail := by
        simpa using siblings_trail e.trail e.green.children e.start 0 i c hc
      rw [locate_go_trail is c r h, hct]
      simp
    · simp at h

theorem locate_go_mem {root : Green} : ∀ (path : List Nat) (e r : Element),
    e ∈ root.members → locate.go e path = some r → r ∈ root.members
  | [], e, r, he, h => by simp [locate.go] at h; exact h ▸ he
  | i :: is, e, r, he, h => by
    simp only [locate.go, childAt?_eq_children] at h
    split at h
    · rename_i c hc
      exact locate_go_mem is c r (preorderAt_children root 0 [] e he c (List.mem_of_getElem? hc)) h
    · simp at h

mutual
theorem preorderAt_locate : ∀ (g : Green) (s : Nat) (t : List Nat) (e : Element),
    e ∈ preorderAt g s t → ∃ path, locate.go ⟨g, s, t⟩ path = some e
  | token tk, s, t, e, h => by
    simp [preorderAt] at h; subst h
    exact ⟨[], rfl⟩
  | node k cs, s, t, e, h => by
    simp only [preorderAt, List.mem_cons] at h
    rcases h with rfl | h
    · exact ⟨[], rfl⟩
    · obtain ⟨j, c, path, hc, hp⟩ := preorderList_locate cs s 0 t e h
      refine ⟨j :: path, ?_⟩
      simp only [locate.go, childAt?_eq_children, Element.children, Green.children]
      rw [hc]
      exact hp

theorem preorderList_locate : ∀ (gs : List Green) (s i : Nat) (t : List Nat) (e : Element),
    e ∈ preorderList gs s i t →
      ∃ (j : Nat) (c : Element) (path : List Nat),
        (Element.siblings t gs s i)[j]? = some c ∧ locate.go c path = some e
  | [], _, _, _, e, h => by simp [preorderList] at h
  | g :: gs, s, i, t, e, h => by
    simp only [preorderList, List.mem_append] at h
    rcases h with h | h
    · obtain ⟨path, hp⟩ := preorderAt_locate g s (i :: t) e h
      exact ⟨0, _, path, by simp [Element.siblings], hp⟩
    · obtain ⟨j, c, path, hc, hp⟩ := preorderList_locate gs (s + g.width) (i + 1) t e h
      exact ⟨j + 1, c, path, by simpa [Element.siblings] using hc, hp⟩
end

theorem root_mem_members (root : Green) : Element.root root ∈ root.members := by
  cases root <;> simp [members, preorderAt, Element.root]

theorem mem_members_of_mem_children {root : Green} {e c : Element} (he : e ∈ root.members)
    (hc : c ∈ e.children) : c ∈ root.members :=
  preorderAt_children root 0 [] e he c hc

theorem parent?_spec {root : Green} {e p : Element} (he : e ∈ root.members)
    (hp : root.parent? e = some p) : e ∈ p.children ∧ p ∈ root.members := by
  obtain ⟨path, hgo⟩ := preorderAt_locate root 0 [] e he
  have htrail := locate_go_trail path _ e hgo
  simp only [parent?] at hp
  split at hp
  · simp at hp
  · rename_i i t ht
    have hpath : path = t.reverse ++ [i] := by
      simp only [List.append_nil] at htrail
      rw [← List.reverse_reverse path, ← htrail, ht]
      simp
    simp only [elementAt?, locate, Element.root] at hp
    rw [hpath, locate_go_append, hp] at hgo
    simp only [Option.bind_some, locate.go, childAt?_eq_children] at hgo
    split at hgo
    · rename_i c hc
      simp only [Option.some.injEq] at hgo
      subst hgo
      exact ⟨List.mem_of_getElem? hc, locate_go_mem _ _ _ (root_mem_members root) hp⟩
    · simp at hgo

end Green

namespace Element

theorem children_bounds {e c : Element} (hc : c ∈ e.children) :
    e.start ≤ c.start ∧ c.start + c.green.width ≤ e.start + e.green.width := by
  have h := Green.preorderList_bounds e.green.children e.start 0 e.trail c
    (Green.siblings_subset _ _ _ _ c hc)
  cases hg : e.green with
  | token t => simp [children, hg, Green.children, siblings] at hc
  | node k cs => simpa [hg, Green.children] using h

end Element

/-! ### Trees that spell a text -/

namespace SyntaxKind

def isNode (k : SyntaxKind) : Bool := nodeStart.ctorIdx < k.ctorIdx

end SyntaxKind

theorem Green.selfFree_of_not_isNode {k : SyntaxKind} (h : k.isNode = false) :
    Green.selfFree k = false := by
  cases hsf : Green.selfFree k
  · rfl
  · simp only [Green.selfFree, Bool.or_eq_true, beq_iff_eq] at hsf
    rcases hsf with rfl | rfl <;> exact absurd h (by decide)

namespace Lexer

theorem punctuation_all (c : Char) :
    (punctuation c).all (fun k : SyntaxKind => !k.isNode) = true := by
  simp only [punctuation, apply_ite (Option.all fun k : SyntaxKind => !k.isNode), Option.all_some,
    Option.all_none]
  simp +decide

theorem keyword_not_isNode (word : String) : (keyword word).isNode = false := by
  unfold keyword
  split_ifs <;> rfl

theorem scan_not_isNode (c : Char) (rest : List Char) : (scan c rest).1.isNode = false := by
  unfold scan
  split
  · rfl
  split
  · rfl
  split
  · rfl
  split
  · rename_i k hk
    simpa [hk] using punctuation_all c
  · simp only [apply_ite Prod.fst, apply_ite SyntaxKind.isNode, keyword_not_isNode]
    simp +decide

theorem not_isNode_of_mem {cs : List Char} {t : Token} (h : t ∈ tokens cs) :
    t.kind.isNode = false := by
  fun_induction tokens cs with
  | case1 => simp at h
  | case2 c rest k n hscan ih =>
    rcases List.mem_cons.1 h with rfl | h
    · simpa [hscan] using scan_not_isNode c rest
    · exact ih h

end Lexer

namespace Green

/-- A tree spells a text when its tokens are the first of the text's tokens. -/
def Spells (root : Green) (text : String) : Prop := ∃ rest, root.tokens ++ rest = lex text

theorem spells_parse (text : String) (entry : EntryPoint) : (parse text entry).tree.Spells text := by
  obtain ⟨rest, h, -⟩ := parse_tree_spec text entry
  exact ⟨rest, h⟩

variable {root : Green} {text : String} {e : Element}

theorem Spells.spans (h : root.Spells text) (he : e ∈ root.members) :
    Spans text.toList e.range (Token.chars e.green.tokens) := by
  obtain ⟨rest, hrest⟩ := h
  obtain ⟨pre, post, htok, hstart⟩ := preorderAt_tokens root 0 [] e he
  refine ⟨Token.chars pre, Token.chars post ++ Token.chars rest, ?_, ?_, ?_⟩
  · rw [← chars_lex, ← hrest, htok]
    simp
  · rw [← Token.totalLen_eq_bytesOf]
    simp only [Element.range]
    omega
  · rw [← Token.totalLen_eq_bytesOf, ← width_eq_totalLen]
    simp [Element.range, TextRange.len]

theorem Spells.width_pos (h : root.Spells text) (he : e ∈ root.members) {t : Token}
    (ht : e.green = .token t) (hk : t.kind ≠ .eof) : 0 < e.green.width := by
  obtain ⟨rest, hrest⟩ := h
  obtain ⟨pre, post, htok, -⟩ := preorderAt_tokens root 0 [] e he
  have hmem : t ∈ lex text := by
    rw [← hrest, htok, ht]
    simp
  simp only [lex, List.mem_append, List.mem_singleton] at hmem
  rw [ht, width]
  rcases hmem with hmem | rfl
  · exact Lexer.len_pos_of_mem hmem
  · exact absurd rfl hk

theorem Spells.width_pos_of_lt (h : root.Spells text) (he : e ∈ root.members)
    (ht : e.isToken = true) (hlt : e.start < text.utf8ByteSize) : 0 < e.green.width := by
  obtain ⟨rest, hrest⟩ := h
  obtain ⟨pre, post, htok, hstart⟩ := preorderAt_tokens root 0 [] e he
  cases hg : e.green with
  | node k cs => simp [Element.isToken, hg, isToken] at ht
  | token tk =>
    rw [width]
    have hsplit : (pre ++ [tk]) ++ (post ++ rest) = Lexer.tokens text.toList ++ [Token.eof] := by
      rw [← lex, ← hrest, htok, hg]
      simp
    rcases List.append_eq_append_iff.1 hsplit with ⟨as, hlex, -⟩ | ⟨bs, hpre, heof⟩
    · exact Lexer.len_pos_of_mem (by rw [hlex]; simp)
    · cases bs with
      | nil => exact Lexer.len_pos_of_mem (by rw [← List.append_nil (Lexer.tokens _), ← hpre]; simp)
      | cons b bs =>
        have hb : bs = [] := by
          simp only [List.cons_append, List.cons.injEq] at heof
          exact (List.append_eq_nil_iff.1 heof.2.symm).1
        subst hb
        have hpre' : pre = Lexer.tokens text.toList := List.append_inj_left' hpre rfl
        have hend : Token.totalLen pre = text.utf8ByteSize := by
          rw [← totalLen_lex, lex, hpre', Token.totalLen_append]
          simp
        omega

theorem Spells.not_isNode_of_isToken (h : root.Spells text) (he : e ∈ root.members)
    (ht : e.isToken = true) : e.kind.isNode = false := by
  obtain ⟨rest, hrest⟩ := h
  obtain ⟨pre, post, htok, -⟩ := preorderAt_tokens root 0 [] e he
  cases hg : e.green with
  | node k cs => simp [Element.isToken, hg, isToken] at ht
  | token t =>
    have hmem : t ∈ lex text := by
      rw [← hrest, htok, hg]
      simp
    simp only [lex, List.mem_append, List.mem_singleton] at hmem
    simp only [Element.kind, hg, kind]
    rcases hmem with hmem | rfl
    · exact Lexer.not_isNode_of_mem hmem
    · decide

theorem Spells.selfFree_of_isToken (h : root.Spells text) (he : e ∈ root.members)
    (ht : e.isToken = true) : selfFree e.kind = false :=
  selfFree_of_not_isNode (h.not_isNode_of_isToken he ht)

end Green

namespace Element

theorem mem_children_of_child? {e c : Element} {k : SyntaxKind} (h : e.child? k = some c) :
    c ∈ e.children ∧ c.kind = k := by
  simp only [child?, childNodes] at h
  exact ⟨List.mem_of_mem_filter (List.mem_of_find?_eq_some h), by simpa using List.find?_some h⟩

theorem mem_children_of_token? {e c : Element} {k : SyntaxKind} (h : e.token? k = some c) :
    c ∈ e.children ∧ c.kind = k ∧ c.isToken = true := by
  simp only [token?, childTokens] at h
  have hc := List.mem_of_find?_eq_some h
  exact ⟨List.mem_of_mem_filter hc, by simpa using List.find?_some h,
    by simpa using (List.mem_filter.1 hc).2⟩

theorem mem_children_of_significantTokens {e c : Element} (h : c ∈ e.significantTokens) :
    c ∈ e.children ∧ c.isToken = true := by
  simp only [significantTokens, childTokens, List.mem_filter] at h
  exact ⟨h.1.1, h.1.2⟩

end Element

end MacroTrace
