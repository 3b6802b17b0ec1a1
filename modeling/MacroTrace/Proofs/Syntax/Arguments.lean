import MacroTrace.Proofs.Syntax.Trimmed
import MacroTrace.Proofs.Syntax.Element
/-!
Delimiters of macro arguments. The grammar reads a macro argument as one token tree from its
opening delimiter on, so the argument's first significant token opens it and, when the tree pays
off every closer it opened, its last significant token is the closer of the first. The views read
the closing delimiter off the last significant token alone: an argument cut short by the end of
the input whose last token closes an inner delimiter of the opening kind still gets that token as
its closing delimiter, and its body stops before it rather than at the argument's end.

All of this holds as long as no count placing a token is capped (`Parser.Step.delimits`).
-/
namespace MacroTrace

namespace SyntaxKind

theorem isTrivia_of_closer? {k c : SyntaxKind} (h : k.closer? = some c) : k.isTrivia = false := by
  cases k <;> simp_all [closer?, isTrivia]

theorem closer?_ne_self {k c : SyntaxKind} (h : k.closer? = some c) : c ≠ k := by
  rintro rfl
  cases c <;> simp_all [closer?]

theorem readsTree_closes {k c : SyntaxKind} {ks : List SyntaxKind} (hk : k.closer? = some c)
    (hreads : readsTree [] (k :: ks) = true) (hpaid : (k :: ks).foldl owe [] = []) :
    ks.getLast? = some c := by
  simp only [readsTree, hk] at hreads
  simp only [List.foldl_cons, owe, hk] at hpaid
  exact readsTree_pays_last c ks [] hreads hpaid

end SyntaxKind

namespace Green

theorem significantKinds_of_tokens : ∀ {gs : List Green}, gs.all (·.isToken) = true →
    significantKinds gs = ((gs.filter (·.isToken)).filter (!·.kind.isTrivia)).map (·.kind)
  | [], _ => rfl
  | token t :: gs, h => by
    have ih := @significantKinds_of_tokens gs (by
      simp only [List.all_cons, Bool.and_eq_true] at h
      exact h.2)
    simp only [significantKinds] at ih ⊢
    by_cases ht : t.kind.isTrivia = true <;> simp [ht, ih, isToken, kind]
  | node _ _ :: _, h => by simp [isToken] at h

mutual
theorem preorderAt_delimited : ∀ (g : Green) (s : Nat) (t : List Nat) (e : Element),
    e ∈ preorderAt g s t → g.delimited = true → e.green.delimited = true
  | token tk, s, t, e, h, _ => by simp [preorderAt] at h; subst h; simp
  | node k cs, s, t, e, h, hd => by
    simp only [preorderAt, List.mem_cons] at h
    rcases h with rfl | h
    · exact hd
    · rw [delimited_node, Bool.and_eq_true] at hd
      exact preorderList_delimited cs s 0 t e h hd.2

theorem preorderList_delimited : ∀ (gs : List Green) (s i : Nat) (t : List Nat) (e : Element),
    e ∈ preorderList gs s i t → delimitedList gs = true → e.green.delimited = true
  | [], _, _, _, e, h, _ => by simp [preorderList] at h
  | g :: gs, s, i, t, e, h, hd => by
    simp only [preorderList, List.mem_append] at h
    simp only [delimitedList, Bool.and_eq_true] at hd
    rcases h with h | h
    · exact preorderAt_delimited g s (i :: t) e h hd.1
    · exact preorderList_delimited gs (s + g.width) (i + 1) t e h hd.2
end

theorem delimited_of_mem_members {root : Green} {e : Element} (h : root.delimited = true)
    (he : e ∈ root.members) : e.green.delimited = true :=
  preorderAt_delimited root 0 [] e he h

theorem Spells.argument_node {root : Green} {text : String} {a : Element}
    (hsp : root.Spells text) (ha : a ∈ root.members) (hk : a.kind = .macroArgument) :
    ∃ cs, a.green = .node .macroArgument cs := by
  cases hg : a.green with
  | token t =>
    have := hsp.not_isNode_of_isToken ha (by simp [Element.isToken, hg, isToken])
    rw [hk] at this
    exact absurd this (by decide)
  | node k cs => exact ⟨cs, by simpa [Element.kind, hg, kind] using hk⟩

end Green

theorem parse_tree_delimited (text : String) (entry : EntryPoint)
    (h : longestTriviaRun (lex text) < maxTokenRun) : (parse text entry).tree.delimited = true := by
  let p₁ := ((Grammar.entryBody (stepAllowance (lex text)) entry).run (Parser.init (lex text))).2
  obtain ⟨h₁, -⟩ := parse_body_runs text entry
  obtain ⟨new, hf₁, -, -, -⟩ := h₁.adds [] [] rfl
  have hin := h₁.delimits rfl h [] [] new rfl hf₁
  obtain ⟨ts, h₂, -⟩ := Parser.skipTrivia_spec (p := p₁) hf₁
  have hroot : entry.rootKind ≠ .macroArgument := by cases entry <;> decide
  have htree : (parse text entry).tree = .node entry.rootKind (new.reverse ++ ts.map .token) := by
    simp only [parse]
    rw [h₂]
    simp
  rw [htree, Green.delimited_node, Green.delimitedList_eq_true.2 fun c hc => ?_]
  · simp [hroot]
  rcases List.mem_append.1 hc with hc | hc
  · exact hin c (List.mem_reverse.1 hc)
  · obtain ⟨t, -, rfl⟩ := List.mem_map.1 hc
    simp

namespace Element

def openClosers (e : Element) : List SyntaxKind :=
  (e.significantTokens.map (·.kind)).foldl SyntaxKind.owe []

theorem siblings_map_green (trail : List Nat) : ∀ (gs : List Green) (s i : Nat),
    (siblings trail gs s i).map (·.green) = gs
  | [], _, _ => rfl
  | g :: gs, s, i => by simp [siblings, siblings_map_green trail gs]

theorem significantTokens_map_kind (e : Element) : e.significantTokens.map (·.kind) =
    ((e.green.children.filter (·.isToken)).filter (!·.kind.isTrivia)).map (·.kind) := by
  rw [← siblings_map_green e.trail e.green.children e.start 0]
  simp [significantTokens, childTokens, children, List.filter_map, Function.comp_def, kind, isToken]

theorem children_cons {e : Element} {k : SyntaxKind} {g : Green} {gs : List Green}
    (h : e.green = .node k (g :: gs)) :
    e.children = ⟨g, e.start, 0 :: e.trail⟩ :: siblings e.trail gs (e.start + g.width) 1 := by
  simp [children, h, Green.children, siblings]

variable {root : Green} {text : String} {a : Element}

/-- A delimited macro argument of a tree that spells a text opens with its first child, an opening
delimiter of positive width, and its other significant tokens come after it; its significant
tokens are read as one token tree. -/
theorem argument_opens (hsp : root.Spells text) (ha : a ∈ root.members)
    (hk : a.kind = .macroArgument) (hd : a.green.delimited = true) :
    ∃ o rest, a.significantTokens = o :: rest ∧ o ∈ a.children ∧ o.start = a.start ∧
      o.kind.closer?.isSome = true ∧ (∀ z ∈ rest, o.range.stop ≤ z.start) ∧
      o.range.stop ≤ a.range.stop ∧ a.start < o.range.stop ∧
      SyntaxKind.readsTree [] ((o :: rest).map (·.kind)) = true := by
  obtain ⟨cs, hg⟩ := hsp.argument_node ha hk
  have hshape : Green.argumentShape cs = true := by
    rw [hg, Green.delimited_node] at hd
    simp only [bne_self_eq_false, Bool.false_or, Bool.and_eq_true] at hd
    exact hd.1
  obtain ⟨t, gs, rfl, ho, hall, hreads⟩ := Green.argumentShape_eq_true hshape
  obtain ⟨c, hc⟩ := Option.isSome_iff_exists.1 ho
  have htriv := SyntaxKind.isTrivia_of_closer? hc
  set o : Element := ⟨.token t, a.start, 0 :: a.trail⟩
  have hch := children_cons hg
  have hmem : o ∈ a.children := by rw [hch]; exact List.mem_cons_self
  set rest := ((siblings a.trail gs (a.start + t.len) 1).filter (·.isToken)).filter
    (!·.kind.isTrivia)
  have hsig : a.significantTokens = o :: rest := by
    simp [significantTokens, childTokens, hch, o, rest, isToken, kind, Green.isToken, Green.kind,
      htriv, Green.width]
  have hpos : 0 < o.green.width := hsp.width_pos (Green.mem_members_of_mem_children ha hmem) rfl
    fun he => by simp [he, SyntaxKind.closer?] at hc
  have hbound := children_bounds hmem
  refine ⟨o, rest, hsig, hmem, rfl, ho, fun z hz => ?_, ?_, ?_, ?_⟩
  · have hz' : z ∈ siblings a.trail gs (a.start + t.len) 1 :=
      List.mem_of_mem_filter (List.mem_of_mem_filter hz)
    have := (Green.preorderList_bounds gs _ 1 a.trail z (Green.siblings_subset _ _ _ _ z hz')).1
    simpa [o, range, Green.width] using this
  · simpa [range] using hbound.2
  · show a.start < a.start + o.green.width
    omega
  · rw [← hsig, significantTokens_map_kind, hg]
    rwa [Green.significantKinds_of_tokens (by rw [List.all_cons, hall, Bool.and_true]; rfl)]
      at hreads

/-- The closing delimiter and the body of an element whose significant tokens are an opening
delimiter `o` of positive width and tokens after it: the last of them, `z`, is the closing
delimiter exactly when it has the kind of `o`'s closer, and the body runs from the end of `o` to
the start of `z` then, or to the element's end. -/
theorem delimiters_of_opens {o z : Element} {rest : List Element}
    (hs : a.significantTokens = o :: rest) (hafter : ∀ z ∈ rest, o.range.stop ≤ z.start)
    (hend : o.range.stop ≤ a.range.stop)
    (hpos : a.start < o.range.stop) (hz : (o :: rest).getLast? = some z) :
    a.rightDelim = (if o.kind.closer? = some z.kind then some z else none) ∧
      ∃ b, a.bodyRange = some b ∧ b.start = o.range.stop ∧
        b.stop = if o.kind.closer? = some z.kind then z.start else a.range.stop := by
  have hzafter : o.kind.closer? = some z.kind → o.range.stop ≤ z.start := by
    intro hzk
    rw [List.getLast?_cons] at hz
    cases hr : rest.getLast? with
    | none =>
      obtain rfl : o = z := by simpa [hr] using hz
      exact absurd rfl (SyntaxKind.closer?_ne_self hzk)
    | some y =>
      obtain rfl : y = z := by simpa [hr] using hz
      exact hafter y (List.mem_of_getLast? hr)
  have hright : a.rightDelim = if o.kind.closer? = some z.kind then some z else none := by
    by_cases hzk : o.kind.closer? = some z.kind
    · have := hzafter hzk
      simp [rightDelim, leftDelim, hs, hz, hzk]
      omega
    · simp [rightDelim, leftDelim, hs, hz, hzk]
  refine ⟨hright, ?_⟩
  by_cases hzk : o.kind.closer? = some z.kind
  · exact ⟨⟨o.range.stop, z.start, hzafter hzk⟩,
      by simp [bodyRange, leftDelim, hs, hright, hzk, hzafter hzk], rfl, by simp [hzk]⟩
  · exact ⟨⟨o.range.stop, a.range.stop, hend⟩,
      by simp [bodyRange, leftDelim, hs, hright, hzk, hend], rfl, by simp [hzk]⟩

end Element

/-- Every macro argument of a parse opens with its opening delimiter, at its own start, and its
body starts after it. A terminated argument, one that pays off every closer it opened, ends with
the closer of that delimiter: it is the argument's closing delimiter, and the body is the text
strictly between the two. An argument cut short by the end of the input has a body up to the
argument's end, unless its last significant token has the kind of the opening delimiter's closer:
that token, though it closes an inner delimiter, is then taken as the closing delimiter and the
body stops before it. This holds while no run of trivia in the text reaches the cap on a count. -/
theorem macro_argument_delimiters (text : String) (entry : EntryPoint)
    (h : longestTriviaRun (lex text) < maxTokenRun) {a : Element}
    (ha : a ∈ (parse text entry).tree.members) (hk : a.kind = .macroArgument) :
    ∃ o c b, a.leftDelim = some o ∧ o ∈ a.children ∧ o.start = a.start ∧
      o.kind.closer?.isSome = true ∧ a.significantTokens.getLast? = some c ∧
      a.bodyRange = some b ∧ b.start = o.range.stop ∧
      (a.openClosers = [] →
        o.kind.closer? = some c.kind ∧ a.rightDelim = some c ∧ b.stop = c.start) ∧
      (a.openClosers ≠ [] →
        b.stop = if o.kind.closer? = some c.kind then c.start else a.range.stop) := by
  obtain ⟨o, rest, hs, hmem, hstart, ho, hafter, hend, hpos, hreads⟩ :=
    Element.argument_opens (Green.spells_parse text entry) ha hk
      (Green.delimited_of_mem_members (parse_tree_delimited text entry h) ha)
  obtain ⟨cl, hcl⟩ := Option.isSome_iff_exists.1 ho
  set z := rest.getLast?.getD o
  have hz : (o :: rest).getLast? = some z := List.getLast?_cons
  obtain ⟨hright, b, hb, hbstart, hbstop⟩ := Element.delimiters_of_opens hs hafter hend hpos hz
  refine ⟨o, z, b, by simp [Element.leftDelim, hs], hmem, hstart, ho, by rw [hs]; exact hz, hb,
    hbstart, fun hpaid => ?_, fun _ => hbstop⟩
  have hks := SyntaxKind.readsTree_closes hcl hreads
    (by simpa [Element.openClosers, hs] using hpaid)
  rw [List.getLast?_map] at hks
  obtain ⟨y, hy, hyk⟩ := Option.map_eq_some_iff.1 hks
  have hzy : z = y := by simp [z, hy]
  have hzk : o.kind.closer? = some z.kind := by rw [hcl, hzy, hyk]
  exact ⟨hzk, by rw [hright, if_pos hzk], by rw [hbstop, if_pos hzk]⟩

/-- A terminated argument with a nested pair inside: `m!((a))`. -/
theorem nested_argument_delimiters :
    ∃ a ∈ (parse "m!((a))" .sourceFile).tree.members, a.kind = .macroArgument ∧
      a.openClosers = [] ∧ ∃ o c b, a.leftDelim = some o ∧ o ∈ a.children ∧
        o.start = a.start ∧ o.kind.closer?.isSome = true ∧ a.significantTokens.getLast? = some c ∧
        a.bodyRange = some b ∧ b.start = o.range.stop ∧
        (a.openClosers = [] →
          o.kind.closer? = some c.kind ∧ a.rightDelim = some c ∧ b.stop = c.start) ∧
        (a.openClosers ≠ [] →
          b.stop = if o.kind.closer? = some c.kind then c.start else a.range.stop) := by
  have h : longestTriviaRun (lex "m!((a))") < maxTokenRun := by decide +kernel
  obtain ⟨a, ha, hk, hpaid⟩ : ∃ a ∈ (parse "m!((a))" .sourceFile).tree.members,
      a.kind = .macroArgument ∧ a.openClosers = [] := by decide +kernel
  exact ⟨a, ha, hk, hpaid, macro_argument_delimiters _ _ h ha hk⟩

/-- An argument cut short by the end of the input, `m!(()`: its last token closes the inner `(`,
yet it is taken as the closing delimiter, and the body stops before it, a byte short of the
argument's end. -/
theorem unterminated_argument_body_stops_short :
    ∃ a ∈ (parse "m!(()" .sourceFile).tree.members, a.kind = .macroArgument ∧
      a.openClosers ≠ [] ∧ a.rightDelim.map (·.start) = some 4 ∧
      a.bodyRange.map (·.stop) = some 4 ∧ a.range.stop = 5 := by
  decide +kernel

end MacroTrace
