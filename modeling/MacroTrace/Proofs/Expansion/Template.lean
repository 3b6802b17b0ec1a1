import MacroTrace.Expansion.Template
import MacroTrace.Proofs.Syntax.Lexer

/-! Expansions copy faithfully. Every segment an expander records is a non-empty run of body
characters that appears again, unchanged, at its destination, and the segments follow one another
through the expansion text. Template text, substituted bindings, stripped attributes and derive
templates all keep this, provided each range they copy falls on character boundaries of the body,
which the ranges matching produces always do. -/
namespace MacroTrace

namespace Segment

def dstSpan (u : Segment) : TextRange := ⟨u.dst, u.dst + u.len, Nat.le_add_right u.dst u.len⟩

def srcSpan (u : Segment) : TextRange := ⟨u.src, u.src + u.len, Nat.le_add_right u.src u.len⟩

end Segment

namespace Expanded

/-- An expansion copies faithfully from a body: each segment is a non-empty run of the body's
characters found again at its destination, and each segment ends before the next one starts. -/
structure Copies (body : List Char) (x : Expanded) : Prop where
  pos : ∀ u ∈ x.segments, 0 < u.len
  ordered : x.segments.Pairwise fun a b => a.dst + a.len ≤ b.dst
  copies : ∀ u ∈ x.segments,
    ∃ piece, Spans x.text.toList u.dstSpan piece ∧ Spans body u.srcSpan piece

variable {body : List Char} {x : Expanded}

theorem Copies.fits (h : Copies body x) {u : Segment} (hu : u ∈ x.segments) :
    u.dst + u.len ≤ x.text.utf8ByteSize := by
  obtain ⟨piece, hd, -⟩ := h.copies u hu
  rw [utf8ByteSize_eq_bytesOf]
  exact hd.stop_le

theorem copies_empty : Copies body empty where
  pos := by simp [empty]
  ordered := by simp [empty]
  copies := by simp [empty]

theorem Copies.pushText (h : Copies body x) (t : String) : Copies body (x.pushText t) where
  pos := h.pos
  ordered := h.ordered
  copies u hu := by
    obtain ⟨piece, hd, hs⟩ := h.copies u hu
    exact ⟨piece, by simpa [Expanded.pushText] using hd.append_right t.toList, hs⟩

theorem Copies.pushMapped {src : String} {r : TextRange} (h : Copies src.toList x)
    (hr : ∃ piece, Spans src.toList r piece) : Copies src.toList (x.pushMapped src r) := by
  unfold Expanded.pushMapped
  split
  · exact h
  · rename_i hne
    obtain ⟨piece, hp⟩ := hr
    have hslice : (sliceText src r).toList = piece := by simp [hp.sliceText_eq]
    have hlen : bytesOf piece = r.len := by
      obtain ⟨-, -, -, -, h₂⟩ := hp
      exact h₂
    have hpos : 0 < r.len := by
      have := r.le
      simp only [TextRange.isEmpty, beq_iff_eq] at hne
      simp only [TextRange.len]
      omega
    refine ⟨?_, ?_, ?_⟩
    · simp only [List.mem_append, List.mem_singleton]
      rintro u (hu | rfl)
      · exact h.pos u hu
      · exact hpos
    · refine List.pairwise_append.2 ⟨h.ordered, by simp, ?_⟩
      simpa using fun a ha => h.fits ha
    · simp only [List.mem_append, List.mem_singleton, String.toList_append, hslice]
      rintro u (hu | rfl)
      · obtain ⟨p, hd, hs⟩ := h.copies u hu
        exact ⟨p, hd.append_right piece, hs⟩
      · refine ⟨piece, ((Spans.whole piece).append_left x.text.toList).congr ?_ ?_, hp.congr rfl ?_⟩
        · simp [Segment.dstSpan, utf8ByteSize_eq_bytesOf]
        · simp [Segment.dstSpan, utf8ByteSize_eq_bytesOf, hlen]
        · have := r.le
          simp [Segment.srcSpan, TextRange.len]
          omega

end Expanded

def Bindings.Cut (b : Bindings) (body : List Char) : Prop := ∀ p ∈ b, ∃ piece, Spans body p.2 piece

theorem Bindings.Cut.bind {b : Bindings} {body : List Char} (h : b.Cut body) (name : String)
    {r : TextRange} (hr : ∃ piece, Spans body r piece) : (b.bind name r).Cut body := by
  intro p hp
  simp only [Bindings.bind, List.mem_cons, List.mem_filter] at hp
  rcases hp with rfl | ⟨hp, -⟩
  · exact hr
  · exact h p hp

theorem Bindings.Cut.find? {b : Bindings} {body : List Char} (h : b.Cut body) {name : String}
    {r : TextRange} (hr : b.find? name = some r) : ∃ piece, Spans body r piece := by
  simp only [Bindings.find?, Option.map_eq_some_iff] at hr
  obtain ⟨p, hp, rfl⟩ := hr
  exact h p (List.mem_of_find?_eq_some hp)

theorem copies_substitute (template : String) {b : Bindings} {body : String}
    (hb : b.Cut body.toList) : (substitute template b body).Copies body.toList := by
  have go : ∀ ts out, out.Copies body.toList → (substitute.go b body ts out).Copies body.toList := by
    intro ts out
    fun_induction substitute.go b body ts out with
    | case1 out => exact id
    | case2 t out u rest _ r hr ih =>
      exact fun h => ih (h.pushMapped (hb.find? hr))
    | case3 t out u rest _ _ ih => exact fun h => ih (h.pushText t.text)
    | case4 t out u rest _ ih => exact fun h => ih (h.pushText t.text)
    | case5 t out => exact fun h => h.pushText t.text
  exact go _ _ Expanded.copies_empty

theorem spans_tokenSpans (text : String) :
    ∀ p ∈ tokenSpans text, Spans text.toList p.2 p.1.text.toList := by
  have go : ∀ (ts : List Token) (before after : List Char),
      before ++ Token.chars ts ++ after = text.toList →
      ∀ p ∈ tokenSpans.go ts (bytesOf before), Spans text.toList p.2 p.1.text.toList := by
    intro ts
    induction ts with
    | nil => exact fun _ _ _ p hp => absurd hp List.not_mem_nil
    | cons t ts ih =>
      intro before after h p hp
      rcases List.mem_cons.1 hp with rfl | hp
      · refine ⟨before, Token.chars ts ++ after, by simp [← h], rfl, ?_⟩
        simp [TextRange.len, Token.len_eq_bytesOf]
      · have := ih (before ++ t.text.toList) after (by simp [← h]) p
        simp only [bytesOf_append, ← Token.len_eq_bytesOf] at this
        exact this hp
  exact go (lex text) [] [] (by simp [chars_lex])

theorem spans_significantSpans (text : String) :
    ∀ p ∈ significantSpans text, Spans text.toList p.2 p.1.text.toList := by
  intro p hp
  exact spans_tokenSpans text p (List.mem_of_mem_filter hp)

theorem matchParts_cut {body : List Char} {bodyEnd : Nat} (hend : Boundary body bodyEnd) :
    ∀ (parts : List PatternPart) (toks : List (Token × TextRange)) (b b' : Bindings),
      (∀ p ∈ toks, ∃ piece, Spans body p.2 piece) → b.Cut body →
      matchParts bodyEnd parts toks b = some b' → b'.Cut body := by
  intro parts toks b b'
  induction parts generalizing toks b with
  | nil =>
    intro _ hb h
    simp only [matchParts] at h
    split at h <;> simp_all
  | cons part ps ih =>
    intro htoks hb h
    cases part with
    | literal text =>
      cases toks with
      | nil => simp [matchParts] at h
      | cons tok rest =>
        simp only [matchParts] at h
        split at h
        · exact ih rest b (fun p hp => htoks p (List.mem_cons_of_mem _ hp)) hb h
        · simp at h
    | one name =>
      cases toks with
      | nil => simp [matchParts] at h
      | cons tok rest =>
        simp only [matchParts] at h
        exact ih rest _ (fun p hp => htoks p (List.mem_cons_of_mem _ hp))
          (hb.bind name (htoks tok (List.mem_cons_self))) h
    | rest name =>
      simp only [matchParts] at h
      refine ih [] _ (by simp) (hb.bind name ?_) h
      split
      · rename_i first last hfirst hlast
        obtain ⟨_, hf⟩ := htoks _ (List.mem_of_mem_head? hfirst)
        obtain ⟨_, hl⟩ := htoks _ (List.mem_of_getLast? hlast)
        exact hf.cover hl
      · exact ⟨[], Spans.point hend⟩

theorem matchPattern_cut {parts : List PatternPart} {body : String} {b : Bindings}
    (h : matchPattern parts body = some b) : b.Cut body.toList := by
  refine matchParts_cut ?_ parts _ [] b ?_ (by simp [Bindings.Cut]) h
  · rw [utf8ByteSize_eq_bytesOf]
    exact Boundary.whole _
  · exact fun p hp => ⟨_, spans_significantSpans body p hp⟩

theorem spans_ofBounds {cs : List Char} {a b : Nat} (ha : Boundary cs a) (hb : Boundary cs b) :
    ∃ piece, Spans cs (TextRange.ofBounds a b) piece := by
  refine Spans.of_boundaries _ ha ?_
  rcases Nat.le_total a b with h | h
  · rwa [Nat.max_eq_right h]
  · rwa [Nat.max_eq_left h]

/-- Re-emitting an item without an attribute whose ends fall on character boundaries copies
faithfully: the text before the attribute, then the text after it and the white space that
follows it. -/
theorem copies_stripAttribute {item : String} {attr : TextRange}
    (hs : Boundary item.toList attr.start) (he : Boundary item.toList attr.stop) :
    (stripAttribute item attr).Copies item.toList := by
  obtain ⟨before, after, hsplit, hb⟩ := he
  have hafter : (sliceFrom item attr.stop).toList = after := by
    have hspan : Spans item.toList ⟨attr.stop, item.utf8ByteSize, by
        rw [utf8ByteSize_eq_bytesOf, hsplit, bytesOf_append]; omega⟩ after :=
      ⟨before, [], by simp [hsplit], hb, by
        simp [TextRange.len, utf8ByteSize_eq_bytesOf, hsplit, hb]⟩
    simp [sliceFrom, hspan.charsWithin_eq]
  have hrest : Boundary item.toList
      (attr.stop + (bytesOf after - bytesOf (trimStartChars after))) := by
    refine ⟨before ++ after.takeWhile isWhiteSpace, after.dropWhile isWhiteSpace, ?_, ?_⟩
    · simp [hsplit]
    · have := congrArg bytesOf (List.takeWhile_append_dropWhile (p := isWhiteSpace) (l := after))
      simp only [bytesOf_append] at this
      simp only [trimStartChars, bytesOf_append]
      omega
  have hend : Boundary item.toList item.utf8ByteSize := by
    rw [utf8ByteSize_eq_bytesOf]
    exact Boundary.whole _
  simp only [stripAttribute, hafter]
  exact (Expanded.copies_empty.pushMapped (spans_ofBounds (Boundary.zero _) hs)).pushMapped
    (spans_ofBounds hrest hend)

end MacroTrace
