import MacroTrace.Proofs.Trace.DepthFirst
import MacroTrace.Proofs.Trace.Depth

/-! Lookups that walk a chain of expansions reach their answers within the depth limit. The map
of a stored expansion never makes a range ambiguous, so the range trace through the calls of a
copy chain answers at every level, and the fragment holding the copy's start reaches the source
file. Following a token forward finds its innermost copy once the calls holding its copies have
their expansions stored and none as deep as that copy expanded to anything. With the limits each
chain lookup reads, this says for each lookup exactly when it succeeds along a chain of nested
expansions. -/
namespace MacroTrace

namespace OffsetMap

variable {m : OffsetMap}

theorem clip_apart {q a b fa fb : Segment} (hab : a.dst + a.len ≤ b.dst)
    (ha : q.clip a = some fa) (hb : q.clip b = some fb) : fa.sharesPosition fb = false := by
  unfold Segment.clip Segment.dstHolds at ha hb
  by_cases hq : q.len = 0
  · rw [if_pos hq] at ha hb
    split at ha
    · split at hb
      · rename_i h₁ h₂
        simp only [Bool.and_eq_true, decide_eq_true_eq] at h₁ h₂
        omega
      · cases hb
    · cases ha
  · rw [if_neg hq] at ha hb
    dsimp only at ha hb
    split at ha
    · split at hb
      · rw [Option.some.injEq] at ha hb
        subst ha hb
        simp only [Segment.sharesPosition, Bool.or_eq_true, beq_iff_eq]
        rw [if_neg (by omega), Bool.and_eq_false_iff]
        simp only [decide_eq_false_iff_not]
        omega
      · cases hb
    · cases ha

theorem clip_src_within {q u f : Segment} (h : q.clip u = some f) :
    f.src + f.len ≤ u.src + u.len := by
  unfold Segment.clip Segment.dstHolds at h
  split at h
  · split at h
    · rename_i hin
      cases h
      simp only [Bool.and_eq_true, decide_eq_true_eq] at hin
      dsimp only
      omega
    · cases h
  · dsimp only at h
    split at h
    · cases h
      dsimp only
      omega
    · cases h

theorem clips_apart (h : m.segments.Pairwise fun a b => a.dst + a.len ≤ b.dst) (q : Segment) :
    (m.segments.filterMap q.clip).Pairwise fun a b => a.sharesPosition b = false :=
  h.filterMap q.clip fun _ _ hab _ ha _ hb => clip_apart hab ha hb

theorem Ordered.searchable (h : m.Ordered) : m.Searchable where
  sorted := h.ordered.imp_of_mem fun {a b} ha _ hab => by
    have := h.pos a ha
    simp only [Segment.le, Bool.or_eq_true, decide_eq_true_eq]
    exact Or.inl (by omega)
  srcFits := h.srcFits
  dstFits := h.dstFits
  disjoint := fun _ => h.ordered

/-- A map of segments that follow one another answers a range lookup within offsets with its parts
inside the range, never ambiguously. -/
theorem Ordered.rangeToBody_eq (h : m.Ordered) {q : Segment} (hq : q.src + q.len ≤ maxOffset)
    (hqd : q.dst + q.len ≤ maxOffset) :
    m.rangeToBody q = .ok (if m.segments.filterMap q.clip = [] then .unmapped
      else .mapped (m.segments.filterMap q.clip)) := by
  rw [h.searchable.rangeToBody_eq hq hqd, fragmentOutcome_of_pairwise (clips_apart h.ordered q)]

end OffsetMap

namespace Session

variable {α β : Type} {w : Workspace}

theorem run_flatMapM_keeps {f : α → OptionT Session (List β)} :
    ∀ {l : List α}, (∀ x ∈ l, ∃ o, (f x).run.run.run w = (.ok o, w)) →
      ∃ o, (l.flatMapM f).run.run.run w = (.ok o, w)
  | [], _ => ⟨some [], rfl⟩
  | x :: l, h => by
    obtain ⟨o, ho⟩ := h x List.mem_cons_self
    obtain ⟨o', ho'⟩ := run_flatMapM_keeps fun y hy => h y (List.mem_cons_of_mem x hy)
    have hcons := run_flatMapM_cons_bind f x l pure
    rw [bind_pure] at hcons
    rw [hcons, run_bind_of_ok ho]
    cases o with
    | none => exact ⟨none, rfl⟩
    | some a => exact ⟨o'.map (a ++ ·), by dsimp only; rw [run_bind_of_ok ho']; rfl⟩

/-- A flat map of lookups that each answer and leave the workspace as it is answers, leaves it,
and holds every part's answer. -/
theorem run_flatMapM_some {f : α → OptionT Session (List β)} :
    ∀ {l : List α}, (∀ x ∈ l, ∃ r, (f x).run.run.run w = (.ok (some r), w)) →
      ∃ rs, (l.flatMapM f).run.run.run w = (.ok (some rs), w) ∧
        ∀ x ∈ l, ∀ r, (f x).run.run.run w = (.ok (some r), w) → ∀ y ∈ r, y ∈ rs
  | [], _ => ⟨[], rfl, by simp⟩
  | x :: l, h => by
    obtain ⟨r, hr⟩ := h x List.mem_cons_self
    obtain ⟨rs, hrs, hmem⟩ := run_flatMapM_some fun y hy => h y (List.mem_cons_of_mem x hy)
    have hcons := run_flatMapM_cons_bind f x l pure
    rw [bind_pure] at hcons
    refine ⟨r ++ rs, by rw [hcons, run_bind_of_ok hr]; dsimp only; rw [run_bind_of_ok hrs]; rfl, ?_⟩
    intro x' hx' r' hr' y hy
    rcases List.mem_cons.1 hx' with rfl | hx'
    · rw [hr, Prod.mk.injEq, Except.ok.injEq, Option.some.injEq] at hr'
      exact List.mem_append_left _ (hr'.1 ▸ hy)
    · exact List.mem_append_right _ (hmem x' hx' r' hr' y hy)

theorem run_filterMapM_keeps {f : α → Session (Option β)} :
    ∀ {l : List α}, (∀ x ∈ l, ∃ r, (f x).run.run w = (.ok r, w)) →
      ∃ bs, (l.filterMapM f).run.run w = (.ok bs, w) ∧
        ∀ x ∈ l, ∀ b, (f x).run.run w = (.ok (some b), w) → b ∈ bs
  | [], _ => ⟨[], rfl, by simp⟩
  | x :: l, h => by
    obtain ⟨r, hr⟩ := h x List.mem_cons_self
    obtain ⟨bs, hbs, hmem⟩ := run_filterMapM_keeps fun y hy => h y (List.mem_cons_of_mem x hy)
    have hrest : ∀ x' ∈ l, ∀ b, (f x').run.run w = (.ok (some b), w) → b ∈ r.toList ++ bs :=
      fun x' hx' b hb => List.mem_append_right _ (hmem x' hx' b hb)
    refine ⟨r.toList ++ bs, ?_, ?_⟩
    · rw [List.filterMapM_cons, run_bind_of_ok hr]
      cases r with
      | none => exact hbs
      | some b =>
        dsimp only
        rw [run_bind_of_ok hbs]
        rfl
    · intro x' hx' b hb
      rcases List.mem_cons.1 hx' with rfl | hx'
      · rw [hr, Prod.mk.injEq, Except.ok.injEq] at hb
        simp [← hb.1]
      · exact hrest x' hx' b hb

end Session

namespace Workspace

variable {w : Workspace} {a b t : FileElement} {c : MacroCall} {e : Expansion} {k : Nat}

/-- A file placed at a base offset, with its text ending within offsets there. -/
structure Placed (w : Workspace) (f : FileId) (base : Nat) : Prop where
  fileBase : w.FileBase f base
  fits : ∀ text, w.text? f = some text → base + text.utf8ByteSize ≤ maxOffset

theorem Placed.elem_fits (hw : w.Coherent) {base : Nat} (hp : w.Placed a.file base)
    (ha : a.Genuine w) : a.elem.start + a.elem.green.width + base ≤ maxOffset := by
  obtain ⟨text, htext, hsp, -⟩ := ha.spells hw
  have hstop := (hsp.spans ha.2).stop_le
  rw [← utf8ByteSize_eq_bytesOf] at hstop
  have := hp.fits text htext
  simp only [Element.range] at hstop
  omega

theorem Placed.body_fits (hw : w.Coherent) {base : Nat} (hp : w.Placed c.file base)
    (hc : c.Genuine w) {lb : TextRange} (hlb : c.localBodyRange? = some lb) :
    lb.stop + base ≤ maxOffset := by
  obtain ⟨text, htext, hsp, -⟩ := hc.spells hw
  obtain ⟨piece, hspan⟩ := MacroCall.localBodyRange_spans hsp hc.1.2 hlb
  have hstop := hspan.stop_le
  rw [← utf8ByteSize_eq_bytesOf] at hstop
  have := hp.fits text htext
  omega

theorem CopyStep.faithful (hw : w.Coherent) (h : w.CopyStep a b c e) : w.Faithful c e :=
  hw.cached _ e h.stored c h.call_genuine rfl

theorem CopyStep.placed (hw : w.Coherent) (h : w.CopyStep a b c e) : w.Placed b.file e.base :=
  ⟨.inr ⟨c, e, h.file ▸ h.origin, h.stored, rfl⟩,
    fun _ ht => ((h.faithful hw).base_fits (h.file ▸ ht)).le⟩

theorem CopyStep.copy_width_pos (hw : w.Coherent) (h : w.CopyStep a b c e) :
    0 < b.elem.green.width := by
  obtain ⟨-, -, -, -, -, u, hu, hh, -⟩ := h.body
  obtain ⟨-, text, -, -, -, htext, -, -, hdst, -⟩ :=
    ((h.faithful hw).mapsBody hw h.call_genuine).copies u hu
  obtain ⟨text', htext', hsp, -⟩ := h.genuine.spells hw
  rw [h.file, htext, Option.some.injEq] at htext'
  subst htext'
  simp only [OffsetMap.Holds] at hh
  exact hsp.width_pos_of_lt h.genuine.2 h.token (by omega)

theorem Copied.pos (h : w.Copied t b k) : 0 < k := by
  cases h <;> omega

theorem Copied.placed (hw : w.Coherent) (h : w.Copied t b k) : ∃ base, w.Placed b.file base := by
  obtain ⟨a, c, e, hs⟩ := h.last_step
  exact ⟨e.base, hs.placed hw⟩

theorem Copied.genuine (h : w.Copied t b k) : b.Genuine w := by
  obtain ⟨a, c, e, hs⟩ := h.last_step
  exact hs.genuine

/-- One level of copying: `b` is a copy of `a` made by the call holding `a`. -/
def CopiesTo (w : Workspace) (a b : FileElement) : Prop := ∃ c e, w.CopyStep a b c e

/-- A copy of `t` starts from one of `t`'s first copies and follows copy steps from there. -/
theorem Copied.reach (h : w.Copied t b k) :
    ∃ a, w.CopiesTo t a ∧ Relation.ReflTransGen w.CopiesTo a b := by
  induction h with
  | first hs => exact ⟨_, ⟨_, _, hs⟩, .refl⟩
  | next _ hs ih =>
    obtain ⟨a, ha, hr⟩ := ih
    exact ⟨a, ha, hr.tail ⟨_, _, hs⟩⟩

/-- The copies of `t` are settled within `n` levels: the call holding any copy of `t` has its
expansion stored, and none holding a copy `n` or more levels below `t` expanded to anything. -/
def CopiesSettled (w : Workspace) (t : FileElement) (n : Nat) : Prop :=
  ∀ u k c, w.Copied t u k → Session.callHolding u = some c →
    ∃ r, w.expansions c.key = some r ∧ (n ≤ k → r = none)

/-- A copy of a settled token whose call expanded to something lies below the depth limit, when
the copies are settled within the limit, or within one level. -/
theorem CopiesSettled.lt_limit {n limit : Nat} (hs : w.CopiesSettled t n) (hn : n ≤ max limit 1)
    {u : FileElement} (hu : w.Copied t u k) (hc : Session.callHolding u = some c)
    (he : w.expansions c.key = some (some e)) : k < limit := by
  obtain ⟨r, hr, hlim⟩ := hs u k c hu hc
  rw [he, Option.some.injEq] at hr
  have hk : k < n := Nat.lt_of_not_le fun hk => by
    rw [hlim hk] at hr
    cases hr
  have := hu.pos
  omega

end Workspace

/-- The parts of a query at a call's expansion, moved into the call's body: what one level of the
range lookup passes on. -/
def Expansion.bodyFragments (e : Expansion) (body : TextRange) (q : Segment) : List Segment :=
  match q.shiftLeft? e.base with
  | none => []
  | some loc => (e.map.segments.filterMap loc.clip).filterMap (Segment.fromBodyRelative? · body)

namespace Expansion

variable {w : Workspace} {c : MacroCall} {e : Expansion} {body : TextRange} {q : Segment}

theorem bodyFragments_fit (hw : w.Coherent) (hc : c.Genuine w) (hf : w.Faithful c e)
    {lb : TextRange} (hlb : c.localBodyRange? = some lb) (hlen : body.len = lb.len)
    (hstop : body.stop ≤ maxOffset) :
    ∀ f ∈ e.bodyFragments body q, f.src + f.len ≤ maxOffset ∧ f.dst + f.len ≤ q.dst + q.len := by
  intro f hf'
  unfold bodyFragments at hf'
  split at hf'
  · cases hf'
  · rename_i loc hloc
    obtain ⟨f₀, hf₀, hrel⟩ := List.mem_filterMap.1 hf'
    obtain ⟨u, hu, hclip⟩ := List.mem_filterMap.1 hf₀
    obtain ⟨rfl, -⟩ := Segment.fromBodyRelative?_eq_some hrel
    have hsrc := hf.src_le_len hw hc hlb u hu
    have hin := OffsetMap.clip_src_within hclip
    have hdst := (Segment.clip_within hclip).2
    have hq : loc.dst = q.dst ∧ loc.len = q.len := by
      simp only [Segment.shiftLeft?, Option.map_eq_some_iff] at hloc
      obtain ⟨_, -, rfl⟩ := hloc
      exact ⟨rfl, rfl⟩
    have := body.le
    simp only [TextRange.len] at hlen hsrc
    dsimp only
    omega

/-- The part of a query that holds a copied offset at its start is among the fragments, moved to
the place in the body the offset was copied from. -/
theorem mem_bodyFragments (body : TextRange) {u : Segment} (hu : u ∈ e.map.segments) {x : Nat}
    (hh : OffsetMap.Holds u x) (hq : q.src = x + e.base) (hpos : 0 < q.len)
    (hin : body.start + u.src + (x - u.dst) ≤ body.stop) (hstop : body.stop ≤ maxOffset) :
    ∃ f ∈ e.bodyFragments body q, f.src = body.start + u.src + (x - u.dst) ∧ 0 < f.len := by
  simp only [OffsetMap.Holds] at hh
  have hloc : q.shiftLeft? e.base = some { q with src := x } := by
    simp only [Segment.shiftLeft?, Option.map_eq_some_iff, Offset.sub?_eq_some_iff]
    exact ⟨x, ⟨by omega, by omega⟩, rfl⟩
  have hclip : Segment.clip { q with src := x } u = some ⟨u.src + (x - u.dst), q.dst,
      min (u.dst + u.len) (x + q.len) - x⟩ := by
    unfold Segment.clip
    rw [if_neg (by dsimp only; omega)]
    dsimp only
    rw [if_pos (by omega)]
    congr 2 <;> omega
  have hrel : Segment.fromBodyRelative? ⟨u.src + (x - u.dst), q.dst,
      min (u.dst + u.len) (x + q.len) - x⟩ body = some ⟨body.start + u.src + (x - u.dst), q.dst,
        min (u.dst + u.len) (x + q.len) - x⟩ := by
    have hadd : Offset.add? (u.src + (x - u.dst)) body.start =
        some (body.start + u.src + (x - u.dst)) := Offset.add?_eq_some_iff.2 ⟨by omega, by omega⟩
    simp only [Segment.fromBodyRelative?, Segment.shiftRight?, hadd, Option.map_some,
      Option.filter_eq_some_iff, decide_eq_true_eq]
    exact ⟨trivial, hin⟩
  refine ⟨⟨body.start + u.src + (x - u.dst), q.dst, min (u.dst + u.len) (x + q.len) - x⟩, ?_, rfl,
    show 0 < min (u.dst + u.len) (x + q.len) - x by omega⟩
  unfold bodyFragments
  rw [hloc]
  exact List.mem_filterMap.2 ⟨_, List.mem_filterMap.2 ⟨u, hu, hclip⟩, hrel⟩

end Expansion

namespace Workspace

variable {w : Workspace} {a b : FileElement} {c : MacroCall} {e : Expansion}

theorem CopyStep.expansionCall_copy (h : w.CopyStep a b c e) : w.expansionCall b.file = some c := by
  rw [h.file]
  exact h.origin

/-- A copy step is one level of the range trace: the map of its call is ordered, the call's body is
found without a fault, the fragments of every query lie within offsets, and a query starting at
the copy holds a fragment starting at the token copied. -/
theorem CopyStep.traceLevel (hw : w.Coherent) (hnone : w.mapOverride = none)
    (h : w.CopyStep a b c e) : ∃ body base, e.map.Ordered ∧
      (Session.bodyTextRange c).run.run w = (.ok (some body), w) ∧ w.FileBase a.file base ∧
      (∀ q, ∀ f ∈ e.bodyFragments body q,
        f.src + f.len ≤ maxOffset ∧ f.dst + f.len ≤ q.dst + q.len) ∧
      ∀ q : Segment, q.src = b.elem.start + e.base → 0 < q.len →
        ∃ f ∈ e.bodyFragments body q, f.src = a.elem.start + base ∧ 0 < f.len := by
  obtain ⟨lb, base, hlb, hfb, hfit, u, hu, hh, hst⟩ := h.body
  have hf := h.faithful hw
  have hcg := h.call_genuine
  have hsrc := hf.src_le_len hw hcg hlb u hu
  have := lb.le
  refine ⟨⟨lb.start + base, lb.stop + base, Nat.add_le_add_right lb.le base⟩, base,
    hf.ordered hw hcg hlb (by omega),
    Session.bodyTextRange_run hnone hlb (h.call_file ▸ hfb) hfit, hfb,
    fun q => Expansion.bodyFragments_fit hw hcg hf hlb (by simp only [TextRange.len]; omega) hfit,
    fun q hq hpos => ?_⟩
  simp only [OffsetMap.Holds] at hh
  simp only [TextRange.len] at hsrc
  obtain ⟨f, hf', hfs, hlen⟩ := Expansion.mem_bodyFragments
    ⟨lb.start + base, lb.stop + base, Nat.add_le_add_right lb.le base⟩ hu hh hq hpos
    (by dsimp only; omega) hfit
  exact ⟨f, hf', by rw [hfs]; dsimp only; omega, hlen⟩

end Workspace

namespace Session

variable {w : Workspace} {a b t : FileElement} {c : MacroCall} {e : Expansion}

theorem tokenStartingAt_run_keeps (hnone : w.mapOverride = none) {f : FileId} {base : Nat}
    (hfb : w.FileBase f base) (o : Nat) : ∃ r, (tokenStartingAt f o).run.run w = (.ok r, w) := by
  unfold tokenStartingAt
  rw [run_bind_of_ok (fileStartOffset_run hnone hfb)]
  simp only
  cases Offset.sub? o base with
  | none => exact ⟨none, rfl⟩
  | some loc =>
    simp only [run_bind, run_tree?]
    cases w.tree? f with
    | none => exact ⟨none, rfl⟩
    | some root =>
      simp only
      split
      · exact ⟨none, rfl⟩
      · cases root.tokenAt loc <;> exact ⟨_, rfl⟩

theorem directCopies_run_of_free (h : callHolding a = none) :
    (directCopies a).run.run w = (.ok none, w) := by
  unfold directCopies
  rw [h]
  rfl

theorem directCopies_run_of_failed (hnone : w.mapOverride = none) (hc : callHolding a = some c)
    (hs : w.expansions c.key = some none) : (directCopies a).run.run w = (.ok none, w) := by
  unfold directCopies
  rw [hc]
  rw [run_bind_of_ok (expansion_run_of_known hs hnone)]
  rfl

/-- The direct copies of a token whose call has its expansion stored are read without a fault
or a change to the workspace, and hold every copy a copy step makes of the token. -/
theorem directCopies_run_of_stored (hw : w.Coherent) (hnone : w.mapOverride = none)
    (ha : a.Genuine w) {base : Nat} (hp : w.Placed a.file base) (hc : callHolding a = some c)
    (hs : w.expansions c.key = some (some e)) :
    ∃ r, (directCopies a).run.run w = (.ok r, w) ∧
      ∀ b c' e', w.CopyStep a b c' e' → ∃ bs, r = some bs ∧ b ∈ bs := by
  have hcg := callHolding_genuine ha hc
  obtain ⟨hcf, -, hkind⟩ := callHolding_spec hc
  have hf : w.Faithful c e := hw.cached _ e hs c hcg rfl
  have hpc : w.Placed c.file base := hcf ▸ hp
  have hefb : w.FileBase e.file e.base :=
    .inr ⟨c, e, hw.expansionCall_of_faithful hcg hkind hf, hs, rfl⟩
  have hsame : ∀ b c' e', w.CopyStep a b c' e' → c' = c ∧ e' = e := fun b c' e' h => by
    obtain rfl : c' = c := Option.some.inj (h.holding.symm.trans hc)
    exact ⟨rfl, Option.some.inj (Option.some.inj (h.stored.symm.trans hs))⟩
  unfold directCopies
  rw [hc, run_bind_of_ok (expansion_run_of_stored hs hnone),
    run_bind_of_ok (elementStart_run hnone hp.fileBase (hp.elem_fits hw ha))]
  cases hlb : c.localBodyRange? with
  | none =>
    have hbody : (bodyTextRange c).run.run w = (.ok none, w) := by
      unfold bodyTextRange
      rw [hlb]
      rfl
    have hrel : (toBodyRelative c (a.elem.start + base)).run.run w = (.ok none, w) := by
      unfold toBodyRelative
      rw [run_bind_of_ok hbody]
      rfl
    have hoff : (offsetToExpansion c e (a.elem.start + base)).run.run w = (.ok none, w) := by
      unfold offsetToExpansion
      rw [run_bind_of_ok hrel]
      rfl
    refine ⟨none, by rw [run_bind_of_ok hoff]; rfl, fun b c' e' h => ?_⟩
    obtain ⟨rfl, rfl⟩ := hsame b c' e' h
    obtain ⟨lb, -, hlb', -⟩ := h.body
    rw [hlb] at hlb'
    cases hlb'
  | some lb =>
    have hbfit := hpc.body_fits hw hcg hlb
    obtain ⟨body, hbody, hstart, hstop⟩ : ∃ body, (bodyTextRange c).run.run w =
        (.ok (some body), w) ∧ body.start = lb.start + base ∧ body.stop = lb.stop + base :=
      ⟨_, bodyTextRange_run hnone hlb hpc.fileBase hbfit, rfl, rfl⟩
    have hord := hf.ordered hw hcg hlb (by omega)
    rw [run_bind_of_ok (offsetToExpansion_run hord hbody (hf.dst_fits hw hcg) _)]
    obtain ⟨bs, hbs, hmem⟩ := run_filterMapM_keeps (l := (e.map.segments.filterMap fun u =>
      if u.src ≤ a.elem.start + base - body.start ∧
        a.elem.start + base - body.start < u.src + u.len then
        some (u.dst + (a.elem.start + base - body.start - u.src)) else none).map (· + e.base))
      (f := fun o => tokenStartingAt e.file o) fun o _ => tokenStartingAt_run_keeps hnone hefb o
    have hcopy : ∀ b c' e', w.CopyStep a b c' e' → lb.start ≤ a.elem.start ∧
        a.elem.start < lb.stop ∧ ∃ u ∈ e.map.segments, OffsetMap.Holds u b.elem.start ∧
          a.elem.start = lb.start + u.src + (b.elem.start - u.dst) := fun b c' e' h => by
      obtain ⟨rfl, rfl⟩ := hsame b c' e' h
      obtain ⟨lb', base', hlb', -, -, u, hu, hh, hst⟩ := h.body
      rw [hlb, Option.some.injEq] at hlb'
      subst hlb'
      have hsrc := hf.src_le_len hw hcg hlb u hu
      have := lb.le
      simp only [OffsetMap.Holds, TextRange.len] at hh hsrc
      exact ⟨by omega, by omega, u, hu, hh, hst⟩
    by_cases hin : body.contains (a.elem.start + base) = true
    · rw [if_pos hin]
      refine ⟨some bs, by rw [run_bind_of_ok hbs]; rfl, fun b c' e' h => ⟨bs, rfl, ?_⟩⟩
      obtain ⟨rfl, rfl⟩ := hsame b c' e' h
      obtain ⟨-, -, u, hu, hh, hst⟩ := hcopy b c' e' h
      refine hmem _ (List.mem_map.2 ⟨b.elem.start, List.mem_filterMap.2 ⟨u, hu, ?_⟩, rfl⟩) b ?_
      · simp only [OffsetMap.Holds] at hh
        rw [if_pos (by omega)]
        congr 1
        omega
      · rw [← h.file]
        exact tokenStartingAt_run_of_token hnone h.genuine h.token (h.copy_width_pos hw)
          (h.file ▸ hefb)
    · rw [if_neg hin]
      refine ⟨none, rfl, fun b c' e' h => ?_⟩
      obtain ⟨h₁, h₂, -⟩ := hcopy b c' e' h
      simp only [TextRange.contains, Bool.and_eq_true, decide_eq_true_eq] at hin
      omega

theorem directCopies_copiesTo (hw : w.Coherent) (hnone : w.mapOverride = none) (ha : a.Genuine w)
    {copies : List FileElement} (h : (directCopies a).run.run w = (.ok (some copies), w)) :
    ∀ v ∈ copies, w.CopiesTo a v := by
  have hQ := (directCopies_copies hnone ha hw).2.2 (some copies)
  rw [h] at hQ
  exact hQ rfl copies rfl

theorem copyTrace_run_of_final {limit k : Nat} (h : (directCopies a).run.run w = (.ok none, w)) :
    (copyTrace limit a k).run.run.run w = (.ok (some [a]), w) := by
  have hrun := copyTrace_run_bind limit a k pure
  rw [bind_pure] at hrun
  rw [hrun, run_bind_of_ok h]
  rfl

theorem copyTrace_run_of_copies {limit k : Nat} {copies : List FileElement}
    (h : (directCopies a).run.run w = (.ok (some copies), w)) (hk : k < limit) :
    (copyTrace limit a k).run.run.run w =
      (copies.flatMapM fun v => copyTrace limit v (k + 1)).run.run.run w := by
  have hrun := copyTrace_run_bind limit a k pure
  rw [bind_pure] at hrun
  rw [hrun, run_bind_of_ok h]
  simp only [Nat.not_le.2 hk, if_false, bind_pure]

section Settled

variable {n limit : Nat} (hw : w.Coherent) (hnone : w.mapOverride = none)
  (hs : w.CopiesSettled t n) (hn : n ≤ max limit 1)
include hw hnone hs hn

/-- Each copy of a settled token has no copies of its own, or copies that lie one level deeper,
below the depth limit. -/
theorem directCopies_run_of_settled {u : FileElement} {k : Nat} (hu : w.Copied t u k) :
    (directCopies u).run.run w = (.ok none, w) ∨ k < limit ∧ ∃ copies,
      (directCopies u).run.run w = (.ok (some copies), w) ∧ ∀ v ∈ copies, w.Copied t v (k + 1) := by
  cases hc : callHolding u with
  | none => exact .inl (directCopies_run_of_free hc)
  | some c =>
    obtain ⟨r, hr, -⟩ := hs u k c hu hc
    cases r with
    | none => exact .inl (directCopies_run_of_failed hnone hc hr)
    | some e =>
      obtain ⟨base, hp⟩ := hu.placed hw
      obtain ⟨r', hrun, -⟩ := directCopies_run_of_stored hw hnone hu.genuine hp hc hr
      cases r' with
      | none => exact .inl hrun
      | some copies =>
        refine .inr ⟨hs.lt_limit hn hu hc hr, copies, hrun, fun v hv => ?_⟩
        obtain ⟨c', e', hstep⟩ := directCopies_copiesTo hw hnone hu.genuine hrun v hv
        exact hu.next hstep

/-- Following a copy of a settled token forward answers without a fault or a change to the
workspace. -/
theorem copyTrace_run_of_settled {u : FileElement} {k : Nat} (hu : w.Copied t u k) :
    ∃ us, (copyTrace limit u k).run.run.run w = (.ok (some us), w) := by
  rcases directCopies_run_of_settled hw hnone hs hn hu with hfin | ⟨hk, copies, hrun, hcop⟩
  · exact ⟨[u], copyTrace_run_of_final hfin⟩
  · rw [copyTrace_run_of_copies hrun hk]
    obtain ⟨us, hus, -⟩ := run_flatMapM_some fun v hv => copyTrace_run_of_settled (hcop v hv)
    exact ⟨us, hus⟩
termination_by limit - k

/-- Following a copy of a settled token forward reaches every copy of it that no call holds. -/
theorem copyTrace_reaches {t' : FileElement} (hfinal : callHolding t' = none) {u : FileElement}
    (hr : Relation.ReflTransGen w.CopiesTo u t') :
    ∀ {k}, w.Copied t u k → ∃ us, (copyTrace limit u k).run.run.run w = (.ok (some us), w) ∧ t' ∈ us := by
  induction hr using Relation.ReflTransGen.head_induction_on with
  | refl =>
    intro k _
    exact ⟨[t'], copyTrace_run_of_final (directCopies_run_of_free hfinal), List.mem_singleton_self _⟩
  | @head u x hstep _ ih =>
    intro k hu
    obtain ⟨c, e, hcs⟩ := hstep
    obtain ⟨base, hp⟩ := hu.placed hw
    obtain ⟨r, hrun, hall⟩ := directCopies_run_of_stored hw hnone hu.genuine hp hcs.holding hcs.stored
    obtain ⟨copies, rfl, hx⟩ := hall x c e hcs
    rw [copyTrace_run_of_copies hrun (hs.lt_limit hn hu hcs.holding hcs.stored)]
    obtain ⟨us, hus, hmem⟩ := run_flatMapM_some fun v hv => copyTrace_run_of_settled hw hnone hs hn
      (by obtain ⟨c', e', h'⟩ := directCopies_copiesTo hw hnone hu.genuine hrun v hv; exact hu.next h')
    obtain ⟨ux, hux, ht'⟩ := ih (hu.next hcs)
    exact ⟨us, hus, hmem x hx ux hux t' ht'⟩

end Settled

/-! ### The range trace along a copy chain -/

theorem run_mapM_srcRange : ∀ (l : List Segment), (∀ f ∈ l, f.src + f.len ≤ maxOffset) →
    (l.mapM fun f => lift f.srcRange).run.run w = (.ok (l.map Segment.srcSpan), w)
  | [], _ => rfl
  | f :: l, h => by
    rw [List.mapM_cons, run_bind_of_ok (by rw [run_lift, OffsetMap.srcRange_eq (h f List.mem_cons_self)]),
      run_bind_of_ok (run_mapM_srcRange l fun g hg => h g (List.mem_cons_of_mem f hg))]
    rfl

theorem traceRange_run_past {limit d : Nat} (hd : limit < d) (q : Segment) :
    (traceRange limit c q d).run.run.run w = (.ok none, w) := by
  rw [traceRange, if_pos hd]
  rfl

/-- One level of the range trace at a call whose expansion is stored and whose body is found:
the query's fragments in the body are answered as source ranges when the call's file is no
expansion, and are otherwise traced through the enclosing call, one level deeper. -/
theorem traceRange_run_level {limit d : Nat} (hd : ¬ limit < d) (hnone : w.mapOverride = none)
    (hs : w.expansions c.key = some (some e)) (hord : e.map.Ordered) {body : TextRange}
    (hbody : (bodyTextRange c).run.run w = (.ok (some body), w)) {q : Segment}
    (hq : q.src + q.len ≤ maxOffset) (hqd : q.dst + q.len ≤ maxOffset) :
    (traceRange limit c q d).run.run.run w =
      ((do
        match ← OptionT.lift (expansionCall c.file) with
        | none => OptionT.lift ((e.bodyFragments body q).mapM fun f => lift f.srcRange)
        | some parent => (e.bodyFragments body q).flatMapM (traceRange limit parent · (d + 1))) :
        OptionT Session (List TextRange)).run.run.run w := by
  rw [traceRange, if_neg hd]
  simp only [OptionT.run_bind_lift]
  rw [run_bind_of_ok (expansion_run_of_stored hs hnone)]
  simp only
  unfold Expansion.bodyFragments
  cases hloc : q.shiftLeft? e.base with
  | none =>
    rw [run_bind_of_ok (run_expansionCall c.file)]
    cases w.expansionCall c.file <;> rfl
  | some loc =>
    obtain ⟨hle, rfl⟩ : e.base ≤ q.src ∧ loc = { q with src := q.src - e.base } := by
      simp only [Segment.shiftLeft?, Option.map_eq_some_iff, Offset.sub?_eq_some_iff] at hloc
      obtain ⟨src, ⟨h₁, rfl⟩, rfl⟩ := hloc
      exact ⟨h₁, rfl⟩
    simp only
    rw [hord.rangeToBody_eq (by dsimp only; omega) (by dsimp only; omega)]
    by_cases hclips : e.map.segments.filterMap (Segment.clip { q with src := q.src - e.base }) = []
    · rw [if_pos hclips, hclips, List.filterMap_nil, run_bind_of_ok (run_expansionCall c.file)]
      cases w.expansionCall c.file <;> rfl
    · rw [if_neg hclips]
      simp only [lift_ok, OptionT.run_bind_lift]
      rw [run_bind_of_ok run_pure]
      simp only [OptionT.run_bind_lift]
      rw [run_bind_of_ok hbody]
      rfl

section Level

variable {limit d : Nat} (hd : ¬ limit < d) (hnone : w.mapOverride = none)
  (hs : w.expansions c.key = some (some e)) (hord : e.map.Ordered) {body : TextRange}
  (hbody : (bodyTextRange c).run.run w = (.ok (some body), w)) {q : Segment}
  (hq : q.src + q.len ≤ maxOffset) (hqd : q.dst + q.len ≤ maxOffset)
include hd hnone hs hord hbody hq hqd

theorem traceRange_run_top (htop : w.expansionCall c.file = none)
    (hfits : ∀ f ∈ e.bodyFragments body q, f.src + f.len ≤ maxOffset) :
    (traceRange limit c q d).run.run.run w =
      (.ok (some ((e.bodyFragments body q).map Segment.srcSpan)), w) := by
  rw [traceRange_run_level hd hnone hs hord hbody hq hqd]
  simp only [OptionT.run_bind_lift]
  rw [run_bind_of_ok (run_expansionCall c.file), htop]
  simp only [OptionT.run_lift]
  rw [run_bind_of_ok (run_mapM_srcRange _ hfits)]
  rfl

theorem traceRange_run_up {p : MacroCall} (hp : w.expansionCall c.file = some p) :
    (traceRange limit c q d).run.run.run w =
      ((e.bodyFragments body q).flatMapM fun f => traceRange limit p f (d + 1)).run.run.run w := by
  rw [traceRange_run_level hd hnone hs hord hbody hq hqd]
  simp only [OptionT.run_bind_lift]
  rw [run_bind_of_ok (run_expansionCall c.file), hp]

end Level

/-- The range trace at the call of a copy of `t` runs without a fault and leaves the workspace,
for every query within offsets; it answers when the copy lies within the levels left. -/
theorem traceRange_run_of_copied (hw : w.Coherent) (hnone : w.mapOverride = none)
    (hsrc : w.expansionCall t.file = none) (limit : Nat) {k : Nat} (h : w.Copied t b k) :
    ∀ {c : MacroCall}, w.expansionCall b.file = some c → ∀ (q : Segment) (d : Nat),
      q.src + q.len ≤ maxOffset → q.dst + q.len ≤ maxOffset →
        ∃ o, (traceRange limit c q d).run.run.run w = (.ok o, w) ∧
          (d + k ≤ limit + 1 → o.isSome) := by
  induction h with
  | @first b c₀ e₀ hs =>
    intro c hc q d hq hqd
    obtain rfl : c = c₀ := Option.some.inj (hc.symm.trans hs.expansionCall_copy)
    by_cases hd : limit < d
    · exact ⟨none, traceRange_run_past hd q, by omega⟩
    obtain ⟨body, base, hord, hbody, -, hfits, -⟩ := hs.traceLevel hw hnone
    exact ⟨_, traceRange_run_top hd hnone hs.stored hord hbody hq hqd (hs.call_file ▸ hsrc)
      fun f hf => (hfits q f hf).1, fun _ => rfl⟩
  | @next a b c₀ e₀ k ha hs ih =>
    intro c hc q d hq hqd
    obtain rfl : c = c₀ := Option.some.inj (hc.symm.trans hs.expansionCall_copy)
    by_cases hd : limit < d
    · exact ⟨none, traceRange_run_past hd q, by omega⟩
    obtain ⟨body, base, hord, hbody, -, hfits, -⟩ := hs.traceLevel hw hnone
    obtain ⟨a', p, ep, hlast⟩ := ha.last_step
    rw [traceRange_run_up hd hnone hs.stored hord hbody hq hqd
      (hs.call_file ▸ hlast.expansionCall_copy)]
    have hparts : ∀ f ∈ e₀.bodyFragments body q, ∃ o,
        (traceRange limit p f (d + 1)).run.run.run w = (.ok o, w) ∧
          (d + 1 + k ≤ limit + 1 → o.isSome) := fun f hf =>
      ih hlast.expansionCall_copy f (d + 1) (hfits q f hf).1 (by have := (hfits q f hf).2; omega)
    by_cases hk : d + (k + 1) ≤ limit + 1
    · obtain ⟨rs, hrs, -⟩ := run_flatMapM_some fun f hf => by
        obtain ⟨o, ho, hsome⟩ := hparts f hf
        obtain ⟨r, rfl⟩ := Option.isSome_iff_exists.1 (hsome (by omega))
        exact ⟨r, ho⟩
      exact ⟨some rs, hrs, fun _ => rfl⟩
    · obtain ⟨o, ho⟩ := run_flatMapM_keeps fun f hf => (hparts f hf).imp fun _ h => h.1
      exact ⟨o, ho, fun h => absurd h hk⟩

/-- Within the levels left, the range trace at the call of a copy of `t`, from a non-empty query
starting at the copy, answers a range: the fragment holding the copy's start reaches `t`'s file. -/
theorem traceRange_covers_copy (hw : w.Coherent) (hnone : w.mapOverride = none)
    (hsrc : w.expansionCall t.file = none) (limit : Nat) {k : Nat} (h : w.Copied t b k) :
    ∀ {c : MacroCall}, w.expansionCall b.file = some c → ∀ (q : Segment) (d : Nat) (base : Nat),
      w.FileBase b.file base → q.src = b.elem.start + base → 0 < q.len →
      q.src + q.len ≤ maxOffset → q.dst + q.len ≤ maxOffset → d + k ≤ limit + 1 →
        ∃ rs, (traceRange limit c q d).run.run.run w = (.ok (some rs), w) ∧ rs ≠ [] := by
  induction h with
  | @first b c₀ e₀ hs =>
    intro c hc q d base hfb hq hpos hqs hqd hk
    obtain rfl : c = c₀ := Option.some.inj (hc.symm.trans hs.expansionCall_copy)
    obtain rfl : base = e₀.base := hfb.unique (hs.placed hw).fileBase
    obtain ⟨body, base', hord, hbody, -, hfits, hcover⟩ := hs.traceLevel hw hnone
    obtain ⟨f, hf, -, -⟩ := hcover q hq hpos
    refine ⟨_, traceRange_run_top (by omega) hnone hs.stored hord hbody hqs hqd
      (hs.call_file ▸ hsrc) fun f hf => (hfits q f hf).1, ?_⟩
    exact List.ne_nil_of_mem (List.mem_map_of_mem hf)
  | @next a b c₀ e₀ k ha hs ih =>
    intro c hc q d base hfb hq hpos hqs hqd hk
    obtain rfl : c = c₀ := Option.some.inj (hc.symm.trans hs.expansionCall_copy)
    obtain rfl : base = e₀.base := hfb.unique (hs.placed hw).fileBase
    obtain ⟨body, base', hord, hbody, hfa, hfits, hcover⟩ := hs.traceLevel hw hnone
    obtain ⟨a', p, ep, hlast⟩ := ha.last_step
    rw [traceRange_run_up (by omega) hnone hs.stored hord hbody hqs hqd
      (hs.call_file ▸ hlast.expansionCall_copy)]
    obtain ⟨f, hf, hfs, hflen⟩ := hcover q hq hpos
    have hsome : ∀ g ∈ e₀.bodyFragments body q, ∃ r,
        (traceRange limit p g (d + 1)).run.run.run w = (.ok (some r), w) := fun g hg => by
      obtain ⟨o, ho, hs'⟩ := traceRange_run_of_copied hw hnone hsrc limit ha hlast.expansionCall_copy g
        (d + 1) (hfits q g hg).1 (by have := (hfits q g hg).2; omega)
      obtain ⟨r, rfl⟩ := Option.isSome_iff_exists.1 (hs' (by omega))
      exact ⟨r, ho⟩
    obtain ⟨rs, hrs, hmem⟩ := run_flatMapM_some hsome
    obtain ⟨rf, hrf, hne⟩ := ih hlast.expansionCall_copy f (d + 1) base' hfa hfs hflen
      (hfits q f hf).1 (by have := (hfits q f hf).2; omega) (by omega)
    obtain ⟨y, hy⟩ := List.exists_mem_of_ne_nil rf hne
    exact ⟨rs, hrs, List.ne_nil_of_mem (hmem f hf rf hrf y hy)⟩

/-- The range of a copy of `t`, mapped back through the call that made its file, is found without
a fault or a change to the workspace, and is non-empty when the copy lies within the limit. -/
theorem rangeToBody_run_of_copied (hw : w.Coherent) (hnone : w.mapOverride = none)
    (hsrc : w.expansionCall t.file = none) {k : Nat} (h : w.Copied t b k)
    (hc : w.expansionCall b.file = some c) : ∃ r rs, (elementRange b).run.run w = (.ok (some r), w) ∧
      (rangeToBody c r).run.run w = (.ok rs, w) ∧ (k ≤ w.maxDepth → rs ≠ []) := by
  obtain ⟨a, c', e, hs⟩ := h.last_step
  obtain rfl : c = c' := Option.some.inj (hc.symm.trans hs.expansionCall_copy)
  have hfb := (hs.placed hw).fileBase
  have hfit := hs.fits hw
  have hpos := hs.copy_width_pos hw
  -- the query is the whole range of the token, read at the base of its file
  let q : Segment := ⟨b.elem.start + e.base, b.elem.start + e.base,
    b.elem.start + b.elem.green.width + e.base - (b.elem.start + e.base)⟩
  have hq : q.src + q.len ≤ maxOffset := by dsimp only [q]; omega
  obtain ⟨o, ho, hsome⟩ := traceRange_run_of_copied hw hnone hsrc w.maxDepth h hc q 1 hq hq
  refine ⟨_, o.getD [], elementRange_run hnone hfb hfit, ?_, fun hk => ?_⟩
  · rw [rangeToBody_eq_traceRange, run_bind_of_ok run_maxDepth]
    simp only [TextRange.len]
    rw [run_bind_of_ok ho]
    rfl
  · obtain ⟨rs, hrs, hne⟩ := traceRange_covers_copy hw hnone hsrc w.maxDepth h hc q 1 e.base hfb rfl
      (show 0 < q.len by dsimp only [q]; omega) hq hq (by omega)
    rw [ho, Prod.mk.injEq, Except.ok.injEq] at hrs
    rw [hrs.1]
    exact hne

/-- Following a source token forward finds each of its copies that no call holds, once the copies
are settled within a number of levels that the limit admits, or that is one. -/
theorem expansionElements_reaches (hw : w.Coherent) (hnone : w.mapOverride = none)
    (ht : t.Genuine w) (hsrc : w.expansionCall t.file = none)
    (hfit : ∀ text, w.text? t.file = some text → text.utf8ByteSize ≤ maxOffset) {n : Nat}
    (hs : w.CopiesSettled t n) (hn : n ≤ max w.maxDepth 1) {t' : FileElement} {k : Nat}
    (hcop : w.Copied t t' k) (hfinal : callHolding t' = none) :
    ∃ ts, (expansionElements t).run.run w = (.ok (some ts), w) ∧ t' ∈ ts := by
  obtain ⟨u, ⟨c, e, hstep⟩, hr⟩ := hcop.reach
  have hp : w.Placed t.file 0 := ⟨.inl ⟨hsrc, rfl⟩, fun text ht => by simpa using hfit text ht⟩
  obtain ⟨r, hrun, hall⟩ := directCopies_run_of_stored hw hnone ht hp hstep.holding hstep.stored
  obtain ⟨first, rfl, hu⟩ := hall u c e hstep
  have hfirst : ∀ v ∈ first, w.Copied t v 1 := fun v hv => by
    obtain ⟨c', e', h'⟩ := directCopies_copiesTo hw hnone ht hrun v hv
    exact .first h'
  obtain ⟨ts, hts, hmem⟩ := run_flatMapM_some fun v hv =>
    copyTrace_run_of_settled hw hnone hs hn (hfirst v hv)
  obtain ⟨us, hus, ht'⟩ := copyTrace_reaches hw hnone hs hn hfinal hr (.first hstep)
  refine ⟨ts, ?_, hmem u hu us hus t' ht'⟩
  unfold expansionElements
  rw [run_bind_of_ok run_maxDepth, run_bind_of_ok hrun]
  exact (copyRounds_eq_copyTrace _ first w).trans hts

end Session

open Session in
/-- Along a chain of `n` nested expansions of function-like calls written at file level, above a
token `t` of a source file that no file includes and copied to `t'` in the innermost expansion,
with no context set, inherited or remembered on the chain: the depth of `t'`, the token it leads
back to and the crate of its file follow the chain exactly when `n` is within the limit; the range
of `t'`, mapped back through its call, reaches the source exactly when `n` is within the limit;
the context of a file-level node of its file is the source file's root exactly when `n` is at
most one more than the limit; and the forward lookup from `t` finds `t'` only when `n` is within
the limit, or is one, and does find it then once the copies of `t` are settled within `n` levels,
`t'` holds no call and the source text fits the offset range. -/
theorem depth_limit_along_expansions {w : Workspace} (hw : w.Coherent)
    (hnone : w.mapOverride = none) {t t' : FileElement} {n : Nat}
    (ht : t.Genuine w) (htok : t.isToken = true) (hinc : w.includedFrom t.file = none)
    (hcop : w.Copied t t' n)
    (hchain : w.CallChain (fun c => c.FileLevelFnLike ∧ w.overlay.Untouched c.file) t'.file n t.file)
    (hclear : w.overlay.Untouched t'.file) :
    (expansionDepth t').run.run w = (.ok (if n ≤ w.maxDepth then some n else none), w) ∧
    (elementExpandedFrom t' false).run.run w =
      (.ok (if n ≤ w.maxDepth then some t else none), w) ∧
    (crateOfFile t'.file).run.run w =
      (.ok (if n ≤ w.maxDepth then w.fileCrate t.file else none), w) ∧
    (∃ c r rs, w.expansionCall t'.file = some c ∧ (elementRange t').run.run w = (.ok (some r), w) ∧
      (rangeToBody c r).run.run w = (.ok rs, w) ∧ (rs ≠ [] ↔ n ≤ w.maxDepth)) ∧
    (∀ x : FileElement, x.file = t'.file → x.isFileLevel = true →
      ((getContext x .allowed).run.run w).1 =
        .ok (if n ≤ w.maxDepth + 1 then w.rootOf? t.file else x.parent?)) ∧
    (∀ ts w₁, (expansionElements t).run.run w = (.ok (some ts), w₁) → t' ∈ ts →
      n ≤ max w.maxDepth 1) ∧
    (n ≤ max w.maxDepth 1 → w.CopiesSettled t n → callHolding t' = none →
      (∀ text, w.text? t.file = some text → text.utf8ByteSize ≤ maxOffset) →
      ∃ ts, (expansionElements t).run.run w = (.ok (some ts), w) ∧ t' ∈ ts) := by
  have hsrc : w.expansionCall t.file = none := hchain.top_none
  have hcopies := hcop.callChain hsrc
  obtain ⟨a, c, e, hlast⟩ := hcop.last_step
  have ht' : t'.Genuine w := hlast.genuine
  have hcall := hlast.expansionCall_copy
  obtain ⟨m, rfl, -, hch⟩ := hcopies.of_call hcall
  refine ⟨expansionDepth_chain hw ht' hcopies, ?back, crateOfFile_chain (fun _ hc => hc.2) hchain
    hclear hinc, ?range, ?context, ?bounded, ?reaches⟩
  case back =>
    by_cases hk : m + 1 ≤ w.maxDepth
    · rw [if_pos hk]
      exact elementExpandedFrom_copied hw hnone hcop hk ht htok hsrc
    · rw [if_neg hk]
      exact elementExpandedFrom_past_limit hw hnone hcop (by omega) false
  case range =>
    obtain ⟨r, rs, hr, hrs, hne⟩ := rangeToBody_run_of_copied hw hnone hsrc hcop hcall
    refine ⟨c, r, rs, hcall, hr, hrs, fun hrs' => ?_, hne⟩
    -- past the limit the trace gives up at the source end and maps nothing
    by_contra hk
    exact hrs' ((rangeToBody_past_limit hw (Workspace.expansionCall_genuine hcall) hch
      (by omega) r hw).2.2 rs (by rw [hrs]))
  case context =>
    intro x hxf hlevel
    exact getContext_chain (fun _ hc => hc) hinc hlevel (hxf ▸ hclear) (hxf ▸ hchain)
      (Nat.succ_pos m)
  case bounded =>
    intro ts w₁ he hmem
    obtain ⟨-, hg, hpost⟩ := expansionElements_copied_le hnone ht hw
    rw [he] at hg hpost
    obtain ⟨k, hk, hcop₁⟩ := hpost (some ts) rfl ts rfl t' hmem
    obtain ⟨y, hy⟩ := Workspace.file?_of_tree? ht.1
    have htop : (w.file? t.file).isSome := by simp [hy]
    obtain ⟨rfl, -⟩ := (hcop₁.callChain ((hw.expansionCall_grows hg hy).trans hsrc)).unique
      (hcopies.mono hw hg htop)
    exact hk
  case reaches =>
    intro hn hs hfinal hfit
    exact expansionElements_reaches hw hnone ht hsrc hfit hs hn hcop hfinal

set_option maxRecDepth 2000 in
open Session in
/-- A token under two nested expansions, with a depth limit of two: the source file's `outer!(A);`
expands to `inner!(A);`, which expands to `struct A;`. -/
theorem nested_copy_within_depth_limit : ∃ (w : Workspace) (t t' : FileElement),
    w.Coherent ∧ w.mapOverride = none ∧ t.Genuine w ∧ t.isToken = true ∧
    w.includedFrom t.file = none ∧ w.Copied t t' 2 ∧
    w.CallChain (fun c => c.FileLevelFnLike ∧ w.overlay.Untouched c.file) t'.file 2 t.file ∧
    w.overlay.Untouched t'.file ∧ w.maxDepth = 2 ∧
    (expansionDepth t').run.run w = (.ok (if 2 ≤ w.maxDepth then some 2 else none), w) ∧
    (elementExpandedFrom t' false).run.run w =
      (.ok (if 2 ≤ w.maxDepth then some t else none), w) ∧
    (crateOfFile t'.file).run.run w =
      (.ok (if 2 ≤ w.maxDepth then w.fileCrate t.file else none), w) ∧
    (∃ c r rs, w.expansionCall t'.file = some c ∧ (elementRange t').run.run w = (.ok (some r), w) ∧
      (rangeToBody c r).run.run w = (.ok rs, w) ∧ (rs ≠ [] ↔ 2 ≤ w.maxDepth)) ∧
    (∀ x : FileElement, x.file = t'.file → x.isFileLevel = true →
      ((getContext x .allowed).run.run w).1 =
        .ok (if 2 ≤ w.maxDepth + 1 then w.rootOf? t.file else x.parent?)) ∧
    (∀ ts w₁, (expansionElements t).run.run w = (.ok (some ts), w₁) → t' ∈ ts →
      2 ≤ max w.maxDepth 1) ∧
    (2 ≤ max w.maxDepth 1 → w.CopiesSettled t 2 → callHolding t' = none →
      (∀ text, w.text? t.file = some text → text.utf8ByteSize ≤ maxOffset) →
      ∃ ts, (expansionElements t).run.run w = (.ok (some ts), w) ∧ t' ∈ ts) := by
  let w₀ : Workspace := ((Workspace.create
    [("outer", .template "$x" "inner!($x);"), ("inner", .template "$x" "struct $x;")]
    [⟨"lib.rs", "outer!(A);", 0⟩] 2 none).toOption.map (·.1)).getD {}
  have hw₀ : w₀.Reachable none := @Workspace.Reachable.create none
    [("outer", .template "$x" "inner!($x);"), ("inner", .template "$x" "struct $x;")]
    [⟨"lib.rs", "outer!(A);", 0⟩] 2 w₀ [0] rfl
  let root : Green := (w₀.tree? 0).getD default
  let tok : Element := (root.tokenAt 7).getD default
  have hroot : w₀.tree? 0 = some root :=
    (Option.getD_of_ne_none (Option.isSome_iff_ne_none.1 (by decide +kernel)) default).symm
  have htok : root.tokenAt 7 = some tok :=
    (Option.getD_of_ne_none (Option.isSome_iff_ne_none.1 (by decide +kernel)) default).symm
  let t : FileElement := ⟨0, root, tok⟩
  have ht₀ : t.Genuine w₀ := ⟨hroot, Green.tokenAt_mem htok⟩
  let X := (expansionElementsWithin 20 t).run.run w₀
  let ts : List FileElement := (X.1.toOption.bind id).getD []
  have hfwd : (X.1.toOption.bind id).isSome := by decide +kernel
  have hX : (expansionElements t).run.run w₀ = (.ok (some ts), X.2) :=
    run_expansionElements_of_within
      ((run_eq_of_isSome hfwd).trans (by rw [@Option.get_eq_getD _ [] _ hfwd]))
  have hlen : 0 < ts.length := by decide +kernel
  let t' : FileElement := ts.headD default
  have hmem : t' ∈ ts := by
    obtain ⟨a, l, h⟩ := List.exists_cons_of_length_pos hlen
    show ts.headD default ∈ ts
    rw [h]
    exact List.mem_cons_self
  obtain ⟨hw₁, hg₁, hpost⟩ := expansionElements_copied_le hw₀.mapOverride ht₀ hw₀.coherent
  rw [hX] at hw₁ hg₁ hpost
  obtain ⟨k, -, hcop₁⟩ := hpost (some ts) rfl ts rfl t' hmem
  have hw₁' : X.2.Coherent := hw₁
  let w : Workspace := { X.2 with overlay := {} }
  have hg : X.2.Grows w := Workspace.Grows.withOverlay X.2 {}
  have hw : w.Coherent := hw₁'.withOverlay {}
  have hg₀ : w₀.Grows w := (hg₁ : w₀.Grows X.2).trans hg
  have hcop : w.Copied t t' k := hcop₁.mono hw₁ hg
  let c₂ : MacroCall := (w.expansionCall t'.file).getD default
  let c₁ : MacroCall := (w.expansionCall c₂.file).getD default
  have h₂ : w.expansionCall t'.file = some c₂ :=
    (Option.getD_of_ne_none (Option.isSome_iff_ne_none.1 (by decide +kernel)) default).symm
  have h₁ : w.expansionCall c₂.file = some c₁ :=
    (Option.getD_of_ne_none (Option.isSome_iff_ne_none.1 (by decide +kernel)) default).symm
  have hc₁ : c₁.file = t.file := by decide +kernel
  have h₀ : w.expansionCall t.file = none := Option.isNone_iff_eq_none.1 (by decide +kernel)
  -- the overlay of the witness is empty, so no file on the chain has a context
  have hclear : ∀ f, w.overlay.Untouched f := fun _ => ⟨rfl, rfl, rfl⟩
  have hchain : w.CallChain (fun c => c.FileLevelFnLike ∧ w.overlay.Untouched c.file)
      t'.file 2 t.file :=
    .step h₂ ⟨⟨by decide +kernel, by decide +kernel⟩, hclear _⟩
      (.step h₁ ⟨⟨by decide +kernel, by decide +kernel⟩, hclear _⟩ (hc₁ ▸ .top (hc₁ ▸ h₀)))
  obtain ⟨rfl, -⟩ := (hcop.callChain h₀).unique hchain
  have hinc : w.includedFrom t.file = none := Option.isNone_iff_eq_none.1 (by decide +kernel)
  have hnone : w.mapOverride = none := hg₀.mapOverride.trans hw₀.mapOverride
  have htoken : t.isToken = true := by decide +kernel
  have ht : t.Genuine w := ht₀.mono hg₀
  exact ⟨w, t, t', hw, hnone, ht, htoken, hinc, hcop, hchain, hclear _, hg₀.maxDepth,
    depth_limit_along_expansions hw hnone ht htoken hinc hcop hchain (hclear _)⟩

open Session in
/-- With a depth limit of one, the root of the innermost of two nested expansions is past the
limit, yet its context is the source file's root: the climb passes one file more than the limit. -/
theorem context_climbs_past_depth_limit : ∃ w : Workspace, w.Reachable none ∧ w.maxDepth = 1 ∧
    (w.expansionCall 2).map (·.file) = some 1 ∧ (w.expansionCall 1).map (·.file) = some 0 ∧
    ∃ root, w.tree? 2 = some root ∧
      ((expansionDepth ⟨2, root, Element.root root⟩).run.run w).1 = .ok none ∧
      (((getContext ⟨2, root, Element.root root⟩ .allowed).run.run w).1.toOption.bind id).map
        (·.file) = some 0 := by
  have hw := Workspace.Reachable.step (.expandAll [.id 0] (.ok 64))
    (@Workspace.Reachable.create none
      [("outer", .template "$x" "inner!($x);"), ("inner", .template "$x" "struct $x;")]
      [⟨"lib.rs", "outer!(A);", 0⟩] 1 _ _ rfl)
  refine ⟨_, hw, ?depth, ?call₂, ?call₁, _, Option.eq_some_of_isSome ?tree, ?none, ?context⟩
  case depth => decide +kernel
  case call₂ => decide +kernel
  case call₁ => decide +kernel
  case tree => decide +kernel
  case none => decide +kernel
  case context => decide +kernel

end MacroTrace
