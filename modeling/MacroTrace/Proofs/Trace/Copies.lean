import MacroTrace.Proofs.Trace.Ranges

/-! Copies of a token lead back to it. Following a token of a file that is no expansion forward
gives its innermost copies; mapping a copy back follows the calls its file was expanded from. A
copy step says what one level of this does: the call holding a token has a stored expansion whose
file comes from that call, and a segment of its map copied the token's place in the body to the
copy's start. The forward walk keeps a stack of copies, each made through as many steps as its
depth; the backward walk undoes one step per round, through the call that made it, until the
token's own file. The two walks count their depth differently: forward, the first copy is made
before the limit is read, and a copy that is copied again must lie below the limit; backward, a
call is left only below the limit. So every copy leads back once the limit admits the first
copies, while with a limit of zero the first copies are made, yet none of them leads back. -/
namespace MacroTrace

namespace Workspace

variable {w w' : Workspace}

theorem FileBase.unique {f : FileId} {b₁ b₂ : Nat} (h₁ : w.FileBase f b₁) (h₂ : w.FileBase f b₂) :
    b₁ = b₂ := by
  rcases h₁ with ⟨hc, rfl⟩ | ⟨p, ep, hp, hs, rfl⟩ <;>
    rcases h₂ with ⟨hc', rfl⟩ | ⟨p', ep', hp', hs', rfl⟩
  · rfl
  · rw [hc] at hp'
    cases hp'
  · rw [hc'] at hp
    cases hp
  · rw [hp, Option.some.injEq] at hp'
    subst hp'
    rw [hs, Option.some.injEq, Option.some.injEq] at hs'
    rw [hs']

theorem FileBase.mono (hw : w.Coherent) (hg : w.Grows w') {f : FileId} {x : FileEntry}
    (hf : w.file? f = some x) {base : Nat} (h : w.FileBase f base) : w'.FileBase f base := by
  rcases h with ⟨hc, rfl⟩ | ⟨p, ep, hp, hs, rfl⟩
  · exact .inl ⟨(hw.expansionCall_grows hg hf).trans hc, rfl⟩
  · exact .inr ⟨p, ep, hg.expansionCall hp, hg.expansions _ _ hs, rfl⟩

theorem file?_of_tree? {f : FileId} {root : Green} (h : w.tree? f = some root) :
    ∃ x, w.file? f = some x := by
  simp only [tree?, Option.map_eq_some_iff] at h
  obtain ⟨x, hx, -⟩ := h
  exact ⟨x, hx⟩

/-- A function-like call, or an attribute that derives nothing, is found again from its key once
its macro runs: the reference by the key finds a node of the call's kind and range, and in a
well nested tree that node is the call's own. -/
theorem Coherent.callOfKey_self (hw : w.Coherent) {c : MacroCall} (hc : c.Genuine w)
    (hk : c.kind = .fnLike ∨ c.kind = .attr ∧ c.node.isDerive = false) {out : Expanded}
    (hr : w.runMacro c = some out) : w.callOfKey c.key = some c := by
  obtain ⟨text, -, hs, -⟩ := hc.spells hw
  obtain ⟨name, hname⟩ := runMacro_name hr
  have hm : c.node ∈ c.root.members := hc.1.2
  have hpos := MacroCall.width_pos_of_name? hs hm hname
  have hnode : c.node.isToken = false := hc.node_isToken hw
  obtain ⟨n, hn⟩ := NodePtr.resolveIn_of_mem hm hnode hpos c.file
  obtain ⟨hmem, hkind, hrange⟩ := NodePtr.resolveIn_spec hn
  have heq : c = { c with node := n } :=
    hw.call_eq_of_key hc ⟨⟨hc.1.1, hmem⟩, hkind.trans hc.2⟩ (by simp [MacroCall.key, hrange]) hr
  have hn' : c.node = n := congrArg MacroCall.node heq
  rw [← hn'] at hn
  have hroot : w.tree? c.file = some c.root := hc.1.1
  have hkind' : c.node.kind = if c.kind = .fnLike then .macroCall else .attr := hc.2
  obtain ⟨file, kind, root, node⟩ := c
  dsimp only at hn hkind' hroot hk ⊢
  rcases hk with rfl | ⟨rfl, hd⟩
  · rw [if_pos rfl] at hkind'
    rw [hkind'] at hn
    simp [Workspace.callOfKey, MacroCall.key, hroot, hn, MacroCall.fnLike]
  · rw [if_neg (by simp)] at hkind'
    rw [hkind'] at hn
    simp [Workspace.callOfKey, MacroCall.key, hroot, hn, MacroCall.attr?, hd]

theorem Coherent.expansionCall_of_faithful (hw : w.Coherent) {c : MacroCall} {e : Expansion}
    (hc : c.Genuine w) (hk : c.kind = .fnLike ∨ c.kind = .attr ∧ c.node.isDerive = false)
    (h : w.Faithful c e) : w.expansionCall e.file = some c := by
  obtain ⟨out, hr, hfile, -⟩ := h
  simp only [expansionCall, hfile]
  exact hw.callOfKey_self hc hk hr

/-- One copy of a token: the call `c` holding the token `a` has the stored expansion `e`, whose
file comes from `c`, and a segment of `e`'s map copied the place of `a`'s start in `c`'s body to
the start of the token `b` of that file. -/
structure CopyStep (w : Workspace) (a b : FileElement) (c : MacroCall) (e : Expansion) : Prop where
  holding : Session.callHolding a = some c
  stored : w.expansions c.key = some (some e)
  origin : w.expansionCall e.file = some c
  file : b.file = e.file
  genuine : b.Genuine w
  token : b.isToken = true
  body : ∃ lb base, c.localBodyRange? = some lb ∧ w.FileBase a.file base ∧
    lb.stop + base ≤ maxOffset ∧ ∃ u ∈ e.map.segments, OffsetMap.Holds u b.elem.start ∧
      a.elem.start = lb.start + u.src + (b.elem.start - u.dst)

/-- The element `b` is a copy of the token `t` made through `k` nested expansions. -/
inductive Copied (w : Workspace) (t : FileElement) : FileElement → Nat → Prop
  | first {b : FileElement} {c : MacroCall} {e : Expansion} : w.CopyStep t b c e → Copied w t b 1
  | next {a b : FileElement} {c : MacroCall} {e : Expansion} {k : Nat} :
      Copied w t a k → w.CopyStep a b c e → Copied w t b (k + 1)

variable {a b t : FileElement} {c : MacroCall} {e : Expansion}

theorem CopyStep.call_genuine (h : w.CopyStep a b c e) : c.Genuine w :=
  expansionCall_genuine h.origin

theorem CopyStep.call_file (h : w.CopyStep a b c e) : c.file = a.file :=
  (Session.callHolding_spec h.holding).1

theorem CopyStep.mono (hw : w.Coherent) (hg : w.Grows w') (h : w.CopyStep a b c e) :
    w'.CopyStep a b c e := by
  obtain ⟨lb, base, hlb, hfb, hfit, hu⟩ := h.body
  obtain ⟨x, hx⟩ := file?_of_tree? h.call_genuine.1.1
  rw [MacroCall.element_file, h.call_file] at hx
  exact ⟨h.holding, hg.expansions _ _ h.stored, hg.expansionCall h.origin, h.file,
    h.genuine.mono hg, h.token, lb, base, hlb, hfb.mono hw hg hx, hfit, hu⟩

theorem Copied.mono (hw : w.Coherent) (hg : w.Grows w') {k : Nat} (h : w.Copied t b k) :
    w'.Copied t b k := by
  induction h with
  | first hs => exact .first (hs.mono hw hg)
  | next _ hs ih => exact .next ih (hs.mono hw hg)

theorem Copied.first_step {k : Nat} (h : w.Copied t b k) : ∃ b₁ c₁ e₁, w.CopyStep t b₁ c₁ e₁ := by
  induction h with
  | first hs => exact ⟨_, _, _, hs⟩
  | next _ _ ih => exact ih

theorem Copied.last_step {k : Nat} (h : w.Copied t b k) : ∃ a c e, w.CopyStep a b c e := by
  cases h with
  | first hs => exact ⟨_, _, _, hs⟩
  | next _ hs => exact ⟨_, _, _, hs⟩

theorem CopyStep.fits (hw : w.Coherent) (h : w.CopyStep a b c e) :
    b.elem.start + b.elem.green.width + e.base ≤ maxOffset := by
  obtain ⟨T, hT, hsp, -⟩ := h.genuine.spells hw
  have hstop := (hsp.spans h.genuine.2).stop_le
  rw [← utf8ByteSize_eq_bytesOf] at hstop
  have hf : w.Faithful c e := hw.cached _ e h.stored c h.call_genuine rfl
  have := hf.base_fits (h.file ▸ hT)
  simp only [Element.range] at hstop
  omega

theorem CopyStep.start_lt (hw : w.Coherent) (h : w.CopyStep a b c e) :
    ∃ text, w.text? a.file = some text ∧ a.elem.start < text.utf8ByteSize := by
  obtain ⟨lb, base, hlb, -, -, u, hu, hh, hstart⟩ := h.body
  have hf : w.Faithful c e := hw.cached _ e h.stored c h.call_genuine rfl
  obtain ⟨lb', -, S, piece, hlb', -, hS, -, -, -, hspan⟩ :=
    (hf.mapsBody hw h.call_genuine).copies u hu
  rw [hlb, Option.some.injEq] at hlb'
  subst hlb'
  have hstop := hspan.stop_le
  rw [← utf8ByteSize_eq_bytesOf] at hstop
  dsimp only at hstop
  simp only [OffsetMap.Holds] at hh
  exact ⟨S, h.call_file ▸ hS, by omega⟩

theorem CopyStep.width_pos (hw : w.Coherent) (h : w.CopyStep t b c e) (ht : t.Genuine w)
    (htok : t.isToken = true) : 0 < t.elem.green.width := by
  obtain ⟨text, htext, hlt⟩ := h.start_lt hw
  obtain ⟨text', htext', hsp, -⟩ := ht.spells hw
  rw [htext, Option.some.injEq] at htext'
  subst htext'
  exact hsp.width_pos_of_lt ht.2 htok hlt

theorem Faithful.src_le_len (hw : w.Coherent) (hc : c.Genuine w) (hf : w.Faithful c e)
    {lb : TextRange} (hlb : c.localBodyRange? = some lb) :
    ∀ u ∈ e.map.segments, u.src + u.len ≤ lb.len := by
  intro u hu
  obtain ⟨lb', -, -, -, hlb', -, -, hle, -⟩ := (hf.mapsBody hw hc).copies u hu
  rw [hlb, Option.some.injEq] at hlb'
  subst hlb'
  exact hle

theorem Faithful.src_le_body_len (hw : w.Coherent) (hc : c.Genuine w) (hf : w.Faithful c e)
    {lb : TextRange} (hlb : c.localBodyRange? = some lb) (base : Nat) :
    ∀ u ∈ e.map.segments, u.src + u.len ≤
      (⟨lb.start + base, lb.stop + base, Nat.add_le_add_right lb.le base⟩ : TextRange).len := by
  intro u hu
  have := hf.src_le_len hw hc hlb u hu
  simp only [TextRange.len] at this ⊢
  omega

end Workspace

namespace Session

variable {w : Workspace}

/-! ### Following a token forward -/

theorem elementRange_base (hnone : w.mapOverride = none) (e : FileElement) :
    Sound w (elementRange e) fun r w' => ∀ x, r = some x → ∃ base, w'.FileBase e.file base ∧
      x.start = e.elem.start + base ∧ e.elem.start + e.elem.green.width + base ≤ maxOffset := by
  unfold elementRange
  refine Sound.bind (fileStartOffset_base hnone e.file) ?_
  rintro b w₁ - - hb
  split
  · exact Sound.pure (by rintro x ⟨⟩)
  · rename_i base
    refine Sound.bind_lift fun x hx => Sound.pure ?_
    rintro x' ⟨⟩
    obtain ⟨h₁, -, h₃⟩ := TextRange.shiftRight_eq_ok hx
    simp only [FileElement.range, Element.range] at h₁ h₃
    exact ⟨base, hb base rfl, h₁, h₃⟩

theorem elementStart_base (hnone : w.mapOverride = none) (e : FileElement) :
    Sound w (elementStart e) fun s w' => ∀ start, s = some start → ∃ base,
      w'.FileBase e.file base ∧ start = e.elem.start + base ∧
      e.elem.start + e.elem.green.width + base ≤ maxOffset := by
  unfold elementStart
  refine Sound.bind (elementRange_base hnone e) fun r w₁ _ _ hr => Sound.pure ?_
  rintro start hs
  obtain ⟨x, rfl, rfl⟩ := Option.map_eq_some_iff.1 hs
  exact hr x rfl

theorem toBodyRelative_base (hnone : w.mapOverride = none) (c : MacroCall) (off : Nat) :
    Sound w (toBodyRelative c off) fun r w' => ∀ rel, r = some rel → ∃ lb base,
      c.localBodyRange? = some lb ∧ w'.FileBase c.file base ∧ lb.stop + base ≤ maxOffset ∧
      lb.start + base ≤ off ∧ rel = off - (lb.start + base) := by
  unfold toBodyRelative
  refine Sound.bind (bodyTextRange_base hnone c) ?_
  rintro b w₁ - - hb
  split
  · rename_i body
    obtain ⟨lb, base, hlb, h₁, h₂, h₃, hfb⟩ := hb body rfl
    refine Sound.pure ?_
    rintro rel hrel
    split at hrel
    · rename_i hin
      cases hrel
      simp only [TextRange.contains, Bool.and_eq_true, decide_eq_true_eq] at hin
      exact ⟨lb, base, hlb, hfb, by omega, by omega, by omega⟩
    · cases hrel
  · exact Sound.pure (by rintro rel ⟨⟩)

theorem offsetToExpansion_copies (hnone : w.mapOverride = none) {c : MacroCall} {e : Expansion}
    (hord : ∀ lb, c.localBodyRange? = some lb → lb.stop ≤ maxOffset → e.map.Ordered)
    (off : Nat) :
    Sound w (offsetToExpansion c e off) fun r w' => ∀ os, r = some os → ∀ o ∈ os, ∃ lb base,
      c.localBodyRange? = some lb ∧ w'.FileBase c.file base ∧ lb.stop + base ≤ maxOffset ∧
      lb.start + base ≤ off ∧ ∃ u ∈ e.map.segments, u.src ≤ off - (lb.start + base) ∧
        off - (lb.start + base) < u.src + u.len ∧
        o = u.dst + (off - (lb.start + base) - u.src) + e.base := by
  unfold offsetToExpansion
  refine Sound.bind (toBodyRelative_base hnone c off) ?_
  rintro r w₁ - - hr
  split
  · rename_i rel
    obtain ⟨lb, base, hlb, hfb, hfit, hle, rfl⟩ := hr _ rfl
    rw [(hord lb hlb (by omega)).toExpansion_eq]
    refine Sound.bind_lift fun locals hl => ?_
    refine Sound.bind (Sound.mapM_lift _ _) ?_
    rintro os w₂ - - ⟨hw₂, hos⟩
    subst hw₂
    refine Sound.pure ?_
    rintro os' ⟨⟩ o ho
    obtain ⟨l, hl', hadd⟩ := hos o ho
    cases hl
    obtain ⟨u, hu, hux⟩ := List.mem_filterMap.1 hl'
    split at hux
    · rename_i hin
      cases hux
      obtain ⟨-, rfl⟩ := Offset.add_eq_ok_iff.1 hadd
      exact ⟨lb, base, hlb, hfb, hfit, hle, u, hu, hin.1, hin.2, rfl⟩
    · cases hux
  · exact Sound.pure (by rintro os ⟨⟩)

theorem tokenStartingAt_base (hnone : w.mapOverride = none) (f : FileId) (off : Nat) :
    Sound w (tokenStartingAt f off) fun r w' => ∀ b, r = some b → b.file = f ∧ b.Genuine w' ∧
      b.isToken = true ∧ ∃ base, w'.FileBase f base ∧ base ≤ off ∧ b.elem.start = off - base := by
  unfold tokenStartingAt
  refine Sound.bind (fileStartOffset_base hnone f) ?_
  rintro r w₁ - - hr
  split
  · rename_i base
    split
    · rename_i loc hloc
      obtain ⟨hle, rfl⟩ := Offset.sub?_eq_some_iff.1 hloc
      refine Sound.bind (tree?_sound f) ?_
      rintro r w₂ - - ⟨rfl, rfl⟩
      split
      · rename_i root hroot
        split
        · exact Sound.pure (by simp)
        · split
          · rename_i t ht
            refine Sound.pure ?_
            intro b h
            split at h
            · rename_i hst
              cases h
              exact ⟨rfl, ⟨hroot, Green.tokenAt_mem ht⟩, Green.tokenAt_isToken ht, base, hr base rfl,
                hle, by simpa using hst⟩
            · cases h
          · exact Sound.pure (by simp)
      · exact Sound.pure (by simp)
    · exact Sound.pure (by simp)
  · exact Sound.pure (by simp)

theorem directCopies_copies (hnone : w.mapOverride = none) {a : FileElement} (ha : a.Genuine w) :
    Sound w (directCopies a) fun r w' => ∀ bs, r = some bs → ∀ b ∈ bs, ∃ c e,
      w'.CopyStep a b c e := by
  unfold directCopies
  split
  · rename_i c hc
    have hcg := callHolding_genuine ha hc
    obtain ⟨hcf, -, hkind⟩ := callHolding_spec hc
    obtain ⟨x, hx⟩ := Workspace.file?_of_tree? ha.1
    refine Sound.bind (expansion_sound hcg) ?_
    rintro r w₁ hg₁ hw₁ hr
    split
    · rename_i e
      have hnone₁ := hg₁.mapOverride.trans hnone
      have hs₁ := hr hnone₁ e rfl
      have hf₁ : w₁.Faithful c e := hw₁.cached _ e hs₁ c (hcg.mono hg₁) rfl
      have horigin₁ := hw₁.expansionCall_of_faithful (hcg.mono hg₁) hkind hf₁
      refine Sound.bind (elementStart_base hnone₁ a) ?_
      rintro r w₂ hg₂ hw₂ hst
      split
      · rename_i start
        obtain ⟨base, hfb₂, rfl, -⟩ := hst _ rfl
        have hnone₂ := hg₂.mapOverride.trans hnone₁
        refine Sound.bind (offsetToExpansion_copies hnone₂ (fun lb hlb hfit =>
          (hf₁.mono hg₂).ordered hw₂ ((hcg.mono hg₁).mono hg₂) hlb hfit) _) ?_
        rintro r w₃ hg₃ hw₃ hos
        split
        · rename_i os
          have hg₁₃ := hg₂.trans hg₃
          have hcollect : Sound w₃ (os.filterMapM fun o => tokenStartingAt e.file o)
              fun r w' => ∀ b ∈ r, ∃ o ∈ os, b.file = e.file ∧ b.Genuine w' ∧ b.isToken = true ∧
                ∃ base', w'.FileBase e.file base' ∧ base' ≤ o ∧ b.elem.start = o - base' := by
            refine Sound.filterMapM ?_ os w₃ fun o ho w' hg' => ?_
            · rintro b w' w'' hw' hg' ⟨o, ho, hbf, hb, htok, base', hfb, hle, hbs⟩
              obtain ⟨y, hy⟩ := Workspace.file?_of_tree? hb.1
              exact ⟨o, ho, hbf, hb.mono hg', htok, base', hfb.mono hw' hg' (hbf ▸ hy), hle, hbs⟩
            · exact (tokenStartingAt_base (hg'.mapOverride.trans (hg₃.mapOverride.trans hnone₂))
                e.file o).mono fun r w'' h b hb => ⟨o, ho, h b hb⟩
          refine Sound.bind hcollect ?_
          rintro bs w₄ hg₄ hw₄ hbs
          refine Sound.pure ?_
          rintro bs' ⟨⟩ b hb
          obtain ⟨o, ho, hbf, hbg, hbt, base', hfb', hle', hbs'⟩ := hbs b hb
          obtain ⟨lb, base'', hlb, hfb'', hfit, hle, u, hu, hsrc₁, hsrc₂, rfl⟩ := hos os rfl o ho
          have hg₁₄ := hg₁₃.trans hg₄
          obtain rfl : base' = e.base :=
            hfb'.unique (.inr ⟨c, e, hg₁₄.expansionCall horigin₁, hg₁₄.expansions _ _ hs₁, rfl⟩)
          have hx₂ := (hg₁.trans hg₂).files _ _ hx
          have hfb₃ := hfb₂.mono hw₂ hg₃ hx₂
          rw [hcf] at hfb''
          obtain rfl : base = base'' := hfb₃.unique hfb''
          refine ⟨c, e, hc, hg₁₄.expansions _ _ hs₁, hg₁₄.expansionCall horigin₁, hbf, hbg, hbt, lb, base,
            hlb, hfb₃.mono hw₃ hg₄ (hg₃.files _ _ hx₂), hfit, u, hu, ?_, ?_⟩
          · simp only [OffsetMap.Holds]
            omega
          · omega
        · exact Sound.pure (by rintro bs ⟨⟩)
      · exact Sound.pure (by rintro bs ⟨⟩)
    · exact Sound.pure (by rintro bs ⟨⟩)
  · exact Sound.pure (by rintro bs ⟨⟩)

/-- The rounds of the token stack keep their invariant: every token on the stack is a genuine
copy of `t` made through as many expansions as its depth, at most a bound no smaller than the
limit, and so is every token collected. A token with copies is replaced by them one level
deeper, and only below the limit; a token without copies is collected. -/
theorem copyRounds_copied (t : FileElement) (limit bound : Nat) (hb : limit ≤ bound)
    (stack : List (FileElement × Nat)) (acc : List FileElement) :
    ∀ w : Workspace, w.Coherent → w.mapOverride = none →
      (∀ p ∈ stack, p.1.Genuine w ∧ w.Copied t p.1 p.2 ∧ p.2 ≤ bound) →
      (∀ b ∈ acc, ∃ k ≤ bound, w.Copied t b k) →
      Sound w (copyRounds limit stack acc) fun r w' => ∀ ts, r = some ts → ∀ b ∈ ts,
        ∃ k ≤ bound, w'.Copied t b k := by
  induction stack, acc using copyRounds.induct limit with
  | case1 acc =>
    intro w _ _ _ hacc
    rw [copyRounds]
    exact Sound.pure (by rintro ts ⟨⟩ b hb; exact hacc b (List.mem_reverse.1 hb))
  | case2 a d stack acc ihpush ihpop =>
    intro w hw hnone hstack hacc
    obtain ⟨ha, hcop, hd⟩ := hstack (a, d) List.mem_cons_self
    have hrest : ∀ w', w.Grows w' → ∀ p ∈ stack,
        p.1.Genuine w' ∧ w'.Copied t p.1 p.2 ∧ p.2 ≤ bound := fun w' hg p hp => by
      obtain ⟨h₁, h₂, h₃⟩ := hstack p (List.mem_cons_of_mem _ hp)
      exact ⟨h₁.mono hg, h₂.mono hw hg, h₃⟩
    have hacc' : ∀ w', w.Grows w' → ∀ b ∈ acc, ∃ k ≤ bound, w'.Copied t b k :=
      fun w' hg b hb => by
        obtain ⟨k, hk, h⟩ := hacc b hb
        exact ⟨k, hk, h.mono hw hg⟩
    rw [copyRounds]
    refine Sound.bind (directCopies_copies hnone ha) ?_
    rintro r w₁ hg hw₁ hr
    have hnone₁ := hg.mapOverride.trans hnone
    split
    · rename_i copies
      split
      · exact Sound.pure (by rintro ts ⟨⟩)
      · rename_i hdl
        refine ihpush copies hdl w₁ hw₁ hnone₁ (fun p hp => ?_) (hacc' w₁ hg)
        simp only [List.mem_append, List.mem_map] at hp
        rcases hp with ⟨b, hb, rfl⟩ | hp
        · obtain ⟨c, e, hs⟩ := hr copies rfl b hb
          exact ⟨hs.genuine, .next (hcop.mono hw hg) hs, by omega⟩
        · exact hrest w₁ hg p hp
    · refine ihpop w₁ hw₁ hnone₁ (hrest w₁ hg) ?_
      intro b hb
      rcases List.mem_cons.1 hb with rfl | hb
      · exact ⟨d, hd, hcop.mono hw hg⟩
      · exact hacc' w₁ hg b hb

/-- Every token the forward lookup answers for a genuine token is a copy of it made through at
most as many expansions as the depth limit, or through one when the limit is zero: the first
copies are made before the limit is read. -/
theorem expansionElements_copied_le (hnone : w.mapOverride = none) {t : FileElement}
    (ht : t.Genuine w) :
    Sound w (expansionElements t) fun r w' => ∀ ts, r = some ts → ∀ b ∈ ts,
      ∃ k ≤ max w.maxDepth 1, w'.Copied t b k := by
  unfold expansionElements
  refine Sound.bind maxDepth_sound ?_
  rintro limit w₀ - - ⟨rfl, hw₀⟩
  subst w₀
  refine Sound.bind (directCopies_copies hnone ht) ?_
  rintro r w₁ hg hw₁ hr
  split
  · rename_i first
    refine copyRounds_copied t w.maxDepth _ (Nat.le_max_left _ _) _ [] w₁ hw₁
      (hg.mapOverride.trans hnone) ?_ (by simp)
    intro p hp
    simp only [List.mem_map] at hp
    obtain ⟨b, hb, rfl⟩ := hp
    obtain ⟨c, e, hs⟩ := hr first rfl b hb
    exact ⟨hs.genuine, .first hs, Nat.le_max_right _ _⟩
  · exact Sound.pure (by rintro ts ⟨⟩)

theorem expansionElements_copied (hnone : w.mapOverride = none) {t : FileElement}
    (ht : t.Genuine w) (hdepth : 0 < w.maxDepth) :
    Sound w (expansionElements t) fun r w' => ∀ ts, r = some ts → ∀ b ∈ ts,
      ∃ k ≤ w.maxDepth, w'.Copied t b k :=
  (expansionElements_copied_le hnone ht).mono fun _ _ h ts hts b hb => by
    obtain ⟨k, hk, hc⟩ := h ts hts b hb
    exact ⟨k, by omega, hc⟩

/-! ### Reading stored expansions back -/

@[simp] theorem run_expansionCall (f : FileId) :
    (expansionCall f).run.run w = (.ok (w.expansionCall f), w) := rfl

@[simp] theorem run_maxDepth : maxDepth.run.run w = (.ok w.maxDepth, w) := rfl

@[simp] theorem run_tree? (f : FileId) : (tree? f).run.run w = (.ok (w.tree? f), w) := rfl

theorem fileStartOffset_run (hnone : w.mapOverride = none) {f : FileId} {base : Nat}
    (h : w.FileBase f base) : (fileStartOffset f).run.run w = (.ok (some base), w) := by
  unfold fileStartOffset
  rcases h with ⟨hc, rfl⟩ | ⟨p, ep, hp, hs, rfl⟩
  · simp only [run_bind, run_expansionCall, hc, run_pure]
  · simp only [run_bind, run_expansionCall, hp, expansion_run_of_stored hs hnone, run_pure,
      Option.map_some]

theorem elementRange_run (hnone : w.mapOverride = none) {e : FileElement} {base : Nat}
    (h : w.FileBase e.file base) (hfit : e.elem.start + e.elem.green.width + base ≤ maxOffset) :
    (elementRange e).run.run w = (.ok (some ⟨e.elem.start + base,
      e.elem.start + e.elem.green.width + base, by omega⟩), w) := by
  have hshift : e.range.shiftRight base = .ok ⟨e.elem.start + base,
      e.elem.start + e.elem.green.width + base, by omega⟩ := by
    simp [TextRange.shiftRight, TextRange.shiftRight?, FileElement.range, Element.range, hfit]
  unfold elementRange
  simp only [run_bind, fileStartOffset_run hnone h, run_lift, hshift, run_pure]

theorem elementStart_run (hnone : w.mapOverride = none) {e : FileElement} {base : Nat}
    (h : w.FileBase e.file base) (hfit : e.elem.start + e.elem.green.width + base ≤ maxOffset) :
    (elementStart e).run.run w = (.ok (some (e.elem.start + base)), w) := by
  unfold elementStart
  simp only [run_bind, elementRange_run hnone h hfit, run_pure, Option.map_some]

theorem bodyTextRange_run (hnone : w.mapOverride = none) {c : MacroCall} {lb : TextRange}
    {base : Nat} (hlb : c.localBodyRange? = some lb) (h : w.FileBase c.file base)
    (hfit : lb.stop + base ≤ maxOffset) : (bodyTextRange c).run.run w =
      (.ok (some ⟨lb.start + base, lb.stop + base, Nat.add_le_add_right lb.le base⟩), w) := by
  have hshift : lb.shiftRight base = .ok ⟨lb.start + base, lb.stop + base,
      Nat.add_le_add_right lb.le base⟩ := by
    simp [TextRange.shiftRight, TextRange.shiftRight?, hfit]
  unfold bodyTextRange
  simp only [hlb, run_bind, fileStartOffset_run hnone h, run_lift, hshift, run_pure]

theorem offsetToBody_state (hnone : w.mapOverride = none) {c : MacroCall} {e : Expansion}
    (hs : w.expansions c.key = some (some e)) (hord : e.map.Ordered) {body : TextRange}
    (hb : (bodyTextRange c).run.run w = (.ok (some body), w)) (o : Nat) :
    ((offsetToBody c o).run.run w).2 = w := by
  obtain ⟨r, hr, -⟩ := offsetToBodyRelative_run hs hnone hord o
  unfold offsetToBody
  rw [run_bind_of_ok hr]
  cases r with
  | none => rfl
  | some rel => rw [fromBodyRelative_run hb]

theorem offsetToBody_run_of_copy (hw : w.Coherent) (hnone : w.mapOverride = none)
    {a b : FileElement} {c : MacroCall} {e : Expansion} (h : w.CopyStep a b c e) :
    ∃ base, w.FileBase a.file base ∧
      (offsetToBody c (b.elem.start + e.base)).run.run w = (.ok (some (a.elem.start + base)), w) := by
  obtain ⟨lb, base, hlb, hfb, hfit, u, hu, hh, hstart⟩ := h.body
  have hc := h.call_genuine
  have hf : w.Faithful c e := hw.cached _ e h.stored c hc rfl
  have hord := hf.ordered hw hc hlb (by omega)
  have hb := bodyTextRange_run hnone hlb (h.call_file ▸ hfb) hfit
  have hsrc := hf.src_le_body_len hw hc hlb base
  simp only [OffsetMap.Holds] at hh
  have hval := (offsetToBody_run_iff h.stored hnone hord hb hsrc (b.elem.start + e.base)
    (a.elem.start + base)).2 ⟨u, hu, Nat.le_add_left _ _, by simp only [OffsetMap.Holds]; omega,
      by dsimp only; omega⟩
  exact ⟨base, hfb, Prod.ext hval (offsetToBody_state hnone h.stored hord hb _)⟩

theorem callAndOffset_go_step (hw : w.Coherent) (hnone : w.mapOverride = none)
    {a b : FileElement} {c : MacroCall} {e : Expansion} (hs : w.CopyStep a b c e) {base : Nat}
    (hfb : w.FileBase b.file base) (limit depth : Nat) (hne : depth ≠ limit) (n : Nat)
    (reached : Option (MacroCall × Nat)) : ∃ base', w.FileBase a.file base' ∧
      (callAndOffset.go limit (n + 1) b.file (b.elem.start + base) depth reached).run.run w =
        (callAndOffset.go limit n a.file (a.elem.start + base') (depth + 1)
          (some (c, a.elem.start + base'))).run.run w := by
  obtain ⟨base', hfa, hback⟩ := offsetToBody_run_of_copy hw hnone hs
  have horigin : w.expansionCall b.file = some c := hs.file ▸ hs.origin
  obtain rfl : base = e.base := hfb.unique (.inr ⟨c, e, horigin, hs.stored, rfl⟩)
  refine ⟨base', hfa, ?_⟩
  rw [← hs.call_file]
  simp only [callAndOffset.go, run_bind, run_expansionCall, horigin, beq_iff_eq, hne, if_false,
    hback]

/-- Mapping a copy's virtual start outwards leaves, round by round, the file of each copy for
the file of the token it copied, below the depth limit, until the token's own file, which no call
expands to: the walk ends there with the call holding the token and the token's start. -/
theorem callAndOffset_go_copied (hw : w.Coherent) (hnone : w.mapOverride = none)
    {t : FileElement} {c₁ : MacroCall} (hc₁ : callHolding t = some c₁)
    (hsrc : w.expansionCall t.file = none) (limit : Nat) {b : FileElement} {k : Nat}
    (h : w.Copied t b k) : ∀ (n depth base : Nat) (reached : Option (MacroCall × Nat)),
      w.FileBase b.file base → k + depth ≤ limit → k < n →
      (callAndOffset.go limit n b.file (b.elem.start + base) depth reached).run.run w =
        (.ok (some (c₁, t.elem.start)), w) := by
  induction h with
  | @first b c e hs =>
    intro n depth base reached hfb hk hn
    obtain ⟨n, rfl⟩ : ∃ m, n = m + 1 := ⟨n - 1, by omega⟩
    obtain ⟨base', hft, hstep⟩ := callAndOffset_go_step hw hnone hs hfb limit depth (by omega) n reached
    obtain rfl : base' = 0 := hft.unique (.inl ⟨hsrc, rfl⟩)
    obtain rfl : c = c₁ := Option.some.inj (hs.holding.symm.trans hc₁)
    obtain ⟨n, rfl⟩ : ∃ m, n = m + 1 := ⟨n - 1, by omega⟩
    rw [hstep]
    simp only [callAndOffset.go, run_bind, run_expansionCall, hsrc, run_pure, Nat.add_zero]
  | @next a b c e k _ hs ih =>
    intro n depth base reached hfb hk hn
    obtain ⟨n, rfl⟩ : ∃ m, n = m + 1 := ⟨n - 1, by omega⟩
    obtain ⟨base', hfa, hstep⟩ := callAndOffset_go_step hw hnone hs hfb limit depth (by omega) n reached
    rw [hstep]
    exact ih n (depth + 1) base' _ hfa (by omega) (by omega)

theorem expandedFrom_run_of_none {x : FileElement} (h : w.expansionCall x.file = none) :
    (expandedFrom x).run.run w = (.ok none, w) := by
  unfold expandedFrom
  split
  · exact run_pure
  · exact (run_expansionCall x.file).trans (by rw [h])

theorem firstSome_run_none {α β : Type} {f : α → Session (Option β)} :
    ∀ l : List α, (∀ a ∈ l, (f a).run.run w = (.ok none, w)) →
      (firstSome f l).run.run w = (.ok none, w)
  | [], _ => rfl
  | a :: l, h => by
    simp only [firstSome, run_bind, h a List.mem_cons_self]
    exact firstSome_run_none l fun a' ha' => h a' (List.mem_cons_of_mem a ha')

theorem isExpanded_run_of_source {t : FileElement} (hsrc : w.expansionCall t.file = none) :
    (isExpanded t).run.run w = (.ok false, w) := by
  unfold isExpanded nonRecursiveCall
  cases hn : t.node? with
  | none => simp only [run_bind, run_pure, Option.isSome_none]
  | some n =>
    have hnf : n.file = t.file := by
      simp only [FileElement.node?, FileElement.parent?] at hn
      split at hn
      · obtain ⟨p, -, rfl⟩ := Option.map_eq_some_iff.1 hn
        rfl
      · cases hn
        rfl
    have hall : ∀ a ∈ n.ancestors, (expandedFrom a).run.run w = (.ok none, w) := by
      intro a ha
      simp only [FileElement.ancestors, List.mem_map] at ha
      obtain ⟨x, -, rfl⟩ := ha
      exact expandedFrom_run_of_none (by simpa [hnf] using hsrc)
    simp only [run_bind, firstSome_run_none _ hall, run_pure, Option.isSome_none]

theorem tokenStartingAt_run_of_token (hnone : w.mapOverride = none) {t : FileElement}
    (ht : t.Genuine w) (htok : t.isToken = true) (hpos : 0 < t.elem.green.width) {base : Nat}
    (hfb : w.FileBase t.file base) :
    (tokenStartingAt t.file (t.elem.start + base)).run.run w = (.ok (some t), w) := by
  have hbounds := Green.preorderAt_bounds t.root 0 [] t.elem ht.2
  have hat := Green.tokenAt_start ht.2 htok hpos
  have hroot : w.tree? t.file = some t.root := ht.1
  have hin : ¬ t.elem.start ≥ t.root.width := by omega
  have hsub : Offset.sub? (t.elem.start + base) base = some t.elem.start :=
    Offset.sub?_eq_some_iff.2 ⟨Nat.le_add_left _ _, by omega⟩
  unfold tokenStartingAt
  simp only [run_bind, fileStartOffset_run hnone hfb, hsub, run_tree?, hroot, hin, if_false, hat,
    beq_self_eq_true, if_true, run_pure]

theorem tokenStartingAt_run_of_source (hnone : w.mapOverride = none) {t : FileElement}
    (ht : t.Genuine w) (htok : t.isToken = true) (hpos : 0 < t.elem.green.width)
    (hsrc : w.expansionCall t.file = none) :
    (tokenStartingAt t.file t.elem.start).run.run w = (.ok (some t), w) :=
  tokenStartingAt_run_of_token hnone ht htok hpos (.inl ⟨hsrc, rfl⟩)

/-- A copy leads back to the token it was copied from once the depth limit admits the number of
expansions that made it, strictly or not: every call on the way back is left below the limit, and
the token, in a file no call expands to, is not itself expanded. -/
theorem elementExpandedFrom_copied (hw : w.Coherent) (hnone : w.mapOverride = none)
    {t b : FileElement} {k : Nat} (h : w.Copied t b k) (hk : k ≤ w.maxDepth) (ht : t.Genuine w)
    (htok : t.isToken = true) (hsrc : w.expansionCall t.file = none) {strict : Bool} :
    (elementExpandedFrom b strict).run.run w = (.ok (some t), w) := by
  obtain ⟨a, c, e, hlast⟩ := h.last_step
  obtain ⟨b₁, c₁, e₁, hfirst⟩ := h.first_step
  have hfb : w.FileBase b.file e.base :=
    .inr ⟨c, e, hlast.file ▸ hlast.origin, hlast.stored, rfl⟩
  have hgo := callAndOffset_go_copied hw hnone hfirst.holding hsrc w.maxDepth h
    (w.maxDepth + 1) 0 e.base none hfb (by omega) (by omega)
  have hfile : c₁.file = t.file := hfirst.call_file
  unfold elementExpandedFrom callAndOffset
  simp only [run_bind, elementStart_run hnone hfb (hlast.fits hw), run_maxDepth, hgo, hfile,
    tokenStartingAt_run_of_source hnone ht htok (hfirst.width_pos hw ht htok) hsrc,
    isExpanded_run_of_source hsrc, Bool.and_false, Bool.false_eq_true, if_false, run_pure]

def copyRoundsWithin (limit : Nat) : Nat → List (FileElement × Nat) → List FileElement →
    Session (Option (List FileElement))
  | 0, _, _ => return none
  | _ + 1, [], acc => return some acc.reverse
  | n + 1, (t, depth) :: stack, acc => do
    match ← directCopies t with
    | some copies =>
      if depth ≥ limit then return none
      else copyRoundsWithin limit n (copies.map (·, depth + 1) ++ stack) acc
    | none => copyRoundsWithin limit n stack (t :: acc)

/-- The forward lookup with its rounds cut off after `n`. -/
def expansionElementsWithin (n : Nat) (t : FileElement) : Session (Option (List FileElement)) := do
  let limit ← maxDepth
  let some first ← directCopies t | return none
  copyRoundsWithin limit n (first.map (·, 1)) []

theorem run_copyRounds_of_within (limit : Nat) : ∀ (n : Nat) (stack : List (FileElement × Nat))
    (acc : List FileElement) {w w' : Workspace} {ts : List FileElement},
    (copyRoundsWithin limit n stack acc).run.run w = (.ok (some ts), w') →
      (copyRounds limit stack acc).run.run w = (.ok (some ts), w')
  | 0, _, _, _, _, _, h => by cases h
  | _ + 1, [], _, _, _, _, h => by
    cases h
    rw [copyRounds]
    rfl
  | n + 1, (t, d) :: stack, acc, _, _, _, h => by
    obtain ⟨c, w₁, hc, h⟩ := run_bind_eq_ok h
    rw [copyRounds, run_bind_of_ok hc]
    rcases c with _ | copies
    · exact run_copyRounds_of_within limit n stack (t :: acc) h
    · by_cases hd : d ≥ limit
      · simp only [hd, if_true] at h
        cases h
      · simp only [hd, if_false] at h ⊢
        exact run_copyRounds_of_within limit n _ acc h

theorem run_expansionElements_of_within {n : Nat} {t : FileElement} {ts : List FileElement}
    {w₁ : Workspace} (h : (expansionElementsWithin n t).run.run w = (.ok (some ts), w₁)) :
    (expansionElements t).run.run w = (.ok (some ts), w₁) := by
  obtain ⟨limit, w₀, hl, h⟩ := run_bind_eq_ok h
  obtain ⟨c, w₂, hc, h⟩ := run_bind_eq_ok h
  rw [expansionElements, run_bind_of_ok hl, run_bind_of_ok hc]
  rcases c with _ | first
  · cases h
  · exact run_copyRounds_of_within limit n _ [] h

theorem run_eq_ok_none {α : Type} {w : Workspace} {x : Session (Option α)}
    (h : (x.run.run w).1.toOption.map Option.isNone = some true) : (x.run.run w).1 = .ok none := by
  revert h
  rcases x.run.run w with ⟨_ | _ | a, w'⟩ <;> intro h
  · simp [Except.toOption] at h
  · rfl
  · simp [Except.toOption] at h

end Session

/-- Following a token of a file that no call expands to forward to its innermost copies, every
copy leads back to the token, once the depth limit admits the first copies: each copy was made
through at most as many expansions as the limit, and mapping it back leaves each of their calls
below the limit. The lookup back reads the workspace the forward one leaves without change. -/
theorem token_copies_lead_back {w : Workspace} (hw : w.Reachable none) (hdepth : 0 < w.maxDepth)
    {t : FileElement} (ht : t.Genuine w) (htok : t.isToken = true)
    (hsrc : w.expansionCall t.file = none) {ts : List FileElement} {w₁ : Workspace}
    (he : (Session.expansionElements t).run.run w = (.ok (some ts), w₁)) :
    ∀ t' ∈ ts, (Session.elementExpandedFrom t' true).run.run w₁ = (.ok (some t), w₁) := by
  have hw₀ := hw.coherent
  obtain ⟨hw₁, hg, hpost⟩ := Session.expansionElements_copied hw.mapOverride ht hdepth hw₀
  rw [he] at hw₁ hg hpost
  intro t' ht'
  obtain ⟨k, hk, hcop⟩ := hpost (some ts) rfl ts rfl t' ht'
  obtain ⟨x, hx⟩ := Workspace.file?_of_tree? ht.1
  exact Session.elementExpandedFrom_copied hw₁ (hg.mapOverride.trans hw.mapOverride) hcop
    (by rw [hg.maxDepth]; exact hk) (ht.mono hg) htok ((hw₀.expansionCall_grows hg hx).trans hsrc)

/-- With a depth limit of one, the argument of a call whose macro copies it is followed forward to
its copy, and the copy leads back to it. -/
theorem argument_copy_leads_back : ∃ (w : Workspace) (root : Green) (tok : Element)
    (ts : List FileElement) (w₁ : Workspace), w.Reachable none ∧ 0 < w.maxDepth ∧
    w.tree? 0 = some root ∧ root.tokenAt 3 = some tok ∧ tok.isToken = true ∧
    w.expansionCall 0 = none ∧
    (Session.expansionElements ⟨0, root, tok⟩).run.run w = (.ok (some ts), w₁) ∧ ts ≠ [] ∧
    ∀ t' ∈ ts, (Session.elementExpandedFrom t' true).run.run w₁ =
      (.ok (some ⟨0, root, tok⟩), w₁) := by
  have hw := @Workspace.Reachable.create none [("m", .template "$x" "$x")]
    [⟨"lib.rs", "m!(a)", 0⟩] 1 _ _ rfl
  refine ⟨_, _, _, _, _, hw, ?depth, Option.eq_some_of_isSome ?tree,
    Option.eq_some_of_isSome ?tok, ?token, ?source, Session.run_expansionElements_of_within
      (Session.run_eq_of_isSome (x := Session.expansionElementsWithin 20 _) ?forward),
    List.ne_nil_of_length_pos ?copied, ?back⟩
  case back =>
    refine token_copies_lead_back hw ?depth ?genuine ?isToken ?fromSource
      (Session.run_expansionElements_of_within
        (Session.run_eq_of_isSome (x := Session.expansionElementsWithin 20 _) ?forward))
    case genuine =>
      refine ⟨?_, @Green.tokenAt_mem _ 3 _ ?_⟩ <;> dsimp only
      · exact Option.eq_some_of_isSome ?tree
      · exact Option.eq_some_of_isSome ?tok
    case isToken => dsimp only [FileElement.isToken]; exact ?token
    case fromSource => exact ?source
  case depth => decide +kernel
  case tree => decide +kernel
  case tok => decide +kernel
  case token => decide +kernel
  case source => decide +kernel
  case forward => decide +kernel
  case copied => decide +kernel

/-- With a depth limit of zero a copy does not lead back to its token: the argument of a call
whose macro copies it is followed forward to its copy, and the copy leads back to nothing. -/
theorem copy_leads_nowhere_at_depth_zero : ∃ (w : Workspace) (root : Green) (tok : Element),
    w.Reachable none ∧ w.maxDepth = 0 ∧ w.expansionCall 0 = none ∧ w.tree? 0 = some root ∧
    root.tokenAt 3 = some tok ∧ ∃ ts w₁,
      (Session.expansionElements ⟨0, root, tok⟩).run.run w = (.ok (some ts), w₁) ∧
      ∃ t' ∈ ts, ((Session.elementExpandedFrom t' true).run.run w₁).1 = .ok none := by
  have hw := @Workspace.Reachable.create none [("m", .template "$x" "$x")]
    [⟨"lib.rs", "m!(a)", 0⟩] 0 _ _ rfl
  refine ⟨_, _, _, hw, rfl, ?source, Option.eq_some_of_isSome ?tree, Option.eq_some_of_isSome ?tok,
    _, _, Session.run_expansionElements_of_within
      (Session.run_eq_of_isSome (x := Session.expansionElementsWithin 20 _) ?forward),
    _, List.head_mem (List.ne_nil_of_length_pos ?copied), Session.run_eq_ok_none ?back⟩
  case source => decide +kernel
  case tree => decide +kernel
  case tok => decide +kernel
  case forward => decide +kernel
  case copied => decide +kernel
  case back => decide +kernel

end MacroTrace
