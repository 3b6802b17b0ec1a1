import MacroTrace.Proofs.Trace.RoundTrip

/-! Ranges of an expansion map back to the text they were copied from. The range lookup keeps a
work list of queries. A pending query asks a call, one that climbing from the first call reaches,
for the part of its expansion that reads as a piece of the queried range. A round splits the query
along the segments of the call's map and moves each fragment into the call's body, where it reads
as its piece: the fragment is an answer when the call's file is no expansion, and otherwise a
query pending for the call the file comes from, whose expansion reads as that file. What a round
can do is said once, as a rule for invariants of the work list, and each property of the answers
here and in later modules is such an invariant. So every answer lies inside the body of the
outermost call and reads as a piece of the range, and a strict answer, as long as the range,
reads as the whole of it. -/
namespace MacroTrace

namespace Workspace

variable {w : Workspace}

theorem Coherent.text?_of_expansionCall (hw : w.Coherent) {f : FileId} {p : MacroCall}
    {ep : Expansion} (hp : w.expansionCall f = some p) (hs : w.expansions p.key = some (some ep)) :
    w.text? ep.file = w.text? f := by
  unfold expansionCall at hp
  split at hp
  · rename_i x path text tree key hx
    obtain ⟨hpg, rfl⟩ := callOfKey_genuine hp
    obtain ⟨p', out, hp', hk, hout, htext⟩ := hw.produced f _ p.key hx rfl
    obtain rfl := hw.call_eq_of_key hp' hpg hk hout
    obtain ⟨out', hout', hfile, -⟩ := hw.cached _ ep hs p' hp' rfl
    rw [hout, Option.some.injEq] at hout'
    subst hout'
    simp [text?, hfile, hx, htext]
  · cases hp

/-- The base of a file's offsets: zero for a file no call expands to, the stored base of the
expansion of the call it comes from otherwise. -/
def FileBase (w : Workspace) (f : FileId) (base : Nat) : Prop :=
  (w.expansionCall f = none ∧ base = 0) ∨
    ∃ p ep, w.expansionCall f = some p ∧ w.expansions p.key = some (some ep) ∧ ep.base = base

end Workspace

theorem Segment.fromBodyRelative?_eq_some {f f' : Segment} {body : TextRange}
    (h : f.fromBodyRelative? body = some f') :
    f' = { f with src := f.src + body.start } ∧ f.src + body.start ≤ body.stop := by
  simp only [Segment.fromBodyRelative?, Segment.shiftRight?, Option.filter_eq_some_iff,
    Option.map_eq_some_iff, Offset.add?_eq_some_iff] at h
  obtain ⟨⟨src, ⟨-, rfl⟩, rfl⟩, hle⟩ := h
  exact ⟨rfl, by simpa using hle⟩

theorem Expansion.MapsBody.fragment {w : Workspace} {d : MacroCall} {ed : Expansion}
    (hm : ed.MapsBody w d) {q f : Segment} (hf : ed.map.Fragment q f) :
    ∃ lb T S, d.localBodyRange? = some lb ∧ w.text? ed.file = some T ∧ w.text? d.file = some S ∧
      q.dst ≤ f.dst ∧ f.dst + f.len ≤ q.dst + q.len ∧ f.src + f.len ≤ lb.len ∧
      Mirrors T.toList S.toList (q.src + (f.dst - q.dst)) (lb.start + f.src) f.len := by
  obtain ⟨u, hu, D, h₁, h₂, h₃, h₄, hsrc, hdst⟩ := hf
  obtain ⟨lb, T, S, piece, hlb, hT, hS, hfit, -, hspanT, hspanS⟩ := hm.copies u hu
  have hunit : Mirrors T.toList S.toList u.dst (lb.start + u.src) u.len := by
    simpa [Segment.dstSpan, TextRange.len] using Mirrors.of_spans hspanT hspanS
  have hpart := hunit.sub (k := D - u.dst) (l := f.len) (by omega)
  refine ⟨lb, T, S, hlb, hT, hS, by omega, by omega, by omega, ?_⟩
  rw [show q.src + (f.dst - q.dst) = u.dst + (D - u.dst) by omega,
    show lb.start + f.src = lb.start + u.src + (D - u.dst) by omega]
  exact hpart

namespace Workspace

variable {w w' : Workspace} {c d : MacroCall} {e : Expansion} {r : TextRange} {q : Segment}

/-- A range `s` reads as the range `p` of the expansion `e` of a call `c`: `s` lies inside the
body of a call that climbing from `c` reaches, in a file that no call expands to, and `p` is in
virtual offsets. -/
def Traces (w : Workspace) (c : MacroCall) (e : Expansion) (s p : TextRange) : Prop :=
  ∃ top body source text, w.Climbs c top ∧ w.expansionCall top.file = none ∧
    top.localBodyRange? = some body ∧ body.start ≤ s.start ∧ s.stop ≤ body.stop ∧
    w.text? top.file = some source ∧ w.text? e.file = some text ∧ e.base ≤ p.start ∧
    s.len = p.len ∧ sliceText source s =
      sliceText text ⟨p.start - e.base, p.stop - e.base, Nat.sub_le_sub_right p.le e.base⟩

theorem Traces.mono (hw : w.Coherent) (hg : w.Grows w') {s p : TextRange}
    (h : w.Traces c e s p) : w'.Traces c e s p := by
  obtain ⟨top, body, source, text, hc, htop, hb, h₁, h₂, hs, ht, h₃, h₄, h₅⟩ := h
  have hfile : ∃ x, w.file? top.file = some x := by
    simp only [text?, Option.map_eq_some_iff] at hs
    obtain ⟨x, hx, -⟩ := hs
    exact ⟨x, hx⟩
  obtain ⟨x, hx⟩ := hfile
  exact ⟨top, body, source, text, hc.mono hg, (hw.expansionCall_grows hg hx).trans htop, hb, h₁,
    h₂, hg.text? hs, hg.text? ht, h₃, h₄, h₅⟩

/-- A query pending in the range lookup from the expansion `e` of `c` over the range `r`: it asks
a call `d` that climbing from `c` reaches, with a stored expansion, for the part at `q.src` of
that expansion, which reads as the piece at `q.dst` of `e`. -/
structure Pending (w : Workspace) (c : MacroCall) (e : Expansion) (r : TextRange) (d : MacroCall)
    (q : Segment) : Prop where
  genuine : d.Genuine w
  climbs : w.Climbs c d
  within : r.start ≤ q.dst ∧ q.dst + q.len ≤ r.stop
  stored : ∃ ed, w.expansions d.key = some (some ed) ∧ (ed.base ≤ q.src → e.base ≤ q.dst ∧
    ∃ t text, w.text? ed.file = some t ∧ w.text? e.file = some text ∧
      Mirrors t.toList text.toList (q.src - ed.base) (q.dst - e.base) q.len)

theorem Pending.mono (hg : w.Grows w') (h : w.Pending c e r d q) : w'.Pending c e r d q := by
  obtain ⟨hd, hc, hin, ed, hs, hm⟩ := h
  refine ⟨hd.mono hg, hc.mono hg, hin, ed, hg.expansions _ _ hs, fun hb => ?_⟩
  obtain ⟨he, t, text, ht, htext, hmir⟩ := hm hb
  exact ⟨he, t, text, hg.text? ht, hg.text? htext, hmir⟩

/-- One level of the range lookup. A fragment of a pending query, moved into the body of its
call `d`, lies in the body, stays within `r`, and reads, in `d`'s file counted from its base, as
its piece of `e`. -/
theorem Pending.level (hw : w.Coherent) (hq : w.Pending c e r d q) {ed : Expansion}
    (hs : w.expansions d.key = some (some ed)) {loc : Segment}
    (hloc : q.shiftLeft? ed.base = some loc) {f : Segment} (hf : ed.map.Fragment loc f)
    {body lb : TextRange} {base : Nat} (hlb : d.localBodyRange? = some lb)
    (hstart : body.start = lb.start + base) (hstop : body.stop = lb.stop + base) :
    f.src + f.len ≤ lb.len ∧ r.start ≤ f.dst ∧ f.dst + f.len ≤ r.stop ∧ e.base ≤ f.dst ∧
      ∃ S text, w.text? d.file = some S ∧ w.text? e.file = some text ∧
        Mirrors S.toList text.toList (lb.start + f.src) (f.dst - e.base) f.len := by
  obtain ⟨hd, -, ⟨hr₁, hr₂⟩, ed', hs', hm⟩ := hq
  obtain rfl : ed' = ed := by simpa [hs] using hs'.symm
  simp only [Segment.shiftLeft?, Option.map_eq_some_iff, Offset.sub?_eq_some_iff] at hloc
  obtain ⟨src, ⟨hbase, rfl⟩, rfl⟩ := hloc
  obtain ⟨lb', T, S, hlb', hT, hS, hd₁, hd₂, hfit, hmir⟩ :=
    ((hw.cached _ ed' hs d hd rfl).mapsBody hw hd).fragment hf
  obtain rfl : lb' = lb := by simpa [hlb] using hlb'.symm
  obtain ⟨he, t, text, ht, htext, hquery⟩ := hm hbase
  obtain rfl : t = T := by simpa [hT] using ht.symm
  dsimp only at hd₁ hd₂ hmir
  have hpart := hquery.sub (k := f.dst - q.dst) (l := f.len) (by omega)
  refine ⟨hfit, by omega, by omega, by omega, S, text, hS, htext, hmir.symm.trans ?_⟩
  rw [show q.dst - e.base + (f.dst - q.dst) = f.dst - e.base by omega] at hpart
  exact hpart

/-- A range the range lookup from the expansion `e` of `c` over `r` answers: it reads as a piece
of `r`. -/
def Answers (w : Workspace) (c : MacroCall) (e : Expansion) (r s : TextRange) : Prop :=
  ∃ p : TextRange, r.start ≤ p.start ∧ p.stop ≤ r.stop ∧ w.Traces c e s p

theorem Answers.mono (hw : w.Coherent) (hg : w.Grows w') {s : TextRange}
    (h : w.Answers c e r s) : w'.Answers c e r s := by
  obtain ⟨p, h₁, h₂, h⟩ := h
  exact ⟨p, h₁, h₂, h.mono hw hg⟩

section Level

variable {ed : Expansion} {loc f : Segment} {body lb : TextRange} {base : Nat}

theorem Pending.answer (hw : w.Coherent) (hq : w.Pending c e r d q)
    (hs : w.expansions d.key = some (some ed)) (hloc : q.shiftLeft? ed.base = some loc)
    (hf : ed.map.Fragment loc f) (hlb : d.localBodyRange? = some lb)
    (hstart : body.start = lb.start) (hstop : body.stop = lb.stop)
    (hnone : w.expansionCall d.file = none) {s : TextRange}
    (hsrc : Segment.srcRange { f with src := f.src + body.start } = .ok s) :
    w.Answers c e r s := by
  obtain ⟨hfit, hr₁, hr₂, hbase, S, text, hS, htext, hmir⟩ :=
    hq.level hw hs hloc hf hlb (hstart.trans (Nat.add_zero _).symm)
      (hstop.trans (Nat.add_zero _).symm)
  simp only [Segment.srcRange, TextRange.ofLength] at hsrc
  split at hsrc
  · cases hsrc
    have := lb.le
    simp only [TextRange.len] at hfit
    refine ⟨⟨f.dst, f.dst + f.len, by omega⟩, hr₁, hr₂, d, lb, S, text, hq.climbs, hnone, hlb,
      by simp only; omega, by simp only; omega, hS, htext, hbase, by simp [TextRange.len], ?_⟩
    simp only [sliceText]
    rw [show f.src + body.start = lb.start + f.src by omega, show f.dst + f.len - e.base =
      f.dst - e.base + f.len by omega, hmir.slice]
  · cases hsrc

theorem Pending.push (hw : w.Coherent) (hq : w.Pending c e r d q)
    (hs : w.expansions d.key = some (some ed)) (hloc : q.shiftLeft? ed.base = some loc)
    (hf : ed.map.Fragment loc f) (hlb : d.localBodyRange? = some lb)
    (hstart : body.start = lb.start + base) (hstop : body.stop = lb.stop + base) {p : MacroCall}
    {ep : Expansion} (hp : w.expansionCall d.file = some p)
    (hps : w.expansions p.key = some (some ep)) (hbase : ep.base = base) :
    w.Pending c e r p { f with src := f.src + body.start } := by
  obtain ⟨hfit, hr₁, hr₂, he, S, text, hS, htext, hmir⟩ :=
    hq.level hw hs hloc hf hlb hstart hstop
  refine ⟨expansionCall_genuine hp, hq.climbs.tail hp, ⟨hr₁, hr₂⟩, ep, hps, fun _ => ⟨he, S, text,
    (hw.text?_of_expansionCall hp hps).trans hS, htext, ?_⟩⟩
  rw [show f.src + body.start - ep.base = lb.start + f.src by omega]
  exact hmir

end Level

end Workspace

namespace Session

variable {w : Workspace}

theorem fileStartOffset_base (hnone : w.mapOverride = none) (f : FileId) :
    Sound w (fileStartOffset f) fun b w' => ∀ base, b = some base → w'.FileBase f base := by
  unfold fileStartOffset
  refine Sound.bind (expansionCall_sound f) ?_
  rintro a w₁ - - ⟨rfl, rfl⟩
  split
  · rename_i hcall
    exact Sound.pure (by rintro base ⟨⟩; exact .inl ⟨hcall, rfl⟩)
  · rename_i p hp
    refine Sound.bind (expansion_sound (Workspace.expansionCall_genuine hp)) ?_
    rintro r w₂ hg - hr
    refine Sound.pure ?_
    rintro base hb
    obtain ⟨ep, rfl, rfl⟩ := Option.map_eq_some_iff.1 hb
    exact .inr ⟨p, ep, hg.expansionCall hp, hr (hg.mapOverride.trans hnone) ep rfl, rfl⟩

theorem bodyTextRange_base (hnone : w.mapOverride = none) (d : MacroCall) :
    Sound w (bodyTextRange d) fun b w' => ∀ body, b = some body → ∃ lb base,
      d.localBodyRange? = some lb ∧ body.start = lb.start + base ∧ body.stop = lb.stop + base ∧
      body.stop ≤ maxOffset ∧ w'.FileBase d.file base := by
  unfold bodyTextRange
  split
  · rename_i lb hlb
    refine Sound.bind (fileStartOffset_base hnone d.file) ?_
    rintro b w₁ - - hb
    split
    · rename_i base
      refine Sound.bind_lift fun s hs => Sound.pure ?_
      rintro body ⟨⟩
      obtain ⟨h₁, h₂, h₃⟩ := TextRange.shiftRight_eq_ok hs
      exact ⟨lb, base, hlb, h₁, h₂, by omega, hb base rfl⟩
    · exact Sound.pure (by rintro body ⟨⟩)
  · exact Sound.pure (by rintro body ⟨⟩)

/-- What a round of the range work list read before it collects or pushes, in the workspace `w`
it ends in: the query `q` asks the call `d`, whose expansion `e` is the one stored with the map
override, if any, in place of its map; the query moves to `loc` below `e`'s base, where the map
splits it into `frags`; and `moved` are the fragments moved into the call's body `body`. -/
structure RangeRound (w : Workspace) (d : MacroCall) (q : Segment) (e : Expansion) (loc : Segment)
    (frags : List Segment) (body : TextRange) (moved : List Segment) : Prop where
  expansion : ∃ s, w.expansions d.key = some (some s) ∧
    e = { s with map := w.mapOverride.getD s.map }
  shifted : q.shiftLeft? e.base = some loc
  splits : e.map.rangeToBody loc = .ok (.mapped frags)
  moved : ∀ f' ∈ moved, ∃ f ∈ frags,
    f' = { f with src := f.src + body.start } ∧ f.src + body.start ≤ body.stop

theorem RangeRound.stored {d : MacroCall} {q : Segment} {e : Expansion} {loc : Segment}
    {frags : List Segment} {body : TextRange} {moved : List Segment}
    (h : RangeRound w d q e loc frags body moved) (hnone : w.mapOverride = none) :
    w.expansions d.key = some (some e) := by
  obtain ⟨s, hs, rfl⟩ := h.expansion
  rw [hnone]
  exact hs

/-- The range work list keeps an invariant round by round. `I w work acc` holds of the workspace,
the queries pending and the ranges collected; it names a genuine call at the head of the list and
carries over to a grown workspace when the head query is dropped. A round that collects the
source ranges of the fragments it moved into the body of a call in a file no call expands to
keeps it, and so does a round that pushes them as queries of the call one level out. Then every
answer of the rounds satisfies `D`, which holds of what `I` collected and of nothing; the body
lookup answers what `B` says of it. -/
theorem rangeRounds_sound_of_invariant {limit : Nat}
    {I : Workspace → List (MacroCall × Segment × Nat) → List TextRange → Prop}
    {D : List TextRange → Workspace → Prop} {B : MacroCall → Option TextRange → Workspace → Prop}
    (hnil : ∀ w, D [] w) (hdone : ∀ {w work acc}, I w work acc → D acc w)
    (hcall : ∀ {w x work acc}, I w (x :: work) acc → x.1.Genuine w)
    (hbody : ∀ {w w' x work acc}, I w (x :: work) acc → w.Grows w' →
      Sound w' (bodyTextRange x.1) (B x.1))
    (hdrop : ∀ {w w' x work acc}, w.Coherent → I w (x :: work) acc → w.Grows w' → I w' work acc)
    (hcollect : ∀ {w w' d q depth work acc e loc frags body moved rs}, w.Coherent →
      I w ((d, q, depth) :: work) acc → depth ≤ limit → w.Grows w' → w'.Coherent →
      RangeRound w' d q e loc frags body moved → B d (some body) w' →
      w'.expansionCall d.file = none → (∀ s ∈ rs, ∃ f' ∈ moved, f'.srcRange = .ok s) →
      I w' work (acc ++ rs))
    (hpush : ∀ {w w' d q depth work acc e loc frags body moved p}, w.Coherent →
      I w ((d, q, depth) :: work) acc → depth ≤ limit → w.Grows w' → w'.Coherent →
      RangeRound w' d q e loc frags body moved → B d (some body) w' →
      w'.expansionCall d.file = some p → I w' (moved.map (fun f => (p, f, depth + 1)) ++ work) acc) :
    ∀ n work acc w, w.Coherent → I w work acc → Sound w (rangeRounds limit n work acc) D
  | 0, _, _, _, _, hinv => Sound.pure (hdone hinv)
  | _ + 1, [], _, _, _, hinv => Sound.pure (hdone hinv)
  | n + 1, (d, q, depth) :: work, acc, w, hw, hinv => by
    have next : ∀ w', w.Grows w' → w'.Coherent → Sound w' (rangeRounds limit n work acc) D :=
      fun w' hg hw' => @rangeRounds_sound_of_invariant limit I D B hnil hdone hcall hbody hdrop
        hcollect hpush n work acc w' hw' (hdrop hw hinv hg)
    rw [rangeRounds]
    split
    · exact Sound.pure (hnil w)
    rename_i hle
    refine Sound.bind (expansion_sound_override (hcall hinv)) ?_
    rintro e? w₁ hg₁ hw₁ he?
    split
    · rename_i e
      split
      · rename_i loc hloc
        refine Sound.bind_lift fun o ho => ?_
        split
        · exact next w₁ hg₁ hw₁
        · exact Sound.pure (hnil w₁)
        · rename_i frags
          refine Sound.bind (hbody hinv hg₁) ?_
          rintro b? w₂ hg₂ hw₂ hb
          split
          · rename_i body
            have hround : RangeRound w₂ d q e loc frags body
                (frags.filterMap (Segment.fromBodyRelative? · body)) := by
              obtain ⟨st, hst, he⟩ := he? e rfl
              refine ⟨⟨st, hg₂.expansions _ _ hst, by rw [hg₂.mapOverride]; exact he⟩,
                hloc, ho, fun f' hf' => ?_⟩
              obtain ⟨f, hf, hrel⟩ := List.mem_filterMap.1 hf'
              exact ⟨f, hf, Segment.fromBodyRelative?_eq_some hrel⟩
            refine Sound.bind (expansionCall_sound d.file) ?_
            rintro a w₃ - - ⟨rfl, hw₃⟩
            subst w₃
            split
            · rename_i hnc
              refine Sound.bind (Sound.mapM_lift _ _) ?_
              rintro rs w₄ - - ⟨hw₄, hrs⟩
              subst w₄
              exact @rangeRounds_sound_of_invariant limit I D B hnil hdone hcall hbody hdrop
                hcollect hpush n work _ w₂ hw₂
                (hcollect hw hinv (Nat.not_lt.1 hle) (hg₁.trans hg₂) hw₂ hround hb hnc hrs)
            · rename_i p hp
              exact @rangeRounds_sound_of_invariant limit I D B hnil hdone hcall hbody hdrop
                hcollect hpush n _ acc w₂ hw₂
                (hpush hw hinv (Nat.not_lt.1 hle) (hg₁.trans hg₂) hw₂ hround hb hp)
          · exact next w₂ (hg₁.trans hg₂) hw₂
      · exact next w₁ hg₁ hw₁
    · exact Sound.pure (hnil w₁)

theorem rangeRounds_answers (c : MacroCall) (e : Expansion) (r : TextRange) (limit : Nat)
    (n : Nat) (work : List (MacroCall × Segment × Nat)) (acc : List TextRange) (w : Workspace)
    (hw : w.Coherent) (hnone : w.mapOverride = none) (hwork : ∀ x ∈ work, w.Pending c e r x.1 x.2.1)
    (hacc : ∀ s ∈ acc, w.Answers c e r s) :
    Sound w (rangeRounds limit n work acc) fun rs w' => ∀ s ∈ rs, w'.Answers c e r s := by
  refine rangeRounds_sound_of_invariant (I := fun w work acc => w.mapOverride = none ∧
      (∀ x ∈ work, w.Pending c e r x.1 x.2.1) ∧ ∀ s ∈ acc, w.Answers c e r s)
    (B := fun d b w' => ∀ body, b = some body → ∃ lb base, d.localBodyRange? = some lb ∧
      body.start = lb.start + base ∧ body.stop = lb.stop + base ∧ body.stop ≤ maxOffset ∧
      w'.FileBase d.file base)
    (fun _ => by simp) (fun h => h.2.2) (fun h => (h.2.1 _ List.mem_cons_self).genuine)
    (fun h hg => bodyTextRange_base (hg.mapOverride.trans h.1) _) ?drop ?collect ?push
    n work acc w hw ⟨hnone, hwork, hacc⟩
  case drop =>
    intro w w' x work acc hw h hg
    exact ⟨hg.mapOverride.trans h.1, fun y hy => (h.2.1 y (List.mem_cons_of_mem _ hy)).mono hg,
      fun s hs => (h.2.2 s hs).mono hw hg⟩
  case collect =>
    intro w w' d q depth work acc ed loc frags body moved rs hw h _ hg hw' hround hb hnc hrs
    obtain ⟨hnone, hwork, hacc⟩ := h
    have hnone' := hg.mapOverride.trans hnone
    obtain ⟨lb, base, hlb, hstart, hstop, -, hfb⟩ := hb body rfl
    obtain rfl : base = 0 := by
      rcases hfb with ⟨-, h⟩ | ⟨p, ep, hp, -, -⟩
      · exact h
      · rw [hnc] at hp
        cases hp
    refine ⟨hnone', fun x hx => (hwork x (List.mem_cons_of_mem _ hx)).mono hg, fun s hs => ?_⟩
    rcases List.mem_append.1 hs with hs | hs
    · exact (hacc s hs).mono hw hg
    · obtain ⟨f', hf', hsrc⟩ := hrs s hs
      obtain ⟨f, hf, rfl, -⟩ := hround.moved f' hf'
      exact ((hwork _ List.mem_cons_self).mono hg).answer hw' (hround.stored hnone') hround.shifted
        (OffsetMap.rangeToBody_fragment hround.splits f hf) hlb hstart hstop hnc hsrc
  case push =>
    intro w w' d q depth work acc ed loc frags body moved p hw h _ hg hw' hround hb hp
    obtain ⟨hnone, hwork, hacc⟩ := h
    have hnone' := hg.mapOverride.trans hnone
    obtain ⟨lb, base, hlb, hstart, hstop, -, hfb⟩ := hb body rfl
    obtain ⟨ep, hps, hbase⟩ : ∃ ep, w'.expansions p.key = some (some ep) ∧ ep.base = base := by
      rcases hfb with ⟨h, -⟩ | ⟨p', ep, hp', hps, hbase⟩
      · rw [h] at hp
        cases hp
      · rw [hp, Option.some.injEq] at hp'
        subst hp'
        exact ⟨ep, hps, hbase⟩
    refine ⟨hnone', fun x hx => ?_, fun s hs => (hacc s hs).mono hw hg⟩
    simp only [List.mem_append, List.mem_map] at hx
    rcases hx with ⟨f', hf', rfl⟩ | hx
    · obtain ⟨f, hf, rfl, -⟩ := hround.moved f' hf'
      exact ((hwork _ List.mem_cons_self).mono hg).push hw' (hround.stored hnone') hround.shifted
        (OffsetMap.rangeToBody_fragment hround.splits f hf) hlb hstart hstop hp hps hbase
    · exact (hwork x (List.mem_cons_of_mem _ hx)).mono hg

theorem rangeToBody_answers {c : MacroCall} {e : Expansion} (hnone : w.mapOverride = none)
    (hc : c.Genuine w) (hs : w.expansions c.key = some (some e)) (r : TextRange) :
    Sound w (rangeToBody c r) fun rs w' => ∀ s ∈ rs, w'.Answers c e r s := by
  unfold rangeToBody
  refine Sound.bind maxDepth_sound ?_
  rintro limit w' - hw ⟨-, hw'⟩
  subst w'
  refine rangeRounds_answers c e r limit _ _ [] w hw hnone ?_ (by simp)
  intro x hx
  rw [List.mem_singleton] at hx
  subst hx
  obtain ⟨out, -, hfile, -⟩ := hw.cached _ e hs c hc rfl
  have := r.le
  refine ⟨hc, .refl, ⟨Nat.le_refl _, by simp only [TextRange.len]; omega⟩, e, hs, fun hb =>
    ⟨hb, out.text, out.text, ?_, ?_, Mirrors.refl _ _ _⟩⟩ <;> simp [Workspace.text?, hfile]

end Session

/-- Ranges of an expansion map back into the body of the outermost call. Every range that the
lookup from a range `r` of the expansion `e` of a listed call answers lies inside the body of the
call that climbing from the call's file ends at, in a file that no call expands to, and reads as
a piece of `r`; a strict answer reads as the whole of `r`. -/
theorem expansion_ranges_trace_to_outer_body {w : Workspace} (hw : w.Reachable none)
    {f : FileId} {c : MacroCall} (hc : c ∈ w.callsIn f) {e : Expansion} {w₁ : Workspace}
    (he : (Session.expansion c).run.run w = (.ok (some e), w₁)) (r : TextRange) :
    (∀ rs w₂, (Session.rangeToBody c r).run.run w₁ = (.ok rs, w₂) →
      ∀ s ∈ rs, ∃ p : TextRange, r.start ≤ p.start ∧ p.stop ≤ r.stop ∧ w₂.Traces c e s p) ∧
    (∀ s w₂, (Session.rangeToBodyStrict c r).run.run w₁ = (.ok (some s), w₂) →
      w₂.Traces c e s r) := by
  obtain ⟨hw₁, hnone₁, hc₁, hs₁, -⟩ :=
    Session.expansion_run_stored hw.coherent hw.mapOverride (Workspace.callsIn_genuine hc) he
  obtain ⟨-, -, hpost⟩ := Session.rangeToBody_answers hnone₁ hc₁ hs₁ r hw₁
  refine ⟨fun rs w₂ hr => ?_, fun s w₂ hr => ?_⟩
  · rw [hr] at hpost
    exact hpost rs rfl
  · obtain ⟨rs, w₂', hrs, hr⟩ := Session.run_bind_eq_ok hr
    rw [hrs] at hpost
    split at hr
    · rename_i s'
      rw [Session.run_pure, Prod.mk.injEq, Except.ok.injEq] at hr
      obtain ⟨hif, rfl⟩ := hr
      split at hif
      · rename_i hlen
        rw [Option.some.injEq] at hif
        subst hif
        obtain ⟨p, h₁, h₂, htr⟩ := hpost [s'] rfl s' (List.mem_singleton_self s')
        have hlp : s'.len = p.len := by
          obtain ⟨-, -, -, -, -, -, -, -, -, -, -, -, h, -⟩ := htr
          exact h
        obtain rfl : p = r := by
          rw [beq_iff_eq] at hlen
          have := p.le
          simp only [TextRange.len] at hlen hlp
          exact TextRange.eq_of_start_stop (by omega) (by omega)
        exact htr
      · cases hif
    · rw [Session.run_pure, Prod.mk.injEq, Except.ok.injEq] at hr
      cases hr.1

/-- A range of the expansion of a call that parenthesises its argument traces to the argument. -/
theorem parenthesised_range_traces_to_body : ∃ (w : Workspace) (c : MacroCall) (e : Expansion)
    (w₁ : Workspace), w.Reachable none ∧ c ∈ w.callsIn 0 ∧
      (Session.expansion c).run.run w = (.ok (some e), w₁) ∧ ∃ s w₂,
        (Session.rangeToBodyStrict c ⟨1, 2, Nat.le_succ 1⟩).run.run w₁ = (.ok (some s), w₂) ∧
        w₂.Traces c e s ⟨1, 2, Nat.le_succ 1⟩ := by
  have hw := @Workspace.Reachable.create none [("paren", .template "$x" "($x)")]
    [⟨"lib.rs", "paren!(a)", 0⟩] defaultMaxDepth _ _ rfl
  refine ⟨_, _, _, _, hw, List.get_mem _ ⟨0, ?listed⟩, Session.run_eq_of_isSome ?expands, _, _,
    Session.run_eq_of_isSome ?strict, ?traces⟩
  case traces =>
    exact (expansion_ranges_trace_to_outer_body hw (List.get_mem _ _)
      (Session.run_eq_of_isSome ?expands) _).2 _ _ (Session.run_eq_of_isSome ?strict)
  case listed => decide +kernel
  case expands => decide +kernel
  case strict => decide +kernel

end MacroTrace
