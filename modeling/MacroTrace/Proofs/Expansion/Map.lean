import MacroTrace.Proofs.Workspace.Request

/-! The map of an expansion. The segments an expander records follow one another through the
expansion text, so the map keeps them in their order, finds their destinations disjoint and reads
no offset past the largest one. Each segment is a copy: its destination in the expansion text
holds the characters at its source in the call's file, counted from the start of the call's body.
Every expansion a request gets for a call the workspace lists has such a map, unless the request
overrides maps. -/
namespace MacroTrace

namespace OffsetMap

theorem dstDisjoint_of_ordered : ∀ {segs : List Segment},
    segs.Pairwise (fun a b => a.dst + a.len ≤ b.dst) → (∀ u ∈ segs, u.dst + u.len ≤ maxOffset) →
    dstDisjoint segs = .ok true
  | [], _, _ => rfl
  | [_], _, _ => rfl
  | a :: b :: rest, hp, hb => by
    have hab : a.dst + a.len ≤ b.dst := List.rel_of_pairwise_cons hp List.mem_cons_self
    have hend : a.dstEnd = .ok (a.dst + a.len) :=
      Offset.add_eq_ok_iff.2 ⟨hb a List.mem_cons_self, rfl⟩
    rw [dstDisjoint, hend]
    simp only [bind, Except.bind, if_pos hab]
    exact dstDisjoint_of_ordered (List.pairwise_cons.1 hp).2
      fun u hu => hb u (List.mem_cons_of_mem a hu)

theorem ofList_of_ordered {segs : List Segment} (hpos : ∀ u ∈ segs, 0 < u.len)
    (hord : segs.Pairwise fun a b => a.dst + a.len ≤ b.dst)
    (hfit : ∀ u ∈ segs, u.dst + u.len ≤ maxOffset) : ofList segs = .ok ⟨segs, true⟩ := by
  have hsorted : segs.mergeSort Segment.le = segs := by
    refine List.mergeSort_of_pairwise (hord.imp_of_mem fun {a b} ha _ h => ?_)
    have := hpos a ha
    simp only [Segment.le, Bool.or_eq_true, decide_eq_true_eq]
    exact Or.inl (by omega)
  simp only [ofList, hsorted, dstDisjoint_of_ordered hord hfit]
  rfl

end OffsetMap

/-- An expansion's map describes copies of a call's body: its segments are non-empty and follow
one another with disjoint destinations inside the expansion text, and each holds at its
destination the characters found at its source, counted from the start of the call's body in the
call's file. -/
structure Expansion.MapsBody (w : Workspace) (c : MacroCall) (e : Expansion) : Prop where
  disjoint : e.map.disjoint = true
  pos : ∀ u ∈ e.map.segments, 0 < u.len
  ordered : e.map.segments.Pairwise fun a b => a.dst + a.len ≤ b.dst
  copies : ∀ u ∈ e.map.segments, ∃ body text source piece,
    c.localBodyRange? = some body ∧ w.text? e.file = some text ∧ w.text? c.file = some source ∧
    u.src + u.len ≤ body.len ∧ u.dst + u.len ≤ text.utf8ByteSize ∧
    Spans text.toList u.dstSpan piece ∧
    Spans source.toList ⟨body.start + u.src, body.start + u.src + u.len, Nat.le_add_right _ _⟩ piece

namespace Workspace

variable {w : Workspace} {c : MacroCall} {e : Expansion}

theorem Faithful.mapsBody (hw : w.Coherent) (hc : c.Genuine w) (h : w.Faithful c e) :
    e.MapsBody w c := by
  obtain ⟨out, hrun, hfile, hmap, -, hbase⟩ := h
  obtain ⟨source, hsource, hs, -⟩ := hc.spells hw
  obtain ⟨piece, hcopies, hbody⟩ := runMacro_copies hsource hs hc.1.2 hrun
  have hfit : ∀ u ∈ out.segments, u.dst + u.len ≤ maxOffset := fun u hu => by
    have := hcopies.fits hu
    omega
  rw [OffsetMap.ofList_of_ordered hcopies.pos hcopies.ordered hfit] at hmap
  have he : e.map = ⟨out.segments, true⟩ := (Except.ok.inj hmap).symm
  have htext : w.text? e.file = some out.text := by simp [text?, hfile]
  refine ⟨by rw [he], by simpa [he] using hcopies.pos, by simpa [he] using hcopies.ordered, ?_⟩
  intro u hu
  rw [he] at hu
  obtain ⟨p, hdst, hsrc⟩ := hcopies.copies u hu
  cases hb : c.localBodyRange? with
  | none =>
    rw [hb] at hbody
    subst hbody
    have hstop : u.src + u.len ≤ bytesOf [] := hsrc.stop_le
    have hpos := hcopies.pos u hu
    simp only [bytesOf, List.foldr_nil] at hstop
    omega
  | some body =>
    rw [hb] at hbody
    have hlen : bytesOf piece = body.len := by
      obtain ⟨-, -, -, -, h⟩ := hbody
      exact h
    have hstop := hsrc.stop_le
    simp only [Segment.srcSpan] at hstop
    refine ⟨body, out.text, source, p, rfl, htext, hsource, by omega, hcopies.fits hu, hdst, ?_⟩
    exact (hbody.trans hsrc).congr rfl (by simp [Segment.srcSpan]; omega)

end Workspace

namespace Session

variable {w : Workspace} {c : MacroCall}

theorem expansion_mapsBody (hw : w.Coherent) (hnone : w.mapOverride = none) (hc : c.Genuine w)
    {e : Expansion} {w' : Workspace} (he : (expansion c).run.run w = (.ok (some e), w')) :
    e.MapsBody w' c := by
  obtain ⟨hw', hg, hpost⟩ := expansion_sound hc hw
  rw [he] at hw' hg hpost
  have hstored := hpost (some e) rfl (hg.mapOverride.trans hnone) e rfl
  exact (hw'.cached _ e hstored c (hc.mono hg) rfl).mapsBody hw' (hc.mono hg)

theorem run_eq_of_isSome {α : Type} {x : Session (Option α)}
    (h : ((x.run.run w).1.toOption.bind id).isSome = true) :
    x.run.run w = (.ok (some (((x.run.run w).1.toOption.bind id).get h)), (x.run.run w).2) := by
  revert h
  rcases x.run.run w with ⟨_ | _ | a, w'⟩ <;> intro h
  · simp [Except.toOption] at h
  · simp [Except.toOption] at h
  · rfl

end Session

/-- Every expansion that a request without a map override gets for a call listed in one of its
files maps the call's body: its segments are non-empty, follow one another with disjoint
destinations inside the expansion text, and copy the body's text from their sources to their
destinations. -/
theorem expansion_maps_call_body {w : Workspace} (hw : w.Reachable none) {f : FileId}
    {c : MacroCall} (hc : c ∈ w.callsIn f) {e : Expansion} {w' : Workspace}
    (he : (Session.expansion c).run.run w = (.ok (some e), w')) : e.MapsBody w' c :=
  Session.expansion_mapsBody hw.coherent hw.mapOverride (Workspace.callsIn_genuine hc) he

/-- A call of a macro that parenthesises its argument expands to a map of its body. -/
theorem parenthesised_call_maps_body : ∃ (w : Workspace) (c : MacroCall), w.Reachable none ∧
    c ∈ w.callsIn 0 ∧ ∃ e w', (Session.expansion c).run.run w = (.ok (some e), w') ∧
      e.MapsBody w' c := by
  have hw := @Workspace.Reachable.create none [("paren", .template "$x" "($x)")]
    [⟨"lib.rs", "paren!(a)", 0⟩] defaultMaxDepth _ _ rfl
  refine ⟨_, _, hw, List.get_mem _ ⟨0, ?listed⟩, _, _, Session.run_eq_of_isSome ?expands, ?maps⟩
  case maps =>
    exact expansion_maps_call_body hw (List.get_mem _ _) (Session.run_eq_of_isSome ?expands)
  case listed => decide +kernel
  case expands => decide +kernel

end MacroTrace
