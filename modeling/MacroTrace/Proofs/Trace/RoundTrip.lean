import MacroTrace.Proofs.Expansion.Map
import MacroTrace.Proofs.OffsetMap.Lookup

/-! Offsets go through a call and back. Once a call's expansion is stored, the lookups that move
an offset between the expansion and the call's body read the workspace without changing it: an
expansion offset maps to the body exactly when a segment's destination holds it, to the same
place in the segment's source, and that body offset maps forward to every copy of it, the first
offset among them. -/
namespace MacroTrace

namespace Workspace

variable {w : Workspace} {c : MacroCall} {e : Expansion}

theorem Faithful.base_fits (h : w.Faithful c e) {text : String} (ht : w.text? e.file = some text) :
    e.base + text.utf8ByteSize < maxOffset := by
  obtain ⟨out, -, hfile, -, -, hb⟩ := h
  simp only [text?, hfile, Option.map_some, Option.some.injEq] at ht
  subst ht
  exact hb

theorem Faithful.ordered (hw : w.Coherent) (hc : c.Genuine w) (h : w.Faithful c e)
    {loc : TextRange} (hloc : c.localBodyRange? = some loc) (hfit : loc.stop ≤ maxOffset) :
    e.map.Ordered := by
  have hm := h.mapsBody hw hc
  refine ⟨hm.disjoint, hm.pos, hm.ordered, fun u hu => ?_, fun u hu => ?_⟩
  · obtain ⟨-, text, -, -, -, ht, -, -, hd, -⟩ := hm.copies u hu
    have := h.base_fits ht
    omega
  · obtain ⟨body, -, -, -, hb, -, -, hsrc, -⟩ := hm.copies u hu
    rw [hloc, Option.some.injEq] at hb
    subst hb
    have := loc.le
    simp only [TextRange.len] at hsrc
    omega

theorem Faithful.dst_fits (hw : w.Coherent) (hc : c.Genuine w) (h : w.Faithful c e) :
    ∀ u ∈ e.map.segments, e.base + (u.dst + u.len) ≤ maxOffset := fun u hu => by
  obtain ⟨-, text, -, -, -, ht, -, -, hd, -⟩ := (h.mapsBody hw hc).copies u hu
  have := h.base_fits ht
  omega

end Workspace

theorem TextRange.shiftRight_eq_ok {r s : TextRange} {d : Nat} (h : r.shiftRight d = .ok s) :
    s.start = r.start + d ∧ s.stop = r.stop + d ∧ r.stop + d ≤ maxOffset := by
  unfold TextRange.shiftRight TextRange.shiftRight? at h
  split at h
  · rename_i s' hs
    split at hs
    · rename_i hfit
      cases hs
      cases h
      exact ⟨rfl, rfl, hfit⟩
    · cases hs
  · cases h

namespace Session

variable {α β : Type} {w : Workspace} {c : MacroCall} {e : Expansion}

@[simp] theorem run_get : (get : Session Workspace).run.run w = (.ok w, w) := rfl

@[simp] theorem run_pure {a : α} : (pure a : Session α).run.run w = (.ok a, w) := rfl

@[simp] theorem run_lift {y : Except Fault α} : (lift y).run.run w = (y, w) := by
  cases y <;> rfl

theorem run_bind_of_ok {x : Session α} {f : α → Session β} {a : α} {w' : Workspace}
    (hx : x.run.run w = (.ok a, w')) : (x >>= f).run.run w = (f a).run.run w' := by
  rw [run_bind, hx]

theorem run_bind_eq_ok {x : Session α} {f : α → Session β} {b : β} {w'' : Workspace}
    (h : (x >>= f).run.run w = (.ok b, w'')) :
    ∃ a w', x.run.run w = (.ok a, w') ∧ (f a).run.run w' = (.ok b, w'') := by
  rw [run_bind] at h
  rcases hx : x.run.run w with ⟨_ | a, w'⟩ <;> rw [hx] at h
  · cases h
  · exact ⟨a, w', rfl, h⟩

theorem expansion_run_of_known {r : Option Expansion} (hs : w.expansions c.key = some r)
    (hnone : w.mapOverride = none) : (expansion c).run.run w = (.ok r, w) := by
  unfold expansion storedExpansion
  simp only [run_bind, run_get, hs, run_pure, hnone]

theorem expansion_run_of_stored (hs : w.expansions c.key = some (some e))
    (hnone : w.mapOverride = none) : (expansion c).run.run w = (.ok (some e), w) :=
  expansion_run_of_known hs hnone

theorem bodyTextRange_run_spec {body : TextRange} {w' : Workspace}
    (h : (bodyTextRange c).run.run w = (.ok (some body), w')) :
    ∃ loc base, c.localBodyRange? = some loc ∧ body.start = loc.start + base ∧
      body.stop = loc.stop + base ∧ body.stop ≤ maxOffset := by
  unfold bodyTextRange at h
  split at h
  · rename_i loc hloc
    obtain ⟨b?, w₁, -, h⟩ := run_bind_eq_ok h
    split at h
    · rename_i base
      obtain ⟨r, w₂, hr, h⟩ := run_bind_eq_ok h
      rw [run_lift, Prod.mk.injEq] at hr
      rw [run_pure, Prod.mk.injEq, Except.ok.injEq, Option.some.injEq] at h
      obtain ⟨rfl, -⟩ := h
      obtain ⟨h₁, h₂, h₃⟩ := TextRange.shiftRight_eq_ok hr.1
      exact ⟨loc, base, hloc, h₁, h₂, by omega⟩
    · cases h
  · cases h

theorem expansion_run_stored {w₁ : Workspace} (hw : w.Coherent) (hnone : w.mapOverride = none)
    (hc : c.Genuine w) (he : (expansion c).run.run w = (.ok (some e), w₁)) :
    w₁.Coherent ∧ w₁.mapOverride = none ∧ c.Genuine w₁ ∧ w₁.expansions c.key = some (some e) ∧
      w₁.Faithful c e := by
  obtain ⟨hw₁, hg, hpost⟩ := expansion_sound hc hw
  rw [he] at hw₁ hg hpost
  have hnone₁ := hg.mapOverride.trans hnone
  have hs := hpost (some e) rfl hnone₁ e rfl
  exact ⟨hw₁, hnone₁, hc.mono hg, hs, hw₁.cached _ e hs c (hc.mono hg) rfl⟩

theorem offsetToBodyRelative_run (hs : w.expansions c.key = some (some e))
    (hnone : w.mapOverride = none) (hord : e.map.Ordered) (o : Nat) :
    ∃ r, (offsetToBodyRelative c o).run.run w = (.ok r, w) ∧
      ∀ rel, r = some rel ↔ ∃ u ∈ e.map.segments, e.base ≤ o ∧ OffsetMap.Holds u (o - e.base) ∧
        rel = u.src + (o - e.base - u.dst) := by
  unfold offsetToBodyRelative
  rw [run_bind_of_ok (expansion_run_of_stored hs hnone)]
  by_cases hbase : e.base ≤ o
  · have hsub : Offset.sub? o e.base = some (o - e.base) := Offset.sub?_eq_some_iff.2 ⟨hbase, rfl⟩
    by_cases hex : ∃ u ∈ e.map.segments, OffsetMap.Holds u (o - e.base)
    · obtain ⟨u, hu, hh⟩ := hex
      simp only [hsub, run_bind, run_lift, hord.toBody_of_holds hu hh, run_pure, Outcome.toOption]
      refine ⟨_, rfl, fun rel => ⟨?_, ?_⟩⟩
      · rintro ⟨⟩
        exact ⟨u, hu, hbase, hh, rfl⟩
      · rintro ⟨v, hv, -, hhv, rfl⟩
        rw [hord.holds_unique hu hv hh hhv]
    · have hnot : ∀ u ∈ e.map.segments, ¬ OffsetMap.Holds u (o - e.base) :=
        fun u hu hh => hex ⟨u, hu, hh⟩
      simp only [hsub, run_bind, run_lift, hord.toBody_of_not_holds hnot, run_pure,
        Outcome.toOption]
      refine ⟨_, rfl, fun rel => ⟨by rintro ⟨⟩, ?_⟩⟩
      rintro ⟨u, hu, -, hh, -⟩
      exact absurd hh (hnot u hu)
  · have hsub : Offset.sub? o e.base = none := by
      unfold Offset.sub?
      simp [hbase]
    simp only [hsub, run_pure]
    refine ⟨_, rfl, fun rel => ⟨by rintro ⟨⟩, ?_⟩⟩
    rintro ⟨u, -, hle, -⟩
    exact absurd hle hbase

theorem fromBodyRelative_run {body : TextRange} {w' : Workspace}
    (hb : (bodyTextRange c).run.run w = (.ok (some body), w')) (rel : Nat) :
    (fromBodyRelative c rel).run.run w =
      (.ok ((Offset.add? body.start rel).filter (· ≤ body.stop)), w') := by
  unfold fromBodyRelative
  rw [run_bind_of_ok hb]
  rfl

theorem toBodyRelative_run {body : TextRange} {w' : Workspace}
    (hb : (bodyTextRange c).run.run w = (.ok (some body), w')) (off : Nat) :
    (toBodyRelative c off).run.run w =
      (.ok (if body.contains off then some (off - body.start) else none), w') := by
  unfold toBodyRelative
  rw [run_bind_of_ok hb]
  rfl

theorem mapM_lift_add (base : Nat) : ∀ (l : List Nat) (w : Workspace),
    (∀ x ∈ l, x + base ≤ maxOffset) →
    (l.mapM fun x => lift (Offset.add x base)).run.run w = (.ok (l.map (· + base)), w)
  | [], _, _ => rfl
  | x :: l, w, h => by
    have hx : Offset.add x base = .ok (x + base) :=
      Offset.add_eq_ok_iff.2 ⟨h x List.mem_cons_self, rfl⟩
    rw [List.mapM_cons]
    simp only [run_bind, run_lift, hx,
      mapM_lift_add base l w fun y hy => h y (List.mem_cons_of_mem x hy), run_pure, List.map_cons]

section Stored

variable {w' : Workspace} {body : TextRange}

theorem offsetToBody_run_iff (hs : w.expansions c.key = some (some e))
    (hnone : w.mapOverride = none) (hord : e.map.Ordered)
    (hb : (bodyTextRange c).run.run w = (.ok (some body), w'))
    (hsrc : ∀ u ∈ e.map.segments, u.src + u.len ≤ body.len) (o s : Nat) :
    ((offsetToBody c o).run.run w).1 = .ok (some s) ↔
      ∃ u ∈ e.map.segments, e.base ≤ o ∧ OffsetMap.Holds u (o - e.base) ∧
        s = body.start + (u.src + (o - e.base - u.dst)) := by
  obtain ⟨r, hr, hiff⟩ := offsetToBodyRelative_run hs hnone hord o
  unfold offsetToBody
  rw [run_bind_of_ok hr]
  cases r with
  | none =>
    refine ⟨by rintro ⟨⟩, ?_⟩
    rintro ⟨u, hu, hbase, hh, -⟩
    cases (hiff _).2 ⟨u, hu, hbase, hh, rfl⟩
  | some rel =>
    obtain ⟨u, hu, hbase, hh, rfl⟩ := (hiff _).1 rfl
    rw [fromBodyRelative_run hb]
    have hin : body.start + (u.src + (o - e.base - u.dst)) < body.stop := by
      have hu' := hsrc u hu
      have := body.le
      simp only [OffsetMap.Holds] at hh
      simp only [TextRange.len] at hu'
      omega
    obtain ⟨-, -, -, -, -, hstop⟩ := bodyTextRange_run_spec hb
    have hadd : Offset.add? body.start (u.src + (o - e.base - u.dst)) =
        some (body.start + (u.src + (o - e.base - u.dst))) :=
      Offset.add?_eq_some_iff.2 ⟨by omega, rfl⟩
    simp only [hadd, Option.filter_some, decide_eq_true (Nat.le_of_lt hin), if_true,
      Except.ok.injEq, Option.some.injEq]
    constructor
    · rintro rfl
      exact ⟨u, hu, hbase, hh, rfl⟩
    · rintro ⟨v, hv, -, hhv, rfl⟩
      rw [hord.holds_unique hu hv hh hhv]

theorem offsetToExpansion_run (hord : e.map.Ordered)
    (hb : (bodyTextRange c).run.run w = (.ok (some body), w'))
    (hfit : ∀ u ∈ e.map.segments, e.base + (u.dst + u.len) ≤ maxOffset) (s : Nat) :
    (offsetToExpansion c e s).run.run w = (.ok (if body.contains s then
      some ((e.map.segments.filterMap fun u =>
        if u.src ≤ s - body.start ∧ s - body.start < u.src + u.len then
          some (u.dst + (s - body.start - u.src)) else none).map (· + e.base)) else none), w') := by
  unfold offsetToExpansion
  rw [run_bind_of_ok (toBodyRelative_run hb s)]
  by_cases hin : body.contains s = true
  · have hbound : ∀ x ∈ e.map.segments.filterMap (fun u =>
        if u.src ≤ s - body.start ∧ s - body.start < u.src + u.len then
          some (u.dst + (s - body.start - u.src)) else none), x + e.base ≤ maxOffset := by
      intro x hx
      obtain ⟨u, hu, hux⟩ := List.mem_filterMap.1 hx
      split at hux
      · rename_i hr
        cases hux
        have := hfit u hu
        omega
      · cases hux
    simp only [hin, if_true, run_bind, run_lift, hord.toExpansion_eq, mapM_lift_add _ _ _ hbound,
      run_pure]
  · simp only [hin, if_false, Bool.false_eq_true, run_pure]

theorem offsetToExpansion_run_iff (hord : e.map.Ordered)
    (hb : (bodyTextRange c).run.run w = (.ok (some body), w'))
    (hfit : ∀ u ∈ e.map.segments, e.base + (u.dst + u.len) ≤ maxOffset) (s : Nat)
    (os : List Nat) :
    ((offsetToExpansion c e s).run.run w).1 = .ok (some os) ↔ body.contains s = true ∧
      os = (e.map.segments.filterMap fun u =>
        if u.src ≤ s - body.start ∧ s - body.start < u.src + u.len then
          some (u.dst + (s - body.start - u.src)) else none).map (· + e.base) := by
  rw [offsetToExpansion_run hord hb hfit s]
  by_cases hin : body.contains s = true
  · simp only [hin, if_true, Except.ok.injEq, Option.some.injEq, true_and]
    exact eq_comm
  · simp only [hin, if_false, Bool.false_eq_true, false_and]
    exact ⟨by rintro ⟨⟩, False.elim⟩

end Stored

end Session

/-- Offsets go through a call's expansion and back, with the workspace `w` the lookups run from
and the call's body `body`. An expansion offset maps into the body exactly when a segment's
destination holds it, counted from the expansion's base, and then to the same place in the
segment's source. That body offset lies inside the body and maps forward to a list of offsets
holding the first, and every offset a body offset maps forward to maps back to it. -/
structure Expansion.RoundTrips (w : Workspace) (c : MacroCall) (e : Expansion) (body : TextRange) :
    Prop where
  toBody_iff : ∀ o s, ((Session.offsetToBody c o).run.run w).1 = .ok (some s) ↔
    ∃ u ∈ e.map.segments, e.base + u.dst ≤ o ∧ o < e.base + u.dst + u.len ∧
      s = body.start + u.src + (o - e.base - u.dst)
  toBody_inside : ∀ o s, ((Session.offsetToBody c o).run.run w).1 = .ok (some s) →
    body.start ≤ s ∧ s < body.stop ∧
      ∃ os, ((Session.offsetToExpansion c e s).run.run w).1 = .ok (some os) ∧ o ∈ os
  toExpansion_toBody : ∀ s os, ((Session.offsetToExpansion c e s).run.run w).1 = .ok (some os) →
    ∀ o ∈ os, ((Session.offsetToBody c o).run.run w).1 = .ok (some s)

open Session in
/-- Offsets go through the expansion of a call listed in a request without map override and
back, once the expansion is looked up and the call's body found. -/
theorem expansion_offsets_round_trip {w : Workspace} (hw : w.Reachable none) {f : FileId}
    {c : MacroCall} (hc : c ∈ w.callsIn f) {e : Expansion} {w₁ : Workspace}
    (he : (expansion c).run.run w = (.ok (some e), w₁)) {body : TextRange} {w₂ : Workspace}
    (hb : (bodyTextRange c).run.run w₁ = (.ok (some body), w₂)) : e.RoundTrips w₁ c body := by
  obtain ⟨hw₁, hnone, hc₁, hs, hf⟩ :=
    expansion_run_stored hw.coherent hw.mapOverride (Workspace.callsIn_genuine hc) he
  obtain ⟨loc, base, hloc, hstart, hstop, hmax⟩ := bodyTextRange_run_spec hb
  have hord := hf.ordered hw₁ hc₁ hloc (by omega)
  have hm := hf.mapsBody hw₁ hc₁
  have hsrc : ∀ u ∈ e.map.segments, u.src + u.len ≤ body.len := fun u hu => by
    obtain ⟨loc', -, -, -, hloc', -, -, hle, -⟩ := hm.copies u hu
    rw [hloc, Option.some.injEq] at hloc'
    subst hloc'
    simp only [TextRange.len] at hle ⊢
    omega
  have hto := offsetToBody_run_iff hs hnone hord hb hsrc
  have hfrom := offsetToExpansion_run_iff hord hb (hf.dst_fits hw₁ hc₁)
  refine ⟨fun o s => ?_, fun o s h => ?_, fun s os h o ho => ?_⟩
  · rw [hto]
    constructor
    · rintro ⟨u, hu, hbase, ⟨h₁, h₂⟩, rfl⟩
      exact ⟨u, hu, by omega, by omega, by omega⟩
    · rintro ⟨u, hu, h₁, h₂, rfl⟩
      exact ⟨u, hu, by omega, ⟨by omega, by omega⟩, by omega⟩
  · obtain ⟨u, hu, hbase, ⟨h₁, h₂⟩, rfl⟩ := (hto o s).1 h
    have hle := hsrc u hu
    have := body.le
    simp only [TextRange.len] at hle
    have hin : body.contains (body.start + (u.src + (o - e.base - u.dst))) = true := by
      simp only [TextRange.contains, Bool.and_eq_true, decide_eq_true_eq]
      omega
    refine ⟨by omega, by omega, _, (hfrom _ _).2 ⟨hin, rfl⟩, ?_⟩
    refine List.mem_map.2 ⟨o - e.base, List.mem_filterMap.2 ⟨u, hu, ?_⟩, by omega⟩
    rw [if_pos (by omega)]
    congr 1
    omega
  · obtain ⟨hin, rfl⟩ := (hfrom s os).1 h
    obtain ⟨x, hx, rfl⟩ := List.mem_map.1 ho
    obtain ⟨u, hu, hux⟩ := List.mem_filterMap.1 hx
    simp only [TextRange.contains, Bool.and_eq_true, decide_eq_true_eq] at hin
    split at hux
    · rename_i hr
      cases hux
      rw [hto]
      exact ⟨u, hu, by omega, ⟨by omega, by omega⟩, by omega⟩
    · cases hux

/-- Offsets of a parenthesising macro's expansion go through its call and back. -/
theorem parenthesised_offsets_round_trip : ∃ (w : Workspace) (c : MacroCall), w.Reachable none ∧
    c ∈ w.callsIn 0 ∧ ∃ (e : Expansion) (w₁ : Workspace),
      (Session.expansion c).run.run w = (.ok (some e), w₁) ∧ ∃ (body : TextRange) (w₂ : Workspace),
        (Session.bodyTextRange c).run.run w₁ = (.ok (some body), w₂) ∧ e.RoundTrips w₁ c body := by
  have hw := @Workspace.Reachable.create none [("paren", .template "$x" "($x)")]
    [⟨"lib.rs", "paren!(a)", 0⟩] defaultMaxDepth _ _ rfl
  refine ⟨_, _, hw, List.get_mem _ ⟨0, ?listed⟩, _, _, Session.run_eq_of_isSome ?expands, _, _,
    Session.run_eq_of_isSome ?body, ?trips⟩
  case trips =>
    exact expansion_offsets_round_trip hw (List.get_mem _ _) (Session.run_eq_of_isSome ?expands)
      (Session.run_eq_of_isSome ?body)
  case listed => decide +kernel
  case expands => decide +kernel
  case body => decide +kernel

end MacroTrace
