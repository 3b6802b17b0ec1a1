import MacroTrace.Proofs.Trace.Copies

/-! Inlay hints placed level by level. Placing a hint climbs from an expansion file through the
calls that made each file up to a target file. At each level the hint's offset maps into the
call's body through the offset lookup, and the statement around the hint must be carried by the
call's map alone: exactly one segment's destination holds the statement's range, and that
segment's source is the only one that meets the range it carries it to. Meeting includes
touching, so a neighbouring segment whose source ends where the carried range starts refuses the
placement, though the two share no byte. In the workspace the placement leaves, which keeps every
expansion it read, it answers an offset exactly when every level up to the target goes through,
within the depth limit, and the offset it answers is the one the offset lookup gives, level by
level. -/
namespace MacroTrace

namespace Segment

def holdsRange (u : Segment) (r : TextRange) : Bool := u.dst ≤ r.start && r.stop ≤ u.dst + u.len

def sourceMeets (u : Segment) (r : TextRange) : Bool := u.src ≤ r.stop && r.start ≤ u.src + u.len

end Segment

theorem TextRange.shiftRight_of_fits {r : TextRange} {d : Nat} (h : r.stop + d ≤ maxOffset) :
    r.shiftRight d = .ok ⟨r.start + d, r.stop + d, Nat.add_le_add_right r.le d⟩ := by
  simp [TextRange.shiftRight, TextRange.shiftRight?, h]

theorem TextRange.shiftLeft_of_le {r : TextRange} {d : Nat} (h : d ≤ r.start) :
    r.shiftLeft d = .ok ⟨r.start - d, r.stop - d, Nat.sub_le_sub_right r.le d⟩ := by
  simp [TextRange.shiftLeft, TextRange.shiftLeft?, h]

/-- A map carries a range `r` of the expansion alone to the range `s` of the body: one segment's
destination holds `r` and no other's does, it moves `r` to `s` at the same place of its source,
and its source is the only one that meets `s`, touching included. -/
def OffsetMap.CarriesAlone (m : OffsetMap) (r s : TextRange) : Prop :=
  ∃ u, m.segments.filter (·.holdsRange r) = [u] ∧ m.segments.filter (·.sourceMeets s) = [u] ∧
    s.start = u.src + (r.start - u.dst) ∧ s.stop = u.src + (r.stop - u.dst)

theorem OffsetMap.CarriesAlone.unique {m : OffsetMap} {r s s' : TextRange}
    (h : m.CarriesAlone r s) (h' : m.CarriesAlone r s') : s = s' := by
  obtain ⟨u, hu, -, h₁, h₂⟩ := h
  obtain ⟨u', hu', -, h₁', h₂'⟩ := h'
  obtain rfl : u = u' := List.singleton_inj.1 (hu.symm.trans hu')
  exact TextRange.eq_of_start_stop (h₁.trans h₁'.symm) (h₂.trans h₂'.symm)

theorem OffsetMap.carriesAlone_iff_of_holder {m : OffsetMap} {r : TextRange} {u : Segment}
    (hfl : m.segments.filter (·.holdsRange r) = [u]) (s : TextRange) :
    m.CarriesAlone r s ↔ s.start = u.src + (r.start - u.dst) ∧ s.stop = u.src + (r.stop - u.dst) ∧
      (m.segments.filter (·.sourceMeets s)).length = 1 := by
  obtain ⟨hu, hhold⟩ := List.mem_filter.1 (hfl ▸ List.mem_singleton_self u)
  constructor
  · rintro ⟨u', hu', hmeet, h₁, h₂⟩
    obtain rfl : u = u' := List.singleton_inj.1 (hfl.symm.trans hu')
    exact ⟨h₁, h₂, by rw [hmeet]; rfl⟩
  · rintro ⟨h₁, h₂, hcount⟩
    refine ⟨u, hfl, ?_, h₁, h₂⟩
    obtain ⟨a, ha⟩ := List.length_eq_one_iff.1 hcount
    have hin : u ∈ m.segments.filter (·.sourceMeets s) := by
      refine List.mem_filter.2 ⟨hu, ?_⟩
      have := r.le
      simp only [Segment.holdsRange, Segment.sourceMeets, Bool.and_eq_true,
        decide_eq_true_eq] at hhold ⊢
      omega
    rw [ha, List.mem_singleton] at hin
    rw [ha, hin]

namespace Session

theorem singleHolder_eq (r : TextRange) : ∀ (segs : List Segment) (found : Option Segment),
    (∀ u ∈ segs, u.dst + u.len ≤ maxOffset) →
    singleHolder r segs found = .ok (match found, segs.filter (·.holdsRange r) with
      | found, [] => found
      | none, [u] => some u
      | _, _ => none)
  | [], found, _ => by cases found <;> rfl
  | s :: rest, found, hfit => by
    have ih := fun found => singleHolder_eq r rest found fun u hu => hfit u (List.mem_cons_of_mem s hu)
    have hcontains : (⟨s.dst, s.dst + s.len, by omega⟩ : TextRange).containsRange r = s.holdsRange r :=
      rfl
    rw [singleHolder, OffsetMap.dstRange_eq (hfit s List.mem_cons_self)]
    simp only [bind, Except.bind, hcontains]
    cases hs : s.holdsRange r with
    | false =>
      simp only [List.filter_cons, hs, Bool.false_eq_true, if_false]
      exact ih found
    | true =>
      simp only [List.filter_cons, hs, if_true]
      cases found with
      | some f => simp only [Option.isSome_some, if_true]; rfl
      | none =>
        simp only [Option.isSome_none, Bool.false_eq_true, if_false, ih (some s)]
        generalize rest.filter (·.holdsRange r) = l
        rcases l with _ | ⟨a, _ | ⟨b, t⟩⟩ <;> rfl

theorem intersect_isSome_sourceMeets (u : Segment) (r : TextRange) :
    (TextRange.intersect ⟨u.src, u.src + u.len, Nat.le_add_right u.src u.len⟩ r).isSome =
      u.sourceMeets r := by
  have := r.le
  unfold TextRange.intersect Segment.sourceMeets
  dsimp only
  split
  · simp only [Option.isSome_some, Bool.true_eq, Bool.and_eq_true, decide_eq_true_eq]
    omega
  · simp only [Option.isSome_none, Bool.false_eq, Bool.and_eq_false_iff, decide_eq_false_iff_not]
    omega

theorem foldlM_count {f : Nat → Segment → Except Fault Nat} (p : Segment → Bool) :
    ∀ (segs : List Segment) (n : Nat), (∀ m, ∀ s ∈ segs, f m s = .ok (if p s then m + 1 else m)) →
      segs.foldlM f n = .ok (n + (segs.filter p).length)
  | [], n, _ => rfl
  | s :: rest, n, hf => by
    have ih := fun m => foldlM_count p rest m fun m' s' hs' => hf m' s' (List.mem_cons_of_mem s hs')
    rw [List.foldlM_cons, hf n s List.mem_cons_self]
    cases hs : p s with
    | false =>
      simp only [Bool.false_eq_true, if_false, List.filter_cons, hs]
      exact ih n
    | true =>
      simp only [if_true, List.filter_cons, hs, List.length_cons]
      simp only [bind, Except.bind, ih (n + 1), Except.ok.injEq]
      omega

theorem sourcesMeeting_eq (r : TextRange) (segs : List Segment)
    (hfit : ∀ u ∈ segs, u.src + u.len ≤ maxOffset) :
    sourcesMeeting r segs = .ok (segs.filter (·.sourceMeets r)).length := by
  unfold sourcesMeeting
  rw [foldlM_count _ segs 0 fun m s hs => ?_, Nat.zero_add]
  rw [OffsetMap.srcRange_eq (hfit s hs)]
  simp only [bind, Except.bind, pure, Except.pure, intersect_isSome_sourceMeets]

theorem computeExpansion_run_keeps (c : MacroCall) (w : Workspace) :
    ((computeExpansion c).run.run w).2.expansions = w.expansions ∧
      ((computeExpansion c).run.run w).2.mapOverride = w.mapOverride := by
  unfold computeExpansion
  simp only [run_bind, run_get]
  split
  · exact ⟨rfl, rfl⟩
  · split
    · exact ⟨rfl, rfl⟩
    · cases OffsetMap.ofList _ <;> exact ⟨rfl, rfl⟩

variable {w w₁ : Workspace} {c : MacroCall} {e : Expansion}

@[simp] theorem run_modify (g : Workspace → Workspace) :
    (modify g : Session PUnit).run.run w = (.ok (), g w) := rfl

theorem storedExpansion_run_of_stored_after {res : Except Fault (Option Expansion)}
    (he : (storedExpansion c).run.run w = (res, w₁)) (hs : w₁.expansions c.key = some (some e)) :
    res = .ok (some e) ∧ w₁.mapOverride = w.mapOverride := by
  unfold storedExpansion at he
  cases hk : w.expansions c.key with
  | some v =>
    simp only [run_bind, run_get, hk, run_pure] at he
    obtain ⟨rfl, rfl⟩ := he
    rw [hk, Option.some.injEq] at hs
    exact ⟨hs ▸ rfl, rfl⟩
  | none =>
    simp only [run_bind, run_get, hk] at he
    by_cases hinc : c.isInclude = true
    · simp only [hinc, if_true, run_pure] at he
      obtain ⟨-, rfl⟩ := he
      rw [hk] at hs
      cases hs
    · simp only [hinc, Bool.false_eq_true, if_false, run_bind] at he
      obtain ⟨hexp, hover⟩ := computeExpansion_run_keeps c w
      rcases hcomp : (computeExpansion c).run.run w with ⟨_ | r, w'⟩ <;>
        rw [hcomp] at he hexp hover <;> simp only [run_modify, run_pure] at he <;>
        obtain ⟨rfl, rfl⟩ := he
      · rw [hexp, hk] at hs
        cases hs
      · simp only [↓reduceIte, Option.some.injEq] at hs
        exact ⟨hs ▸ rfl, hover⟩

theorem expansion_run_of_stored_after (hnone : w.mapOverride = none)
    {res : Except Fault (Option Expansion)} (he : (expansion c).run.run w = (res, w₁))
    (hs : w₁.expansions c.key = some (some e)) : res = .ok (some e) := by
  unfold expansion at he
  rcases hst : (storedExpansion c).run.run w with ⟨res', w'⟩
  rcases res' with err | a <;> simp only [run_bind, hst, run_get] at he
  · obtain ⟨rfl, rfl⟩ := he
    cases (storedExpansion_run_of_stored_after hst hs).1
  · split at he <;> rename_i hm <;> simp only [run_pure] at he <;> obtain ⟨rfl, rfl⟩ := he
    · rw [(storedExpansion_run_of_stored_after hst hs).2, hnone] at hm
      cases hm
    · exact (storedExpansion_run_of_stored_after hst hs).1

theorem expansion_run_of_fresh (hk : w.expansions c.key = none) (hinc : c.isInclude = false)
    (hnone : w.mapOverride = none) {out : Expanded} (hrun : w.runMacro c = some out) {base : Nat}
    {alloc : Allocator} (halloc : w.allocator.allocate out.text.utf8ByteSize = (some base, alloc))
    {m : OffsetMap} (hmap : OffsetMap.ofList out.segments = .ok m) :
    (expansion c).run.run w = (.ok (some ⟨w.files.size, c.contextKind, base, m⟩),
      ({ w with allocator := alloc }.addFile none out.text c.contextKind.entryPoint
        (.expansion c.key)).2.store c (some ⟨w.files.size, c.contextKind, base, m⟩)) := by
  have hset : ∀ w' : Workspace, (set w' : Session PUnit).run.run w = (.ok (), w') := fun _ => rfl
  have hlift : ∀ w' : Workspace,
      (liftM (Except.ok m : Except Fault OffsetMap) : Session OffsetMap).run.run w' = (.ok m, w') :=
    fun _ => rfl
  unfold expansion storedExpansion computeExpansion
  simp only [run_bind, run_get, hk, hinc, Bool.false_eq_true, if_false, hrun, halloc, hset, hmap,
    hlift, run_pure, run_modify, Workspace.addFile, hnone]
  rfl

theorem bodyTextRange_run_of_base_after (hw : w.Coherent) (hnone : w.mapOverride = none)
    (hc : c.Genuine w) {res : Except Fault (Option TextRange)}
    (hb : (bodyTextRange c).run.run w = (res, w₁)) {lb : TextRange} {base : Nat}
    (hlb : c.localBodyRange? = some lb) (hfb : w₁.FileBase c.file base)
    (hfit : lb.stop + base ≤ maxOffset) :
    res = .ok (some ⟨lb.start + base, lb.stop + base, Nat.add_le_add_right lb.le base⟩) := by
  have hg : w.Grows w₁ := by
    have := (bodyTextRange_sound c hw).2.1
    rwa [hb] at this
  obtain ⟨x, hx⟩ := Workspace.file?_of_tree? hc.1.1
  rw [MacroCall.element_file] at hx
  have hcall := hw.expansionCall_grows hg hx
  unfold bodyTextRange fileStartOffset at hb
  simp only [hlb, run_bind, run_expansionCall] at hb
  rcases hfb with ⟨hnc, rfl⟩ | ⟨p, ep, hp, hs, rfl⟩
  · rw [hcall] at hnc
    simp only [hnc, run_pure, TextRange.shiftRight_of_fits hfit] at hb
    exact (Prod.mk.inj hb).1.symm
  · rw [hcall] at hp
    rcases hexp : (expansion p).run.run w with ⟨rp, w'⟩
    rcases rp with _ | _ | ep' <;>
      simp only [hp, run_bind, hexp, run_pure, run_lift, Option.map_some, Option.map_none] at hb
    · obtain ⟨-, rfl⟩ := Prod.mk.inj hb
      cases expansion_run_of_stored_after hnone hexp hs
    · obtain ⟨-, rfl⟩ := Prod.mk.inj hb
      cases expansion_run_of_stored_after hnone hexp hs
    · obtain rfl : w' = w₁ := by
        revert hb
        cases lb.shiftRight ep'.base <;> exact fun hb => (Prod.mk.inj hb).2
      obtain rfl : ep' = ep := by simpa using expansion_run_of_stored_after hnone hexp hs
      rw [TextRange.shiftRight_of_fits hfit] at hb
      exact (Prod.mk.inj hb).1.symm

/-- With a call's expansion and its file's base stored, and its body within offsets, the offset
lookup through the call maps an offset exactly when a segment's destination holds it, to the
same place of the segment's source in the body. -/
theorem offsetToBody_iff_of_stored (hw : w.Coherent) (hnone : w.mapOverride = none)
    (hc : c.Genuine w) (hs : w.expansions c.key = some (some e)) {lb : TextRange} {base : Nat}
    (hlb : c.localBodyRange? = some lb) (hfb : w.FileBase c.file base)
    (hfit : lb.stop + base ≤ maxOffset) (o s : Nat) :
    ((offsetToBody c o).run.run w).1 = .ok (some s) ↔ ∃ u ∈ e.map.segments, e.base ≤ o ∧
      OffsetMap.Holds u (o - e.base) ∧ s = lb.start + base + (u.src + (o - e.base - u.dst)) := by
  have hf : w.Faithful c e := hw.cached _ e hs c hc rfl
  exact offsetToBody_run_iff hs hnone (hf.ordered hw hc hlb (by omega))
    (bodyTextRange_run hnone hlb hfb hfit) (hf.src_le_body_len hw hc hlb base) o s

end Session

namespace Workspace

/-- One level of placing an inlay hint, read in `w`: the file `f` comes from the call `c`, whose
expansion `e` is stored and whose body lies at `lb` in its file, moved by the file's base. The
offset lookup maps `off` into the body at `mapped`, and `e`'s map carries the range `r`, counted
from `e`'s base, alone to a range of the body, which lies at `next` in virtual offsets. -/
structure PlacementLevel (w : Workspace) (f : FileId) (off : Nat) (r : TextRange) (c : MacroCall)
    (mapped : Nat) (next : TextRange) : Prop where
  call : w.expansionCall f = some c
  toBody : ((Session.offsetToBody c off).run.run w).1 = .ok (some mapped)
  carries : ∃ e lb base s, w.expansions c.key = some (some e) ∧ c.localBodyRange? = some lb ∧
    w.FileBase c.file base ∧ lb.stop + base ≤ maxOffset ∧ e.base ≤ r.start ∧
    e.map.CarriesAlone ⟨r.start - e.base, r.stop - e.base, Nat.sub_le_sub_right r.le _⟩ s ∧
    next.start = s.start + (lb.start + base) ∧ next.stop = s.stop + (lb.start + base)

/-- `w.Places target n f off r x`: an inlay hint at the virtual offset `off` of the file `f`,
inside a statement at the virtual range `r`, is placed through at most `n` levels of calls up to
the file `target`, at `x` there. -/
inductive Places (w : Workspace) (target : FileId) : Nat → FileId → Nat → TextRange → Nat → Prop
  | here {n : Nat} {f : FileId} {off : Nat} {r : TextRange} {c : MacroCall} {mapped : Nat}
      {next : TextRange} : w.PlacementLevel f off r c mapped next → c.file = target →
      Places w target (n + 1) f off r mapped
  | up {n : Nat} {f : FileId} {off : Nat} {r : TextRange} {c : MacroCall} {mapped : Nat}
      {next : TextRange} {x : Nat} : w.PlacementLevel f off r c mapped next → c.file ≠ target →
      Places w target n c.file mapped next x → Places w target (n + 1) f off r x

variable {w w' : Workspace} {f : FileId} {off : Nat} {r : TextRange} {c c' : MacroCall}
  {mapped mapped' : Nat} {next next' : TextRange}

namespace PlacementLevel

theorem unique (h : w.PlacementLevel f off r c mapped next)
    (h' : w.PlacementLevel f off r c' mapped' next') : c' = c ∧ mapped' = mapped ∧ next' = next := by
  obtain ⟨hf, hto, e, lb, base, s, hs, hlb, hfb, -, -, hcar, hn₁, hn₂⟩ := h
  obtain ⟨hf', hto', e', lb', base', s', hs', hlb', hfb', -, -, hcar', hn₁', hn₂'⟩ := h'
  obtain rfl : c' = c := Option.some.inj (hf'.symm.trans hf)
  obtain rfl : mapped' = mapped := by simpa using hto'.symm.trans hto
  obtain rfl : e = e' := by simpa [hs] using hs'
  obtain rfl : lb = lb' := by simpa [hlb] using hlb'
  obtain rfl : base' = base := hfb'.unique hfb
  obtain rfl : s' = s := hcar'.unique hcar
  exact ⟨rfl, rfl, TextRange.eq_of_start_stop (hn₁'.trans hn₁.symm) (hn₂'.trans hn₂.symm)⟩

theorem mono (hw : w.Coherent) (hnone : w.mapOverride = none) (hg : w.Grows w')
    (hw' : w'.Coherent) (h : w.PlacementLevel f off r c mapped next) :
    w'.PlacementLevel f off r c mapped next := by
  obtain ⟨hf, hto, e, lb, base, s, hs, hlb, hfb, hfit, hbase, hcar, hn₁, hn₂⟩ := h
  have hc := expansionCall_genuine hf
  obtain ⟨x, hx⟩ := file?_of_tree? hc.1.1
  have hs' := hg.expansions _ _ hs
  have hfb' := hfb.mono hw hg hx
  refine ⟨hg.expansionCall hf, ?_, e, lb, base, s, hs', hlb, hfb', hfit, hbase, hcar, hn₁, hn₂⟩
  exact (Session.offsetToBody_iff_of_stored hw' (hg.mapOverride.trans hnone) (hc.mono hg) hs' hlb
    hfb' hfit off mapped).2
    ((Session.offsetToBody_iff_of_stored hw hnone hc hs hlb hfb hfit off mapped).1 hto)

end PlacementLevel

namespace Places

variable {target : FileId} {n x : Nat}

theorem level (h : w.Places target (n + 1) f off r x) :
    ∃ c mapped next, w.PlacementLevel f off r c mapped next := by
  cases h with
  | here hl _ => exact ⟨_, _, _, hl⟩
  | up hl _ _ => exact ⟨_, _, _, hl⟩

theorem succ_iff (hl : w.PlacementLevel f off r c mapped next) :
    w.Places target (n + 1) f off r x ↔
      c.file = target ∧ x = mapped ∨ c.file ≠ target ∧ w.Places target n c.file mapped next x := by
  constructor
  · intro h
    cases h with
    | here hl' ht =>
      obtain ⟨rfl, rfl, rfl⟩ := hl.unique hl'
      exact .inl ⟨ht, rfl⟩
    | up hl' ht hp =>
      obtain ⟨rfl, rfl, rfl⟩ := hl.unique hl'
      exact .inr ⟨ht, hp⟩
  · rintro (⟨ht, rfl⟩ | ⟨ht, hp⟩)
    · exact .here hl ht
    · exact .up hl ht hp

theorem mono (hw : w.Coherent) (hnone : w.mapOverride = none) (hg : w.Grows w')
    (hw' : w'.Coherent) (h : w.Places target n f off r x) : w'.Places target n f off r x := by
  induction h with
  | here hl ht => exact .here (hl.mono hw hnone hg hw') ht
  | up hl ht _ ih => exact .up (hl.mono hw hnone hg hw') ht ih

end Places

theorem placementLevel_iff (hw : w.Coherent) (hnone : w.mapOverride = none)
    (hf : w.expansionCall f = some c) {e : Expansion} (hs : w.expansions c.key = some (some e))
    {lb : TextRange} {base : Nat} (hlb : c.localBodyRange? = some lb) (hfb : w.FileBase c.file base)
    (hfit : lb.stop + base ≤ maxOffset) (off : Nat) (r : TextRange) (mapped : Nat)
    (next : TextRange) :
    w.PlacementLevel f off r c mapped next ↔
      (∃ u ∈ e.map.segments, e.base ≤ off ∧ OffsetMap.Holds u (off - e.base) ∧
        mapped = lb.start + base + (u.src + (off - e.base - u.dst))) ∧ e.base ≤ r.start ∧
      ∃ s, e.map.CarriesAlone ⟨r.start - e.base, r.stop - e.base, Nat.sub_le_sub_right r.le _⟩ s ∧
        next.start = s.start + (lb.start + base) ∧ next.stop = s.stop + (lb.start + base) := by
  have hc := expansionCall_genuine hf
  have hto := Session.offsetToBody_iff_of_stored hw hnone hc hs hlb hfb hfit off mapped
  constructor
  · rintro ⟨-, hmapped, e', lb', base', s, hs', hlb', hfb', -, hbase, hcar, hn₁, hn₂⟩
    obtain rfl : e = e' := by simpa [hs] using hs'
    obtain rfl : lb = lb' := by simpa [hlb] using hlb'
    obtain rfl : base' = base := hfb'.unique hfb
    exact ⟨hto.1 hmapped, hbase, s, hcar, hn₁, hn₂⟩
  · rintro ⟨hoff, hbase, s, hcar, hn₁, hn₂⟩
    exact ⟨hf, hto.2 hoff, e, lb, base, s, hs, hlb, hfb, hfit, hbase, hcar, hn₁, hn₂⟩

end Workspace

namespace Session

variable {w w₁ w₂ : Workspace} {c : MacroCall} {e : Expansion}

/-- One level of placement, once the call of `f`, its expansion and its body are found: either
the level cannot be read in the workspace the lookups leave, and the rounds answer nothing, or it
is read there, and the rounds answer its offset when the call is in the target file and go on
from the call's file otherwise. -/
theorem placeRounds_succ_cases (hw : w.Coherent) (hnone : w.mapOverride = none) {f : FileId}
    (hf : w.expansionCall f = some c) (he : (expansion c).run.run w = (.ok (some e), w₁))
    {body : TextRange} (hb : (bodyTextRange c).run.run w₁ = (.ok (some body), w₂))
    (target : FileId) (n off : Nat) (r : TextRange) :
    ((placeRounds target (n + 1) f off r).run.run w = (.ok none, w₂) ∧
        ∀ mapped next, ¬ w₂.PlacementLevel f off r c mapped next) ∨
      ∃ mapped next, w₂.PlacementLevel f off r c mapped next ∧
        (placeRounds target (n + 1) f off r).run.run w =
          if c.file = target then (.ok (some mapped), w₂)
          else (placeRounds target n c.file mapped next).run.run w₂ := by
  have hc := Workspace.expansionCall_genuine hf
  obtain ⟨-, hg₁, -⟩ := expansion_sound hc hw
  rw [he] at hg₁
  obtain ⟨hw₁, hnone₁, hc₁, hs₁, hfaith₁⟩ := expansion_run_stored hw hnone hc he
  obtain ⟨hw₂, hg₂, hpost₂⟩ := bodyTextRange_base hnone₁ c hw₁
  rw [hb] at hw₂ hg₂ hpost₂
  obtain ⟨lb, base, hlb, hstart, hstop, hfit, hfb⟩ := hpost₂ (some body) rfl body rfl
  obtain rfl : body = ⟨lb.start + base, lb.stop + base, Nat.add_le_add_right lb.le base⟩ :=
    TextRange.eq_of_start_stop hstart hstop
  simp only at hw₂ hg₂ hfb hfit
  have hnone₂ := hg₂.mapOverride.trans hnone₁
  have hc₂ := hc₁.mono hg₂
  have hf₂ : w₂.expansionCall f = some c := hg₂.expansionCall (hg₁.expansionCall hf)
  have hs₂ : w₂.expansions c.key = some (some e) := hg₂.expansions _ _ hs₁
  have hfaith₂ := hfaith₁.mono hg₂
  have hord := hfaith₂.ordered hw₂ hc₂ hlb (by omega)
  have hsrc := hfaith₂.src_le_len hw₂ hc₂ hlb
  have hlevel := Workspace.placementLevel_iff hw₂ hnone₂ hf₂ hs₂ hlb hfb hfit off r
  have hrle := r.le
  have hlble := lb.le
  simp only [placeRounds, run_bind, run_expansionCall, hf, he, hb]
  by_cases hoff : ∃ u ∈ e.map.segments, e.base ≤ off ∧ OffsetMap.Holds u (off - e.base)
  swap
  · refine .inl ⟨?_, fun mapped next hl => hoff ?_⟩
    · by_cases hle : e.base ≤ off
      · simp only [Offset.sub?_eq_some_iff.2 ⟨hle, rfl⟩, run_bind, run_lift,
          hord.toBody_of_not_holds fun u hu hh => hoff ⟨u, hu, hle, hh⟩, Outcome.toOption, run_pure]
      · simp only [show Offset.sub? off e.base = none by simp [Offset.sub?, hle], run_pure]
    · obtain ⟨⟨u, hu, h₁, h₂, -⟩, -⟩ := (hlevel _ _).1 hl
      exact ⟨u, hu, h₁, h₂⟩
  obtain ⟨u₀, hu₀, hle₀, hh₀⟩ := hoff
  have hadd : Offset.add (u₀.src + (off - e.base - u₀.dst)) (lb.start + base) =
      .ok (u₀.src + (off - e.base - u₀.dst) + (lb.start + base)) := by
    have := hsrc u₀ hu₀
    simp only [OffsetMap.Holds, TextRange.len] at hh₀ this
    exact Offset.add_eq_ok_iff.2 ⟨by omega, rfl⟩
  simp only [Offset.sub?_eq_some_iff.2 ⟨hle₀, rfl⟩, run_bind, run_lift,
    hord.toBody_of_holds hu₀ hh₀, Outcome.toOption, hadd]
  by_cases hrs : e.base ≤ r.start
  swap
  · refine .inl ⟨?_, fun mapped next hl => hrs ((hlevel _ _).1 hl).2.1⟩
    simp only [show Offset.sub? r.start e.base = none by simp [Offset.sub?, hrs], run_pure]
  let L : TextRange := ⟨r.start - e.base, r.stop - e.base, Nat.sub_le_sub_right r.le _⟩
  have hbounds : TextRange.ofBounds (r.start - e.base) (r.stop - e.base) = L :=
    TextRange.eq_of_start_stop rfl (by simp [TextRange.ofBounds, L, Nat.sub_le_sub_right r.le])
  simp only [Offset.sub?_eq_some_iff.2 ⟨hrs, rfl⟩,
    Offset.sub?_eq_some_iff.2 ⟨Nat.le_trans hrs r.le, rfl⟩, hbounds, run_bind, run_lift]
  have hsh := singleHolder_eq L e.map.segments none hord.dstFits
  rcases hfl : e.map.segments.filter (·.holdsRange L) with _ | ⟨u, _ | ⟨v, t⟩⟩ <;>
    rw [hfl] at hsh <;> simp only [hsh]
  rotate_left
  · obtain ⟨hmem, hhold⟩ := List.mem_filter.1 (hfl ▸ List.mem_singleton_self u)
    simp only [Segment.holdsRange, Bool.and_eq_true, decide_eq_true_eq] at hhold
    have hsfit := hord.srcFits u hmem
    have hle := hsrc u hmem
    simp only [TextRange.len] at hle
    let S : TextRange := ⟨L.start - u.dst + u.src, L.stop - u.dst + u.src, by
      have := L.le
      omega⟩
    have hS : (TextRange.mk (L.start - u.dst) (L.stop - u.dst)
        (Nat.sub_le_sub_right L.le u.dst)).shiftRight u.src = .ok S :=
      TextRange.shiftRight_of_fits (by dsimp only [L] at hhold ⊢; omega)
    have hcarry := OffsetMap.carriesAlone_iff_of_holder hfl S
    simp only [TextRange.shiftLeft_of_le hhold.1, run_bind, run_lift, hS,
      sourcesMeeting_eq S e.map.segments hord.srcFits]
    by_cases hcount : (e.map.segments.filter (·.sourceMeets S)).length = 1
    swap
    · refine .inl ⟨by simp only [bne_iff_ne, ne_eq, hcount, not_false_eq_true, if_true, run_pure],
        fun mapped next hl => ?_⟩
      obtain ⟨-, -, s, hcar, -⟩ := (hlevel _ _).1 hl
      obtain ⟨h₁, h₂, hs⟩ := (OffsetMap.carriesAlone_iff_of_holder hfl s).1 hcar
      obtain rfl : s = S := TextRange.eq_of_start_stop (by dsimp only [S, L] at h₁ ⊢; omega)
        (by dsimp only [S, L] at h₂ ⊢; omega)
      exact hcount hs
    let next : TextRange := ⟨S.start + (lb.start + base), S.stop + (lb.start + base),
      Nat.add_le_add_right S.le _⟩
    have hnext : S.shiftRight (lb.start + base) = .ok next :=
      TextRange.shiftRight_of_fits (by dsimp only [S, L] at hhold ⊢; omega)
    refine .inr ⟨u₀.src + (off - e.base - u₀.dst) + (lb.start + base), next,
      (hlevel _ next).2 ⟨⟨u₀, hu₀, hle₀, hh₀, by omega⟩, hrs, S,
        hcarry.2 ⟨by dsimp only [S]; omega, by dsimp only [S]; omega, hcount⟩, rfl, rfl⟩, ?_⟩
    simp only [hcount, bne_self_eq_false, Bool.false_eq_true, if_false]
    by_cases ht : c.file = target
    · simp only [ht, beq_self_eq_true, if_true, run_pure]
    · simp only [beq_iff_eq, ht, if_false, run_bind, run_lift, hnext]
  all_goals
    refine .inl ⟨by simp only [run_pure], fun mapped next hl => ?_⟩
    obtain ⟨-, -, s, ⟨u', hu', -⟩, -⟩ := (hlevel _ _).1 hl
    cases hfl.symm.trans hu'

/-- Placement rounds from a coherent workspace without map override answer an offset exactly
when, in the workspace they leave, the placement goes through at most as many levels as there
are rounds, to that offset. -/
theorem placeRounds_iff (target : FileId) (x : Nat) : ∀ (n : Nat) (f : FileId) (off : Nat)
    (r : TextRange) (w : Workspace), w.Coherent → w.mapOverride = none →
    (((placeRounds target n f off r).run.run w).1 = .ok (some x) ↔
      ((placeRounds target n f off r).run.run w).2.Places target n f off r x)
  | 0, f, off, r, w, _, _ => by
    simp only [placeRounds, run_pure]
    exact ⟨by rintro ⟨⟩, fun h => by cases h⟩
  | n + 1, f, off, r, w, hw, hnone => by
    cases hf : w.expansionCall f with
    | none =>
      simp only [placeRounds, run_bind, run_expansionCall, hf, run_pure]
      refine ⟨by rintro ⟨⟩, fun h => ?_⟩
      obtain ⟨c, _, _, hl⟩ := h.level
      rw [hl.call] at hf
      cases hf
    | some c =>
      have hc := Workspace.expansionCall_genuine hf
      obtain ⟨hw₁, hg₁, -⟩ := expansion_sound hc hw
      rcases he : (expansion c).run.run w with ⟨res₁, w₁⟩
      rw [he] at hw₁ hg₁
      have hnone₁ := hg₁.mapOverride.trans hnone
      have hno₁ : (∀ e, res₁ ≠ .ok (some e)) → ¬ w₁.Places target (n + 1) f off r x := by
        intro hres h
        obtain ⟨c', _, _, hl⟩ := h.level
        obtain ⟨e', -, -, -, hs', -⟩ := hl.carries
        obtain rfl : c' = c := Option.some.inj (hl.call.symm.trans (hg₁.expansionCall hf))
        exact hres e' (expansion_run_of_stored_after hnone he hs')
      rcases res₁ with err | _ | e
      · simp only [placeRounds, run_bind, run_expansionCall, hf, he]
        exact ⟨by rintro ⟨⟩, fun h => (hno₁ (by simp) h).elim⟩
      · simp only [placeRounds, run_bind, run_expansionCall, hf, he, run_pure]
        exact ⟨by rintro ⟨⟩, fun h => (hno₁ (by simp) h).elim⟩
      obtain ⟨-, -, hc₁, -, -⟩ := expansion_run_stored hw hnone hc he
      obtain ⟨hw₂, hg₂, -⟩ := bodyTextRange_sound c hw₁
      rcases hb : (bodyTextRange c).run.run w₁ with ⟨res₂, w₂⟩
      rw [hb] at hw₂ hg₂
      have hnone₂ := hg₂.mapOverride.trans hnone₁
      have hf₂ : w₂.expansionCall f = some c := hg₂.expansionCall (hg₁.expansionCall hf)
      have hno₂ : (∀ body, res₂ ≠ .ok (some body)) → ¬ w₂.Places target (n + 1) f off r x := by
        intro hres h
        obtain ⟨c', _, _, hl⟩ := h.level
        obtain ⟨_, lb, base, _, -, hlb, hfb, hfit, -⟩ := hl.carries
        obtain rfl : c' = c := Option.some.inj (hl.call.symm.trans hf₂)
        exact hres _ (bodyTextRange_run_of_base_after hw₁ hnone₁ hc₁ hb hlb hfb hfit)
      rcases res₂ with err | _ | body
      · simp only [placeRounds, run_bind, run_expansionCall, hf, he, hb]
        exact ⟨by rintro ⟨⟩, fun h => (hno₂ (by simp) h).elim⟩
      · simp only [placeRounds, run_bind, run_expansionCall, hf, he, hb, run_pure]
        exact ⟨by rintro ⟨⟩, fun h => (hno₂ (by simp) h).elim⟩
      rcases placeRounds_succ_cases hw hnone hf he hb target n off r with
        ⟨hrun, hnot⟩ | ⟨mapped, next, hl, hrun⟩ <;> rw [hrun]
      · refine ⟨by rintro ⟨⟩, fun h => ?_⟩
        obtain ⟨c', _, _, hl⟩ := h.level
        obtain rfl : c' = c := Option.some.inj (hl.call.symm.trans hf₂)
        exact (hnot _ _ hl).elim
      by_cases ht : c.file = target
      · simp only [ht, if_true, Except.ok.injEq, Option.some.injEq]
        rw [Workspace.Places.succ_iff hl]
        simp only [ht, true_and, ne_eq, not_true_eq_false, false_and, or_false]
        exact eq_comm
      obtain ⟨hw₃, hg₃, -⟩ := placeRounds_sound target n c.file mapped next w₂ hw₂
      simp only [ht, if_false]
      rw [Workspace.Places.succ_iff (hl.mono hw₂ hnone₂ hg₃ hw₃)]
      simp only [ht, false_and, ne_eq, not_false_eq_true, true_and, false_or]
      exact placeRounds_iff target x n c.file mapped next w₂ hw₂ hnone₂

end Session

/-- Inlay hints are placed level by level. From a workspace a request without map override
reaches, the offset in the file `target` for a hint at the virtual offset `off`, inside a
statement at the virtual range `r`, is `x` exactly when, in the workspace the lookup leaves, the
placement climbs from the anchor's file through at most the depth limit of calls to `target`: at
each level the offset lookup maps the offset into the call's body, and one segment alone holds
the statement's range in its destination and has a source meeting, touching included, the range
it carries the statement to. Then `x` is what the offset lookups give, level by level. -/
theorem inlay_offset_placed_level_by_level {w : Workspace} (hw : w.Reachable none)
    (anchor : FileElement) (off : Nat) (r : TextRange) (target : FileId) (x : Nat) :
    ((Session.offsetInFile anchor off r target).run.run w).1 = .ok (some x) ↔
      ((Session.offsetInFile anchor off r target).run.run w).2.Places target w.maxDepth
        anchor.file off r x := by
  unfold Session.offsetInFile
  simp only [Session.run_bind, Session.run_maxDepth]
  exact Session.placeRounds_iff target x _ _ _ _ w hw.coherent hw.mapOverride

/-- A statement copied whole from a call's body places a hint on it in the call's file:
`hint! { let x = 1; }` with `hint` copying its tokens expands to `let x = 1;`, and the hint after
`x` lands at 21 in the source. -/
theorem copied_statement_places_hint : ∃ w : Workspace, w.Reachable none ∧ ∃ root : Green,
    w.tree? 1 = some root ∧
    ((Session.offsetInFile ⟨1, root, .root root⟩ 4 ⟨0, 10, Nat.zero_le 10⟩ 0).run.run w).2.Places 0
      w.maxDepth 1 4 ⟨0, 10, Nat.zero_le 10⟩ 21 := by
  have hw := Workspace.Reachable.step (.expandAll [.id 0] (.ok 64))
    (@Workspace.Reachable.create none [("hint", .template "$b*" "$b")]
      [⟨"main.wf", "fn f() { hint! { let x = 1; } }", 0⟩] defaultMaxDepth _ _ rfl)
  refine ⟨_, hw, _, Option.eq_some_of_isSome ?tree,
    (inlay_offset_placed_level_by_level hw _ _ _ _ _).1 ?placed⟩
  case tree => decide +kernel
  case placed => decide +kernel

/-- A neighbouring segment whose source only touches the carried range refuses the placement.
`m!(x;)`, with `m` copying `$a $b`, expands to `x ;`: the first segment alone holds `x`'s range
`[0, 1]` and carries it to `[0, 1]` of the body, which the second segment's source `[1, 2]` shares
no byte with, only its end. The offset lookup maps the hint's offset to 3, yet no offset is
placed. -/
theorem touching_source_refuses_placement : ∃ (w : Workspace) (c : MacroCall), w.Reachable none ∧
    c ∈ w.callsIn 0 ∧ ∃ (e : Expansion) (w₁ : Workspace),
      (Session.expansion c).run.run w = (.ok (some e), w₁) ∧ e.base = 0 ∧
      e.map.segments = [⟨0, 0, 1⟩, ⟨1, 2, 1⟩] ∧ ∃ root : Green, w₁.tree? e.file = some root ∧
      ((Session.offsetToBody c 0).run.run w₁).1 = .ok (some 3) ∧
      ((Session.offsetInFile ⟨e.file, root, .root root⟩ 0 ⟨0, 1, Nat.zero_le 1⟩ 0).run.run w₁).1 =
        .ok none := by
  let w : Workspace := ((Workspace.create [("m", .template "$a $b" "$a $b")]
    [⟨"lib.rs", "m!(x;)", 0⟩] defaultMaxDepth none).toOption.map (·.1)).getD {}
  have hw : w.Reachable none := @Workspace.Reachable.create none [("m", .template "$a $b" "$a $b")]
    [⟨"lib.rs", "m!(x;)", 0⟩] defaultMaxDepth w [0] rfl
  let c : MacroCall := (w.callsIn 0).headD default
  have hc : c ∈ w.callsIn 0 := by
    obtain ⟨a, l, h⟩ := List.exists_cons_of_length_pos (show 0 < (w.callsIn 0).length by
      decide +kernel)
    show (w.callsIn 0).headD default ∈ w.callsIn 0
    rw [h]
    exact List.mem_cons_self
  let out : Expanded := (w.runMacro c).getD ⟨"", []⟩
  have hrun : w.runMacro c = some out := (Option.getD_of_ne_none
    (Option.isSome_iff_ne_none.1 (by decide +kernel)) _).symm
  have hmap : OffsetMap.ofList out.segments = .ok ⟨out.segments, true⟩ :=
    OffsetMap.ofList_of_ordered (by decide +kernel) (by decide +kernel) (by decide +kernel)
  have halloc : w.allocator.allocate out.text.utf8ByteSize = (some 0, ⟨4⟩) := by decide +kernel
  have he := Session.expansion_run_of_fresh (by decide +kernel) (by decide +kernel)
    hw.mapOverride hrun halloc hmap
  refine ⟨w, c, hw, hc, _, _, he, rfl, ?segments, _,
    Option.eq_some_of_isSome ?tree, ?mapped, ?refused⟩
  case segments => decide +kernel
  case tree => decide +kernel
  case mapped => decide +kernel
  case refused => decide +kernel

end MacroTrace
