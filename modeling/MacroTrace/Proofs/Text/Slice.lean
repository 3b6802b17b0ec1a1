import MacroTrace.Text.Slice
import Mathlib.Data.List.Basic

/-! Byte slices on character boundaries. `Spans cs r piece` says that the byte range `r` of the
characters `cs` holds exactly the characters `piece`: what comes before it has `r.start` bytes and
the piece has `r.len`. Slicing then returns the piece, slices of slices compose, and a range keeps
its piece when text is added around it. Two ranges of two texts that hold one piece are
mirrored: each part of one reads as the same part of the other, on a boundary or not, and so do
the parts of mirrored ranges. -/
namespace MacroTrace

@[simp] theorem bytesOf_nil : bytesOf [] = 0 := rfl

@[simp] theorem bytesOf_cons (c : Char) (cs : List Char) :
    bytesOf (c :: cs) = c.utf8Size + bytesOf cs := rfl

@[simp] theorem bytesOf_append (xs ys : List Char) :
    bytesOf (xs ++ ys) = bytesOf xs + bytesOf ys := by
  induction xs with
  | nil => simp
  | cons c cs ih => simp [ih]; omega

theorem bytesOf_eq_zero {cs : List Char} : bytesOf cs = 0 ↔ cs = [] := by
  cases cs with
  | nil => simp
  | cons c cs => simp; have := c.utf8Size_pos; omega

@[simp] theorem utf8ByteSize_ofList (cs : List Char) :
    (String.ofList cs).utf8ByteSize = bytesOf cs := by
  induction cs with
  | nil => simp
  | cons c cs ih => simp [String.utf8ByteSize_append, String.utf8ByteSize_singleton, ih]

theorem utf8ByteSize_eq_bytesOf (s : String) : s.utf8ByteSize = bytesOf s.toList := by
  conv => lhs; rw [← String.ofList_toList (s := s)]
  exact utf8ByteSize_ofList _

theorem charsWithin_append (xs ys : List Char) (pos a b : Nat) :
    charsWithin (xs ++ ys) pos a b = charsWithin xs pos a b ++ charsWithin ys (pos + bytesOf xs) a b := by
  induction xs generalizing pos with
  | nil => simp [charsWithin]
  | cons c cs ih =>
    simp only [List.cons_append, charsWithin, ih, bytesOf_cons]
    rw [Nat.add_assoc]
    split <;> simp

/-- Moving the start of the list and both ends of the range by as much keeps the characters. -/
theorem charsWithin_shift (cs : List Char) (pos a b k : Nat) :
    charsWithin cs (pos + k) (a + k) (b + k) = charsWithin cs pos a b := by
  induction cs generalizing pos with
  | nil => rfl
  | cons c cs ih =>
    simp only [charsWithin, Nat.add_right_comm pos k, ih, Nat.add_le_add_iff_right,
      Nat.add_lt_add_iff_right]

theorem charsWithin_of_end_le {cs : List Char} {pos a b : Nat} (h : pos + bytesOf cs ≤ a) :
    charsWithin cs pos a b = [] := by
  induction cs generalizing pos with
  | nil => rfl
  | cons c cs ih =>
    simp only [bytesOf_cons] at h
    have := c.utf8Size_pos
    simp only [charsWithin, ih (show pos + c.utf8Size + bytesOf cs ≤ a by omega)]
    split <;> simp_all; omega

theorem charsWithin_of_inside {cs : List Char} {pos a b : Nat} (ha : a ≤ pos)
    (hb : pos + bytesOf cs ≤ b) : charsWithin cs pos a b = cs := by
  induction cs generalizing pos with
  | nil => rfl
  | cons c cs ih =>
    simp only [bytesOf_cons] at hb
    have := c.utf8Size_pos
    simp only [charsWithin, ih (show a ≤ pos + c.utf8Size by omega) (by omega)]
    split <;> simp_all; omega

theorem charsWithin_of_le_start {cs : List Char} {pos a b : Nat} (h : b ≤ pos) :
    charsWithin cs pos a b = [] := by
  induction cs generalizing pos with
  | nil => rfl
  | cons c cs ih =>
    simp only [charsWithin, ih (show b ≤ pos + c.utf8Size by omega)]
    split <;> simp_all; omega

theorem prefix_of_bytesOf_le {xs ys zs ws : List Char} (h : xs ++ ys = zs ++ ws)
    (hb : bytesOf xs ≤ bytesOf zs) : ∃ m, zs = xs ++ m ∧ ys = m ++ ws := by
  rcases List.append_eq_append_iff.1 h with ⟨m, rfl, rfl⟩ | ⟨m, rfl, rfl⟩
  · exact ⟨m, rfl, rfl⟩
  · have hm : bytesOf m = 0 := by simp at hb; omega
    rw [bytesOf_eq_zero] at hm
    subst hm
    exact ⟨[], by simp, by simp⟩

theorem TextRange.eq_of_start_stop {r s : TextRange} (h₁ : r.start = s.start) (h₂ : r.stop = s.stop) :
    r = s := by
  cases r
  cases s
  simp_all

def Boundary (cs : List Char) (p : Nat) : Prop := ∃ before after, cs = before ++ after ∧ bytesOf before = p

theorem Boundary.zero (cs : List Char) : Boundary cs 0 := ⟨[], cs, rfl, rfl⟩

theorem Boundary.whole (cs : List Char) : Boundary cs (bytesOf cs) := ⟨cs, [], by simp, rfl⟩

/-- The byte range `r` of `cs` holds exactly `piece`. -/
def Spans (cs : List Char) (r : TextRange) (piece : List Char) : Prop :=
  ∃ before after, cs = before ++ piece ++ after ∧ bytesOf before = r.start ∧ bytesOf piece = r.len

namespace Spans

variable {cs piece : List Char} {r : TextRange}

theorem stop_le (h : Spans cs r piece) : r.stop ≤ bytesOf cs := by
  obtain ⟨before, after, rfl, hs, hl⟩ := h
  have := r.le
  simp [TextRange.len] at hl ⊢
  omega

theorem charsWithin_eq (h : Spans cs r piece) : charsWithin cs 0 r.start r.stop = piece := by
  obtain ⟨before, after, rfl, hs, hl⟩ := h
  have := r.le
  simp only [TextRange.len] at hl
  rw [charsWithin_append, charsWithin_append, charsWithin_of_end_le (by omega),
    charsWithin_of_inside (by omega) (by omega), charsWithin_of_le_start (by simp; omega)]
  simp

theorem sliceText_eq {s : String} (h : Spans s.toList r piece) :
    sliceText s r = String.ofList piece := by
  rw [sliceText, h.charsWithin_eq]

theorem trans {inner : List Char} {r' : TextRange} (outer : Spans cs r piece)
    (h : Spans piece r' inner) :
    Spans cs ⟨r.start + r'.start, r.start + r'.stop, by have := r'.le; omega⟩ inner := by
  obtain ⟨b1, a1, rfl, hs1, -⟩ := outer
  obtain ⟨b2, a2, rfl, hs2, hl2⟩ := h
  refine ⟨b1 ++ b2, a2 ++ a1, by simp, by simp [hs1, hs2], ?_⟩
  simp only [TextRange.len] at hl2 ⊢
  omega

theorem append_right (h : Spans cs r piece) (ys : List Char) : Spans (cs ++ ys) r piece := by
  obtain ⟨before, after, rfl, hs, hl⟩ := h
  exact ⟨before, after ++ ys, by simp, hs, hl⟩

theorem append_left (h : Spans cs r piece) (xs : List Char) :
    Spans (xs ++ cs) ⟨bytesOf xs + r.start, bytesOf xs + r.stop, by have := r.le; omega⟩ piece := by
  obtain ⟨before, after, rfl, hs, hl⟩ := h
  refine ⟨xs ++ before, after, by simp, by simp [hs], ?_⟩
  simp only [TextRange.len] at hl ⊢
  omega

theorem whole (cs : List Char) : Spans cs ⟨0, bytesOf cs, Nat.zero_le _⟩ cs :=
  ⟨[], [], by simp, rfl, by simp [TextRange.len]⟩

theorem boundary_start (h : Spans cs r piece) : Boundary cs r.start := by
  obtain ⟨before, after, rfl, hs, -⟩ := h
  exact ⟨before, piece ++ after, by simp, hs⟩

theorem boundary_stop (h : Spans cs r piece) : Boundary cs r.stop := by
  obtain ⟨before, after, rfl, hs, hl⟩ := h
  have := r.le
  simp only [TextRange.len] at hl
  exact ⟨before ++ piece, after, by simp, by simp; omega⟩

theorem of_boundaries {a b : Nat} (hab : a ≤ b) (ha : Boundary cs a) (hb : Boundary cs b) :
    ∃ piece, Spans cs ⟨a, b, hab⟩ piece := by
  obtain ⟨A, X, hA, rfl⟩ := ha
  obtain ⟨C, Y, hC, rfl⟩ := hb
  rcases List.append_eq_append_iff.1 (hA.symm.trans hC) with ⟨m, rfl, rfl⟩ | ⟨m, rfl, rfl⟩
  · exact ⟨m, A, Y, by simp [hA], rfl, by simp [TextRange.len]⟩
  · have hm : bytesOf m = 0 := by simp at hab; omega
    rw [bytesOf_eq_zero] at hm
    subst hm
    exact ⟨[], C, X, by simp [hA], by simp, by simp [TextRange.len]⟩

theorem sub {R : TextRange} {P : List Char} (hR : Spans cs R P) (hr : Spans cs r piece)
    (hs : R.start ≤ r.start) (he : r.stop ≤ R.stop) :
    Spans P ⟨r.start - R.start, r.stop - R.start, by have := r.le; omega⟩ piece := by
  obtain ⟨B₁, A₁, h₁, hb₁, hl₁⟩ := hR
  obtain ⟨B₂, A₂, h₂, hb₂, hl₂⟩ := hr
  have := r.le
  simp only [TextRange.len] at hl₁ hl₂
  obtain ⟨m, hB, hm⟩ := @prefix_of_bytesOf_le B₁ (P ++ A₁) B₂ (piece ++ A₂)
    (by simpa using h₁.symm.trans h₂) (by omega)
  subst hB
  have hbm : bytesOf m = r.start - R.start := by simp at hb₂; omega
  obtain ⟨n, hn, -⟩ := @prefix_of_bytesOf_le (m ++ piece) A₂ P A₁
    (by simpa using hm.symm) (by simp; omega)
  exact ⟨m, n, by simp [hn], hbm, by simp [TextRange.len]; omega⟩

theorem congr {r' : TextRange} (h : Spans cs r piece) (hs : r.start = r'.start)
    (he : r.stop = r'.stop) : Spans cs r' piece := by
  obtain ⟨before, after, rfl, h₁, h₂⟩ := h
  refine ⟨before, after, rfl, by omega, ?_⟩
  simp only [TextRange.len] at h₂ ⊢
  omega

theorem point {p : Nat} (h : Boundary cs p) : Spans cs (TextRange.point p) [] := by
  obtain ⟨before, after, rfl, rfl⟩ := h
  exact ⟨before, after, by simp, rfl, by simp [TextRange.point, TextRange.len]⟩

theorem cover {r' : TextRange} {piece' : List Char} (h : Spans cs r piece)
    (h' : Spans cs r' piece') : ∃ p, Spans cs (r.cover r') p := by
  have hs : Boundary cs (min r.start r'.start) := by
    rcases Nat.le_total r.start r'.start with hle | hle
    · rw [Nat.min_eq_left hle]; exact h.boundary_start
    · rw [Nat.min_eq_right hle]; exact h'.boundary_start
  have he : Boundary cs (max r.stop r'.stop) := by
    rcases Nat.le_total r.stop r'.stop with hle | hle
    · rw [Nat.max_eq_right hle]; exact h'.boundary_stop
    · rw [Nat.max_eq_left hle]; exact h.boundary_stop
  exact of_boundaries (r.cover r').le hs he

theorem charsWithin_inside (h : Spans cs r piece) {a b : Nat} (hb : b ≤ r.len) :
    charsWithin cs 0 (r.start + a) (r.start + b) = charsWithin piece 0 a b := by
  obtain ⟨before, after, rfl, hs, hl⟩ := h
  simp only [TextRange.len] at hl hb
  have hbefore : charsWithin before 0 (r.start + a) (r.start + b) = [] :=
    charsWithin_of_end_le (by omega)
  have hafter : charsWithin after (0 + bytesOf (before ++ piece)) (r.start + a) (r.start + b) = [] :=
    charsWithin_of_le_start (by simp; omega)
  have hpiece : charsWithin piece (0 + bytesOf before) (r.start + a) (r.start + b) =
      charsWithin piece 0 a b := by
    rw [Nat.zero_add, hs, Nat.add_comm r.start a, Nat.add_comm r.start b]
    simpa using charsWithin_shift piece 0 a b r.start
  rw [charsWithin_append, charsWithin_append, hbefore, hafter, hpiece]
  simp

end Spans

def Mirrors (cs ds : List Char) (x y len : Nat) : Prop :=
  ∀ a b, b ≤ len → charsWithin cs 0 (x + a) (x + b) = charsWithin ds 0 (y + a) (y + b)

namespace Mirrors

variable {cs ds es : List Char} {x y z len : Nat}

theorem refl (cs : List Char) (x len : Nat) : Mirrors cs cs x x len := fun _ _ _ => rfl

theorem symm (h : Mirrors cs ds x y len) : Mirrors ds cs y x len := fun a b hb => (h a b hb).symm

theorem trans (h : Mirrors cs ds x y len) (h' : Mirrors ds es y z len) : Mirrors cs es x z len :=
  fun a b hb => (h a b hb).trans (h' a b hb)

theorem sub (h : Mirrors cs ds x y len) {k l : Nat} (hkl : k + l ≤ len) :
    Mirrors cs ds (x + k) (y + k) l := by
  intro a b hb
  have := h (k + a) (k + b) (by omega)
  simpa only [Nat.add_assoc] using this

theorem of_spans {piece : List Char} {r r' : TextRange} (h : Spans cs r piece)
    (h' : Spans ds r' piece) : Mirrors cs ds r.start r'.start r.len := by
  intro a b hb
  have hlen : r.len = r'.len := by
    obtain ⟨-, -, -, -, hl⟩ := h
    obtain ⟨-, -, -, -, hl'⟩ := h'
    omega
  rw [h.charsWithin_inside hb, h'.charsWithin_inside (hlen ▸ hb)]

theorem slice (h : Mirrors cs ds x y len) :
    charsWithin cs 0 x (x + len) = charsWithin ds 0 y (y + len) := by
  simpa using h 0 len (Nat.le_refl len)

end Mirrors

end MacroTrace
