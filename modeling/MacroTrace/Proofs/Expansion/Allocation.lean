import MacroTrace.Workspace.Basic
/-!
Base offsets of expansion files. An allocation hands out the allocator's next offset and moves it
past the `len + 1` offsets it reserves when they fit below `maxOffset`, and otherwise refuses and
stays as it was. Along a run of allocations the successful ones reserve increasing, disjoint
intervals. In a workspace each expansion file reserves its text's length and one more, so the
allocator's next offset is what the expansion files reserve together, and an expansion's base is
what the expansion files before its own reserve.
-/
namespace MacroTrace

namespace Allocator

/-- One allocation: the next offset, and the allocator moved past the reservation, when the
reservation fits; no base and the allocator unchanged otherwise. -/
theorem allocate_eq (a : Allocator) (len : Nat) :
    a.allocate len = if a.next + len + 1 ≤ maxOffset then (some a.next, ⟨a.next + len + 1⟩)
      else (none, a) := by
  unfold allocate Offset.add?
  by_cases hfit : a.next + len + 1 ≤ maxOffset
  · rw [if_pos (by omega : len + 1 ≤ maxOffset), if_pos hfit]
    simp only [if_pos (by omega : a.next + (len + 1) ≤ maxOffset), Nat.add_assoc]
  · rw [if_neg hfit]
    by_cases hr : len + 1 ≤ maxOffset
    · rw [if_pos hr]
      simp only [if_neg (by omega : ¬a.next + (len + 1) ≤ maxOffset)]
    · rw [if_neg hr]

def allocateAfter (a : Allocator) (lens : List Nat) : Allocator :=
  lens.foldl (fun a len => (a.allocate len).2) a

@[simp] theorem allocateAfter_nil (a : Allocator) : a.allocateAfter [] = a := rfl

@[simp] theorem allocateAfter_cons (a : Allocator) (len : Nat) (lens : List Nat) :
    a.allocateAfter (len :: lens) = (a.allocate len).2.allocateAfter lens := rfl

theorem allocateAfter_append (a : Allocator) (l₁ l₂ : List Nat) :
    a.allocateAfter (l₁ ++ l₂) = (a.allocateAfter l₁).allocateAfter l₂ :=
  List.foldl_append

theorem next_le_allocate (a : Allocator) (len : Nat) : a.next ≤ (a.allocate len).2.next := by
  rw [allocate_eq]
  split <;> dsimp only <;> omega

theorem next_le_allocateAfter (a : Allocator) (lens : List Nat) :
    a.next ≤ (a.allocateAfter lens).next := by
  induction lens generalizing a with
  | nil => exact Nat.le_refl _
  | cons len lens ih => exact Nat.le_trans (next_le_allocate a len) (ih _)

theorem allocateAll_getElem? (a : Allocator) (lens : List Nat) (i : Nat) :
    (a.allocateAll lens)[i]? =
      lens[i]?.map fun len => ((a.allocateAfter (lens.take i)).allocate len).1 := by
  induction lens generalizing a i with
  | nil => rfl
  | cons len lens ih =>
    cases i with
    | zero => rfl
    | succ i => simpa [allocateAll] using ih (a.allocate len).2 i

theorem allocate_eq_some {a : Allocator} {len base : Nat} (h : (a.allocate len).1 = some base) :
    base = a.next ∧ (a.allocate len).2.next = base + len + 1 ∧ base + len + 1 ≤ maxOffset := by
  rw [allocate_eq] at h ⊢
  split at h
  · rename_i hfit
    cases h
    rw [if_pos hfit]
    exact ⟨rfl, rfl, hfit⟩
  · cases h

theorem allocateAll_base_lt (a : Allocator) (lens : List Nat) {i j bi bj : Nat} (hij : i < j)
    (hi : (a.allocateAll lens)[i]? = some (some bi))
    (hj : (a.allocateAll lens)[j]? = some (some bj)) :
    ∃ len, lens[i]? = some len ∧ bi + len < bj := by
  rw [allocateAll_getElem?, Option.map_eq_some_iff] at hi hj
  obtain ⟨len, hlen, hbi⟩ := hi
  obtain ⟨_, -, hbj⟩ := hj
  obtain ⟨rfl, hnext, -⟩ := allocate_eq_some hbi
  obtain ⟨rfl, -, -⟩ := allocate_eq_some hbj
  have htake : lens.take j = lens.take i ++ [len] ++ (lens.take j).drop (i + 1) := by
    have h := (List.take_append_drop (i + 1) (lens.take j)).symm
    rwa [List.take_take, Nat.min_eq_left hij, List.take_add_one, hlen, Option.toList_some] at h
  have hle := next_le_allocateAfter ((a.allocateAfter (lens.take i)).allocate len).2
    ((lens.take j).drop (i + 1))
  rw [htake, allocateAfter_append, allocateAfter_append]
  exact ⟨len, hlen, by simp only [allocateAfter_cons, allocateAfter_nil] at hle ⊢; omega⟩

end Allocator

namespace FileEntry

/-- The offsets a file reserves: an expansion file its text's length and one more, a source file
none. -/
def reserve (x : FileEntry) : Nat :=
  match x.origin with
  | .source _ => 0
  | .expansion _ => x.text.utf8ByteSize + 1

theorem reserve_of_expansion {x : FileEntry} {k : CallKey} (hx : x.origin = .expansion k) :
    x.reserve = x.text.utf8ByteSize + 1 := by
  simp [reserve, hx]

end FileEntry

namespace Workspace

def reservedBefore (w : Workspace) : Nat → Nat
  | 0 => 0
  | n + 1 => w.reservedBefore n + ((w.file? n).map FileEntry.reserve).getD 0

/-- The allocator and the stored bases agree with the files: the next offset is what all the
expansion files reserve, and a stored expansion's file is an expansion file of its key, based at
what the files before it reserve. -/
structure Allocated (w : Workspace) : Prop where
  next : w.allocator.next = w.reservedBefore w.files.size
  bases : ∀ k e, w.expansions k = some (some e) → ∃ x, w.file? e.file = some x ∧
    x.origin = .expansion k ∧ e.base = w.reservedBefore e.file

variable {w : Workspace}

@[simp] theorem reservedBefore_allocator (a : Allocator) (n : Nat) :
    ({ w with allocator := a } : Workspace).reservedBefore n = w.reservedBefore n := by
  induction n with
  | zero => rfl
  | succ n ih => simp only [reservedBefore, ih, file?]

theorem reservedBefore_succ_eq (f : FileId) :
    w.reservedBefore (f + 1) = w.reservedBefore f + ((w.file? f).map FileEntry.reserve).getD 0 :=
  rfl

theorem reservedBefore_succ {f : FileId} {x : FileEntry} (h : w.file? f = some x) :
    w.reservedBefore (f + 1) = w.reservedBefore f + x.reserve := by
  simp [reservedBefore_succ_eq, h]

theorem reservedBefore_mono {m n : Nat} (h : m ≤ n) : w.reservedBefore m ≤ w.reservedBefore n := by
  induction h with
  | refl => exact Nat.le_refl _
  | step _ ih => exact Nat.le_trans ih (Nat.le_add_right _ _)

theorem lt_size_of_file? {f : FileId} {x : FileEntry} (h : w.file? f = some x) :
    f < w.files.size :=
  (Array.getElem?_eq_some_iff.1 h).1

theorem file?_addFile {f : FileId} {x : FileEntry} (hx : w.file? f = some x) (path : Option String)
    (text : String) (entry : EntryPoint) (o : Origin) :
    (w.addFile path text entry o).2.file? f = some x := by
  simp only [Workspace.addFile, file?] at hx ⊢
  rwa [Array.getElem?_push_lt (lt_size_of_file? hx), ← Array.getElem?_eq_getElem]

theorem reservedBefore_of_files {w' : Workspace} (hf : w'.files = w.files) (n : Nat) :
    w'.reservedBefore n = w.reservedBefore n := by
  induction n with
  | zero => rfl
  | succ n ih => simp only [reservedBefore, ih, file?, hf]

theorem reservedBefore_addFile {n : Nat} (hn : n ≤ w.files.size) (path : Option String)
    (text : String) (entry : EntryPoint) (o : Origin) :
    (w.addFile path text entry o).2.reservedBefore n = w.reservedBefore n := by
  induction n with
  | zero => rfl
  | succ n ih =>
    have hlt : n < w.files.size := hn
    have hfile : (w.addFile path text entry o).2.file? n = w.file? n := by
      simp [file?, addFile, Array.getElem?_push_lt hlt, hlt]
    rw [reservedBefore_succ_eq, reservedBefore_succ_eq, ih (Nat.le_of_lt hlt), hfile]

theorem reservedBefore_addFile_size (path : Option String) (text : String) (entry : EntryPoint)
    (o : Origin) : (w.addFile path text entry o).2.reservedBefore (w.files.size + 1) =
      w.reservedBefore w.files.size + (FileEntry.reserve ⟨path, text, (parse text entry).tree, o⟩) := by
  rw [reservedBefore_succ_eq, reservedBefore_addFile (Nat.le_refl _)]
  simp [file?, addFile]

theorem reservedBefore_expansion_lt {f g : FileId} {x : FileEntry} {k : CallKey}
    (hf : w.file? f = some x) (hx : x.origin = .expansion k) (hfg : f < g) :
    w.reservedBefore f + x.text.utf8ByteSize < w.reservedBefore g := by
  have hsucc := reservedBefore_succ hf
  have hle : w.reservedBefore (f + 1) ≤ w.reservedBefore g := reservedBefore_mono hfg
  rw [FileEntry.reserve_of_expansion hx] at hsucc
  omega

theorem reservedBefore_of_sources {m n : Nat} (hmn : m ≤ n)
    (hsrc : ∀ g x, m ≤ g → g < n → w.file? g = some x → ∃ crate, x.origin = .source crate) :
    w.reservedBefore n = w.reservedBefore m := by
  obtain ⟨d, rfl⟩ := Nat.exists_eq_add_of_le hmn
  induction d with
  | zero => rfl
  | succ d ih =>
    rw [← Nat.add_assoc, reservedBefore_succ_eq,
      ih (by omega) fun g x hg hgn hx => hsrc g x hg (by omega) hx]
    cases hx : w.file? (m + d) with
    | none => rfl
    | some x =>
      obtain ⟨crate, hc⟩ := hsrc (m + d) x (by omega) (by omega) hx
      simp [FileEntry.reserve, hc]

namespace Allocated

theorem of_eq {w' : Workspace} (h : w.Allocated) (hf : w'.files = w.files)
    (ha : w'.allocator = w.allocator) (he : w'.expansions = w.expansions) : w'.Allocated where
  next := by rw [ha, hf, reservedBefore_of_files hf, h.next]
  bases k e hk := by
    rw [he] at hk
    simpa only [file?, hf, reservedBefore_of_files hf] using h.bases k e hk

theorem addFile (h : w.Allocated) {a : Allocator} (path : Option String) (text : String)
    (entry : EntryPoint) (o : Origin)
    (ha : a.next = w.allocator.next + FileEntry.reserve ⟨path, text, (parse text entry).tree, o⟩) :
    ({ w with allocator := a }.addFile path text entry o).2.Allocated where
  next := by
    have hsize : ({ w with allocator := a }.addFile path text entry o).2.files.size =
        w.files.size + 1 := by
      simp [Workspace.addFile]
    rw [hsize, reservedBefore_addFile_size, reservedBefore_allocator, ← h.next]
    exact ha
  bases k e hk := by
    obtain ⟨x, hx, hk', hb⟩ := h.bases k e hk
    refine ⟨x, file?_addFile (w := { w with allocator := a }) hx path text entry o, hk', ?_⟩
    rw [reservedBefore_addFile (w := { w with allocator := a }) (Nat.le_of_lt (lt_size_of_file? hx)),
      reservedBefore_allocator, hb]

theorem addSource (h : w.Allocated) (path : Option String) (text : String) (entry : EntryPoint)
    (crate : Nat) : (w.addFile path text entry (.source crate)).2.Allocated :=
  h.addFile (a := w.allocator) path text entry (.source crate) rfl

theorem base_of_last (h : w.Allocated) {f : FileId} {x : FileEntry} {k : CallKey} {b : Nat}
    (hf : w.file? f = some x) (hx : x.origin = .expansion k) (hsize : f + 1 = w.files.size)
    (hb : b + x.text.utf8ByteSize + 1 = w.allocator.next) : b = w.reservedBefore f := by
  have hnext := h.next
  rw [← hsize, reservedBefore_succ hf, FileEntry.reserve_of_expansion hx] at hnext
  omega

end Allocated

end Workspace

end MacroTrace
