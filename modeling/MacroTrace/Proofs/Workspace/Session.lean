import MacroTrace.Proofs.Workspace.Invariant

/-! Lookups keep the workspace invariant. `Sound w x Q` says that a lookup run from a coherent
workspace `w` ends in a coherent workspace that grows `w`, faulted or not, and that a value it
returns satisfies `Q` there. Binds compose sound lookups, reads and overlay changes are sound, and
so is the expansion lookup of every call written in the workspace: it leaves the expansion it
returns stored under the call's key. -/
namespace MacroTrace

namespace Session

variable {ε α β : Type}

theorem run_bind (x : ExceptT ε (StateM Workspace) α) (f : α → ExceptT ε (StateM Workspace) β)
    (w : Workspace) :
    (x >>= f).run.run w = (match x.run.run w with
      | (.ok a, w') => (f a).run.run w'
      | (.error e, w') => (.error e, w')) := by
  change (match x.run.run w with | (a, s) => ExceptT.bindCont f a s) = _
  rcases x.run.run w with ⟨_ | _, _⟩ <;> rfl

/-- Run from a coherent workspace, a lookup ends in a coherent workspace that grows the first,
and a value it returns satisfies `Q` there. Steps of a request, which fail for other reasons than
lookups, are read the same way. -/
def Sound (w : Workspace) (x : ExceptT ε (StateM Workspace) α) (Q : α → Workspace → Prop) : Prop :=
  w.Coherent → (x.run.run w).2.Coherent ∧ w.Grows (x.run.run w).2 ∧
    ∀ a, (x.run.run w).1 = .ok a → Q a (x.run.run w).2

namespace Sound

variable {w : Workspace} {x : ExceptT ε (StateM Workspace) α} {Q Q' : α → Workspace → Prop}

theorem pure {a : α} (h : Q a w) : Sound w (Pure.pure a : ExceptT ε (StateM Workspace) α) Q :=
  fun hw => ⟨hw, Workspace.Grows.refl w, fun _ ha => by cases ha; exact h⟩

theorem bind {f : α → ExceptT ε (StateM Workspace) β} {R : α → Workspace → Prop} {Q : β → Workspace → Prop}
    (hx : Sound w x R)
    (hf : ∀ a w', w.Grows w' → w'.Coherent → R a w' → Sound w' (f a) Q) :
    Sound w (x >>= f) Q := by
  intro hw
  obtain ⟨hc, hg, hr⟩ := hx hw
  rw [run_bind]
  revert hc hg hr
  rcases x.run.run w with ⟨_ | a, w'⟩ <;> intro hc hg hr
  · exact ⟨hc, hg, fun _ h => by cases h⟩
  · obtain ⟨hc', hg', hq⟩ := hf a w' hg hc (hr a rfl) hc
    exact ⟨hc', hg.trans hg', hq⟩

theorem mono (h : Sound w x Q) (hq : ∀ a w', Q a w' → Q' a w') : Sound w x Q' := by
  intro hw
  obtain ⟨hc, hg, hr⟩ := h hw
  exact ⟨hc, hg, fun a ha => hq _ _ (hr a ha)⟩

theorem get : Sound w (MonadState.get : ExceptT ε (StateM Workspace) Workspace) fun a w' => a = w ∧ w' = w :=
  fun hw => ⟨hw, Workspace.Grows.refl w, fun _ ha => by cases ha; exact ⟨rfl, rfl⟩⟩

theorem throw {e : ε} : Sound w (MonadExcept.throw e : ExceptT ε (StateM Workspace) α) Q :=
  fun hw => ⟨hw, Workspace.Grows.refl w, fun _ ha => by cases ha⟩

theorem liftM {y : Except Fault α} : Sound w (liftM y : Session α) fun a w' => y = .ok a ∧ w' = w :=
  fun hw => ⟨hw, Workspace.Grows.refl w, fun _ ha => ⟨ha, rfl⟩⟩

theorem lift {y : Except Fault α} : Sound w (lift y) fun a w' => y = .ok a ∧ w' = w := by
  cases y with
  | error e => exact throw
  | ok a => exact pure ⟨rfl, rfl⟩

theorem seq {f : α → ExceptT ε (StateM Workspace) β} {Q : β → Workspace → Prop} (hx : Sound w x fun _ _ => True)
    (hf : ∀ a w', w.Grows w' → Sound w' (f a) Q) : Sound w (x >>= f) Q :=
  bind hx fun a w' hg _ _ => hf a w' hg

theorem read {g : Workspace → α} :
    Sound w (do return g (← MonadState.get) : ExceptT ε (StateM Workspace) α)
      fun a w' => a = g w ∧ w' = w :=
  fun hw => ⟨hw, Workspace.Grows.refl w, fun _ ha => by cases ha; exact ⟨rfl, rfl⟩⟩

theorem mapM {f : α → ExceptT ε (StateM Workspace) β} (hf : ∀ a w, Sound w (f a) fun _ _ => True) :
    ∀ (l : List α) (w : Workspace), Sound w (l.mapM f) fun _ _ => True
  | [], w => by
    simpa using (pure trivial : Sound w (Pure.pure [] : ExceptT ε (StateM Workspace) (List β))
      fun _ _ => True)
  | a :: l, w => by
    rw [List.mapM_cons]
    exact bind (hf a w) fun _ w' _ _ _ => bind (mapM hf l w') fun _ _ _ _ _ => pure trivial

/-- Collecting the answers of lookups over a list, each sound from every workspace grown from
the first, keeps every answer's property, when growing a coherent workspace keeps it. -/
theorem filterMapM {f : α → Session (Option β)} {P : β → Workspace → Prop}
    (hP : ∀ b w w', w.Coherent → w.Grows w' → P b w → P b w') :
    ∀ (l : List α) (w : Workspace),
      (∀ a ∈ l, ∀ w', w.Grows w' → Sound w' (f a) fun r w'' => ∀ b, r = some b → P b w'') →
      Sound w (l.filterMapM f) fun r w' => ∀ b ∈ r, P b w'
  | [], w, _ => by
    simpa using (pure (by simp) : Sound w (Pure.pure ([] : List β)) fun r w' => ∀ b ∈ r, P b w')
  | a :: l, w, hf => by
    rw [List.filterMapM_cons]
    refine bind (hf a List.mem_cons_self w (Workspace.Grows.refl w)) ?_
    rintro r w₁ hg₁ hw₁ hr
    have hl : ∀ a ∈ l, ∀ w', w₁.Grows w' → Sound w' (f a) fun r w'' => ∀ b, r = some b → P b w'' :=
      fun a' ha' w' hg' => hf a' (List.mem_cons_of_mem a ha') w' (hg₁.trans hg')
    split
    · exact filterMapM hP l w₁ hl
    · rename_i b
      refine bind (filterMapM hP l w₁ hl) ?_
      rintro rs w₂ hg - hrs
      exact pure (by simpa using ⟨hP b _ _ hw₁ hg (hr b rfl), hrs⟩)

theorem forIn {γ : Type} {f : α → γ → Session (ForInStep γ)}
    (hf : ∀ a b w, Sound w (f a b) fun _ _ => True) :
    ∀ (l : List α) (b : γ) (w : Workspace), Sound w (ForIn.forIn l b f) fun _ _ => True
  | [], b, w => pure trivial
  | a :: l, b, w => by
    rw [List.forIn_cons]
    refine bind (hf a b w) ?_
    rintro r w₁ - - -
    split
    · exact pure trivial
    · exact forIn hf l _ w₁

theorem mapM_lift {g : α → Except Fault β} : ∀ (l : List α) (w : Workspace),
    Sound w (l.mapM fun a => Session.lift (g a)) fun ys w' => w' = w ∧ ∀ y ∈ ys, ∃ a ∈ l, g a = .ok y
  | [], w => pure ⟨rfl, by simp⟩
  | a :: l, w => by
    rw [List.mapM_cons]
    refine bind lift ?_
    rintro b _ - - ⟨hb, rfl⟩
    refine bind (mapM_lift l _) ?_
    rintro ys _ - - ⟨rfl, hys⟩
    refine pure ⟨rfl, ?_⟩
    simp only [List.mem_cons, forall_eq_or_imp, exists_eq_or_imp]
    exact ⟨.inl hb, fun y hy => .inr (hys y hy)⟩

theorem bind_lift {y : Except Fault α} {f : α → Session β} {Q : β → Workspace → Prop}
    (hf : ∀ a, y = .ok a → Sound w (f a) Q) : Sound w (Session.lift y >>= f) Q := by
  refine bind lift ?_
  rintro a _ - - ⟨ha, rfl⟩
  exact hf a ha

theorem set {w' : Workspace} (hc : w.Coherent → w'.Coherent) (hg : w.Grows w') :
    Sound w (MonadStateOf.set w' : ExceptT ε (StateM Workspace) PUnit) fun _ w'' => w'' = w' :=
  fun hw => ⟨hc hw, hg, fun _ _ => rfl⟩

end Sound

end Session

namespace Workspace

variable {w : Workspace}

theorem Grows.of_fields {w' : Workspace} (hf : w'.files = w.files) (hm : w'.macros = w.macros)
    (he : w'.expansions = w.expansions) (hd : w'.maxDepth = w.maxDepth)
    (ho : w'.mapOverride = w.mapOverride) (ha : w'.allocator = w.allocator) : w.Grows w' :=
  ⟨fun f x hx => by simpa [file?, hf] using hx, hm, fun k v hk => by rwa [he], hd, ho,
    fun h => h.of_eq hf ha he⟩

theorem Coherent.withAllocator (h : w.Coherent) (a : Allocator) :
    ({ w with allocator := a } : Workspace).Coherent :=
  ⟨h.parsed, h.produced, h.keys, h.cached⟩

theorem Coherent.of_fields {w' : Workspace} (h : w.Coherent) (hf : w'.files = w.files)
    (hm : w'.macros = w.macros) (he : w'.expansions = w.expansions) (hd : w'.maxDepth = w.maxDepth)
    (ho : w'.mapOverride = w.mapOverride) : w'.Coherent :=
  have hg : w.Grows { w' with allocator := w.allocator } := Grows.of_fields hf hm he hd ho rfl
  (h.of_grows hg (fun f x hx => h.parsed f x (by simpa [file?, hf] using hx))
    (fun f x k hx hk => (h.produced f x k (by simpa [file?, hf] using hx) hk).mono hg)
    (fun k v hk => by rwa [← he])).withAllocator w'.allocator

theorem Grows.addFile {a : Allocator} (path : Option String) (text : String) (entry : EntryPoint)
    (o : Origin)
    (ha : a.next = w.allocator.next + FileEntry.reserve ⟨path, text, (parse text entry).tree, o⟩) :
    w.Grows ({ w with allocator := a }.addFile path text entry o).2 :=
  ⟨fun _ _ hx => file?_addFile (w := { w with allocator := a }) hx path text entry o, rfl,
    fun _ _ h => h, rfl, rfl, fun h => h.addFile path text entry o ha⟩

theorem Coherent.addFile (h : w.Coherent) (path : Option String) (text : String)
    (entry : EntryPoint) (o : Origin) (ho : ∀ k, o = .expansion k → w.Produced k text) :
    (w.addFile path text entry o).2.Coherent := by
  have hg := Grows.addFile (w := w)
    (a := ⟨w.allocator.next + FileEntry.reserve ⟨path, text, (parse text entry).tree, o⟩⟩)
    path text entry o rfl
  refine (h.of_grows hg (fun f x hx => ?_) (fun f x k hx hk => ?_) (fun _ _ h => h)).withAllocator
    w.allocator
  all_goals simp only [Workspace.addFile, file?, Array.getElem?_push] at hx
  all_goals split at hx
  · cases hx
    exact ⟨entry, rfl⟩
  · exact h.parsed f x hx
  · cases hx
    exact (ho k hk).mono hg
  · exact (h.produced f x k hx hk).mono hg

end Workspace

namespace Session

variable {w : Workspace}

theorem modifyOverlay_sound (g : Overlay → Overlay) :
    Sound w (modifyOverlay g) fun _ _ => True := by
  intro hw
  refine ⟨hw.of_fields rfl rfl rfl rfl rfl, Workspace.Grows.of_fields rfl rfl rfl rfl rfl rfl,
    fun _ _ => trivial⟩

end Session

namespace Workspace

variable {w : Workspace} {c : MacroCall}

theorem runMacro_name {out : Expanded} (h : w.runMacro c = some out) : ∃ name, c.name? = some name := by
  simp only [runMacro, bind, Option.bind_eq_some_iff] at h
  obtain ⟨name, hname, -⟩ := h
  exact ⟨name, hname⟩

theorem Coherent.call_eq_of_key (hw : w.Coherent) {c' : MacroCall} (hc : c.Genuine w)
    (hc' : c'.Genuine w) (hk : c.key = c'.key) {out : Expanded} (hr : w.runMacro c = some out) :
    c = c' := by
  obtain ⟨name, hname⟩ := runMacro_name hr
  obtain ⟨text, -, hs, -⟩ := hc.spells hw
  exact hc.eq_of_key hw hc' hk (MacroCall.width_pos_of_name? hs hc.1.2 hname)

def store (w : Workspace) (c : MacroCall) (r : Option Expansion) : Workspace :=
  { w with expansions := fun k => if k = c.key then some r else w.expansions k }

@[simp] theorem reservedBefore_store (c : MacroCall) (r : Option Expansion) (n : Nat) :
    (w.store c r).reservedBefore n = w.reservedBefore n :=
  reservedBefore_of_files (show (w.store c r).files = w.files from rfl) n

theorem Allocated.store (h : w.Allocated) {r : Option Expansion}
    (hr : ∀ e, r = some e → ∃ x, w.file? e.file = some x ∧ x.origin = .expansion c.key ∧
      e.base = w.reservedBefore e.file) :
    (w.store c r).Allocated where
  next := h.next.trans (reservedBefore_store c r _).symm
  bases k e hk := by
    simp only [Workspace.store] at hk
    rw [reservedBefore_store]
    split at hk
    · rename_i hkc
      cases hk
      rw [hkc]
      exact hr e rfl
    · exact h.bases k e hk

theorem Grows.store (hnone : w.expansions c.key = none) (r : Option Expansion)
    (hr : w.Allocated → ∀ e, r = some e → ∃ x, w.file? e.file = some x ∧
      x.origin = .expansion c.key ∧ e.base = w.reservedBefore e.file) :
    w.Grows (w.store c r) := by
  refine ⟨fun _ _ h => h, rfl, fun k v hk => ?_, rfl, rfl, fun ha => ha.store (hr ha)⟩
  simp only [Workspace.store]
  split
  · rename_i hk'
    rw [hk', hnone] at hk
    cases hk
  · exact hk

theorem Coherent.store (h : w.Coherent) (hc : c.Genuine w) (hnone : w.expansions c.key = none)
    {r : Option Expansion} (hr : ∀ e, r = some e → w.Faithful c e)
    (hbase : w.Allocated → ∀ e, r = some e → ∃ x, w.file? e.file = some x ∧
      x.origin = .expansion c.key ∧ e.base = w.reservedBefore e.file) :
    (w.store c r).Coherent := by
  have hg := Grows.store hnone r hbase
  refine ⟨h.parsed, fun f x k hx hk => (h.produced f x k hx hk).mono hg, fun k v hk => ?_,
    fun k e hk c' hc' hck => ?_⟩
  · simp only [Workspace.store] at hk
    split at hk
    · rename_i hkc
      have := hc.1.1
      simp only [MacroCall.element, tree?, file?, Option.map_eq_some_iff,
        Array.getElem?_eq_some_iff] at this
      obtain ⟨x, ⟨hlt, -⟩, -⟩ := this
      rw [hkc]
      exact hlt
    · exact h.keys k v hk
  · have hc'w : c'.Genuine w := hc'
    simp only [Workspace.store] at hk
    split at hk
    · rename_i hkc
      cases hk
      obtain ⟨out, hout, -⟩ := hr e rfl
      obtain rfl := h.call_eq_of_key hc hc'w (hck.trans hkc).symm hout
      exact (hr e rfl).mono hg
    · exact (h.cached k e hk c' hc'w hck).mono hg

end Workspace

namespace Session

variable {w : Workspace} {c : MacroCall}

theorem Sound.modify {g : Workspace → Workspace} (hc : w.Coherent → (g w).Coherent)
    (hg : w.Grows (g w)) : Sound w (modify g : Session PUnit) fun _ w' => w' = g w :=
  fun hw => ⟨hc hw, hg, fun _ _ => rfl⟩

theorem computeExpansion_sound (hc : c.Genuine w) :
    Sound w (computeExpansion c) fun r w' => w'.expansions = w.expansions ∧
      ∀ e, r = some e → Workspace.Faithful w' c e ∧
        (w'.Allocated → e.base = w'.reservedBefore e.file) := by
  unfold computeExpansion
  refine Sound.bind Sound.get ?_
  rintro _ w₀ - - ⟨rfl, rfl⟩
  split
  · exact Sound.pure ⟨rfl, by simp⟩
  · rename_i out hout
    split
    rename_i base? alloc halloc
    split
    · exact Sound.pure ⟨rfl, by simp⟩
    · rename_i base
      dsimp only
      have hfirst := Allocator.allocate_eq_some (congrArg Prod.fst halloc)
      simp only [halloc] at hfirst
      obtain ⟨hbase, hnext, hfit⟩ := hfirst
      have hg : w₀.Grows ({ w₀ with allocator := alloc }.addFile none out.text
          c.contextKind.entryPoint (.expansion c.key)).2 :=
        Workspace.Grows.addFile _ _ _ _ (by rw [FileEntry.reserve_of_expansion rfl]; dsimp only; omega)
      have hprod : ∀ k, Origin.expansion c.key = .expansion k → w₀.Produced k out.text := by
        rintro k ⟨⟩
        exact ⟨c, out, hc, rfl, hout, rfl⟩
      refine Sound.bind (Sound.set (fun hw => (hw.addFile _ _ _ _ hprod).withAllocator alloc) hg) ?_
      rintro _ _ - - rfl
      refine Sound.bind Sound.liftM ?_
      rintro map _ - - ⟨hmap, rfl⟩
      refine Sound.pure ⟨rfl, ?_⟩
      rintro e ⟨⟩
      have hfile : ({ w₀ with allocator := alloc }.addFile none out.text c.contextKind.entryPoint
          (.expansion c.key)).2.file? w₀.files.size =
          some ⟨none, out.text, (parse out.text c.contextKind.entryPoint).tree, .expansion c.key⟩ := by
        simp [Workspace.addFile, Workspace.file?]
      have hsize : w₀.files.size + 1 = ({ w₀ with allocator := alloc }.addFile none out.text
          c.contextKind.entryPoint (.expansion c.key)).2.files.size := by
        simp [Workspace.addFile]
      refine ⟨⟨out, hg.runMacro hout, hfile, hmap, rfl, by dsimp only; omega⟩, fun ha =>
        ha.base_of_last hfile rfl hsize (show base + out.text.utf8ByteSize + 1 = alloc.next by omega)⟩

theorem storedExpansion_sound (hc : c.Genuine w) :
    Sound w (storedExpansion c) fun r w' => ∀ e, r = some e → w'.expansions c.key = some (some e) := by
  unfold storedExpansion
  refine Sound.bind Sound.get ?_
  rintro _ w₀ - - ⟨rfl, rfl⟩
  split
  · rename_i v hv
    exact Sound.pure (by rintro e rfl; exact hv)
  · rename_i hnone
    split
    · exact Sound.pure (by simp)
    · refine Sound.bind (computeExpansion_sound hc) ?_
      rintro r w₁ hg hw₁ ⟨hexp, hfaith⟩
      have hnone₁ : w₁.expansions c.key = none := by rw [hexp, hnone]
      have hbase : w₁.Allocated → ∀ e, r = some e → ∃ x, w₁.file? e.file = some x ∧
          x.origin = .expansion c.key ∧ e.base = w₁.reservedBefore e.file := by
        intro ha e he
        obtain ⟨hf, hb⟩ := hfaith e he
        obtain ⟨out, -, hfile, -⟩ := hf
        exact ⟨_, hfile, rfl, hb ha⟩
      refine Sound.bind (Sound.modify (g := fun w => w.store c r)
        (fun hw => hw.store (hc.mono hg) hnone₁ (fun e he => (hfaith e he).1) hbase)
        (Workspace.Grows.store hnone₁ r hbase)) ?_
      rintro _ _ - - rfl
      refine Sound.pure ?_
      rintro e rfl
      simp [Workspace.store]

theorem expansion_sound_override (hc : c.Genuine w) :
    Sound w (expansion c) fun r w' => ∀ e, r = some e →
      ∃ s, w'.expansions c.key = some (some s) ∧
        e = { s with map := w'.mapOverride.getD s.map } := by
  unfold expansion
  refine Sound.bind (storedExpansion_sound hc) ?_
  rintro r w₁ - - hr
  refine Sound.bind Sound.get ?_
  rintro _ _ - - ⟨rfl, rfl⟩
  split
  · rename_i m hm
    refine Sound.pure fun e he => ?_
    obtain ⟨s, hs, rfl⟩ := Option.map_eq_some_iff.1 he
    exact ⟨s, hr s hs, by rw [hm]; rfl⟩
  · rename_i hm
    refine Sound.pure fun e he => ⟨e, hr e he, ?_⟩
    rw [hm]
    rfl

theorem expansion_sound (hc : c.Genuine w) :
    Sound w (expansion c) fun r w' =>
      w'.mapOverride = none → ∀ e, r = some e → w'.expansions c.key = some (some e) :=
  (expansion_sound_override hc).mono fun _ _ h hnone e he => by
    obtain ⟨s, hs, rfl⟩ := h e he
    rwa [hnone]

end Session

end MacroTrace
