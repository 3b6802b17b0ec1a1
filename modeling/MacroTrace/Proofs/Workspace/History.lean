import MacroTrace.Proofs.Workspace.Identity
/-!
Expansions do not depend on the order calls are expanded in. A request runs its steps on the
workspace it creates, and a step may expand calls on its way, so two sequences of steps can expand
the same calls in different orders and give their expansion files other ids and bases. What an
expansion holds does not move with them: it is what the call's macro makes of the call's node and
its file's text. Two calls that read alike, each in the workspace a sequence of steps leaves,
expand to the same text, tree, context and map.

The include lookup is where the order shows: it answers the first include call over all files in
id order, and which of two expansion files comes first is decided by which call was expanded
first.
-/
namespace MacroTrace

namespace Workspace

end Workspace

namespace MacroCall

variable {w₁ w₂ : Workspace} {c₁ c₂ : MacroCall}

/-- Two calls, each read in its own workspace, that their macros cannot tell apart: the same kind
of call at the same node of the same tree, in files of the same text. Their file ids may differ. -/
def Alike (w₁ : Workspace) (c₁ : MacroCall) (w₂ : Workspace) (c₂ : MacroCall) : Prop :=
  c₁.kind = c₂.kind ∧ c₁.root = c₂.root ∧ c₁.node = c₂.node ∧ w₁.text? c₁.file = w₂.text? c₂.file

theorem Alike.contextKind (h : Alike w₁ c₁ w₂ c₂) : c₁.contextKind = c₂.contextKind := by
  obtain ⟨hk, hr, hn, -⟩ := h
  simp only [MacroCall.contextKind, hk, hr, hn]

theorem Alike.runMacro (hm : w₁.macros = w₂.macros) (h : Alike w₁ c₁ w₂ c₂) :
    w₁.runMacro c₁ = w₂.runMacro c₂ := by
  obtain ⟨f₁, k₁, r₁, n₁⟩ := c₁
  obtain ⟨f₂, k₂, r₂, n₂⟩ := c₂
  obtain ⟨hk, hr, hn, ht⟩ := h
  simp only at hk hr hn ht
  subst hk hr hn
  simp only [Workspace.runMacro, hm, ht]
  rfl

end MacroCall

namespace Workspace

variable {w₁ w₂ : Workspace} {c₁ c₂ : MacroCall} {e₁ e₂ : Expansion}

variable {w : Workspace} {c : MacroCall}

theorem expansions_eq_some_get {k : CallKey} (h : ((w.expansions k).bind id).isSome) :
    w.expansions k = some (some (((w.expansions k).bind id).get h)) := by
  obtain ⟨a, ha, he⟩ := Option.bind_eq_some_iff.1 (Option.eq_some_of_isSome h)
  exact ha.trans (congrArg some he)

end Workspace

namespace IncludeOrder

def macros : List (String × MacroSpec) :=
  [("m1", .template "" "include!(\"x.wf\");"), ("m2", .template "" "struct Y; include!(\"x.wf\");")]

def sources : List SourceSpec :=
  [⟨"a.wf", "m1!();", 0⟩, ⟨"b.wf", "m2!();", 0⟩, ⟨"x.wf", "struct X;", 0⟩]

end IncludeOrder

end MacroTrace
