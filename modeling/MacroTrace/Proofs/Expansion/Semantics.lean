import MacroTrace.Proofs.Expansion.Template
/-!
What the template expander does, stated without its loops. Matching is a consumption of the
body's significant tokens, left to right, by the parts of the pattern: a literal takes one token
with its text, `$x` takes one token, `$x*` takes every token left, possibly none. The body matches
exactly when such a consumption takes every token, and it then binds each name to the tokens
taken by the last part naming it, from the first to the last, or to the empty range at the end of
the body when that part took none. Substitution is a local rewrite of the template's tokens, trivia
kept: a `$` directly followed by an identifier naming a binding becomes the bound body text, that
identifier becomes nothing, and every other token is copied as written, so that string literals,
comments and a `$` separated from its name are left alone.
-/
namespace MacroTrace

namespace PatternPart

def name? : PatternPart → Option String
  | literal _ => none
  | one name => some name
  | rest name => some name

end PatternPart

/-- The parts of a pattern consume a list of tokens, each part taking the tokens of its group. -/
inductive Consumes : List PatternPart → List (Token × TextRange) →
    List (List (Token × TextRange)) → Prop
  | done : Consumes [] [] []
  | literal {text : String} {t : Token} {r : TextRange} {ps toks gs} :
      t.text = text → Consumes ps toks gs →
      Consumes (.literal text :: ps) ((t, r) :: toks) ([(t, r)] :: gs)
  | one {name : String} {tok ps toks gs} :
      Consumes ps toks gs → Consumes (.one name :: ps) (tok :: toks) ([tok] :: gs)
  | rest {name : String} {ps toks gs} :
      Consumes ps [] gs → Consumes (.rest name :: ps) toks (toks :: gs)

namespace Consumes

theorem unique {ps toks gs gs'} (h : Consumes ps toks gs) (h' : Consumes ps toks gs') :
    gs = gs' := by
  induction h generalizing gs' with
  | done => cases h'; rfl
  | literal _ _ ih => cases h' with | literal _ h' => rw [ih h']
  | one _ ih => cases h' with | one h' => rw [ih h']
  | rest _ ih => cases h' with | rest h' => rw [ih h']

theorem flatten_eq {ps toks gs} (h : Consumes ps toks gs) : gs.flatten = toks := by
  induction h with
  | done => rfl
  | literal _ _ ih => simp [ih]
  | one _ ih => simp [ih]
  | rest h ih =>
    rw [List.flatten_cons, ih, List.append_nil]

end Consumes

def takenRange (bodyEnd : Nat) (g : List (Token × TextRange)) : TextRange :=
  match g.head?, g.getLast? with
  | some (_, first), some (_, last) => first.cover last
  | _, _ => TextRange.point bodyEnd

def boundRange (bodyEnd : Nat) :
    List PatternPart → List (List (Token × TextRange)) → String → Option TextRange
  | p :: ps, g :: gs, name => (boundRange bodyEnd ps gs name).or
      (if p.name? = some name then some (takenRange bodyEnd g) else none)
  | _, _, _ => none

@[simp] theorem TextRange.cover_self (r : TextRange) : r.cover r = r := by
  simp [TextRange.cover]

@[simp] theorem takenRange_singleton (bodyEnd : Nat) (tok : Token × TextRange) :
    takenRange bodyEnd [tok] = tok.2 := by
  simp [takenRange]

theorem Bindings.find?_bind (b : Bindings) (name n : String) (r : TextRange) :
    (b.bind name r).find? n = if name = n then some r else b.find? n := by
  by_cases h : name = n
  · simp [Bindings.bind, Bindings.find?, h]
  · have hne : (name == n) = false := by simpa using h
    simp only [Bindings.bind, Bindings.find?, List.find?_cons, hne, List.find?_filter, h,
      if_false]
    have hpred : (fun p : String × TextRange => decide ((p.1 != name) = true ∧ (p.1 == n) = true)) =
        fun p => p.1 == n := by
      funext p
      by_cases hp : p.1 = n
      · simp [hp, Ne.symm h]
      · simp [hp]
    rw [hpred]

theorem matchParts_of_consumes (bodyEnd : Nat) {ps toks gs} (h : Consumes ps toks gs)
    (b : Bindings) :
    ∃ b', matchParts bodyEnd ps toks b = some b' ∧
      ∀ name, b'.find? name = (boundRange bodyEnd ps gs name).or (b.find? name) := by
  induction h generalizing b with
  | done => exact ⟨b, by simp [matchParts], fun _ => by simp [boundRange]⟩
  | literal ht _ ih =>
    obtain ⟨b', hb', hfind⟩ := ih b
    refine ⟨b', by simp [matchParts, ht, hb'], fun name => ?_⟩
    simp [boundRange, PatternPart.name?, hfind]
  | @one name tok _ _ _ _ ih =>
    obtain ⟨b', hb', hfind⟩ := ih (b.bind name tok.2)
    refine ⟨b', by simpa [matchParts] using hb', fun n => ?_⟩
    rw [hfind, Bindings.find?_bind]
    by_cases hn : name = n <;> simp [boundRange, PatternPart.name?, hn]
  | @rest name _ toks _ _ ih =>
    obtain ⟨b', hb', hfind⟩ := ih (b.bind name (takenRange bodyEnd toks))
    refine ⟨b', hb', fun n => ?_⟩
    rw [hfind, Bindings.find?_bind]
    by_cases hn : name = n <;> simp [boundRange, PatternPart.name?, hn]

theorem consumes_of_matchParts {bodyEnd : Nat} : ∀ {ps toks} {b b' : Bindings},
    matchParts bodyEnd ps toks b = some b' → ∃ gs, Consumes ps toks gs
  | [], toks, b, b', h => by
    cases toks with
    | nil => exact ⟨[], .done⟩
    | cons _ _ => simp [matchParts] at h
  | .literal text :: ps, toks, b, b', h => by
    cases toks with
    | nil => simp [matchParts] at h
    | cons tok toks =>
      obtain ⟨t, r⟩ := tok
      simp only [matchParts] at h
      split at h
      · rename_i ht
        obtain ⟨gs, hgs⟩ := consumes_of_matchParts h
        exact ⟨_, .literal (by simpa using ht) hgs⟩
      · cases h
  | .one name :: ps, toks, b, b', h => by
    cases toks with
    | nil => simp [matchParts] at h
    | cons tok toks =>
      obtain ⟨gs, hgs⟩ := consumes_of_matchParts (by simpa [matchParts] using h)
      exact ⟨_, .one hgs⟩
  | .rest name :: ps, toks, b, b', h => by
    obtain ⟨gs, hgs⟩ := consumes_of_matchParts (by simpa [matchParts] using h)
    exact ⟨_, .rest hgs⟩

theorem matchPattern_isSome_iff (parts : List PatternPart) (body : String) :
    (∃ b, matchPattern parts body = some b) ↔ ∃ gs, Consumes parts (significantSpans body) gs := by
  constructor
  · rintro ⟨b, hb⟩
    exact consumes_of_matchParts hb
  · rintro ⟨gs, hgs⟩
    obtain ⟨b, hb, -⟩ := matchParts_of_consumes body.utf8ByteSize hgs []
    exact ⟨b, hb⟩

theorem matchPattern_find? {parts : List PatternPart} {body : String} {gs}
    (h : Consumes parts (significantSpans body) gs) :
    ∃ b, matchPattern parts body = some b ∧
      ∀ name, b.find? name = boundRange body.utf8ByteSize parts gs name := by
  obtain ⟨b, hb, hfind⟩ := matchParts_of_consumes body.utf8ByteSize h []
  refine ⟨b, hb, fun name => ?_⟩
  simpa [Bindings.find?] using hfind name

def introduced (t : Token) : Option Token → Option String
  | some u => if t.kind = .dollar ∧ u.kind = .ident then some u.text else none
  | none => none

theorem introduced_of_kind {t : Token} (h : t.kind ≠ .dollar) (next : Option Token) :
    introduced t next = none := by
  cases next <;> simp [introduced, h]

def spliceToken (bound : String → Option String) (prev : Option Token) (t : Token)
    (next : Option Token) : String :=
  match (introduced t next).bind bound with
  | some s => s
  | none => if ((prev.bind fun d => introduced d (some t)).bind bound).isSome then "" else t.text

section SpliceToken

variable {bound : String → Option String} {prev : Option Token} {t : Token} {next : Option Token}

theorem spliceToken_of_bound {s : String} (h : (introduced t next).bind bound = some s) :
    spliceToken bound prev t next = s := by
  simp [spliceToken, h]

theorem spliceToken_of_named (h : (introduced t next).bind bound = none)
    (hp : ((prev.bind fun d => introduced d (some t)).bind bound).isSome) :
    spliceToken bound prev t next = "" := by
  simp [spliceToken, h, hp]

theorem spliceToken_of_free (h : (introduced t next).bind bound = none)
    (hp : (prev.bind fun d => introduced d (some t)).bind bound = none) :
    spliceToken bound prev t next = t.text := by
  simp [spliceToken, h, hp]

end SpliceToken

/-- A template's tokens, each rewritten in place. -/
def splice (bound : String → Option String) : Option Token → List Token → String
  | _, [] => ""
  | prev, t :: ts => spliceToken bound prev t ts.head? ++ splice bound (some t) ts

@[simp] theorem splice_nil (bound : String → Option String) (prev : Option Token) :
    splice bound prev [] = "" := rfl

theorem splice_cons (bound : String → Option String) (prev : Option Token) (t : Token)
    (ts : List Token) :
    splice bound prev (t :: ts) = spliceToken bound prev t ts.head? ++ splice bound (some t) ts :=
  rfl

theorem splice_unbound (prev : Option Token) (ts : List Token) :
    (splice (fun _ => none) prev ts).toList = Token.chars ts := by
  induction ts generalizing prev with
  | nil => rfl
  | cons t ts ih => simp [splice_cons, spliceToken, ih]

theorem charsWithin_empty (cs : List Char) (pos a : Nat) : charsWithin cs pos a a = [] := by
  induction cs generalizing pos with
  | nil => rfl
  | cons c cs ih => simp [charsWithin, ih]

theorem Expanded.pushMapped_text (x : Expanded) (body : String) (r : TextRange) :
    (x.pushMapped body r).text = x.text ++ sliceText body r := by
  unfold Expanded.pushMapped
  split
  · rename_i h
    have : r.start = r.stop := by simpa [TextRange.isEmpty] using h
    simp [sliceText, this, charsWithin_empty]
  · rfl

theorem substitute_text (template : String) (b : Bindings) (body : String) :
    (substitute template b body).text =
      splice (fun name => (b.find? name).map (sliceText body)) none (lex template) := by
  let bound := fun name => (b.find? name).map (sliceText body)
  have go : ∀ ts out (prev : Option Token),
      (∀ t, ts.head? = some t → (prev.bind fun d => introduced d (some t)).bind bound = none) →
      (substitute.go b body ts out).text = out.text ++ splice bound prev ts := by
    intro ts out
    fun_induction substitute.go b body ts out with
    | case1 out => intro _ _; simp
    | case2 t out u rest hpair r hr ih =>
      intro prev _
      have hk : t.kind = .dollar ∧ u.kind = .ident := by simpa using hpair
      have hu : u.kind ≠ .dollar := by rw [hk.2]; decide
      have hdollar : spliceToken bound prev t (some u) = sliceText body r :=
        spliceToken_of_bound (by simp [bound, introduced, hk, hr])
      have hname : spliceToken bound (some t) u rest.head? = "" :=
        spliceToken_of_named (by rw [introduced_of_kind hu]; rfl)
          (by simp [bound, introduced, hk, hr])
      rw [ih (some u) (fun v _ => by simp [introduced_of_kind hu]), Expanded.pushMapped_text,
        splice_cons, splice_cons, List.head?_cons, hdollar, hname]
      simp [String.append_assoc]
    | case3 t out u rest hpair hr ih =>
      intro prev hfresh
      have hk : t.kind = .dollar ∧ u.kind = .ident := by simpa using hpair
      have hdollar : spliceToken bound prev t (some u) = t.text :=
        spliceToken_of_free (by simp [bound, introduced, hk, hr]) (hfresh t rfl)
      rw [ih (some t) (fun v hv => by cases hv; simp [bound, introduced, hk, hr]),
        splice_cons bound prev t, List.head?_cons, hdollar]
      simp [Expanded.pushText, String.append_assoc]
    | case4 t out u rest hpair ih =>
      intro prev hfresh
      have hk : ¬(t.kind = .dollar ∧ u.kind = .ident) := by simpa using hpair
      have hkept : spliceToken bound prev t (some u) = t.text :=
        spliceToken_of_free (by simp [introduced, hk]) (hfresh t rfl)
      rw [ih (some t) (fun v hv => by cases hv; simp [introduced, hk]),
        splice_cons bound prev t, List.head?_cons, hkept]
      simp [Expanded.pushText, String.append_assoc]
    | case5 t out =>
      intro prev hfresh
      have hlast : spliceToken bound prev t none = t.text :=
        spliceToken_of_free rfl (hfresh t rfl)
      simp [splice_cons, hlast, Expanded.pushText]
  have h := go (lex template) Expanded.empty none (by simp)
  unfold substitute
  simpa [Expanded.empty] using h

/-- The template expander's semantics. A body matches a pattern exactly when the pattern's parts
consume its significant tokens left to right with none left over; the match then binds each name
to the tokens its last part took, and substituting into a template replaces each `$` directly
followed by the identifier of a bound name, and that identifier, by the body text bound to it,
leaving every other token of the template as written. -/
theorem template_expansion_semantics (pattern template body : String) :
    ((∃ b, matchPattern (parsePattern pattern) body = some b) ↔
      ∃ gs, Consumes (parsePattern pattern) (significantSpans body) gs) ∧
    ∀ gs, Consumes (parsePattern pattern) (significantSpans body) gs →
      ∃ b, matchPattern (parsePattern pattern) body = some b ∧
        (∀ name, b.find? name = boundRange body.utf8ByteSize (parsePattern pattern) gs name) ∧
        (substitute template b body).text = splice
          (fun name => (boundRange body.utf8ByteSize (parsePattern pattern) gs name).map
            (sliceText body)) none (lex template) := by
  refine ⟨matchPattern_isSome_iff _ body, fun gs hgs => ?_⟩
  obtain ⟨b, hb, hfind⟩ := matchPattern_find? hgs
  refine ⟨b, hb, hfind, ?_⟩
  rw [substitute_text]
  simp only [hfind]

/-- The pattern `$i` takes the one token of the body `X`, and the template `struct $i;` becomes
`struct X;`. -/
theorem dollar_name_fills_struct_template :
    Consumes (parsePattern "$i") (significantSpans "X") [significantSpans "X"] ∧
      ∃ b, matchPattern (parsePattern "$i") "X" = some b ∧
        (substitute "struct $i;" b "X").text = "struct X;" := by
  have hp : parsePattern "$i" = [.one "i"] := by decide +kernel
  have hs : significantSpans "X" = [(⟨.ident, "X"⟩, ⟨0, 1, by omega⟩)] := by decide +kernel
  have hc : Consumes (parsePattern "$i") (significantSpans "X") [significantSpans "X"] := by
    rw [hp, hs]
    exact .one .done
  obtain ⟨b, hb, -, htext⟩ := (template_expansion_semantics "$i" "struct $i;" "X").2 _ hc
  refine ⟨hc, b, hb, ?_⟩
  rw [htext, hp, hs]
  decide +kernel

end MacroTrace
