import MacroTrace.Syntax.Token
import MacroTrace.Text.Slice
import MacroTrace.Text.Blank
import MacroTrace.Expansion.OffsetMap
/-!
The template expander. A pattern is read as significant tokens: `$` then a name binds one token,
`$` then a name then `*` binds all remaining tokens, and any other token must appear as written.
Matching runs over the significant tokens of the call body and binds each name to a body range.
Substitution copies a template, replacing `$name` for each bound name by the bound body text
and recording a segment for each copy. An attribute that re-emits its item drops itself and the
white space after it.
-/
namespace MacroTrace

/-- A part of a pattern. -/
inductive PatternPart where
  | literal (text : String)
  | one (name : String)
  | rest (name : String)
  deriving DecidableEq, Repr

/-- Expansion text and the segments that record what it copied from the body. -/
structure Expanded where
  text : String
  segments : List Segment
  deriving Repr

namespace Expanded

def empty : Expanded := ⟨"", []⟩

def pushText (x : Expanded) (t : String) : Expanded := { x with text := x.text ++ t }

def pushMapped (x : Expanded) (body : String) (r : TextRange) : Expanded :=
  if r.isEmpty then x
  else ⟨x.text ++ sliceText body r, x.segments ++ [⟨r.start, x.text.utf8ByteSize, r.len⟩]⟩

end Expanded

def tokenSpans (text : String) : List (Token × TextRange) :=
  go (lex text) 0
where
  go : List Token → Nat → List (Token × TextRange)
    | [], _ => []
    | t :: ts, off => (t, ⟨off, off + t.len, by omega⟩) :: go ts (off + t.len)

def significantSpans (text : String) : List (Token × TextRange) :=
  (tokenSpans text).filter fun (t, _) => !t.kind.isTrivia && t.kind != .eof

/-- The parts of a pattern. -/
def parsePattern (pattern : String) : List PatternPart :=
  go (significantSpans pattern)
where
  go : List (Token × TextRange) → List PatternPart
    | [] => []
    | (t, _) :: tl =>
      if t.kind == .dollar then
        match _h : tl with
        | (n, _) :: tl' =>
          if n.kind == .ident then
            match _h2 : tl' with
            | (s, _) :: tl'' =>
              if s.kind == .star then .rest n.text :: go tl'' else .one n.text :: go tl'
            | [] => [.one n.text]
          else .literal t.text :: go tl
        | [] => [.literal t.text]
      else .literal t.text :: go tl
  termination_by l => l.length
  decreasing_by all_goals (subst_vars; simp only [List.length_cons]; omega)

/-- Bindings of pattern names to body ranges; a later binding of a name replaces an earlier one. -/
abbrev Bindings := List (String × TextRange)

def Bindings.bind (b : Bindings) (name : String) (r : TextRange) : Bindings :=
  (name, r) :: b.filter (·.1 != name)

def Bindings.find? (b : Bindings) (name : String) : Option TextRange :=
  (List.find? (·.1 == name) b).map (·.2)

/-- Matches pattern parts against the significant tokens left; all must be consumed. `bodyEnd` is
where an empty rest binding sits. -/
def matchParts (bodyEnd : Nat) : List PatternPart → List (Token × TextRange) → Bindings →
    Option Bindings
  | [], toks, b => if toks.isEmpty then some b else none
  | .literal text :: ps, toks, b => match toks with
    | (t, _) :: rest => if t.text == text then matchParts bodyEnd ps rest b else none
    | [] => none
  | .one name :: ps, toks, b => match toks with
    | (_, r) :: rest => matchParts bodyEnd ps rest (b.bind name r)
    | [] => none
  | .rest name :: ps, toks, b =>
    let r := match toks.head?, toks.getLast? with
      | some (_, first), some (_, last) => first.cover last
      | _, _ => TextRange.point bodyEnd
    matchParts bodyEnd ps [] (b.bind name r)

/-- Matches a body against a pattern, binding names to body ranges. -/
def matchPattern (parts : List PatternPart) (body : String) : Option Bindings :=
  matchParts body.utf8ByteSize parts (significantSpans body) []

/-- Copies a template, replacing each `$` directly followed by a bound name with the bound body
text. -/
def substitute (template : String) (b : Bindings) (body : String) : Expanded :=
  go (lex template) Expanded.empty
where
  go : List Token → Expanded → Expanded
    | [], out => out
    | t :: tl, out =>
      match _h : tl with
      | u :: rest =>
        if t.kind == .dollar && u.kind == .ident then
          match b.find? u.text with
          | some r => go rest (out.pushMapped body r)
          | none => go tl (out.pushText t.text)
        else go tl (out.pushText t.text)
      | [] => out.pushText t.text
  termination_by l => l.length
  decreasing_by all_goals (subst_vars; simp only [List.length_cons]; omega)

/-- Re-emits an item without the attribute at `attr` (both item-relative), dropping the white
space after the attribute. -/
def stripAttribute (item : String) (attr : TextRange) : Expanded :=
  let after := (sliceFrom item attr.stop).toList
  let skipped := bytesOf after - bytesOf (trimStartChars after)
  let restStart := attr.stop + skipped
  (Expanded.empty.pushMapped item (TextRange.ofBounds 0 attr.start)).pushMapped item
    (TextRange.ofBounds restStart item.utf8ByteSize)

end MacroTrace
