import JsxView.Rule
import JsxView.Token
/-!
# Scanning a line for tokens

The scanner goes through a region of a line from left to right.  Of the next matches of
all its rules the one that starts first becomes a token, and where two start together the
rule that comes first in the list wins; the scan goes on behind the token.

For each rule the scanner remembers the next match it found.  The memory stays good until
the scan has passed the start of the match.  A rule of which nothing was found is not asked
again: nothing is left of it in the region, or the engine has given its search up.

The whole line is scanned with all rules.  The range of a tag is scanned once more with
the rules for literals and attribute names, and what they find goes inside the tag.
-/
namespace JsxView

/-- What the scanner knows about the next match of a rule. -/
inductive Upcoming where
  /-- Nothing has been looked up yet. -/
  | unknown
  /-- The next match, as long as the scan has not passed its start. -/
  | found (f : Found)
  /-- Nothing was found, and the rule is not asked again. -/
  | exhausted
  deriving DecidableEq, Repr

/-- A rule with what the scanner knows about its next match. -/
structure Lookahead where
  rule : Rule
  upcoming : Upcoming

namespace Lookahead

def fresh (rule : Rule) : Lookahead :=
  ⟨rule, .unknown⟩

/-- The rule with its next match at or behind a place looked up. -/
def lookUp [Engine] (limit : Nat) (p : Place) (l : Lookahead) : Lookahead :=
  match l.rule.findWithin limit p with
  | some f => ⟨l.rule, .found f⟩
  | none => ⟨l.rule, .exhausted⟩

/-- The rule looked up again where the scan has passed what was known. -/
def refresh [Engine] (limit : Nat) (p : Place) (l : Lookahead) : Lookahead :=
  match l.upcoming with
  | .unknown => l.lookUp limit p
  | .found f => if f.start < p.offset then l.lookUp limit p else l
  | .exhausted => l

/-- The match that starts first, of several the one of the first rule. -/
def earliest : List Lookahead → Option Found
  | [] => none
  | l :: rest =>
    match l.upcoming, earliest rest with
    | .found f, some g => if g.start < f.start then some g else some f
    | .found f, none => some f
    | _, other => other

end Lookahead

/-- The matches that become tokens from a place on, at most `fuel` of them. -/
def scanFrom [Engine] (limit : Nat) : Nat → Place → List Lookahead → List Found
  | 0, _, _ => []
  | fuel + 1, p, known =>
    let known := known.map (Lookahead.refresh limit p)
    match Lookahead.earliest known with
    | some f => f :: scanFrom limit fuel f.next known
    | none => []

/-- The matches that become tokens between a place and the byte `limit`.  No token is
empty, so there are no more of them than characters. -/
def scan [Engine] (rules : List Rule) (limit : Nat) (p : Place) : List Found :=
  scanFrom limit p.after.length p (rules.map Lookahead.fresh)

def Token.leaf (f : Found) : Token :=
  ⟨f.category, f.start, f.stop, []⟩

/-- The token of a match on the line, with the tokens inside if it is a tag. -/
def Token.ofFound [Engine] (f : Found) : Token :=
  if f.category = .tag then
    ⟨f.category, f.start, f.stop, (scan Rule.nested f.stop f.site).map Token.leaf⟩
  else Token.leaf f

def tokenize [Engine] (line : List Char) : List Token :=
  (scan Rule.scanner (byteSize line) (Place.start line)).map Token.ofFound

end JsxView
