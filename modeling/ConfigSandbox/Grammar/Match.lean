import ConfigSandbox.Grammar.Rules
import ConfigSandbox.Grammar.Node
import ConfigSandbox.Grammar.Attempts

/-!
Matching a parsing expression against the text at a cursor.

A repetition stops at its first match that reads nothing. The fuel bounds the depth of the search
and nothing else: `fuelFor` is far above the depth that any text of that length can need, and
running out is an outcome of its own, never a failed match. Failed rules are recorded on the side and do not
influence the outcome.
-/
namespace ConfigSandbox

inductive Match where
  | matched (last : Cursor) (nodes : List Node)
  | failed
  | outOfFuel
deriving Inhabited

namespace Match

/-- A match without nodes of its own. -/
def ofCursor? : Option Cursor → Match
  | some last => .matched last []
  | none => .failed

end Match

namespace Peg

def sameAnyCase (expected c : Char) : Bool := c.toLower == expected

mutual

/-- The outcome of an expression at a cursor, beside the failures recorded so far. -/
def run : Nat → Peg → Cursor → Attempts → Match × Attempts
  | 0, _, _, att => (.outOfFuel, att)
  | _ + 1, .empty, cur, att => (.matched cur [], att)
  | _ + 1, .text cs, cur, att => (.ofCursor? (cur.text? (· == ·) cs), att)
  | _ + 1, .textAnyCase cs, cur, att => (.ofCursor? (cur.text? sameAnyCase cs), att)
  | _ + 1, .one cls, cur, att => (.ofCursor? (cur.one? cls.holds), att)
  | fuel + 1, .seq first second, cur, att =>
    match run fuel first cur att with
    | (.matched mid xs, att) =>
      match run fuel second mid att with
      | (.matched last ys, att) => (.matched last (xs ++ ys), att)
      | other => other
    | other => other
  | fuel + 1, .alt first second, cur, att =>
    match run fuel first cur att with
    | (.failed, att) => run fuel second cur att
    | other => other
  | fuel + 1, .star body, cur, att => runStar fuel body cur [] att
  | fuel + 1, .absent body, cur, att =>
    match run fuel body cur att with
    | (.matched .., _) => (.failed, att)
    | (.failed, _) => (.matched cur [], att)
    | other => other
  | fuel + 1, .ahead body, cur, att =>
    match run fuel body cur att with
    | (.matched .., att) => (.matched cur [], att)
    | other => other
  | fuel + 1, .rule r, cur, att =>
    let before := att.countAt cur.offset
    match run fuel r.body cur att with
    | (.matched last nodes, att) => (.matched last [.mk r cur last nodes], att)
    | (.failed, att) => (.failed, att.note r cur.offset before)
    | other => other

/-- Repeats an expression from a cursor; `found` holds the nodes of the matches before it, the
latest first. -/
def runStar : Nat → Peg → Cursor → List Node → Attempts → Match × Attempts
  | 0, _, _, _, att => (.outOfFuel, att)
  | fuel + 1, body, cur, found, att =>
    match run fuel body cur att with
    | (.matched next nodes, att) =>
      if cur.offset < next.offset then runStar fuel body next (nodes.reverse ++ found) att
      else (.matched cur found.reverse, att)
    | (.failed, att) => (.matched cur found.reverse, att)
    | other => other

end

/-- Enough for any search through a text: between two characters read, at most a few thousand
expressions are entered one inside the other. -/
def fuelFor (source : List Char) : Nat := 4096 * (source.length + 1)

end Peg

/-- The outcome of a rule on a whole text, with the failures it met. -/
def Rule.matchText (r : Rule) (source : List Char) : Match × Attempts :=
  (Peg.rule r).run (Peg.fuelFor source) (.start source) .none

end ConfigSandbox
