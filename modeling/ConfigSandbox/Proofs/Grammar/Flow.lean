import Mathlib.Data.List.Lattice
import ConfigSandbox.Proofs.Grammar.Pieces

/-!
# What an expression may do about a place in the text

Two texts that differ in what stands between two tokens are read side by side. How far the readings have
come is one of a few phases, and which phases an expression of the grammar may lead to from one of them is
told by a computation over the expression. It has no answer where the two readings might part: where
something else than blanks and line ends is read at the place.
-/
namespace ConfigSandbox.Peg

open Nesting (isMark isOpening isClosing)

/-- Where two readings stand. Before the place they read the same; the place may be out of reach from
there, in other brackets. At the place blanks come first, then line ends, then blanks again. -/
inductive Phase where
  | away | before | start | stopped | ended | after
deriving DecidableEq, Repr

/-- What is known of a place: the character before it or the one after it, or that a line ends there. -/
inductive Spot where
  | after (c : Char)
  | before (c : Char)
  | lined
deriving DecidableEq, Repr

namespace Spot

/-- What stands between tokens begins with one of these. -/
def fillers : List Char := [' ', '\t', '\x0c', '\n', '\r', '\\', '#']

/-- Whether a piece that begins with the character may be the last before the place. -/
def reaches : Spot → Char → Bool
  | .after l, c => c = l
  | _, c => c ∉ fillers

/-- Whether the character stands neither at the place nor after the blanks there. -/
def excludes : Spot → Char → Bool
  | .after l, c => l = '\r' && c = '\n'
  | .before r, c => c ≠ r && c ∉ fillers
  | .lined, c => c ∉ fillers

/-- Whether blanks and line ends may follow. -/
def hasGap : Spot → Bool
  | .after l => l ∈ ['(', '[', '\x7b', ',', ':']
  | _ => true

/-- Whether the place may stand directly in such a bracket. -/
def opens : Spot → Char → Bool
  | .after l, c => if l = ':' then c = '\x7b' else l ≠ '\n' && l ≠ '\r'
  | _, _ => true

/-- Whether the spot may be found between the parameters of a lambda or the targets of a comprehension. -/
def inLists (s : Spot) : Bool := s ∈ [.after ',', .after ':', .before ',']

/-- The end of a line. -/
def isLineEnd (s : Spot) : Bool := s ∈ [.after '\n', .after '\r']

end Spot

variable (s : Spot)

/-! ### Single characters -/

/-- After a piece that begins with the character. -/
def pieceFlow (c : Char) : List Phase :=
  if isOpening c && !s.opens c then [.away] else if s.reaches c then [.before, .start] else [.before]

def charFlow (c : Char) : Phase → Option (List Phase)
  | .before => if isCode c then some (pieceFlow s c) else none
  | .away =>
    if isCode c then some (if isOpening c || isClosing c then pieceFlow s c else [.away]) else none
  | .start | .stopped => if s.excludes c then some [] else none
  | .ended => none
  | .after => some [.after]

/-- For a character that is no sign. -/
def wordFlow : Phase → Option (List Phase)
  | .before =>
    match s with
    | .after l => if l ∈ signs then some [.before] else none
    | _ => some [.before, .start]
  | .away => some [.away]
  | .start | .stopped =>
    match s with
    | .after _ => none
    | .before r => if r ∈ signs then some [] else none
    | .lined => some []
  | .ended => none
  | .after => some [.after]

variable {s} {c : Char} {φ : Phase} {Ψ : List Phase}

theorem pieceFlow_subset (hc : c ∉ signs) (h : wordFlow s .before = some Ψ) : pieceFlow s c ⊆ Ψ := by
  have hopen : isOpening c = false := by
    simp only [signs, List.mem_cons, List.not_mem_nil, or_false, not_or] at hc
    simp [isOpening, hc]
  rw [pieceFlow, hopen, Bool.false_and, if_neg Bool.false_ne_true]
  cases s with
  | after l =>
    have h : (if l ∈ signs then some [Phase.before] else none) = some Ψ := h
    rw [Option.ite_none_right_eq_some, Option.some.injEq] at h
    obtain ⟨hl, rfl⟩ := h
    have hne : c ≠ l := fun heq => hc (heq ▸ hl)
    rw [Spot.reaches, if_neg (by simpa using hne)]
    exact List.Subset.refl _
  | before | lined =>
    cases h
    split <;> simp

/-- No word stands at the place. -/
theorem wordFlow_gap (hφ : φ = .start ∨ φ = .stopped) (h : wordFlow s φ = some Ψ) :
    Ψ = [] ∧ ∀ c, c ∉ signs → s.excludes c := by
  have hfillers (c : Char) (hc : c ∉ signs) : c ∉ Spot.fillers :=
    fun hmem => hc ((by decide : Spot.fillers ⊆ signs) hmem)
  have hgap : wordFlow s .stopped = some Ψ := by obtain rfl | rfl := hφ <;> exact h
  cases s with
  | after => cases hgap
  | before r =>
    have hgap : (if r ∈ signs then some [] else none) = some Ψ := hgap
    rw [Option.ite_none_right_eq_some, Option.some.injEq] at hgap
    obtain ⟨hr, rfl⟩ := hgap
    refine ⟨rfl, fun c hc => ?_⟩
    rw [Spot.excludes, Bool.and_eq_true]
    exact ⟨decide_eq_true fun heq => hc (heq ▸ hr), decide_eq_true (hfillers c hc)⟩
  | lined =>
    cases hgap
    exact ⟨rfl, fun c hc => decide_eq_true (hfillers c hc)⟩

end Peg

open Peg (Phase Spot)

/-! ### Rules -/

namespace Rule

/-- Whether the rule stands outside all brackets only. -/
def isOuter : Rule → Bool
  | .assignment | .augmentedAssignment | .annotatedAssignment | .expressionStatement | .targetList => true
  | _ => false

/-- Whether a line end at the place would not be free inside the rule. -/
def isBlocked (s : Spot) (r : Rule) : Bool :=
  !r.isOrdinary || (r.isOuter && !s.isLineEnd) || (r == .dictItem && s.isLineEnd) ||
    (r == .slice && s == .after ':') ||
    ((r == .lambdaParameters || r == .comprehensionTarget) && s.inLists)

/-- Whether lists in which the place does not stand follow the word. -/
def leadsAway (s : Spot) (r : Rule) : Bool := (r == .word .lambda || r == .word .for) && s.inLists

/-- Where the rule may lead from before the place. -/
def ends (s : Spot) (r : Rule) : List Phase :=
  match s with
  | .after l =>
    if r.isLexeme || !s.hasGap then [.before]
    else if r == .trailingComma && l = ',' then [.before, .start]
    else [.before, .after]
  | _ => if r.isLexeme then [.before, .start] else [.before, .start, .stopped, .after]

theorem ends_lexeme (s : Spot) {r : Rule} (h : r.isLexeme) {φ : Phase} (hφ : φ ∈ r.ends s) :
    φ = .before ∨ φ = .start := by
  unfold ends at hφ
  split at hφ
  · rw [h, Bool.true_or, if_pos rfl] at hφ
    exact Or.inl (List.mem_singleton.mp hφ)
  · rw [if_pos h] at hφ
    simpa using hφ

/-- Whether the rule fails wherever such a place is. -/
def failsAt (s : Spot) (r : Rule) : Bool :=
  match s with
  | .after _ => false
  | .before c => r.isOrdinary && r.consumes && !(r == .trailingComma && c = ',')
  | .lined => r.isOrdinary && r.consumes

def flow (s : Spot) (r : Rule) : Phase → Option (List Phase)
  | .before => if r.leadsAway s then some [.away] else if r.isBlocked s then none else some (r.ends s)
  | .away =>
    if !r.isOrdinary then none else some (if s.hasGap && !r.isLexeme then [.away, .after] else [.away])
  | .start | .stopped => if r.failsAt s then some [] else none
  | .ended => none
  | .after => some [.after]

end Rule

namespace Peg

/-! ### Expressions -/

/-- From each of several phases. -/
def flowAll (f : Phase → Option (List Phase)) : List Phase → Option (List Phase)
  | [] => some []
  | φ :: rest => (f φ).bind fun Ψ => (flowAll f rest).map (Ψ ∪ ·)

/-- From some phases as often as it takes to reach no other. -/
def flowStar (f : Phase → Option (List Phase)) : Nat → List Phase → Option (List Phase)
  | 0, _ => none
  | n + 1, Φ => (flowAll f Φ).bind fun Ψ => if Ψ ⊆ Φ then some Φ else flowStar f n (Φ ∪ Ψ)

/-- Past some characters, one after another. -/
def charsFlow (f : Char → Phase → Option (List Phase)) : List Char → Phase → Option (List Phase)
  | [], φ => some [φ]
  | c :: cs, φ => (f c φ).bind (flowAll (charsFlow f cs))

variable (s : Spot)

/-- For what is read as one: the pieces of code, and at the place the blanks and line ends. -/
def unitFlow (e : Peg) : Phase → Option (List Phase)
  | .before =>
    if !isPiece e then none
    else some (if (pieceHeads e).any s.reaches then [.before, .start] else [.before])
  | .away => if isPiece e then some [.away] else none
  | .start => if e = blanks && s.hasGap then some [.stopped] else none
  | .stopped =>
    if !s.hasGap then none
    else if e = blanks then some [.stopped]
    else if e = lines then some [.ended]
    else none
  | .ended => if e = blanks && s.hasGap then some [.after] else none
  | .after => none

/-- The phases that an expression may lead to from a phase. -/
def flow : Peg → Phase → Option (List Phase)
  | .empty, φ => some [φ]
  | .text cs, φ => charsFlow (charFlow s) cs φ
  | .textAnyCase cs, φ => if cs.all (· ∉ signs) then charsFlow (fun _ => wordFlow s) cs φ else none
  | .one cls, φ => if φ = .after then some [.after] else if cls = .any then none else wordFlow s φ
  | .seq a b, φ => (unitFlow s (.seq a b) φ).or ((flow a φ).bind (flowAll (flow b)))
  | .alt a b, φ =>
    (unitFlow s (.alt a b) φ).or ((flow a φ).bind fun Ψ => (flow b φ).map (Ψ ∪ ·))
  | .star e, φ => if e.consumes then flowStar (flow e) 6 [φ] else none
  | .absent e, φ | .ahead e, φ => (flow e φ).map fun _ => [φ]
  | .rule r, φ => if r = .endOfInput ∧ φ ≠ .after then some [] else r.flow s φ

def Spot.all : List Spot :=
  [.after '(', .after '[', .after '\x7b', .after ',', .after ':', .after '\n', .after '\r',
   .before ')', .before ']', .before '\x7d', .before ',', .lined]

/-- The places between two tokens inside brackets. -/
def Spot.tokens : List Spot := Spot.all.filter fun s => !s.isLineEnd

theorem Spot.not_reaches_of_mem {s : Spot} (h : s ∈ Spot.all) : ¬ s.reaches '#' ∧ ¬ s.reaches '\\' := by
  have hall : (Spot.all.all fun s => !s.reaches '#' && !s.reaches '\\') = true := by decide
  simpa using List.all_eq_true.mp hall s h

/-- Where a rule may lead, as far as that is told by its body. A place in other brackets stays there. -/
def isWithin (r : Rule) (φ : Phase) (Ψ Ψ' : List Phase) : Bool :=
  match φ with
  | .away => Ψ'.all fun ψ => (ψ ≠ .after || .after ∈ Ψ) && (s.hasGap || (ψ ≠ .stopped && ψ ≠ .ended))
  | .before =>
    if r.leadsAway s then Ψ' ⊆ [.before, .start]
    else Ψ'.all fun ψ => ψ ∈ Ψ || (ψ = .away && .before ∈ Ψ)
  | _ => Ψ' ⊆ Ψ

/-- What is asked of the body of a rule for the flow of the rule to be right. -/
def bodyFlows (r : Rule) (φ : Phase) : Bool :=
  match r.flow s φ, flow s r.body φ with
  | none, _ => true
  | some _, none => r = .endOfInput && φ ≠ .after
  | some Ψ, some Ψ' => isWithin s r φ Ψ Ψ'

variable {s} in
theorem pieceFlow_subset_of_piece {e : Peg} {c : Char} (hc : c ∈ pieceHeads e) :
    pieceFlow s c ⊆ if (pieceHeads e).any s.reaches then [.before, .start] else [.before] := by
  have hheads : pieceHeads e ⊆ ['#', '\\', '"', '\''] := by
    unfold pieceHeads
    repeat' split
    all_goals decide
  have hnone : ((['#', '\\', '"', '\''] : List Char).all fun c => !Nesting.isOpening c) = true := by decide
  have hopen : Nesting.isOpening c = false := by simpa using List.all_eq_true.mp hnone c (hheads hc)
  rw [pieceFlow, hopen, Bool.false_and, if_neg Bool.false_ne_true]
  split
  · rename_i hreach
    rw [if_pos (List.any_eq_true.mpr ⟨c, hc, hreach⟩)]
    exact List.Subset.refl _
  · split <;> simp

def Phase.all : List Phase := [.away, .before, .start, .stopped, .ended, .after]

/-- The flow of each rule is that of its body. -/
theorem bodyFlows_of_mem (r : Rule) {s : Spot} (hs : s ∈ Spot.all) (φ : Phase) : bodyFlows s r φ := by
  have hall : (Spot.all.all fun s => Phase.all.all fun φ => bodyFlows s r φ) = true := by
    cases r with
    | unary op => cases op <;> decide +kernel
    | binary op => cases op <;> decide +kernel
    | slicePart part => cases part <;> decide +kernel
    | stringContent q => cases q <;> decide +kernel
    | word w => cases w <;> decide +kernel
    | _ => decide +kernel
  exact List.all_eq_true.mp (List.all_eq_true.mp hall s hs) φ (by cases φ <;> decide)

end ConfigSandbox.Peg
