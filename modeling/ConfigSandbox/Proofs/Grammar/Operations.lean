import ConfigSandbox.Proofs.Grammar.Items

/-!
# Operators between operands

Prefixes, operands and the operators between them, written with a space between any two tokens. By that space an
operator is told from those that it begins; `is` and `is not` are told by what comes behind it.
-/
namespace ConfigSandbox

def UnaryOp.spelling : UnaryOp → String
  | not => "not"
  | neg => "-"
  | pos => "+"
  | invert => "~"

def BinaryOp.spelling : BinaryOp → String
  | or => "or"
  | and => "and"
  | eq => "=="
  | ne => "!="
  | lt => "<"
  | le => "<="
  | gt => ">"
  | ge => ">="
  | isIn => "in"
  | notIn => "not in"
  | is => "is"
  | isNot => "is not"
  | bitOr => "|"
  | bitXor => "^"
  | bitAnd => "&"
  | shiftLeft => "<<"
  | shiftRight => ">>"
  | add => "+"
  | sub => "-"
  | mul => "*"
  | matMul => "@"
  | div => "/"
  | floorDiv => "//"
  | mod => "%"
  | pow => "**"

/-- Tokens with a space between any two of them, and more behind the last. -/
def spaced : List String → List Char → List Char
  | [], more => more
  | [t], more => t.toList ++ more
  | t :: next :: rest, more => t.toList ++ ' ' :: spaced (next :: rest) more

theorem spaced_cons {t : String} {ts : List String} {more : List Char} (h : ts ≠ []) :
    spaced (t :: ts) more = t.toList ++ ' ' :: spaced ts more := by
  cases ts with
  | nil => exact absurd rfl h
  | cons next rest => rfl

theorem exists_spaced_cons (t : String) (ts : List String) (more : List Char) :
    ∃ rest, spaced (t :: ts) more = t.toList ++ rest := by
  cases ts with
  | nil => exact ⟨more, rfl⟩
  | cons next rest => exact ⟨_, rfl⟩

theorem spaced_append {ts us : List String} {more : List Char} (ht : ts ≠ []) (hu : us ≠ []) :
    spaced (ts ++ us) more = spaced ts (' ' :: spaced us more) := by
  induction ts with
  | nil => exact absurd rfl ht
  | cons t ts ih =>
    cases ts with
    | nil => exact spaced_cons hu
    | cons next rest =>
      have hrest := ih (List.cons_ne_nil next rest)
      rw [List.cons_append, spaced_cons (List.append_ne_nil_of_left_ne_nil (List.cons_ne_nil next rest) us),
        hrest, spaced_cons (List.cons_ne_nil next rest)]

theorem spaced_more (ts : List String) (more rest : List Char) :
    spaced ts (more ++ rest) = spaced ts more ++ rest := by
  induction ts with
  | nil => rfl
  | cons t ts ih =>
    cases ts with
    | nil => rw [spaced, spaced, List.append_assoc]
    | cons next ts =>
      rw [spaced_cons (List.cons_ne_nil next ts), ih, spaced_cons (List.cons_ne_nil next ts),
        List.append_assoc, List.cons_append]

theorem spaced_eq_append (ts : List String) (more : List Char) : spaced ts more = spaced ts [] ++ more :=
  spaced_more ts [] more

theorem spaced_paren {ts : List String} (h : ts ≠ []) (more : List Char) :
    spaced ("(" :: ts ++ [")"]) more = '(' :: ' ' :: (spaced ts [' '] ++ [')']) ++ more := by
  have hclose : ' ' :: spaced [")"] more = [' '] ++ ([')'] ++ more) := rfl
  rw [List.cons_append, spaced_cons (List.append_ne_nil_of_left_ne_nil h _), spaced_append h (List.cons_ne_nil _ _),
    hclose, spaced_more]
  simp

theorem intercalate_eq_spaced (ts : List String) : (" ".intercalate ts).toList = spaced ts [] := by
  rw [String.toList_intercalate]
  induction ts with
  | nil => rfl
  | cons t ts ih =>
    cases ts with
    | nil => simp [spaced]
    | cons next rest =>
      have hcons : " ".toList.intercalate (List.map String.toList (t :: next :: rest)) =
          t.toList ++ " ".toList ++ " ".toList.intercalate (List.map String.toList (next :: rest)) :=
        List.intercalate_cons_cons
      rw [spaced_cons (List.cons_ne_nil next rest), ← ih, hcons, List.append_assoc]
      rfl

namespace Peg

variable {cs gap more rest tail text : List Char} {P : List Node → Prop} {R : Node → Prop} {e : Peg}

/-! ### Operators -/

/-- What fails where `s` stands, whatever comes behind it. -/
def blockedAtText (s : List Char) : Peg → Bool
  | .text ds => !ds.isPrefixOf s && !s.isPrefixOf ds
  | _ => false

theorem blockedAtText_refuses {s : List Char} (e : Peg) (he : blockedAtText s e) : Refuses e (s ++ more) := by
  cases e with
  | text ds =>
    rw [blockedAtText, Bool.and_eq_true, Bool.not_eq_true', Bool.not_eq_true'] at he
    apply Refuses.lit
    intro h
    rcases List.prefix_or_prefix_of_prefix h (List.prefix_append s more) with h | h
    · rw [List.isPrefixOf_iff_prefix.mpr h] at he
      cases he.1
    · rw [List.isPrefixOf_iff_prefix.mpr h] at he
      cases he.2
  | _ => cases he

/-- An operator with the space behind it. -/
theorem refuses_atText {s : List Char} (hspace : more.head? = some ' ')
    (he : glance (blockedAtText (s ++ [' '])) e = .refuses) : Refuses e (s ++ more) := by
  obtain ⟨more, rfl⟩ := List.head?_eq_some_iff.mp hspace
  have hholds : (glance (blockedAtText (s ++ [' '])) e).Holds e (s ++ [' '] ++ more) :=
    glance_holds blockedAtText_refuses e
  rwa [he, List.append_assoc] at hholds

theorem breaksWord_space (hspace : more.head? = some ' ') : breaksWord more := by
  rw [breaksWord, hspace]
  rfl

def unaryOps : List UnaryOp := [.not, .neg, .pos, .invert]

/-- In the order in which they are tried. -/
def binaryOps : List BinaryOp :=
  [.or, .and, .notIn, .isNot, .is, .isIn, .eq, .ne, .le, .ge, .shiftLeft, .shiftRight, .lt, .gt, .bitOr, .bitXor,
    .bitAnd, .add, .sub, .pow, .mul, .matMul, .floorDiv, .div, .mod]

theorem choice_unaryOps : choice (unaryOps.map fun op => .rule (.unary op)) = unaryOperator := rfl

theorem choice_binaryOps : choice (binaryOps.map fun op => .rule (.binary op)) = binaryOperator := rfl

theorem takes_unaryOperator (op : UnaryOp) (hspace : more.head? = some ' ') :
    Takes unaryOperator op.spelling.toList more (Sole (·.rule = .unary op)) := by
  have hspelled : Takes (unarySpelling op) op.spelling.toList more fun _ => True := by
    cases op with
    | not =>
      have hword : Takes (Rule.body (.word .not)) "not".toList more Silent :=
        takes_word "not" (breaksWord_space hspace)
      exact hword.rule.mono fun _ _ => trivial
    | neg | pos | invert => exact Takes.lit.mono fun _ _ => trivial
  have hrule : Takes (.rule (.unary op)) op.spelling.toList more (Sole (·.rule = .unary op)) := by
    have hbody : Takes (Rule.body (.unary op)) op.spelling.toList more fun _ => True := hspelled
    refine hbody.rule.mono ?_
    rintro _ ⟨first, last, children, rfl, -, -⟩
    exact ⟨_, rfl, rfl⟩
  rw [← choice_unaryOps]
  refine hrule.choice_of_mem (by cases op <;> decide) fun b hb => refuses_atText hspace ?_
  revert b
  cases op <;> decide

theorem opens_unary (op : UnaryOp) (hspace : more.head? = some ' ') : Opens (op.spelling.toList ++ more) := by
  cases op with
  | not => exact .word rfl (breaksWord_space hspace) (by decide)
  | neg | pos | invert =>
    apply Begins.char
    show some _ ∈ openers
    decide

theorem takes_wordRule (w : Word) (hb : breaksWord more) :
    Takes (.rule (.word w)) w.spelling.toList more fun _ => True := by
  have hword : Takes (Rule.body (.word w)) w.spelling.toList more Silent := takes_word w.spelling hb
  exact hword.rule.mono fun _ _ => trivial

theorem takes_binarySpelling (op : BinaryOp) (hspace : more.head? = some ' ') :
    Takes (binarySpelling op) op.spelling.toList more fun _ => True := by
  have hb := breaksWord_space hspace
  have hpair (v w : Word) (hopens : ∀ more, breaksWord more → Opens (w.spelling.toList ++ more)) :
      Takes (tokens [.rule (.word v), .rule (.word w)]) (v.spelling.toList ++ ([' '] ++ w.spelling.toList)) more
        fun _ => True := by
    have hsecond := (takes_wordRule w hb).after (hopens more hb).space
    exact ((takes_wordRule v rfl).seq hsecond).mono fun _ _ => trivial
  cases op with
  | or | and | is | isIn => exact takes_wordRule _ hb
  | notIn => exact hpair .not .in fun more hb => .word rfl hb (by decide)
  | isNot => exact hpair .is .not fun more hb => .word rfl hb (by decide)
  | _ => exact Takes.lit.mono fun _ _ => trivial

/-- Behind `is` no `not` may follow, for the two would be read as one. -/
theorem takes_binaryOperator (op : BinaryOp) (hopens : Opens more)
    (hneck : op = .is → Refuses (.rule (.word .not)) more) :
    Takes binaryOperator op.spelling.toList (' ' :: more) (Sole (·.rule = .binary op)) := by
  have hspace : (' ' :: more).head? = some ' ' := rfl
  have hbody : Takes (Rule.body (.binary op)) op.spelling.toList (' ' :: more) fun _ => True :=
    takes_binarySpelling op hspace
  have hrule : Takes (.rule (.binary op)) op.spelling.toList (' ' :: more) (Sole (·.rule = .binary op)) := by
    refine hbody.rule.mono ?_
    rintro _ ⟨first, last, children, rfl, -, -⟩
    exact ⟨_, rfl, rfl⟩
  rw [← choice_binaryOps]
  refine hrule.choice_of_mem (by cases op <;> decide) fun b hb => ?_
  by_cases hlonger : op = .is ∧ b = .rule (.binary .isNot)
  · obtain ⟨rfl, rfl⟩ := hlonger
    have his : Takes (.rule (.word .is)) "is".toList ([' '] ++ more) fun _ => True := takes_wordRule .is rfl
    have hnot : Refuses (.seq blanks (.rule (.word .not))) ([' '] ++ more) := (hneck rfl).after hopens.space
    have hpair : Refuses (Rule.body (.binary .isNot)) ("is".toList ++ ([' '] ++ more)) := hnot.after his
    exact hpair.rule
  · apply refuses_atText hspace
    revert b
    cases op <;> decide +kernel

/-! ### Gaps -/

/-- The characters with which the operators begin. -/
def operatorHeads : List (Option Char) := "oani=!<>|^&+-*@/%".toList.map some

/-- What stands between an operand and the next operator, or the end. -/
structure Spacing (gap rest : List Char) : Prop where
  takes : Takes blanks gap rest Silent
  trailers : Skips (many trailer) rest
  breaks : breaksWord (gap ++ rest)

theorem Spacing.nothing (h : Stops tail) : Spacing [] tail :=
  ⟨Skips.takes (skips_at stops h (by decide)), skips_at stops h (by decide), h.breaksWord⟩

theorem Spacing.space (h : rest.head? ∈ stops ++ operatorHeads) : Spacing [' '] rest :=
  ⟨takes_space (refuses_at _ h (by decide)) (refuses_at _ h (by decide)), skips_at _ h (by decide), rfl⟩

theorem head_spelling (op : BinaryOp) : (op.spelling.toList ++ more).head? ∈ operatorHeads := by
  cases op <;>
  · show some _ ∈ operatorHeads
    decide

/-! ### Operations -/

/-- An operand with the prefixes before it. -/
structure Term (α : Type) where
  prefixes : List UnaryOp
  operand : α

/-- Terms with operators between them. -/
structure Operation (α : Type) where
  first : Term α
  more : List (BinaryOp × Term α)

/-- What an operation consists of, in the order in which it is written. -/
inductive RowPart (α : Type) where
  | before (op : UnaryOp)
  | between (op : BinaryOp)
  | operand (x : α)

variable {α : Type} {t : α → List String} {Q : α → Node → Prop}

def RowPart.tokens (t : α → List String) : RowPart α → List String
  | before op => [op.spelling]
  | between op => [op.spelling]
  | operand x => t x

/-- The node of a part, where those of operands are of the given kinds. -/
def RowPart.NodeOf (Q : α → Node → Prop) : RowPart α → Node → Prop
  | before op => (·.rule = .unary op)
  | between op => (·.rule = .binary op)
  | operand x => Q x

def Term.parts (term : Term α) : List (RowPart α) := term.prefixes.map .before ++ [.operand term.operand]

def pairsParts (pairs : List (BinaryOp × Term α)) : List (RowPart α) :=
  pairs.flatMap fun p => .between p.1 :: p.2.parts

def Operation.parts (o : Operation α) : List (RowPart α) := o.first.parts ++ pairsParts o.more

def tokensOf (t : α → List String) (parts : List (RowPart α)) : List String := parts.flatMap (RowPart.tokens t)

/-- Tokens that are read as one operand, if no word goes on behind them. -/
structure Operand (ts : List String) (R : Node → Prop) : Prop where
  ne_nil : ts ≠ []
  opens : ∀ tail, breaksWord tail → OpensOperand (spaced ts tail)
  takes : ∀ tail, breaksWord tail → Takes primary (spaced ts []) tail (Sole R)

/-! ### Terms -/

/-- Further prefixes, with the space before each. -/
theorem takes_star_prefixes (ops : List UnaryOp) (h : OpensOperand cs) :
    Takes (.star (.seq blanks unaryOperator)) (ops.flatMap fun op => ' ' :: op.spelling.toList) (' ' :: cs)
      (List.Forall₂ (RowPart.NodeOf Q) (ops.map .before)) := by
  induction ops with
  | nil =>
    have hnone : Refuses (.seq blanks unaryOperator) ([' '] ++ cs) := h.refuses_unary.after h.opens.space
    exact hnone.star.takes.mono fun _ h => h ▸ .nil
  | cons op ops ih =>
    have hspace : ((ops.flatMap fun op => ' ' :: op.spelling.toList) ++ ' ' :: cs).head? = some ' ' := by
      cases ops <;> rfl
    have hop : Takes (.seq blanks unaryOperator) (' ' :: op.spelling.toList) _
        (Sole (RowPart.NodeOf Q (.before op))) :=
      (takes_unaryOperator op hspace).after (opens_unary op hspace).space
    exact (hop.star (List.cons_ne_nil _ _) ih).mono fun _ => forall₂_of_both

/-- What is written for prefixes. -/
def prefixText (ops : List UnaryOp) : List Char := ops.flatMap fun op => op.spelling.toList ++ [' ']

theorem prefixText_cons (op : UnaryOp) (ops : List UnaryOp) :
    prefixText (op :: ops) = op.spelling.toList ++ (ops.flatMap fun op => ' ' :: op.spelling.toList) ++ [' '] := by
  induction ops generalizing op with
  | nil => simp [prefixText]
  | cons next ops ih =>
    have hnext := ih next
    rw [prefixText, List.flatMap_cons, ← prefixText, hnext]
    simp

theorem takes_prefixes {next : Peg} (ops : List UnaryOp) (hnext : Takes next cs tail P)
    (hopens : OpensOperand (cs ++ tail)) :
    Takes (.seq (many unaryOperator) (.seq blanks next)) (prefixText ops ++ cs) tail
      (Both (List.Forall₂ (RowPart.NodeOf Q) (ops.map .before)) P) := by
  cases ops with
  | nil =>
    have hbare := (hnext.past hopens.opens.skips_blanks).past hopens.refuses_unary.many
    exact hbare.mono fun nodes h => ⟨[], nodes, rfl, .nil, h⟩
  | cons op ops =>
    have hspace : ((ops.flatMap fun op => ' ' :: op.spelling.toList) ++ ' ' :: (cs ++ tail)).head? = some ' ' := by
      cases ops <;> rfl
    have hop : Takes unaryOperator op.spelling.toList _ (Sole (RowPart.NodeOf Q (.before op))) :=
      takes_unaryOperator op hspace
    have hmany := (hop.seq (takes_star_prefixes (Q := Q) ops hopens)).opt
    have hafter : Takes (.seq blanks next) ([' '] ++ cs) tail P := hnext.after hopens.opens.space
    rw [prefixText_cons, List.append_assoc]
    refine (hmany.seq hafter).mono ?_
    rintro _ ⟨_, ys, rfl, hops, hP⟩
    exact ⟨_, ys, rfl, forall₂_of_both hops, hP⟩

theorem Term.tokens_ne_nil {term : Term α} (h : t term.operand ≠ []) : tokensOf t term.parts ≠ [] := by
  simp [tokensOf, parts, RowPart.tokens, h]

theorem spaced_term (term : Term α) (h : t term.operand ≠ []) :
    spaced (tokensOf t term.parts) more = prefixText term.prefixes ++ spaced (t term.operand) more := by
  obtain ⟨ops, x⟩ := term
  induction ops with
  | nil => simp [tokensOf, Term.parts, RowPart.tokens, prefixText]
  | cons op ops ih =>
    have hne : tokensOf t (Term.parts ⟨ops, x⟩) ≠ [] := Term.tokens_ne_nil h
    have hcons : tokensOf t (Term.parts ⟨op :: ops, x⟩) = op.spelling :: tokensOf t (Term.parts ⟨ops, x⟩) := rfl
    rw [hcons, spaced_cons hne, ih h]
    simp [prefixText]

theorem forall₂_append {β : Type} {S : β → Node → Prop} {xs ys : List β} {nodes : List Node}
    (h : Both (List.Forall₂ S xs) (List.Forall₂ S ys) nodes) : List.Forall₂ S (xs ++ ys) nodes := by
  obtain ⟨us, vs, rfl, hus, hvs⟩ := h
  exact List.rel_append hus hvs

/-- A term, and what comes next behind a gap. -/
theorem takes_term {next : Peg} (term : Term α) (hx : Operand (t term.operand) (Q term.operand))
    (hnext : Takes (.seq blanks next) gap rest P) (hb : breaksWord (gap ++ rest)) :
    Takes (tokens [many unaryOperator, primary, next]) (spaced (tokensOf t term.parts) gap) rest
      (Both (List.Forall₂ (RowPart.NodeOf Q) term.parts) P) := by
  have hopens := hx.opens _ hb
  have hoperand := (hx.takes _ hb).seq hnext
  rw [spaced_term term hx.ne_nil, spaced_eq_append]
  rw [spaced_eq_append, ← List.append_assoc] at hopens
  refine (takes_prefixes (Q := Q) term.prefixes hoperand hopens).mono ?_
  rintro _ ⟨us, _, rfl, hus, _, vs, rfl, ⟨node, rfl, hnode⟩, hP⟩
  exact ⟨us ++ [node], vs, (List.append_assoc ..).symm, List.rel_append hus (.cons hnode .nil), hP⟩

theorem opens_term (term : Term α) (hx : Operand (t term.operand) (Q term.operand)) (hb : breaksWord more) :
    Opens (spaced (tokensOf t term.parts) more) := by
  rw [spaced_term term hx.ne_nil]
  cases hops : term.prefixes with
  | nil => exact (hx.opens more hb).opens
  | cons op ops =>
    rw [prefixText, List.flatMap_cons, List.append_assoc, List.append_assoc]
    exact opens_unary op rfl

/-- A term that does not begin with `not`. -/
theorem refuses_not (term : Term α) (hx : Operand (t term.operand) (Q term.operand)) (hb : breaksWord more)
    (hneck : term.prefixes.head? ≠ some .not) :
    Refuses (.rule (.word .not)) (spaced (tokensOf t term.parts) more) := by
  rw [spaced_term term hx.ne_nil]
  cases hops : term.prefixes with
  | nil =>
    have hchar : ∀ head ∈ operandHeads, glance (blockedAt head) (.rule (.word .not)) = .refuses := by decide
    exact (hx.opens more hb).glance_holds operators_reserved hchar (by decide)
  | cons op ops =>
    rw [hops] at hneck
    rw [prefixText, List.flatMap_cons, List.append_assoc, List.append_assoc]
    apply refuses_atText rfl
    cases op with
    | not => exact absurd rfl hneck
    | neg | pos | invert => decide

/-! ### Rows -/

/-- An operator and the term behind it, with the gap after that. -/
def operatorTerm : Peg := tokens [binaryOperator, many unaryOperator, primary, many trailer]

variable {op : BinaryOp} {term : Term α} {pairs : List (BinaryOp × Term α)}

/-- What stands behind an operator may stand there. -/
structure Follows (t : α → List String) (Q : α → Node → Prop) (op : BinaryOp) (term : Term α) : Prop where
  operand : Operand (t term.operand) (Q term.operand)
  neck : op = .is → term.prefixes.head? ≠ some .not

theorem takes_operatorTerm (h : Follows t Q op term) (hgap : Spacing gap rest) :
    Takes operatorTerm (spaced (op.spelling :: tokensOf t term.parts) gap) rest
      (List.Forall₂ (RowPart.NodeOf Q) (.between op :: term.parts)) := by
  have hne : tokensOf t term.parts ≠ [] := Term.tokens_ne_nil h.operand.ne_nil
  have hopens := opens_term term h.operand hgap.breaks
  have hneck : op = .is → Refuses (.rule (.word .not)) (spaced (tokensOf t term.parts) (gap ++ rest)) :=
    fun his => refuses_not term h.operand hgap.breaks (h.neck his)
  have hterm := takes_term (Q := Q) term h.operand (hgap.takes.before hgap.trailers) hgap.breaks
  rw [spaced_more] at hopens hneck
  have hop : Takes binaryOperator op.spelling.toList _ (Sole (RowPart.NodeOf Q (.between op))) :=
    takes_binaryOperator op hopens hneck
  rw [spaced_cons hne]
  refine (hop.seq (hterm.after hopens.space)).mono ?_
  rintro _ ⟨_, _, rfl, ⟨node, rfl, hnode⟩, us, _, rfl, hus, rfl⟩
  rw [List.append_nil]
  exact .cons hnode hus

/-- The gap before more operators, or at the end. -/
def gapBefore (gap : List Char) : List (BinaryOp × Term α) → List Char
  | [] => gap
  | _ :: _ => [' ']

/-- What is written for operators with the terms behind them, up to a gap. -/
def pairsText (t : α → List String) (gap : List Char) : List (BinaryOp × Term α) → List Char
  | [] => []
  | (op, term) :: pairs =>
    spaced (op.spelling :: tokensOf t term.parts) (gapBefore gap pairs) ++ pairsText t gap pairs

theorem spaced_pairs (parts : List (RowPart α)) (h : tokensOf t parts ≠ []) :
    spaced (tokensOf t (parts ++ pairsParts pairs)) gap =
      spaced (tokensOf t parts) (gapBefore gap pairs) ++ pairsText t gap pairs := by
  induction pairs generalizing parts with
  | nil => simp [pairsParts, gapBefore, pairsText]
  | cons pair pairs ih =>
    obtain ⟨op, term⟩ := pair
    have hne : tokensOf t (.between op :: term.parts) ≠ [] := List.cons_ne_nil _ _
    have hmore := ih (.between op :: term.parts) hne
    have hsplit : tokensOf t (parts ++ pairsParts ((op, term) :: pairs)) =
        tokensOf t parts ++ tokensOf t (.between op :: term.parts ++ pairsParts pairs) := by
      simp [tokensOf, pairsParts]
    have hne' : tokensOf t (.between op :: term.parts ++ pairsParts pairs) ≠ [] := List.cons_ne_nil _ _
    calc spaced (tokensOf t (parts ++ pairsParts ((op, term) :: pairs))) gap
      _ = spaced (tokensOf t parts) (' ' ::
            (spaced (tokensOf t (.between op :: term.parts)) (gapBefore gap pairs) ++ pairsText t gap pairs)) := by
        rw [hsplit, spaced_append h hne', hmore]
      _ = spaced (tokensOf t parts) [' '] ++ pairsText t gap ((op, term) :: pairs) := spaced_more _ [' '] _

theorem head_pairs (htail : tail.head? ∈ stops) :
    (pairsText t gap pairs ++ tail).head? ∈ stops ++ operatorHeads := by
  cases pairs with
  | nil => exact List.mem_append_left operatorHeads htail
  | cons pair pairs =>
    obtain ⟨op, term⟩ := pair
    obtain ⟨more, hmore⟩ := exists_spaced_cons op.spelling (tokensOf t term.parts) (gapBefore gap pairs)
    rw [pairsText, hmore, List.append_assoc, List.append_assoc]
    exact List.mem_append_right stops (head_spelling op)

theorem gap_before (hgap : Spacing gap tail) (htail : Stops tail) :
    Spacing (gapBefore gap pairs) (pairsText t gap pairs ++ tail) := by
  cases pairs with
  | nil => exact hgap
  | cons pair pairs => exact Spacing.space (head_pairs htail)

theorem skips_blanks_pairs (htail : Stops tail) : Skips blanks (pairsText t gap pairs ++ tail) :=
  skips_at _ (head_pairs htail) (by decide)

theorem takes_pair (hpair : Follows t Q op term) (hgap : Spacing gap tail) (htail : Stops tail) :
    Takes operatorTerm (spaced (op.spelling :: tokensOf t term.parts) (gapBefore gap pairs))
      (pairsText t gap pairs ++ tail) (List.Forall₂ (RowPart.NodeOf Q) (.between op :: term.parts)) :=
  takes_operatorTerm hpair (gap_before hgap htail)

theorem takes_star_pairs (hall : ∀ p ∈ pairs, Follows t Q p.1 p.2) (hgap : Spacing gap tail) (htail : Stops tail) :
    Takes (.star (.seq blanks operatorTerm)) (pairsText t gap pairs) tail
      (List.Forall₂ (RowPart.NodeOf Q) (pairsParts pairs)) := by
  induction pairs with
  | nil =>
    have hnone : Skips (.star (.seq blanks operatorTerm)) tail := skips_at stops htail (by decide)
    exact hnone.takes.mono fun _ h => h ▸ .nil
  | cons pair pairs ih =>
    obtain ⟨op, term⟩ := pair
    obtain ⟨hpair, hrest⟩ := List.forall_mem_cons.mp hall
    have hblanks : Skips blanks (pairsText t gap ((op, term) :: pairs) ++ tail) := skips_blanks_pairs htail
    rw [pairsText, List.append_assoc] at hblanks
    have hne : spaced (op.spelling :: tokensOf t term.parts) (gapBefore gap pairs) ≠ [] := by
      obtain ⟨more, hmore⟩ := exists_spaced_cons op.spelling (tokensOf t term.parts) (gapBefore gap pairs)
      rw [hmore]
      cases op <;> exact List.cons_ne_nil _ _
    exact (((takes_pair hpair hgap htail).past hblanks).star hne (ih hrest)).mono fun _ => forall₂_append

theorem takes_many_pairs (hall : ∀ p ∈ pairs, Follows t Q p.1 p.2) (hgap : Spacing gap tail) (htail : Stops tail) :
    Takes (many operatorTerm) (pairsText t gap pairs) tail
      (List.Forall₂ (RowPart.NodeOf Q) (pairsParts pairs)) := by
  cases pairs with
  | nil =>
    have hnone : Skips (many operatorTerm) tail := skips_at stops htail (by decide)
    exact hnone.takes.mono fun _ h => h ▸ .nil
  | cons pair pairs =>
    obtain ⟨hpair, hrest⟩ := List.forall_mem_cons.mp hall
    exact ((takes_pair hpair hgap htail).seq (takes_star_pairs hrest hgap htail)).opt.mono fun _ => forall₂_append

/-- Terms with operators between them are read as an operation, where something stops it behind the gap. -/
theorem takes_operation {o : Operation α} (hfirst : Operand (t o.first.operand) (Q o.first.operand))
    (hall : ∀ p ∈ o.more, Follows t Q p.1 p.2) (hgap : Spacing gap tail) (htail : Stops tail) :
    Takes Rule.operation.body (spaced (tokensOf t o.parts) gap) tail (List.Forall₂ (RowPart.NodeOf Q) o.parts) := by
  obtain ⟨first, pairs⟩ := o
  have hnext : Spacing (gapBefore gap pairs) (pairsText t gap pairs ++ tail) := gap_before hgap htail
  have hpairs : Takes (tokens [many trailer, many operatorTerm]) (pairsText t gap pairs) tail _ :=
    ((takes_many_pairs hall hgap htail).past (skips_blanks_pairs htail)).past hnext.trailers
  have hbreaks := hnext.breaks
  rw [← List.append_assoc] at hbreaks
  have hrow := takes_term (Q := Q) first hfirst (hpairs.after hnext.takes) hbreaks
  rw [spaced_more, ← spaced_pairs first.parts (Term.tokens_ne_nil hfirst.ne_nil)] at hrow
  exact hrow.mono fun _ => forall₂_append

/-! ### Expressions -/

theorem opens_operation {o : Operation α} (hfirst : Operand (t o.first.operand) (Q o.first.operand))
    (hall : ∀ p ∈ o.more, Follows t Q p.1 p.2) (hgap : Spacing gap tail) (htail : Stops tail) :
    Opens (spaced (tokensOf t o.parts) gap ++ tail) := by
  obtain ⟨first, pairs⟩ := o
  have hnext : Spacing (gapBefore gap pairs) (pairsText t gap pairs ++ tail) := gap_before hgap htail
  rw [Operation.parts, spaced_pairs first.parts (Term.tokens_ne_nil hfirst.ne_nil), List.append_assoc,
    ← spaced_more]
  exact opens_term (Q := Q) first hfirst hnext.breaks

/-- An operation is an expression, also with a space behind it. -/
theorem item_operation {o : Operation α} (hfirst : Operand (t o.first.operand) (Q o.first.operand))
    (hall : ∀ p ∈ o.more, Follows t Q p.1 p.2) (hgap : gap ∈ [[], [' ']]) :
    Item test (spaced (tokensOf t o.parts) gap) (RowNode (List.Forall₂ (RowPart.NodeOf Q) o.parts)) := by
  have hends {tail : List Char} (htail : Stops tail) : Spacing gap tail := by
    rcases List.mem_pair.mp hgap with rfl | rfl
    · exact .nothing htail
    · exact .space (List.mem_append_left operatorHeads htail)
  have hopens (tail : List Char) (htail : Stops tail) := opens_operation hfirst hall (hends htail) htail
  refine ⟨hopens, fun tail htail => ?_⟩
  have hlambda : Refuses (.rule .lambda) (spaced (tokensOf t o.parts) gap ++ tail) :=
    (hopens tail htail).refuses (by decide) (by decide)
  have hrow := takes_operation hfirst hall (hends htail) htail
  have hconditional : Takes Rule.conditional.body (spaced (tokensOf t o.parts) gap) tail _ :=
    hrow.rule.before htail.conditionalRest
  refine (hconditional.rule.orElse hlambda).mono ?_
  rintro _ ⟨first, last, _, rfl, -, first', last', children, rfl, -, hchildren⟩
  exact ⟨_, rfl, first, last, first', last', children, rfl, hchildren⟩

/-! ### Operands -/

theorem operand_name {w : String} (hw : isName w.toList) :
    Operand [w] fun node => Single .identifier w.toList Silent [node] := by
  refine ⟨List.cons_ne_nil w [], fun tail hb => opens_name hw hb, fun tail hb => ?_⟩
  have htext : spaced [w] [] = w.toList := List.append_nil _
  rw [htext]
  refine (takes_nameOperand hw hb).mono ?_
  rintro _ ⟨first, last, _, rfl, hreads, rfl⟩
  exact ⟨_, rfl, first, last, [], rfl, hreads, rfl⟩

/-- The node of parentheses around an expression of the given kind. -/
def ParenNode (R : Node → Prop) (node : Node) : Prop :=
  ∃ first last e, node = .mk .paren first last [e] ∧ R e

theorem takes_paren (h : Item test cs R) :
    Takes (.rule .paren) ('(' :: ' ' :: (cs ++ [')'])) tail (Sole (ParenNode R)) := by
  have hr : some ')' ∈ closers := by decide
  have hstops : Stops (')' :: tail) := stops_of_comma (List.mem_cons_of_mem _ hr)
  have hopens := h.opens _ hstops
  have hstarred : Refuses (.rule .starred) (cs ++ ')' :: tail) := hopens.refuses (by decide) (by decide)
  have hfor : Refuses (.rule .comprehensionFor) (')' :: tail) := refuses_at closers hr (by decide)
  have hblanks : Skips blanks (')' :: tail) := skips_at closers hr (by decide)
  have hcomprehension : Refuses (tokens [test, .rule .comprehensionFor]) (cs ++ ')' :: tail) :=
    (hfor.past hblanks).after (h.takes _ hstops)
  have hmore : Skips (.seq blanks (tokens [lines, many (tokens [lit ",", lines, starTest, lines]),
      opt (.rule .trailingComma)])) (')' :: tail) := skips_at closers hr (by decide)
  have hlines : Skips (.seq blanks lines) (')' :: tail) := skips_at closers hr (by decide)
  have hitem : Takes starTest cs (')' :: tail) (Sole R) := (h.takes _ hstops).orElse hstarred
  have hbody : Takes sequenceBody cs (')' :: tail) (Sole R) := Takes.orElse (hitem.before hmore) hcomprehension
  have hparen : Takes Rule.paren.body ('(' :: ' ' :: (cs ++ [')'])) tail (Sole R) :=
    takes_spacedBrackets hr (hbody.before hlines).opt hopens.space hopens.skips_blanks hopens.skips_lines
  refine hparen.rule.mono ?_
  rintro _ ⟨first, last, _, rfl, -, e, rfl, hR⟩
  exact ⟨_, rfl, first, last, e, rfl, hR⟩

/-- Parentheses around an expression that is read with a space behind it. -/
theorem operand_paren {ts : List String} (hts : ts ≠ []) (h : Item test (spaced ts [' ']) R) :
    Operand ("(" :: ts ++ [")"]) (ParenNode R) := by
  refine ⟨List.cons_ne_nil _ _, fun tail hb => ?_, fun tail hb => ?_⟩
  · rw [spaced_paren hts]
    exact .char List.mem_cons_self
  · rw [spaced_paren hts, List.append_nil]
    exact takes_primary_at (takes_paren h) [some '('] List.mem_cons_self (by decide) (by decide)

end Peg
end ConfigSandbox
