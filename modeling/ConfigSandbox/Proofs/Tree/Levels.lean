import ConfigSandbox.Proofs.Tree.Parsed

/-!
# What the depth limit counts

The limit counts rows of operators, one inside the other: a pair of brackets opens a row, and so does a
statement. In a row it counts prefixes and powers, but it does not hand their number down to the brackets in
the row. All other operators, trailers, conditionals and lambdas build taller trees without being counted.
The levels of a tree are the brackets around its deepest leaf, with or without the counted operators.
-/
namespace ConfigSandbox

/-- One for the operators that nest their operand to the right. -/
def BinaryOp.nesting (op : BinaryOp) : Nat := if op.isRightAssociative then 1 else 0

/-- One for a tuple, which may stand without brackets of its own. -/
def Expr.tupleLevel : Expr → Nat
  | .tuple .. => 1
  | _ => 0

mutual

/-- The brackets on the way down to the deepest leaf, and one for the leaf. An operator that nests counts
`w`, everything else nothing. -/
def Expr.levels (w : Nat) : Expr → Nat
  | .name .. | .constant .. | .comprehension .. | .formatStr .. => 1
  | .list _ items | .tuple _ items | .set _ items => 1 + levelsIn w items
  | .dict _ entries => 1 + entryLevels w entries
  | .call _ func args keywords =>
    max (func.levels w) (1 + max (levelsIn w args) (keywordLevels w keywords))
  | .subscript _ value index => max (value.levels w) (1 + (index.levels w - index.tupleLevel))
  | .slice _ lower upper step =>
    max (partLevels w lower) (max (partLevels w upper) (partLevels w step))
  | .member _ value _ | .lambda _ _ value | .starred _ value => value.levels w
  | .binary _ op left right => w * op.nesting + max (left.levels w) (right.levels w)
  | .unary _ _ operand => w + operand.levels w
  | .conditional _ test body orelse => max (test.levels w) (max (body.levels w) (orelse.levels w))

def levelsIn (w : Nat) : List Expr → Nat
  | [] => 0
  | e :: rest => max (e.levels w) (levelsIn w rest)

def entryLevels (w : Nat) : List DictEntry → Nat
  | [] => 0
  | .pair key value :: rest => max (max (key.levels w) (value.levels w)) (entryLevels w rest)
  | .unpack value :: rest => max (value.levels w) (entryLevels w rest)

def keywordLevels (w : Nat) : List Keyword → Nat
  | [] => 0
  | .named _ _ value :: rest | .unpack _ value :: rest => max (value.levels w) (keywordLevels w rest)

def partLevels (w : Nat) : Option Expr → Nat
  | none => 0
  | some e => e.levels w

end

section AtMost

variable {w M : Nat}

theorem levelsIn_le_iff {items : List Expr} : levelsIn w items ≤ M ↔ ∀ e ∈ items, e.levels w ≤ M := by
  induction items with
  | nil => simp [levelsIn]
  | cons e rest ih => rw [levelsIn, Nat.max_le, ih, List.forall_mem_cons]

theorem keywordLevels_le_iff {keywords : List Keyword} :
    keywordLevels w keywords ≤ M ↔ ∀ k ∈ keywords, k.value.levels w ≤ M := by
  induction keywords with
  | nil => simp [keywordLevels]
  | cons k rest ih =>
    cases k <;> rw [keywordLevels, Nat.max_le, ih, List.forall_mem_cons, Keyword.value]

end AtMost

/-- The levels of an expression that need not stand in brackets. -/
def Expr.bareLevels (w : Nat) (e : Expr) : Nat := e.levels w - e.tupleLevel

theorem Expr.bareLevels_le_levels (w : Nat) (e : Expr) : e.bareLevels w ≤ e.levels w := Nat.sub_le _ _

variable {w M k n limit depth : Nat} {e left : Expr} {loc : Location}

theorem tupleUnlessSingle_levels {children : List Node} {items : List Expr} (h : levelsIn w items ≤ M) :
    (tupleUnlessSingle loc children items).levels w ≤ 1 + M ∧
      (tupleUnlessSingle loc children items).bareLevels w ≤ M := by
  have htuple : (Expr.tuple loc items).levels w ≤ 1 + M ∧ (Expr.tuple loc items).bareLevels w ≤ M := by
    simp only [Expr.bareLevels, Expr.tupleLevel, Expr.levels]
    omega
  unfold tupleUnlessSingle
  split
  · split
    · exact htuple
    · rename_i item _
      have hle := item.bareLevels_le_levels w
      simp only [levelsIn] at h
      omega
  · exact htuple

/-! ### Rows of operators -/

namespace Trailer

def levels (w : Nat) : Trailer → Nat
  | call args keywords => 1 + max (levelsIn w args) (keywordLevels w keywords)
  | subscript index => 1 + index.bareLevels w
  | member _ => 0

theorem levels_apply (t : Trailer) (e : Expr) (loc : Location) :
    (t.apply e loc).levels w = max (e.levels w) (t.levels w) := by
  cases t with
  | call | subscript => rfl
  | member => simp [apply, levels, Expr.levels]

end Trailer

namespace Piece

/-- The levels of what stands in a row already. -/
def levels (w : Nat) : Piece → Nat
  | operand e => e.levels w
  | trailer _ t => t.levels w
  | unary .. | binary _ => 0

def nesting : Piece → Nat
  | unary .. => 1
  | binary op => op.nesting
  | operand _ | trailer .. => 0

end Piece

/-- How many operators that nest have gone into an operator that waits, itself included. -/
inductive Pending.Took (w M : Nat) : Pending → Nat → Prop
  | unary {loc : Location} {op : UnaryOp} : Took w M (.unary loc op) 1
  | binary {left : Expr} {op : BinaryOp} {k : Nat} (h : left.levels w ≤ M + w * k) :
      Took w M (.binary left op) (k + op.nesting)

theorem Pending.Took.close {p : Pending} (h : p.Took w M n) (he : e.levels w ≤ M + w * k) :
    (p.close e).levels w ≤ M + w * (n + k) := by
  cases h with
  | unary =>
    rw [Pending.close, Expr.levels, Nat.mul_add]
    omega
  | @binary left op j h =>
    rw [Pending.close, Expr.levels, Nat.mul_add, Nat.mul_add]
    omega

/-- A stack, and how many operators that nest have gone into it. -/
inductive StackTook (w M : Nat) : List Pending → Nat → Prop
  | nil : StackTook w M [] 0
  | cons {p : Pending} {rest : List Pending} {n m : Nat} (here : p.Took w M n)
      (outer : StackTook w M rest m) : StackTook w M (p :: rest) (n + m)

variable {stack : List Pending} {m : Nat}

theorem StackTook.closeFor (level : Nat) (hs : StackTook w M stack m) (he : e.levels w ≤ M + w * k) :
    ∃ m' k', m' + k' = m + k ∧ StackTook w M (closeFor level e stack).2 m' ∧
      (closeFor level e stack).1.levels w ≤ M + w * k' := by
  induction hs generalizing e k with
  | nil => exact ⟨0, k, rfl, .nil, he⟩
  | @cons p rest n m here outer ih =>
    rw [ConfigSandbox.closeFor]
    split
    · obtain ⟨m', k', hsum, hstack, hle⟩ := ih (here.close he)
      exact ⟨m', k', by omega, hstack, hle⟩
    · exact ⟨n + m, k, rfl, .cons here outer, he⟩

theorem StackTook.closeAll (hs : StackTook w M stack m) (he : e.levels w ≤ M + w * k) :
    (closeAll e stack).levels w ≤ M + w * (m + k) := by
  induction hs generalizing e k with
  | nil => rwa [Nat.zero_add]
  | @cons p rest n m here outer ih =>
    have hle := ih (here.close he)
    rw [← Nat.add_assoc, Nat.add_comm m n] at hle
    exact hle

/-- The operators that nest in a row. -/
def nestings : List Piece → Nat
  | [] => 0
  | p :: rest => p.nesting + nestings rest

theorem pieces_levels {pieces : List Piece} (hp : ∀ p ∈ pieces, p.levels w ≤ M) :
    (∀ stack m result, StackTook w M stack m → operandFirst stack pieces = some result →
      result.levels w ≤ M + w * (m + nestings pieces)) ∧
    (∀ stack m e k result, StackTook w M stack m → e.levels w ≤ M + w * k →
      operatorNext stack e pieces = some result →
      result.levels w ≤ M + w * (m + k + nestings pieces)) := by
  -- the two readers call each other, so both are followed along the row at once
  induction pieces with
  | nil =>
    refine ⟨fun stack m result _ h => ?_, fun stack m e k result hs he h => ?_⟩
    · cases h
    · cases h
      exact hs.closeAll he
  | cons p rest ih =>
    obtain ⟨hhere, hrest⟩ := List.forall_mem_cons.mp hp
    obtain ⟨ihoperand, ihoperator⟩ := ih hrest
    rw [nestings]
    refine ⟨fun stack m result hs h => ?_, fun stack m e k result hs he h => ?_⟩
    · cases p with
      | operand e =>
        have hle := ihoperator stack m e 0 result hs (by simpa [Piece.levels] using hhere) h
        simpa [Piece.nesting] using hle
      | unary loc op =>
        have hle := ihoperand _ (1 + m) result (.cons .unary hs) h
        rw [Piece.nesting, show m + (1 + nestings rest) = 1 + m + nestings rest by omega]
        exact hle
      | binary | trailer => cases h
    · cases p with
      | operand | unary => cases h
      | trailer loc t =>
        have happly : (t.apply e loc).levels w ≤ M + w * k := by
          rw [t.levels_apply]
          exact Nat.max_le.mpr ⟨he, Nat.le_trans hhere (Nat.le_add_right _ _)⟩
        have hle := ihoperator stack m _ k result hs happly h
        simpa [Piece.nesting] using hle
      | binary op =>
        obtain ⟨m', k', hsum, hstack, hleft⟩ := hs.closeFor op.level he
        have hle := ihoperand _ _ result (.cons (.binary hleft) hstack) h
        rw [Piece.nesting, show m + k + (op.nesting + nestings rest) =
          k' + op.nesting + m' + nestings rest by omega]
        exact hle

theorem ofPieces_levels {pieces : List Piece} (hp : ∀ p ∈ pieces, p.levels w ≤ M)
    (h : Expr.ofPieces? pieces = some e) : e.levels w ≤ M + w * nestings pieces := by
  have hle := (pieces_levels hp).1 [] 0 e .nil h
  rwa [Nat.zero_add] at hle

/-! ### What the limit leaves -/

/-- Whatever is given meets a condition. -/
abbrev Yields {α : Type} (A : α → Prop) (x : Except ParseError α) : Prop := Meets (fun _ => True) A x

/-- A row in which `n` more rows may stand around its leaves needs at most `B (n + 1)` levels. -/
def Budget (w : Nat) (B : Nat → Nat) : Prop := ∀ n, 1 + B n + w * n ≤ B (n + 1)

theorem budget_id : Budget 0 id := by
  intro n
  simp only [id_eq]
  omega

/-- With `n` rows and one operator less in each than in the row around it. -/
theorem budget_triangle : Budget 1 fun n => n * (n + 1) / 2 := by
  intro n
  have hstep : (n + 1) * (n + 1 + 1) = n * (n + 1) + 2 * (n + 1) := by
    rw [Nat.mul_comm, ← Nat.add_mul, Nat.add_assoc]
  dsimp only
  omega

/-- The rules that may stand as an operand. -/
def Rule.isPrimary : Rule → Bool
  | .ellipsis | .float | .integer | .strings | .trueLiteral | .falseLiteral | .noneLiteral
  | .identifier | .paren | .list | .brace => true
  | _ => false

/-- Brackets, and leaves too, stand one level above what is inside. -/
def Rule.ownLevels (r : Rule) : Nat := if r.isPrimary then 1 else 0

theorem Rule.ownLevels_eq_zero {r : Rule} (h : r.isPrimary = false) : r.ownLevels = 0 := by
  rw [ownLevels, h]
  rfl

variable {source : String} {B : Nat → Nat} {r : Rule} {first last : Cursor} {node : Node}
  {nodes children : List Node}

/-- The node has the given text, and so many rows inside the others leave so many levels. -/
structure Node.Leveled (source : String) (limit w : Nat) (B : Nat → Nat) (node : Node) : Prop where
  matched : node.Matched source
  builds : ∀ depth, Yields (fun e => e.levels w ≤ node.rule.ownLevels + B (limit - depth))
    (exprOf limit depth node)

theorem checkChain_count (h : checkChain limit depth nodes = .ok ()) (hd : depth ≤ limit) :
    depth + nodes.countP (·.rule.nests) ≤ limit := by
  induction nodes generalizing depth with
  | nil => exact hd
  | cons node rest ih =>
    rw [checkChain] at h
    split at h
    · rename_i hn
      split at h
      · cases h
      · have hle := ih h (by omega)
        rw [List.countP_cons, if_pos hn]
        omega
    · rename_i hn
      rw [List.countP_cons, if_neg hn]
      exact ih h hd

theorem itemsOf_levels (h : ∀ node ∈ nodes, Yields (·.levels w ≤ M) (exprOf limit depth node)) :
    Yields (levelsIn w · ≤ M) (itemsOf limit depth nodes) := by
  induction nodes with
  | nil => exact Nat.zero_le _
  | cons node rest ih =>
    obtain ⟨hnode, hrest⟩ := List.forall_mem_cons.mp h
    rw [itemsOf]
    split
    · exact ih hrest
    · exact hnode.bind fun item hitem => (ih hrest).bind fun items hitems => Nat.max_le.mpr ⟨hitem, hitems⟩

theorem entriesOf_levels
    (h : ∀ node ∈ nodes, ∀ child ∈ node.children, Yields (·.levels w ≤ M) (exprOf limit depth child)) :
    Yields (entryLevels w · ≤ M) (entriesOf limit depth nodes) := by
  induction nodes with
  | nil => exact Nat.zero_le _
  | cons node rest ih =>
    obtain ⟨hnode, hrest⟩ := List.forall_mem_cons.mp h
    obtain ⟨r, first, last, children⟩ := node
    rw [entriesOf.eq_def]
    dsimp only
    split
    · obtain ⟨hkey, hvalue⟩ := List.forall_mem_cons.mp hnode
      refine hkey.bind fun k hk => (hvalue _ List.mem_cons_self).bind fun v hv => ?_
      exact (ih hrest).bind fun entries hentries => Nat.max_le.mpr ⟨Nat.max_le.mpr ⟨hk, hv⟩, hentries⟩
    · refine (hnode _ List.mem_cons_self).bind fun v hv => ?_
      exact (ih hrest).bind fun entries hentries => Nat.max_le.mpr ⟨hv, hentries⟩
    · trivial

theorem slicePartsOf_levels
    (h : ∀ node ∈ nodes, ∀ child ∈ node.children, Yields (·.levels w ≤ M) (exprOf limit depth child)) :
    Yields (fun parts => ∀ part ∈ parts, part.2.levels w ≤ M) (slicePartsOf limit depth nodes) := by
  induction nodes with
  | nil => exact fun part hpart => by cases hpart
  | cons node rest ih =>
    obtain ⟨hnode, hrest⟩ := List.forall_mem_cons.mp h
    obtain ⟨r, first, last, children⟩ := node
    rw [slicePartsOf.eq_def]
    dsimp only
    split
    · refine (hnode _ List.mem_cons_self).bind fun v hv => ?_
      exact (ih hrest).bind fun parts hparts => List.forall_mem_cons.mpr ⟨hv, hparts⟩
    · trivial

theorem partLevels_lookup {parts : List (SlicePart × Expr)} (h : ∀ part ∈ parts, part.2.levels w ≤ M)
    (place : SlicePart) : partLevels w (parts.lookup place) ≤ M := by
  cases hp : parts.lookup place with
  | none => exact Nat.zero_le _
  | some e =>
    obtain ⟨before, after, rfl, -⟩ := List.lookup_eq_some_iff.mp hp
    exact h (place, e) (List.mem_append_right _ List.mem_cons_self)

theorem Node.Matched.rule_mem (h : (Node.mk r first last children).Matched source) :
    ∀ child ∈ children, child.rule ∈ Peg.rulesIn r.body := by
  cases h with
  | mk body start parts => exact body.rule_mem

/-- What is passed by a name is never an operand on its own. -/
theorem Node.Matched.keyword_value {name value : Node}
    (h : (Node.mk .keywordArgument first last [name, value]).Matched source) :
    value.rule.isPrimary = false := by
  cases h with
  | mk body start parts =>
    obtain ⟨mid, xs, ys, hname, hrest, hnodes⟩ := body.of_seq
    obtain ⟨inner, -, rfl⟩ := hname.of_rule
    obtain ⟨-, rfl⟩ := List.cons.inj hnodes
    have htests : ∀ r ∈ Peg.rulesIn (.seq Peg.blanks (Peg.tokens [Peg.assignSign, Peg.test])),
        r.isPrimary = false := by decide
    exact htests _ (hrest.rule_mem value List.mem_cons_self)

namespace Node.Leveled

theorem any (h : node.Leveled source limit w B) (depth : Nat) :
    Yields (·.levels w ≤ 1 + B (limit - depth)) (exprOf limit depth node) := by
  refine (h.builds depth).imp fun e he => Nat.le_trans he ?_
  rw [Rule.ownLevels]
  split <;> omega

theorem test (h : node.Leveled source limit w B) (hr : node.rule.isPrimary = false) (depth : Nat) :
    Yields (·.levels w ≤ B (limit - depth)) (exprOf limit depth node) := by
  have hbuilds := h.builds depth
  rw [Rule.ownLevels_eq_zero hr, Nat.zero_add] at hbuilds
  exact hbuilds

end Node.Leveled

/-- Whether only whole rows stand directly inside a rule, and no operand on its own. -/
def Rule.holdsRows (r : Rule) : Bool := (Peg.rulesIn r.body).all (!·.isPrimary)

theorem Node.Matched.rows_below (h : (Node.mk r first last children).Matched source) (hr : r.holdsRows) :
    ∀ child ∈ children, child.rule.isPrimary = false := by
  intro child hchild
  simpa using List.all_eq_true.mp hr _ (h.rule_mem child hchild)

section Below

variable (hm : (Node.mk r first last children).Matched source)
  (h : ∀ child ∈ children, child.All (Node.Leveled source limit w B)) (depth : Nat)
include hm h

theorem rows_levels (hr : r.holdsRows) :
    ∀ child ∈ children, Yields (·.levels w ≤ B (limit - depth)) (exprOf limit depth child) :=
  fun child hchild => (h child hchild).here.test (hm.rows_below hr child hchild) depth

/-- Rows one node further down. -/
theorem rows_levels_below (hr : ∀ r' ∈ Peg.rulesIn r.body, r'.holdsRows) : ∀ child ∈ children,
    ∀ row ∈ child.children, Yields (·.levels w ≤ B (limit - depth)) (exprOf limit depth row) := by
  intro child hchild
  have hrule := hr _ (hm.rule_mem child hchild)
  have hchild := h child hchild
  obtain ⟨r', first', last', rows⟩ := child
  exact fun row hrow => (hchild.parts row hrow).here.test (hchild.here.matched.rows_below hrule row hrow) depth

end Below

theorem argumentsOf_levels {args : List Expr} {keywords : List Keyword}
    (hargs : ∀ e ∈ args, e.levels w ≤ B (limit - depth))
    (hkeywords : ∀ k ∈ keywords, k.value.levels w ≤ B (limit - depth))
    (h : ∀ node ∈ nodes, node.All (Node.Leveled source limit w B))
    (hr : ∀ node ∈ nodes, node.rule.isPrimary = false) :
    Yields (fun read => (Trailer.call read.1 read.2).levels w ≤ 1 + B (limit - depth))
      (argumentsOf limit depth args keywords nodes) := by
  induction nodes generalizing args keywords with
  | nil =>
    have hcall := Nat.max_le.mpr ⟨levelsIn_le_iff.mpr hargs, keywordLevels_le_iff.mpr hkeywords⟩
    exact Nat.add_le_add_left hcall 1
  | cons node rest ih =>
    obtain ⟨hnode, hrest⟩ := List.forall_mem_cons.mp h
    obtain ⟨hrow, hrows⟩ := List.forall_mem_cons.mp hr
    have hkeyword {k : Keyword} (hk : k.value.levels w ≤ B (limit - depth)) :=
      ih hargs (List.forall_mem_append.mpr ⟨hkeywords, List.forall_mem_singleton.mpr hk⟩) hrest hrows
    have hpositional : Yields (fun read => (Trailer.call read.1 read.2).levels w ≤ 1 + B (limit - depth))
        (exprOf limit depth node >>= fun e => argumentsOf limit depth (args ++ [e]) keywords rest) := by
      refine (hnode.here.test hrow depth).bind fun e he => ih ?_ hkeywords hrest hrows
      exact List.forall_mem_append.mpr ⟨hargs, List.forall_mem_singleton.mpr he⟩
    rw [argumentsOf.eq_def]
    dsimp only
    split
    · rename_i first last name value
      obtain ⟨-, hvalue⟩ := List.forall_mem_cons.mp hnode.parts
      split
      · trivial
      · have hleveled := (hvalue _ List.mem_cons_self).here
        exact (hleveled.test hnode.here.matched.keyword_value depth).bind fun v hv => hkeyword hv
    · rename_i first last value
      have hrows := rows_levels hnode.here.matched hnode.parts depth (by decide)
      exact (hrows value List.mem_cons_self).bind fun v hv => hkeyword hv
    · split
      · trivial
      · exact hpositional

theorem piecesOf_levels (h : ∀ node ∈ nodes, node.All (Node.Leveled source limit w B)) :
    Yields (fun pieces => (∀ p ∈ pieces, p.levels w ≤ 1 + B (limit - depth)) ∧
      nestings pieces ≤ nodes.countP (·.rule.nests)) (piecesOf limit depth nodes) := by
  induction nodes with
  | nil => exact ⟨fun p hp => absurd hp List.not_mem_nil, Nat.le_refl _⟩
  | cons node rest ih =>
    obtain ⟨hnode, hrest⟩ := List.forall_mem_cons.mp h
    have hmore (p : Piece) (hp : p.levels w ≤ 1 + B (limit - depth))
        (hn : p.nesting ≤ if node.rule.nests then 1 else 0) :
        Yields (fun pieces => (∀ p ∈ pieces, p.levels w ≤ 1 + B (limit - depth)) ∧
          nestings pieces ≤ (node :: rest).countP (·.rule.nests))
          (piecesOf limit depth rest >>= fun pieces => .ok (p :: pieces)) := by
      refine (ih hrest).bind fun pieces hpieces => ⟨List.forall_mem_cons.mpr ⟨hp, hpieces.1⟩, ?_⟩
      rw [nestings, List.countP_cons]
      have hle := hpieces.2
      omega
    rw [piecesOf.eq_def]
    dsimp only
    split
    · exact hmore _ (Nat.zero_le _) (Nat.le_refl _)
    · exact hmore _ (Nat.zero_le _) (Nat.le_refl _)
    · rename_i first last children
      have hrows := hnode.here.matched.rows_below (by decide)
      refine Meets.bind (argumentsOf_levels ?_ ?_ hnode.parts hrows) fun read hread => ?_
      · exact fun e he => absurd he List.not_mem_nil
      · exact fun k hk => absurd hk List.not_mem_nil
      exact hmore _ hread (Nat.zero_le _)
    · rename_i first last children
      have hrows := rows_levels hnode.here.matched hnode.parts depth (by decide)
      refine (itemsOf_levels hrows).bind fun items hitems => ?_
      exact hmore _ (Nat.add_le_add_left (tupleUnlessSingle_levels hitems).2 1) (Nat.zero_le _)
    · exact hmore _ (Nat.zero_le _) (Nat.zero_le _)
    · exact (hnode.here.any depth).bind fun e he => hmore _ he (Nat.zero_le _)

/-! ### Whole trees -/

theorem StringParts.levels_toExpr (parts : StringParts) (loc : Location) :
    (parts.toExpr loc).levels w = 1 := by
  unfold toExpr
  split
  · rfl
  · split <;> rfl

theorem exprOf_leveled (hB : Budget w B) (hm : (Node.mk r first last children).Matched source)
    (h : ∀ node ∈ children, node.All (Node.Leveled source limit w B)) :
    (Node.mk r first last children).Leveled source limit w B := by
  refine ⟨hm, fun depth => ?_⟩
  have hrows := rows_levels hm h depth
  have hbelow := rows_levels_below hm h depth
  have hleaf {e : Expr} (he : e.levels w = 1) : e.levels w ≤ 1 + B (limit - depth) := by
    rw [he]
    exact Nat.le_add_right _ _
  rw [exprOf.eq_def]
  dsimp only [Node.rule]
  cases r with
  | operation =>
    dsimp only
    split
    · trivial
    · rename_i hlimit
      cases hchain : checkChain limit (depth + 1) children with
      | error e => trivial
      | ok u =>
        have hcount := checkChain_count hchain (by omega)
        refine (piecesOf_levels h).bind fun pieces hpieces => ?_
        split
        · rename_i e he
          have hle := ofPieces_levels hpieces.1 he
          have hbudget := hB (limit - (depth + 1))
          have hnest : w * nestings pieces ≤ w * (limit - (depth + 1)) :=
            Nat.mul_le_mul_left w (by omega)
          rw [show limit - (depth + 1) + 1 = limit - depth by omega] at hbudget
          change e.levels w ≤ 0 + B (limit - depth)
          omega
        · trivial
  | conditional =>
    specialize hrows (by decide)
    dsimp only
    rw [Rule.ownLevels_eq_zero rfl, Nat.zero_add]
    split
    · rename_i body
      exact hrows body List.mem_cons_self
    · simp only [List.forall_mem_cons] at hrows
      obtain ⟨hbody, -, htest, -, horelse, -⟩ := hrows
      refine hbody.bind fun body hbody => htest.bind fun test htest => horelse.bind fun orelse horelse => ?_
      exact Nat.max_le.mpr ⟨htest, Nat.max_le.mpr ⟨hbody, horelse⟩⟩
    · trivial
  | lambda =>
    specialize hrows (by decide)
    dsimp only
    rw [Rule.ownLevels_eq_zero rfl, Nat.zero_add]
    split
    · simp only [List.forall_mem_cons] at hrows
      exact hrows.2.1.bind fun body hbody => hbody
    · simp only [List.forall_mem_cons] at hrows
      exact hrows.2.2.1.bind fun body hbody => hbody
    · trivial
  | starred =>
    specialize hrows (by decide)
    dsimp only
    rw [Rule.ownLevels_eq_zero rfl, Nat.zero_add]
    split
    · exact (hrows _ List.mem_cons_self).bind fun v hv => hv
    · trivial
  | slice =>
    specialize hbelow (by decide)
    dsimp only
    rw [Rule.ownLevels_eq_zero rfl, Nat.zero_add]
    refine (slicePartsOf_levels hbelow).bind fun parts hparts => ?_
    have hpart := partLevels_lookup hparts
    exact Nat.max_le.mpr ⟨hpart .lower, Nat.max_le.mpr ⟨hpart .upper, hpart .step⟩⟩
  | identifier | trueLiteral | falseLiteral | noneLiteral | ellipsis => exact hleaf rfl
  | integer | float =>
    dsimp only
    split
    · exact hleaf rfl
    · trivial
  | strings =>
    dsimp only
    cases hparts : children.foldlM StringParts.addNode .none with
    | error err =>
      rw [stringsToExpr, hparts]
      trivial
    | ok parts =>
      rw [stringsToExpr, hparts]
      exact hleaf (parts.levels_toExpr _)
  | paren =>
    dsimp only
    split
    · exact hleaf rfl
    · exact (itemsOf_levels (hrows (by decide))).bind fun items hitems =>
        (tupleUnlessSingle_levels hitems).1
  | list =>
    dsimp only
    split
    · exact hleaf rfl
    · exact (itemsOf_levels (hrows (by decide))).bind fun items hitems => Nat.add_le_add_left hitems 1
  | brace =>
    dsimp only
    split
    · exact hleaf rfl
    · split
      · exact (entriesOf_levels (hbelow (by decide))).bind fun entries hentries =>
          Nat.add_le_add_left hentries 1
      · exact (itemsOf_levels (hrows (by decide))).bind fun items hitems => Nat.add_le_add_left hitems 1
  | _ => trivial

theorem Node.Matched.leveled (hB : Budget w B) (h : node.Matched source) :
    node.All (Node.Leveled source limit w B) := h.all fun _ _ _ _ => exprOf_leveled hB

theorem yields_mapM {α β : Type} {A : β → Prop} {f : α → Except ParseError β} {xs : List α}
    (h : ∀ x ∈ xs, Yields A (f x)) : Yields (∀ y ∈ ·, A y) (xs.mapM f) := by
  induction xs with
  | nil => exact fun y hy => absurd hy List.not_mem_nil
  | cons x rest ih =>
    obtain ⟨hx, hrest⟩ := List.forall_mem_cons.mp h
    rw [List.mapM_cons]
    exact hx.bind fun y hy => (ih hrest).bind fun ys hys => List.forall_mem_cons.mpr ⟨hy, hys⟩

theorem targetListOf_levels (hB : Budget w B) (h : node.Matched source) (hr : node.rule.holdsRows) :
    Yields (·.bareLevels w ≤ B limit) (targetListOf limit node) := by
  obtain ⟨r, first, last, children⟩ := node
  have hrows : ∀ child ∈ children, Yields (·.levels w ≤ B limit) (exprOf limit 0 child) :=
    rows_levels h (fun child hchild => (h.parts child hchild).leveled hB) 0 hr
  exact (itemsOf_levels hrows).bind fun items hitems => (tupleUnlessSingle_levels hitems).2

theorem statementOf_levels (hB : Budget w B) (h : node.Matched source) :
    Yields (fun s => ∀ e ∈ s.kind.exprs, e.bareLevels w ≤ B limit) (statementOf limit node) := by
  obtain ⟨r, first, last, children⟩ := node
  have hlist (hr : ∀ r' ∈ Peg.rulesIn r.body, r'.holdsRows) : ∀ child ∈ children,
      Yields (·.bareLevels w ≤ B limit) (targetListOf limit child) :=
    fun child hchild => targetListOf_levels hB (h.parts child hchild) (hr _ (h.rule_mem child hchild))
  have hrow (hr : r.holdsRows) : ∀ child ∈ children,
      Yields (·.bareLevels w ≤ B limit) (exprOf limit 0 child) := fun child hchild =>
    (rows_levels h (fun child hchild => (h.parts child hchild).leveled hB) 0 hr child hchild).imp
      fun e he => Nat.le_trans (e.bareLevels_le_levels w) he
  unfold statementOf
  dsimp only [Node.rule, Node.children]
  split
  · refine (yields_mapM (hlist (by decide))).bind fun exprs hexprs => ?_
    split
    · rename_i value hvalue
      change ∀ e ∈ exprs.dropLast ++ [value], e.bareLevels w ≤ B limit
      rw [List.dropLast_append_getLast? value hvalue]
      exact hexprs
    · trivial
  · have hlist := hlist (by decide)
    simp only [List.forall_mem_cons] at hlist
    refine hlist.1.bind fun target htarget => hlist.2.2.1.bind fun v hv => ?_
    exact List.forall_mem_cons.mpr ⟨htarget, List.forall_mem_singleton.mpr hv⟩
  · have hrow := hrow (by decide)
    simp only [List.forall_mem_cons] at hrow
    refine hrow.1.bind fun target htarget => hrow.2.1.bind fun a ha => ?_
    exact List.forall_mem_cons.mpr ⟨htarget, List.forall_mem_singleton.mpr ha⟩
  · have hrow := hrow (by decide)
    have hlist := hlist (by decide)
    simp only [List.forall_mem_cons] at hrow hlist
    refine hrow.1.bind fun target htarget => hrow.2.1.bind fun a ha => hlist.2.2.1.bind fun v hv => ?_
    exact List.forall_mem_cons.mpr ⟨htarget, List.forall_mem_cons.mpr ⟨ha,
      List.forall_mem_singleton.mpr hv⟩⟩
  · exact (hlist (by decide) _ List.mem_cons_self).bind fun v hv => List.forall_mem_singleton.mpr hv
  · exact fun e he => absurd he List.not_mem_nil
  · trivial

theorem moduleOf_levels (hB : Budget w B) (h : node.Matched source) :
    Yields (∀ e ∈ ·.exprs, e.bareLevels w ≤ B limit) (moduleOf limit node) := by
  obtain ⟨r, first, last, children⟩ := node
  refine (yields_mapM fun child hchild =>
    statementOf_levels hB (h.parts child (List.mem_of_mem_filter hchild))).bind fun body hbody e he => ?_
  obtain ⟨s, hs, he⟩ := List.mem_flatMap.mp he
  exact hbody s hs e he

/-- Whatever is parsed has as many levels as the limit, at most. -/
theorem Module.parse_levels {m : Module} (hB : Budget w B) (h : Module.parse limit source = .ok m)
    (he : e ∈ m.exprs) : e.bareLevels w ≤ B limit := by
  unfold Module.parse at h
  dsimp only at h
  split at h
  · cases h
  · split at h
    · rename_i hmatch
      exact (moduleOf_levels hB (matched_of_matchText hmatch)).ok h e he
    · cases h
    · cases h

end ConfigSandbox
