import ConfigSandbox.Proofs.Tree.Parentheses
import ConfigSandbox.Proofs.Tree.Scanned

/-!
# Operations are read as they were grouped

A tree of names under operators, written with parentheses only where the operators need them, is the value that an
assignment of its text gives, up to places. A token may add a level of depth, each at most one, so as many levels
as there are tokens are enough.
-/
namespace ConfigSandbox

open Peg (RowPart Operation tokensOf Operand Item)

variable {e : Expr} {limit depth : Nat} {node : Node} {nodes : List Node} {parts : List (RowPart Expr)}

/-- From the node the tree is built, where as many levels are left as it has tokens. -/
def Expr.ReadFrom (e : Expr) (node : Node) : Prop :=
  node.rule = .conditional ∧
    ∀ limit depth, depth + e.tokens.length ≤ limit → e.Rebuilt (exprOf limit depth node)

/-- From the node of an operand the tree is built; the level of the row around it is that of one of its tokens. -/
def Expr.ReadWithin (e : Expr) (node : Node) : Prop :=
  node.rule.isOperand ∧
    ∀ limit depth, depth + e.operandTokens.length ≤ limit → e.Rebuilt (exprOf limit (depth + 1) node)

/-! ### Rows -/

theorem checkChain_of_count (h : depth + nodes.countP (·.rule.nests) ≤ limit) :
    checkChain limit depth nodes = .ok () := by
  induction nodes generalizing depth with
  | nil => rfl
  | cons node rest ih =>
    rw [List.countP_cons] at h
    rw [checkChain]
    split at h
    · rename_i hnests
      rw [if_pos hnests, if_neg (by omega)]
      exact ih (by omega)
    · rename_i hnests
      rw [if_neg hnests]
      exact ih (by omega)

/-- Whether the part is an operand. -/
def Peg.RowPart.isOperand {α : Type} : RowPart α → Bool
  | operand _ => true
  | _ => false

theorem Expr.operandTokens_pos (e : Expr) : 0 < e.operandTokens.length := by
  cases e <;> exact Nat.succ_pos _

/-- A node that nests is that of a token, and no operand. -/
theorem count_nests_le (h : List.Forall₂ (RowPart.NodeOf Expr.ReadWithin) parts nodes) :
    nodes.countP (·.rule.nests) + parts.countP RowPart.isOperand ≤ (tokensOf Expr.operandTokens parts).length := by
  induction h with
  | nil => exact Nat.le_refl 0
  | @cons part node parts nodes hnode _ ih =>
    have hcons : tokensOf Expr.operandTokens (part :: parts) =
        part.tokens Expr.operandTokens ++ tokensOf Expr.operandTokens parts := rfl
    rw [hcons, List.length_append, List.countP_cons, List.countP_cons]
    cases part with
    | operand x =>
      have hnests : node.rule.nests = false := Rule.nests_of_isOperand hnode.1
      have hpos := x.operandTokens_pos
      simp only [hnests, RowPart.isOperand, RowPart.tokens]
      simp
      omega
    | before op | between op =>
      simp only [RowPart.isOperand, RowPart.tokens, List.length_singleton]
      split <;> simp <;> omega

theorem Peg.Operation.count_operands_pos (o : Operation Expr) : 0 < o.parts.countP RowPart.isOperand := by
  rw [List.countP_pos_iff]
  exact ⟨.operand o.first.operand, by simp [Operation.parts, Term.parts], rfl⟩

/-- What the row is read as has the pieces that were written, up to places. -/
theorem piecesOf_parts (h : List.Forall₂ (RowPart.NodeOf Expr.ReadWithin) parts nodes)
    (hlimit : ∀ x, .operand x ∈ parts → depth + x.operandTokens.length ≤ limit) :
    ∃ pieces, piecesOf limit (depth + 1) nodes = .ok pieces ∧
      pieces.map Piece.shape = (parts.map RowPart.piece).map Piece.shape := by
  induction h with
  | nil => exact ⟨[], rfl, rfl⟩
  | @cons part node parts nodes hnode _ ih =>
    obtain ⟨pieces, hpieces, hshapes⟩ := ih fun x hx => hlimit x (List.mem_cons_of_mem part hx)
    obtain ⟨r, first, last, children⟩ := node
    cases part with
    | operand x =>
      obtain ⟨hrule, hbuilt⟩ := hnode
      obtain ⟨x', hx', hshape⟩ := hbuilt limit depth (hlimit x List.mem_cons_self)
      refine ⟨.operand x' :: pieces, piecesOf_operand hrule hx' hpieces, ?_⟩
      rw [List.map_cons, hshapes, Piece.shape, hshape]
      rfl
    | before op =>
      obtain rfl : r = .unary op := hnode
      refine ⟨.unary (first.location last) op :: pieces, ?_, ?_⟩
      · rw [piecesOf.eq_def]
        dsimp only
        rw [hpieces]
        rfl
      · rw [List.map_cons, hshapes]
        rfl
    | between op =>
      obtain rfl : r = .binary op := hnode
      refine ⟨.binary op :: pieces, ?_, ?_⟩
      · rw [piecesOf.eq_def]
        dsimp only
        rw [hpieces]
        rfl
      · rw [List.map_cons, hshapes]
        rfl

theorem length_operandTokens_le {x : Expr} (h : .operand x ∈ parts) :
    x.operandTokens.length ≤ (tokensOf Expr.operandTokens parts).length := by
  obtain ⟨before, after, rfl⟩ := List.append_of_mem h
  have hcons : tokensOf Expr.operandTokens (.operand x :: after) =
      x.operandTokens ++ tokensOf Expr.operandTokens after := rfl
  rw [tokensOf_append, hcons, List.length_append, List.length_append]
  omega

/-- The row of a tree is built as the tree. -/
theorem readFrom_row (he : e.IsOperation)
    (h : Peg.RowNode (List.Forall₂ (RowPart.NodeOf Expr.ReadWithin) e.operation.parts) node) : e.ReadFrom node := by
  obtain ⟨first, last, first', last', children, rfl, hchildren⟩ := h
  refine ⟨rfl, fun limit depth hlimit => ?_⟩
  have hcount := count_nests_le hchildren
  have hoperands := e.operation.count_operands_pos
  rw [← tokens_operation he] at hlimit
  have hchain : checkChain limit (depth + 1) children = .ok () := checkChain_of_count (by omega)
  obtain ⟨pieces, hpieces, hshapes⟩ := piecesOf_parts hchildren fun x hx =>
    Nat.le_trans (Nat.add_le_add_left (length_operandTokens_le hx) depth) hlimit
  obtain ⟨tree, htree, hshape⟩ := ofPieces?_operation he
  obtain ⟨tree', htree', hshape'⟩ := (shape_ofRow hshapes).1 rfl htree
  refine ⟨tree', ?_, hshape'.trans hshape⟩
  have hrow : exprOf limit depth (.mk .operation first' last' children) = .ok tree' := by
    rw [exprOf.eq_def]
    dsimp only
    rw [if_neg (by omega), hchain, hpieces]
    dsimp only [bind, Except.bind]
    rw [Expr.ofPieces?, htree']
  rw [exprOf.eq_def]
  exact hrow

/-- Parentheses vanish. -/
theorem readWithin_paren (hrank : e.rank < operatorTable.length) (h : Peg.ParenNode e.ReadFrom node) :
    e.ReadWithin node := by
  obtain ⟨first, last, child, rfl, hrule, hbuilt⟩ := h
  refine ⟨rfl, fun limit depth hlimit => ?_⟩
  rw [operandTokens_of_rank hrank, List.length_append, List.length_cons, List.length_singleton] at hlimit
  obtain ⟨e', hexpr, hshape⟩ := hbuilt limit (depth + 1) (by omega)
  refine ⟨e', ?_, hshape⟩
  have hitems : itemsOf limit (depth + 1) [child] = .ok [e'] := by
    rw [itemsOf, hrule, hexpr]
    rfl
  have hgenerator : isComprehension [child] = false := by
    rw [isComprehension, List.any_cons, hrule]
    rfl
  rw [exprOf.eq_def]
  dsimp only
  rw [hgenerator, hitems]
  dsimp only [bind, Except.bind, tupleUnlessSingle]
  rw [List.any_cons, hrule]
  rfl

/-! ### Text -/

theorem Expr.tokens_ne_nil (he : e.IsOperation) : e.tokens ≠ [] := by
  cases he with
  | name | unary => exact List.cons_ne_nil _ _
  | binary => exact List.append_ne_nil_of_right_ne_nil _ (List.cons_ne_nil _ _)

/-- The text of a tree whose operands are read is read, also with a space behind it. -/
theorem item_of_operands (he : e.IsOperation)
    (h : ∀ x ∈ e.operation.operands, Operand x.operandTokens x.ReadWithin) {gap : List Char}
    (hgap : gap ∈ [[], [' ']]) : Item Peg.test (spaced e.tokens gap) e.ReadFrom := by
  obtain ⟨hfirst, hmore⟩ := List.forall_mem_cons.mp h
  have hneck := necks_operation he
  have hitem := Peg.item_operation hfirst
    (fun p hp => ⟨hmore _ (List.mem_map_of_mem hp), hneck p hp⟩) hgap
  rw [tokens_operation he] at hitem
  refine ⟨hitem.opens, fun tail htail => (hitem.takes tail htail).mono ?_⟩
  rintro _ ⟨node, rfl, hnode⟩
  exact ⟨node, rfl, readFrom_row he hnode⟩

theorem Peg.Operand.mono {ts : List String} {R S : Node → Prop} (h : Operand ts R)
    (hRS : ∀ node, R node → S node) : Operand ts S := by
  refine ⟨h.ne_nil, h.opens, fun tail hb => (h.takes tail hb).mono ?_⟩
  rintro _ ⟨node, rfl, hnode⟩
  exact ⟨node, rfl, hRS node hnode⟩

theorem operands_operation (he : e.IsOperation) :
    ∀ x ∈ e.operation.operands, Operand x.operandTokens x.ReadWithin := by
  refine forall_operands (S := fun x => Operand x.operandTokens x.ReadWithin) ?_ ?_ he
  · intro loc id hid
    refine (Peg.operand_name hid).mono fun node hnode => ?_
    have hsole : Peg.Sole (Expr.name loc id).OperandFrom [node] := operandFrom_name hnode
    obtain ⟨_, hone, hrule, hbuilt⟩ := hsole
    cases hone
    exact ⟨hrule, fun limit depth hlimit => hbuilt limit (depth + 1) hlimit⟩
  · intro x hx hrank ih
    have hitem := item_of_operands hx ih (List.mem_cons_of_mem [] List.mem_cons_self)
    show Operand x.operandTokens x.ReadWithin
    rw [operandTokens_of_rank hrank]
    exact (Peg.operand_paren (Expr.tokens_ne_nil hx) hitem).mono fun node => readWithin_paren hrank

theorem item_tokens (he : e.IsOperation) : Item Peg.test (spaced e.tokens []) e.ReadFrom :=
  item_of_operands he (operands_operation he) List.mem_cons_self

/-! ### The bracket scan -/

open Nesting (Passes)

/-- Whatever comes behind the tokens and is passed, they are passed with it. -/
def PassesTokens (k : Nat) (ts : List String) : Prop :=
  ∀ more tail, Passes k more tail → Passes k (spaced ts more) tail

theorem PassesTokens.append {k : Nat} {ts us : List String} (ht : PassesTokens k ts) (hu : PassesTokens k us)
    (htne : ts ≠ []) (hune : us ≠ []) : PassesTokens k (ts ++ us) := by
  intro more tail h
  rw [spaced_append htne hune]
  exact ht _ _ (.cons rfl (hu more tail h))

theorem PassesTokens.plain {k : Nat} {t : String} (h : ∀ c ∈ t.toList, Nesting.isPlain c) : PassesTokens k [t] :=
  fun _ _ hmore => (Passes.plain h).append hmore

theorem PassesTokens.paren {k : Nat} {ts : List String} (h : PassesTokens k ts) (hne : ts ≠ []) :
    PassesTokens (1 + k) ("(" :: ts ++ [")"]) := by
  intro more tail hmore
  rw [spaced_paren hne]
  have hinside : Passes k (' ' :: spaced ts [' ']) (')' :: (more ++ tail)) := .cons rfl (h _ _ (.cons rfl .nil))
  exact (Passes.brackets (l := '(') (r := ')') rfl rfl hinside).append hmore

theorem isPlain_spelling : (∀ op : UnaryOp, op.spelling.toList.all Nesting.isPlain) ∧
    ∀ op : BinaryOp, op.spelling.toList.all Nesting.isPlain := by
  constructor <;> intro op <;> cases op <;> decide

theorem enclosed_ne_nil {needed : Bool} {ts : List String} (h : ts ≠ []) : enclosed needed ts ≠ [] := by
  cases needed with
  | true => exact List.cons_ne_nil _ _
  | false => exact h

theorem passesTokens_enclosed {needed : Bool} {ts : List String} {k : Nat} (hne : ts ≠ [])
    (h : ∀ {k}, ts.length ≤ k + 1 → PassesTokens k ts) (hk : (enclosed needed ts).length ≤ k + 1) :
    PassesTokens k (enclosed needed ts) := by
  cases needed with
  | false => exact h hk
  | true =>
    have hlength : (enclosed true ts).length = ts.length + 2 := by simp [enclosed]
    obtain ⟨inner, rfl⟩ : ∃ inner, k = 1 + inner := ⟨k - 1, by omega⟩
    exact (h (by omega)).paren hne

/-- Parentheses are two tokens around at least one, so the scan goes less deep than there are tokens. -/
theorem passesTokens_tokens (he : e.IsOperation) {k : Nat} (hk : e.tokens.length ≤ k + 1) :
    PassesTokens k e.tokens := by
  induction he generalizing k with
  | name loc h =>
    exact .plain fun c hc => Nesting.isPlain_of_isContinue (isContinue_of_isWord (isWord_of_isName h) c hc)
  | @unary loc op e he ih =>
    have hne := Expr.tokens_ne_nil he
    rw [Expr.tokens, List.length_cons] at hk
    have hop : PassesTokens k [op.spelling] := .plain (List.all_eq_true.mp (isPlain_spelling.1 op))
    have hoperand : PassesTokens k (enclosed (op.encloses e) e.tokens) := passesTokens_enclosed hne ih (by omega)
    exact hop.append hoperand (List.cons_ne_nil _ _) (enclosed_ne_nil hne)
  | @binary loc op left right hleft hright ihleft ihright =>
    have hleftne := Expr.tokens_ne_nil hleft
    have hrightne := Expr.tokens_ne_nil hright
    rw [Expr.tokens, List.length_append, List.length_cons] at hk
    have hop : PassesTokens k [op.spelling] := .plain (List.all_eq_true.mp (isPlain_spelling.2 op))
    have hbefore : PassesTokens k (enclosed (op.enclosesLeft left) left.tokens) :=
      passesTokens_enclosed hleftne ihleft (by omega)
    have hbehind : PassesTokens k (enclosed (op.enclosesRight right) right.tokens) :=
      passesTokens_enclosed hrightne ihright (by omega)
    have hmore := hop.append hbehind (List.cons_ne_nil _ _) (enclosed_ne_nil hrightne)
    exact hbefore.append hmore (enclosed_ne_nil hleftne) (List.cons_ne_nil _ _)

/-! ### The whole -/

/-- What is written for an assignment of a tree. -/
def assignmentText (e : Expr) : List Char := "x".toList ++ ' ' :: '=' :: ' ' :: spaced e.tokens []

theorem line_operation (he : e.IsOperation) :
    Peg.Line (assignmentText e) (Peg.AssignmentNode "x".toList e.ReadFrom) :=
  have hname : isName "x".toList := by decide
  Peg.line_assignment hname (item_tokens he)

theorem statement_rebuilt (hlimit : e.tokens.length ≤ limit) (hpos : 0 < limit)
    (h : Peg.AssignmentNode "x".toList e.ReadFrom node) :
    Statement.RebuiltAt limit ⟨.synthetic, .assign [.name .synthetic "x"] e⟩ node := by
  obtain ⟨first, last, target, _, rfl, htarget, f, l, child, rfl, hrule, hbuilt⟩ := h
  have hassignment : Rule.assignment ≠ .endOfInput := by decide
  have hsource : e.Rebuilt (targetListOf limit (.mk .targetList f l [child])) :=
    targetListOf_rebuilt hrule (hbuilt limit 0 (by omega))
  exact ⟨hassignment, statementOf_assignment (targetListOf_name hpos htarget) hsource⟩

/-- An assignment of a tree of names under operators, with parentheses only where they are needed, is read as the
assignment of that tree. -/
theorem Module.parse_operation {e : Expr} (he : e.IsOperation) {limit : Nat} (hlimit : e.tokens.length ≤ limit) :
    ∃ m, Module.parse limit ("x = " ++ " ".intercalate e.tokens) = .ok m ∧
      m.shape = (Module.mk [⟨.synthetic, .assign [.name .synthetic "x"] e⟩]).shape := by
  have htext : ("x = " ++ " ".intercalate e.tokens).toList = assignmentText e := by
    rw [String.toList_append, intercalate_eq_spaced]
    rfl
  obtain ⟨k, hk⟩ := Nat.exists_eq_succ_of_ne_zero (List.length_pos_of_ne_nil (Expr.tokens_ne_nil he)).ne'
  have hpasses : Passes k (assignmentText e) [] :=
    .cons rfl (.cons rfl (.cons rfl (.cons rfl (passesTokens_tokens he (Nat.le_of_eq hk) _ _ .nil))))
  have hdeep := Nesting.deepest_le_of_passes hpasses
  have hlines : ∀ e' ∈ [e], Peg.Line (assignmentText e') (Peg.AssignmentNode "x".toList e'.ReadFrom) :=
    List.forall_mem_singleton.mpr (line_operation he)
  obtain ⟨last, node, hmatch, hnode⟩ := Peg.matchText_script hlines
  have hscript : Peg.script assignmentText [e] = assignmentText e := by simp [Peg.script]
  obtain ⟨first, stop, _, finish, rfl, hstatements, hfinish⟩ := hnode
  obtain ⟨statement, _, hstatement, hnil, rfl⟩ := List.forall₂_cons_left_iff.mp hstatements
  cases hnil
  have hbody := List.Forall₂.cons (statement_rebuilt hlimit (by omega) hstatement) .nil
  obtain ⟨m, hm, hshape⟩ := moduleOf_rebuilt (m := ⟨_⟩) ⟨first, stop, _, finish, rfl, hbody, hfinish⟩
  rw [hscript, ← htext] at hmatch
  rw [← htext] at hdeep
  exact ⟨m, parse_of_matchText (by omega) hmatch hm, hshape⟩

/-- A prefix that binds looser than the operator before it, powers to the left of a power and to the right of a
prefix, and a difference to the right of another. -/
theorem Module.parse_operation_mixed :
    let name (id : String) : Expr := .name .synthetic id
    let binary (op : BinaryOp) (left right : Expr) : Expr := .binary .synthetic op left right
    let unary (op : UnaryOp) (operand : Expr) : Expr := .unary .synthetic op operand
    let e := binary .and (unary .not (binary .is (name "a") (unary .not (name "b"))))
      (binary .notIn (unary .neg (binary .pow (binary .pow (name "a") (name "b")) (name "c")))
        (binary .sub (name "d") (binary .sub (name "e") (name "f"))))
    e.IsOperation ∧ e.tokens.length ≤ 24 ∧
      "x = " ++ " ".intercalate e.tokens = "x = not a is ( not b ) and - ( a ** b ) ** c not in d - ( e - f )" ∧
      ∃ m, parse 24 ("x = " ++ " ".intercalate e.tokens) = .ok m ∧
        m.shape = (Module.mk [⟨.synthetic, .assign [.name .synthetic "x"] e⟩]).shape := by
  intro name binary unary e
  have hname (id : String) (h : isName id.toList) : (name id).IsOperation := .name .synthetic h
  have hleft : (unary .not (binary .is (name "a") (unary .not (name "b")))).IsOperation :=
    .unary _ _ (.binary _ _ (hname "a" (by decide)) (.unary _ _ (hname "b" (by decide))))
  have hpowers : (binary .pow (binary .pow (name "a") (name "b")) (name "c")).IsOperation :=
    .binary _ _ (.binary _ _ (hname "a" (by decide)) (hname "b" (by decide))) (hname "c" (by decide))
  have hdifferences : (binary .sub (name "d") (binary .sub (name "e") (name "f"))).IsOperation :=
    .binary _ _ (hname "d" (by decide)) (.binary _ _ (hname "e" (by decide)) (hname "f" (by decide)))
  have he : e.IsOperation := .binary _ _ hleft (.binary _ _ (.unary _ _ hpowers) hdifferences)
  have hlength : e.tokens.length ≤ 24 := by decide
  exact ⟨he, hlength, by decide, parse_operation he hlength⟩

end ConfigSandbox
