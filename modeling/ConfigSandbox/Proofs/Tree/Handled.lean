import ConfigSandbox.Proofs.Grammar.Search
import ConfigSandbox.Proofs.Tree.Contents
import ConfigSandbox.Proofs.Tree.Guard
import ConfigSandbox.Proofs.Tree.Operators

/-!
# Every match has a tree, or an error that says why not

The builder reads the nodes below a rule by their places and knows certain rules in certain places only.
What the grammar leaves there is what it expects, so all that it can refuse is a number, a string, the
arguments of a call or a depth.
-/
namespace ConfigSandbox

open Peg

/-- The outcome is no complaint about the form of a tree. -/
def Handles {α : Type} (x : Except ParseError α) : Prop :=
  Meets (·.fault ≠ .malformedTree) (fun _ => True) x

section Handles

variable {α β : Type} {x : Except ParseError α} {f : α → Except ParseError β}

theorem handles_ok (a : α) : Handles (.ok a : Except ParseError α) := trivial

theorem Handles.bind_of_ok (hx : Handles x) (hf : ∀ a, x = .ok a → Handles (f a)) :
    Handles (x >>= f) := by
  cases x with
  | ok a => exact hf a rfl
  | error e => exact hx

theorem Handles.bind (hx : Handles x) (hf : ∀ a, Handles (f a)) : Handles (x >>= f) :=
  hx.bind_of_ok fun a _ => hf a

theorem handles_mapM {α : Type} {f : α → Except ParseError β} {xs : List α}
    (h : ∀ x ∈ xs, Handles (f x)) : Handles (xs.mapM f) := by
  induction xs with
  | nil => exact handles_ok []
  | cons x rest ih =>
    obtain ⟨hx, hrest⟩ := List.forall_mem_cons.mp h
    rw [List.mapM_cons]
    exact hx.bind fun y => (ih hrest).bind fun ys => handles_ok (y :: ys)

theorem exists_cons_of_mapM {α : Type} {f : α → Except ParseError β} {x : α} {xs : List α}
    {ys : List β} (h : (x :: xs).mapM f = .ok ys) : ∃ y rest, ys = y :: rest := by
  rw [List.mapM_cons] at h
  cases hx : f x with
  | error e =>
    rw [hx] at h
    cases h
  | ok y =>
    rw [hx] at h
    cases hxs : xs.mapM f with
    | error e =>
      rw [hxs] at h
      cases h
    | ok rest =>
      rw [hxs] at h
      cases h
      exact ⟨y, rest, rfl⟩

end Handles

variable {source : String} {limit depth : Nat} {r : Rule} {first last : Cursor} {node : Node}
  {nodes children : List Node}

/-! ### The builder -/

/-- A node of a match, and an expression if its rule is that of one. -/
structure Node.Handled (source : String) (node : Node) : Prop where
  matched : node.Matched source
  builds : node.rule.isExpr → ∀ limit depth, Handles (exprOf limit depth node)

theorem checkChain_handles (limit depth : Nat) (nodes : List Node) :
    Handles (checkChain limit depth nodes) := by
  induction nodes generalizing depth with
  | nil => exact handles_ok ()
  | cons node rest ih =>
    rw [checkChain]
    split
    · split
      · rintro ⟨⟩
      · exact ih _
    · exact ih _

theorem itemsOf_handles
    (h : ∀ node ∈ nodes, node.rule = .trailingComma ∨ Handles (exprOf limit depth node)) :
    Handles (itemsOf limit depth nodes) := by
  induction nodes with
  | nil => exact handles_ok []
  | cons node rest ih =>
    obtain ⟨hnode, hrest⟩ := List.forall_mem_cons.mp h
    rw [itemsOf]
    split
    · exact ih hrest
    · rename_i hcomma
      have hitem : Handles (exprOf limit depth node) := hnode.resolve_left (by simpa using hcomma)
      exact hitem.bind fun item => (ih hrest).bind fun items => handles_ok (item :: items)

theorem stringsToExpr_handles (loc : Location) (literals : List Node) :
    Handles (stringsToExpr loc literals) := by
  have hfold (parts : StringParts) : Handles (literals.foldlM StringParts.addNode parts) := by
    induction literals generalizing parts with
    | nil => exact handles_ok parts
    | cons literal rest ih =>
      rw [List.foldlM_cons]
      refine Handles.bind ?_ ih
      unfold StringParts.addNode
      dsimp only
      split
      · exact handles_ok _
      · rintro ⟨⟩
  exact (hfold .none).bind fun parts => handles_ok _

section Rows

variable (h : ∀ node ∈ nodes, node.All (Node.Handled source))
include h

theorem entriesOf_handles (hr : ∀ node ∈ nodes, node.rule = .dictItem ∨ node.rule = .dictUnpack) :
    Handles (entriesOf limit depth nodes) := by
  induction nodes with
  | nil => exact handles_ok []
  | cons node rest ih =>
    obtain ⟨hnode, hrest⟩ := List.forall_mem_cons.mp h
    obtain ⟨hrule, hrules⟩ := List.forall_mem_cons.mp hr
    obtain ⟨r, first, last, children⟩ := node
    have hmore (entry : DictEntry) : Handles (entriesOf limit depth rest >>= fun entries =>
        .ok (entry :: entries)) := (ih hrest hrules).bind fun entries => handles_ok (entry :: entries)
    rw [entriesOf.eq_def]
    dsimp only [Node.rule] at hrule ⊢
    rcases hrule with rfl | rfl
    · obtain ⟨key, value, rfl, hkey, hvalue⟩ := exists_pair hnode.here.matched
      have hparts := hnode.parts
      simp only [List.forall_mem_cons] at hparts
      have hk := hparts.1.here.builds hkey limit depth
      have hv := hparts.2.1.here.builds hvalue limit depth
      exact hk.bind fun key => hv.bind fun value => hmore (.pair key value)
    · obtain ⟨value, rfl, hvalue⟩ := exists_operation hnode.here.matched (by simp)
      have hv := (hnode.parts value List.mem_cons_self).here.builds hvalue limit depth
      exact hv.bind fun value => hmore (.unpack value)

theorem slicePartsOf_handles (hr : ∀ node ∈ nodes, ∃ part, node.rule = .slicePart part) :
    Handles (slicePartsOf limit depth nodes) := by
  induction nodes with
  | nil => exact handles_ok []
  | cons node rest ih =>
    obtain ⟨hnode, hrest⟩ := List.forall_mem_cons.mp h
    obtain ⟨⟨part, hrule⟩, hrules⟩ := List.forall_mem_cons.mp hr
    obtain ⟨r, first, last, children⟩ := node
    cases hrule
    obtain ⟨value, rfl, hvalue⟩ := exists_slicePart hnode.here.matched
    have hv := (hnode.parts value List.mem_cons_self).here.builds hvalue limit depth
    rw [slicePartsOf]
    exact hv.bind fun value => (ih hrest hrules).bind fun parts => handles_ok ((part, value) :: parts)

theorem argumentsOf_handles (args : List Expr) (keywords : List Keyword)
    (hr : ∀ node ∈ nodes,
      node.rule = .keywordArgument ∨ node.rule = .doubleStarred ∨ node.rule.isExpr) :
    Handles (argumentsOf limit depth args keywords nodes) := by
  induction nodes generalizing args keywords with
  | nil => exact handles_ok (args, keywords)
  | cons node rest ih =>
    obtain ⟨hnode, hrest⟩ := List.forall_mem_cons.mp h
    obtain ⟨hrule, hrules⟩ := List.forall_mem_cons.mp hr
    obtain ⟨r, first, last, children⟩ := node
    rw [argumentsOf.eq_def]
    dsimp only
    split
    · rename_i heq
      cases heq
      obtain ⟨name, value, hchildren, -, hvalue⟩ := exists_keyword hnode.here.matched
      obtain ⟨rfl, rfl⟩ : _ = name ∧ _ = value := by simpa using hchildren
      split
      · rintro ⟨⟩
      · have hv := (hnode.parts _ (List.mem_cons_of_mem _ List.mem_cons_self)).here.builds hvalue limit depth
        exact hv.bind fun value => ih hrest _ _ hrules
    · rename_i heq
      cases heq
      obtain ⟨value, hchildren, hvalue⟩ := exists_operation hnode.here.matched (by simp)
      obtain rfl : _ = value := by simpa using hchildren
      have hv := (hnode.parts _ List.mem_cons_self).here.builds hvalue limit depth
      exact hv.bind fun value => ih hrest _ _ hrules
    · rename_i hnamed hunpacked heq
      cases heq
      split
      · rintro ⟨⟩
      · have hexpr : r.isExpr := by
          rcases hrule with rfl | rfl | hexpr
          · obtain ⟨name, value, rfl, -⟩ := exists_keyword hnode.here.matched
            exact (hnamed name value rfl rfl).elim
          · obtain ⟨value, rfl, -⟩ := exists_operation hnode.here.matched (by simp)
            exact (hunpacked value rfl rfl).elim
          · exact hexpr
        exact (hnode.here.builds hexpr limit depth).bind fun e => ih hrest _ _ hrules

/-- The pieces of a row stand where their nodes stand and have the same entries in the table. -/
theorem piecesOf_handles (hr : ∀ node ∈ nodes, node.rule ∈ rulesIn Rule.operation.body) :
    Meets (·.fault ≠ .malformedTree)
      (fun pieces => pieces.map Piece.binding? = nodes.map (·.rule.binding?))
      (piecesOf limit depth nodes) := by
  induction nodes with
  | nil => exact rfl
  | cons node rest ih =>
    obtain ⟨hnode, hrest⟩ := List.forall_mem_cons.mp h
    obtain ⟨hrule, hrules⟩ := List.forall_mem_cons.mp hr
    obtain ⟨r, first, last, children⟩ := node
    have hmore (p : Piece) (hp : p.binding? = r.binding?) : Meets (·.fault ≠ .malformedTree)
        (fun pieces => pieces.map Piece.binding? = (Node.mk r first last children :: rest).map (·.rule.binding?))
        (piecesOf limit depth rest >>= fun pieces => .ok (p :: pieces)) := by
      refine (ih hrest hrules).bind fun pieces hpieces => ?_
      change _ :: _ = _ :: _
      rw [hp, hpieces]
      rfl
    have hoperand : r.isPrimary ∨ r.binding?.isSome := operation_rules hrule
    have hmatched := hnode.here.matched
    rw [piecesOf.eq_def]
    cases r with
    | unary op => exact hmore (.unary _ op) rfl
    | binary op => exact hmore (.binary op) rfl
    | call =>
      have hargs : ∀ r ∈ rulesIn Rule.call.body,
          r = .keywordArgument ∨ r = .doubleStarred ∨ r.isExpr := by decide
      have hcall : Handles (argumentsOf limit depth [] [] children) :=
        argumentsOf_handles hnode.parts [] [] fun child hchild => hargs _ (hmatched.rule_mem child hchild)
      exact Meets.bind hcall fun read _ => hmore (.trailer _ (.call read.1 read.2)) rfl
    | subscript =>
      have hitems : ∀ r ∈ rulesIn Rule.subscript.body, r = .trailingComma ∨ r.isExpr := by decide
      have hindex : Handles (itemsOf limit depth children) := itemsOf_handles fun child hchild =>
        (hitems _ (hmatched.rule_mem child hchild)).imp_right fun he =>
          (hnode.parts child hchild).here.builds he limit depth
      exact Meets.bind hindex fun items _ => hmore (.trailer _ (.subscript _)) rfl
    | member =>
      obtain ⟨name, rfl, -⟩ := exists_member hmatched
      exact hmore (.trailer _ (.member _)) rfl
    | _ =>
      have hprimary := hoperand.resolve_right (by rintro ⟨⟩)
      have hexpr := hnode.here.builds (by rw [Rule.isExpr, Node.rule, hprimary]; rfl) limit depth
      exact Meets.bind hexpr fun e _ => hmore (.operand e) rfl

end Rows

theorem exprOf_handled (hm : (Node.mk r first last children).Matched source)
    (h : ∀ child ∈ children, child.All (Node.Handled source)) :
    (Node.mk r first last children).Handled source := by
  refine ⟨hm, fun hr limit depth => ?_⟩
  have hchild (child : Node) (hc : child ∈ children) (he : child.rule.isExpr) :
      Handles (exprOf limit depth child) := (h child hc).here.builds he limit depth
  have hitems (hi : ∀ child ∈ children, child.rule = .trailingComma ∨ child.rule.isExpr) :
      Handles (itemsOf limit depth children) :=
    itemsOf_handles fun child hc => (hi child hc).imp_right (hchild child hc)
  rw [exprOf.eq_def]
  cases r with
  | operation =>
    dsimp only
    split
    · rintro ⟨⟩
    · have hrow := leads_operation _ hm.row
      refine Handles.bind (checkChain_handles _ _ _) fun _ => ?_
      refine Meets.bind (piecesOf_handles h hm.rule_mem) fun pieces hpieces => ?_
      rw [List.map_map] at hrow
      rw [Function.comp_def, ← hpieces] at hrow
      have htree := isSome_of_leads.1 hrow []
      obtain ⟨e, he⟩ := Option.isSome_iff_exists.mp htree
      rw [Expr.ofPieces?, he]
      exact handles_ok e
  | conditional =>
    obtain ⟨body, hbody, rfl | ⟨ifWord, test, elseWord, orelse, rfl, -, htest, -, horelse⟩⟩ := exists_conditional hm
    · exact hchild body (by simp) hbody
    · exact (hchild body (by simp) hbody).bind fun body => (hchild test (by simp) htest).bind fun test =>
        (hchild orelse (by simp) horelse).bind fun orelse => handles_ok _
  | lambda =>
    obtain ⟨word, body, -, hbody, rfl | ⟨params, rfl, -⟩⟩ := exists_lambda hm
    · exact (hchild body (by simp) hbody).bind fun body => handles_ok _
    · exact (hchild body (by simp) hbody).bind fun body => handles_ok _
  | starred =>
    obtain ⟨value, rfl, hvalue⟩ := exists_operation hm (by simp)
    exact (hchild value (by simp) hvalue).bind fun value => handles_ok _
  | slice =>
    have hrules : rulesIn Rule.slice.body =
        [.slicePart .lower, .slicePart .upper, .slicePart .step] := by decide
    have hparts : ∀ r ∈ rulesIn Rule.slice.body, ∃ part, r = .slicePart part := by simp [hrules]
    exact Handles.bind (slicePartsOf_handles h fun child hc => hparts _ (hm.rule_mem child hc))
      fun parts => handles_ok _
  | identifier | trueLiteral | falseLiteral | noneLiteral | ellipsis => exact handles_ok _
  | integer | float =>
    dsimp only
    split
    · exact handles_ok _
    · rintro ⟨⟩
  | strings => exact stringsToExpr_handles _ _
  | paren =>
    dsimp only
    split
    · exact handles_ok _
    · rename_i hc
      exact (hitems (sequence_cases hm (Or.inl rfl) (by simpa using hc))).bind fun items => handles_ok _
  | list =>
    dsimp only
    split
    · exact handles_ok _
    · rename_i hc
      exact (hitems (sequence_cases hm (Or.inr rfl) (by simpa using hc))).bind fun items => handles_ok _
  | brace =>
    dsimp only
    split
    · exact handles_ok _
    · rename_i hc
      obtain ⟨hdict, hset⟩ := braces_cases hm (by simpa using hc)
      split
      · rename_i hbegins
        exact (entriesOf_handles h (hdict hbegins)).bind fun entries => handles_ok _
      · rename_i hbegins
        exact (hitems fun child hchild => Or.inr (hset (by simpa using hbegins) child hchild)).bind
          fun items => handles_ok _
  | _ => cases hr

theorem Node.Matched.handled (h : node.Matched source) : node.All (Node.Handled source) :=
  h.all fun _ _ _ _ => exprOf_handled

/-! ### Statements and texts -/

theorem targetListOf_handles (h : node.Matched source) (hr : node.rule = .targetList) :
    Handles (targetListOf limit node) := by
  obtain ⟨r, first, last, children⟩ := node
  cases hr
  have hrules : ∀ r ∈ rulesIn Rule.targetList.body, r = .trailingComma ∨ r.isExpr := by decide
  have hitems : Handles (itemsOf limit 0 children) := itemsOf_handles fun child hchild =>
    (hrules _ (h.rule_mem child hchild)).imp_right fun he =>
      (h.parts child hchild).handled.here.builds he limit 0
  exact hitems.bind fun items => handles_ok _

/-- The rules of statements. -/
def Rule.isStatement (r : Rule) : Bool :=
  r ∈ [.assignment, .augmentedAssignment, .annotatedAssignment, .expressionStatement, .reservedStatement]

theorem statementOf_handles (h : node.Matched source) (hr : node.rule.isStatement) :
    Handles (statementOf limit node) := by
  obtain ⟨r, first, last, children⟩ := node
  have hexpr (child : Node) (hc : child ∈ children) (he : child.rule ∈ rulesIn test) :
      Handles (exprOf limit 0 child) := by
    have htests : ∀ r ∈ rulesIn test, r.isExpr := by decide
    exact (h.parts child hc).handled.here.builds (htests _ he) limit 0
  have hlist (child : Node) (hc : child ∈ children) (hl : child.rule ∈ [Rule.targetList]) :
      Handles (targetListOf limit child) :=
    targetListOf_handles (h.parts child hc) (List.mem_singleton.mp hl)
  have hsign : rows assignSign = 1 := rows_of_isSilent (by decide)
  have hrow := h.row
  unfold statementOf
  dsimp only [Node.rule, Node.children] at hr ⊢
  cases r with
  | assignment =>
    have hrules : ∀ r ∈ rulesIn Rule.assignment.body, r ∈ [Rule.targetList] := by decide
    have hlists : Handles (children.mapM (targetListOf limit)) :=
      handles_mapM fun child hc => hlist child hc (hrules _ (h.rule_mem child hc))
    refine Handles.bind_of_ok hlists fun exprs hexprs => ?_
    simp only [Rule.body, rows_tokens_cons, rows_rule] at hrow
    obtain ⟨target, rest, rfl, -, -⟩ := hrow.first
    obtain ⟨e, es, rfl⟩ := exists_cons_of_mapM hexprs
    rw [List.getLast?_cons]
    exact handles_ok _
  | augmentedAssignment =>
    simp only [Rule.body, rows_tokens_cons, rows_tokens_one, rows_rule] at hrow
    obtain ⟨target, rest, rfl, htarget, hrest⟩ := hrow.first
    obtain ⟨op, rest, rfl, -, hrest⟩ := hrest.first
    obtain ⟨value, rfl, hvalue⟩ := hrest.one
    exact (hlist target (by simp) htarget).bind fun target =>
      (hlist value (by simp) hvalue).bind fun value => handles_ok _
  | annotatedAssignment =>
    simp only [Rule.body, rows_tokens_cons, rows_tokens_one, rows_rule, rows_opt, rows_lit, one_mul,
      hsign, rows_test] at hrow
    obtain ⟨target, rest, rfl, htarget, hrest⟩ := hrow.first
    obtain ⟨label, rest, rfl, hlabel, hrest⟩ := hrest.first
    rcases hrest.either with hrest | hnone
    · obtain ⟨value, rfl, hvalue⟩ := hrest.one
      exact (hexpr target (by simp) htarget).bind fun target =>
        (hexpr label (by simp) hlabel).bind fun label =>
          (hlist value (by simp) hvalue).bind fun value => handles_ok _
    · cases hnone.empty
      exact (hexpr target (by simp) htarget).bind fun target =>
        (hexpr label (by simp) hlabel).bind fun label => handles_ok _
  | expressionStatement =>
    obtain ⟨value, rfl, hvalue⟩ := Row.one hrow
    exact (hlist value (by simp) hvalue).bind fun value => handles_ok _
  | reservedStatement =>
    obtain ⟨word, rest, rfl, -, -⟩ := hrow.first
    exact handles_ok _
  | _ => cases hr

theorem moduleOf_handles (h : node.Matched source) (hr : node.rule = .module) :
    Handles (moduleOf limit node) := by
  obtain ⟨r, first, last, children⟩ := node
  cases hr
  have hrules : ∀ r ∈ rulesIn Rule.module.body, r = .endOfInput ∨ r.isStatement := by decide
  refine Handles.bind (handles_mapM fun child hchild => ?_) fun body => handles_ok _
  obtain ⟨hchild, hend⟩ := List.mem_filter.mp hchild
  have hstatement := (hrules _ (h.rule_mem child hchild)).resolve_left (by simpa using hend)
  exact statementOf_handles (h.parts child hchild) hstatement

namespace Module

/-- A text is parsed, or it is refused for a reason that names what is wrong with it: the search ends, its
match is one node, and the builder knows everything in it. -/
theorem parse_handles (limit : Nat) (source : String) :
    (∀ e, Module.parse limit source = .error e → e.fault ≠ .malformedTree) ∧
    ∀ nodes, nodesOf source.toList = some nodes →
      ∃ node, nodes = [node] ∧ (∀ limit, Handles (moduleOf limit node)) ∧ node.All Node.InTurns := by
  have hnode {last : Cursor} {nodes : List Node} {att : Attempts}
      (h : Rule.module.matchText source.toList = (.matched last nodes, att)) :
      ∃ node, nodes = [node] ∧ (∀ limit, Handles (moduleOf limit node)) ∧ node.All Node.InTurns := by
    obtain ⟨children, -, rfl⟩ := (gives_of_matchText h).of_rule
    have hm := matched_of_matchText h
    exact ⟨_, rfl, fun limit => moduleOf_handles hm rfl, hm.inTurns⟩
  constructor
  · have hparse : Handles (Module.parse limit source) := by
      unfold Module.parse
      dsimp only
      split
      · rintro ⟨⟩
      · split
        · rename_i hmatch
          obtain ⟨node, hnodes, hhandles, -⟩ := hnode hmatch
          cases hnodes
          exact hhandles limit
        · rintro ⟨⟩
        · rename_i hone hfailed
          have hends := matchText_ends .module source.toList
          rcases hmatch : Rule.module.matchText source.toList with ⟨⟨last, nodes⟩ | _ | _, att⟩
          · obtain ⟨node, rfl, -⟩ := hnode hmatch
            exact absurd hmatch (hone _ _ _)
          · exact absurd hmatch (hfailed _)
          · rw [hmatch] at hends
            exact absurd rfl hends
    exact fun e he => hparse.error he
  · intro nodes hnodes
    rw [nodesOf] at hnodes
    split at hnodes
    · rename_i hmatch
      cases hnodes
      exact hnode hmatch
    · cases hnodes

/-- A text with operators before, between and after operands. -/
theorem parse_handles_operators :
    (nodesOf "x = -a.b(1)[2] ** 3 + c".toList).isSome ∧
      ∃ node, nodesOf "x = -a.b(1)[2] ** 3 + c".toList = some [node] ∧ node.All Node.InTurns := by
  have htest : (nodesOf "x = -a.b(1)[2] ** 3 + c".toList).isSome := by decide +kernel
  obtain ⟨nodes, hnodes⟩ := Option.isSome_iff_exists.mp htest
  obtain ⟨node, rfl, -, hturns⟩ := (parse_handles 200 "x = -a.b(1)[2] ** 3 + c").2 nodes hnodes
  exact ⟨htest, node, hnodes, hturns⟩

end Module
end ConfigSandbox
