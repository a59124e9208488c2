import ConfigSandbox.Proofs.Tree.Handled

/-!
# Which number literals are looked at

The builder looks at every number literal of a match but those in a comprehension. Whatever it builds a tree of
has none among them that stands for no number; and where it complains of a number, it is of such a one.
-/
namespace ConfigSandbox

open Peg

/-- A number literal that stands for no number. -/
def Node.isUnreadable : Node → Bool
  | .mk .integer first last _ => (integerOfLiteral? (first.textTo last)).isNone
  | .mk .float first last _ => (floatOfLiteral? (first.textTo last)).isNone
  | _ => false

/-- A comprehension: no tree is built of its parts. -/
def Node.isSkipped : Node → Bool
  | .mk .paren _ _ children | .mk .list _ _ children | .mk .brace _ _ children => isComprehension children
  | _ => false

/-- The part is the node or stands somewhere in it, and in no comprehension there. -/
inductive Node.StandsIn (part : Node) : Node → Prop
  | here : StandsIn part part
  | inside {r : Rule} {first last : Cursor} {children : List Node} {child : Node}
      (hread : (Node.mk r first last children).isSkipped = false) (hmem : child ∈ children)
      (h : StandsIn part child) : StandsIn part (.mk r first last children)

/-- A number literal in a node, in no comprehension there, that stands for no number. -/
def Node.Faulty (node part : Node) : Prop := part.StandsIn node ∧ part.isUnreadable

def FaultyIn (nodes : List Node) (part : Node) : Prop := ∃ node ∈ nodes, node.Faulty part

variable {source : String} {limit depth : Nat} {r : Rule} {first last : Cursor} {node part : Node}
  {nodes children : List Node}

theorem faultyIn_nil : ¬ FaultyIn [] part := fun h => List.not_mem_nil h.choose_spec.1

theorem faultyIn_cons : FaultyIn (node :: nodes) part ↔ node.Faulty part ∨ FaultyIn nodes part :=
  List.exists_mem_cons_iff ..

/-- A node that is no number itself and no comprehension has the faults of its children. -/
theorem Node.faulty_iff (hnumber : r ≠ .integer ∧ r ≠ .float)
    (hread : (Node.mk r first last children).isSkipped = false) :
    (Node.mk r first last children).Faulty part ↔ FaultyIn children part := by
  constructor
  · rintro ⟨hstands, hfault⟩
    cases hstands with
    | here => cases r <;> first | cases hfault | exact absurd rfl hnumber.1 | exact absurd rfl hnumber.2
    | inside _ hmem h => exact ⟨_, hmem, h, hfault⟩
  · rintro ⟨child, hmem, h, hfault⟩
    exact ⟨.inside hread hmem h, hfault⟩

theorem Node.not_faulty_of_isSkipped (hskipped : node.isSkipped) : ¬ node.Faulty part := by
  rintro ⟨hstands, hfault⟩
  cases hstands with
  | here =>
    obtain ⟨r, first, last, children⟩ := node
    cases r <;> first | cases hskipped | cases hfault
  | inside hread =>
    rw [hread] at hskipped
    cases hskipped

theorem Node.faulty_brackets (hr : r ∈ [.paren, .list, .brace]) (hc : ¬ isComprehension children) :
    (Node.mk r first last children).Faulty part ↔ FaultyIn children part := by
  have hread := Bool.eq_false_iff.mpr hc
  simp only [List.mem_cons, List.not_mem_nil, or_false] at hr
  rcases hr with rfl | rfl | rfl <;> exact Node.faulty_iff (by decide) hread

theorem Node.faulty_leaf : (Node.mk r first last []).Faulty part ↔
    part = .mk r first last [] ∧ part.isUnreadable := by
  constructor
  · rintro ⟨hstands, hfault⟩
    cases hstands with
    | here => exact ⟨rfl, hfault⟩
    | inside _ hmem => cases hmem
  · rintro ⟨rfl, hfault⟩
    exact ⟨.here, hfault⟩

/-- The rules below which no number is read. -/
def Rule.isWordlike : Rule → Bool
  | .endOfInput | .reservedStatement | .reservedWord | .augmentedOperator | .trailingComma | .lambdaParameters
  | .unary _ | .binary _ | .trueLiteral | .falseLiteral | .noneLiteral | .ellipsis | .strings | .stringLiteral
  | .stringPrefix | .stringContent _ | .identifier | .word _ => true
  | _ => false

theorem Rule.wordlike_below (hr : r.isWordlike) : ∀ r' ∈ rulesIn r.body, r'.isWordlike := by
  cases r with
  | unary op => cases op <;> decide
  | binary op => cases op <;> decide
  | stringContent q => cases q <;> decide
  | word w => cases w <;> decide
  | slicePart part => cases hr
  | _ =>
    revert hr
    decide

theorem Node.Matched.not_faulty (h : node.Matched source) (hr : node.rule.isWordlike) (part : Node) :
    ¬ node.Faulty part := by
  have hall : node.All fun node => node.rule.isWordlike → ∀ part, ¬ node.Faulty part := by
    refine h.all fun r first last children hm hbelow hr part hfaulty => ?_
    have hnumber : r ≠ .integer ∧ r ≠ .float := by constructor <;> rintro rfl <;> cases hr
    have hread : (Node.mk r first last children).isSkipped = false := by cases r <;> first | rfl | cases hr
    obtain ⟨child, hmem, hchild⟩ := (Node.faulty_iff hnumber hread).mp hfaulty
    exact (hbelow child hmem).here (Rule.wordlike_below hr _ (hm.rule_mem child hmem)) part hchild
  exact hall.here hr part

/-! ### Errors and faults -/

/-- A computation that finds some faults: it succeeds only if there are none, and if it complains of a number it
is one of them. -/
def Finds {α : Type} (F : Node → Prop) : Except ParseError α → Prop :=
  Meets (fun e => ∀ text, e.fault = .invalidNumber text →
    ∃ part, F part ∧ text = String.ofList part.text ∧ e.loc = part.loc) fun _ => ∀ part, ¬ F part

namespace Finds

variable {α β : Type} {F G : Node → Prop} {x : Except ParseError α} {f : α → Except ParseError β}

theorem ok (a : α) : Finds (fun _ => False) (.ok a : Except ParseError α) := fun _ h => h

/-- A refusal that is no complaint of a number. -/
theorem refused {e : ParseError} (h : ∀ text, e.fault ≠ .invalidNumber text) :
    Finds F (.error e : Except ParseError α) :=
  fun text he => absurd he (h text)

theorem bind (hx : Finds F x) (hf : ∀ a, Finds G (f a)) : Finds (fun part => F part ∨ G part) (x >>= f) := by
  cases x with
  | error e =>
    intro text he
    obtain ⟨part, hpart, hmore⟩ := hx text he
    exact ⟨part, Or.inl hpart, hmore⟩
  | ok a =>
    change Finds _ (f a)
    have hmore := hf a
    cases hfa : f a with
    | error e =>
      rw [hfa] at hmore
      intro text he
      obtain ⟨part, hpart, hmore⟩ := hmore text he
      exact ⟨part, Or.inr hpart, hmore⟩
    | ok b =>
      rw [hfa] at hmore
      exact fun part hpart => hpart.elim (hx part) (hmore part)

theorem congr (h : Finds F x) (hFG : ∀ part, F part ↔ G part) : Finds G x := by
  obtain rfl : F = G := funext fun part => propext (hFG part)
  exact h

theorem mapM {α : Type} {f : α → Except ParseError β} {xs : List α} {F : α → Node → Prop}
    (h : ∀ x ∈ xs, Finds (F x) (f x)) : Finds (fun part => ∃ x ∈ xs, F x part) (xs.mapM f) := by
  induction xs with
  | nil => exact (ok []).congr (by simp)
  | cons x rest ih =>
    obtain ⟨hx, hrest⟩ := List.forall_mem_cons.mp h
    rw [List.mapM_cons]
    refine (hx.bind fun y => (ih hrest).bind fun ys => ok (y :: ys)).congr fun part => ?_
    rw [or_false, List.exists_mem_cons_iff]

end Finds

/-- Whatever is built of a node, the faults in it are found. -/
def Node.Checked (node : Node) : Prop := ∀ limit depth, Finds node.Faulty (exprOf limit depth node)

theorem checkChain_finds (limit depth : Nat) (nodes : List Node) :
    Finds (fun _ => False) (checkChain limit depth nodes) := by
  induction nodes generalizing depth with
  | nil => exact .ok ()
  | cons node rest ih =>
    rw [checkChain]
    split
    · split
      · exact .refused fun text h => by cases h
      · exact ih _
    · exact ih _

section Rows

variable (hm : ∀ node ∈ nodes, node.Matched source) (h : ∀ node ∈ nodes, node.All Node.Checked)
include hm h

theorem itemsOf_finds : Finds (FaultyIn nodes) (itemsOf limit depth nodes) := by
  induction nodes with
  | nil => exact (Finds.ok []).congr fun _ => iff_of_false id faultyIn_nil
  | cons node rest ih =>
    obtain ⟨hmatched, hmore⟩ := List.forall_mem_cons.mp hm
    obtain ⟨hnode, hrest⟩ := List.forall_mem_cons.mp h
    rw [itemsOf]
    split
    · rename_i hcomma
      have hword : node.rule.isWordlike := by rw [eq_of_beq hcomma]; rfl
      refine (ih hmore hrest).congr fun part => ?_
      rw [faultyIn_cons, or_iff_right (hmatched.not_faulty hword part)]
    · refine ((hnode.here limit depth).bind fun item => (ih hmore hrest).bind fun items => .ok (item :: items)).congr
        fun part => ?_
      rw [or_false, faultyIn_cons]

theorem entriesOf_finds : Finds (FaultyIn nodes) (entriesOf limit depth nodes) := by
  induction nodes with
  | nil => exact (Finds.ok []).congr fun _ => iff_of_false id faultyIn_nil
  | cons node rest ih =>
    obtain ⟨hmatched, hmatches⟩ := List.forall_mem_cons.mp hm
    obtain ⟨hnode, hrest⟩ := List.forall_mem_cons.mp h
    obtain ⟨r, first, last, children⟩ := node
    have hmore (entry : DictEntry) : Finds (fun part => FaultyIn rest part ∨ False)
        (entriesOf limit depth rest >>= fun entries => .ok (entry :: entries)) :=
      (ih hmatches hrest).bind fun entries => .ok (entry :: entries)
    have hparts := hnode.parts
    rw [entriesOf.eq_def]
    dsimp only
    split
    · obtain ⟨hkey, hvalue⟩ := List.forall_mem_cons.mp hparts
      have hv := (hvalue _ List.mem_cons_self).here limit depth
      refine ((hkey.here limit depth).bind fun key => hv.bind fun value => hmore (.pair key value)).congr fun part => ?_
      rw [faultyIn_cons, Node.faulty_iff (by decide) rfl]
      simp [faultyIn_cons, faultyIn_nil, or_assoc]
    · have hv := (hparts _ List.mem_cons_self).here limit depth
      refine (hv.bind fun value => hmore (.unpack value)).congr fun part => ?_
      rw [faultyIn_cons, Node.faulty_iff (by decide) rfl]
      simp [faultyIn_cons, faultyIn_nil]
    · exact .refused fun text h => by cases h

theorem slicePartsOf_finds : Finds (FaultyIn nodes) (slicePartsOf limit depth nodes) := by
  induction nodes with
  | nil => exact (Finds.ok []).congr fun _ => iff_of_false id faultyIn_nil
  | cons node rest ih =>
    obtain ⟨hmatched, hmatches⟩ := List.forall_mem_cons.mp hm
    obtain ⟨hnode, hrest⟩ := List.forall_mem_cons.mp h
    obtain ⟨r, first, last, children⟩ := node
    have hparts := hnode.parts
    rw [slicePartsOf.eq_def]
    dsimp only
    split
    · have hv := (hparts _ List.mem_cons_self).here limit depth
      refine (hv.bind fun value => (ih hmatches hrest).bind fun parts => .ok ((_, value) :: parts)).congr fun part => ?_
      rw [faultyIn_cons, Node.faulty_iff (by simp) rfl]
      simp [faultyIn_cons, faultyIn_nil]
    · exact .refused fun text h => by cases h

theorem argumentsOf_finds (args : List Expr) (keywords : List Keyword) :
    Finds (FaultyIn nodes) (argumentsOf limit depth args keywords nodes) := by
  induction nodes generalizing args keywords with
  | nil => exact (Finds.ok _).congr fun _ => iff_of_false id faultyIn_nil
  | cons node rest ih =>
    obtain ⟨hmatched, hmatches⟩ := List.forall_mem_cons.mp hm
    obtain ⟨hnode, hrest⟩ := List.forall_mem_cons.mp h
    obtain ⟨r, first, last, children⟩ := node
    rw [argumentsOf.eq_def]
    dsimp only
    split
    · rename_i heq
      cases heq
      obtain ⟨name, value, hchildren, hname, -⟩ := exists_keyword hmatched
      obtain ⟨rfl, rfl⟩ : _ = name ∧ _ = value := by simpa using hchildren
      split
      · exact .refused fun text h => by cases h
      · have hv := (hnode.parts _ (List.mem_cons_of_mem _ List.mem_cons_self)).here limit depth
        have hword := (hmatched.parts _ List.mem_cons_self).not_faulty (by rw [hname]; rfl)
        refine (hv.bind fun value => ih hmatches hrest _ _).congr fun part => ?_
        rw [faultyIn_cons, Node.faulty_iff (by decide) rfl]
        simp [faultyIn_cons, faultyIn_nil, hword]
    · rename_i heq
      cases heq
      have hv := (hnode.parts _ List.mem_cons_self).here limit depth
      refine (hv.bind fun value => ih hmatches hrest _ _).congr fun part => ?_
      rw [faultyIn_cons, Node.faulty_iff (by decide) rfl]
      simp [faultyIn_cons, faultyIn_nil]
    · rename_i heq
      cases heq
      split
      · exact .refused fun text h => by cases h
      · refine ((hnode.here limit depth).bind fun e => ih hmatches hrest _ _).congr fun part => ?_
        rw [faultyIn_cons]

theorem piecesOf_finds : Finds (FaultyIn nodes) (piecesOf limit depth nodes) := by
  induction nodes with
  | nil => exact (Finds.ok []).congr fun _ => iff_of_false id faultyIn_nil
  | cons node rest ih =>
    obtain ⟨hmatched, hmatches⟩ := List.forall_mem_cons.mp hm
    obtain ⟨hnode, hrest⟩ := List.forall_mem_cons.mp h
    obtain ⟨r, first, last, children⟩ := node
    have hmore (p : Piece) : Finds (fun part => FaultyIn rest part ∨ False)
        (piecesOf limit depth rest >>= fun pieces => .ok (p :: pieces)) :=
      (ih hmatches hrest).bind fun pieces => .ok (p :: pieces)
    have hwordlike (hr : r.isWordlike) (p : Piece) : Finds (FaultyIn (.mk r first last children :: rest))
        (piecesOf limit depth rest >>= fun pieces => .ok (p :: pieces)) :=
      (hmore p).congr fun part => by
        rw [or_false, faultyIn_cons, or_iff_right (hmatched.not_faulty hr part)]
    rw [piecesOf.eq_def]
    cases r with
    | unary op => exact hwordlike rfl (.unary _ op)
    | binary op => exact hwordlike rfl (.binary op)
    | call =>
      have hread : (Node.mk .call first last children).isSkipped = false := rfl
      refine ((argumentsOf_finds hmatched.parts hnode.parts [] []).bind fun read =>
        hmore (.trailer _ (.call read.1 read.2))).congr fun part => ?_
      rw [or_false, faultyIn_cons, Node.faulty_iff (by decide) hread]
    | subscript =>
      have hread : (Node.mk .subscript first last children).isSkipped = false := rfl
      refine ((itemsOf_finds hmatched.parts hnode.parts).bind fun items => hmore (.trailer _ (.subscript _))).congr
        fun part => ?_
      rw [or_false, faultyIn_cons, Node.faulty_iff (by decide) hread]
    | member =>
      obtain ⟨name, rfl, hname⟩ := exists_member hmatched
      have hword := (hmatched.parts name List.mem_cons_self).not_faulty (by rw [hname]; rfl)
      refine (hmore (.trailer _ (.member _))).congr fun part => ?_
      rw [faultyIn_cons, Node.faulty_iff (by decide) rfl]
      simp [faultyIn_cons, faultyIn_nil, hword]
    | _ =>
      refine ((hnode.here limit depth).bind fun e => hmore (.operand e)).congr fun part => ?_
      rw [or_false, faultyIn_cons]

end Rows

theorem stringsToExpr_finds (loc : Location) (literals : List Node) :
    Finds (fun _ => False) (stringsToExpr loc literals) := by
  have hfold (parts : StringParts) : Finds (fun _ => False) (literals.foldlM StringParts.addNode parts) := by
    induction literals generalizing parts with
    | nil => exact .ok parts
    | cons literal rest ih =>
      rw [List.foldlM_cons]
      refine (Finds.bind (F := fun _ => False) ?_ ih).congr fun part => or_self_iff
      unfold StringParts.addNode
      dsimp only
      split
      · exact .ok _
      · exact .refused fun text h => by cases h
  exact ((hfold .none).bind fun parts => .ok _).congr fun part => or_self_iff

theorem exprOf_checked (hm : (Node.mk r first last children).Matched source)
    (h : ∀ child ∈ children, child.All Node.Checked) : (Node.mk r first last children).Checked := by
  intro limit depth
  have hchild (child : Node) (hmem : child ∈ children) : Finds child.Faulty (exprOf limit depth child) :=
    (h child hmem).here limit depth
  have hword (child : Node) (hmem : child ∈ children) (hr : child.rule.isWordlike) (part : Node) :
      ¬ child.Faulty part := (hm.parts child hmem).not_faulty hr part
  have hitems : Finds (FaultyIn children) (itemsOf limit depth children) := itemsOf_finds hm.parts h
  have hleaf (hnone : rulesIn r.body = []) : children = [] := by
    refine List.eq_nil_iff_forall_not_mem.mpr fun child hmem => ?_
    have hrule := hm.rule_mem child hmem
    rw [hnone] at hrule
    cases hrule
  rw [exprOf.eq_def]
  cases r with
  | operation =>
    dsimp only
    split
    · exact .refused fun text h => by cases h
    · refine (Finds.bind (checkChain_finds limit _ children) fun _ =>
        (piecesOf_finds hm.parts h).bind (G := fun _ => False) fun pieces => ?_).congr fun part => ?_
      · split
        · exact .ok _
        · exact .refused fun text h => by cases h
      · rw [Node.faulty_iff (by decide) rfl, false_or, or_false]
  | conditional =>
    obtain ⟨body, -, rfl | ⟨ifWord, test, elseWord, orelse, rfl, hif, -, helse, -⟩⟩ := exists_conditional hm
    · refine (hchild body List.mem_cons_self).congr fun part => ?_
      rw [Node.faulty_iff (by decide) rfl]
      simp [faultyIn_cons, faultyIn_nil]
    · have hif := hword ifWord (by simp) (by rw [hif]; rfl)
      have helse := hword elseWord (by simp) (by rw [helse]; rfl)
      refine ((hchild body (by simp)).bind fun body => (hchild test (by simp)).bind fun test =>
        (hchild orelse (by simp)).bind fun orelse => .ok _).congr fun part => ?_
      rw [Node.faulty_iff (by decide) rfl]
      simp [faultyIn_cons, faultyIn_nil, hif, helse]
  | lambda =>
    obtain ⟨word, body, hlambda, -, rfl | ⟨params, rfl, hparams⟩⟩ := exists_lambda hm
    · have hlambda := hword word (by simp) (by rw [hlambda]; rfl)
      refine ((hchild body (by simp)).bind fun body => .ok _).congr fun part => ?_
      rw [Node.faulty_iff (by decide) rfl]
      simp [faultyIn_cons, faultyIn_nil, hlambda]
    · have hlambda := hword word (by simp) (by rw [hlambda]; rfl)
      have hparams := hword params (by simp) (by rw [hparams]; rfl)
      refine ((hchild body (by simp)).bind fun body => .ok _).congr fun part => ?_
      rw [Node.faulty_iff (by decide) rfl]
      simp [faultyIn_cons, faultyIn_nil, hlambda, hparams]
  | starred =>
    obtain ⟨value, rfl, -⟩ := exists_operation hm (by simp)
    refine ((hchild value (by simp)).bind fun value => .ok _).congr fun part => ?_
    rw [Node.faulty_iff (by decide) rfl]
    simp [faultyIn_cons, faultyIn_nil]
  | slice =>
    refine ((slicePartsOf_finds hm.parts h).bind fun parts => .ok _).congr fun part => ?_
    rw [Node.faulty_iff (by decide) rfl, or_false]
  | identifier | trueLiteral | falseLiteral | noneLiteral | ellipsis =>
    exact (Finds.ok _).congr fun part => iff_of_false id (hm.not_faulty rfl part)
  | integer | float =>
    obtain rfl := hleaf (by decide)
    dsimp only
    split
    · rename_i value hvalue
      refine (Finds.ok _).congr fun part => iff_of_false id ?_
      rw [Node.faulty_leaf]
      rintro ⟨rfl, hfault⟩
      rw [Node.isUnreadable, hvalue] at hfault
      cases hfault
    · rename_i hvalue
      intro text htext
      cases htext
      refine ⟨_, Node.faulty_leaf.mpr ⟨rfl, ?_⟩, rfl, rfl⟩
      rw [Node.isUnreadable, hvalue]
      rfl
  | strings => exact (stringsToExpr_finds _ _).congr fun part => iff_of_false id (hm.not_faulty rfl part)
  | paren | list =>
    dsimp only
    split
    · rename_i hc
      exact (Finds.ok _).congr fun part => iff_of_false id (Node.not_faulty_of_isSkipped hc)
    · rename_i hc
      refine (hitems.bind fun items => .ok _).congr fun part => ?_
      rw [Node.faulty_brackets (by decide) hc, or_false]
  | brace =>
    dsimp only
    split
    · rename_i hc
      exact (Finds.ok _).congr fun part => iff_of_false id (Node.not_faulty_of_isSkipped hc)
    · rename_i hc
      have hfaulty (part : Node) :
          FaultyIn children part ∨ False ↔ (Node.mk .brace first last children).Faulty part := by
        rw [Node.faulty_brackets (by decide) hc, or_false]
      split
      · exact ((entriesOf_finds hm.parts h).bind fun entries => .ok _).congr hfaulty
      · exact (hitems.bind fun items => .ok _).congr hfaulty
  | _ => exact .refused fun text h => by cases h

theorem Node.Matched.checked (h : node.Matched source) : node.All Node.Checked :=
  h.all fun _ _ _ _ => exprOf_checked

/-! ### Statements and texts -/

theorem targetListOf_finds (h : node.Matched source) (hr : node.rule = .targetList) :
    Finds node.Faulty (targetListOf limit node) := by
  obtain ⟨r, first, last, children⟩ := node
  cases hr
  have hitems : Finds (FaultyIn children) (itemsOf limit 0 children) :=
    itemsOf_finds h.parts fun child hmem => (h.parts child hmem).checked
  refine (hitems.bind fun items => .ok _).congr fun part => ?_
  rw [Node.faulty_iff (by decide) rfl, or_false]

theorem statementOf_finds (h : node.Matched source) : Finds node.Faulty (statementOf limit node) := by
  obtain ⟨r, first, last, children⟩ := node
  have hexpr (child : Node) (hmem : child ∈ children) : Finds child.Faulty (exprOf limit 0 child) :=
    (h.parts child hmem).checked.here limit 0
  have hlist (child : Node) (hmem : child ∈ children) (hr : child.rule ∈ [Rule.targetList]) :
      Finds child.Faulty (targetListOf limit child) :=
    targetListOf_finds (h.parts child hmem) (List.mem_singleton.mp hr)
  have hsign : rows assignSign = 1 := rows_of_isSilent (by decide)
  have hrow := h.row
  unfold statementOf
  dsimp only [Node.rule, Node.children]
  cases r with
  | assignment =>
    have hrules : ∀ r ∈ rulesIn Rule.assignment.body, r ∈ [Rule.targetList] := by decide
    have hlists : Finds (FaultyIn children) (children.mapM (targetListOf limit)) :=
      .mapM fun child hmem => hlist child hmem (hrules _ (h.rule_mem child hmem))
    refine (hlists.bind (G := fun _ => False) fun exprs => ?_).congr fun part => ?_
    · split
      · exact .ok _
      · exact .refused fun text h => by cases h
    · rw [Node.faulty_iff (by decide) rfl, or_false]
  | augmentedAssignment =>
    simp only [Rule.body, rows_tokens_cons, rows_tokens_one, rows_rule] at hrow
    obtain ⟨target, rest, rfl, htarget, hrest⟩ := hrow.first
    obtain ⟨op, rest, rfl, hop, hrest⟩ := hrest.first
    obtain ⟨value, rfl, hvalue⟩ := hrest.one
    have hop := (h.parts op (by simp)).not_faulty (by rw [List.mem_singleton.mp hop]; rfl)
    refine ((hlist target (by simp) htarget).bind fun target =>
      (hlist value (by simp) hvalue).bind fun value => .ok _).congr fun part => ?_
    rw [Node.faulty_iff (by decide) rfl]
    simp [faultyIn_cons, faultyIn_nil, hop]
  | annotatedAssignment =>
    simp only [Rule.body, rows_tokens_cons, rows_tokens_one, rows_rule, rows_opt, rows_lit, one_mul,
      hsign, rows_test] at hrow
    obtain ⟨target, rest, rfl, -, hrest⟩ := hrow.first
    obtain ⟨label, rest, rfl, -, hrest⟩ := hrest.first
    rcases hrest.either with hrest | hnone
    · obtain ⟨value, rfl, hvalue⟩ := hrest.one
      refine ((hexpr target (by simp)).bind fun target => (hexpr label (by simp)).bind fun label =>
        (hlist value (by simp) hvalue).bind fun value => .ok _).congr fun part => ?_
      rw [Node.faulty_iff (by decide) rfl]
      simp [faultyIn_cons, faultyIn_nil]
    · cases hnone.empty
      refine ((hexpr target (by simp)).bind fun target =>
        (hexpr label (by simp)).bind fun label => .ok _).congr fun part => ?_
      rw [Node.faulty_iff (by decide) rfl]
      simp [faultyIn_cons, faultyIn_nil]
  | expressionStatement =>
    obtain ⟨value, rfl, hvalue⟩ := Row.one hrow
    refine ((hlist value (by simp) hvalue).bind fun value => .ok _).congr fun part => ?_
    rw [Node.faulty_iff (by decide) rfl]
    simp [faultyIn_cons, faultyIn_nil]
  | reservedStatement =>
    obtain ⟨word, rest, rfl, -, -⟩ := hrow.first
    exact (Finds.ok _).congr fun part => iff_of_false id (h.not_faulty rfl part)
  | _ => exact .refused fun text h => by cases h

theorem moduleOf_finds (h : node.Matched source) (hr : node.rule = .module) :
    Finds node.Faulty (moduleOf limit node) := by
  obtain ⟨r, first, last, children⟩ := node
  cases hr
  have hbody : Finds (FaultyIn (children.filter (·.rule != .endOfInput)))
      ((children.filter (·.rule != .endOfInput)).mapM (statementOf limit)) :=
    .mapM fun child hmem => statementOf_finds (h.parts child (List.mem_of_mem_filter hmem))
  refine (hbody.bind fun body => .ok _).congr fun part => ?_
  rw [Node.faulty_iff (by decide) rfl, or_false]
  constructor
  · rintro ⟨child, hmem, hfaulty⟩
    exact ⟨child, List.mem_of_mem_filter hmem, hfaulty⟩
  · rintro ⟨child, hmem, hfaulty⟩
    refine ⟨child, List.mem_filter.mpr ⟨hmem, ?_⟩, hfaulty⟩
    rw [bne_iff_ne]
    intro hend
    exact (h.parts child hmem).not_faulty (by rw [hend]; rfl) part hfaulty

theorem matchText_of_nodesOf {source : List Char} (h : nodesOf source = some nodes) :
    ∃ last att, Rule.module.matchText source = (.matched last nodes, att) := by
  rw [nodesOf] at h
  split at h
  · rename_i last found att hmatch
    cases h
    exact ⟨last, att, hmatch⟩
  · cases h

theorem matched_of_nodesOf {root : Node} (h : nodesOf source.toList = some [root]) : root.Matched source := by
  obtain ⟨last, att, hmatch⟩ := matchText_of_nodesOf h
  exact matched_of_matchText hmatch

/-- A text that is parsed has no number in it that stands for none, comprehensions apart; a complaint of a number
is about one that the text has. -/
theorem Module.parse_finds {root : Node} (limit : Nat) (h : nodesOf source.toList = some [root]) :
    Finds root.Faulty (Module.parse limit source) := by
  obtain ⟨last, att, hmatch⟩ := matchText_of_nodesOf h
  obtain ⟨children, -, hroot⟩ := (gives_of_matchText hmatch).of_rule
  cases hroot
  unfold Module.parse
  dsimp only
  rw [hmatch]
  split
  · exact .refused fun text h => by cases h
  · exact moduleOf_finds (matched_of_nodesOf h) rfl

end ConfigSandbox
