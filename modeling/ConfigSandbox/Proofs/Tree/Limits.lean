import ConfigSandbox.Proofs.Grammar.Matched
import ConfigSandbox.Tree.Parse

/-!
# A text under a higher limit

The limit of depth is compared before the search, at each row of operators and at each operator that nests.
None of these looks is followed by another reading of the text, so a higher limit makes a difference only to
texts that the lower one refuses.
-/
namespace ConfigSandbox

def ParseFault.isDepth : ParseFault → Bool
  | .tooDeep .. => true
  | _ => false

variable {α β : Type}

/-- The first result is an error of depth, or the second is the same. -/
def Outlasted (x y : Except ParseError α) : Prop := (∃ err, x = .error err ∧ err.fault.isDepth) ∨ y = x

namespace Outlasted

theorem refl (x : Except ParseError α) : Outlasted x x := Or.inr rfl

theorem bind {x y : Except ParseError α} {f g : α → Except ParseError β} (hx : Outlasted x y)
    (hf : ∀ a, Outlasted (f a) (g a)) : Outlasted (x >>= f) (y >>= g) := by
  obtain ⟨err, rfl, hdepth⟩ | rfl := hx
  · exact Or.inl ⟨err, rfl, hdepth⟩
  · cases y with
    | error err => exact .refl _
    | ok a => exact hf a

theorem mapM {f g : α → Except ParseError β} {xs : List α} (h : ∀ x ∈ xs, Outlasted (f x) (g x)) :
    Outlasted (xs.mapM f) (xs.mapM g) := by
  induction xs with
  | nil => exact .refl _
  | cons x rest ih =>
    obtain ⟨hx, hrest⟩ := List.forall_mem_cons.mp h
    rw [List.mapM_cons, List.mapM_cons]
    exact hx.bind fun y => (ih hrest).bind fun ys => .refl _

/-- What the lower limit lets pass, the higher one does too. -/
theorem guard {limit limit' n : Nat} (hlimit : limit ≤ limit') (loc : Location) {x y : Except ParseError α}
    (h : Outlasted x y) : Outlasted (if limit < n then .error ⟨.tooDeep n limit, loc⟩ else x)
      (if limit' < n then .error ⟨.tooDeep n limit', loc⟩ else y) := by
  by_cases hn : limit < n
  · rw [if_pos hn]
    exact Or.inl ⟨_, rfl, rfl⟩
  · rw [if_neg hn, if_neg fun hn' => hn (Nat.lt_of_le_of_lt hlimit hn')]
    exact h

end Outlasted

/-- Whatever follows for a node from the nodes below it holds of all of them. -/
theorem Node.all {P : Node → Prop} (step : ∀ r first last children,
    (∀ child ∈ children, child.All P) → P (.mk r first last children)) : (node : Node) → node.All P
  | .mk r first last children =>
    have below : ∀ child ∈ children, child.All P := fun child _ => Node.all step child
    .mk (step r first last children below) below

variable {limit limit' depth : Nat} {nodes : List Node} {node : Node}

/-- Whatever is built of the node, inside any number of rows. -/
def Node.Outlasted (limit limit' : Nat) (node : Node) : Prop :=
  ∀ depth, ConfigSandbox.Outlasted (exprOf limit depth node) (exprOf limit' depth node)

theorem itemsOf_outlasted (h : ∀ node ∈ nodes, node.Outlasted limit limit') :
    Outlasted (itemsOf limit depth nodes) (itemsOf limit' depth nodes) := by
  induction nodes with
  | nil => exact .refl _
  | cons node rest ih =>
    obtain ⟨hnode, hrest⟩ := List.forall_mem_cons.mp h
    rw [itemsOf, itemsOf]
    split
    · exact ih hrest
    · exact (hnode depth).bind fun item => (ih hrest).bind fun items => .refl _

theorem entriesOf_outlasted (h : ∀ node ∈ nodes, ∀ child ∈ node.children, child.Outlasted limit limit') :
    Outlasted (entriesOf limit depth nodes) (entriesOf limit' depth nodes) := by
  induction nodes with
  | nil => exact .refl _
  | cons node rest ih =>
    obtain ⟨hnode, hrest⟩ := List.forall_mem_cons.mp h
    obtain ⟨r, first, last, children⟩ := node
    rw [entriesOf.eq_def, entriesOf.eq_def limit']
    dsimp only
    split
    · obtain ⟨hkey, hvalue⟩ := List.forall_mem_cons.mp hnode
      refine (hkey depth).bind fun k => (hvalue _ List.mem_cons_self depth).bind fun v => ?_
      exact (ih hrest).bind fun entries => .refl _
    · exact (hnode _ List.mem_cons_self depth).bind fun v => (ih hrest).bind fun entries => .refl _
    · exact .refl _

theorem slicePartsOf_outlasted (h : ∀ node ∈ nodes, ∀ child ∈ node.children, child.Outlasted limit limit') :
    Outlasted (slicePartsOf limit depth nodes) (slicePartsOf limit' depth nodes) := by
  induction nodes with
  | nil => exact .refl _
  | cons node rest ih =>
    obtain ⟨hnode, hrest⟩ := List.forall_mem_cons.mp h
    obtain ⟨r, first, last, children⟩ := node
    rw [slicePartsOf.eq_def, slicePartsOf.eq_def limit']
    dsimp only
    split
    · exact (hnode _ List.mem_cons_self depth).bind fun v => (ih hrest).bind fun parts => .refl _
    · exact .refl _

theorem argumentsOf_outlasted (h : ∀ node ∈ nodes, node.All (Node.Outlasted limit limit'))
    (args : List Expr) (keywords : List Keyword) :
    Outlasted (argumentsOf limit depth args keywords nodes) (argumentsOf limit' depth args keywords nodes) := by
  induction nodes generalizing args keywords with
  | nil => exact .refl _
  | cons node rest ih =>
    obtain ⟨hnode, hrest⟩ := List.forall_mem_cons.mp h
    rw [argumentsOf.eq_def, argumentsOf.eq_def limit']
    dsimp only
    split
    · rename_i first last name value
      split
      · exact .refl _
      · have hvalue := hnode.parts value (List.mem_cons_of_mem _ List.mem_cons_self)
        exact (hvalue.here depth).bind fun v => ih hrest _ _
    · rename_i first last value
      exact ((hnode.parts value List.mem_cons_self).here depth).bind fun v => ih hrest _ _
    · split
      · exact .refl _
      · exact (hnode.here depth).bind fun e => ih hrest _ _

theorem piecesOf_outlasted (h : ∀ node ∈ nodes, node.All (Node.Outlasted limit limit')) :
    Outlasted (piecesOf limit depth nodes) (piecesOf limit' depth nodes) := by
  induction nodes with
  | nil => exact .refl _
  | cons node rest ih =>
    obtain ⟨hnode, hrest⟩ := List.forall_mem_cons.mp h
    have hmore (piece : Piece) : Outlasted (piecesOf limit depth rest >>= fun pieces => .ok (piece :: pieces))
        (piecesOf limit' depth rest >>= fun pieces => .ok (piece :: pieces)) :=
      (ih hrest).bind fun pieces => .refl _
    rw [piecesOf.eq_def, piecesOf.eq_def limit']
    dsimp only
    split
    · exact hmore _
    · exact hmore _
    · exact (argumentsOf_outlasted hnode.parts [] []).bind fun read => hmore _
    · have hbelow := fun child hchild => (hnode.parts child hchild).here
      exact (itemsOf_outlasted hbelow).bind fun items => hmore _
    · exact hmore _
    · exact (hnode.here depth).bind fun e => hmore _

section Raised

variable (hlimit : limit ≤ limit')
include hlimit

theorem checkChain_outlasted (depth : Nat) (nodes : List Node) :
    Outlasted (checkChain limit depth nodes) (checkChain limit' depth nodes) := by
  induction nodes generalizing depth with
  | nil => exact .refl _
  | cons node rest ih =>
    rw [checkChain, checkChain]
    split
    · exact .guard hlimit _ (ih (depth + 1))
    · exact ih depth

theorem exprOf_outlasted {r : Rule} {first last : Cursor} {children : List Node}
    (h : ∀ child ∈ children, child.All (Node.Outlasted limit limit')) :
    (Node.mk r first last children).Outlasted limit limit' := by
  intro depth
  have hbelow := fun child hchild => (h child hchild).here
  have hparts := fun child hchild => (h child hchild).children_here
  rw [exprOf.eq_def, exprOf.eq_def limit']
  dsimp only
  cases r with
  | operation =>
    refine .guard hlimit _ ?_
    exact (checkChain_outlasted hlimit (depth + 1) children).bind fun _ =>
      (piecesOf_outlasted h).bind fun pieces => .refl _
  | conditional =>
    dsimp only
    split
    · exact hbelow _ List.mem_cons_self depth
    · simp only [List.forall_mem_cons] at hbelow
      obtain ⟨hbody, -, htest, -, horelse, -⟩ := hbelow
      exact (hbody depth).bind fun _ => (htest depth).bind fun _ => (horelse depth).bind fun _ => .refl _
    · exact .refl _
  | lambda =>
    dsimp only
    split
    · simp only [List.forall_mem_cons] at hbelow
      exact (hbelow.2.1 depth).bind fun body => .refl _
    · simp only [List.forall_mem_cons] at hbelow
      exact (hbelow.2.2.1 depth).bind fun body => .refl _
    · exact .refl _
  | starred =>
    dsimp only
    split
    · exact (hbelow _ List.mem_cons_self depth).bind fun v => .refl _
    · exact .refl _
  | slice => exact (slicePartsOf_outlasted hparts).bind fun parts => .refl _
  | paren | list =>
    dsimp only
    split
    · exact .refl _
    · exact (itemsOf_outlasted hbelow).bind fun items => .refl _
  | brace =>
    dsimp only
    split
    · exact .refl _
    · split
      · exact (entriesOf_outlasted hparts).bind fun entries => .refl _
      · exact (itemsOf_outlasted hbelow).bind fun items => .refl _
  | _ => exact .refl _

theorem node_outlasted (node : Node) : node.Outlasted limit limit' :=
  (Node.all (fun _ _ _ _ h => exprOf_outlasted hlimit h) node).here

theorem targetListOf_outlasted (node : Node) :
    Outlasted (targetListOf limit node) (targetListOf limit' node) :=
  (itemsOf_outlasted fun child _ => node_outlasted hlimit child).bind fun _ => .refl _

theorem statementOf_outlasted (node : Node) : Outlasted (statementOf limit node) (statementOf limit' node) := by
  have hlist := targetListOf_outlasted hlimit
  have hnode (node : Node) := node_outlasted hlimit node 0
  unfold statementOf
  dsimp only
  split
  · exact (Outlasted.mapM fun part _ => hlist part).bind fun exprs => .refl _
  · exact (hlist _).bind fun target => (hlist _).bind fun value => .refl _
  · exact (hnode _).bind fun target => (hnode _).bind fun annotation => .refl _
  · exact (hnode _).bind fun target => (hnode _).bind fun annotation => (hlist _).bind fun value => .refl _
  · exact (hlist _).bind fun value => .refl _
  · exact .refl _
  · exact .refl _

theorem moduleOf_outlasted (node : Node) : Outlasted (moduleOf limit node) (moduleOf limit' node) :=
  (Outlasted.mapM fun child _ => statementOf_outlasted hlimit child).bind fun _ => .refl _

/-- A text that is not refused for its depth has the same tree, or the same error, under every higher
limit. -/
theorem Module.parse_outlasted (source : String) :
    Outlasted (Module.parse limit source) (Module.parse limit' source) := by
  unfold Module.parse
  refine .guard hlimit _ ?_
  split
  · exact moduleOf_outlasted hlimit _
  · exact .refl _
  · exact .refl _

end Raised
end ConfigSandbox
