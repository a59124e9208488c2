import ConfigSandbox.Proofs.Tree.Alike
import ConfigSandbox.Proofs.Tree.Numbers

/-!
# What else is wrong with a text

Put `None` for the numbers of a match that cannot be read: whatever the builder still refuses is refused for
another reason. If it refuses nothing then, a number is all that the match itself can be refused for.
-/
namespace ConfigSandbox

open Peg

mutual

/-- The node with `None` in the place of each number literal that stands for no number. -/
def Node.readable : Node → Node
  | .mk r first last children =>
    .mk (if (Node.mk r first last children).isUnreadable then .noneLiteral else r) first last (readableIn children)

def readableIn : List Node → List Node
  | [] => []
  | node :: rest => node.readable :: readableIn rest

end

variable {source : String} {limit depth : Nat} {r : Rule} {first last : Cursor} {node : Node}
  {nodes children : List Node}

theorem Node.readable_mk (h : (Node.mk r first last children).isUnreadable = false) :
    (Node.mk r first last children).readable = .mk r first last (readableIn children) := by
  rw [Node.readable, h]
  rfl

theorem Node.text_readable : node.readable.text = node.text := by
  obtain ⟨r, first, last, children⟩ := node
  rw [Node.readable]
  rfl

theorem Node.loc_readable : node.readable.loc = node.loc := by
  obtain ⟨r, first, last, children⟩ := node
  rw [Node.readable]
  rfl

/-- A question about rules that does not tell a number from `None` has the same answer. -/
theorem Node.rule_readable (node : Node) (p : Rule → Bool) (hinteger : p .integer = p .noneLiteral)
    (hfloat : p .float = p .noneLiteral) : p node.readable.rule = p node.rule := by
  obtain ⟨r, first, last, children⟩ := node
  rw [Node.readable, Node.rule, Node.rule]
  split
  · rename_i hfault
    cases r with
    | integer => exact hinteger.symm
    | float => exact hfloat.symm
    | _ => cases hfault
  · rfl

theorem any_readableIn (p : Rule → Bool) (hinteger : p .integer = p .noneLiteral)
    (hfloat : p .float = p .noneLiteral) :
    ((readableIn nodes).any fun node => p node.rule) = nodes.any fun node => p node.rule := by
  induction nodes with
  | nil => rfl
  | cons node rest ih => rw [readableIn, List.any_cons, List.any_cons, ih, node.rule_readable p hinteger hfloat]

theorem filter_readableIn (p : Rule → Bool) (hinteger : p .integer = p .noneLiteral)
    (hfloat : p .float = p .noneLiteral) : (readableIn nodes).filter (fun node => p node.rule) =
      readableIn (nodes.filter fun node => p node.rule) := by
  induction nodes with
  | nil => rfl
  | cons node rest ih =>
    rw [readableIn, List.filter_cons, List.filter_cons, node.rule_readable p hinteger hfloat, ih]
    split
    · rfl
    · rfl

theorem isComprehension_readableIn : isComprehension (readableIn children) = isComprehension children :=
  any_readableIn (· == .comprehensionFor) rfl rfl

theorem beginsDict_readableIn : beginsDict (readableIn children) = beginsDict children := by
  cases children with
  | nil => rfl
  | cons node rest => exact node.rule_readable (fun r => r == .dictItem || r == .dictUnpack) rfl rfl

theorem readableIn_eq_self (h : ∀ node ∈ nodes, node.readable = node) : readableIn nodes = nodes := by
  induction nodes with
  | nil => rfl
  | cons node rest ih =>
    obtain ⟨hnode, hrest⟩ := List.forall_mem_cons.mp h
    rw [readableIn, hnode, ih hrest]

/-- Words have no numbers in them. -/
theorem Node.Matched.readable_eq (h : node.Matched source) (hr : node.rule.isWordlike) : node.readable = node := by
  have hall : node.All fun node => node.rule.isWordlike → node.readable = node := by
    refine h.all fun r first last children hm hbelow hr => ?_
    have hread : (Node.mk r first last children).isUnreadable = false := by cases r <;> first | rfl | cases hr
    have hwords (child : Node) (hmem : child ∈ children) : child.readable = child :=
      (hbelow child hmem).here (Rule.wordlike_below hr _ (hm.rule_mem child hmem))
    rw [Node.readable_mk hread, readableIn_eq_self hwords]
  exact hall.here hr

/-! ### Results -/

/-- A complaint about a number, or about the form of a match. -/
def ParseFault.isExcused : ParseFault → Bool
  | .invalidNumber _ | .malformedTree => true
  | _ => false

/-- Where the first result is an error and the second is none, it is such a complaint. -/
def Excused {α : Type} (x x' : Except ParseError α) : Prop :=
  ∀ e, x = .error e → (∃ e', x' = .error e') ∨ e.fault.isExcused

namespace Excused

variable {α β : Type} {x x' : Except ParseError α} {f f' : α → Except ParseError β}

theorem refl (x : Except ParseError α) : Excused x x := fun e he => Or.inl ⟨e, he⟩

theorem ok (a : α) : Excused (.ok a) x' := nofun

theorem excuse {e : ParseError} (h : e.fault.isExcused) : Excused (.error e) x' := by
  rintro _ ⟨⟩
  exact Or.inr h

theorem refused {e e' : ParseError} : Excused (.error e) (.error e' : Except ParseError α) :=
  fun _ _ => Or.inl ⟨e', rfl⟩

theorem bind (hx : Excused x x') (hf : ∀ a a', Excused (f a) (f' a')) : Excused (x >>= f) (x' >>= f') := by
  cases x with
  | error e =>
    rintro _ ⟨⟩
    obtain ⟨e', rfl⟩ | h := hx e rfl
    · exact Or.inl ⟨e', rfl⟩
    · exact Or.inr h
  | ok a =>
    cases x' with
    | error e' => exact fun _ _ => Or.inl ⟨e', rfl⟩
    | ok a' => exact hf a a'

theorem mapM {f : Node → Except ParseError β} (h : ∀ node ∈ nodes, Excused (f node) (f node.readable)) :
    Excused (nodes.mapM f) ((readableIn nodes).mapM f) := by
  induction nodes with
  | nil => exact .ok []
  | cons node rest ih =>
    obtain ⟨hnode, hrest⟩ := List.forall_mem_cons.mp h
    rw [readableIn, List.mapM_cons, List.mapM_cons]
    exact hnode.bind fun _ _ => (ih hrest).bind fun _ _ => .ok _

end Excused

/-! ### The builder -/

/-- A node of a match that is refused for its numbers, or would be refused without them. -/
structure Node.Excused (source : String) (node : Node) : Prop where
  matched : node.Matched source
  builds : ∀ limit depth, ConfigSandbox.Excused (exprOf limit depth node) (exprOf limit depth node.readable)

theorem checkChain_readableIn : checkChain limit depth (readableIn nodes) = checkChain limit depth nodes := by
  induction nodes generalizing depth with
  | nil => rfl
  | cons node rest ih =>
    rw [readableIn, checkChain, checkChain, node.rule_readable Rule.nests rfl rfl, Node.loc_readable, ih, ih]

section Rows

variable (h : ∀ node ∈ nodes, node.All (Node.Excused source))
include h

theorem itemsOf_excused : Excused (itemsOf limit depth nodes) (itemsOf limit depth (readableIn nodes)) := by
  induction nodes with
  | nil => exact .ok []
  | cons node rest ih =>
    obtain ⟨hnode, hrest⟩ := List.forall_mem_cons.mp h
    rw [readableIn, itemsOf, itemsOf, node.rule_readable (· == .trailingComma) rfl rfl]
    split
    · exact ih hrest
    · exact (hnode.here.builds limit depth).bind fun _ _ => (ih hrest).bind fun _ _ => .ok _

theorem entriesOf_excused : Excused (entriesOf limit depth nodes) (entriesOf limit depth (readableIn nodes)) := by
  induction nodes with
  | nil => exact .ok []
  | cons node rest ih =>
    obtain ⟨hnode, hrest⟩ := List.forall_mem_cons.mp h
    obtain ⟨r, first, last, children⟩ := node
    have hmore (entry entry' : DictEntry) :
        Excused (entriesOf limit depth rest >>= fun entries => .ok (entry :: entries))
          (entriesOf limit depth (readableIn rest) >>= fun entries => .ok (entry' :: entries)) :=
      (ih hrest).bind fun _ _ => .ok _
    rw [readableIn, entriesOf.eq_def, entriesOf.eq_def limit depth (_ :: readableIn rest)]
    cases r with
    | dictItem =>
      obtain ⟨key, value, rfl, -⟩ := exists_pair hnode.here.matched
      exact ((hnode.parts key (by simp)).here.builds limit depth).bind fun _ _ =>
        ((hnode.parts value (by simp)).here.builds limit depth).bind fun _ _ => hmore _ _
    | dictUnpack =>
      obtain ⟨value, rfl, -⟩ := exists_operation hnode.here.matched (by simp)
      exact ((hnode.parts value (by simp)).here.builds limit depth).bind fun _ _ => hmore _ _
    | _ => exact .excuse rfl

theorem slicePartsOf_excused :
    Excused (slicePartsOf limit depth nodes) (slicePartsOf limit depth (readableIn nodes)) := by
  induction nodes with
  | nil => exact .ok []
  | cons node rest ih =>
    obtain ⟨hnode, hrest⟩ := List.forall_mem_cons.mp h
    obtain ⟨r, first, last, children⟩ := node
    rw [readableIn, slicePartsOf.eq_def, slicePartsOf.eq_def limit depth (_ :: readableIn rest)]
    cases r with
    | slicePart part =>
      obtain ⟨value, rfl, -⟩ := exists_slicePart hnode.here.matched
      exact ((hnode.parts value (by simp)).here.builds limit depth).bind fun _ _ => (ih hrest).bind fun _ _ => .ok _
    | _ => exact .excuse rfl

theorem argumentsOf_excused {args args' : List Expr} {keywords keywords' : List Keyword}
    (hnames : keywords'.map Keyword.name? = keywords.map Keyword.name?) :
    Excused (argumentsOf limit depth args keywords nodes)
      (argumentsOf limit depth args' keywords' (readableIn nodes)) := by
  induction nodes generalizing args args' keywords keywords' with
  | nil => exact .ok _
  | cons node rest ih =>
    obtain ⟨hnode, hrest⟩ := List.forall_mem_cons.mp h
    obtain ⟨r, first, last, children⟩ := node
    have hany (name : String) : (keywords'.any fun k => k.name? == some name) =
        keywords.any fun k => k.name? == some name := by
      have hmap (ks : List Keyword) : (ks.any fun k => k.name? == some name) =
          (ks.map Keyword.name?).any (· == some name) := by rw [List.any_map]; rfl
      rw [hmap, hnames, ← hmap]
    have hempty : keywords'.isEmpty = keywords.isEmpty := by
      rw [← List.isEmpty_map (f := Keyword.name?), hnames, List.isEmpty_map]
    have hmore {k k' : Keyword} (hk : k'.name? = k.name?) :
        (keywords' ++ [k']).map Keyword.name? = (keywords ++ [k]).map Keyword.name? := by
      rw [List.map_append, List.map_append, hnames, List.map_singleton, List.map_singleton, hk]
    by_cases hr : r = .keywordArgument
    · subst hr
      obtain ⟨name, value, rfl, -⟩ := exists_keyword hnode.here.matched
      rw [readableIn, Node.readable_mk rfl, readableIn, readableIn, readableIn, argumentsOf, argumentsOf,
        Node.text_readable]
      dsimp only
      rw [hany]
      split
      · exact .refused
      · exact ((hnode.parts value (by simp)).here.builds limit depth).bind fun _ _ => ih hrest (hmore rfl)
    by_cases hr' : r = .doubleStarred
    · subst hr'
      obtain ⟨value, rfl, -⟩ := exists_operation hnode.here.matched (by simp)
      rw [readableIn, Node.readable_mk rfl, readableIn, readableIn, argumentsOf, argumentsOf]
      exact ((hnode.parts value (by simp)).here.builds limit depth).bind fun _ _ => ih hrest (hmore rfl)
    have hbuilds := hnode.here.builds limit depth
    have hrule := (Node.mk r first last children).rule_readable
    have hkeyword := hrule (· == .keywordArgument) rfl rfl
    have hunpacked := hrule (· == .doubleStarred) rfl rfl
    have hstarred := hrule (· != .starred) rfl rfl
    rw [readableIn]
    rcases hread : (Node.mk r first last children).readable with ⟨r', first', last', children'⟩
    rw [hread] at hbuilds hkeyword hunpacked hstarred
    dsimp only [Node.rule] at hkeyword hunpacked hstarred
    rw [argumentsOf_cons_positional hr hr', argumentsOf_cons_positional (by simpa [hr] using hkeyword)
      (by simpa [hr'] using hunpacked), hstarred, hempty]
    split
    · exact .refused
    · exact hbuilds.bind fun _ _ => ih hrest hnames

theorem piecesOf_excused : Excused (piecesOf limit depth nodes) (piecesOf limit depth (readableIn nodes)) := by
  induction nodes with
  | nil => exact .ok []
  | cons node rest ih =>
    obtain ⟨hnode, hrest⟩ := List.forall_mem_cons.mp h
    obtain ⟨r, first, last, children⟩ := node
    have hbuilds := hnode.here.builds limit depth
    have hmore (p p' : Piece) : Excused (piecesOf limit depth rest >>= fun pieces => .ok (p :: pieces))
        (piecesOf limit depth (readableIn rest) >>= fun pieces => .ok (p' :: pieces)) :=
      (ih hrest).bind fun _ _ => .ok _
    rw [readableIn, piecesOf.eq_def, piecesOf.eq_def limit depth (_ :: readableIn rest)]
    cases r with
    | unary op | binary op => exact hmore _ _
    | call => exact (argumentsOf_excused hnode.parts rfl).bind fun _ _ => hmore _ _
    | subscript => exact (itemsOf_excused hnode.parts).bind fun _ _ => hmore _ _
    | member =>
      obtain ⟨name, rfl, -⟩ := exists_member hnode.here.matched
      exact hmore _ _
    | integer | float =>
      rw [Node.readable] at hbuilds ⊢
      split at hbuilds
      · rename_i hfault
        rw [if_pos hfault]
        exact hbuilds.bind fun _ _ => hmore _ _
      · rename_i hread
        rw [if_neg hread]
        exact hbuilds.bind fun _ _ => hmore _ _
    | _ => exact hbuilds.bind fun _ _ => hmore _ _

end Rows

theorem exprOf_excused (hm : (Node.mk r first last children).Matched source)
    (h : ∀ child ∈ children, child.All (Node.Excused source)) : (Node.mk r first last children).Excused source := by
  refine ⟨hm, fun limit depth => ?_⟩
  have hchild {child : Node} (hc : child ∈ children) :
      Excused (exprOf limit depth child) (exprOf limit depth child.readable) := (h child hc).here.builds limit depth
  by_cases hword : r.isWordlike
  · rw [hm.readable_eq hword]
    exact .refl _
  rw [exprOf.eq_def, exprOf.eq_def limit depth (Node.readable _)]
  cases r with
  | operation =>
    rw [Node.readable_mk rfl]
    dsimp only
    rw [checkChain_readableIn]
    split
    · exact .refused
    · refine (Excused.refl _).bind fun _ _ => (piecesOf_excused h).bind fun pieces _ => ?_
      split
      · exact .ok _
      · exact .excuse rfl
  | conditional =>
    obtain ⟨body, -, rfl | ⟨ifWord, test, elseWord, orelse, rfl, -⟩⟩ := exists_conditional hm
    · exact hchild (by simp)
    · exact (hchild (by simp)).bind fun _ _ => (hchild (by simp)).bind fun _ _ =>
        (hchild (by simp)).bind fun _ _ => .ok _
  | lambda =>
    obtain ⟨word, body, -, -, rfl | ⟨params, rfl, -⟩⟩ := exists_lambda hm
    · exact (hchild (by simp)).bind fun _ _ => .ok _
    · exact (hchild (by simp)).bind fun _ _ => .ok _
  | starred =>
    obtain ⟨value, rfl, -⟩ := exists_operation hm (by simp)
    exact (hchild (by simp)).bind fun _ _ => .ok _
  | slice => exact (slicePartsOf_excused h).bind fun _ _ => .ok _
  | integer | float =>
    dsimp only
    split
    · exact .ok _
    · exact .excuse rfl
  | paren | list =>
    rw [Node.readable_mk rfl]
    dsimp only
    rw [isComprehension_readableIn]
    split
    · exact .ok _
    · exact (itemsOf_excused h).bind fun _ _ => .ok _
  | brace =>
    rw [Node.readable_mk rfl]
    dsimp only
    rw [isComprehension_readableIn, beginsDict_readableIn]
    split
    · exact .ok _
    · split
      · exact (entriesOf_excused h).bind fun _ _ => .ok _
      · exact (itemsOf_excused h).bind fun _ _ => .ok _
  | _ => first | exact .excuse rfl | exact absurd rfl hword

theorem Node.Matched.excused (h : node.Matched source) : node.All (Node.Excused source) :=
  h.all fun _ _ _ _ => exprOf_excused

/-! ### Statements and texts -/

theorem targetListOf_excused (h : node.Matched source) :
    Excused (targetListOf limit node) (targetListOf limit node.readable) := by
  obtain ⟨r, first, last, children⟩ := node
  rw [Node.readable]
  exact (itemsOf_excused fun child hc => (h.parts child hc).excused).bind fun _ _ => .ok _

theorem statementOf_excused (h : node.Matched source) :
    Excused (statementOf limit node) (statementOf limit node.readable) := by
  obtain ⟨r, first, last, children⟩ := node
  have hexpr {child : Node} (hc : child ∈ children) :
      Excused (exprOf limit 0 child) (exprOf limit 0 child.readable) := (h.parts child hc).excused.here.builds limit 0
  have hlist {child : Node} (hc : child ∈ children) :
      Excused (targetListOf limit child) (targetListOf limit child.readable) := targetListOf_excused (h.parts child hc)
  have hrow := h.row
  unfold statementOf
  cases r with
  | assignment =>
    have hlists : Excused (children.mapM (targetListOf limit)) ((readableIn children).mapM (targetListOf limit)) :=
      .mapM fun child hc => hlist hc
    refine hlists.bind fun exprs _ => ?_
    split
    · exact .ok _
    · exact .excuse rfl
  | augmentedAssignment =>
    simp only [Rule.body, rows_tokens_cons, rows_tokens_one, rows_rule] at hrow
    obtain ⟨target, rest, rfl, -, hrest⟩ := hrow.first
    obtain ⟨op, rest, rfl, -, hrest⟩ := hrest.first
    obtain ⟨value, rfl, -⟩ := hrest.one
    exact (hlist (by simp)).bind fun _ _ => (hlist (by simp)).bind fun _ _ => .ok _
  | annotatedAssignment =>
    rcases children with _ | ⟨target, _ | ⟨label, _ | ⟨value, _ | ⟨more, rest⟩⟩⟩⟩
    · exact .excuse rfl
    · exact .excuse rfl
    · exact (hexpr (by simp)).bind fun _ _ => (hexpr (by simp)).bind fun _ _ => .ok _
    · exact (hexpr (by simp)).bind fun _ _ => (hexpr (by simp)).bind fun _ _ =>
        (hlist (by simp)).bind fun _ _ => .ok _
    · exact .excuse rfl
  | expressionStatement =>
    obtain ⟨value, rfl, -⟩ := Row.one hrow
    exact (hlist (by simp)).bind fun _ _ => .ok _
  | reservedStatement =>
    obtain ⟨word, rest, rfl, -⟩ := hrow.first
    exact .ok _
  | _ => exact .excuse rfl

theorem moduleOf_excused (h : node.Matched source) :
    Excused (moduleOf limit node) (moduleOf limit node.readable) := by
  obtain ⟨r, first, last, children⟩ := node
  have hbody : Excused ((children.filter (·.rule != .endOfInput)).mapM (statementOf limit))
      ((readableIn (children.filter (·.rule != .endOfInput))).mapM (statementOf limit)) :=
    .mapM fun child hc => statementOf_excused (h.parts child (List.mem_of_mem_filter hc))
  rw [← filter_readableIn (· != .endOfInput) rfl rfl] at hbody
  rw [Node.readable]
  exact hbody.bind fun _ _ => .ok _

/-- A text of whose match a tree could be built but for its numbers, and which is refused, is refused for one of
these. -/
theorem Module.parse_of_readable {root : Node} {m : Module} (hroot : nodesOf source.toList = some [root])
    (hnesting : (Nesting.ofText source.toList).deepest ≤ limit) (hbuilt : moduleOf limit root.readable = .ok m)
    {e : ParseError} (h : Module.parse limit source = .error e) :
    ∃ part, root.Faulty part ∧ e = ⟨.invalidNumber (String.ofList part.text), part.loc⟩ := by
  obtain ⟨last, att, hmatch⟩ := matchText_of_nodesOf hroot
  obtain ⟨children, -, hnode⟩ := (gives_of_matchText hmatch).of_rule
  cases hnode
  have hmatched := matched_of_nodesOf hroot
  have hparse : Module.parse limit source = moduleOf limit (.mk .module (.start source.toList) last children) := by
    unfold Module.parse
    dsimp only
    rw [hmatch, if_neg (Nat.not_lt.mpr hnesting)]
  have hform : e.fault ≠ .malformedTree := (moduleOf_handles hmatched rfl).error (hparse.symm.trans h)
  obtain ⟨e', he'⟩ | hexcused := moduleOf_excused hmatched e (hparse.symm.trans h)
  · rw [hbuilt] at he'
    cases he'
  obtain ⟨fault, loc⟩ := e
  cases fault with
  | invalidNumber text =>
    obtain ⟨part, hfaulty, rfl, rfl⟩ := Meets.error (Module.parse_finds limit hroot) h text rfl
    exact ⟨part, hfaulty, rfl⟩
  | malformedTree => exact absurd rfl hform
  | _ => cases hexcused

end ConfigSandbox
