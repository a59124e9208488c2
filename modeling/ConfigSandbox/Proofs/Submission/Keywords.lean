import ConfigSandbox.Proofs.Submission.Blame
import ConfigSandbox.Proofs.Tree.Levels
import ConfigSandbox.Proofs.Tree.Limits

/-!
# The keywords of a parsed call

The builder refuses a name that a call has given before, so the keywords of a call in a tree have names that
are pairwise distinct. They stand in the text, which the keyword that passes the environment does not, so none
of them is taken for it.
-/
namespace ConfigSandbox

/-- The names that keywords give, in source order. -/
def keywordNames (keywords : List Keyword) : List String := keywords.filterMap Keyword.name?

theorem length_keywordNames {keywords : List Keyword} (h : ∀ loc value, .unpack loc value ∉ keywords) :
    (keywordNames keywords).length = keywords.length := by
  induction keywords with
  | nil => rfl
  | cons k rest ih =>
    cases k with
    | unpack loc value => exact absurd List.mem_cons_self (h loc value)
    | named loc name value =>
      change (keywordNames rest).length + 1 = rest.length + 1
      rw [ih fun loc value hm => h loc value (List.mem_cons_of_mem _ hm)]

/-- No call that a run may come to in the expression gives a name twice. -/
def Expr.NamesOnce (e : Expr) : Prop :=
  ∀ depth inner loc func args keywords, Reaches depth e inner (.call loc func args keywords) →
    (keywordNames keywords).Nodup

/-! ### Forms of expressions -/

namespace Expr.NamesOnce

variable {e left right : Expr} {loc : Location}

/-- Into other constructs than these no run goes. -/
theorem leaf (hlist : ∀ loc items, e ≠ .list loc items) (hset : ∀ loc items, e ≠ .set loc items)
    (hdict : ∀ loc entries, e ≠ .dict loc entries)
    (hcall : ∀ loc func args keywords, e ≠ .call loc func args keywords) : e.NamesOnce := by
  intro depth inner loc func args keywords h
  cases h with
  | here => exact absurd rfl (hcall _ _ _ _)
  | listItem => exact absurd rfl (hlist _ _)
  | setItem => exact absurd rfl (hset _ _)
  | key => exact absurd rfl (hdict _ _)
  | value => exact absurd rfl (hdict _ _)
  | argument => exact absurd rfl (hcall _ _ _ _)
  | keyword => exact absurd rfl (hcall _ _ _ _)

theorem refused (h : e.isRefused) : e.NamesOnce := by
  apply leaf
  all_goals
    intros
    rintro rfl
    cases h

theorem name {id : String} : (Expr.name loc id).NamesOnce := by
  apply leaf
  all_goals
    intros
    rintro ⟨⟩

theorem constant {value : Constant} : (Expr.constant loc value).NamesOnce := by
  apply leaf
  all_goals
    intros
    rintro ⟨⟩

theorem list {items : List Expr} (h : ∀ e ∈ items, e.NamesOnce) : (Expr.list loc items).NamesOnce := by
  intro depth inner loc func args keywords hr
  cases hr with
  | listItem he hr => exact h _ he _ _ _ _ _ _ hr

theorem set {items : List Expr} (h : ∀ e ∈ items, e.NamesOnce) : (Expr.set loc items).NamesOnce := by
  intro depth inner loc func args keywords hr
  cases hr with
  | setItem he hr => exact h _ he _ _ _ _ _ _ hr

theorem dict {entries : List DictEntry}
    (h : ∀ k v, .pair k v ∈ entries → k.NamesOnce ∧ v.NamesOnce) : (Expr.dict loc entries).NamesOnce := by
  intro depth inner loc func args keywords hr
  cases hr with
  | key he hr => exact (h _ _ he).1 _ _ _ _ _ _ hr
  | value he hr => exact (h _ _ he).2 _ _ _ _ _ _ hr

theorem call {func : Expr} {args : List Expr} {keywords : List Keyword} (hargs : ∀ e ∈ args, e.NamesOnce)
    (hkeywords : ∀ k ∈ keywords, k.value.NamesOnce) (hnodup : (keywordNames keywords).Nodup) :
    (Expr.call loc func args keywords).NamesOnce := by
  intro depth inner loc func args keywords hr
  cases hr with
  | here => exact hnodup
  | argument he hr => exact hargs _ he _ _ _ _ _ _ hr
  | keyword hk hr => exact hkeywords _ hk _ _ _ _ _ _ hr

end Expr.NamesOnce

/-! ### Rows of operators -/

/-- The parts of a piece give no name twice. -/
def Piece.NamesOnce : Piece → Prop
  | .operand e => e.NamesOnce
  | .trailer _ (.call args keywords) =>
    (∀ e ∈ args, e.NamesOnce) ∧ (∀ k ∈ keywords, k.value.NamesOnce) ∧ (keywordNames keywords).Nodup
  | _ => True

theorem Trailer.apply_namesOnce {loc : Location} {t : Trailer} (h : (Piece.trailer loc t).NamesOnce)
    (e : Expr) : (t.apply e loc).NamesOnce := by
  cases t with
  | call args keywords => exact .call h.1 h.2.1 h.2.2
  | subscript | member => exact .refused rfl

/-- An operator that closes makes a construct of its own, so only the bare operand counts. -/
theorem closeAll_namesOnce {e : Expr} (he : e.NamesOnce) (stack : List Pending) :
    (closeAll e stack).NamesOnce := by
  unfold closeAll
  induction stack generalizing e with
  | nil => exact he
  | cons p rest ih =>
    apply ih
    cases p <;> exact .refused rfl

theorem pieces_namesOnce {pieces : List Piece} (h : ∀ piece ∈ pieces, piece.NamesOnce) {result : Expr} :
    (∀ stack, operandFirst stack pieces = some result → result.NamesOnce) ∧
      ∀ stack e, e.NamesOnce → operatorNext stack e pieces = some result → result.NamesOnce := by
  induction pieces with
  | nil =>
    constructor
    · intro stack hresult
      cases hresult
    · intro stack e he hresult
      cases hresult
      exact closeAll_namesOnce he stack
  | cons piece rest ih =>
    obtain ⟨hpiece, hrest⟩ := List.forall_mem_cons.mp h
    obtain ⟨hfirst, hnext⟩ := ih hrest
    constructor
    · intro stack hresult
      cases piece with
      | operand e => exact hnext stack e hpiece hresult
      | unary loc op => exact hfirst _ hresult
      | binary | trailer => cases hresult
    · intro stack e he hresult
      cases piece with
      | operand | unary => cases hresult
      | binary op => exact hfirst _ hresult
      | trailer loc t => exact hnext stack _ (Trailer.apply_namesOnce hpiece e) hresult

theorem tupleUnlessSingle_namesOnce {loc : Location} {children : List Node} {items : List Expr}
    (h : ∀ e ∈ items, e.NamesOnce) : (tupleUnlessSingle loc children items).NamesOnce := by
  unfold tupleUnlessSingle
  split
  · split
    · exact .refused rfl
    · exact h _ List.mem_cons_self
  · exact .refused rfl

/-! ### The builder -/

/-- Whatever is built of the node, if anything is. -/
def Node.NamesOnce (node : Node) : Prop :=
  ∀ limit depth, Yields Expr.NamesOnce (exprOf limit depth node)

variable {limit depth : Nat} {nodes children : List Node}

theorem itemsOf_namesOnce (h : ∀ node ∈ nodes, node.NamesOnce) :
    Yields (∀ e ∈ ·, Expr.NamesOnce e) (itemsOf limit depth nodes) := by
  induction nodes with
  | nil => exact List.forall_mem_nil _
  | cons node rest ih =>
    obtain ⟨hnode, hrest⟩ := List.forall_mem_cons.mp h
    rw [itemsOf]
    split
    · exact ih hrest
    · exact (hnode limit depth).bind fun item hitem => (ih hrest).bind fun items hitems =>
        List.forall_mem_cons.mpr ⟨hitem, hitems⟩

theorem entriesOf_namesOnce (h : ∀ node ∈ nodes, ∀ child ∈ node.children, child.NamesOnce) :
    Yields (fun entries => ∀ k v, DictEntry.pair k v ∈ entries → k.NamesOnce ∧ v.NamesOnce)
      (entriesOf limit depth nodes) := by
  induction nodes with
  | nil => exact fun _ _ he => absurd he List.not_mem_nil
  | cons node rest ih =>
    obtain ⟨hnode, hrest⟩ := List.forall_mem_cons.mp h
    obtain ⟨r, first, last, parts⟩ := node
    have hmore (entry : DictEntry) (hentry : ∀ k v, .pair k v = entry → k.NamesOnce ∧ v.NamesOnce) :
        Yields (fun entries => ∀ k v, DictEntry.pair k v ∈ entries → k.NamesOnce ∧ v.NamesOnce)
          (entriesOf limit depth rest >>= fun entries => .ok (entry :: entries)) := by
      refine (ih hrest).bind fun entries hentries k v he => ?_
      rcases List.mem_cons.mp he with he | he
      · exact hentry k v he
      · exact hentries k v he
    rw [entriesOf.eq_def]
    dsimp only
    split
    · obtain ⟨hkey, hvalue⟩ := List.forall_mem_cons.mp hnode
      refine (hkey limit depth).bind fun k hk => (hvalue _ List.mem_cons_self limit depth).bind fun v hv => ?_
      refine hmore _ fun k' v' he => ?_
      cases he
      exact ⟨hk, hv⟩
    · exact (hnode _ List.mem_cons_self limit depth).bind fun v _ => hmore _ fun k' v' he => by cases he
    · trivial

theorem argumentsOf_namesOnce (h : ∀ node ∈ nodes, node.All Node.NamesOnce) {args : List Expr}
    {keywords : List Keyword} (hargs : ∀ e ∈ args, e.NamesOnce)
    (hkeywords : ∀ k ∈ keywords, k.value.NamesOnce) (hnodup : (keywordNames keywords).Nodup) :
    Yields (fun read => (∀ e ∈ read.1, e.NamesOnce) ∧ (∀ k ∈ read.2, k.value.NamesOnce) ∧
      (keywordNames read.2).Nodup) (argumentsOf limit depth args keywords nodes) := by
  induction nodes generalizing args keywords with
  | nil => exact ⟨hargs, hkeywords, hnodup⟩
  | cons node rest ih =>
    obtain ⟨hnode, hrest⟩ := List.forall_mem_cons.mp h
    have hsnoc {k : Keyword} (hk : k.value.NamesOnce) : ∀ k' ∈ keywords ++ [k], k'.value.NamesOnce :=
      List.forall_mem_append.mpr ⟨hkeywords, List.forall_mem_singleton.mpr hk⟩
    rw [argumentsOf.eq_def]
    dsimp only
    split
    · rename_i first last name value
      split
      · trivial
      · rename_i hnew
        have hvalue := (hnode.parts value (List.mem_cons_of_mem _ List.mem_cons_self)).here limit depth
        refine hvalue.bind fun v hv => ih hrest hargs (hsnoc hv) ?_
        -- the name was looked for among those that the call has given by now
        rw [keywordNames, List.filterMap_append, List.nodup_append]
        refine ⟨hnodup, List.pairwise_singleton _ _, fun given hgiven added hadded => ?_⟩
        obtain rfl := List.mem_singleton.mp hadded
        rintro rfl
        obtain ⟨k, hk, hname⟩ := List.mem_filterMap.mp hgiven
        exact hnew (List.any_eq_true.mpr ⟨k, hk, beq_iff_eq.mpr hname⟩)
    · rename_i first last value
      refine ((hnode.parts value List.mem_cons_self).here limit depth).bind fun v hv => ?_
      refine ih hrest hargs (hsnoc hv) ?_
      rw [keywordNames, List.filterMap_append]
      exact (List.append_nil _).symm ▸ hnodup
    · split
      · trivial
      · refine (hnode.here limit depth).bind fun e he => ih hrest ?_ hkeywords hnodup
        exact List.forall_mem_append.mpr ⟨hargs, List.forall_mem_singleton.mpr he⟩

theorem piecesOf_namesOnce (h : ∀ node ∈ nodes, node.All Node.NamesOnce) :
    Yields (∀ piece ∈ ·, Piece.NamesOnce piece) (piecesOf limit depth nodes) := by
  induction nodes with
  | nil => exact List.forall_mem_nil _
  | cons node rest ih =>
    obtain ⟨hnode, hrest⟩ := List.forall_mem_cons.mp h
    have hmore {piece : Piece} (hpiece : piece.NamesOnce) :
        Yields (∀ piece ∈ ·, Piece.NamesOnce piece)
          (piecesOf limit depth rest >>= fun pieces => .ok (piece :: pieces)) :=
      (ih hrest).bind fun pieces hpieces => List.forall_mem_cons.mpr ⟨hpiece, hpieces⟩
    rw [piecesOf.eq_def]
    dsimp only
    split
    · exact hmore trivial
    · exact hmore trivial
    · refine Meets.bind ?_ fun read hread => hmore hread
      exact argumentsOf_namesOnce hnode.parts (List.forall_mem_nil _) (List.forall_mem_nil _) List.nodup_nil
    · have hbelow := fun child hchild => (hnode.parts child hchild).here
      exact (itemsOf_namesOnce hbelow).bind fun items _ => hmore trivial
    · exact hmore trivial
    · exact (hnode.here limit depth).bind fun e he => hmore he

theorem toExpr_namesOnce {loc : Location} (parts : StringParts) : (parts.toExpr loc).NamesOnce := by
  unfold StringParts.toExpr
  split
  · exact .constant
  · split
    · exact .refused rfl
    · exact .constant

theorem exprOf_namesOnce {r : Rule} {first last : Cursor} (h : ∀ child ∈ children, child.All Node.NamesOnce) :
    (Node.mk r first last children).NamesOnce := by
  intro limit depth
  have hbelow := fun child hchild => (h child hchild).here
  have hparts := fun child hchild => (h child hchild).children_here
  have hany {α : Type} {x : Except ParseError α} : Yields (fun _ => True) x := by
    cases x <;> trivial
  have hrefused {α : Type} {x : Except ParseError α} {f : α → Expr} (hf : ∀ a, (f a).isRefused) :
      Yields Expr.NamesOnce (x >>= fun a => .ok (f a)) :=
    hany.bind fun a _ => Expr.NamesOnce.refused (hf a)
  rw [exprOf.eq_def]
  dsimp only
  cases r with
  | operation =>
    dsimp only
    split
    · trivial
    · refine hany.bind fun _ _ => (piecesOf_namesOnce h).bind fun pieces hpieces => ?_
      split
      · rename_i e he
        exact (pieces_namesOnce hpieces).1 [] he
      · trivial
  | conditional =>
    dsimp only
    split
    · exact hbelow _ List.mem_cons_self limit depth
    · exact hany.bind fun body _ => hany.bind fun test _ => hrefused fun _ => rfl
    · trivial
  | lambda =>
    dsimp only
    split
    · exact hrefused fun _ => rfl
    · exact hrefused fun _ => rfl
    · trivial
  | starred =>
    dsimp only
    split
    · exact hrefused fun _ => rfl
    · trivial
  | slice => exact hrefused fun _ => rfl
  | identifier => exact Expr.NamesOnce.name
  | integer | float =>
    dsimp only
    split
    · exact Expr.NamesOnce.constant
    · trivial
  | trueLiteral | falseLiteral | noneLiteral | ellipsis => exact Expr.NamesOnce.constant
  | strings => exact hany.bind fun parts _ => toExpr_namesOnce parts
  | paren =>
    dsimp only
    split
    · exact Expr.NamesOnce.refused rfl
    · exact (itemsOf_namesOnce hbelow).bind fun items hitems => tupleUnlessSingle_namesOnce hitems
  | list =>
    dsimp only
    split
    · exact Expr.NamesOnce.refused rfl
    · exact (itemsOf_namesOnce hbelow).bind fun items hitems => Expr.NamesOnce.list hitems
  | brace =>
    dsimp only
    split
    · exact Expr.NamesOnce.refused rfl
    · split
      · exact (entriesOf_namesOnce hparts).bind fun entries hentries => Expr.NamesOnce.dict hentries
      · exact (itemsOf_namesOnce hbelow).bind fun items hitems => Expr.NamesOnce.set hitems
  | _ => trivial

theorem Node.namesOnce (node : Node) : node.NamesOnce :=
  (Node.all (fun _ _ _ _ => exprOf_namesOnce) node).here

theorem targetListOf_namesOnce (node : Node) :
    Yields Expr.NamesOnce (targetListOf limit node) :=
  (itemsOf_namesOnce fun child _ => child.namesOnce).bind fun _ hitems => tupleUnlessSingle_namesOnce hitems

theorem statementOf_namesOnce (node : Node) :
    Yields (∀ e ∈ ·.kind.exprs, e.NamesOnce) (statementOf limit node) := by
  have hlist (node : Node) : Yields Expr.NamesOnce (targetListOf limit node) := targetListOf_namesOnce node
  have hnode (node : Node) := node.namesOnce limit 0
  unfold statementOf
  dsimp only
  split
  · refine (yields_mapM fun part _ => hlist part).bind fun exprs hexprs => ?_
    split
    · rename_i value hvalue
      change ∀ e ∈ exprs.dropLast ++ [value], e.NamesOnce
      rw [List.dropLast_append_getLast? value hvalue]
      exact hexprs
    · trivial
  · refine (hlist _).bind fun target htarget => (hlist _).bind fun v hv => ?_
    exact List.forall_mem_cons.mpr ⟨htarget, List.forall_mem_singleton.mpr hv⟩
  · refine (hnode _).bind fun target htarget => (hnode _).bind fun a ha => ?_
    exact List.forall_mem_cons.mpr ⟨htarget, List.forall_mem_singleton.mpr ha⟩
  · refine (hnode _).bind fun target htarget => (hnode _).bind fun a ha => (hlist _).bind fun v hv => ?_
    exact List.forall_mem_cons.mpr ⟨htarget, List.forall_mem_cons.mpr ⟨ha,
      List.forall_mem_singleton.mpr hv⟩⟩
  · exact (hlist _).bind fun v hv => List.forall_mem_singleton.mpr hv
  · exact List.forall_mem_nil _
  · trivial

namespace Module

variable {m : Module} {inner : Nat} {loc : Location} {func : Expr} {args : List Expr} {keywords : List Keyword}

theorem parse_namesOnce {source : String} (hm : Module.parse limit source = .ok m) :
    ∀ e ∈ m.exprs, e.NamesOnce := by
  have hmodule (node : Node) : Yields (∀ e ∈ ·.exprs, e.NamesOnce) (moduleOf limit node) := by
    refine (yields_mapM fun child _ => statementOf_namesOnce child).bind fun body hbody e he => ?_
    obtain ⟨s, hs, he⟩ := List.mem_flatMap.mp he
    exact hbody s hs e he
  unfold Module.parse at hm
  dsimp only at hm
  split at hm
  · cases hm
  · split at hm
    · exact (hmodule _).ok hm
    · cases hm
    · cases hm

/-- What a call of a parsed text gives by name has names that are pairwise distinct. -/
theorem nodup_keywordNames {source : String} (hm : Module.parse limit source = .ok m)
    (hr : m.Reaches inner (.call loc func args keywords)) : (keywordNames keywords).Nodup := by
  obtain ⟨e, he, hr⟩ := hr
  exact parse_namesOnce hm e he _ _ _ _ _ _ hr

/-- No keyword of a parsed text is the one that passes the environment, whatever it says. -/
theorem not_isHandle {source : String} (hm : Module.parse limit source = .ok m)
    (hr : m.Reaches inner (.call loc func args keywords)) : ∀ k ∈ keywords, k.isHandle = false := by
  intro k hk
  obtain ⟨e, he, hr⟩ := hr
  obtain ⟨s, hs, he⟩ := List.mem_flatMap.mp he
  have hkeyword : .mk .keyword k.loc [k.value.outline] ∈ s.outline.nodes :=
    Outline.nodes_of_part (mem_outlines he)
      (hr.nodes_subset (Outline.nodes_of_part (mem_callOutlines_keyword hk) (Outline.self_mem_nodes _)))
  have hexact := ((parse_located limit source).ok hm).exact s.outline (List.mem_map_of_mem hs)
  have hline : 1 ≤ k.loc.line := (hexact.of_mem_nodes hkeyword).fits.line_pos
  rw [Bool.eq_false_iff]
  intro hhandle
  cases k with
  | unpack => cases hhandle
  | named kloc name value =>
    cases value with
    | name vloc id =>
      simp only [Keyword.isHandle, Bool.and_eq_true, decide_eq_true_eq] at hhandle
      obtain ⟨⟨⟨hloc, -⟩, -⟩, -⟩ := hhandle
      rw [Keyword.loc, hloc] at hline
      exact absurd hline (by decide)
    | _ => cases hhandle

end Module
end ConfigSandbox
