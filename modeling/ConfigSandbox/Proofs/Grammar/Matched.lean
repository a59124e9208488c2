import ConfigSandbox.Proofs.Grammar.Gives
import ConfigSandbox.Proofs.Source.Fits

/-!
# The nodes of a match

Every node that a match in a text leaves is itself a match, of the body of its rule, and the nodes beside
each other come one after another. Which rules may stand side by side is read off the expression.
-/
namespace ConfigSandbox

variable {source : String} {first last cur : Cursor} {nodes xs ys rest children : List Node}
  {lo mid hi : Nat} {r : Rule}

/-- A node of a match in a text. -/
inductive Node.Matched (source : String) : Node → Prop
  | mk {r : Rule} {first last : Cursor} {children : List Node}
      (body : Peg.Gives r.body first (some (last, children))) (start : first.In source)
      (parts : ∀ child ∈ children, Matched source child) : Matched source (.mk r first last children)

theorem Node.Matched.loc_fits {node : Node} (h : node.Matched source) : node.loc.Fits source := by
  cases h with
  | mk body start parts =>
    obtain ⟨cs, hreads⟩ := body.reads
    exact Cursor.location_fits start hreads

/-- A property of a node and of all nodes below it. -/
inductive Node.All (P : Node → Prop) : Node → Prop
  | mk {r : Rule} {first last : Cursor} {children : List Node} (here : P (.mk r first last children))
      (below : ∀ child ∈ children, All P child) : All P (.mk r first last children)

theorem Node.All.here {P : Node → Prop} {node : Node} (h : node.All P) : P node := by
  cases h with
  | mk here below => exact here

theorem Node.All.parts {P : Node → Prop} (h : (Node.mk r first last children).All P) :
    ∀ child ∈ children, child.All P := by
  cases h with
  | mk here below => exact below

theorem Node.All.children_here {P : Node → Prop} {node : Node} (h : node.All P) : ∀ child ∈ node.children, P child := by
  cases h with
  | mk here below => exact fun child hchild => (below child hchild).here

/-- Whatever follows for a match from the nodes below it holds of all nodes of a match. -/
theorem Node.Matched.all {P : Node → Prop} {node : Node} (h : node.Matched source)
    (step : ∀ r first last children, (Node.mk r first last children).Matched source →
      (∀ child ∈ children, child.All P) → P (.mk r first last children)) : node.All P := by
  induction h with
  | mk body start parts ih => exact .mk (step _ _ _ _ (.mk body start parts) ih) ih

/-- One node after another, between two offsets. -/
inductive Strung : Nat → List Node → Nat → Prop
  | nil {lo hi : Nat} (h : lo ≤ hi) : Strung lo [] hi
  | cons {lo hi : Nat} {r : Rule} {first last : Cursor} {children rest : List Node}
      (before : lo ≤ first.offset) (ordered : first.offset ≤ last.offset)
      (after : Strung last.offset rest hi) : Strung lo (.mk r first last children :: rest) hi

theorem Strung.le (h : Strung lo nodes hi) : lo ≤ hi := by
  induction h with
  | nil h => exact h
  | cons before ordered _ ih => exact Nat.le_trans before (Nat.le_trans ordered ih)

theorem Strung.widen {lo' : Nat} (h : Strung lo nodes hi) (hlo : lo' ≤ lo) : Strung lo' nodes hi := by
  cases h with
  | nil h => exact .nil (Nat.le_trans hlo h)
  | cons before ordered after => exact .cons (Nat.le_trans hlo before) ordered after

theorem Strung.append (h : Strung lo xs mid) (h' : Strung mid ys hi) : Strung lo (xs ++ ys) hi := by
  induction h with
  | nil h => exact h'.widen h
  | cons before ordered _ ih => exact .cons before ordered (ih h')

theorem Strung.of_cons {node : Node} (h : Strung lo (node :: rest) hi) :
    lo ≤ node.loc.span.start ∧ Strung node.loc.span.stop rest hi := by
  cases h with
  | cons before ordered after => exact ⟨before, after⟩

theorem Strung.tail {node : Node} (h : Strung lo (node :: rest) hi) : Strung lo rest hi := by
  cases h with
  | cons before ordered after => exact after.widen (Nat.le_trans before ordered)

theorem Strung.le_of_mem (h : Strung lo nodes hi) (hnode : .mk r first last children ∈ nodes) :
    last.offset ≤ hi := by
  induction h with
  | nil => cases hnode
  | cons _ _ hmore ih =>
    rcases List.mem_cons.mp hnode with heq | hnode
    · cases heq
      exact hmore.le
    · exact ih hnode

theorem Strung.filter (p : Node → Bool) (h : Strung lo nodes hi) : Strung lo (nodes.filter p) hi := by
  induction h with
  | nil h => exact .nil h
  | cons before ordered _ ih =>
    rw [List.filter_cons]
    split
    · exact .cons before ordered ih
    · exact ih.widen (Nat.le_trans before ordered)

namespace Peg

theorem Gives.strung {e : Peg} (h : Gives e cur (some (last, nodes))) :
    Strung cur.offset nodes last.offset := by
  generalize ho : some (last, nodes) = outcome at h
  induction h generalizing last nodes with
  | empty | absent | ahead | noMore | stuck =>
    cases ho
    exact .nil (Nat.le_refl _)
  | text h =>
    cases ho
    exact .nil (Cursor.reads_of_text h).offset_le
  | textAnyCase h =>
    cases ho
    obtain ⟨cs, hreads⟩ := (Gives.textAnyCase h).reads
    exact .nil hreads.offset_le
  | one h =>
    cases ho
    obtain ⟨cs, hreads⟩ := (Gives.one h).reads
    exact .nil hreads.offset_le
  | seq _ _ iha ihb | again _ _ _ iha ihb =>
    cases ho
    exact (iha rfl).append (ihb rfl)
  | alt _ iha =>
    cases ho
    exact iha rfl
  | orElse _ _ _ ihb => exact ihb ho
  | rule h =>
    cases ho
    obtain ⟨cs, hreads⟩ := h.reads
    exact .cons (Nat.le_refl _) hreads.offset_le (.nil (Nat.le_refl _))
  | noText | noTextAnyCase | noOne | noFirst | noSecond | present | notAhead | noRule => cases ho

theorem Gives.matched {e : Peg} (h : Gives e cur (some (last, nodes))) (hc : cur.In source) :
    ∀ node ∈ nodes, node.Matched source := by
  generalize ho : some (last, nodes) = outcome at h
  induction h generalizing last nodes with
  | empty | text | textAnyCase | one | absent | ahead | noMore | stuck =>
    cases ho
    exact fun _ hnode => absurd hnode List.not_mem_nil
  | seq ha _ iha ihb | again ha _ _ iha ihb =>
    cases ho
    obtain ⟨cs, hreads⟩ := ha.reads
    exact List.forall_mem_append.mpr ⟨iha hc rfl, ihb (hc.reads hreads) rfl⟩
  | alt _ iha =>
    cases ho
    exact iha hc rfl
  | orElse _ _ _ ihb => exact ihb hc ho
  | rule h ih =>
    cases ho
    exact List.forall_mem_singleton.mpr (.mk h hc (ih hc rfl))
  | noText | noTextAnyCase | noOne | noFirst | noSecond | present | notAhead | noRule => cases ho

end Peg

theorem Node.Matched.strung (h : (Node.mk r first last children).Matched source) :
    Strung first.offset children last.offset := by
  cases h with
  | mk body start parts => exact body.strung

theorem Node.Matched.start (h : (Node.mk r first last children).Matched source) : first.In source := by
  cases h with
  | mk body start parts => exact start

theorem Node.Matched.parts (h : (Node.mk r first last children).Matched source) :
    ∀ child ∈ children, child.Matched source := by
  cases h with
  | mk body start parts => exact parts

/-! ### Which rules an expression leaves -/

namespace Peg

/-- The rules of the nodes that a match can leave side by side. -/
def rulesIn : Peg → List Rule
  | .rule r => [r]
  | .seq a b | .alt a b => rulesIn a ++ rulesIn b
  | .star e => rulesIn e
  | _ => []

theorem Gives.rule_mem {e : Peg} (h : Gives e cur (some (last, nodes))) :
    ∀ node ∈ nodes, node.rule ∈ rulesIn e := by
  generalize ho : some (last, nodes) = outcome at h
  induction h generalizing last nodes with
  | empty | text | textAnyCase | one | absent | ahead | noMore | stuck =>
    cases ho
    exact fun _ hnode => absurd hnode List.not_mem_nil
  | seq _ _ iha ihb =>
    cases ho
    refine List.forall_mem_append.mpr ⟨fun node hn => ?_, fun node hn => ?_⟩
    · exact List.mem_append_left _ (iha rfl node hn)
    · exact List.mem_append_right _ (ihb rfl node hn)
  | again _ _ _ iha ihb =>
    cases ho
    exact List.forall_mem_append.mpr ⟨iha rfl, ihb rfl⟩
  | alt _ iha =>
    cases ho
    exact fun node hn => List.mem_append_left _ (iha rfl node hn)
  | orElse _ _ _ ihb => exact fun node hn => List.mem_append_right _ (ihb ho node hn)
  | rule =>
    cases ho
    exact List.forall_mem_singleton.mpr (List.mem_singleton_self _)
  | noText | noTextAnyCase | noOne | noFirst | noSecond | present | notAhead | noRule => cases ho

end Peg
end ConfigSandbox
