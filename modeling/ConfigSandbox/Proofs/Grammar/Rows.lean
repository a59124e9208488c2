import Mathlib.Computability.Language
import ConfigSandbox.Proofs.Grammar.Matched

/-!
# Rows of nodes

Which rules a match leaves side by side, and in which order, is told by a regular language that is read
off the expression. Ordered choice and lookahead may keep some of its rows from occurring; no others
occur. The combinators for tokens are seen through here, so a row is read off a rule as it is written.
-/
namespace ConfigSandbox

namespace Peg

open scoped Computability

variable {cur last : Cursor} {nodes : List Node} {rs : List Rule}

/-- One of some rules, by itself. -/
def oneOf (rules : List Rule) : Language Rule := {rs | ∃ r ∈ rules, rs = [r]}

theorem mem_oneOf {rules : List Rule} : rs ∈ oneOf rules ↔ ∃ r ∈ rules, rs = [r] := Iff.rfl

/-- The rows of rules that a match can leave. -/
def rows : Peg → Language Rule
  | .rule r => oneOf [r]
  | .seq a b => rows a * rows b
  | .alt a b => rows a + rows b
  | .star e => (rows e)∗
  | _ => 1

theorem Gives.mem_rows {e : Peg} (h : Gives e cur (some (last, nodes))) :
    nodes.map Node.rule ∈ rows e := by
  generalize ho : some (last, nodes) = outcome at h
  induction h generalizing last nodes with
  | empty | text | textAnyCase | one | absent | ahead =>
    cases ho
    exact Language.nil_mem_one
  | noMore | stuck =>
    cases ho
    exact Language.nil_mem_kstar _
  | seq _ _ iha ihb =>
    cases ho
    rw [List.map_append]
    exact Language.append_mem_mul (iha rfl) (ihb rfl)
  | again _ _ _ ihe ihs =>
    cases ho
    rw [List.map_append, rows, ← Language.one_add_self_mul_kstar_eq_kstar]
    exact Or.inr (Language.append_mem_mul (ihe rfl) (ihs rfl))
  | alt _ iha =>
    cases ho
    exact Or.inl (iha rfl)
  | orElse _ _ _ ihb => exact Or.inr (ihb ho)
  | rule =>
    cases ho
    exact mem_oneOf.mpr ⟨_, List.mem_singleton_self _, rfl⟩
  | noText | noTextAnyCase | noOne | noFirst | noSecond | present | notAhead | noRule => cases ho

/-! ### Combinators -/

theorem rows_of_isSilent {e : Peg} (h : isSilent e) : rows e = 1 := by
  induction e with
  | rule r => cases h
  | seq a b iha ihb =>
    rw [isSilent, Bool.and_eq_true] at h
    rw [rows, iha h.1, ihb h.2, one_mul]
  | alt a b iha ihb =>
    rw [isSilent, Bool.and_eq_true] at h
    rw [rows, iha h.1, ihb h.2, Language.add_self]
  | star e ih => rw [rows, ih h, kstar_one]
  | _ => rfl

@[simp]
theorem rows_blanks : rows blanks = 1 := rows_of_isSilent (by decide)

@[simp]
theorem rows_lines : rows lines = 1 := rows_of_isSilent (by decide)

@[simp]
theorem rows_opt (e : Peg) : rows (opt e) = rows e + 1 := rfl

@[simp]
theorem rows_many (e : Peg) : rows (many e) = (rows e)∗ := by
  rw [many, rows_opt, rows, rows, rows, rows_blanks, one_mul, add_comm,
    Language.one_add_self_mul_kstar_eq_kstar]

@[simp]
theorem rows_tokens_one (e : Peg) : rows (tokens [e]) = rows e := rfl

@[simp]
theorem rows_tokens_cons (e e' : Peg) (rest : List Peg) :
    rows (tokens (e :: e' :: rest)) = rows e * rows (tokens (e' :: rest)) := by
  rw [tokens, rows, rows, rows_blanks, one_mul]
  rintro ⟨⟩

@[simp]
theorem rows_rule (r : Rule) : rows (.rule r) = oneOf [r] := rfl

@[simp]
theorem rows_lit (s : String) : rows (lit s) = 1 := rfl

/-- Whether every match leaves exactly one node. -/
def isSingle : Peg → Bool
  | .rule _ => true
  | .alt a b => isSingle a && isSingle b
  | _ => false

theorem rows_of_isSingle {e : Peg} (h : isSingle e) : rows e = oneOf (rulesIn e) := by
  induction e with
  | rule r => rfl
  | alt a b iha ihb =>
    rw [isSingle, Bool.and_eq_true] at h
    ext rs
    rw [rows, iha h.1, ihb h.2, Language.mem_add, mem_oneOf, mem_oneOf, mem_oneOf]
    simp only [rulesIn, List.mem_append, or_and_right, exists_or]
  | _ => cases h

theorem mem_rulesIn_of_rows {e : Peg} (h : rs ∈ rows e) : ∀ r ∈ rs, r ∈ rulesIn e := by
  induction e generalizing rs with
  | rule r =>
    obtain ⟨r', hr', rfl⟩ := mem_oneOf.mp h
    exact List.forall_mem_singleton.mpr hr'
  | seq a b iha ihb =>
    obtain ⟨xs, hx, ys, hy, rfl⟩ := Language.mem_mul.mp h
    exact List.forall_mem_append.mpr ⟨fun r hr => List.mem_append_left _ (iha hx r hr),
      fun r hr => List.mem_append_right _ (ihb hy r hr)⟩
  | alt a b iha ihb =>
    rcases h with h | h
    · exact fun r hr => List.mem_append_left _ (iha h r hr)
    · exact fun r hr => List.mem_append_right _ (ihb h r hr)
  | star e ih =>
    obtain ⟨parts, rfl, hparts⟩ := Language.mem_kstar.mp h
    intro r hr
    obtain ⟨part, hpart, hr⟩ := List.mem_flatten.mp hr
    exact ih (hparts part hpart) r hr
  | _ =>
    rw [(Language.mem_one rs).mp h]
    exact List.forall_mem_nil _

/-! ### The nodes of a row -/

/-- Nodes whose rules are a row of the language. -/
def Row (L : Language Rule) (nodes : List Node) : Prop := nodes.map Node.rule ∈ L

variable {L M : Language Rule}

theorem Row.empty (h : Row 1 nodes) : nodes = [] := List.map_eq_nil_iff.mp h

theorem Row.either (h : Row (L + M) nodes) : Row L nodes ∨ Row M nodes := h

theorem Row.split (h : Row (L * M) nodes) :
    ∃ xs ys, nodes = xs ++ ys ∧ Row L xs ∧ Row M ys := by
  obtain ⟨rs, hrs, rs', hrs', he⟩ := Language.mem_mul.mp h
  obtain ⟨xs, ys, rfl, rfl, rfl⟩ := List.map_eq_append_iff.mp he.symm
  exact ⟨xs, ys, rfl, hrs, hrs'⟩

theorem Row.one {rules : List Rule} (h : Row (oneOf rules) nodes) :
    ∃ node, nodes = [node] ∧ node.rule ∈ rules := by
  obtain ⟨r, hr, he⟩ := mem_oneOf.mp h
  obtain ⟨node, rfl, rfl⟩ := List.map_eq_singleton_iff.mp he
  exact ⟨node, rfl, hr⟩

theorem Row.rule_mem {e : Peg} (h : Row (rows e) nodes) : ∀ node ∈ nodes, node.rule ∈ rulesIn e :=
  fun _ hn => mem_rulesIn_of_rows h _ (List.mem_map_of_mem hn)

/-- The first of a row that begins with one of some rules. -/
theorem Row.first {rules : List Rule} (h : Row (oneOf rules * L) nodes) :
    ∃ node rest, nodes = node :: rest ∧ node.rule ∈ rules ∧ Row L rest := by
  obtain ⟨xs, rest, rfl, hx, hrest⟩ := h.split
  obtain ⟨node, rfl, hr⟩ := hx.one
  exact ⟨node, rest, rfl, hr, hrest⟩

end Peg

theorem Node.Matched.row {source : String} {r : Rule} {first last : Cursor} {children : List Node}
    (h : (Node.mk r first last children).Matched source) : Peg.Row (Peg.rows r.body) children := by
  cases h with
  | mk body start parts => exact body.mem_rows

end ConfigSandbox
