import ConfigSandbox.Proofs.Grammar.Phrases
import ConfigSandbox.Proofs.Tree.Printed
import ConfigSandbox.Tree.Literal

/-!
# Literals give back their constants

The digits of a number that is not below zero write that number, and a quoted text is unescaped to itself. In
both cases the text is read by one part of the interpreter and was written by another.
-/
namespace ConfigSandbox

/-! ### Integers -/

theorem isDigit_of_mem_toDigits {n : Nat} : ∀ c ∈ Nat.toDigits 10 n, c.isDigit := fun _ hc =>
  Nat.isDigit_of_mem_toDigits (by decide) (Nat.le_refl 10) hc

theorem digitsValue_toDigits (n : Nat) : digitsValue 10 (Nat.toDigits 10 n) = n := by
  have hstep (digits : List Char) (hdigits : ∀ c ∈ digits, c.isDigit) (start : Nat) :
      digits.foldl (fun n c => n * 10 + digitValue c) start = Nat.ofDigitChars 10 digits start := by
    induction digits generalizing start with
    | nil => rfl
    | cons c rest ih =>
      obtain ⟨hc, hrest⟩ := List.forall_mem_cons.mp hdigits
      have hvalue : digitValue c = c.toNat - '0'.toNat := if_pos hc
      rw [List.foldl_cons, ih hrest, hvalue, Nat.mul_comm]
      rfl
  rw [digitsValue, hstep _ isDigit_of_mem_toDigits, Nat.ofDigitChars_ten_toDigits]

theorem splitBase_of_digits {digits : List Char} (h : ∀ c ∈ digits, c.isDigit) :
    splitBase digits = (10, digits) := by
  unfold splitBase
  split
  all_goals first
    | rfl
    | have hletter := h _ (List.mem_cons_of_mem _ List.mem_cons_self)
      cases hletter

/-- A number that is not below zero as digits. -/
theorem text_int {n : Int64} (h : 0 ≤ n) : ∃ k : Nat, n = Int64.ofNat k ∧ k ≤ 0x7FFFFFFFFFFFFFFF ∧
    (Constant.int n).text.toList = Nat.toDigits 10 k := by
  have hzero : 0 ≤ n.toInt := by
    rw [Int64.le_iff_toInt_le, Int64.toInt_zero] at h
    exact h
  obtain ⟨k, hk⟩ := Int.eq_ofNat_of_zero_le hzero
  have hlt := n.toInt_lt
  refine ⟨k, ?_, by omega, ?_⟩
  · rw [← Int64.ofInt_eq_ofNat, ← hk, Int64.ofInt_toInt]
  · have htext : (Constant.int n).text = toString k := congrArg toString hk
    rw [htext, Nat.toString_eq_ofList_toDigits, String.toList_ofList]

theorem integerOfLiteral?_text {n : Int64} (h : 0 ≤ n) :
    integerOfLiteral? (Constant.int n).text.toList = some n := by
  obtain ⟨k, rfl, hk, htext⟩ := text_int h
  have hplain : withoutUnderscores (Nat.toDigits 10 k) = Nat.toDigits 10 k := by
    refine List.filter_eq_self.mpr fun c hc => bne_iff_ne.mpr ?_
    rintro rfl
    exact Nat.underscore_not_in_toDigits hc
  rw [htext, integerOfLiteral?, hplain, splitBase_of_digits isDigit_of_mem_toDigits]
  dsimp only
  rw [digitsValue_toDigits, if_pos hk]

/-! ### Strings -/

theorem text_str (s : String) : (Constant.str s).text.toList =
    quoteFor s.toList :: (s.toList.flatMap (escapeChar (quoteFor s.toList)) ++ [quoteFor s.toList]) :=
  String.toList_ofList

theorem stringsToExpr_literal {m : Char} {cs text : List Char} {literals : List Node} (loc : Location)
    (h : Peg.LiteralNode m cs literals) (htext : unescape cs = .ok text) :
    stringsToExpr loc literals = .ok (.constant loc (.str (String.ofList text))) := by
  obtain ⟨first, last, _, rfl, -, f, l, _, rfl, hreads, rfl⟩ := h
  have hcontent : Node.text (.mk (.stringContent (Peg.quotingOf m)) f l []) = cs := hreads.textTo_eq
  have hadd : StringParts.none.add [] cs = .ok ⟨text, none, true, false⟩ := by
    rw [StringParts.add, htext]
    rfl
  have hnode : StringParts.none.addNode (.mk .stringLiteral first last
      [.mk (.stringContent (Peg.quotingOf m)) f l []]) = .ok ⟨text, none, true, false⟩ := by
    rw [StringParts.addNode]
    have hbare : ([Node.mk (.stringContent (Peg.quotingOf m)) f l []].find?
        fun part => part.rule == .stringPrefix) = none := rfl
    have hquoted : ([Node.mk (.stringContent (Peg.quotingOf m)) f l []].find?
        fun part => part.rule != .stringPrefix) = some (.mk (.stringContent (Peg.quotingOf m)) f l []) := rfl
    dsimp only [Node.children]
    rw [hbare, hquoted]
    dsimp only [Option.map, Option.getD]
    rw [hcontent]
    rw [List.map_nil, hadd]
  rw [stringsToExpr, List.foldlM_cons, hnode]
  rfl

end ConfigSandbox
