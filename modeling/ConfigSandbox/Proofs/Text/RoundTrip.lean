import ConfigSandbox.Proofs.Grammar.Literals
import ConfigSandbox.Proofs.Grammar.Search

/-!
# A quoted text is read back as it was

Between the quotes stands what the grammar takes for the content of a string, no more and no less: the
search stops at the closing quote, whatever follows it and wherever in a submission the string stands. What
the escapes in the content stand for is the text that was quoted.
-/
namespace ConfigSandbox

open Peg

variable {m : Char} {cs tail : List Char} {cur : Cursor}

theorem toList_quote (text : String) : (quote text).toList =
    quoteFor text.toList :: text.toList.flatMap (escapeChar (quoteFor text.toList)) ++ [quoteFor text.toList] := by
  rw [quote, String.toList_ofList]

/-- The quoting that has such a quote is made of it. -/
theorem char_quotingOf (hm : m = '"' ∨ m = '\'') : (quotingOf m).char = m := by
  rcases hm with rfl | rfl <;> rfl

theorem quotingOf_cases (hm : m = '"' ∨ m = '\'') : quotingOf m = .single ∨ quotingOf m = .double := by
  rcases hm with rfl | rfl
  · exact Or.inr rfl
  · exact Or.inl rfl

/-- A search for what is read finds it, and stops before what is left. -/
theorem Peg.Takes.run_eq {e : Peg} {P : List Node → Prop} (h : Takes e cs tail P) (hrest : cur.rest = cs ++ tail) :
    ∃ last nodes, cur.Reads cs last ∧ last.rest = tail ∧ ∃ enough, ∀ more att,
      (run (enough + more) e cur att).1 = .matched last nodes := by
  obtain ⟨last, nodes, hgives, hreads, -⟩ := h cur hrest
  refine ⟨last, nodes, hreads, rest_of_reads hrest hreads, e.weight + 4096 * cur.rest.length, fun more att => ?_⟩
  exact hgives.run_eq (Nat.le_add_right _ more) att

/-- A quoted text is a quote, a content and the quote again. Wherever the content stands before such a quote,
it is what the grammar's rule for the content of a string in these quotes matches; and the text is what it
stands for. -/
theorem quote_readsBack (text : String) : ∃ (q : Quoting) (content : List Char),
    (q = .single ∨ q = .double) ∧ (quote text).toList = q.char :: content ++ [q.char] ∧
    unescape content = .ok text.toList ∧
    ∀ (offset line : Nat) (tail : List Char), ∃ last nodes,
      Cursor.Reads ⟨offset, line, content ++ q.char :: tail⟩ content last ∧ last.rest = q.char :: tail ∧
      ∃ enough, ∀ more att, (run (enough + more) (.rule (.stringContent q))
        ⟨offset, line, content ++ q.char :: tail⟩ att).1 = .matched last nodes := by
  have hm := quoteFor_cases text.toList
  refine ⟨quotingOf (quoteFor text.toList), _, quotingOf_cases hm, ?_, unescape_flatMap_escapeChar hm text.toList,
    fun offset line tail => ?_⟩
  · rw [char_quotingOf hm]
    exact toList_quote text
  · rw [char_quotingOf hm]
    exact (takes_stringContent hm (quotable_flatMap_escapeChar hm text.toList)).run_eq rfl

end ConfigSandbox
