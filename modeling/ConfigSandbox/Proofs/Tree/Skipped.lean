import ConfigSandbox.Proofs.Grammar.Lexical
import ConfigSandbox.Proofs.Tree.Nesting

/-!
# Where the scan and the grammar agree on strings and comments

The scan ends a comment at a line feed and nowhere else, the grammar at a carriage return too. The scan
takes any three quotes in a row for the opening of a text, the grammar only if three more close it. And
the scan looks for quotes in the part of a line that the grammar does not read. Where none of these can
mislead it, the scan passes over a string, a comment or a reserved statement as the grammar does.
-/
namespace ConfigSandbox

open Nesting

/-- Every carriage return stands before a line feed. -/
def returnsEndLines : List Char → Bool
  | [] => true
  | c :: rest => (c ≠ '\r' || rest.head? = some '\n') && returnsEndLines rest

theorem returnsEndLines_of_append {cs more : List Char} (h : returnsEndLines (cs ++ more)) :
    returnsEndLines more := by
  induction cs with
  | nil => exact h
  | cons c cs ih =>
    rw [List.cons_append, returnsEndLines, Bool.and_eq_true] at h
    exact ih h.2

theorem returnsEndLines_of_reads {first last : Cursor} {cs : List Char} (h : first.Reads cs last)
    (hreturns : returnsEndLines first.rest) : returnsEndLines last.rest :=
  returnsEndLines_of_append (h.rest_eq ▸ hreturns)

/-- Whether a node can mislead the scan: by quotes in the part of a line that the grammar does not read,
or as an empty string that another quote follows. -/
def Node.misleads : Node → Bool
  | .mk .reservedStatement first last _ => (first.textTo last).any isMark
  | .mk (.stringContent q) first last _ =>
    !q.isTriple && (first.textTo last).isEmpty && [q.char, q.char].isPrefixOf last.rest
  | _ => false

theorem Quoting.isMark_char (q : Quoting) : isMark q.char := by
  cases q <;> rfl

namespace Nesting

variable {first last cur : Cursor} {nodes : List Node} {n : Nesting} {cs : List Char} {m : Char}
  {triple : Bool} {l : Nat}

/-! ### Comments -/

theorem scanAt_comment_reads (h : cur.Reads cs last) (hline : '\n' ∉ cs) :
    scanAt .comment cur n = scanAt .comment last n := by
  induction h with
  | nothing cur => rfl
  | char hc _ ih =>
    rw [List.mem_cons, not_or] at hline
    rw [scanAt_comment hc (Ne.symm hline.1)]
    exact ih hline.2

theorem isLineEnd_of_readsLine (h : Peg.ReadsLine cur last) (hreturns : returnsEndLines last.rest) :
    IsLineEnd last.rest := by
  obtain hend | ⟨rest, hend | hend⟩ := h.ends
  · exact Or.inl hend
  · exact Or.inr (Or.inl ⟨rest, hend⟩)
  · rw [hend, returnsEndLines, Bool.and_eq_true] at hreturns
    obtain ⟨more, rfl⟩ : ∃ more, rest = '\n' :: more := by
      simpa [List.head?_eq_some_iff] using hreturns.1
    exact Or.inr (Or.inr ⟨more, hend⟩)

theorem scanAt_of_comment (h : Peg.Gives Peg.comment first (some (last, nodes)))
    (hreturns : returnsEndLines last.rest) : scanAt .code first n = scanAt .code last n := by
  have h : Peg.Gives (.seq (.text ['#']) Peg.restOfLine) first (some (last, nodes)) := h
  cases h with
  | seq hhash hline =>
    obtain ⟨rest, hrest, rfl⟩ := hhash.char
    have hline := hline.restOfLine
    obtain ⟨cs, hreads, hfeed⟩ := hline.reads
    rw [scanAt_hash hrest, scanAt_comment_reads hreads hfeed]
    exact scanAt_comment_end (isLineEnd_of_readsLine hline hreturns)

/-! ### Strings -/

theorem scanAt_unit (hm : isMark m) (h : Peg.ReadsUnit m triple cur last) (hne : last.rest ≠ []) :
    scanAt (.quoted m triple) cur n = scanAt (.quoted m triple) last n := by
  obtain ⟨c, rest, hc, rfl⟩ | ⟨c, rest, hc, rfl, hescape, hmark, hline⟩ := h
  · exact scanAt_escape hc
  · exact scanAt_quoted hm hc (hescape hne) hne hmark hline

theorem scanAt_units (hm : isMark m) (h : Relation.ReflTransGen (Peg.ReadsUnit m triple) cur last)
    (hne : last.rest ≠ []) : cur.rest ≠ [] ∧
      scanAt (.quoted m triple) cur n = scanAt (.quoted m triple) last n := by
  induction h using Relation.ReflTransGen.head_induction_on with
  | refl => exact ⟨hne, rfl⟩
  | head hunit _ ih =>
    refine ⟨?_, (scanAt_unit hm hunit ih.1).trans ih.2⟩
    obtain ⟨c, rest, hc, -⟩ | ⟨c, rest, hc, -⟩ := hunit <;> simp [hc]

/-- A text in single quotes does not begin with two of them, unless it is empty and the second is
followed by a third. -/
theorem not_two_marks {q : Quoting} (hq : q.isTriple = false)
    (h : Relation.ReflTransGen (Peg.ReadsUnit q.char q.isTriple) cur last) {xs : List Node}
    (hclear : ¬ (Node.mk (.stringContent q) cur last xs).misleads) :
    ¬ [q.char, q.char] <+: cur.rest := by
  intro htwo
  obtain rfl | ⟨mid, hunit, -⟩ := h.cases_head
  · have htext : cur.textTo cur = [] := (Cursor.Reads.nothing cur).textTo_eq
    apply hclear
    rw [Node.misleads, hq, htext, List.isPrefixOf_iff_prefix.mpr htwo]
    rfl
  · obtain ⟨more, hmore⟩ := htwo
    obtain ⟨c, rest, hc, -⟩ | ⟨c, rest, hc, -, -, hmark, -⟩ := hunit
    · rw [hc] at hmore
      cases q <;> cases hmore
    · rw [hc] at hmore
      cases hmore
      rw [hq] at hmark
      cases (hmark rfl).1

theorem scanAt_of_quoted (n : Nesting) {q : Quoting} (h : Peg.Gives (Peg.quoted q) first (some (last, nodes)))
    (hclear : ∀ node ∈ nodes, ¬ node.misleads) : (scanAt .code first n = scanAt .code last n) ∧
      ∃ a b, nodes = [.mk (.stringContent q) a b []] := by
  have hm := q.isMark_char
  rw [Peg.quoted_eq] at h
  obtain ⟨start, xs, ys, hopen, htail, hnodes⟩ := h.of_seq
  obtain ⟨stop, us, vs, hrule, hclose, hys⟩ := htail.of_seq
  obtain ⟨children, hcontent, hus⟩ := hrule.of_rule
  have hxs : xs = [] := hopen.nodes_eq_nil rfl
  have hvs : vs = [] := hclose.nodes_eq_nil rfl
  have hchildren : children = [] := hcontent.nodes_eq_nil (by cases q <;> rfl)
  subst hnodes hys hus hxs hvs hchildren
  refine ⟨?_, start, stop, rfl⟩
  have hcontentClear := hclear _ (List.mem_singleton_self _)
  have hunits := hcontent.quotedContent
  have hopen := hopen.text_reads
  have hclose := hclose.text_reads
  have hne : stop.rest ≠ [] := by
    rw [hclose.rest_eq]
    cases q <;> simp [Quoting.marks, Quoting.isTriple]
  obtain ⟨hstart, hscan⟩ := scanAt_units hm hunits hne
  cases hq : q.isTriple with
  | true =>
    rw [Quoting.marks, if_pos hq] at hopen hclose
    rw [hq] at hscan
    rw [scanAt_triple hm hopen, hscan, scanAt_triple_end hm hclose]
  | false =>
    rw [Quoting.marks, if_neg (by simp [hq])] at hopen hclose
    rw [hq] at hscan
    obtain ⟨rest, hrest, rfl⟩ := hopen.one
    obtain ⟨more, hmore, rfl⟩ := hclose.one
    rw [scanAt_mark hm hrest hstart (not_two_marks hq hunits hcontentClear), hscan,
      scanAt_quoted_end hm hmore]

/-! ### Reserved statements -/

/-- Outside strings the scan stays on level one at least, and can come to a comment. -/
theorem scanAt_unquoted {mode : Mode} (h : cur.Reads cs last) (hq : ∀ c ∈ cs, ¬ isMark c)
    (hmode : mode = .code ∨ mode = .comment) (hn : n.AtLeast 1) :
    ∃ mode' n', scanAt mode cur n = scanAt mode' last n' ∧ (mode' = .code ∨ mode' = .comment) ∧
      n'.AtLeast 1 := by
  induction h generalizing mode n with
  | nothing cur => exact ⟨mode, n, rfl, hmode, hn⟩
  | @char cur last c rest cs hc _ ih =>
    have hmark := hq c List.mem_cons_self
    have hrest : ∀ c ∈ cs, ¬ isMark c := fun c' hc' => hq c' (List.mem_cons_of_mem _ hc')
    rcases hmode with rfl | rfl
    · by_cases hp : isPlain c
      · rw [scanAt_plain hc hp]
        exact ih hrest (Or.inl rfl) hn
      by_cases ho : isOpening c
      · rw [scanAt_opening hc ho]
        exact ih hrest (Or.inl rfl) ((hn.enter _ _).mono (by decide))
      by_cases hl : isClosing c
      · rw [scanAt_closing hc hl]
        exact ih hrest (Or.inl rfl) (hn.leave (Nat.le_refl 1))
      obtain rfl : c = '#' := by simpa [isPlain, hmark, ho, hl] using hp
      rw [scanAt_hash hc]
      exact ih hrest (Or.inr rfl) hn
    · by_cases hline : c = '\n'
      · subst hline
        rw [scanAt_comment_newline hc]
        exact ih hrest (Or.inl rfl) hn
      · rw [scanAt_comment hc hline]
        exact ih hrest (Or.inr rfl) hn

theorem scanAt_of_reserved (h : Peg.Gives Rule.reservedStatement.body first (some (last, nodes)))
    (hclear : ¬ (Node.mk .reservedStatement first last nodes).misleads)
    (hreturns : returnsEndLines last.rest) (hn : n.AtLeast 1) :
    (∃ n', scanAt .code first n = scanAt .code last n' ∧ n'.AtLeast 1) ∧
      ∃ a b, nodes = [.mk .reservedWord a b []] := by
  obtain ⟨cs, hreads⟩ := h.reads
  have hq : ∀ c ∈ cs, ¬ isMark c := by
    rw [Node.misleads, hreads.textTo_eq] at hclear
    simpa using hclear
  obtain ⟨start, xs, ys, hword, hrest, rfl⟩ := h.of_seq
  obtain ⟨children, hbody, rfl⟩ := hword.of_rule
  obtain ⟨_, us, vs, habsent, hline, rfl⟩ := hrest.of_seq
  have hchildren : children = [] := hbody.nodes_eq_nil (by decide)
  have hus : us = [] := habsent.nodes_eq_nil rfl
  have hvs : vs = [] := hline.nodes_eq_nil rfl
  subst hchildren hus hvs
  refine ⟨?_, first, start, rfl⟩
  obtain ⟨mode, n', hscan, hmode, hn'⟩ := scanAt_unquoted hreads hq (Or.inl rfl) hn
  rcases hmode with rfl | rfl
  · exact ⟨n', hscan, hn'⟩
  · refine ⟨n', hscan.trans (scanAt_comment_end ?_), hn'⟩
    exact isLineEnd_of_readsLine hline.restOfLine hreturns

end Nesting
end ConfigSandbox
