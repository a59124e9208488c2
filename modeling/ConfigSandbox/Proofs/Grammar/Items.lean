import ConfigSandbox.Proofs.Grammar.Operands
import Mathlib.Data.List.Forall2

/-!
# Items inside brackets

Items are separated by a comma and a space. Each of them is read up to the comma or the bracket that follows,
which is all that reading one has to know of the others. Before the alternative that fits, others read the
first item and fail at what comes after it.
-/
namespace ConfigSandbox.Peg

variable {α : Type} {t : α → List Char} {Q : α → Node → Prop} {R S : Node → Prop} {P : List Node → Prop}
variable {cs ds w text tail : List Char} {e : Peg} {xs : List α} {x : α}

/-- Where something stops after it, the text is read as an item, and one node of the given kind is left. -/
structure Item (e : Peg) (cs : List Char) (R : Node → Prop) : Prop where
  opens : ∀ tail, Stops tail → Opens (cs ++ tail)
  takes : ∀ tail, Stops tail → Takes e cs tail (Sole R)

theorem forall₂_of_both {nodes : List Node} (h : Both (Sole (Q x)) (List.Forall₂ Q xs) nodes) :
    List.Forall₂ Q (x :: xs) nodes := by
  obtain ⟨_, ys, rfl, ⟨node, rfl, hnode⟩, hys⟩ := h
  exact .cons hnode hys

/-! ### Commas -/

def closers : List (Option Char) := [some ')', some ']', some '\x7d']

theorem stops_of_comma (h : tail.head? ∈ some ',' :: closers) : Stops tail := by
  have hall : ∀ head ∈ some ',' :: closers, head ∈ stops := by decide
  exact hall _ h

theorem stops_colon : Stops (':' :: text) :=
  have hmem : some ':' ∈ stops := by decide
  hmem

/-- A space is read where no other follows. -/
theorem takes_space (hblank : Refuses blank text) (hcomment : Refuses comment text) :
    Takes blanks [' '] text Silent := by
  have hone : Takes blank [' '] text Silent := Takes.lit.alt
  have hstar : Takes (.star blank) ([' '] ++ []) text Silent :=
    Takes.star_silent hone (List.cons_ne_nil _ _) hblank.star.takes
  exact hstar.before hcomment.seq.star

theorem Opens.space (h : Opens text) : Takes blanks [' '] text Silent :=
  takes_space (h.refuses (by decide) (by decide))
    (h.refuses (by decide) (by decide))

/-- A further item after its comma. -/
def further (e : Peg) : Peg := tokens [lit ",", lines, e, lines]

theorem takes_further (h : Item e cs R) (htail : tail.head? ∈ some ',' :: closers) :
    Takes (further e) (',' :: ' ' :: cs) tail (Sole R) := by
  have hopens := h.opens tail (stops_of_comma htail)
  have hblanks : Skips blanks tail := skips_at _ htail (by decide)
  have hlines : Skips lines tail := skips_at _ htail (by decide)
  have hitem := (h.takes tail (stops_of_comma htail)).before (hblanks.seq hlines)
  exact (((hitem.past hopens.skips_blanks).past hopens.skips_lines).after hopens.space).after Takes.lit

/-- What is written for the items after the first. -/
def furtherText (t : α → List Char) (xs : List α) : List Char := xs.flatMap fun x => ',' :: ' ' :: t x

theorem head_of_further (xs : List α) (htail : tail.head? ∈ closers) :
    (furtherText t xs ++ tail).head? ∈ some ',' :: closers := by
  cases xs with
  | nil => exact List.mem_cons_of_mem _ htail
  | cons x rest => exact List.mem_cons_self

theorem takes_furtherItem (h : Item e (t x) R) (htail : tail.head? ∈ closers) :
    Takes (further e) (',' :: ' ' :: t x) (furtherText t xs ++ tail) (Sole R) :=
  takes_further h (head_of_further xs htail)

theorem refuses_further (htail : tail.head? ∈ closers) : Refuses (further e) tail :=
  (refuses_at closers htail (by decide)).seq

theorem takes_star_further (hxs : ∀ x ∈ xs, Item e (t x) (Q x)) (htail : tail.head? ∈ closers) :
    Takes (.star (.seq blanks (further e))) (furtherText t xs) tail (List.Forall₂ Q xs) := by
  induction xs with
  | nil =>
    have hblanks : Skips blanks tail := skips_at closers htail (by decide)
    have hnone := ((refuses_further (e := e) htail).past hblanks).star
    exact hnone.takes.mono fun _ h => h ▸ .nil
  | cons x rest ih =>
    obtain ⟨hx, hrest⟩ := List.forall_mem_cons.mp hxs
    have hcomma : Skips blanks (',' :: ' ' :: t x ++ (furtherText t rest ++ tail)) :=
      skips_at [some ','] List.mem_cons_self (by decide)
    have hitem := (takes_furtherItem hx htail).past hcomma
    exact (hitem.star (List.cons_ne_nil _ _) (ih hrest)).mono fun _ => forall₂_of_both

theorem takes_many_further (hxs : ∀ x ∈ xs, Item e (t x) (Q x)) (htail : tail.head? ∈ closers) :
    Takes (many (further e)) (furtherText t xs) tail (List.Forall₂ Q xs) := by
  cases xs with
  | nil => exact (refuses_further htail).many.takes.mono fun _ h => h ▸ .nil
  | cons x rest =>
    obtain ⟨hx, hrest⟩ := List.forall_mem_cons.mp hxs
    exact ((takes_furtherItem hx htail).seq (takes_star_further hrest htail)).opt.mono fun _ => forall₂_of_both

/-- What is written for some items. -/
def row (t : α → List Char) (xs : List α) : List Char := [',', ' '].intercalate (xs.map t)

theorem row_cons (x : α) (xs : List α) : row t (x :: xs) = t x ++ furtherText t xs := by
  induction xs generalizing x with
  | nil => simp [row, furtherText]
  | cons y rest ih =>
    have hcons : row t (x :: y :: rest) = t x ++ [',', ' '] ++ row t (y :: rest) :=
      List.intercalate_cons_cons
    rw [hcons, ih]
    simp [furtherText]

theorem takes_itemsWith {last : Peg} (hxs : ∀ y ∈ x :: xs, Item e (t y) (Q y)) (htail : tail.head? ∈ closers)
    (hlast : Skips last tail) :
    Takes (itemsWith e last) (row t (x :: xs)) tail (List.Forall₂ Q (x :: xs)) := by
  obtain ⟨hx, hrest⟩ := List.forall_mem_cons.mp hxs
  have hnext := head_of_further (t := t) xs htail
  have hblanks : Skips blanks tail := skips_at closers htail (by decide)
  have hgap : Skips blanks (furtherText t xs ++ tail) := skips_at _ hnext (by decide)
  have hlines : Skips lines (furtherText t xs ++ tail) := skips_at _ hnext (by decide)
  have hmore := (takes_many_further hrest htail).before (hblanks.seq hlast)
  have hfirst := hx.takes _ (stops_of_comma hnext)
  rw [row_cons]
  exact (hfirst.seq (((hmore.past hgap).past hlines).past hgap)).mono fun _ => forall₂_of_both

/-! ### Brackets -/

theorem takes_spacedBrackets {gap : List Char} {l r : Char} {inner : Peg} (hr : some r ∈ closers)
    (hin : Takes inner cs (r :: tail) P) (hgap : Takes blanks gap (cs ++ r :: tail) Silent)
    (hblanks : Skips blanks (cs ++ r :: tail)) (hlines : Skips lines (cs ++ r :: tail)) :
    Takes (tokens [.text [l], lines, inner, .text [r]]) (l :: (gap ++ (cs ++ [r]))) tail P := by
  have hback : Skips blanks (r :: tail) := skips_at closers hr (by decide)
  have hclose : Takes (.seq blanks (.text [r])) [r] tail Silent := Takes.lit.past hback
  have hbody := hin.close hclose
  rw [← List.singleton_append, ← List.append_assoc] at hblanks hlines hgap
  exact (((hbody.past hblanks).past hlines).after hgap).after Takes.lit

theorem takes_brackets {l r : Char} {inner : Peg} (hr : some r ∈ closers) (hin : Takes inner cs (r :: tail) P)
    (hblanks : Skips blanks (cs ++ r :: tail)) (hlines : Skips lines (cs ++ r :: tail)) :
    Takes (tokens [.text [l], lines, inner, .text [r]]) (l :: (cs ++ [r])) tail P :=
  takes_spacedBrackets hr hin hblanks.takes hblanks hlines

theorem takes_noItems {l r : Char} {body : Peg} (hr : some r ∈ closers) (hbody : Refuses body (r :: tail)) :
    Takes (tokens [.text [l], lines, opt body, .text [r]]) [l, r] tail (List.Forall₂ Q []) := by
  have hnone : Takes (opt body) [] (r :: tail) (List.Forall₂ Q []) :=
    hbody.opt.takes.mono fun _ h => h ▸ .nil
  exact takes_brackets hr hnone (skips_at closers hr (by decide))
    (skips_at closers hr (by decide))

theorem takes_someItems {l r : Char} {body : Peg} (hr : some r ∈ closers)
    (hxs : ∀ y ∈ x :: xs, Item e (t y) (Q y)) (hbody : Takes body (row t (x :: xs)) (r :: tail) P) :
    Takes (tokens [.text [l], lines, opt body, .text [r]]) (l :: (row t (x :: xs) ++ [r])) tail P := by
  have hopens : Opens (row t (x :: xs) ++ r :: tail) := by
    rw [row_cons, List.append_assoc]
    exact (hxs x List.mem_cons_self).opens _ (stops_of_comma (head_of_further xs hr))
  exact takes_brackets hr hbody.opt hopens.skips_blanks hopens.skips_lines

/-- No comprehension begins after the first item. -/
theorem refuses_comprehension (h : Item e (t x) R) (htail : tail.head? ∈ closers) :
    Refuses (tokens [e, .rule .comprehensionFor]) (row t (x :: xs) ++ tail) := by
  have hnext := head_of_further (t := t) xs htail
  have hblanks : Skips blanks (furtherText t xs ++ tail) := skips_at _ hnext (by decide)
  have hfor : Refuses (.rule .comprehensionFor) (furtherText t xs ++ tail) :=
    refuses_at _ hnext (by decide)
  rw [row_cons, List.append_assoc]
  exact (hfor.past hblanks).after (h.takes _ (stops_of_comma hnext))

/-! ### Expressions -/

/-- A text that is read as an expression, and as no keyword of a call. -/
structure Phrase (cs : List Char) (R : Node → Prop) : Prop extends Item test cs R where
  unnamed : ∀ tail, Stops tail → Refuses (.rule .keywordArgument) (cs ++ tail)

theorem Phrase.starTest (h : Phrase cs R) : Item starTest cs R :=
  ⟨h.opens, fun tail htail => (h.takes tail htail).orElse
    ((h.opens tail htail).refuses (by decide) (by decide))⟩

theorem Phrase.argument (h : Phrase cs R) : Item callArgument cs R := by
  refine ⟨h.opens, fun tail htail => ?_⟩
  have hopens := h.opens tail htail
  have hdouble : Refuses (.rule .doubleStarred) (cs ++ tail) :=
    hopens.refuses (by decide) (by decide)
  have hstarred : Refuses (.rule .starred) (cs ++ tail) :=
    hopens.refuses (by decide) (by decide)
  exact (((h.takes tail htail).orElse hstarred).orElse hdouble).orElse (h.unnamed tail htail)

theorem takes_list (hxs : ∀ y ∈ xs, Phrase (t y) (Q y)) :
    Takes (.rule .list) ('[' :: (row t xs ++ [']'])) tail
      (Single .list ('[' :: (row t xs ++ [']'])) (List.Forall₂ Q xs)) := by
  have hr : some ']' ∈ closers := by decide
  have hclose : (']' :: tail).head? ∈ closers := hr
  refine Takes.rule ?_
  cases xs with
  | nil => exact takes_noItems hr (refuses_at [some ']'] List.mem_cons_self (by decide))
  | cons x rest =>
    have hitems := fun y hy => (hxs y hy).starTest
    have hlast : Skips (opt (.rule .trailingComma)) (']' :: tail) := skips_at closers hclose (by decide)
    have hbody : Takes sequenceBody (row t (x :: rest)) (']' :: tail) (List.Forall₂ Q (x :: rest)) :=
      (takes_itemsWith hitems hclose hlast).orElse
        (refuses_comprehension (hxs x List.mem_cons_self).toItem hclose)
    have hgap : Skips (.seq blanks lines) (']' :: tail) := skips_at closers hclose (by decide)
    exact takes_someItems hr hitems (hbody.before hgap)

/-- What is written for an entry of a dict. -/
def pairText (ks vs : List Char) : List Char := ks ++ ':' :: ' ' :: vs

/-- The node of an entry with a key and a value of the given kinds. -/
def PairNode (R S : Node → Prop) (node : Node) : Prop :=
  ∃ first last key value, node = .mk .dictItem first last [key, value] ∧ R key ∧ S value

theorem dictItem (hk : Phrase cs R) (hv : Phrase ds S) :
    Item (.rule .dictItem) (pairText cs ds) (PairNode R S) := by
  refine ⟨fun tail _ => ?_, fun tail htail => ?_⟩
  · rw [pairText, List.append_assoc]
    exact hk.opens _ stops_colon
  · have hopens := hv.opens tail htail
    have hcolon : Skips blanks (':' :: ' ' :: ds ++ tail) :=
      skips_at [some ':'] List.mem_cons_self (by decide)
    have hvalue : Takes (tokens [lines, test]) ds tail (Sole S) :=
      ((hv.takes tail htail).past hopens.skips_blanks).past hopens.skips_lines
    have hrest : Takes (tokens [lit ":", lines, test]) (':' :: ' ' :: ds) tail (Sole S) :=
      (hvalue.after hopens.space).after Takes.lit
    have hentry : Takes Rule.dictItem.body (pairText cs ds) tail (Both (Sole R) (Sole S)) :=
      (hk.takes (':' :: ' ' :: ds ++ tail) stops_colon).seq (hrest.past hcolon)
    refine hentry.rule.mono ?_
    rintro _ ⟨first, last, _, rfl, -, _, _, rfl, ⟨key, rfl, hR⟩, value, rfl, hS⟩
    exact ⟨_, rfl, first, last, key, value, rfl, hR, hS⟩

theorem takes_dict {k v : α → List Char} {K V : α → Node → Prop}
    (hxs : ∀ y ∈ xs, Phrase (k y) (K y) ∧ Phrase (v y) (V y)) :
    Takes (.rule .brace) ('\x7b' :: (row (fun y => pairText (k y) (v y)) xs ++ ['\x7d'])) tail
      (Single .brace ('\x7b' :: (row (fun y => pairText (k y) (v y)) xs ++ ['\x7d']))
        (List.Forall₂ (fun y => PairNode (K y) (V y)) xs)) := by
  have hr : some '\x7d' ∈ closers := by decide
  have hclose : ('\x7d' :: tail).head? ∈ closers := hr
  refine Takes.rule ?_
  cases xs with
  | nil => exact takes_noItems hr (refuses_at [some '\x7d'] List.mem_cons_self (by decide))
  | cons x rest =>
    have hentries := fun y hy => dictItem (hxs y hy).1 (hxs y hy).2
    have hitems : ∀ y ∈ x :: rest, Item (choice [.rule .dictItem, .rule .dictUnpack])
        (pairText (k y) (v y)) (PairNode (K y) (V y)) :=
      fun y hy => ⟨(hentries y hy).opens, fun tail htail => ((hentries y hy).takes tail htail).alt⟩
    have hlast : Skips (opt (lit ",")) ('\x7d' :: tail) := skips_at closers hclose (by decide)
    have hbody : Takes braceBody (row (fun y => pairText (k y) (v y)) (x :: rest)) ('\x7d' :: tail)
        (List.Forall₂ (fun y => PairNode (K y) (V y)) (x :: rest)) :=
      (takes_itemsWith hitems hclose hlast).alt.orElse
        (refuses_comprehension (hentries x List.mem_cons_self) hclose)
    have hgap : Skips (.seq blanks lines) ('\x7d' :: tail) := skips_at closers hr (by decide)
    exact takes_someItems hr hitems (hbody.before hgap)

/-- No colon follows an item of a set. -/
theorem refuses_dictItem (h : Phrase (t x) R) (htail : tail.head? ∈ closers) :
    Refuses (.rule .dictItem) (row t (x :: xs) ++ tail) := by
  have hnext := head_of_further (t := t) xs htail
  have hblanks : Skips blanks (furtherText t xs ++ tail) := skips_at _ hnext (by decide)
  have hcolon : Refuses (lit ":") (furtherText t xs ++ tail) := refuses_at _ hnext (by decide)
  rw [row_cons, List.append_assoc]
  have hentry : Refuses Rule.dictItem.body (t x ++ (furtherText t xs ++ tail)) :=
    (hcolon.seq.past hblanks).after (h.takes _ (stops_of_comma hnext))
  exact hentry.rule

theorem takes_set (hxs : ∀ y ∈ x :: xs, Phrase (t y) (Q y)) :
    Takes (.rule .brace) ('\x7b' :: (row t (x :: xs) ++ ['\x7d'])) tail
      (Single .brace ('\x7b' :: (row t (x :: xs) ++ ['\x7d'])) (List.Forall₂ Q (x :: xs))) := by
  have hr : some '\x7d' ∈ closers := by decide
  have hclose : ('\x7d' :: tail).head? ∈ closers := hr
  have hx := hxs x List.mem_cons_self
  have hitems := fun y hy => (hxs y hy).starTest
  have hlast : Skips (opt (lit ",")) ('\x7d' :: tail) := skips_at closers hr (by decide)
  have hentry : Refuses (.rule .dictItem) (row t (x :: xs) ++ '\x7d' :: tail) := refuses_dictItem hx hclose
  have hunpack : Refuses (.rule .dictUnpack) (row t (x :: xs) ++ '\x7d' :: tail) := by
    rw [row_cons, List.append_assoc]
    exact (hx.opens _ (stops_of_comma (head_of_further xs hclose))).refuses (by decide) (by decide)
  have hbody : Takes braceBody (row t (x :: xs)) ('\x7d' :: tail) (List.Forall₂ Q (x :: xs)) :=
    (((takes_itemsWith hitems hclose hlast).orElse (refuses_comprehension hx.toItem hclose)).orElse
      (hentry.alt hunpack).seq).orElse hentry.seq
  have hgap : Skips (.seq blanks lines) ('\x7d' :: tail) := skips_at closers hr (by decide)
  exact Takes.rule (takes_someItems hr hitems (hbody.before hgap))

/-! ### Calls -/

/-- The node of a keyword with a value of the given kind. -/
def KeywordNode (w : List Char) (R : Node → Prop) (node : Node) : Prop :=
  ∃ first last name value, node = .mk .keywordArgument first last [name, value] ∧ name.text = w ∧ R value

theorem keywordItem (hw : isName w) (hv : Phrase cs R) :
    Item callArgument (w ++ '=' :: cs) (KeywordNode w R) := by
  refine ⟨fun tail _ => ?_, fun tail htail => ?_⟩
  · rw [List.append_assoc]
    exact (opens_name hw rfl).opens
  · have hopens := hv.opens tail htail
    have hbreaks : breaksWord ('=' :: cs ++ tail) := rfl
    have hgap : Skips blanks ('=' :: cs ++ tail) := skips_at [some '='] List.mem_cons_self (by decide)
    have hequals : Refuses (lit "=") (cs ++ tail) := hopens.refuses (by decide) (by decide)
    have hsign : Takes assignSign ['='] (cs ++ tail) Silent :=
      Takes.lit.before (hopens.skips_blanks.seq fun cur hrest => .absent (hequals cur hrest))
    have hvalue : Takes (tokens [assignSign, test]) ('=' :: cs) tail (Sole R) :=
      ((hv.takes tail htail).past hopens.skips_blanks).after hsign
    have hkeyword : Takes Rule.keywordArgument.body (w ++ '=' :: cs) tail
        (Both (Single .identifier w Silent) (Sole R)) :=
      (takes_identifier hw hbreaks).seq (hvalue.past hgap)
    refine hkeyword.rule.alt.mono ?_
    rintro _ ⟨first, last, _, rfl, -, _, _, rfl, ⟨f, l, _, rfl, hreads, rfl⟩, value, rfl, hR⟩
    exact ⟨_, rfl, first, last, _, value, rfl, hreads.textTo_eq, hR⟩

theorem takes_call (hxs : ∀ y ∈ xs, Item callArgument (t y) (Q y)) :
    Takes (.rule .call) ('(' :: (row t xs ++ [')'])) tail
      (Single .call ('(' :: (row t xs ++ [')'])) (List.Forall₂ Q xs)) := by
  have hr : some ')' ∈ closers := by decide
  have hclose : (')' :: tail).head? ∈ closers := hr
  refine Takes.rule ?_
  cases xs with
  | nil => exact takes_noItems hr (refuses_at [some ')'] List.mem_cons_self (by decide))
  | cons x rest =>
    have hlast : Skips (opt (tokens [lit ",", lines])) (')' :: tail) := skips_at closers hclose (by decide)
    have hbody : Takes (itemsWith callArgument (opt (tokens [lit ",", lines]))) (row t (x :: rest))
        (')' :: tail) (List.Forall₂ Q (x :: rest)) := takes_itemsWith hxs hclose hlast
    exact takes_someItems hr hxs hbody

end ConfigSandbox.Peg
