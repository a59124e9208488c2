import ConfigSandbox.Proofs.Tree.Guard
import ConfigSandbox.Proofs.Tree.ReadBack

/-!
# The bracket scan of canonical text

Over the text of an expression the scan goes no deeper than the brackets of the expression nest, and comes
back to the level that it was on. What stands between quotes is passed: neither the quote nor a line end is
written there without a backslash.
-/
namespace ConfigSandbox

namespace Nesting

variable {cs ds tail : List Char} {k : Nat} {m l r : Char} {cur : Cursor} {n : Nesting}

/-- Over `cs`, with `tail` after it, the scan goes at most so many levels down and comes back. -/
def Passes (k : Nat) (cs tail : List Char) : Prop :=
  ∀ cur n, cur.rest = cs ++ tail → 1 ≤ n.level → ∃ last n', cur.Reads cs last ∧
    scanAt .code cur n = scanAt .code last n' ∧ n'.level = n.level ∧
    n'.deepest ≤ max n.deepest (n.level + k)

theorem Passes.nil : Passes k [] tail :=
  fun cur n _ _ => ⟨cur, n, .nothing cur, rfl, rfl, Nat.le_max_left _ _⟩

theorem Passes.append (h : Passes k cs (ds ++ tail)) (h' : Passes k ds tail) : Passes k (cs ++ ds) tail := by
  intro cur n hrest hlevel
  rw [List.append_assoc] at hrest
  obtain ⟨mid, n', hmid, hscan, hlevel', hdeepest⟩ := h cur n hrest hlevel
  have hmore : mid.rest = ds ++ tail := Peg.rest_of_reads hrest hmid
  obtain ⟨last, n'', hlast, hscan', hlevel'', hdeepest'⟩ := h' mid n' hmore (hlevel' ▸ hlevel)
  refine ⟨last, n'', hmid.append hlast, hscan.trans hscan', hlevel''.trans hlevel', ?_⟩
  omega

theorem Passes.cons {c : Char} (hc : isPlain c) (h : Passes k cs tail) : Passes k (c :: cs) tail := by
  intro cur n hrest hlevel
  obtain ⟨last, n', hreads, hscan, hmore⟩ := h (cur.past c (cs ++ tail)) n rfl hlevel
  exact ⟨last, n', .char hrest hreads, (scanAt_plain hrest hc).trans hscan, hmore⟩

theorem Passes.plain (hcs : ∀ c ∈ cs, isPlain c) : Passes k cs tail := by
  induction cs with
  | nil => exact .nil
  | cons c cs ih =>
    obtain ⟨hc, hcs⟩ := List.forall_mem_cons.mp hcs
    exact .cons hc (ih hcs)

theorem Passes.brackets (hl : isOpening l) (hr : isClosing r) (h : Passes k cs (r :: tail)) :
    Passes (1 + k) (l :: (cs ++ [r])) tail := by
  intro cur n hrest hlevel
  have hbody : (cur.past l (cs ++ r :: tail)).rest = cs ++ r :: tail := rfl
  have hopen : cur.rest = l :: (cs ++ r :: tail) := by rw [hrest]; simp
  obtain ⟨mid, n', hmid, hscan, hlevel', hdeepest⟩ := h _ (n.enter cur.offset cur.line) hbody (by
    unfold enter
    split <;> exact Nat.le_add_left 1 _)
  have hclose : mid.rest = r :: tail := Peg.rest_of_reads hbody hmid
  have henter : (n.enter cur.offset cur.line).level = n.level + 1 ∧
      (n.enter cur.offset cur.line).deepest ≤ max n.deepest (n.level + 1) := by
    unfold enter
    split
    · exact ⟨rfl, Nat.le_max_right _ _⟩
    · exact ⟨rfl, Nat.le_max_left _ _⟩
  refine ⟨mid.past r tail, n'.leave, .char hopen (hmid.append (.char hclose (.nothing _))), ?_, ?_, ?_⟩
  · rw [scanAt_opening hopen hl, hscan, scanAt_closing hclose hr]
  · show max (n'.level - 1) 1 = n.level
    omega
  · show n'.deepest ≤ max n.deepest (n.level + (1 + k))
    omega

theorem deepest_le_of_passes (h : Passes k cs []) : (ofText cs).deepest ≤ 1 + k := by
  obtain ⟨last, n, hreads, hscan, -, hdeepest⟩ := h (.start cs) .flat (List.append_nil _).symm (Nat.le_refl 1)
  have hend : last.rest = [] := Peg.rest_of_reads (List.append_nil _).symm hreads
  have htext : ofText cs = n := by
    refine hscan.trans ?_
    rw [scanAt, hend]
    rfl
  rw [htext]
  exact Nat.le_trans hdeepest (Nat.max_le.mpr ⟨Nat.le_add_right 1 _, Nat.le_refl _⟩)

/-! ### Strings -/

theorem scanAt_quotable (hm : m = '"' ∨ m = '\'') (h : Quotable m cs) (hrest : cur.rest = cs ++ m :: tail) :
    ∃ last, cur.Reads (cs ++ [m]) last ∧ scanAt (.quoted m false) cur n = scanAt .code last n := by
  have hmark : isMark m := by simpa [isMark] using hm
  induction h generalizing cur with
  | nil => exact ⟨_, .char hrest (.nothing _), scanAt_quoted_end hmark hrest⟩
  | @escape c cs _ ih =>
    have hmore : ((cur.past '\\' (c :: (cs ++ m :: tail))).past c (cs ++ m :: tail)).rest = cs ++ m :: tail := rfl
    obtain ⟨last, hreads, hscan⟩ := ih hmore
    exact ⟨last, .char hrest (.char rfl hreads), (scanAt_escape hrest).trans hscan⟩
  | @plain c cs hc _ ih =>
    obtain ⟨hne, hescape, hline, -⟩ := hc
    obtain ⟨last, hreads, hscan⟩ := ih (show (cur.past c (cs ++ m :: tail)).rest = cs ++ m :: tail from rfl)
    refine ⟨last, .char hrest hreads, Eq.trans ?_ hscan⟩
    have hmore : cs ++ m :: tail ≠ [] := List.append_ne_nil_of_right_ne_nil _ (List.cons_ne_nil _ _)
    exact scanAt_quoted hmark hrest hescape hmore (fun heq => absurd heq hne) fun heq => absurd heq hline

theorem Passes.quoted (hm : m = '"' ∨ m = '\'') (h : Quotable m cs) (htail : tail.head? ≠ some m) :
    Passes k (m :: (cs ++ [m])) tail := by
  intro cur n hrest _
  have hopen : cur.rest = m :: (cs ++ m :: tail) := by rw [hrest]; simp
  have hmark : isMark m := by simpa [isMark] using hm
  have hmore : cs ++ m :: tail ≠ [] := List.append_ne_nil_of_right_ne_nil _ (List.cons_ne_nil _ _)
  have hcontent : (cur.past m (cs ++ m :: tail)).rest = cs ++ m :: tail := rfl
  obtain ⟨last, hreads, hscan⟩ := scanAt_quotable (n := n) hm h hcontent
  refine ⟨last, n, .char hopen hreads, ?_, rfl, Nat.le_max_left _ _⟩
  rw [scanAt_mark hmark hopen hmore (h.not_prefix hm htail), hscan]

/-! ### Items -/

variable {α : Type} {t : α → List Char} {xs : List α}

/-- Not the quote of a string stands here. -/
def Unmarked (tail : List Char) : Prop := ∀ c ∈ tail.head?, isMark c = false

theorem Passes.row (hxs : ∀ x ∈ xs, ∀ tail, Unmarked tail → Passes k (t x) tail) (htail : Unmarked tail) :
    Passes k (Peg.row t xs) tail := by
  have hfurther (ys : List α) (hys : ∀ x ∈ ys, ∀ tail, Unmarked tail → Passes k (t x) tail) :
      Passes k (Peg.furtherText t ys) tail ∧ Unmarked (Peg.furtherText t ys ++ tail) := by
    induction ys with
    | nil => exact ⟨.nil, htail⟩
    | cons y rest ih =>
      obtain ⟨hy, hrest⟩ := List.forall_mem_cons.mp hys
      obtain ⟨hmore, hunmarked⟩ := ih hrest
      refine ⟨.cons rfl (.cons rfl ((hy _ hunmarked).append hmore)), ?_⟩
      rintro c ⟨⟩
      rfl
  cases xs with
  | nil => exact .nil
  | cons x rest =>
    obtain ⟨hx, hrest⟩ := List.forall_mem_cons.mp hxs
    obtain ⟨hmore, hunmarked⟩ := hfurther rest hrest
    rw [Peg.row_cons]
    exact (hx _ hunmarked).append hmore

theorem Passes.items (hl : isOpening l) (hr : isClosing r)
    (hxs : ∀ x ∈ xs, ∀ tail, Unmarked tail → Passes k (t x) tail) :
    Passes (1 + k) (l :: (Peg.row t xs ++ [r])) tail := by
  refine .brackets hl hr (.row hxs ?_)
  rintro c ⟨⟩
  simp only [isClosing, Bool.or_eq_true, decide_eq_true_eq] at hr
  rcases hr with (rfl | rfl) | rfl <;> rfl

theorem isPlain_of_isContinue {c : Char} (h : Identifier.isContinue c) : isPlain c :=
  @Peg.isPlain_of_holds .identContinue nofun c h

theorem Passes.word (h : isWord cs) : Passes k cs tail :=
  .plain fun c hc => isPlain_of_isContinue (isContinue_of_isWord h c hc)

end Nesting

/-! ### Expressions -/

open Nesting (Passes Unmarked)

theorem nestingIn_le_iff {items : List Expr} {k : Nat} : nestingIn items ≤ k ↔ ∀ e ∈ items, e.nesting ≤ k := by
  induction items with
  | nil => simp [nestingIn]
  | cons e rest ih => rw [nestingIn, Nat.max_le, ih, List.forall_mem_cons]

theorem entryNesting_le_iff {pairs : List (Expr × Expr)} {k : Nat} :
    entryNesting (pairs.map .ofPair) ≤ k ↔ ∀ p ∈ pairs, p.1.nesting ≤ k ∧ p.2.nesting ≤ k := by
  induction pairs with
  | nil => simp [entryNesting]
  | cons p rest ih =>
    rw [List.map_cons, DictEntry.ofPair, entryNesting, Nat.max_le, Nat.max_le, ih, List.forall_mem_cons]

theorem keywordNesting_le_iff {keywords : List Keyword} {k : Nat} :
    keywordNesting keywords ≤ k ↔ ∀ kw ∈ keywords, kw.value.nesting ≤ k := by
  induction keywords with
  | nil => simp [keywordNesting]
  | cons kw rest ih =>
    cases kw <;> rw [keywordNesting, Nat.max_le, ih, List.forall_mem_cons] <;> rfl

variable {k : Nat} {tail : List Char}

theorem Constant.passes {value : Constant} (h : value.isCanonical) (htail : Unmarked tail) :
    Passes k value.text.toList tail := by
  cases value with
  | none => exact .word rfl
  | bool b => cases b <;> exact .word rfl
  | int n =>
    have hn : 0 ≤ n := by simpa [isCanonical] using h
    obtain ⟨k, -, -, htext⟩ := text_int hn
    rw [htext]
    refine .plain fun c hc => Nesting.isPlain_of_isContinue ?_
    have hdigit : c.isDigit := isDigit_of_mem_toDigits c hc
    have hall : ∀ head ∈ Peg.digitHeads, head.all Identifier.isContinue := by decide
    exact hall _ (Peg.mem_digitHeads hdigit)
  | str s =>
    have hquote := quoteFor_cases s.toList
    rw [text_str]
    refine .quoted hquote (quotable_flatMap_escapeChar hquote s.toList) fun hmark => ?_
    have hnot := htail _ hmark
    rcases hquote with hquote | hquote <;>
    · rw [hquote] at hnot
      cases hnot
  | float | bytes | ellipsis => cases h

theorem Expr.passes (e : Expr) (h : e.isCanonical) (hk : e.nesting ≤ k) (htail : Unmarked tail) :
    Passes k e.text.toList tail := by
  induction e using Expr.induction_on_forms generalizing k tail with
  | name loc id => exact .word (isWord_of_isName h)
  | constant loc value hvalue => exact Constant.passes h htail
  | list loc items ih =>
    rw [nesting] at hk
    obtain ⟨inner, rfl⟩ : ∃ inner, k = 1 + inner := ⟨k - 1, by omega⟩
    have hitems := nestingIn_le_iff.mp (show nestingIn items ≤ inner by omega)
    rw [list_text]
    exact .items rfl rfl fun e he _ htail => ih e he (allCanonical_iff.mp h e he) (hitems e he) htail
  | set loc items ih =>
    rw [nesting] at hk
    obtain ⟨inner, rfl⟩ : ∃ inner, k = 1 + inner := ⟨k - 1, by omega⟩
    have hitems := nestingIn_le_iff.mp (show nestingIn items ≤ inner by omega)
    have hall := allCanonical_iff.mp ((Bool.and_eq_true _ _).mp h).2
    rw [set_text]
    exact .items rfl rfl fun e he _ htail => ih e he (hall e he) (hitems e he) htail
  | dict loc entries ih =>
    obtain ⟨pairs, rfl, hpairs⟩ := exists_pairs h
    rw [nesting] at hk
    obtain ⟨inner, rfl⟩ : ∃ inner, k = 1 + inner := ⟨k - 1, by omega⟩
    have hentries := entryNesting_le_iff.mp (show entryNesting (pairs.map .ofPair) ≤ inner by omega)
    rw [dict_text]
    refine .items rfl rfl fun p hp tail htail => ?_
    obtain ⟨hkey, hvalue⟩ := hpairs p hp
    obtain ⟨hkeyNesting, hvalueNesting⟩ := hentries p hp
    obtain ⟨ihkey, ihvalue⟩ := ih p.1 p.2 (List.mem_map_of_mem hp)
    have hcolon : Unmarked (':' :: ' ' :: p.2.text.toList ++ tail) := by
      rintro c ⟨⟩
      rfl
    exact (ihkey hkey hkeyNesting hcolon).append (.cons rfl (.cons rfl (ihvalue hvalue hvalueNesting htail)))
  | call loc func args keywords ihargs ihkeywords =>
    cases func with
    | name floc func =>
      simp only [isCanonical, Bool.and_eq_true] at h
      obtain ⟨⟨⟨hname, hargs⟩, hkeywords⟩, -⟩ := h
      rw [nesting] at hk
      obtain ⟨inner, rfl⟩ : ∃ inner, k = 1 + inner := ⟨k - 1, by omega⟩
      have hargNesting := nestingIn_le_iff.mp (show nestingIn args ≤ inner by omega)
      have hkeywordNesting := keywordNesting_le_iff.mp (show keywordNesting keywords ≤ inner by omega)
      rw [call_text]
      refine (Passes.word (isWord_of_isName hname)).append (.items rfl rfl fun a ha tail htail => ?_)
      rcases List.mem_append.mp ha with ha | ha
      · obtain ⟨e, he, rfl⟩ := List.mem_map.mp ha
        exact ihargs e he (allCanonical_iff.mp hargs e he) (hargNesting e he) htail
      · obtain ⟨kw, hkw, rfl⟩ := List.mem_map.mp ha
        obtain ⟨kloc, id, value, rfl, hid, hvalue⟩ := keywordsCanonical_iff.mp hkeywords kw hkw
        rw [keyword_text]
        exact (Passes.word (isWord_of_isName hid)).append
          (.cons rfl (ihkeywords _ hkw hvalue (hkeywordNesting _ hkw) htail))
    | _ => cases h
  | refused e he =>
    cases e with
    | constant loc value => exact Constant.passes h htail
    | name | list | set | dict | call => cases he
    | _ => cases h

/-! ### Modules -/

theorem Statement.passes (s : Statement) (h : s.isCanonical) (hk : nestingIn s.kind.exprs ≤ k)
    (htail : Unmarked tail) : Passes k s.text.toList tail := by
  obtain ⟨loc, target, id, value, rfl, hid, hvalue⟩ | ⟨loc, cloc, floc, func, args, keywords, rfl, hcall⟩ :=
    isCanonical_cases h
  · simp only [StatementKind.exprs, List.singleton_append, nestingIn, Expr.nesting] at hk
    have htext : (Statement.mk loc (.assign [.name target id] value)).text.toList =
        id.toList ++ ' ' :: '=' :: ' ' :: value.text.toList := by
      simp [text, Expr.text]
    have hvalue := value.passes hvalue (show value.nesting ≤ k by omega) htail
    rw [htext]
    exact (Passes.word (isWord_of_isName hid)).append (.cons rfl (.cons rfl (.cons rfl hvalue)))
  · simp only [StatementKind.exprs, nestingIn] at hk
    exact Expr.passes _ hcall (by omega) htail

theorem passes_script {body : List Statement} (h : ∀ s ∈ body, s.isCanonical)
    (hk : nestingIn (body.flatMap fun s => s.kind.exprs) ≤ k) :
    Passes k (Peg.script (fun s : Statement => s.text.toList) body) [] := by
  induction body with
  | nil => exact .nil
  | cons s rest ih =>
    obtain ⟨hs, hrest⟩ := List.forall_mem_cons.mp h
    rw [List.flatMap_cons, nestingIn_append] at hk
    have hmore := ih hrest (by omega)
    rw [Peg.script_cons]
    refine Passes.append ?_ hmore
    rw [List.append_nil]
    cases rest with
    | nil => exact s.passes hs (by omega) nofun
    | cons next rest =>
      refine (s.passes hs (by omega) ?_).append (.cons rfl .nil)
      rintro c ⟨⟩
      rfl

/-- The scan finds no more levels than the brackets of the tree, and the one outside of them. -/
theorem Module.deepest_text_le {m : Module} (hm : m.isCanonical) :
    (Nesting.ofText m.text.toList).deepest ≤ 1 + m.nesting := by
  have hpasses := passes_script (List.all_eq_true.mp hm) (Nat.le_refl m.nesting)
  rw [← script_text] at hpasses
  exact Nesting.deepest_le_of_passes hpasses

end ConfigSandbox
