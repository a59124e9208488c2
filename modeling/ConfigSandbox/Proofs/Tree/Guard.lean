import ConfigSandbox.Proofs.Tree.Skipped
import ConfigSandbox.Tree.Parse

/-!
# The bracket scan bounds the search

The search goes down at every bracket, so brackets are counted before it begins. The count is an upper
bound wherever the scan reads strings and comments as the grammar does; examples of texts where it does
not are at the end. That every rule of the grammar closes what it opens is found by computation. From
that, one induction over a match follows the scan beside it.
-/
namespace ConfigSandbox

/-! ### Brackets in a tree -/

def Rule.isBracket : Rule → Bool
  | .paren | .list | .brace | .call | .subscript => true
  | _ => false

/-- The rules of which the scan has something to say only where they stand: a whole text, a line that is
not read, the inside of a string. All others are ordinary. -/
def Rule.isOrdinary : Rule → Bool
  | .module | .reservedStatement | .stringContent _ => false
  | _ => true

/-- The levels that a rule adds to what is inside it. -/
def Rule.levels (r : Rule) : Nat := if r.isBracket then 1 else 0

mutual

/-- How deep bracketed constructs nest in a node. -/
def Node.bracketDepth : Node → Nat
  | .mk rule _ _ children => rule.levels + bracketDepthIn children

def bracketDepthIn : List Node → Nat
  | [] => 0
  | node :: rest => max node.bracketDepth (bracketDepthIn rest)

end

theorem bracketDepthIn_le {nodes : List Node} {l d : Nat} (hl : l ≤ d)
    (h : ∀ node ∈ nodes, l + node.bracketDepth ≤ d) : l + bracketDepthIn nodes ≤ d := by
  induction nodes with
  | nil => exact hl
  | cons node rest ih =>
    have hnode := h node List.mem_cons_self
    have hrest := ih fun node' hm => h node' (List.mem_cons_of_mem _ hm)
    rw [bracketDepthIn]
    omega

/-! ### What may mislead the scan -/

mutual

/-- Nothing in the node misleads the scan. -/
def Node.isClear : Node → Bool
  | .mk rule first last children => !Node.misleads (.mk rule first last children) && areClear children

def areClear : List Node → Bool
  | [] => true
  | node :: rest => node.isClear && areClear rest

end

theorem Node.not_misleads {node : Node} (h : node.isClear) : ¬ node.misleads := by
  obtain ⟨rule, first, last, children⟩ := node
  rw [isClear, Bool.and_eq_true, Bool.not_eq_true'] at h
  simp [h.1]

theorem areClear_iff {nodes : List Node} : areClear nodes ↔ ∀ node ∈ nodes, node.isClear := by
  induction nodes with
  | nil => simp [areClear]
  | cons node rest ih => rw [areClear, Bool.and_eq_true, ih, List.forall_mem_cons]

open Nesting (isPlain isOpening isClosing)

namespace Peg

/-! ### Levels -/

/-- The level after some characters, if it does not fall below the level before and no string or comment
begins. -/
def levelPast : List Char → Nat → Option Nat
  | [], i => some i
  | c :: cs, i =>
    if isPlain c then levelPast cs i
    else if isOpening c then levelPast cs (i + 1)
    else if isClosing c && 0 < i then levelPast cs (i - 1)
    else none

/-- The characters that the scan does not pass without a trace. -/
def special : List Char := ['"', '\'', '#', '(', '[', '\x7b', ')', ']', '\x7d']

theorem isPlain_of_not_mem {c : Char} (h : c ∉ special) : isPlain c := by
  simp only [special, List.mem_cons, List.not_mem_nil, or_false, not_or] at h
  simp [isPlain, Nesting.isMark, isOpening, isClosing, h]

theorem levelPast_of_plain {cs : List Char} (h : ∀ c ∈ cs, isPlain c) (i : Nat) :
    levelPast cs i = some i := by
  induction cs with
  | nil => rfl
  | cons c cs ih =>
    rw [levelPast, if_pos (h c List.mem_cons_self)]
    exact ih fun c' hc' => h c' (List.mem_cons_of_mem _ hc')

theorem isPlain_of_anyCase {expected c : Char} (h : isPlain expected) (hc : sameAnyCase expected c) :
    isPlain c := by
  refine isPlain_of_not_mem fun hs => ?_
  have hlower : (special.all fun s => s.toLower == s && !isPlain s) = true := by decide
  obtain ⟨hsame, hnot⟩ := (Bool.and_eq_true _ _).mp (List.all_eq_true.mp hlower c hs)
  rw [sameAnyCase, beq_iff_eq.mp hsame, beq_iff_eq] at hc
  rw [hc, h] at hnot
  cases hnot

theorem isPlain_of_holds {cls : CharClass} (hcls : cls ≠ .any) {c : Char} (h : cls.holds c) :
    isPlain c := by
  refine isPlain_of_not_mem fun hs => ?_
  have hnone : (special.all fun s => !cls.holds s) = true := by
    cases cls <;> first | exact absurd rfl hcls | decide
  have hnot := List.all_eq_true.mp hnone c hs
  rw [h] at hnot
  cases hnot

/-- Strings and comments: the scan passes over them as a whole. -/
def isSkipped (e : Peg) : Bool :=
  e == comment || [Quoting.tripleDouble, .tripleSingle, .double, .single].any (e == quoted ·)

/-- The level after an expression that begins on level `i`, if it is the same whichever way it matches.
All rules in it have to stand on level `k` or above; a reserved statement may stand only outside all
brackets. -/
def levelAfter (outside : Bool) (k : Nat) : Peg → Nat → Option Nat
  | .empty, i | .absent _, i | .ahead _, i => some i
  | .text cs, i => levelPast cs i
  | .textAnyCase cs, i => if cs.all isPlain then some i else none
  | .one cls, i => if cls = .any then none else some i
  | .seq a b, i =>
    if isSkipped (.seq a b) then if k ≤ i then some i else none
    else (levelAfter outside k a i).bind (levelAfter outside k b)
  | .alt a b, i =>
    if levelAfter outside k a i = levelAfter outside k b i then levelAfter outside k a i else none
  | .star e, i => if levelAfter outside k e i = some i then some i else none
  | .rule r, i =>
    if r.isOrdinary ∧ k ≤ i ∨ r = .reservedStatement ∧ outside ∧ i = 0 ∧ k = 0 then some i else none

/-- Every ordinary rule ends on the level it begins on. -/
theorem levelAfter_body {r : Rule} (h : r.isOrdinary) :
    levelAfter false r.levels r.body 0 = some 0 := by
  cases r with
  | module | reservedStatement | stringContent => cases h
  | unary op => cases op <;> decide
  | binary op => cases op <;> decide
  | slicePart part => cases part <;> decide
  | word w => cases w <;> decide
  | _ => decide

end Peg

namespace Nesting

variable {first mid last : Cursor} {xs ys nodes : List Node} {n : Nesting} {cs : List Char}
  {b i j k : Nat} {outside : Bool}

/-- From one position the scan comes to another, there at least on the given level. -/
def LeadsTo (first last : Cursor) (n : Nesting) (l : Nat) : Prop :=
  ∃ n', scanAt .code first n = scanAt .code last n' ∧ n'.AtLeast l

/-- The brackets in the nodes, counted from the given level, are not deeper than the scan finds. -/
def Covers (cur : Cursor) (n : Nesting) (l : Nat) (nodes : List Node) : Prop :=
  ∀ node ∈ nodes, l + node.bracketDepth ≤ (scanAt .code cur n).deepest

theorem leadsTo_of_reads (h : first.Reads cs last) (hl : Peg.levelPast cs i = some j) (hb : 1 ≤ b)
    (hn : n.AtLeast (b + i)) : LeadsTo first last n (b + j) := by
  induction h generalizing i n with
  | nothing cur =>
    cases hl
    exact ⟨n, rfl, hn⟩
  | @char cur last c rest cs hc _ ih =>
    rw [Peg.levelPast] at hl
    split at hl
    · rename_i hp
      rw [LeadsTo, scanAt_plain hc hp]
      exact ih hl hn
    split at hl
    · rename_i ho
      rw [LeadsTo, scanAt_opening hc ho]
      exact ih hl (hn.enter _ _)
    split at hl
    · rename_i ho
      obtain ⟨ho, hi⟩ : isClosing c ∧ 0 < i := by simpa using ho
      rw [LeadsTo, scanAt_closing hc ho]
      exact ih hl ((hn.leave (by omega)).mono (by omega))
    · cases hl

/-- What holds of an expression that takes the scan from level `i` to level `j`, both counted from the
level `b` around it. -/
def Guarded (outside : Bool) (k i j : Nat) (first last : Cursor) (nodes : List Node) : Prop :=
  ∀ b n, 1 ≤ b → (outside → b = 1) → n.AtLeast (b + i) →
    LeadsTo first last n (b + j) ∧ Covers first n (b + k) nodes

theorem Guarded.of_levelPast (h : first.Reads cs last) (hl : Peg.levelPast cs i = some j) :
    Guarded outside k i j first last [] :=
  fun _ _ hb _ hn => ⟨leadsTo_of_reads h hl hb hn, fun _ hnode => absurd hnode List.not_mem_nil⟩

theorem Guarded.append {l : Nat} (h : Guarded outside k i l first mid xs)
    (h' : Guarded outside k l j mid last ys) : Guarded outside k i j first last (xs ++ ys) := by
  intro b n hb ho hn
  obtain ⟨⟨n', hscan, hn'⟩, hxs⟩ := h b n hb ho hn
  obtain ⟨⟨n'', hscan', hn''⟩, hys⟩ := h' b n' hb ho hn'
  refine ⟨⟨n'', hscan.trans hscan', hn''⟩, fun node hnode => ?_⟩
  rcases List.mem_append.mp hnode with hnode | hnode
  · exact hxs node hnode
  · rw [hscan]
    exact hys node hnode

theorem AtLeast.le_scanAt {l : Nat} (h : n.AtLeast l) (mode : Mode) (cur : Cursor) :
    l ≤ (scanAt mode cur n).deepest :=
  Nat.le_trans h.level (Nat.le_trans h.deepest (deepest_le_scan ..))

/-- A rule that is a bracket begins with an opening one. -/
theorem levels_le_scanAt {r : Rule} (h : Peg.Gives r.body first (some (last, nodes)))
    (hn : n.AtLeast b) : b + r.levels ≤ (scanAt .code first n).deepest := by
  have hopen {c : Char} {e : Peg} (he : r.body = .seq (.text [c]) e) (hc : isOpening c) :
      b + 1 ≤ (scanAt .code first n).deepest := by
    rw [he] at h
    obtain ⟨mid, _, _, hfirst, -, -⟩ := h.of_seq
    obtain ⟨rest, hrest, -⟩ := hfirst.char
    rw [scanAt_opening hrest hc]
    exact (hn.enter _ _).le_scanAt _ _
  cases r with
  | paren | list | brace | call | subscript => exact hopen rfl rfl
  | _ => exact hn.le_scanAt _ _

/-- A string or a comment is passed over on one level. -/
theorem Guarded.skipped {e : Peg} (h : Peg.Gives e first (some (last, nodes))) (he : e.isSkipped)
    (hk : k ≤ i) (hreturns : returnsEndLines first.rest) (hclear : ∀ node ∈ nodes, node.isClear) :
    Guarded outside k i i first last nodes := by
  intro b n hb _ hn
  have hdeep := hn.le_scanAt .code first
  rw [Peg.isSkipped, Bool.or_eq_true, beq_iff_eq, List.any_eq_true] at he
  obtain rfl | ⟨q, -, hq⟩ := he
  · obtain ⟨cs, hread⟩ := h.reads
    have hnodes : nodes = [] := h.nodes_eq_nil rfl
    subst hnodes
    refine ⟨⟨n, ?_, hn⟩, fun _ hnode => absurd hnode List.not_mem_nil⟩
    exact scanAt_of_comment h (returnsEndLines_of_reads hread hreturns)
  · obtain rfl : e = Peg.quoted q := by simpa using hq
    obtain ⟨hscan, start, stop, rfl⟩ := scanAt_of_quoted n h fun node hnode =>
      Node.not_misleads (hclear node hnode)
    refine ⟨⟨n, hscan, hn⟩, fun node hnode => ?_⟩
    cases List.mem_singleton.mp hnode
    rw [Node.bracketDepth, bracketDepthIn]
    exact Nat.le_trans (Nat.add_le_add_left hk b) hdeep

/-- A reserved statement may leave brackets open, but closes none around it: there are none. -/
theorem Guarded.reserved (ho : outside) (h : Peg.Gives Rule.reservedStatement.body first (some (last, nodes)))
    (hclear : (Node.mk .reservedStatement first last nodes).isClear)
    (hreturns : returnsEndLines first.rest) :
    Guarded outside 0 0 0 first last [.mk .reservedStatement first last nodes] := by
  intro b n _ hb hn
  obtain rfl := hb ho
  obtain ⟨cs, hread⟩ := h.reads
  obtain ⟨hleads, start, stop, rfl⟩ := scanAt_of_reserved h (Node.not_misleads hclear)
    (returnsEndLines_of_reads hread hreturns) hn
  refine ⟨hleads, fun node hnode => ?_⟩
  cases List.mem_singleton.mp hnode
  exact hn.le_scanAt .code first

/-- Around a rule there are the brackets of its nodes, and its own. -/
theorem Guarded.rule {r : Rule} (h : Peg.Gives r.body first (some (last, nodes)))
    (hbody : Guarded false r.levels 0 0 first last nodes) (hk : k ≤ i) :
    Guarded outside k i i first last [.mk r first last nodes] := by
  intro b n hb _ hn
  obtain ⟨hleads, hcovers⟩ := hbody (b + i) n (by omega) (by simp) hn
  refine ⟨hleads, fun node hnode => ?_⟩
  cases List.mem_singleton.mp hnode
  have hdepth := bracketDepthIn_le (levels_le_scanAt h hn) hcovers
  rw [Node.bracketDepth]
  omega

end Nesting

namespace Peg

open Nesting (Guarded)

variable {first last : Cursor} {nodes : List Node} {k i j : Nat} {outside : Bool}

theorem Gives.guarded {e : Peg} (h : Gives e first (some (last, nodes)))
    (hl : levelAfter outside k e i = some j) (hreturns : returnsEndLines first.rest)
    (hclear : ∀ node ∈ nodes, node.isClear) : Guarded outside k i j first last nodes := by
  generalize ho : some (last, nodes) = outcome at h
  induction h generalizing last nodes i j k outside with
  | empty | absent | ahead =>
    cases ho
    cases hl
    exact .of_levelPast (.nothing _) rfl
  | text h =>
    cases ho
    exact .of_levelPast (Cursor.reads_of_text h) hl
  | textAnyCase h =>
    cases ho
    rw [levelAfter, Option.ite_none_right_eq_some] at hl
    obtain ⟨hall, hij⟩ := hl
    cases hij
    obtain ⟨read, hread, hplain⟩ := Cursor.reads_of_text? (fun c hc r hr => isPlain_of_anyCase
      (List.all_eq_true.mp hall c hc) hr) h
    exact .of_levelPast hread (levelPast_of_plain hplain i)
  | @one cls cur last h =>
    cases ho
    rw [levelAfter, Option.ite_none_left_eq_some] at hl
    obtain ⟨hcls, hij⟩ := hl
    cases hij
    obtain ⟨c, hc, hrest, hpast⟩ := Cursor.reads_of_one? h
    have hread : cur.Reads [c] last := .char hrest (hpast ▸ .nothing _)
    exact .of_levelPast hread (levelPast_of_plain (by simpa using isPlain_of_holds hcls hc) i)
  | @seq a b cur mid last xs ys ha hb iha ihb =>
    cases ho
    rw [levelAfter] at hl
    split at hl
    · rename_i hskip
      rw [Option.ite_none_right_eq_some, Option.some.injEq] at hl
      obtain ⟨hk, rfl⟩ := hl
      exact .skipped (.seq ha hb) hskip hk hreturns hclear
    · obtain ⟨m, hm, hl⟩ := Option.bind_eq_some_iff.mp hl
      obtain ⟨cs, hread⟩ := ha.reads
      refine .append (iha hm hreturns (fun node hn => hclear node (List.mem_append_left _ hn)) rfl)
        (ihb hl (returnsEndLines_of_reads hread hreturns)
          (fun node hn => hclear node (List.mem_append_right _ hn)) rfl)
  | alt ha iha =>
    cases ho
    rw [levelAfter, Option.ite_none_right_eq_some] at hl
    exact iha hl.2 hreturns hclear rfl
  | orElse _ hb _ ihb =>
    rw [levelAfter, Option.ite_none_right_eq_some] at hl
    exact ihb (hl.1 ▸ hl.2) hreturns hclear ho
  | @again e cur mid last xs ys he hmore hs ihe ihs =>
    cases ho
    have hstar := hl
    rw [levelAfter, Option.ite_none_right_eq_some, Option.some.injEq] at hl
    obtain ⟨hbody, rfl⟩ := hl
    obtain ⟨cs, hread⟩ := he.reads
    refine .append (ihe hbody hreturns (fun node hn => hclear node (List.mem_append_left _ hn)) rfl)
      (ihs hstar (returnsEndLines_of_reads hread hreturns)
        (fun node hn => hclear node (List.mem_append_right _ hn)) rfl)
  | noMore | stuck =>
    cases ho
    rw [levelAfter, Option.ite_none_right_eq_some, Option.some.injEq] at hl
    obtain ⟨-, rfl⟩ := hl
    exact .of_levelPast (.nothing _) rfl
  | @rule r cur last xs h ih =>
    cases ho
    rw [levelAfter, Option.ite_none_right_eq_some, Option.some.injEq] at hl
    obtain ⟨⟨hr, hk⟩ | ⟨rfl, houtside, rfl, rfl⟩, rfl⟩ := hl
    · have hnode := hclear _ List.mem_cons_self
      rw [Node.isClear, Bool.and_eq_true] at hnode
      exact .rule h (ih (levelAfter_body hr) hreturns (areClear_iff.mp hnode.2) rfl) hk
    · exact .reserved houtside h (hclear _ List.mem_cons_self) hreturns
  | noText | noTextAnyCase | noOne | noFirst | noSecond | present | notAhead | noRule => cases ho

end Peg

/-! ### Whole texts -/

/-- The nodes that the grammar gives a whole text, if it accepts the text. -/
def nodesOf (source : List Char) : Option (List Node) :=
  match Rule.module.matchText source with
  | (.matched _ nodes, _) => some nodes
  | _ => none

theorem module_of_nodesOf {source : List Char} {nodes : List Node}
    (h : nodesOf source = some nodes) : ∃ last children,
      nodes = [.mk .module (.start source) last children] ∧
        Peg.Gives Rule.module.body (.start source) (some (last, children)) := by
  rw [nodesOf] at h
  split at h
  · rename_i last found att hmatch
    cases h
    obtain ⟨children, hbody, rfl⟩ := (Peg.gives_of_matchText hmatch).of_rule
    exact ⟨last, children, rfl, hbody⟩
  · cases h

namespace Nesting

/-- Where nothing misleads the scan, it finds one level for the text and one for each bracket around the
innermost, so a text whose brackets nest as deep as the limit is refused before the search. -/
theorem bracketDepth_lt_deepest {source : String} {nodes : List Node}
    (h : nodesOf source.toList = some nodes) (hreturns : returnsEndLines source.toList)
    (hclear : areClear nodes) : 1 + bracketDepthIn nodes ≤ (ofText source.toList).deepest ∧
      ∀ limit ≤ bracketDepthIn nodes, Module.parse limit source =
        .error ⟨.tooDeep (ofText source.toList).deepest limit, (ofText source.toList).loc⟩ := by
  obtain ⟨last, children, rfl, hbody⟩ := module_of_nodesOf h
  have hchildren : ∀ node ∈ children, node.isClear := by
    rw [areClear, Node.isClear, Bool.and_eq_true, Bool.and_eq_true] at hclear
    exact areClear_iff.mp hclear.1.2
  have hlevel : Peg.levelAfter true 0 Rule.module.body 0 = some 0 := by decide
  obtain ⟨-, hcovers⟩ := hbody.guarded hlevel hreturns hchildren 1 flat (Nat.le_refl 1)
    (fun _ => rfl) flat_atLeast
  have hdepth : 1 + bracketDepthIn children ≤ (ofText source.toList).deepest :=
    bracketDepthIn_le (flat_atLeast.le_scanAt .code (.start source.toList)) hcovers
  have hnode : bracketDepthIn [.mk .module (.start source.toList) last children] =
      bracketDepthIn children := by
    simp [bracketDepthIn, Node.bracketDepth, Rule.levels, Rule.isBracket]
  rw [hnode]
  refine ⟨hdepth, fun limit hlimit => ?_⟩
  rw [Module.parse]
  exact if_pos (by omega)

/-- Brackets and quotes in a comment and in strings, a comment and a line that end in two characters, a
reserved statement, an empty string. -/
theorem bracketDepth_lt_deepest_strings :
    let source := "x = '\"(' # [\"\r\nimport a\r\ny = f([''], \"\"\"(\"\n\"\"\")"
    ∃ nodes, nodesOf source.toList = some nodes ∧ returnsEndLines source.toList ∧ areClear nodes ∧
      bracketDepthIn nodes = 2 ∧ 3 ≤ (ofText source.toList).deepest ∧
      Module.parse 2 source = .error ⟨.tooDeep (ofText source.toList).deepest 2,
        (ofText source.toList).loc⟩ := by
  intro source
  have htest : ((nodesOf source.toList).map fun nodes => (areClear nodes, bracketDepthIn nodes)) =
      some (true, 2) := by decide +kernel
  have hreturns : returnsEndLines source.toList := by decide +kernel
  obtain ⟨nodes, hnodes, hpair⟩ := Option.map_eq_some_iff.mp htest
  obtain ⟨hclear, hdepth⟩ : areClear nodes = true ∧ bracketDepthIn nodes = 2 := Prod.ext_iff.mp hpair
  obtain ⟨hdeep, hrefused⟩ := bracketDepth_lt_deepest hnodes hreturns hclear
  rw [hdepth] at hdeep
  exact ⟨nodes, hnodes, hreturns, hclear, hdepth, hdeep, hrefused 2 (Nat.le_of_eq hdepth.symm)⟩

/-- Elsewhere it may find none of the brackets: after a comment that a carriage return ends, after an
open quote in a line that is not read, and after three quotes that nothing closes. -/
theorem deepest_lt_bracketDepth :
    let sources := ["#\r[a for a in [b]]", "import '''\n(a)", "x = \"\"\"a\"\ny = (a)"]
    (sources.map fun source => (nodesOf source.toList).map bracketDepthIn) = [some 2, some 1, some 1] ∧
      (sources.map fun source => (ofText source.toList).deepest) = [1, 1, 1] ∧
      (Module.parse 2 "#\r[a for a in [b]]").isOk := by
  decide +kernel

end Nesting
end ConfigSandbox
