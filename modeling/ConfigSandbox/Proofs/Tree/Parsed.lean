import ConfigSandbox.Proofs.Tree.Located
import ConfigSandbox.Proofs.Tree.Nesting
import ConfigSandbox.Tree.Parse

/-!
# Places in a parsed text

The three passes over a text each name places in it: the bracket scan keeps a count of its own, the search
of the grammar leaves the furthest offset at which a rule failed, and the builder of the tree takes the
places of its nodes.
-/
namespace ConfigSandbox

variable {source : String} {cur : Cursor} {c : Char} {rest : List Char} {offset line : Nat}

/-! ### The bracket scan -/

namespace Cursor.In

theorem past (h : cur.In source) (hc : cur.rest = c :: rest) : (cur.past c rest).In source :=
  h.reads (.char hc (.nothing _))

/-- No line feed, so the line is the same. -/
theorem beside (h : Cursor.In source ⟨offset, line, c :: rest⟩) (hc : c ≠ '\n') :
    Cursor.In source ⟨offset + c.utf8Size, line, rest⟩ := by
  have hpast := h.past rfl
  rw [Cursor.past, if_neg hc] at hpast
  exact hpast

theorem newline (h : Cursor.In source ⟨offset, line, '\n' :: rest⟩) :
    Cursor.In source ⟨offset + '\n'.utf8Size, line + 1, rest⟩ := h.past rfl

end Cursor.In

namespace Nesting

variable {n : Nesting}

/-- Inside quotes the mark is one of the two that open a string. -/
def Mode.Marked : Mode → Prop
  | .quoted mark _ => mark = '"' ∨ mark = '\''
  | .code | .comment => True

theorem past_mark (h : Cursor.In source ⟨offset, line, c :: rest⟩) (hc : c = '"' ∨ c = '\'') :
    Cursor.In source ⟨offset + c.utf8Size, line, rest⟩ := by
  refine h.beside ?_
  rcases hc with rfl | rfl <;> decide

theorem past_marks (h : Cursor.In source ⟨offset, line, c :: c :: c :: rest⟩) (hc : c = '"' ∨ c = '\'') :
    Cursor.In source ⟨offset + c.utf8Size + 2, line, rest⟩ := by
  have hsize : c.utf8Size = 1 := by rcases hc with rfl | rfl <;> rfl
  have hpast := past_mark (past_mark (past_mark h hc) hc) hc
  rw [hsize] at hpast ⊢
  exact hpast

theorem enter_fits (h : Cursor.In source ⟨offset, line, c :: rest⟩) (hc : c = '(' ∨ c = '[' ∨ c = '\x7b')
    (hn : n.loc.Fits source) : (n.enter offset line).loc.Fits source := by
  have hsize : c.utf8Size = 1 := by rcases hc with rfl | rfl | rfl <;> rfl
  have hbracket := Cursor.location_fits h (.char rfl (.nothing _))
  rw [Cursor.location, Cursor.offset_past, hsize] at hbracket
  unfold enter
  split
  · exact hbracket
  · exact hn

theorem scan_fits {mode : Mode} {cs : List Char} (hcur : Cursor.In source ⟨offset, line, cs⟩)
    (hmode : mode.Marked) (hn : n.loc.Fits source) : (scan mode offset line n cs).loc.Fits source := by
  -- the scan keeps to positions of the text, whichever way it counts the characters it passes
  fun_induction scan mode offset line n cs with
  | case1 | case5 | case13 | case17 => exact hn
  | case2 _ _ _ _ _ hmark _ _ _ hsame ih =>
    obtain ⟨rfl, rfl⟩ := hsame
    exact ih (past_marks hcur hmark) hmark hn
  | case3 _ _ _ _ _ hmark _ _ _ _ ih => exact ih (past_mark hcur hmark) hmark hn
  | case4 _ _ _ _ _ hmark _ ih => exact ih (past_mark hcur hmark) hmark hn
  | case6 _ _ _ _ _ _ ih => exact ih (hcur.beside (by decide)) trivial hn
  | case7 _ _ _ _ _ _ _ _ hopening ih =>
    refine ih (hcur.beside ?_) trivial (enter_fits hcur hopening hn)
    rcases hopening with rfl | rfl | rfl <;> decide
  | case8 _ _ _ _ _ _ _ _ _ hclosing ih =>
    refine ih (hcur.beside ?_) trivial hn
    rcases hclosing with rfl | rfl | rfl <;> decide
  | case9 _ _ _ _ _ _ _ _ _ _ ih => exact ih (hcur.past rfl) trivial hn
  | case10 _ _ _ _ _ ih => exact ih hcur.newline trivial hn
  | case11 _ _ _ _ _ _ hc ih => exact ih (hcur.beside hc) trivial hn
  | case12 _ _ _ _ _ _ _ _ ih => exact ih ((hcur.beside (by decide)).past rfl) hmode hn
  | case14 _ _ _ _ _ _ _ _ _ hsame ih =>
    obtain ⟨rfl, rfl⟩ := hsame
    exact ih (past_marks hcur hmode) trivial hn
  | case15 _ _ _ _ _ _ _ _ _ _ ih => exact ih (past_mark hcur hmode) hmode hn
  | case16 _ _ _ _ _ _ _ ih => exact ih (past_mark hcur hmode) hmode hn
  | case18 _ _ _ _ _ _ _ _ _ ih => exact ih (past_mark hcur hmode) trivial hn
  | case19 _ _ _ _ _ _ _ _ _ _ hc ih =>
    obtain ⟨rfl, -⟩ := hc
    exact ih hcur.newline trivial hn
  | case20 _ _ _ _ _ _ _ _ _ _ _ ih => exact ih (hcur.past rfl) hmode hn

theorem ofText_fits (source : String) : (ofText source.toList).loc.Fits source := by
  have hstart : (Cursor.start source.toList).In source := Cursor.start_in source
  have hflat : flat.loc.Fits source :=
    ⟨Nat.le_refl _, Nat.zero_le _, hstart.offset_isValid, hstart.offset_isValid, hstart.line_eq⟩
  exact scan_fits hstart trivial hflat

end Nesting

/-! ### The search of the grammar -/

/-- The furthest failure is at a position of the text. -/
def Attempts.Within (source : String) (att : Attempts) : Prop :=
  ∃ cur : Cursor, cur.In source ∧ cur.offset = att.furthest

variable {att : Attempts}

theorem Attempts.Within.note (h : att.Within source) (hc : cur.In source) (r : Rule) (before : Nat) :
    (att.note r cur.offset before).Within source := by
  unfold Attempts.note
  split
  · exact h
  · split
    · exact ⟨cur, hc, rfl⟩
    · split
      · exact ⟨cur, hc, rfl⟩
      · exact h

namespace Peg

/-- Below the given fuel every search within the text leaves its failures there. -/
def SearchesStay (source : String) (fuel : Nat) : Prop :=
  (∀ e (cur : Cursor) (att : Attempts), cur.In source → att.Within source →
    (run fuel e cur att).2.Within source) ∧
  ∀ e (cur : Cursor) found (att : Attempts), cur.In source → att.Within source →
    (runStar fuel e cur found att).2.Within source

theorem in_of_run {fuel : Nat} {e : Peg} {last : Cursor} {nodes : List Node} {att' : Attempts}
    (h : run fuel e cur att = (.matched last nodes, att')) (hc : cur.In source) : last.In source := by
  have hagrees := (searchesAgree fuel).1 e cur att
  rw [h] at hagrees
  obtain ⟨cs, hreads⟩ := Gives.reads hagrees
  exact hc.reads hreads

theorem run_stays_succ {fuel : Nat} (ih : SearchesStay source fuel) (e : Peg) (hc : cur.In source)
    (hatt : att.Within source) : (run (fuel + 1) e cur att).2.Within source := by
  obtain ⟨hrun, hstar⟩ := ih
  rw [run.eq_def]
  cases e with
  | empty | text | textAnyCase | one => exact hatt
  | seq a b =>
    have ha := hrun a cur att hc hatt
    dsimp only
    split
    · rename_i mid xs att' hmid
      rw [hmid] at ha
      have hb := hrun b mid att' (in_of_run hmid hc) ha
      split
      · rename_i hlast
        rw [hlast] at hb
        exact hb
      · exact hb
    · exact ha
  | alt a b =>
    have ha := hrun a cur att hc hatt
    dsimp only
    split
    · rename_i att' hnone
      rw [hnone] at ha
      exact hrun b cur att' hc ha
    · exact ha
  | star body => exact hstar body cur [] att hc hatt
  | absent body =>
    have hb := hrun body cur att hc hatt
    dsimp only
    split
    · exact hatt
    · exact hatt
    · exact hb
  | ahead body =>
    have hb := hrun body cur att hc hatt
    dsimp only
    split
    · rename_i hmid
      rw [hmid] at hb
      exact hb
    · exact hb
  | rule r =>
    have hb := hrun r.body cur att hc hatt
    dsimp only
    split
    · rename_i hlast
      rw [hlast] at hb
      exact hb
    · rename_i hnone
      rw [hnone] at hb
      exact hb.note hc r _
    · exact hb

theorem runStar_stays_succ {fuel : Nat} (ih : SearchesStay source fuel) (e : Peg) (hc : cur.In source)
    (found : List Node) (hatt : att.Within source) :
    (runStar (fuel + 1) e cur found att).2.Within source := by
  obtain ⟨hrun, hstar⟩ := ih
  have he := hrun e cur att hc hatt
  rw [runStar]
  split
  · rename_i mid xs att' hmid
    rw [hmid] at he
    split
    · exact hstar e mid _ att' (in_of_run hmid hc) he
    · exact he
  · rename_i hnone
    rw [hnone] at he
    exact he
  · exact he

theorem searchesStay (source : String) (fuel : Nat) : SearchesStay source fuel := by
  -- fuel goes down at every step, so each half is needed of one less
  induction fuel with
  | zero =>
    refine ⟨fun _ _ _ _ hatt => ?_, fun _ _ _ _ _ hatt => ?_⟩
    · rw [run]
      exact hatt
    · rw [runStar]
      exact hatt
  | succ fuel ih =>
    exact ⟨fun e _ _ hc hatt => run_stays_succ ih e hc hatt,
      fun e _ found _ hc hatt => runStar_stays_succ ih e hc found hatt⟩

end Peg

theorem syntaxError_fits (h : att.Within source) : (syntaxError source.toList att).Placed source := by
  obtain ⟨cur, hc, hoffset⟩ := h
  have hle := hc.offset_le
  have hvalid := hc.offset_isValid
  rw [hoffset] at hle hvalid
  exact ⟨Nat.le_refl _, hle, hvalid, hvalid, rfl⟩

/-! ### All passes -/

theorem within_of_matchText {r : Rule} {outcome : Match} (h : r.matchText source.toList = (outcome, att)) :
    att.Within source := by
  have hstart : Attempts.none.Within source := ⟨_, Cursor.start_in source, rfl⟩
  have hstays := (Peg.searchesStay source (Peg.fuelFor source.toList)).1 (.rule r) _ _
    (Cursor.start_in source) hstart
  rw [Rule.matchText] at h
  rw [h] at hstays
  exact hstays

/-- The one node that the rule of a submission leaves is a match of the text. -/
theorem matched_of_matchText {r : Rule} {last : Cursor} {node : Node}
    (h : r.matchText source.toList = (.matched last [node], att)) : node.Matched source :=
  (Peg.gives_of_matchText h).matched (Cursor.start_in source) node List.mem_cons_self

theorem Module.parse_located (limit : Nat) (source : String) : Meets (·.Placed source)
    (fun m => Apart source 0 m.outlines source.utf8ByteSize) (Module.parse limit source) := by
  unfold Module.parse
  dsimp only
  split
  · exact Nesting.ofText_fits source
  · split
    · rename_i node _ h
      have hnode := matched_of_matchText h
      refine (moduleOf_located hnode).imp fun m hm => ?_
      exact hm.widen (Nat.zero_le _) hnode.loc_fits.stop_le_size
    · rename_i att h
      exact syntaxError_fits (within_of_matchText h)
    · exact Location.whole_fits source

end ConfigSandbox
