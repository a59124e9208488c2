import ConfigSandbox.Proofs.Grammar.Joints
import ConfigSandbox.Proofs.Tree.Alike

/-!
# Line ends inside brackets

A line end more between two tokens inside brackets changes nothing but places in the tree, where the grammar
spells it out: behind an opening bracket and before a closing one, around a comma, behind the colon of a
dictionary, and wherever a line ends already. At the end is a place where it is not spelled out.
-/
namespace ConfigSandbox

open Peg

/-- The statements of a text that the grammar accepts, with where each begins and ends. -/
def statementsOf (source : List Char) : List (Rule × Cursor × Cursor) :=
  match nodesOf source with
  | some [.mk _ _ _ statements] => statements.map fun | .mk r first last _ => (r, first, last)
  | _ => []

theorem module_of_statementsOf {source : List Char} {r : Rule} {first last : Cursor}
    (h : (r, first, last) ∈ statementsOf source) : ∃ stop statements children,
      nodesOf source = some [.mk .module (.start source) stop statements] ∧
        Gives Rule.module.body (.start source) (some (stop, statements)) ∧
        .mk r first last children ∈ statements := by
  rw [statementsOf] at h
  split at h
  · rename_i hnodes
    obtain ⟨_, _, hmodule, hbody⟩ := module_of_nodesOf hnodes
    cases hmodule
    obtain ⟨⟨r', first', last', parts⟩, hmem, heq⟩ := List.mem_map.mp h
    cases heq
    exact ⟨_, _, parts, hnodes, hbody, hmem⟩
  · cases h

namespace Peg.Joint

open Nesting (scan flat ofText)

variable {j : Joint}

/-- The bracket scan comes to the place in code. -/
def IsScanned (j : Joint) : Prop :=
  ∃ offset line n, ∀ tail ∈ [j.right ++ j.back, '\n' :: (j.right ++ j.back)],
    scan .code 0 1 flat (j.front ++ (j.left ++ tail)) = scan .code offset line n tail

theorem IsScanned.deepest_eq (h : j.IsScanned) : (ofText j.broken).deepest = (ofText j.text).deepest := by
  obtain ⟨offset, line, n, hscan⟩ := h
  have htext := hscan _ List.mem_cons_self
  have hbroken := hscan _ (List.mem_cons_of_mem _ List.mem_cons_self)
  calc (ofText j.broken).deepest
    _ = (scan .code offset line n ('\n' :: (j.right ++ j.back))).deepest := congrArg _ hbroken
    _ = (scan .code offset line n (j.right ++ j.back)).deepest := Nesting.deepest_scan_newline ..
    _ = (ofText j.text).deepest := congrArg _ htext.symm

end Peg.Joint

namespace Module

/-- A text is parsed if its brackets are within the limit, the grammar accepts it and the builder does. -/
theorem parse_eq_ok_iff {limit : Nat} {source : String} {m : Module} : Module.parse limit source = .ok m ↔
    (Nesting.ofText source.toList).deepest ≤ limit ∧
      ∃ node, nodesOf source.toList = some [node] ∧ moduleOf limit node = .ok m := by
  rw [Module.parse, nodesOf, ← Nat.not_lt]
  split
  · rename_i hdeep
    simp [hdeep]
  · rename_i hdeep
    split
    · rename_i hmatch
      simp [hdeep, hmatch]
    · rename_i hmatch
      simp [hmatch]
    · rename_i hone _
      constructor
      · intro h
        cases h
      · rintro ⟨-, node, hnodes, -⟩
        split at hnodes
        · rename_i hmatch
          cases hnodes
          exact absurd hmatch (hone _ _ _)
        · cases hnodes

theorem nodesOf_of_gives {source : List Char} {stop : Cursor} {nodes : List Node}
    (h : Gives Rule.module.body (.start source) (some (stop, nodes))) :
    nodesOf source = some [.mk .module (.start source) stop nodes] := by
  have hmatch := matchText_of_gives (Gives.rule (r := .module) h)
  rw [nodesOf]
  generalize Rule.module.matchText source = outcome at hmatch
  obtain ⟨found, att⟩ := outcome
  cases hmatch
  rfl

/-- A line end more at a free joint inside brackets leaves the module as it was, but for places. -/
theorem parse_broken {limit : Nat} {j : Joint} {s : Spot} {r : Rule} {first last place : Cursor}
    {b : Bracket first place} {m : Module} (hstatement : (r, first, last) ∈ statementsOf j.text)
    (hr : r ≠ .reservedStatement) (hfree : j.IsFree s b last) (hscanned : j.IsScanned)
    (h : Module.parse limit (String.ofList j.text) = .ok m) :
    ∃ m', Module.parse limit (String.ofList j.broken) = .ok m' ∧ m'.shape = m.shape := by
  obtain ⟨stop, statements, children, hnodes, hbody, hmem⟩ := module_of_statementsOf hstatement
  obtain ⟨hdeep, node, hnode, hm⟩ := parse_eq_ok_iff.mp h
  rw [String.toList_ofList] at hdeep hnode
  cases hnodes.symm.trans hnode
  obtain ⟨new, -, -, hnew, -⟩ := Takes.lit (.start j.broken) rfl
  obtain ⟨stop', statements', hbody', halike⟩ := (hfree.site hnew).module_follows hbody hmem hr hfree.reads hnew
  have hstart := Cursor.start_in (String.ofList j.text)
  rw [String.toList_ofList] at hstart
  have hmatched := (Gives.rule (r := .module) hbody).matched hstart _ List.mem_cons_self
  have hmodules : (Node.mk .module (.start j.text) stop statements).Alike
      (.mk .module (.start j.broken) stop' statements') := ⟨rfl, nofun, halike⟩
  obtain ⟨m', hm', hshape⟩ := moduleOf_keeps hmatched hmodules m hm
  refine ⟨m', parse_eq_ok_iff.mpr ⟨?_, _, ?_, hm'⟩, hshape⟩
  · rw [String.toList_ofList, hscanned.deepest_eq]
    exact hdeep
  · rw [String.toList_ofList]
    exact nodesOf_of_gives hbody'

/-- Before the bracket that closes a list, behind the one that closes a call in it. -/
theorem parse_broken_closing :
    ∃ (j : Joint) (first place last : Cursor) (b : Bracket first place) (m m' : Module),
      String.ofList j.text = "x = [f(1) ]" ∧ String.ofList j.broken = "x = [f(1)\n ]" ∧
      (.assignment, first, last) ∈ statementsOf j.text ∧ j.IsFree (.before ']') b last ∧ j.IsScanned ∧
      Module.parse 3 (String.ofList j.text) = .ok m ∧ Module.parse 3 (String.ofList j.broken) = .ok m' ∧
      m'.shape = m.shape := by
  let j : Joint := ⟨"x = [f(1)".toList, [], [' '], [']'], rfl, rfl, ']', [], rfl, by decide⟩
  let first : Cursor := .start j.text
  let bracket : Cursor := ⟨4, 1, "[f(1) ]".toList⟩
  let close : Cursor := ⟨8, 1, ") ]".toList⟩
  let place : Cursor := ⟨9, 1, " ]".toList⟩
  let last : Cursor := ⟨11, 1, []⟩
  have hopen : first.Reads "x = ".toList bracket := Cursor.reads_of_text (by decide +kernel)
  have hclose : first.Reads "x = [f(1".toList close := Cursor.reads_of_text (by decide +kernel)
  have hinside : (bracket.past '[' "f(1) ]".toList).Reads "f(1)".toList place :=
    Cursor.reads_of_text (by decide +kernel)
  have hplace : first.Reads j.front place := Cursor.reads_of_text (by decide +kernel)
  let b : Bracket first place :=
    ⟨0, bracket, '[', "f(1) ]".toList, path_of_reads hopen (by decide +kernel), by decide +kernel, by decide,
      path_of_reads hinside (by decide +kernel)⟩
  have hstep : Step (2, close) (1, place) :=
    step_of_isCode (c := ')') (by decide +kernel) (by decide) rfl
  have hfree : j.IsFree (.before ']') b last :=
    ⟨by decide, rfl, hplace, by decide,
      ⟨2, close, ')', " ]".toList, path_of_reads hclose (by decide +kernel), hstep, by decide +kernel, by decide⟩,
      nofun, nofun⟩
  have hscanned : j.IsScanned := ⟨9, 1, ⟨2, 3, ⟨1, ⟨6, 7⟩⟩⟩, by decide +kernel⟩
  have hstatement : (.assignment, first, last) ∈ statementsOf j.text := by decide +kernel
  have htest : (Module.parse 3 (String.ofList j.text)).map (fun _ => ()) = .ok () := by decide +kernel
  have htext : String.ofList j.text = "x = [f(1) ]" := by decide +kernel
  have hbroken : String.ofList j.broken = "x = [f(1)\n ]" := by decide +kernel
  obtain ⟨m, hm, -⟩ := exists_of_map_eq_ok htest
  obtain ⟨m', hm', hshape⟩ := parse_broken hstatement (by decide) hfree hscanned hm
  exact ⟨j, first, place, last, b, m, m', htext, hbroken, hstatement, hfree, hscanned, hm, hm', hshape⟩

/-- Elsewhere a line may not end, in brackets or outside: before the colon of a dictionary, around the equals
sign of a keyword, around an operator, before the word of a comprehension, in a slice. -/
theorem parse_refuses_broken :
    ((parse 200 "x = \x7b1: 2\x7d").isOk ∧ ¬ (parse 200 "x = \x7b1\n: 2\x7d").isOk) ∧
      ((parse 200 "x = f(a=1)").isOk ∧ ¬ (parse 200 "x = f(a\n=1)").isOk) ∧
      ((parse 200 "x = (a + b)").isOk ∧ ¬ (parse 200 "x = (a\n + b)").isOk) ∧
      ((parse 200 "x = [a for a in b]").isOk ∧ ¬ (parse 200 "x = [a\n for a in b]").isOk) ∧
      ((parse 200 "x = a[1:2]").isOk ∧ ¬ (parse 200 "x = a[1:\n2]").isOk) := by
  decide +kernel

end Module
end ConfigSandbox
