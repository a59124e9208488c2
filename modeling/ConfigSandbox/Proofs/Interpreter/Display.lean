import ConfigSandbox.Interpreter.Basic
import ConfigSandbox.Proofs.Submission.Accepted
import ConfigSandbox.Proofs.Value.Literal

/-!
# Displayed values are read back

A literal evaluates to its value whatever the machine holds, and leaves the machine as it is. So a submission
that assigns the display of a value binds the value itself: the text is read as the literal, validation has
nothing to refuse, and the sets and dicts are built from items of which no two are equal.
-/
namespace ConfigSandbox

open Value

/-! ### Shapes -/

theorem Expr.of_shape_constant {e : Expr} {loc : Location} {value : Constant} (h : e.shape = .constant loc value) :
    ∃ loc', e = .constant loc' value := by
  cases e with
  | constant loc' value' =>
    cases h
    exact ⟨loc', rfl⟩
  | _ => cases h

theorem Expr.of_shape_list {e : Expr} {loc : Location} {items : List Expr} (h : e.shape = .list loc items) :
    ∃ loc' items', e = .list loc' items' ∧ shapes items' = items := by
  cases e with
  | list loc' items' =>
    cases h
    exact ⟨loc', items', rfl, rfl⟩
  | _ => cases h

theorem Expr.of_shape_set {e : Expr} {loc : Location} {items : List Expr} (h : e.shape = .set loc items) :
    ∃ loc' items', e = .set loc' items' ∧ shapes items' = items := by
  cases e with
  | set loc' items' =>
    cases h
    exact ⟨loc', items', rfl, rfl⟩
  | _ => cases h

theorem Expr.of_shape_dict {e : Expr} {loc : Location} {entries : List DictEntry}
    (h : e.shape = .dict loc entries) :
    ∃ loc' entries', e = .dict loc' entries' ∧ entryShapes entries' = entries := by
  cases e with
  | dict loc' entries' =>
    cases h
    exact ⟨loc', entries', rfl, rfl⟩
  | _ => cases h

/-! ### Evaluation -/

namespace Eval

variable {st : Setting} {m : Machine} {depth : Nat}

theorem exec_checkDepth (h : depth < st.limit) (loc : Location) :
    exec (checkDepth st depth loc) m = (.ok (), m) :=
  exec_checkDepth_iff.mpr ⟨h, rfl⟩

theorem exec_checkHashable {v : Value} (h : v.isHashable) (loc : Location) :
    exec (checkHashable v loc) m = (.ok (), m) :=
  exec_checkHashable_iff.mpr ⟨h, rfl⟩

mutual

theorem exec_expr_literal : (v : Value) → {e : Expr} → (depth : Nat) → v.isLiteral → v.isWellFormed →
    e.shape = v.literal.shape → depth + v.nesting < st.limit → exec (expr st depth e) m = (.ok v, m)
  | .none, _, _, _, _, hshape, hdepth | .bool _, _, _, _, _, hshape, hdepth
  | .int _, _, _, _, _, hshape, hdepth | .str _, _, _, _, _, hshape, hdepth => by
    obtain ⟨loc, rfl⟩ := Expr.of_shape_constant hshape
    exact exec_bind_ok (exec_checkDepth hdepth loc)
  | .list items, _, depth, hliteral, hwell, hshape, hdepth => by
    obtain ⟨loc, items', rfl, hitems⟩ := Expr.of_shape_list hshape
    rw [nesting] at hdepth
    have hvalues := exec_exprs_literals items (depth + 1) hliteral hwell hitems (by omega)
    exact (exec_bind_ok (exec_checkDepth (by omega) loc)).trans (exec_bind_ok hvalues)
  | .set items, _, depth, hliteral, hwell, hshape, hdepth => by
    obtain ⟨loc, items', rfl, hitems⟩ := Expr.of_shape_set hshape
    rw [nesting] at hdepth
    rw [isLiteral, Bool.and_eq_true] at hliteral
    rw [isWellFormed, Bool.and_eq_true] at hwell
    have hhashable := (areKeys_iff.mp hwell.2).1
    have hvalues := exec_hashables_literals items (depth + 1) hliteral.2 hwell.1 hhashable hitems
      (by omega)
    refine ((exec_bind_ok (exec_checkDepth (by omega) loc)).trans (exec_bind_ok hvalues)).trans ?_
    rw [setOf_eq_set hwell.2]
    rfl
  | .dict entries, _, depth, hliteral, hwell, hshape, hdepth => by
    obtain ⟨loc, entries', rfl, hentries⟩ := Expr.of_shape_dict hshape
    rw [nesting] at hdepth
    rw [isWellFormed, Bool.and_eq_true] at hwell
    have hhashable := (areKeys_iff.mp hwell.2).1
    have hvalues := exec_dictEntries_literals entries (depth + 1) loc hliteral hwell.1 hhashable hentries
      (by omega)
    refine ((exec_bind_ok (exec_checkDepth (by omega) loc)).trans (exec_bind_ok hvalues)).trans ?_
    rw [dictOf_eq_dict hwell.2]
    rfl

theorem exec_exprs_literals : (vs : List Value) → {items : List Expr} → (depth : Nat) → allLiteral vs →
    allWellFormed vs → shapes items = shapes (literals vs) → depth + nestingOfAll vs < st.limit →
    exec (exprs st depth items) m = (.ok vs, m)
  | [], [], _, _, _, _, _ => rfl
  | [], _ :: _, _, _, _, hshapes, _ | _ :: _, [], _, _, _, hshapes, _ => nomatch hshapes
  | v :: rest, e :: items, depth, hliteral, hwell, hshapes, hdepth => by
    rw [literals, shapes, shapes, List.cons.injEq] at hshapes
    rw [nestingOfAll] at hdepth
    rw [allLiteral, Bool.and_eq_true] at hliteral
    rw [allWellFormed, Bool.and_eq_true] at hwell
    have hvalue := exec_expr_literal v depth hliteral.1 hwell.1 hshapes.1 (by omega)
    have hrest := exec_exprs_literals rest depth hliteral.2 hwell.2 hshapes.2 (by omega)
    exact (exec_bind_ok hvalue).trans (exec_bind_ok hrest)

theorem exec_hashables_literals : (vs : List Value) → {items : List Expr} → (depth : Nat) → allLiteral vs →
    allWellFormed vs → (∀ v ∈ vs, v.isHashable) → shapes items = shapes (literals vs) →
    depth + nestingOfAll vs < st.limit → exec (hashables st depth items) m = (.ok vs, m)
  | [], [], _, _, _, _, _, _ => rfl
  | [], _ :: _, _, _, _, _, hshapes, _ | _ :: _, [], _, _, _, _, hshapes, _ => nomatch hshapes
  | v :: rest, e :: items, depth, hliteral, hwell, hhashable, hshapes, hdepth => by
    rw [literals, shapes, shapes, List.cons.injEq] at hshapes
    rw [nestingOfAll] at hdepth
    rw [allLiteral, Bool.and_eq_true] at hliteral
    rw [allWellFormed, Bool.and_eq_true] at hwell
    obtain ⟨hv, hmore⟩ := List.forall_mem_cons.mp hhashable
    have hvalue := exec_expr_literal v depth hliteral.1 hwell.1 hshapes.1 (by omega)
    have hrest := exec_hashables_literals rest depth hliteral.2 hwell.2 hmore hshapes.2 (by omega)
    exact (exec_bind_ok hvalue).trans
      ((exec_bind_ok (exec_checkHashable hv e.loc)).trans (exec_bind_ok hrest))

theorem exec_dictEntries_literals : (vs : List (Value × Value)) → {entries : List DictEntry} → (depth : Nat) →
    (loc : Location) → entriesLiteral vs → entriesWellFormed vs → (∀ k ∈ vs.map Prod.fst, k.isHashable) →
    entryShapes entries = entryShapes (entryLiterals vs) → depth + nestingOfEntries vs < st.limit →
    exec (dictEntries st depth loc entries) m = (.ok vs, m)
  | [], [], _, _, _, _, _, _, _ => rfl
  | [], .pair _ _ :: _, _, _, _, _, _, hshapes, _ | [], .unpack _ :: _, _, _, _, _, _, hshapes, _
  | _ :: _, [], _, _, _, _, _, hshapes, _
  | (_, _) :: _, .unpack _ :: _, _, _, _, _, _, hshapes, _ => nomatch hshapes
  | (k, v) :: rest, .pair key value :: entries, depth, loc, hliteral, hwell, hhashable, hshapes, hdepth => by
    rw [entryLiterals, entryShapes, entryShapes, List.cons.injEq, DictEntry.pair.injEq] at hshapes
    obtain ⟨⟨hkshape, hvshape⟩, hrestShape⟩ := hshapes
    rw [nestingOfEntries] at hdepth
    simp only [entriesLiteral, Bool.and_eq_true] at hliteral
    simp only [entriesWellFormed, Bool.and_eq_true] at hwell
    obtain ⟨hk, hmore⟩ := List.forall_mem_cons.mp hhashable
    have hkey := exec_expr_literal k depth hliteral.1.1 hwell.1.1 hkshape (by omega)
    have hvalue := exec_expr_literal v depth hliteral.1.2 hwell.1.2 hvshape (by omega)
    have hrest := exec_dictEntries_literals rest depth loc hliteral.2 hwell.2 hmore hrestShape (by omega)
    exact (exec_bind_ok hkey).trans ((exec_bind_ok (exec_checkHashable hk key.loc)).trans
      ((exec_bind_ok hvalue).trans (exec_bind_ok hrest)))

end

end Eval

/-! ### One assignment -/

/-- The submission that assigns a literal. -/
def Value.assignment (name : String) (v : Value) : Module :=
  ⟨[⟨.synthetic, .assign [.name .synthetic name] v.literal⟩]⟩

theorem Value.text_assignment {v : Value} (name : String) (h : v.isLiteral) :
    (v.assignment name).text = name ++ " = " ++ v.display := by
  rw [← text_literal v h]
  rfl

theorem Value.isCanonical_assignment {v : Value} {name : String} (hname : isName name.toList) (h : v.isLiteral) :
    (v.assignment name).isCanonical := by
  rw [Module.isCanonical, assignment, List.all_cons, List.all_nil, Bool.and_true]
  exact (Bool.and_eq_true _ _).mpr ⟨hname, isCanonical_literal v h⟩

theorem Value.nesting_assignment {v : Value} (name : String) (h : v.isLiteral) :
    (v.assignment name).nesting = v.nesting := by
  rw [← nesting_literal v h]
  exact Nat.max_zero _

theorem Module.of_shape_assignment {m : Module} {name : String} {v : Value}
    (h : m.shape = (v.assignment name).shape) : ∃ loc tloc value,
      m = ⟨[⟨loc, .assign [.name tloc name] value⟩]⟩ ∧ value.shape = v.literal.shape := by
  obtain ⟨body⟩ := m
  have hbody : body.map Statement.shape =
      [⟨.synthetic, .assign [.name .synthetic name] v.literal.shape⟩] := congrArg Module.body h
  obtain ⟨⟨loc, kind⟩, hs, hshape⟩ := List.map_eq_singleton_iff.mp hbody
  have hkind : kind.shape = .assign [.name .synthetic name] v.literal.shape := congrArg Statement.kind hshape
  cases kind with
  | assign targets value =>
    obtain ⟨htargets, hvalue⟩ := StatementKind.assign.inj hkind
    match targets, htargets with
    | [.name tloc _], rfl => exact ⟨loc, tloc, value, congrArg Module.mk hs, hvalue⟩
  | _ => cases hkind

theorem Environment.withSentinels_free {env : Environment} {name : String} (hfree : env.contains name = false)
    (hsentinel : isNoSentinel name) : env.withSentinels.contains name = false := by
  simp only [isNoSentinel, Bool.and_eq_true, decide_eq_true_eq] at hsentinel
  rw [contains_eq, toList_withSentinels, OrderedMap.get?_insert, if_neg hsentinel.2.symm, OrderedMap.get?_insert,
    if_neg hsentinel.1.symm, ← contains_eq, hfree]

/-- A literal is bound to a name that was free. -/
theorem Module.run_assignment (st : Setting) {env : Environment} {name : String} {value : Expr} {v : Value}
    (loc tloc : Location) (hliteral : v.isLiteral) (hwell : v.isWellFormed)
    (hshape : value.shape = v.literal.shape) (hdepth : v.nesting < st.limit)
    (hfree : env.contains name = false) (hsentinel : isNoSentinel name) :
    let outcome := (⟨[⟨loc, .assign [.name tloc name] value⟩]⟩ : Module).run st env
    outcome.result = .ok () ∧ outcome.environment.get? name = some v := by
  intro outcome
  have hvalue : Eval.exec (Eval.expr st 0 value) ⟨env.withSentinels, []⟩ = (.ok v, ⟨env.withSentinels, []⟩) :=
    Eval.exec_expr_literal v 0 hliteral hwell hshape (by omega)
  have hbind := Eval.exec_bindNew_free (m := ⟨env.withSentinels, []⟩) loc v
    (Environment.withSentinels_free hfree hsentinel)
  obtain ⟨hresult, hend⟩ := run_of_exec (m := ⟨[⟨loc, .assign [.name tloc name] value⟩]⟩)
    (Eval.exec_bind_ok ((Eval.exec_bind_ok hvalue).trans hbind))
  refine ⟨hresult, ?_⟩
  rw [hend, Environment.get?_eq, Environment.toList_withoutSentinels_eq_only, OrderedMap.get?_only,
    if_pos hsentinel, Environment.toList_insert, OrderedMap.get?_insert, if_pos rfl]

namespace Interpreter

variable {it : Interpreter} {m : Module} {v : Value}

theorem check_text {source : String} (hparse : Module.parse it.limit source = .ok m)
    (hvalid : m.validate it.registry = .ok ()) : it.check (.text source) = .ok m := by
  show (Module.parse it.limit source).mapError Error.ofParse >>= _ = _
  rw [hparse]
  show (m.validate it.registry).mapError Error.ofValidation >>= _ = _
  rw [hvalid]
  rfl

theorem submit_of_check {input : Input} (h : it.check input = .ok m) :
    it.submit input = ((m.run it.setting it.environment).result.mapError .ofExecution,
      { it with environment := (m.run it.setting it.environment).environment }) := by
  rw [submit, h]

/-- What is displayed of a value is read as its literal, and nothing but the target may be refused. -/
theorem check_display {name : String} (hname : isName name.toList) (hliteral : v.isLiteral)
    (hplugin : it.registry.contains name = false) (hvisible : isHidden name = false)
    (hlimit : v.nesting < it.limit) : ∃ loc tloc value,
      it.check (.text (name ++ " = " ++ v.display)) = .ok ⟨[⟨loc, .assign [.name tloc name] value⟩]⟩ ∧
        value.shape = v.literal.shape := by
  have hcanonical : (v.assignment name).isCanonical := isCanonical_assignment hname hliteral
  have hnesting : (v.assignment name).nesting < it.limit := by rwa [nesting_assignment name hliteral]
  obtain ⟨m, hparse, hshape⟩ := Module.parse_canonical hcanonical hnesting
  have hm : m.isCanonical := Module.isCanonical_of_shape hshape hcanonical
  rw [text_assignment name hliteral] at hparse
  obtain ⟨loc, tloc, value, rfl, hvalue⟩ := Module.of_shape_assignment hshape
  refine ⟨loc, tloc, value, check_text hparse ((Module.validate_canonical it.registry hm).mpr ?_), hvalue⟩
  intro target htarget
  obtain rfl : target = name := List.mem_singleton.mp htarget
  exact ⟨hplugin, hvisible⟩

/-- A submission that assigns the display of a value to a free name binds the value that was displayed, with
the items of its lists, sets and dicts in the same order. -/
theorem submit_display (it : Interpreter) {v : Value} (hliteral : v.isLiteral) (hwell : v.isWellFormed)
    (hfree : it.environment.contains "x" = false) (hplugin : it.registry.contains "x" = false)
    (hlimit : v.nesting < it.limit) :
    let outcome := it.submit (.text ("x = " ++ v.display))
    outcome.1 = .ok () ∧ outcome.2.environment.get? "x" = some v := by
  obtain ⟨loc, tloc, value, hcheck, hvalue⟩ :=
    check_display (by decide +kernel : isName "x".toList) hliteral hplugin rfl hlimit
  have hsentinel : isNoSentinel "x" := by decide
  obtain ⟨hresult, hbound⟩ := Module.run_assignment it.setting loc tloc hliteral hwell hvalue hlimit hfree hsentinel
  rw [show "x" ++ " = " = "x = " from rfl] at hcheck
  rw [submit_of_check hcheck]
  exact ⟨congrArg (Except.mapError Error.ofExecution) hresult, hbound⟩

/-- The key has both quotes and a line break, and the braces around it are read as those of a dict although the
value begins with another brace. -/
theorem submit_display_nested :
    let v : Value := .dict [(.str "it's \"a\"\n", .set [.int 1, .none]), (.bool true, .list [])]
    let outcome := (new Catalog.host).submit (.text ("x = " ++ v.display))
    outcome.1 = .ok () ∧ outcome.2.environment.get? "x" = some v := by
  intro v
  have hfree : (new Catalog.host).environment.contains "x" = false := by
    rw [Environment.contains_eq]
    rfl
  exact submit_display (new Catalog.host) (by decide +kernel) (by decide +kernel) hfree rfl (by decide +kernel)

end Interpreter
end ConfigSandbox
