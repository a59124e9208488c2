import ConfigSandbox.Plugin.Catalog
import ConfigSandbox.Proofs.Environment.Row
import ConfigSandbox.Proofs.Submission.Sentinels
import ConfigSandbox.Proofs.Value.WellFormed

/-!
# Values stay well formed

Evaluation makes values of three kinds: it reads them from the environment and the registry, it builds them
of literals, and it gets them from functions. Lists, sets and dicts are built of well-formed parts, and the
items of a set and the keys of a dict are looked at before they are used. Functions are trusted here: of
each it is assumed that it hands out and stores well-formed values only, as long as it is given such.
-/
namespace ConfigSandbox

/-! ### What the environment holds -/

/-- Every value that stands in the environment is well formed. -/
def Environment.HoldsWellFormed (env : Environment) : Prop := ∀ e ∈ env.toList, e.2.isWellFormed

namespace OrderedMap

variable {entries added : List Entry} {key : String} {value : Value} {e : Entry}

theorem mem_of_get? (h : get? entries key = some value) : (key, value) ∈ entries := by
  obtain ⟨e, hfind, rfl⟩ := Option.map_eq_some_iff.mp h
  have hkey : e.1 = key := by simpa using List.find?_some hfind
  rw [← hkey]
  exact List.mem_of_find?_eq_some hfind

theorem mem_insert (h : e ∈ insert key value entries) : e ∈ entries ∨ e = (key, value) := by
  induction entries with
  | nil => exact Or.inr (List.mem_singleton.mp h)
  | cons e' rest ih =>
    rw [insert] at h
    split at h
    · rcases List.mem_cons.mp h with rfl | h
      · exact Or.inr rfl
      · exact Or.inl (List.mem_cons_of_mem _ h)
    · rcases List.mem_cons.mp h with rfl | h
      · exact Or.inl List.mem_cons_self
      · exact (ih h).imp_left (List.mem_cons_of_mem _)

theorem mem_of_mem_erase (h : e ∈ erase entries key) : e ∈ entries := (List.mem_filter.mp h).1

theorem mem_of_mem_foldl_erase {names : List String} (h : e ∈ names.foldl erase entries) : e ∈ entries := by
  induction names generalizing entries with
  | nil => exact h
  | cons name names ih => exact mem_of_mem_erase (ih h)

theorem mem_insertAll (h : e ∈ insertAll entries added) : e ∈ entries ∨ e ∈ added := by
  induction added generalizing entries with
  | nil => exact Or.inl h
  | cons a rest ih =>
    rcases ih h with h | h
    · rcases mem_insert h with h | rfl
      · exact Or.inl h
      · exact Or.inr List.mem_cons_self
    · exact Or.inr (List.mem_cons_of_mem _ h)

end OrderedMap

/-- The values that an operation hands to the environment to keep. -/
def ViewOp.stored : ViewOp → List Value
  | insert _ value | setDefault _ value => [value]
  | update entries => entries.map Prod.snd
  | _ => []

/-- What stands in the row after an operation stood there before or was handed over. -/
theorem ViewOp.mem_onRow {visible row : List Entry} {op : ViewOp} {e : Entry}
    (h : e ∈ op.onRow visible row) : e ∈ row ∨ e.2 ∈ op.stored := by
  have hinsert {key : String} {value : Value} (h : e ∈ OrderedMap.insert key value row) :
      e ∈ row ∨ e.2 ∈ [value] := by
    rcases OrderedMap.mem_insert h with h | rfl
    · exact Or.inl h
    · exact Or.inr List.mem_cons_self
  cases op with
  | size | isEmpty | keys | items | display | contains | get | getOr => exact Or.inl h
  | clear => exact Or.inl (OrderedMap.mem_of_mem_foldl_erase h)
  | remove | pop | removeOr => exact Or.inl (OrderedMap.mem_of_mem_erase h)
  | insert key value => exact hinsert h
  | popLast =>
    rw [onRow] at h
    cases hlast : visible.getLast? with
    | none =>
      rw [hlast] at h
      exact Or.inl h
    | some last =>
      rw [hlast] at h
      exact Or.inl (OrderedMap.mem_of_mem_erase h)
  | setDefault key value =>
    rw [onRow] at h
    split at h
    · exact Or.inl h
    · exact hinsert h
  | update added =>
    rcases OrderedMap.mem_insertAll h with h | h
    · exact Or.inl h
    · exact Or.inr (List.mem_map_of_mem (List.mem_filter.mp h).1)

namespace Environment.HoldsWellFormed

variable {env : Environment}

theorem get? (h : env.HoldsWellFormed) {key : String} {value : Value} (hget : env.get? key = some value) :
    value.isWellFormed := by
  rw [get?_eq] at hget
  exact h _ (OrderedMap.mem_of_get? hget)

theorem insert (h : env.HoldsWellFormed) {value : Value} (hvalue : value.isWellFormed) (key : String) :
    (env.insert key value).2.HoldsWellFormed := by
  intro e he
  rw [toList_insert] at he
  rcases OrderedMap.mem_insert he with he | rfl
  · exact h e he
  · exact hvalue

theorem withSentinels (h : env.HoldsWellFormed) : env.withSentinels.HoldsWellFormed := by
  intro e he
  rw [toList_withSentinels] at he
  rcases OrderedMap.mem_insert he with he | rfl
  · rcases OrderedMap.mem_insert he with he | rfl
    · exact h e he
    · rfl
  · rfl

theorem withoutSentinels (h : env.HoldsWellFormed) : env.withoutSentinels.HoldsWellFormed := by
  intro e he
  rw [toList_withoutSentinels] at he
  exact h e (OrderedMap.mem_of_mem_erase (OrderedMap.mem_of_mem_erase he))

theorem run (h : env.HoldsWellFormed) {op : ViewOp} (hstored : ∀ value ∈ op.stored, value.isWellFormed) :
    (op.run env).2.HoldsWellFormed := by
  cases hr : op.refusal? with
  | some reply =>
    rw [ViewOp.run_of_refusal env hr]
    exact h
  | none =>
    intro e he
    rw [ViewOp.toList_run env hr] at he
    rcases ViewOp.mem_onRow he with he | he
    · exact h e he
    · exact hstored _ he

end Environment.HoldsWellFormed

/-! ### What functions do -/

/-- What a function is called with, apart from the environment. -/
def Call.HoldsWellFormed (call : Call) : Prop :=
  (∀ value ∈ call.args, value.isWellFormed) ∧ ∀ k ∈ call.kwargs, k.2.isWellFormed

/-- On its way through this environment the script stores well-formed values only, and ends with one unless
it ends with an error. -/
def Script.KeepsForm (hasHandle : Bool) : Script Value → Environment → Prop
  | done result, _ => ∀ value, result = .ok value → value.isWellFormed
  | ask op next, env => hasHandle →
    (∀ value ∈ op.stored, value.isWellFormed) ∧ (next (op.run env).1).KeepsForm hasHandle (op.run env).2

theorem Script.holdsWellFormed_run {script : Script Value} {hasHandle : Bool} {env : Environment}
    (h : script.KeepsForm hasHandle env) (henv : env.HoldsWellFormed) :
    (script.run env hasHandle).2.HoldsWellFormed ∧
      ∀ value, (script.run env hasHandle).1 = .ok value → value.isWellFormed := by
  induction script generalizing env with
  | done result => exact ⟨henv, h⟩
  | ask op next ih =>
    cases hasHandle with
    | false => exact ⟨henv, fun value hv => by cases hv⟩
    | true =>
      obtain ⟨hstored, hnext⟩ := h rfl
      exact ih (op.run env).1 hnext (henv.run hstored)

/-- What is registered is well formed, and the functions among it keep what they are given so. -/
def Setting.KeepsForm (st : Setting) : Prop :=
  ∀ name p, st.registry.get? name = some p → p.value.isWellFormed ∧
    ∀ f, p.function? = some f → ∀ n (call : Call) (env : Environment), call.HoldsWellFormed →
      env.HoldsWellFormed → (st.host n f call).KeepsForm call.hasHandle env

/-! ### The evaluation of an expression -/

structure Machine.HoldsWellFormed (m : Machine) : Prop where
  environment : m.environment.HoldsWellFormed
  calls : ∀ i ∈ m.calls, i.call.HoldsWellFormed ∧ i.environment.HoldsWellFormed

namespace Eval

variable {α β : Type} {P : α → Prop} {R : β → Prop} {st : Setting} {depth : Nat} {loc : Location}

/-- The machine holds well-formed values afterwards if it does before, and then a result satisfies the
predicate. -/
def Keeps (P : α → Prop) (x : Eval α) : Prop :=
  ∀ m : Machine, m.HoldsWellFormed → (exec x m).2.HoldsWellFormed ∧ ∀ a, (exec x m).1 = .ok a → P a

namespace Keeps

theorem pure {a : α} (h : P a) : Keeps P (pure a : Eval α) := fun _ hm => ⟨hm, fun _ ha => by cases ha; exact h⟩

theorem fail (loc : Location) (fault : ExecutionFault) : Keeps P (fail loc fault : Eval α) :=
  fun _ hm => ⟨hm, fun _ ha => by cases ha⟩

theorem bind {x : Eval α} {f : α → Eval β} (hx : Keeps P x) (hf : ∀ a, P a → Keeps R (f a)) :
    Keeps R (x >>= f) := by
  intro m hm
  obtain ⟨hm', ha⟩ := hx m hm
  rcases hr : exec x m with ⟨e | a, m'⟩
  · rw [exec_bind_error hr]
    rw [hr] at hm'
    exact ⟨hm', fun _ hb => by cases hb⟩
  · rw [exec_bind_ok hr]
    rw [hr] at hm' ha
    exact hf a (ha a rfl) m' hm'

end Keeps

/-- Keyword arguments so far. -/
def Passed.HoldsWellFormed (passed : Passed) : Prop := ∀ k ∈ passed.kwargs, k.2.isWellFormed

theorem checkDepth_keeps (st : Setting) (depth : Nat) (loc : Location) :
    Keeps (fun _ => True) (checkDepth st depth loc) := by
  unfold checkDepth
  split
  · exact .fail _ _
  · exact .pure trivial

theorem checkHashable_keeps (value : Value) (loc : Location) :
    Keeps (fun _ => value.isHashable) (checkHashable value loc) := by
  unfold checkHashable
  split
  · exact .pure ‹_›
  · exact .fail _ _

theorem lookup_keeps (hst : st.KeepsForm) (loc : Location) (name : String) :
    Keeps (·.isWellFormed) (lookup st loc name) := by
  unfold lookup
  split
  · rename_i p hp
    exact .pure (hst name p hp).1
  · intro m hm
    rw [exec_get_bind]
    split
    · rename_i value hget
      exact ⟨hm, fun found hfound => by cases hfound; exact hm.environment.get? hget⟩
    · exact Keeps.fail _ _ m hm

theorem addKeyword_keeps (plugin : String) {passed : Passed} (hpassed : passed.HoldsWellFormed)
    (name : String) {value : Value} (hvalue : value.isWellFormed) :
    Keeps Passed.HoldsWellFormed (addKeyword loc plugin passed name value) := by
  have hadded : ∀ k ∈ passed.kwargs ++ [(name, value)], k.2.isWellFormed := by
    intro k hk
    rcases List.mem_append.mp hk with hk | hk
    · exact hpassed k hk
    · rw [List.mem_singleton.mp hk]
      exact hvalue
  unfold addKeyword
  split
  · exact .fail _ _
  · split
    · split
      · exact .pure hpassed
      · exact .pure hadded
    · exact .pure hadded

theorem passHandle_keeps (hst : st.KeepsForm) (plugin : String) (p : Plugin) (keywords : List Keyword)
    {passed : Passed} (hpassed : passed.HoldsWellFormed) :
    Keeps Passed.HoldsWellFormed (passHandle st depth loc plugin p keywords passed) := by
  unfold passHandle
  split
  · refine (checkDepth_keeps st depth .synthetic).bind fun _ _ => ?_
    refine (lookup_keeps hst .synthetic handleKey).bind fun handle hhandle => ?_
    exact addKeyword_keeps plugin hpassed handleKeyword hhandle
  · exact .pure hpassed

theorem invoke_keeps (hst : st.KeepsForm) {plugin : String} {p : Plugin} {f : Function}
    (hp : st.registry.get? plugin = some p) (hf : p.function? = some f) {args : List Value}
    (hargs : ∀ value ∈ args, value.isWellFormed) {passed : Passed} (hpassed : passed.HoldsWellFormed) :
    Keeps (·.isWellFormed) (invoke st loc plugin f args passed) := by
  intro m hm
  have hcall : (⟨args, passed.kwargs, passed.hasHandle⟩ : Call).HoldsWellFormed := ⟨hargs, hpassed⟩
  obtain ⟨henv, hresult⟩ := Script.holdsWellFormed_run
    ((hst plugin p hp).2 f hf m.calls.length _ m.environment hcall hm.environment) hm.environment
  rw [exec_invoke]
  refine ⟨⟨henv, List.forall_mem_cons.mpr ⟨⟨hcall, hm.environment⟩, hm.calls⟩⟩, fun value hv => ?_⟩
  dsimp only at hv
  cases hr : ((st.host m.calls.length f ⟨args, passed.kwargs, passed.hasHandle⟩).run m.environment
      passed.hasHandle).1 with
  | error e =>
    rw [hr] at hv
    cases hv
  | ok value' =>
    rw [hr] at hv
    cases hv
    exact hresult value hr

theorem callee_keeps (loc : Location) (name : String) : Keeps
    (fun found => st.registry.get? name = some found.1 ∧ found.1.function? = some found.2)
    (callee st loc name) := by
  unfold callee
  split
  · exact .fail _ _
  · split
    · exact .fail _ _
    · exact .pure ⟨‹_›, ‹_›⟩

theorem constant_keeps (loc : Location) (value : Constant) : Keeps (·.isWellFormed) (constant loc value) := by
  cases value with
  | none | bool | int | float | str => exact .pure rfl
  | bytes | ellipsis => exact .fail _ _

theorem exprs_keeps {items : List Expr}
    (h : ∀ e ∈ items, Keeps (·.isWellFormed) (expr st depth e)) :
    Keeps (fun values => ∀ value ∈ values, value.isWellFormed) (exprs st depth items) := by
  induction items with
  | nil => exact .pure (List.forall_mem_nil _)
  | cons e rest ih =>
    obtain ⟨he, hrest⟩ := List.forall_mem_cons.mp h
    refine he.bind fun value hvalue => (ih hrest).bind fun values hvalues => ?_
    exact .pure (List.forall_mem_cons.mpr ⟨hvalue, hvalues⟩)

theorem hashables_keeps {items : List Expr}
    (h : ∀ e ∈ items, Keeps (·.isWellFormed) (expr st depth e)) :
    Keeps (fun values => ∀ value ∈ values, value.isHashable ∧ value.isWellFormed)
      (hashables st depth items) := by
  induction items with
  | nil => exact .pure (List.forall_mem_nil _)
  | cons e rest ih =>
    obtain ⟨he, hrest⟩ := List.forall_mem_cons.mp h
    refine he.bind fun value hvalue => (checkHashable_keeps value e.loc).bind fun _ hhashable => ?_
    refine (ih hrest).bind fun values hvalues => ?_
    exact .pure (List.forall_mem_cons.mpr ⟨⟨hhashable, hvalue⟩, hvalues⟩)

theorem dictEntries_keeps {entries : List DictEntry} (h : ∀ k v, .pair k v ∈ entries →
      Keeps (·.isWellFormed) (expr st depth k) ∧ Keeps (·.isWellFormed) (expr st depth v)) :
    Keeps (fun values => ∀ e ∈ values, e.1.isHashable ∧ e.1.isWellFormed ∧ e.2.isWellFormed)
      (dictEntries st depth loc entries) := by
  induction entries with
  | nil => exact .pure (List.forall_mem_nil _)
  | cons entry rest ih =>
    cases entry with
    | unpack v => exact .fail _ _
    | pair k v =>
      obtain ⟨hk, hv⟩ := h k v List.mem_cons_self
      refine hk.bind fun key hkey => (checkHashable_keeps key k.loc).bind fun _ hhashable => ?_
      refine hv.bind fun value hvalue => ?_
      refine (ih fun k' v' he => h k' v' (List.mem_cons_of_mem _ he)).bind fun values hvalues => ?_
      exact .pure (List.forall_mem_cons.mpr ⟨⟨hhashable, hkey, hvalue⟩, hvalues⟩)

theorem namedArguments_keeps {keywords : List Keyword}
    (h : ∀ k ∈ keywords, Keeps (·.isWellFormed) (expr st depth k.value)) (plugin : String)
    {passed : Passed} (hpassed : passed.HoldsWellFormed) :
    Keeps Passed.HoldsWellFormed (namedArguments st depth loc plugin passed keywords) := by
  induction keywords generalizing passed with
  | nil => exact .pure hpassed
  | cons k rest ih =>
    obtain ⟨hk, hrest⟩ := List.forall_mem_cons.mp h
    cases k with
    | unpack kloc v => exact .fail _ _
    | named kloc name v =>
      refine hk.bind fun value hvalue => ?_
      exact (addKeyword_keeps plugin hpassed name hvalue).bind fun passed hpassed => ih hrest hpassed

theorem expr_keeps (hst : st.KeepsForm) (depth : Nat) (e : Expr) :
    Keeps (·.isWellFormed) (expr st depth e) := by
  induction e using Expr.induction_on_forms generalizing depth with
  | name loc id => exact (checkDepth_keeps _ _ _).bind fun _ _ => lookup_keeps hst loc id
  | constant loc value => exact (checkDepth_keeps _ _ _).bind fun _ _ => constant_keeps loc value
  | list loc items ih =>
    refine (checkDepth_keeps _ _ _).bind fun _ _ => ?_
    refine (exprs_keeps fun e he => ih e he (depth + 1)).bind fun values hvalues => ?_
    exact .pure (Value.allWellFormed_iff.mpr hvalues)
  | set loc items ih =>
    refine (checkDepth_keeps _ _ _).bind fun _ _ => ?_
    refine (hashables_keeps fun e he => ih e he (depth + 1)).bind fun values hvalues => ?_
    exact .pure (Value.setOf_isWellFormed hvalues)
  | dict loc entries ih =>
    refine (checkDepth_keeps _ _ _).bind fun _ _ => ?_
    refine (dictEntries_keeps fun k v he => ⟨(ih k v he).1 (depth + 1), (ih k v he).2 (depth + 1)⟩).bind
      fun values hvalues => ?_
    exact .pure (Value.dictOf_isWellFormed hvalues)
  | call loc func args keywords ihargs ihkeywords =>
    refine (checkDepth_keeps _ _ _).bind fun _ _ => ?_
    dsimp only
    split
    · exact .fail _ _
    · rename_i name hname
      refine (callee_keeps loc name).bind fun found ⟨hp, hf⟩ => ?_
      refine (exprs_keeps fun e he => ihargs e he (depth + 1)).bind fun values hvalues => ?_
      have hnone : Passed.HoldsWellFormed ⟨[], false⟩ := List.forall_mem_nil _
      refine (namedArguments_keeps (fun k hk => ihkeywords k hk (depth + 1)) name hnone).bind
        fun passed hpassed => ?_
      refine (passHandle_keeps hst name found.1 keywords hpassed).bind fun passed hpassed => ?_
      exact invoke_keeps hst hp hf hvalues hpassed
  | refused e he =>
    rw [Expr.eval_of_refused st depth he]
    exact (checkDepth_keeps _ _ _).bind fun _ _ => .fail _ _

/-! ### Statements -/

theorem bindNew_keeps (loc : Location) (name : String) {value : Value} (hvalue : value.isWellFormed) :
    Keeps (fun _ => True) (bindNew loc name value) := by
  intro m hm
  refine ⟨?_, fun _ _ => trivial⟩
  rw [exec_bindNew]
  split
  · exact hm
  · exact ⟨hm.environment.insert hvalue name, hm.calls⟩

theorem statement_keeps (hst : st.KeepsForm) (s : Statement) : Keeps (fun _ => True) (statement st s) := by
  rcases statement_cases st s with ⟨tloc, name, value, -, hrun⟩ | ⟨loc, func, args, keywords, -, hrun⟩ |
    ⟨⟨loc, construct, hrun⟩, -⟩
  · rw [hrun]
    exact (expr_keeps hst 0 value).bind fun v hv => bindNew_keeps s.loc name hv
  · rw [hrun]
    exact (expr_keeps hst 0 _).bind fun _ _ => .pure trivial
  · rw [hrun]
    exact .fail _ _

theorem statements_keeps (hst : st.KeepsForm) (body : List Statement) :
    Keeps (fun _ => True) (statements st body) := by
  induction body with
  | nil => exact .pure trivial
  | cons s rest ih => exact (statement_keeps hst s).bind fun _ _ => ih

end Eval

/-- Whatever the module and however its run ends: the environment holds well-formed values afterwards, and each
function that was called was called with such, on an environment that held such. -/
theorem Module.run_holdsWellFormed {st : Setting} (hst : st.KeepsForm) {env : Environment}
    (henv : env.HoldsWellFormed) (m : Module) : (m.run st env).environment.HoldsWellFormed ∧
      ∀ i ∈ (m.run st env).calls, i.call.HoldsWellFormed ∧ i.environment.HoldsWellFormed := by
  have hstart : (⟨env.withSentinels, []⟩ : Machine).HoldsWellFormed :=
    ⟨henv.withSentinels, List.forall_mem_nil _⟩
  obtain ⟨hlast, -⟩ := Eval.statements_keeps hst m.body _ hstart
  refine ⟨?_, fun i hi => ?_⟩
  · rw [run_environment]
    exact hlast.environment.withoutSentinels
  · rw [run_calls] at hi
    exact hlast.calls i hi

/-- The function keeps its first argument under a name of its own. It is given a set in which an item equals an
earlier one, and two values that stood there before. -/
theorem Module.run_holdsWellFormed_keep :
    let keep : Plugin := .function ⟨"keep", true, 0⟩
    let bounds : Plugin := .constant (.dict [(.str "low", .int 1), (.str "high", .int 3)])
    let host : Host := fun _ _ call => .ask (.insert "kept" (call.args.headD .none)) fun _ =>
      .done (.ok (.list call.args))
    let st : Setting := ⟨(Registry.empty.insert "keep" keep).insert "bounds" bounds, host, 9⟩
    let env := Environment.ofList [("a", .set [.int 1, .str "b"])]
    let item (value : Constant) : Expr := .constant .synthetic value
    let m : Module := ⟨[⟨.synthetic, .expr (.call .synthetic (.name .synthetic "keep")
      [.set .synthetic [item (.int 1), item (.bool true), item (.int 2)], .name .synthetic "bounds",
        .name .synthetic "a"] [])⟩]⟩
    st.KeepsForm ∧ env.HoldsWellFormed ∧ (m.run st env).environment.HoldsWellFormed ∧
      ∀ i ∈ (m.run st env).calls, i.call.HoldsWellFormed ∧ i.environment.HoldsWellFormed := by
  intro keep bounds host st env item m
  have henv : env.HoldsWellFormed := by
    have hrow : env.toList = [("a", .set [.int 1, .str "b"])] := Environment.toList_insertAll _ _
    intro e he
    rw [hrow] at he
    rw [List.mem_singleton.mp he]
    decide +kernel
  have hst : st.KeepsForm := by
    intro name p hp
    have hlookup : List.lookup name [("bounds", bounds), ("keep", keep)] = some p := hp
    rw [List.lookup_cons] at hlookup
    split at hlookup
    · cases hlookup
      exact ⟨by decide +kernel, fun f hf => by cases hf⟩
    · rw [List.lookup_cons] at hlookup
      split at hlookup
      · cases hlookup
        refine ⟨rfl, fun f _ n call env hcall _ _ => ⟨fun value hvalue => ?_, fun value hvalue => ?_⟩⟩
        · rw [List.mem_singleton.mp hvalue]
          cases hargs : call.args with
          | nil => rfl
          | cons first rest => exact hcall.1 first (hargs ▸ List.mem_cons_self)
        · cases hvalue
          exact Value.allWellFormed_iff.mpr hcall.1
      · cases hlookup
  exact ⟨hst, henv, run_holdsWellFormed hst henv m⟩

end ConfigSandbox
