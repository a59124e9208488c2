import ConfigSandbox.Proofs.Submission.Locations
import ConfigSandbox.Proofs.Submission.Sentinels

/-!
# Where a run fails

Every error of a run is put down to a node of the tree, but for one: the environment that a call adds to its
keywords lies one level deeper than the call, and if that is one too deep, the error has no place. The other
way in which the added keyword could fail is excluded, since its name is bound as long as statements run.
-/
namespace ConfigSandbox

theorem Reaches.trans {depth mid inner : Nat} {e part sub : Expr} (h : Reaches depth e mid part)
    (h' : Reaches mid part inner sub) : Reaches depth e inner sub := by
  induction h with
  | here => exact h'
  | listItem he _ ih => exact .listItem he (ih h')
  | setItem he _ ih => exact .setItem he (ih h')
  | key he _ ih => exact .key he (ih h')
  | value he _ ih => exact .value he (ih h')
  | argument he _ ih => exact .argument he (ih h')
  | keyword hk _ ih => exact .keyword hk (ih h')

/-- What a run comes to is in the tree, with all that is below it. -/
theorem Reaches.nodes_subset {depth inner : Nat} {e part : Expr} (h : Reaches depth e inner part) :
    part.outline.nodes ⊆ e.outline.nodes := by
  induction h with
  | here => exact List.Subset.refl _
  | listItem he _ ih | setItem he _ ih => exact fun o ho => Outline.nodes_of_part (mem_outlines he) (ih ho)
  | key he _ ih => exact fun o ho => Outline.nodes_of_part (mem_entryOutlines_pair he).1 (ih ho)
  | value he _ ih => exact fun o ho => Outline.nodes_of_part (mem_entryOutlines_pair he).2 (ih ho)
  | argument he _ ih => exact fun o ho => Outline.nodes_of_part (mem_callOutlines_argument he) (ih ho)
  | keyword hk _ ih =>
    intro o ho
    exact Outline.nodes_of_part (mem_callOutlines_keyword hk) (Outline.nodes_of_part List.mem_cons_self (ih ho))

namespace Module

/-- A run may come to the part, inside so many others. -/
def Reaches (m : Module) (inner : Nat) (part : Expr) : Prop :=
  ∃ e ∈ m.exprs, ConfigSandbox.Reaches 0 e inner part

/-- A statement or an expression stands there. -/
def HasNodeAt (m : Module) (loc : Location) : Prop :=
  ∃ o ∈ nodesIn m.outlines, o.kind ≠ .keyword ∧ o.loc = loc

section Nodes

variable {m : Module} {s : Statement} {e part : Expr} {inner : Nat}

theorem hasNodeAt_statement (hs : s ∈ m.body) : m.HasNodeAt s.loc := by
  refine ⟨s.outline, mem_nodesIn.mpr ⟨s.outline, List.mem_map_of_mem hs, s.outline.self_mem_nodes⟩, ?_, rfl⟩
  simp [Statement.outline, Outline.kind]

theorem hasNodeAt_of_mem (he : e ∈ m.exprs) (h : part.outline ∈ e.outline.nodes) : m.HasNodeAt part.loc := by
  obtain ⟨s, hs, he⟩ := List.mem_flatMap.mp he
  have hmem : part.outline ∈ s.outline.nodes := Outline.nodes_of_part (mem_outlines he) h
  refine ⟨part.outline, mem_nodesIn.mpr ⟨s.outline, List.mem_map_of_mem hs, hmem⟩, ?_, part.outline_loc⟩
  cases part <;> simp [Expr.outline, Outline.kind]

theorem Reaches.hasNodeAt (h : m.Reaches inner part) : m.HasNodeAt part.loc := by
  obtain ⟨e, he, hr⟩ := h
  exact hasNodeAt_of_mem he (hr.nodes_subset part.outline.self_mem_nodes)

variable {loc : Location} {func : Expr} {args : List Expr} {keywords : List Keyword}

theorem Reaches.hasNodeAt_func (h : m.Reaches inner (.call loc func args keywords)) :
    m.HasNodeAt func.loc := by
  obtain ⟨e, he, hr⟩ := h
  refine hasNodeAt_of_mem he (hr.nodes_subset ?_)
  exact Outline.nodes_of_part List.mem_cons_self func.outline.self_mem_nodes

theorem Reaches.next (h : m.Reaches inner e) (hr : ConfigSandbox.Reaches inner e (inner + 1) part) :
    m.HasNodeAt part.loc := by
  obtain ⟨root, hroot, h⟩ := h
  exact Reaches.hasNodeAt ⟨root, hroot, h.trans hr⟩

end Nodes

/-- A call on the last level that is allowed has the environment added to its keywords. -/
def AddsHandleAtLimit (st : Setting) (m : Module) : Prop :=
  ∃ inner loc func args keywords name p, m.Reaches inner (.call loc func args keywords) ∧
    inner + 1 = st.limit ∧ func.name? = some name ∧ st.registry.get? name = some p ∧
    p.lacksHandle keywords

end Module

def ExecutionFault.isDepth : ExecutionFault → Bool
  | .tooDeep .. => true
  | _ => false

/-- What an error of a run is put down to. -/
inductive ExecutionError.Blames (st : Setting) (m : Module) : ExecutionError → Prop
  /-- Anything but the depth, at a node. -/
  | node {fault : ExecutionFault} {loc : Location} (stands : m.HasNodeAt loc)
      (other : fault.isDepth = false) : Blames st m ⟨fault, loc⟩
  /-- The depth, at the first expression that lies too deep. -/
  | depth {part : Expr} (reached : m.Reaches st.limit part) :
      Blames st m ⟨.tooDeep (st.limit + 1) st.limit, part.loc⟩
  /-- The depth, at the environment that was added. -/
  | handle (added : m.AddsHandleAtLimit st) : Blames st m ⟨.tooDeep (st.limit + 1) st.limit, .synthetic⟩

namespace Eval

variable {α β : Type} {st : Setting} {m : Module} {depth inner : Nat} {loc : Location}

/-- From a machine that holds the sentinels, an error is put down to something, and otherwise the machine
holds the sentinels still. -/
def Accounts (st : Setting) (m : Module) (x : Eval α) : Prop :=
  ∀ machine : Machine, machine.environment.HoldsSentinels → Meets (·.Blames st m)
    (fun _ => (exec x machine).2.environment.HoldsSentinels) (exec x machine).1

namespace Accounts

theorem pure (a : α) : Accounts st m (pure a : Eval α) := fun _ hm => hm

theorem fail {fault : ExecutionFault} (h : ExecutionError.Blames st m ⟨fault, loc⟩) :
    Accounts st m (fail loc fault : Eval α) := fun _ _ => h

theorem bind {x : Eval α} {f : α → Eval β} (hx : Accounts st m x) (hf : ∀ a, Accounts st m (f a)) :
    Accounts st m (x >>= f) := by
  intro machine hm
  have hfirst := hx machine hm
  rcases hr : exec x machine with ⟨e | a, machine'⟩
  · rw [exec_bind_error hr]
    rw [hr] at hfirst
    exact hfirst
  · rw [exec_bind_ok hr]
    rw [hr] at hfirst
    exact hf a machine' hfirst

theorem closed (st : Setting) (m : Module) : Closed fun _ => Accounts st m := ⟨pure, bind⟩

/-- Refusing anything but the depth, at a node. -/
theorem refuse {fault : ExecutionFault} (hloc : m.HasNodeAt loc)
    (h : fault.isDepth = false) : Accounts st m (Eval.fail loc fault : Eval α) :=
  fail (.node hloc h)

end Accounts

/-! ### Steps -/

theorem checkDepth_accounts
    (h : st.limit ≤ depth → ExecutionError.Blames st m ⟨.tooDeep (depth + 1) st.limit, loc⟩) :
    Accounts st m (checkDepth st depth loc) := by
  unfold checkDepth
  split
  · rename_i hd
    exact .fail (h hd)
  · exact .pure ()

theorem checkHashable_accounts (hloc : m.HasNodeAt loc) (value : Value) :
    Accounts st m (checkHashable value loc) := by
  unfold checkHashable
  split
  · exact .pure ()
  · exact .refuse hloc rfl

theorem lookup_accounts (hloc : m.HasNodeAt loc) (name : String) : Accounts st m (lookup st loc name) := by
  unfold lookup
  split
  · exact .pure _
  · refine .bind (fun _ hm => hm) fun machine => ?_
    split
    · exact .pure _
    · exact .refuse hloc rfl

/-- The name that passes the environment is bound, to a plugin or to the sentinel. -/
theorem lookup_handle_accounts : Accounts st m (lookup st loc handleKey) := by
  unfold lookup
  split
  · exact .pure _
  · intro machine hm
    rw [exec_get_bind, hm.handle]
    exact hm

theorem addKeyword_accounts (hloc : m.HasNodeAt loc) (plugin : String) (passed : Passed) (name : String)
    (value : Value) : Accounts st m (addKeyword loc plugin passed name value) := by
  unfold addKeyword
  split
  · exact .refuse hloc rfl
  · split
    · split <;> exact .pure _
    · exact .pure _

theorem passHandle_accounts (hloc : m.HasNodeAt loc) {p : Plugin} {keywords : List Keyword}
    (hinner : inner < st.limit)
    (h : inner + 1 = st.limit → p.lacksHandle keywords → m.AddsHandleAtLimit st) (plugin : String)
    (passed : Passed) : Accounts st m (passHandle st (inner + 1) loc plugin p keywords passed) := by
  unfold passHandle
  split
  · rename_i hlacks
    refine .bind (checkDepth_accounts fun hd => ?_) fun _ => ?_
    · have hlast : inner + 1 = st.limit := Nat.le_antisymm hinner hd
      rw [hlast]
      exact .handle (h hlast hlacks)
    · exact .bind lookup_handle_accounts fun handle =>
        addKeyword_accounts hloc plugin passed handleKeyword handle
  · exact .pure passed

theorem invoke_accounts (hloc : m.HasNodeAt loc) (plugin : String) (f : Function) (args : List Value)
    (passed : Passed) : Accounts st m (invoke st loc plugin f args passed) := by
  intro machine hm
  have hkeeps : (exec (invoke st loc plugin f args passed) machine).2.environment.HoldsSentinels := by
    rw [exec_invoke]
    exact hm.of_hidden (Script.run_hidden _ _ _)
  rw [exec_invoke] at hkeeps ⊢
  dsimp only at hkeeps ⊢
  generalize (st.host machine.calls.length f _).run machine.environment passed.hasHandle = answer at hkeeps ⊢
  obtain ⟨result, env⟩ := answer
  cases result with
  | ok value => exact hkeeps
  | error fault => exact .node hloc rfl

theorem bindNew_accounts (hloc : m.HasNodeAt loc) (name : String) (value : Value) :
    Accounts st m (bindNew loc name value) := by
  intro machine hm
  unfold bindNew
  rw [exec_get_bind]
  split
  · exact .node hloc rfl
  · rename_i hc
    exact hm.insert (by simpa using hc) value

/-! ### Expressions and statements -/

theorem steps_account {part : Expr} (hr : m.Reaches inner part) (hinner : inner < st.limit) :
    StepsAt (fun _ => Accounts st m) st inner part := by
  have hloc := hr.hasNodeAt
  constructor
  case entered => exact checkDepth_accounts fun hd => absurd hinner (Nat.not_lt.mpr hd)
  case refused => exact fun _ => .refuse hloc rfl
  case name =>
    rintro loc id rfl
    exact lookup_accounts hloc id
  case item =>
    rintro loc items rfl item hitem value
    exact checkHashable_accounts (hr.next (.setItem hitem (.here ..))) value
  case key =>
    rintro loc entries rfl k v he value
    exact checkHashable_accounts (hr.next (.key he (.here ..))) value
  case unpacked =>
    rintro loc entries rfl v _
    exact .refuse hloc rfl
  case call =>
    rintro loc func args keywords rfl
    constructor
    case unnamed => exact fun _ => .refuse hr.hasNodeAt_func rfl
    case unknown => exact fun _ _ _ => .refuse hloc rfl
    case uncallable => exact fun _ _ _ _ _ => .refuse hloc rfl
    case unpacked => exact fun _ _ _ => .refuse hloc rfl
    case named =>
      exact fun plugin _ name _ _ _ passed value => addKeyword_accounts hloc plugin passed name value
    case handle =>
      intro name p hn hp passed
      refine passHandle_accounts hloc hinner (fun hlast hlacks => ?_) name passed
      exact ⟨inner, loc, func, args, keywords, name, p, hr, hlast, hn, hp, hlacks⟩
    case invoked => exact fun name p f _ _ _ args passed => invoke_accounts hloc name f args passed

theorem expr_accounts {e : Expr} (he : e ∈ m.exprs) : Accounts st m (expr st 0 e) := by
  refine expr_closed_of_lt (Accounts.closed st m) st (Nat.zero_le _) e (fun inner part hr hle => ?_)
    fun inner part hr hlt => steps_account ⟨e, he, hr⟩ hlt
  refine checkDepth_accounts fun hd => ?_
  obtain rfl := Nat.le_antisymm hle hd
  exact .depth ⟨e, he, hr⟩

theorem statement_accounts {s : Statement} (hs : s ∈ m.body) : Accounts st m (statement st s) := by
  have hstatement := Module.hasNodeAt_statement hs
  have hexpr {e : Expr} (he : e ∈ s.kind.exprs) : e ∈ m.exprs := List.mem_flatMap.mpr ⟨s, hs, he⟩
  unfold statement
  split
  · rename_i target value hkind
    have htarget : target ∈ s.kind.exprs := by simp [hkind, StatementKind.exprs]
    have hvalue : value ∈ s.kind.exprs := by simp [hkind, StatementKind.exprs]
    split
    · exact .refuse (Module.hasNodeAt_of_mem (hexpr htarget) target.outline.self_mem_nodes) rfl
    · exact .bind (expr_accounts (hexpr hvalue)) fun v => bindNew_accounts hstatement _ v
  · exact .refuse hstatement rfl
  · rename_i loc func args keywords hkind
    have hcall : .call loc func args keywords ∈ s.kind.exprs := by simp [hkind, StatementKind.exprs]
    exact .bind (expr_accounts (hexpr hcall)) fun _ => .pure ()
  · exact .refuse hstatement rfl

end Eval

namespace Module

variable {st : Setting} {env : Environment} {m : Module} {err : ExecutionError}

theorem run_blames (h : (m.run st env).result = .error err) : err.Blames st m := by
  have hbody : Eval.Accounts st m (Eval.statements st m.body) :=
    Eval.statements_closed (Eval.Accounts.closed st m) fun s hs => Eval.statement_accounts hs
  have hrun := hbody ⟨env.withSentinels, []⟩ env.withSentinels_holds
  exact hrun.error h

theorem hasNodeAt_fits {limit : Nat} {source : String} {loc : Location}
    (hm : Module.parse limit source = .ok m) (h : m.HasNodeAt loc) : loc.Fits source := by
  obtain ⟨o, ho, -, rfl⟩ := h
  obtain ⟨root, hroot, ho⟩ := mem_nodesIn.mp ho
  exact ((((parse_located limit source).ok hm).exact root hroot).of_mem_nodes ho).fits

/-- No line of a text has the number of what was added. -/
theorem not_hasNodeAt_synthetic {limit : Nat} {source : String}
    (hm : Module.parse limit source = .ok m) : ¬ m.HasNodeAt .synthetic := by
  intro h
  have hline : 1 ≤ Location.synthetic.line := (hasNodeAt_fits hm h).line_pos
  exact absurd hline (by decide)

/-- Every error points into the text, unless it is about the environment that a call on the last level adds
to its keywords. -/
theorem run_error_located {limit : Nat} {source : String} (hm : Module.parse limit source = .ok m)
    (h : (m.run st env).result = .error err) :
    (m.HasNodeAt err.loc ∧ 1 ≤ err.loc.line ∧ err.loc.Fits source) ∨
      (err = ⟨.tooDeep (st.limit + 1) st.limit, .synthetic⟩ ∧ m.AddsHandleAtLimit st) := by
  have hnode {loc : Location} (hloc : m.HasNodeAt loc) :
      m.HasNodeAt loc ∧ 1 ≤ loc.line ∧ loc.Fits source := by
    have hfits := hasNodeAt_fits hm hloc
    exact ⟨hloc, hfits.line_pos, hfits⟩
  cases run_blames h with
  | node stands _ => exact Or.inl (hnode stands)
  | depth reached => exact Or.inl (hnode reached.hasNodeAt)
  | handle added => exact Or.inr ⟨rfl, added⟩

/-- A key that cannot be one, on the second line of a dict. -/
theorem run_error_located_key :
    let source := "x = \x7b1: 'ß',\n [2]: 3\x7d"
    let st : Setting := ⟨.empty, Catalog.host, 9⟩
    ∃ m err, Module.parse 9 source = .ok m ∧ (m.run st .empty).result = .error err ∧
      err = ⟨.unhashable "list", ⟨2, ⟨15, 18⟩⟩⟩ ∧
      ((m.HasNodeAt err.loc ∧ 1 ≤ err.loc.line ∧ err.loc.Fits source) ∨
        (err = ⟨.tooDeep (st.limit + 1) st.limit, .synthetic⟩ ∧ m.AddsHandleAtLimit st)) := by
  intro source st
  have htest : ((Module.parse 9 source).map fun m => (m.run st .empty).result) =
      .ok (.error ⟨.unhashable "list", ⟨2, ⟨15, 18⟩⟩⟩) := by decide +kernel
  obtain ⟨m, hm, hrun⟩ := exists_of_map_eq_ok htest
  exact ⟨m, _, hm, hrun, rfl, run_error_located hm hrun⟩

/-- A call on the only level, of a function that asks for the environment. -/
theorem run_error_unlocated :
    let st : Setting := ⟨Registry.empty.insert "ctx" (.function ⟨"ctx", true, 0⟩), Catalog.host, 1⟩
    ∃ m err, Module.parse 9 "ctx()" = .ok m ∧ (m.run st .empty).result = .error err ∧
      err.loc.line = 0 ∧ ¬ m.HasNodeAt err.loc := by
  intro st
  have htest : ((Module.parse 9 "ctx()").map fun m => (m.run st .empty).result) =
      .ok (.error ⟨.tooDeep 2 1, .synthetic⟩) := by decide +kernel
  obtain ⟨m, hm, hrun⟩ := exists_of_map_eq_ok htest
  exact ⟨m, _, hm, hrun, rfl, not_hasNodeAt_synthetic hm⟩

end Module
end ConfigSandbox
