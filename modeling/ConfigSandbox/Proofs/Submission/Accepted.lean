import ConfigSandbox.Proofs.Submission.Growth
import ConfigSandbox.Proofs.Submission.Validated
import ConfigSandbox.Proofs.Tree.Scanned
import ConfigSandbox.Tree.Parse

/-!
# What is written canonically is read and accepted

A canonical tree is read back from its text within every limit above its brackets. Validation then has nothing
to refuse but the names that are assigned: it looks at no location, so it does not matter that the tree that
is read has other ones than the tree that was written.
-/
namespace ConfigSandbox

/-! ### Canonical trees and locations -/

theorem names_keywordShapes (keywords : List Keyword) :
    (keywordShapes keywords).map Keyword.name? = keywords.map Keyword.name? := by
  induction keywords with
  | nil => rfl
  | cons k rest ih => cases k <;> rw [keywordShapes, List.map_cons, ih] <;> rfl

mutual

theorem Expr.isCanonical_shape : (e : Expr) → e.shape.isCanonical = e.isCanonical
  | .list _ items => allCanonical_shapes items
  | .set _ items => by
    rw [Expr.shape, Expr.isCanonical, Expr.isCanonical, allCanonical_shapes items]
    cases items <;> rfl
  | .dict _ entries => entriesCanonical_shapes entries
  | .call _ func args keywords => by
    cases func with
    | name loc id =>
      rw [Expr.shape, Expr.shape, Expr.isCanonical, Expr.isCanonical, allCanonical_shapes args,
        keywordsCanonical_shapes keywords, names_keywordShapes]
    | _ => rfl
  | .name .. | .constant .. | .tuple .. | .member .. | .subscript .. | .slice .. | .binary .. | .unary ..
  | .conditional .. | .lambda .. | .starred .. | .comprehension .. | .formatStr .. => rfl

theorem allCanonical_shapes : (items : List Expr) → allCanonical (shapes items) = allCanonical items
  | [] => rfl
  | e :: rest => by rw [shapes, allCanonical, allCanonical, e.isCanonical_shape, allCanonical_shapes rest]

theorem entriesCanonical_shapes : (entries : List DictEntry) →
    entriesCanonical (entryShapes entries) = entriesCanonical entries
  | [] => rfl
  | .pair key value :: rest => by
    rw [entryShapes, entriesCanonical, entriesCanonical, key.isCanonical_shape, value.isCanonical_shape,
      entriesCanonical_shapes rest]
  | .unpack _ :: _ => rfl

theorem keywordsCanonical_shapes : (keywords : List Keyword) →
    keywordsCanonical (keywordShapes keywords) = keywordsCanonical keywords
  | [] => rfl
  | .named _ _ value :: rest => by
    rw [keywordShapes, keywordsCanonical, keywordsCanonical, value.isCanonical_shape,
      keywordsCanonical_shapes rest]
  | .unpack _ _ :: _ => rfl

end

theorem Statement.isCanonical_shape (s : Statement) : s.shape.isCanonical = s.isCanonical := by
  obtain ⟨loc, kind⟩ := s
  cases kind with
  | assign targets value =>
    match targets with
    | [] => rfl
    | [target] =>
      cases target with
      | name tloc id => exact congrArg (isName id.toList && ·) value.isCanonical_shape
      | _ => rfl
    | target :: next :: rest => cases target <;> rfl
  | expr value =>
    cases value with
    | call cloc func args keywords => exact (Expr.call cloc func args keywords).isCanonical_shape
    | _ => rfl
  | _ => rfl

theorem Statement.target?_shape (s : Statement) : s.shape.target? = s.target? := by
  obtain ⟨loc, kind⟩ := s
  cases kind with
  | assign targets value =>
    match targets with
    | [] => rfl
    | [target] | target :: next :: rest => cases target <;> rfl
  | _ => rfl

/-- The names that a submission assigns. -/
def Module.targets (m : Module) : List String := m.body.filterMap Statement.target?

theorem Module.targets_shape (m : Module) : m.shape.targets = m.targets := by
  rw [targets, shape, List.filterMap_map]
  exact congrArg (m.body.filterMap ·) (funext Statement.target?_shape)

theorem Module.isCanonical_shape (m : Module) : m.shape.isCanonical = m.isCanonical := by
  rw [isCanonical, shape, List.all_map]
  exact congrArg (m.body.all ·) (funext Statement.isCanonical_shape)

theorem Module.isCanonical_of_shape {m m' : Module} (h : m'.shape = m.shape) (hm : m.isCanonical) :
    m'.isCanonical := by
  rw [← isCanonical_shape, h, isCanonical_shape]
  exact hm

/-! ### Validation -/

theorem Expr.validate_canonical (e : Expr) (h : e.isCanonical) : e.validate = .ok () := by
  induction e using Expr.induction_on_forms with
  | name loc id => rfl
  | constant loc value hvalue => rw [validate, if_pos hvalue]
  | list loc items ih =>
    rw [validate]
    exact validateAll_ok_iff.mpr fun e he => ih e he (allCanonical_iff.mp h e he)
  | set loc items ih =>
    have hall := allCanonical_iff.mp ((Bool.and_eq_true _ _).mp h).2
    rw [validate]
    exact validateAll_ok_iff.mpr fun e he => ih e he (hall e he)
  | dict loc entries ih =>
    obtain ⟨pairs, rfl, hpairs⟩ := exists_pairs h
    refine validate_dict_iff.mpr ⟨fun v hv => ?_, fun k v hkv => ?_⟩
    · obtain ⟨p, -, hp⟩ := List.mem_map.mp hv
      cases hp
    · obtain ⟨p, hp, heq⟩ := List.mem_map.mp hkv
      obtain ⟨ihkey, ihvalue⟩ := ih k v hkv
      cases heq
      exact ⟨ihkey (hpairs p hp).1, ihvalue (hpairs p hp).2⟩
  | call loc func args keywords ihargs ihkeywords =>
    cases func with
    | name floc func =>
      simp only [isCanonical, Bool.and_eq_true] at h
      obtain ⟨⟨⟨-, hargs⟩, hkeywords⟩, -⟩ := h
      have hnamed := keywordsCanonical_iff.mp hkeywords
      refine validate_call_iff.mpr ⟨Option.some_ne_none func, ?_, fun kloc v hv => ?_, fun k hk => ?_⟩
      · exact fun e he => ihargs e he (allCanonical_iff.mp hargs e he)
      · obtain ⟨_, _, _, hk, -⟩ := hnamed _ hv
        cases hk
      · obtain ⟨kloc, name, value, rfl, -, hvalue⟩ := hnamed k hk
        exact ihkeywords _ hk hvalue
    | _ => cases h
  | refused e he =>
    cases e with
    | constant loc value =>
      cases value with
      | bytes | ellipsis => cases h
      | _ => cases he
    | name | list | set | dict | call => cases he
    | _ => cases h

theorem Statement.validate_canonical (reg : Registry) (s : Statement) (h : s.isCanonical) :
    s.validate reg = .ok () ↔ ∀ name ∈ s.target?, reg.contains name = false ∧ isHidden name = false := by
  obtain ⟨loc, target, id, value, rfl, -, hvalue⟩ | ⟨loc, cloc, floc, func, args, keywords, rfl, hcall⟩ :=
    isCanonical_cases h
  · rw [validate_assign_iff rfl, value.validate_canonical hvalue]
    simp [target?]
  · rw [validate_call_iff rfl, Expr.validate_canonical _ hcall]
    simp [target?]

theorem Module.validate_canonical (reg : Registry) {m : Module} (h : m.isCanonical) :
    m.validate reg = .ok () ↔ ∀ name ∈ m.targets, reg.contains name = false ∧ isHidden name = false := by
  have hbody := List.all_eq_true.mp h
  rw [validate, validateStatements_ok_iff]
  simp only [targets, List.mem_filterMap, forall_exists_index, and_imp]
  constructor
  · intro hall name s hs hname
    exact (s.validate_canonical reg (hbody s hs)).mp (hall s hs) name hname
  · exact fun hall s hs => (s.validate_canonical reg (hbody s hs)).mpr fun name hname => hall name s hs hname

/-! ### The whole -/

/-- Canonical text is read as the tree that was written, up to locations. -/
theorem Module.parse_canonical {m : Module} (hm : m.isCanonical) {limit : Nat} (hlimit : m.nesting < limit) :
    ∃ m', Module.parse limit m.text = .ok m' ∧ m'.shape = m.shape := by
  obtain ⟨last, node, hmatch, hnode⟩ := matchText_text hm
  obtain ⟨m', hbuilt, hshape⟩ := moduleOf_built hnode hlimit
  have hdeepest := deepest_text_le hm
  exact ⟨m', parse_of_matchText (by omega) hmatch hbuilt, hshape⟩

/-- Every submission that is written canonically is read back as it was written, and it is accepted unless it
assigns to the name of a plugin or to a hidden one. -/
theorem Module.parse_text (reg : Registry) {m : Module} (hm : m.isCanonical) {limit : Nat}
    (hlimit : m.nesting < limit) : ∃ m', Module.parse limit m.text = .ok m' ∧ m'.shape = m.shape ∧
      (m'.validate reg = .ok () ↔
        ∀ name ∈ m.targets, reg.contains name = false ∧ isHidden name = false) := by
  obtain ⟨m', hparse, hshape⟩ := parse_canonical hm hlimit
  refine ⟨m', hparse, hshape, ?_⟩
  rw [validate_canonical reg (isCanonical_of_shape hshape hm), ← targets_shape, hshape, targets_shape]

/-- An assignment of a dict and a call with a set. Where the braces open, both are tried as a dict first, and the
call as an assignment. -/
theorem Module.parse_text_braces :
    let x : Statement := ⟨.synthetic, .assign [.name .synthetic "x"]
      (.dict .synthetic [.pair (.constant .synthetic (.str "a")) (.list .synthetic [.constant .synthetic .none])])⟩
    let f : Statement := ⟨.synthetic, .expr (.call .synthetic (.name .synthetic "f") [.name .synthetic "x"]
      [.named .synthetic "k" (.set .synthetic [.constant .synthetic (.int 12)])])⟩
    let m : Module := ⟨[x, f]⟩
    m.text = "x = \x7b'a': [None]\x7d\nf(x, k=\x7b12\x7d)" ∧ ∃ m', parse 3 m.text = .ok m' ∧ m'.shape = m.shape ∧
      (m'.validate .empty = .ok () ↔
        ∀ name ∈ m.targets, Registry.empty.contains name = false ∧ isHidden name = false) :=
  ⟨by decide, parse_text .empty (by decide) (by decide)⟩

end ConfigSandbox
