import ConfigSandbox.Proofs.Submission.Forms
import ConfigSandbox.Proofs.Tree.Parsed

/-!
# Exact locations

Every place that a tree or a refusal names can be pointed at in the source. A refusal of validation needs
no count of its own: it stands where a node of the tree stands.
-/
namespace ConfigSandbox

/-- A node of the outline stands at the place. -/
def Outline.Occupies (o : Outline) (loc : Location) : Prop := ∃ p ∈ o.nodes, p.loc = loc

theorem Outline.Occupies.of_part {kind : NodeKind} {loc place : Location} {parts : List Outline}
    {p : Outline} (h : p.Occupies place) (hp : p ∈ parts) : (Outline.mk kind loc parts).Occupies place := by
  obtain ⟨o, ho, hplace⟩ := h
  exact ⟨o, nodes_of_part hp ho, hplace⟩

theorem Expr.occupies_loc (e : Expr) : e.outline.Occupies e.loc :=
  ⟨e.outline, e.outline.self_mem_nodes, e.outline_loc⟩

/-! ### Refusals of validation -/

variable {E : ValidationError → Prop}

theorem validateAll_meets {items : List Expr} (h : ∀ e ∈ items, Meets E (fun _ => True) e.validate) :
    Meets E (fun _ => True) (validateAll items) := by
  induction items with
  | nil => trivial
  | cons e rest ih =>
    obtain ⟨he, hrest⟩ := List.forall_mem_cons.mp h
    exact he.bind fun _ _ => ih hrest

/-- Keys that are accepted leave nothing unpacked. -/
theorem validateKeys_meets {entries : List DictEntry}
    (h : ∀ k v, .pair k v ∈ entries → Meets E (fun _ => True) k.validate)
    (hu : ∀ v, .unpack v ∈ entries → E (.syntaxAt v.loc "unpacking")) :
    Meets E (fun _ => ∀ v, .unpack v ∉ entries) (validateKeys entries) := by
  induction entries with
  | nil => exact fun v hv => by cases hv
  | cons entry rest ih =>
    cases entry with
    | unpack v => exact hu v List.mem_cons_self
    | pair k v =>
      refine (h k v List.mem_cons_self).bind fun _ _ => (ih ?_ ?_).imp fun _ hrest v' hv' => ?_
      · exact fun k' v' he => h k' v' (List.mem_cons_of_mem _ he)
      · exact fun v' he => hu v' (List.mem_cons_of_mem _ he)
      · rcases List.mem_cons.mp hv' with hv' | hv'
        · cases hv'
        · exact hrest v' hv'

theorem validateValues_meets {entries : List DictEntry}
    (h : ∀ k v, .pair k v ∈ entries → Meets E (fun _ => True) v.validate)
    (hu : ∀ v, .unpack v ∉ entries) : Meets E (fun _ => True) (validateValues entries) := by
  induction entries with
  | nil => trivial
  | cons entry rest ih =>
    cases entry with
    | unpack v => exact absurd List.mem_cons_self (hu v)
    | pair k v =>
      refine (h k v List.mem_cons_self).bind fun _ _ => ih ?_ ?_
      · exact fun k' v' he => h k' v' (List.mem_cons_of_mem _ he)
      · exact fun v' he => hu v' (List.mem_cons_of_mem _ he)

theorem validateKeywords_meets {keywords : List Keyword}
    (h : ∀ k ∈ keywords, Meets E (fun _ => True) k.value.validate)
    (hu : ∀ k ∈ keywords, E (.syntaxAt k.loc "unpacking")) :
    Meets E (fun _ => True) (validateKeywords keywords) := by
  induction keywords with
  | nil => trivial
  | cons k rest ih =>
    obtain ⟨hk, hrest⟩ := List.forall_mem_cons.mp h
    obtain ⟨hloc, hlocs⟩ := List.forall_mem_cons.mp hu
    cases k with
    | unpack loc v => exact hloc
    | named loc name v => exact hk.bind fun _ _ => ih hrest hlocs

/-- The error stands where a node of the outline stands. -/
def ValidationError.At (o : Outline) (err : ValidationError) : Prop := o.Occupies err.loc

theorem Meets.of_part {kind : NodeKind} {loc : Location} {parts : List Outline} {p : Outline}
    {x : Except ValidationError Unit} (h : Meets (·.At p) (fun _ => True) x) (hp : p ∈ parts) :
    Meets (·.At (.mk kind loc parts)) (fun _ => True) x :=
  h.mapError fun _ hat => Outline.Occupies.of_part hat hp

namespace Expr

theorem validate_at (e : Expr) : Meets (·.At e.outline) (fun _ => True) e.validate := by
  induction e using induction_on_forms with
  | name => trivial
  | constant loc value hv =>
    rw [validate, if_pos hv]
    trivial
  | list loc items ih | set loc items ih =>
    exact validateAll_meets fun e he => (ih e he).of_part (mem_outlines he)
  | dict loc entries ih =>
    refine Meets.bind (validateKeys_meets ?_ ?_) fun _ hu => validateValues_meets ?_ hu
    · exact fun k v he => (ih k v he).1.of_part (mem_entryOutlines_pair he).1
    · exact fun v he => v.occupies_loc.of_part (mem_entryOutlines_unpack he)
    · exact fun k v he => (ih k v he).2.of_part (mem_entryOutlines_pair he).2
  | call loc func args keywords ihargs ihkeywords =>
    rw [validate]
    split
    · exact func.occupies_loc.of_part List.mem_cons_self
    refine Meets.bind (validateAll_meets ?_) fun _ _ => validateKeywords_meets ?_ ?_
    · exact fun e he => (ihargs e he).of_part (mem_callOutlines_argument he)
    · intro k hk
      have hvalue : Meets (ValidationError.At (.mk .keyword k.loc [k.value.outline])) (fun _ => True)
          k.value.validate := (ihkeywords k hk).of_part List.mem_cons_self
      exact hvalue.of_part (mem_callOutlines_keyword hk)
    · intro k hk
      have hplace : Outline.Occupies (.mk .keyword k.loc [k.value.outline]) k.loc :=
        ⟨_, Outline.self_mem_nodes _, rfl⟩
      exact hplace.of_part (mem_callOutlines_keyword hk)
  | refused e he =>
    rw [validate_of_refused he]
    exact e.occupies_loc

end Expr

theorem Statement.validate_at (reg : Registry) (s : Statement) :
    Meets (·.At s.outline) (fun _ => True) (s.validate reg) := by
  have hstatement : s.outline.Occupies s.loc := ⟨_, s.outline.self_mem_nodes, rfl⟩
  have hpart {e : Expr} (he : e ∈ s.kind.exprs) : s.outline.Occupies e.loc :=
    e.occupies_loc.of_part (mem_outlines he)
  have hvalidate {e : Expr} (he : e ∈ s.kind.exprs) :
      Meets (ValidationError.At s.outline) (fun _ => True) e.validate :=
    e.validate_at.of_part (mem_outlines he)
  unfold validate
  split
  · rename_i value hkind
    have hvalue : value ∈ s.kind.exprs := by simp [hkind, StatementKind.exprs]
    split
    · exact hvalidate hvalue
    · exact hpart hvalue
  · rename_i target value hkind
    have htarget : target ∈ s.kind.exprs := by simp [hkind, StatementKind.exprs]
    have hvalue : value ∈ s.kind.exprs := by simp [hkind, StatementKind.exprs]
    refine Meets.bind (A := fun _ => True) ?_ fun _ _ => hvalidate hvalue
    unfold validateTarget
    split
    · exact hpart htarget
    · split
      · exact hpart htarget
      · split
        · exact hpart htarget
        · trivial
  · exact hstatement
  · exact hstatement

namespace Module

/-- A refused module is refused at a node of one of its statements. -/
theorem validate_at {reg : Registry} {m : Module} {err : ValidationError}
    (h : m.validate reg = .error err) : ∃ o ∈ m.outlines, o.Occupies err.loc := by
  have hbody (body : List Statement) : Meets (fun err => ∃ s ∈ body, s.outline.Occupies err.loc)
      (fun _ => True) (validateStatements reg body) := by
    induction body with
    | nil => trivial
    | cons s rest ih =>
      refine Meets.bind (A := fun _ => True) ?_ fun _ _ => ?_
      · exact (s.validate_at reg).mapError fun err hat => ⟨s, List.mem_cons_self, hat⟩
      · exact ih.mapError fun err ⟨s, hs, hat⟩ => ⟨s, List.mem_cons_of_mem _ hs, hat⟩
  obtain ⟨s, hs, hplace⟩ := (hbody m.body).error h
  exact ⟨s.outline, List.mem_map_of_mem hs, hplace⟩

/-- Every node of a tree is read where its location says, inside its parent and apart from its siblings,
and every error of reading or of validation points into the text. -/
theorem parse_exact (limit : Nat) (source : String) :
    (∀ m, Module.parse limit source = .ok m → (∀ o ∈ m.outlines, o.Exact source) ∧
      (m.outlines.Pairwise fun p q => p.loc.span.Disjoint q.loc.span) ∧
      ∀ reg err, m.validate reg = .error err → err.loc.Fits source) ∧
    ∀ err, Module.parse limit source = .error err → err.loc.Fits source := by
  have hparse := parse_located limit source
  refine ⟨fun m hm => ?_, fun err herr => hparse.error herr⟩
  have hapart := hparse.ok hm
  refine ⟨hapart.exact, hapart.apart, fun reg err herr => ?_⟩
  obtain ⟨o, ho, p, hp, hplace⟩ := validate_at herr
  rw [← hplace]
  exact ((hapart.exact o ho).of_mem_nodes hp).fits

/-- Letters of two bytes, a list over two lines, a refused operator on the third; and a bracket that
nests too deep after a continued line. -/
theorem parse_exact_accents :
    let source := "é = [\n'ß', é]\nf(é + 1)\n"
    ∃ m err deep, Module.parse 5 source = .ok m ∧ (∀ o ∈ m.outlines, o.Exact source) ∧
      m.validate .empty = .error err ∧ err.loc = ⟨3, ⟨19, 25⟩⟩ ∧ err.loc.Fits source ∧
      Module.parse 1 "é =\\\n (ß)" = .error deep ∧ deep.loc = ⟨2, ⟨7, 8⟩⟩ ∧
      deep.loc.Fits "é =\\\n (ß)" := by
  intro source
  have htest : ((Module.parse 5 source).map fun m => m.validate .empty) =
      .ok (.error ⟨.illegalSyntax "binary operator", ⟨3, ⟨19, 25⟩⟩⟩) := by decide +kernel
  obtain ⟨m, hm, hv⟩ := exists_of_map_eq_ok htest
  have hrefused : ((Module.parse 1 "é =\\\n (ß)").map fun _ => ()) =
      .error ⟨.tooDeep 2 1, ⟨2, ⟨7, 8⟩⟩⟩ := by decide +kernel
  have hdeep := eq_error_of_map hrefused
  obtain ⟨hexact, -, hfits⟩ := (parse_exact 5 source).1 m hm
  exact ⟨m, _, _, hm, hexact, hv, rfl, hfits _ _ hv, hdeep, rfl, (parse_exact 1 _).2 _ hdeep⟩

end Module
end ConfigSandbox
