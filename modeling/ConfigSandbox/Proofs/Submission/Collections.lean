import ConfigSandbox.Proofs.Submission.Arrivals
import ConfigSandbox.Proofs.Value.Construction

/-!
# What set and dict literals evaluate to

A literal evaluates its operands in source order, and refuses an item or a key that cannot be one as soon as it
has its value. If none is refused it is as if the operands had been those of a list: the set or the dict is
built of the values that the list would have.
-/
namespace ConfigSandbox

open Value

namespace Eval

variable {st : Setting} {depth : Nat} {loc : Location} {m m' : Machine} {items : List Expr}
  {entries : List DictEntry} {v : Value} {values : List Value} {pairs : List (Value × Value)}

theorem exec_hashables_iff : exec (hashables st depth items) m = (.ok values, m') ↔
    exec (exprs st depth items) m = (.ok values, m') ∧ ∀ x ∈ values, x.isHashable := by
  induction items generalizing m m' values with
  | nil =>
    simp only [hashables, exprs, exec_pure_iff]
    constructor
    · rintro ⟨rfl, rfl⟩
      exact ⟨⟨rfl, rfl⟩, List.forall_mem_nil _⟩
    · exact And.left
  | cons e rest ih =>
    rw [hashables, exprs]
    simp only [exec_bind_ok_iff, exec_checkHashable_iff, exec_pure_iff, ih]
    constructor
    · rintro ⟨v, mid, hv, -, _, ⟨hhashable, rfl⟩, vs, _, ⟨hvs, hall⟩, rfl, rfl⟩
      exact ⟨⟨v, _, hv, vs, _, hvs, rfl, rfl⟩, List.forall_mem_cons.mpr ⟨hhashable, hall⟩⟩
    · rintro ⟨⟨v, mid, hv, vs, _, hvs, rfl, rfl⟩, hall⟩
      obtain ⟨hhashable, hall⟩ := List.forall_mem_cons.mp hall
      exact ⟨v, mid, hv, (), mid, ⟨hhashable, rfl⟩, vs, _, ⟨hvs, hall⟩, rfl, rfl⟩

theorem exec_dictEntries_iff : exec (dictEntries st depth loc entries) m = (.ok pairs, m') ↔
    (∀ e, .unpack e ∉ entries) ∧ (∀ e ∈ pairs, e.1.isHashable) ∧
      exec (exprs st depth (entries.flatMap DictEntry.operands)) m =
        (.ok (pairs.flatMap fun e => [e.1, e.2]), m') := by
  induction entries generalizing m m' pairs with
  | nil =>
    simp only [dictEntries, List.flatMap_nil, exprs, exec_pure_iff]
    cases pairs <;> simp
  | cons entry rest ih =>
    cases entry with
    | unpack e =>
      rw [dictEntries, exec_fail]
      refine ⟨fun h => ?_, fun h => absurd List.mem_cons_self (h.1 e)⟩
      cases h
    | pair key value =>
      rw [dictEntries, List.flatMap_cons, DictEntry.operands, List.cons_append, List.cons_append, List.nil_append,
        exprs, exprs]
      simp only [exec_bind_ok_iff, exec_checkHashable_iff, exec_pure_iff, ih]
      constructor
      · rintro ⟨k, mid, hk, -, _, ⟨hhashable, rfl⟩, v, mid', hv, kvs, _, ⟨hpairs, hall, hrest⟩, rfl, rfl⟩
        refine ⟨?_, List.forall_mem_cons.mpr ⟨hhashable, hall⟩, ?_⟩
        · simpa using hpairs
        · exact ⟨k, _, hk, _, _, ⟨v, _, hv, _, _, hrest, rfl, rfl⟩, rfl, rfl⟩
      · rintro ⟨hpairs, hall, k, mid, hk, _, _, ⟨v, mid', hv, vs, _, hrest, rfl, rfl⟩, hflat, rfl⟩
        cases pairs with
        | nil => cases hflat
        | cons e kvs =>
          obtain ⟨k, v⟩ := e
          cases hflat
          obtain ⟨hhashable, hall⟩ := List.forall_mem_cons.mp hall
          exact ⟨k, mid, hk, (), mid, ⟨hhashable, rfl⟩, v, mid', hv, kvs, _,
            ⟨fun e he => hpairs e (List.mem_cons_of_mem _ he), hall, hrest⟩, rfl, rfl⟩

theorem exec_set_iff : exec (expr st depth (.set loc items)) m = (.ok v, m') ↔
    depth < st.limit ∧ ∃ values, exec (exprs st (depth + 1) items) m = (.ok values, m') ∧
      (∀ x ∈ values, x.isHashable) ∧ v = setOf values := by
  rw [expr]
  simp only [exec_bind_ok_iff, exec_checkDepth_iff, exec_hashables_iff, exec_pure_iff]
  constructor
  · rintro ⟨-, _, ⟨hlimit, rfl⟩, values, _, ⟨hvalues, hall⟩, rfl, rfl⟩
    exact ⟨hlimit, values, hvalues, hall, rfl⟩
  · rintro ⟨hlimit, values, hvalues, hall, rfl⟩
    exact ⟨(), m, ⟨hlimit, rfl⟩, values, m', ⟨hvalues, hall⟩, rfl, rfl⟩

theorem exec_dict_iff : exec (expr st depth (.dict loc entries)) m = (.ok v, m') ↔
    depth < st.limit ∧ (∀ e, .unpack e ∉ entries) ∧ ∃ pairs,
      exec (exprs st (depth + 1) (entries.flatMap DictEntry.operands)) m =
        (.ok (pairs.flatMap fun e => [e.1, e.2]), m') ∧
      (∀ e ∈ pairs, e.1.isHashable) ∧ v = dictOf pairs := by
  rw [expr]
  simp only [exec_bind_ok_iff, exec_checkDepth_iff, exec_dictEntries_iff, exec_pure_iff]
  constructor
  · rintro ⟨-, _, ⟨hlimit, rfl⟩, pairs, _, ⟨hunpack, hall, hvalues⟩, rfl, rfl⟩
    exact ⟨hlimit, hunpack, pairs, hvalues, hall, rfl⟩
  · rintro ⟨hlimit, hunpack, pairs, hvalues, hall, rfl⟩
    exact ⟨(), m, ⟨hlimit, rfl⟩, pairs, m', ⟨hunpack, hall, hvalues⟩, rfl, rfl⟩

end Eval

/-! ### Sets and dicts -/

/-- No two of the values are equal, in either order. -/
def ArePairwiseUnequal (values : List Value) : Prop :=
  values.Pairwise fun x y => x.equals y = false ∧ y.equals x = false

/-- Values without doubles give a set of those that equal no earlier one, so that each equals just one item; as
keys they give a dict with such keys, where the value given last under a key is found. So it is for a double if
all the keys that it equals equal one another; in any case the first of them is looked up. A literal builds these
of the values of its operands. -/
theorem collections_canonical :
    (∀ items : List Value, (∀ x ∈ items, x.isDiscrete) →
      setOf items = .set (firsts items) ∧ ArePairwiseUnequal (firsts items) ∧
      ∀ x ∈ items, (firsts items).countP (fun y => y.equals x) = 1) ∧
    (∀ entries : List (Value × Value), (∀ e ∈ entries, e.1.isDiscrete) →
      (∃ kept, dictOf entries = .dict kept ∧ kept.map Prod.fst = firsts (entries.map Prod.fst) ∧
        ArePairwiseUnequal (kept.map Prod.fst)) ∧
      (∀ key, key.isDiscrete → (dictOf entries).lookup? key = lastUnder entries key) ∧
      (∀ key, (∀ e ∈ entries, ∀ e' ∈ entries, e.1.equals key → e'.1.equals key → e.1.equals e'.1) →
        (dictOf entries).lookup? key = lastUnder entries key) ∧
      ∀ key, (dictOf entries).lookup? key =
        ((entries.map Prod.fst).find? fun k => k.equals key).bind (lastUnder entries)) ∧
    (∀ (st : Setting) (depth : Nat) (loc : Location) (items : List Expr) (m m' : Machine) (v : Value),
      Eval.exec (Eval.expr st depth (.set loc items)) m = (.ok v, m') ↔
        depth < st.limit ∧ ∃ values, Eval.exec (Eval.exprs st (depth + 1) items) m = (.ok values, m') ∧
          (∀ x ∈ values, x.isHashable) ∧ v = setOf values) ∧
    ∀ (st : Setting) (depth : Nat) (loc : Location) (entries : List DictEntry) (m m' : Machine) (v : Value),
      Eval.exec (Eval.expr st depth (.dict loc entries)) m = (.ok v, m') ↔
        depth < st.limit ∧ (∀ e, .unpack e ∉ entries) ∧ ∃ pairs : List (Value × Value),
          Eval.exec (Eval.exprs st (depth + 1) (entries.flatMap DictEntry.operands)) m =
            (.ok (pairs.flatMap fun e => [e.1, e.2]), m') ∧
          (∀ e ∈ pairs, e.1.isHashable) ∧ v = dictOf pairs := by
  refine ⟨fun items hitems => ?_, fun entries hkeys => ?_, fun _ _ _ _ _ _ _ => Eval.exec_set_iff,
    fun _ _ _ _ _ _ _ => Eval.exec_dict_iff⟩
  · refine ⟨?_, pairwise_firsts hitems, fun x hx => countP_firsts hitems hx⟩
    rw [Value.setOf, foldl_addItem_eq_firsts hitems]
  · have hkept := keys_dictOf hkeys
    refine ⟨⟨_, rfl, hkept, ?_⟩, fun key hkey => lookup?_dictOf hkeys hkey,
      fun key hagree => lookup?_dictOf_of_agree hkeys hagree, lookup?_dictOf_eq_bind hkeys⟩
    rw [hkept]
    exact pairwise_firsts (List.forall_mem_map.mpr hkeys)

/-- Truth values for integers, also inside tuples; and a double that equals one of the keys. -/
theorem collections_canonical_mixed :
    let items := [int 1, bool true, tuple [bool false], str "a", tuple [int 0], str "a"]
    let entries := [(bool true, str "a"), (tuple [int 1], str "b"), (int 1, str "c"), (tuple [bool true], str "d")]
    (∀ x ∈ items, x.isDiscrete) ∧ firsts items = [int 1, tuple [bool false], str "a"] ∧
      setOf items = .set (firsts items) ∧ (∀ e ∈ entries, e.1.isDiscrete) ∧ (tuple [int 1]).isDiscrete ∧
      (dictOf entries).lookup? (tuple [int 1]) = some (str "d") ∧
      (∀ e ∈ entries, ∀ e' ∈ entries, e.1.equals (float (.ofInt 1)) → e'.1.equals (float (.ofInt 1)) →
        e.1.equals e'.1) ∧
      (dictOf entries).lookup? (float (.ofInt 1)) = some (str "c") := by
  intro items entries
  have hitems : ∀ x ∈ items, x.isDiscrete := by decide +kernel
  have hkeys : ∀ e ∈ entries, e.1.isDiscrete := by decide +kernel
  have hkey : (tuple [int 1]).isDiscrete := by decide +kernel
  have hsets := collections_canonical.1 items hitems
  have hdicts := collections_canonical.2.1 entries hkeys
  have hagree : ∀ e ∈ entries, ∀ e' ∈ entries, e.1.equals (float (.ofInt 1)) →
      e'.1.equals (float (.ofInt 1)) → e.1.equals e'.1 := by decide +kernel
  refine ⟨hitems, by simp [firsts, items, equals, equalsAll, scalarEquals, integer?], hsets.1, hkeys, hkey, ?_,
    hagree, ?_⟩
  · rw [hdicts.2.1 _ hkey]
    simp [lastUnder, entries, equals, equalsAll, scalarEquals, integer?]
  · have hequals : entries.map (fun e => e.1.equals (float (.ofInt 1))) = [true, false, true, false] := by
      decide +kernel
    rw [hdicts.2.2.1 _ hagree]
    simp only [entries, List.map_cons, List.map_nil, List.cons.injEq] at hequals
    simp [lastUnder, entries, hequals]

/-- A double that equals two keys which are not equal finds the first of them, and not what was given last under
a key that it equals. -/
theorem collections_canonical_rounded :
    let entries := [(int 9007199254740993, str "a"), (int 9007199254740992, str "b")]
    let key := float ⟨0x4340000000000000⟩
    (∀ e ∈ entries, e.1.isDiscrete) ∧ (∀ e ∈ entries, e.1.equals key) ∧
      (dictOf entries).lookup? key = some (str "a") ∧ lastUnder entries key = some (str "b") := by
  intro entries key
  have hkeys : ∀ e ∈ entries, e.1.isDiscrete := by decide
  have hfirst : (int 9007199254740993).equals key = true := by decide +kernel
  have hlast : (int 9007199254740992).equals key = true := by decide +kernel
  have hfound : (entries.map Prod.fst).find? (fun k => k.equals key) = some (int 9007199254740993) := by
    simp [entries, hfirst]
  refine ⟨hkeys, by simp [entries, hfirst, hlast], ?_, by simp [lastUnder, entries, hfirst, hlast]⟩
  rw [lookup?_dictOf_eq_bind hkeys, hfound]
  simp [lastUnder, entries, equals, scalarEquals, integer?]

end ConfigSandbox
