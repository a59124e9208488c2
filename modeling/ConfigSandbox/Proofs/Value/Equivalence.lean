import ConfigSandbox.Proofs.Value.WellFormed
import Mathlib.Data.List.Forall2

/-!
# Equality is an equivalence

Equality tests one inclusion and the sizes, for sets and for dicts. With items that are pairwise unequal
this is enough: what the items of one list find in a list of the same size are different items each, so
nothing is left over. That needs symmetry and transitivity for the items, which are smaller. Doubles are
left out, since a double that is no number differs from itself and two integers can round to one double.
-/
namespace ConfigSandbox

/-! ### Relations on some of the values of a type -/

/-- A relation that is an equivalence among the values that have a property. -/
structure EquivalenceOn {α : Type} (p : α → Prop) (r : α → α → Prop) : Prop where
  refl : ∀ {x}, p x → r x x
  symm : ∀ {x y}, p x → p y → r x y → r y x
  trans : ∀ {x y z}, p x → p y → p z → r x y → r y z → r x z

/-- The lists have one length and every item of the first is related to one of the second. -/
def Embeds {α β : Type} (r : α → β → Prop) (xs : List α) (ys : List β) : Prop :=
  xs.length = ys.length ∧ ∀ x ∈ xs, ∃ y ∈ ys, r x y

/-- Where no two items are related to one and the same, the second list can be put in an order in which it
follows the first item by item. -/
theorem Embeds.exists_perm {α β : Type} {r : α → β → Prop} {xs : List α} {ys : List β}
    (h : Embeds r xs ys) (hapart : xs.Pairwise fun x x' => ∀ y ∈ ys, r x y → ¬ r x' y) :
    ∃ zs, zs.Perm ys ∧ List.Forall₂ r xs zs := by
  -- the partner of the first item is taken out of the second list, so that list varies
  induction xs generalizing ys with
  | nil =>
    obtain rfl : ys = [] := List.eq_nil_of_length_eq_zero h.1.symm
    exact ⟨[], .nil, .nil⟩
  | cons x xs ih =>
    obtain ⟨hfirst, hrest⟩ := List.pairwise_cons.mp hapart
    obtain ⟨⟨partner, hpartner, hx⟩, hall⟩ := List.forall_mem_cons.mp h.2
    obtain ⟨front, back, rfl⟩ := List.append_of_mem hpartner
    have hsubset : ∀ y ∈ front ++ back, y ∈ front ++ partner :: back := by
      intro y hy
      exact (List.Sublist.append_left (List.sublist_cons_self partner back) front).subset hy
    have hembeds : Embeds r xs (front ++ back) := by
      refine ⟨?_, fun x' hx' => ?_⟩
      · have hlength := h.1
        simp only [List.length_cons, List.length_append] at hlength ⊢
        omega
      · obtain ⟨y, hy, hrel⟩ := hall x' hx'
        have hne : y ≠ partner := by
          rintro rfl
          exact hfirst x' hx' y hy hx hrel
        rw [List.mem_append, List.mem_cons] at hy
        exact ⟨y, List.mem_append.mpr (hy.imp_right fun h => h.resolve_left hne), hrel⟩
    have hkept : xs.Pairwise fun x x' => ∀ y ∈ front ++ back, r x y → ¬ r x' y :=
      hrest.imp fun h y hy => h y (hsubset y hy)
    obtain ⟨zs, hperm, hzs⟩ := ih hembeds hkept
    exact ⟨partner :: zs, (hperm.cons partner).trans List.perm_middle.symm, .cons hx hzs⟩

theorem Embeds.of_perm {α β : Type} {r : α → β → Prop} {xs : List α} {ys zs : List β}
    (hperm : zs.Perm ys) (h : List.Forall₂ r xs zs) : Embeds r xs ys := by
  refine ⟨h.length_eq.trans hperm.length_eq, fun x hx => ?_⟩
  obtain ⟨i, hi, rfl⟩ := List.mem_iff_getElem.mp hx
  have hi' : i < zs.length := h.length_eq ▸ hi
  exact ⟨zs[i], hperm.subset (List.getElem_mem hi'), List.forall₂_iff_get.mp h |>.2 i hi hi'⟩

namespace EquivalenceOn

variable {α β : Type} {p q : α → Prop} {r : α → α → Prop}

theorem imp (h : EquivalenceOn p r) (hpq : ∀ x, q x → p x) : EquivalenceOn q r where
  refl hx := h.refl (hpq _ hx)
  symm hx hy := h.symm (hpq _ hx) (hpq _ hy)
  trans hx hy hz := h.trans (hpq _ hx) (hpq _ hy) (hpq _ hz)

theorem swap (h : EquivalenceOn p r) : EquivalenceOn p fun x y => r y x where
  refl := h.refl
  symm hx hy := h.symm hy hx
  trans hx hy hz hxy hyz := h.trans hz hy hx hyz hxy

/-- Pairs, part by part. -/
theorem pairs (h : EquivalenceOn p r) :
    EquivalenceOn (fun e : α × α => p e.1 ∧ p e.2) fun e e' => r e.1 e'.1 ∧ r e.2 e'.2 where
  refl he := ⟨h.refl he.1, h.refl he.2⟩
  symm he he' := And.imp (h.symm he.1 he'.1) (h.symm he.2 he'.2)
  trans hx hy hz hxy hyz := ⟨h.trans hx.1 hy.1 hz.1 hxy.1 hyz.1, h.trans hx.2 hy.2 hz.2 hxy.2 hyz.2⟩

/-- Lists, item by item. -/
theorem rows (h : EquivalenceOn p r) : EquivalenceOn (fun xs => ∀ x ∈ xs, p x) (List.Forall₂ r) where
  refl hxs := List.forall₂_same.mpr fun x hx => h.refl (hxs x hx)
  symm {xs ys} hxs hys hrel := by
    induction hrel with
    | nil => exact .nil
    | cons hxy _ ih =>
      obtain ⟨hx, hxs⟩ := List.forall_mem_cons.mp hxs
      obtain ⟨hy, hys⟩ := List.forall_mem_cons.mp hys
      exact .cons (h.symm hx hy hxy) (ih hxs hys)
  trans {xs ys zs} hxs hys hzs hrel hrel' := by
    induction hrel generalizing zs with
    | nil => exact hrel'
    | cons hxy _ ih =>
      cases hrel' with
      | cons hyz hrest =>
        obtain ⟨hx, hxs⟩ := List.forall_mem_cons.mp hxs
        obtain ⟨hy, hys⟩ := List.forall_mem_cons.mp hys
        obtain ⟨hz, hzs⟩ := List.forall_mem_cons.mp hzs
        exact .cons (h.trans hx hy hz hxy hyz) (ih hxs hys hzs hrest)

/-- Unrelated items are not related to one and the same. -/
theorem apart (h : EquivalenceOn p r) {xs ys : List α} (hxs : ∀ x ∈ xs, p x) (hys : ∀ y ∈ ys, p y)
    (hne : xs.Pairwise fun x x' => ¬ (r x x' ∧ r x' x)) :
    xs.Pairwise fun x x' => ∀ y ∈ ys, r x y → ¬ r x' y := by
  apply hne.imp_of_mem
  intro x x' hx hx' hne y hy hxy hxy'
  have hyx : r y x := h.symm (hxs x hx) (hys y hy) hxy
  have hback : r x' x := h.trans (hxs x' hx') (hys y hy) (hxs x hx) hxy' hyx
  exact hne ⟨h.symm (hxs x' hx') (hxs x hx) hback, hback⟩

theorem embeds_iff (h : EquivalenceOn p r) {xs ys : List α}
    (hxs : (∀ x ∈ xs, p x) ∧ xs.Pairwise fun x x' => ¬ (r x x' ∧ r x' x)) (hys : ∀ y ∈ ys, p y) :
    Embeds r xs ys ↔ ∃ zs, zs.Perm ys ∧ List.Forall₂ r xs zs := by
  constructor
  · intro hembeds
    exact hembeds.exists_perm (h.apart hxs.1 hys hxs.2)
  · rintro ⟨zs, hperm, hzs⟩
    exact .of_perm hperm hzs

/-- Lists of pairwise unrelated items, in whatever order. -/
theorem embeds (h : EquivalenceOn p r) :
    EquivalenceOn (fun xs => (∀ x ∈ xs, p x) ∧ xs.Pairwise fun x x' => ¬ (r x x' ∧ r x' x))
      (Embeds r) where
  refl hxs := ⟨rfl, fun x hx => ⟨x, hx, h.refl (hxs.1 x hx)⟩⟩
  symm {xs ys} hxs hys hrel := by
    obtain ⟨zs, hperm, hzs⟩ := (h.embeds_iff hxs hys.1).mp hrel
    have hp : ∀ z ∈ zs, p z := fun z hz => hys.1 z (hperm.subset hz)
    obtain ⟨hlength, hfind⟩ := Embeds.of_perm (.refl xs) (h.rows.symm hxs.1 hp hzs)
    exact ⟨hperm.length_eq.symm.trans hlength, fun y hy => hfind y (hperm.symm.subset hy)⟩
  trans {xs ys zs} hxs hys hzs hrel hrel' := by
    refine ⟨hrel.1.trans hrel'.1, fun x hx => ?_⟩
    obtain ⟨y, hy, hxy⟩ := hrel.2 x hx
    obtain ⟨z, hz, hyz⟩ := hrel'.2 y hy
    exact ⟨z, hz, h.trans (hxs.1 x hx) (hys.1 y hy) (hzs.1 z hz) hxy hyz⟩

end EquivalenceOn

namespace Value

/-! ### What equality looks at -/

mutual

/-- Whether a value has no double in it, and no set or dict in it has an item or a key twice. -/
def isDiscrete : Value → Bool
  | float _ => false
  | list items | tuple items => allDiscrete items
  | set items => allDiscrete items && areDistinct items
  | dict entries => entriesDiscrete entries && areDistinct (entries.map Prod.fst)
  | none | bool _ | int _ | str _ | function _ | environment => true

def allDiscrete : List Value → Bool
  | [] => true
  | item :: rest => item.isDiscrete && allDiscrete rest

def entriesDiscrete : List (Value × Value) → Bool
  | [] => true
  | (key, value) :: rest => key.isDiscrete && value.isDiscrete && entriesDiscrete rest

end

theorem allDiscrete_iff {items : List Value} : allDiscrete items ↔ ∀ item ∈ items, item.isDiscrete := by
  induction items with
  | nil => simp [allDiscrete]
  | cons item rest ih => simp [allDiscrete, ih]

theorem entriesDiscrete_iff {entries : List (Value × Value)} :
    entriesDiscrete entries ↔ ∀ e ∈ entries, e.1.isDiscrete ∧ e.2.isDiscrete := by
  induction entries with
  | nil => simp [entriesDiscrete]
  | cons e rest ih => simp [entriesDiscrete, ih, and_assoc]

/-- What is compared of a value without parts. -/
inductive Face where
  | none
  | number (n : Int64)
  | text (s : String)
  | function (identity : Nat)
  | environment

def face? : Value → Option Face
  | none => some .none
  | bool b => some (.number (if b then 1 else 0))
  | int n => some (.number n)
  | str s => some (.text s)
  | function f => some (.function f.identity)
  | environment => some .environment
  | float _ | list _ | tuple _ | set _ | dict _ => .none

/-- Two values of one form whose parts are related. -/
inductive Alike (r : Value → Value → Prop) : Value → Value → Prop where
  | scalar {a b : Value} {face : Face} (ha : a.face? = some face) (hb : b.face? = some face) : Alike r a b
  | list {xs ys : List Value} (h : List.Forall₂ r xs ys) : Alike r (list xs) (list ys)
  | tuple {xs ys : List Value} (h : List.Forall₂ r xs ys) : Alike r (tuple xs) (tuple ys)
  | set {xs ys : List Value} (h : Embeds (fun x y => r y x) xs ys) : Alike r (set xs) (set ys)
  | dict {xs ys : List (Value × Value)} (h : Embeds (fun e e' => r e.1 e'.1 ∧ r e.2 e'.2) xs ys) :
      Alike r (dict xs) (dict ys)

/-- Equality as a relation. -/
def Same (a b : Value) : Prop := a.equals b = true

theorem equalsAll_iff {xs ys : List Value} : equalsAll xs ys ↔ List.Forall₂ Same xs ys := by
  induction xs generalizing ys with
  | nil => cases ys <;> simp [equalsAll]
  | cons x xs ih => cases ys <;> simp [equalsAll, ih, Same]

theorem isSubset_iff {xs ys : List Value} : isSubset xs ys ↔ ∀ x ∈ xs, ∃ y ∈ ys, Same y x := by
  simp [isSubset_eq_all, occursIn_eq_any, Same]

theorem entryOccursIn_iff {key value : Value} {ys : List (Value × Value)} :
    entryOccursIn key value ys ↔ ∃ e ∈ ys, Same key e.1 ∧ Same value e.2 := by
  induction ys with
  | nil => simp [entryOccursIn]
  | cons e ys ih =>
    obtain ⟨k, v⟩ := e
    rw [entryOccursIn, Bool.or_eq_true, Bool.and_eq_true, ih, List.exists_mem_cons_iff]
    rfl

theorem isSubdict_iff {xs ys : List (Value × Value)} :
    isSubdict xs ys ↔ ∀ e ∈ xs, ∃ e' ∈ ys, Same e.1 e'.1 ∧ Same e.2 e'.2 := by
  induction xs with
  | nil => simp [isSubdict]
  | cons e xs ih =>
    obtain ⟨k, v⟩ := e
    rw [isSubdict, Bool.and_eq_true, entryOccursIn_iff, ih, List.forall_mem_cons]

theorem set_same_iff {xs ys : List Value} :
    Same (set xs) (set ys) ↔ Embeds (fun x y => Same y x) xs ys := by
  rw [Same, equals, Bool.and_eq_true, beq_iff_eq, isSubset_iff]
  rfl

theorem dict_same_iff {xs ys : List (Value × Value)} : Same (dict xs) (dict ys) ↔
    Embeds (fun e e' => Same e.1 e'.1 ∧ Same e.2 e'.2) xs ys := by
  rw [Same, equals, Bool.and_eq_true, beq_iff_eq, isSubdict_iff]
  rfl

theorem same_iff_face {a b : Value} {face : Face} (ha : a.face? = some face) (hb : b.isDiscrete) :
    Same a b ↔ some face = b.face? := by
  cases b with
  | float x => cases hb
  | _ => cases a <;> cases ha <;> simp [Same, equals, scalarEquals, face?, integer?]

/-- Equality holds of values of one form with equal parts, and of no others. -/
theorem same_iff {a b : Value} (ha : a.isDiscrete) (hb : b.isDiscrete) : Same a b ↔ Alike Same a b := by
  constructor
  · intro h
    cases a with
    | none | bool _ | int _ | str _ | function _ | environment =>
      exact .scalar rfl ((same_iff_face rfl hb).mp h).symm
    | float x => cases ha
    | list xs =>
      cases b with
      | list ys =>
        rw [Same, equals] at h
        exact .list (equalsAll_iff.mp h)
      | _ => simp [Same, equals, scalarEquals, integer?] at h
    | tuple xs =>
      cases b with
      | tuple ys =>
        rw [Same, equals] at h
        exact .tuple (equalsAll_iff.mp h)
      | _ => simp [Same, equals, scalarEquals, integer?] at h
    | set xs =>
      cases b with
      | set ys =>
        exact .set (set_same_iff.mp h)
      | _ => simp [Same, equals, scalarEquals, integer?] at h
    | dict xs =>
      cases b with
      | dict ys =>
        exact .dict (dict_same_iff.mp h)
      | _ => simp [Same, equals, scalarEquals, integer?] at h
  · intro h
    cases h with
    | scalar hface hface' => exact (same_iff_face hface hb).mpr hface'.symm
    | list h | tuple h =>
      rw [Same, equals]
      exact equalsAll_iff.mpr h
    | set h => exact set_same_iff.mpr h
    | dict h => exact dict_same_iff.mpr h

variable {n : Nat} {items : List Value} {entries : List (Value × Value)}

theorem isDiscrete_items (h : (set items).isDiscrete) :
    (∀ x ∈ items, x.isDiscrete) ∧ items.Pairwise fun x x' => ¬ (Same x' x ∧ Same x x') := by
  rw [isDiscrete, Bool.and_eq_true, allDiscrete_iff, areDistinct_iff] at h
  refine ⟨h.1, h.2.imp ?_⟩
  intro x x' hne hsame
  exact absurd hsame.1 (Bool.eq_false_iff.mp hne)

theorem isDiscrete_entries (h : (dict entries).isDiscrete) :
    (∀ e ∈ entries, e.1.isDiscrete ∧ e.2.isDiscrete) ∧ entries.Pairwise fun e e' =>
      ¬ ((Same e.1 e'.1 ∧ Same e.2 e'.2) ∧ Same e'.1 e.1 ∧ Same e'.2 e.2) := by
  rw [isDiscrete, Bool.and_eq_true, entriesDiscrete_iff, areDistinct_iff, List.pairwise_map] at h
  refine ⟨h.1, h.2.imp ?_⟩
  intro e e' hne hsame
  exact absurd hsame.2.1 (Bool.eq_false_iff.mp hne)

/-! ### By induction on the size -/

/-- The values below a size that the laws are proved for. -/
def Within (n : Nat) (a : Value) : Prop := a.isDiscrete ∧ sizeOf a < n

theorem within_items (hitems : allDiscrete items) (hsize : sizeOf items < n) : ∀ x ∈ items, Within n x := by
  intro x hx
  have hlt : sizeOf x < sizeOf items := List.sizeOf_lt_of_mem hx
  exact ⟨allDiscrete_iff.mp hitems x hx, by omega⟩

theorem Within.list (h : Within (n + 1) (list items)) : ∀ x ∈ items, Within n x := by
  have hsize := h.2
  rw [list.sizeOf_spec] at hsize
  exact within_items h.1 (by omega)

theorem Within.tuple (h : Within (n + 1) (tuple items)) : ∀ x ∈ items, Within n x := by
  have hsize := h.2
  rw [tuple.sizeOf_spec] at hsize
  exact within_items h.1 (by omega)

theorem Within.set (h : Within (n + 1) (set items)) :
    (∀ x ∈ items, Within n x) ∧ items.Pairwise fun x x' => ¬ (Same x' x ∧ Same x x') := by
  obtain ⟨hitems, hne⟩ := isDiscrete_items h.1
  have hsize := h.2
  rw [set.sizeOf_spec] at hsize
  exact ⟨within_items (allDiscrete_iff.mpr hitems) (by omega), hne⟩

theorem Within.dict (h : Within (n + 1) (dict entries)) :
    (∀ e ∈ entries, Within n e.1 ∧ Within n e.2) ∧ entries.Pairwise fun e e' =>
      ¬ ((Same e.1 e'.1 ∧ Same e.2 e'.2) ∧ Same e'.1 e.1 ∧ Same e'.2 e.2) := by
  obtain ⟨hentries, hne⟩ := isDiscrete_entries h.1
  have hsize := h.2
  rw [dict.sizeOf_spec] at hsize
  refine ⟨?_, hne⟩
  rintro ⟨key, value⟩ he
  have hlt : sizeOf (key, value) < sizeOf entries := List.sizeOf_lt_of_mem he
  rw [Prod.mk.sizeOf_spec] at hlt
  obtain ⟨hkey, hvalue⟩ := hentries _ he
  have hsmall : sizeOf key < n ∧ sizeOf value < n := by omega
  exact ⟨⟨hkey, hsmall.1⟩, hvalue, hsmall.2⟩

/-- The laws for the parts give the laws for what is built from them. -/
theorem Alike.equivalence (h : EquivalenceOn (Within n) Same) :
    EquivalenceOn (Within (n + 1)) (Alike Same) where
  refl {a} ha := by
    cases a with
    | none | bool _ | int _ | str _ | function _ | environment => exact .scalar rfl rfl
    | float x => cases ha.1
    | list xs => exact .list (h.rows.refl ha.list)
    | tuple xs => exact .tuple (h.rows.refl ha.tuple)
    | set xs => exact .set (h.swap.embeds.refl ha.set)
    | dict xs => exact .dict (h.pairs.embeds.refl ha.dict)
  symm ha hb hab := by
    cases hab with
    | scalar hface hface' => exact .scalar hface' hface
    | list hrows => exact .list (h.rows.symm ha.list hb.list hrows)
    | tuple hrows => exact .tuple (h.rows.symm ha.tuple hb.tuple hrows)
    | set hembeds => exact .set (h.swap.embeds.symm ha.set hb.set hembeds)
    | dict hembeds => exact .dict (h.pairs.embeds.symm ha.dict hb.dict hembeds)
  trans ha hb hc hab hbc := by
    cases hab with
    | scalar hface hface' =>
      cases hbc with
      | scalar hmiddle hlast => exact .scalar hface (by rw [hlast, ← hmiddle, hface'])
      | _ => cases hface'
    | list hrows =>
      cases hbc with
      | scalar hmiddle => cases hmiddle
      | list hrows' => exact .list (h.rows.trans ha.list hb.list hc.list hrows hrows')
    | tuple hrows =>
      cases hbc with
      | scalar hmiddle => cases hmiddle
      | tuple hrows' => exact .tuple (h.rows.trans ha.tuple hb.tuple hc.tuple hrows hrows')
    | set hembeds =>
      cases hbc with
      | scalar hmiddle => cases hmiddle
      | set hembeds' => exact .set (h.swap.embeds.trans ha.set hb.set hc.set hembeds hembeds')
    | dict hembeds =>
      cases hbc with
      | scalar hmiddle => cases hmiddle
      | dict hembeds' => exact .dict (h.pairs.embeds.trans ha.dict hb.dict hc.dict hembeds hembeds')

theorem same_equivalence (n : Nat) : EquivalenceOn (Within n) Same := by
  induction n with
  | zero =>
    have hnone : ∀ {a}, ¬ Within 0 a := fun h => Nat.not_lt_zero _ h.2
    exact ⟨fun h => absurd h hnone, fun h => absurd h hnone, fun h => absurd h hnone⟩
  | succ n ih =>
    have h := Alike.equivalence ih
    refine ⟨fun ha => ?_, fun ha hb hab => ?_, fun ha hb hc hab hbc => ?_⟩
    · exact (same_iff ha.1 ha.1).mpr (h.refl ha)
    · exact (same_iff hb.1 ha.1).mpr (h.symm ha hb ((same_iff ha.1 hb.1).mp hab))
    · exact (same_iff ha.1 hc.1).mpr
        (h.trans ha hb hc ((same_iff ha.1 hb.1).mp hab) ((same_iff hb.1 hc.1).mp hbc))

theorem same_equivalenceOn : EquivalenceOn (fun a => a.isDiscrete) Same where
  refl {a} ha := (same_equivalence (sizeOf a + 1)).refl ⟨ha, Nat.lt_succ_self _⟩
  symm {a b} ha hb := (same_equivalence (sizeOf a + sizeOf b + 1)).symm ⟨ha, by omega⟩ ⟨hb, by omega⟩
  trans {a b c} ha hb hc := (same_equivalence (sizeOf a + sizeOf b + sizeOf c + 1)).trans
    ⟨ha, by omega⟩ ⟨hb, by omega⟩ ⟨hc, by omega⟩

/-- Two sets are equal if one can be put in an order in which it equals the other item by item. -/
theorem set_same_iff_perm {xs ys : List Value} (hxs : (set xs).isDiscrete) (hys : (set ys).isDiscrete) :
    Same (set xs) (set ys) ↔ ∃ zs, zs.Perm ys ∧ List.Forall₂ Same xs zs := by
  have hitems := (isDiscrete_items hxs).1
  have hrows := same_equivalenceOn.swap.rows
  rw [set_same_iff, same_equivalenceOn.swap.embeds_iff (isDiscrete_items hxs) (isDiscrete_items hys).1]
  apply exists_congr
  intro zs
  apply and_congr_right
  intro hperm
  have hzs : ∀ z ∈ zs, z.isDiscrete := fun z hz => (isDiscrete_items hys).1 z (hperm.subset hz)
  constructor
  · intro h
    exact (hrows.symm hitems hzs h).flip
  · intro h
    exact hrows.symm hzs hitems h.flip

theorem dict_same_iff_perm {xs ys : List (Value × Value)} (hxs : (dict xs).isDiscrete)
    (hys : (dict ys).isDiscrete) : Same (dict xs) (dict ys) ↔
      ∃ zs, zs.Perm ys ∧ List.Forall₂ (fun e e' => Same e.1 e'.1 ∧ Same e.2 e'.2) xs zs := by
  rw [dict_same_iff, same_equivalenceOn.pairs.embeds_iff (isDiscrete_entries hxs) (isDiscrete_entries hys).1]

/-- Equality is an equivalence among the values without doubles whose sets and dicts have no item and no key
twice. Truth values equal the integers zero and one, functions are compared by identity, and two sets or two
dicts are equal if one of them can be put in an order in which it equals the other place by place. -/
theorem equals_equivalence :
    Equivalence (fun a b : { v : Value // v.isDiscrete } => a.1.equals b.1 = true) ∧
      (∀ b n, (bool b).equals (int n) = true ↔ n = if b then 1 else 0) ∧
      (∀ f g, (function f).equals (function g) = true ↔ f.identity = g.identity) ∧
      (∀ xs ys, (set xs).isDiscrete → (set ys).isDiscrete → ((set xs).equals (set ys) = true ↔
        ∃ zs, zs.Perm ys ∧ List.Forall₂ (fun x z => x.equals z = true) xs zs)) ∧
      (∀ xs ys, (dict xs).isDiscrete → (dict ys).isDiscrete → ((dict xs).equals (dict ys) = true ↔
        ∃ zs, zs.Perm ys ∧
          List.Forall₂ (fun e e' => e.1.equals e'.1 = true ∧ e.2.equals e'.2 = true) xs zs)) := by
  refine ⟨⟨fun a => ?_, fun {a b} => ?_, fun {a b c} => ?_⟩, fun b n => ?_, fun f g => ?_, ?_, ?_⟩
  · exact same_equivalenceOn.refl a.2
  · exact same_equivalenceOn.symm a.2 b.2
  · exact same_equivalenceOn.trans a.2 b.2 c.2
  · simp only [equals, scalarEquals, integer?, beq_iff_eq]
    exact eq_comm
  · simp [equals, scalarEquals]
  · exact fun xs ys => set_same_iff_perm
  · exact fun xs ys => dict_same_iff_perm

/-- Dicts of sets, with truth values for integers and in another order. -/
theorem equals_equivalence_mixed :
    let a := dict [(int 0, set [str "a", int 1]), (str "k", list [bool true])]
    let b := dict [(str "k", list [int 1]), (bool false, set [bool true, str "a"])]
    a.isDiscrete = true ∧ b.isDiscrete = true ∧ a.equals b = true ∧ b.equals a = true := by
  intro a b
  have ha : a.isDiscrete = true := by decide +kernel
  have hb : b.isDiscrete = true := by decide +kernel
  have hab : a.equals b = true := by decide +kernel
  exact ⟨ha, hb, hab, equals_equivalence.1.symm (x := ⟨a, ha⟩) (y := ⟨b, hb⟩) hab⟩

end Value
end ConfigSandbox
