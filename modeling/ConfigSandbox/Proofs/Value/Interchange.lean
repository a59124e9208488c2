import ConfigSandbox.Proofs.Value.Equivalence

/-!
# Equal values stand for each other

Transitivity says what equal values without doubles do among themselves. Here the third value is any: a double,
or a set with an item twice. Two equal values without doubles equal the same values, from either side.
-/
namespace ConfigSandbox

/-! ### Row by row -/

theorem Embeds.comp {α β γ : Type} {r : α → β → Prop} {s : β → γ → Prop} {t : α → γ → Prop} {xs : List α}
    {ys : List β} {zs : List γ} (hxy : Embeds r xs ys) (hyz : Embeds s ys zs) (h : ∀ {x y z}, r x y → s y z → t x z) :
    Embeds t xs zs := by
  refine ⟨hxy.1.trans hyz.1, fun x hx => ?_⟩
  obtain ⟨y, hy, hrel⟩ := hxy.2 x hx
  obtain ⟨z, hz, hrel'⟩ := hyz.2 y hy
  exact ⟨z, hz, h hrel hrel'⟩

theorem forall₂_comp {α β γ : Type} {r : α → β → Prop} {s : β → γ → Prop} {t : α → γ → Prop} {xs : List α}
    {ys : List β} {zs : List γ} (hxy : List.Forall₂ r xs ys) (hyz : List.Forall₂ s ys zs)
    (h : ∀ {x y z}, r x y → s y z → t x z) : List.Forall₂ t xs zs := by
  induction hxy generalizing zs with
  | nil =>
    cases hyz
    exact .nil
  | cons hrel _ ih =>
    cases hyz with
    | cons hrel' hrest => exact .cons (h hrel hrel') (ih hrest)

theorem forall₂_imp {α β : Type} {r s : α → β → Prop} {xs : List α} {ys : List β} (hxy : List.Forall₂ r xs ys)
    (h : ∀ x ∈ xs, ∀ y ∈ ys, r x y → s x y) : List.Forall₂ s xs ys :=
  List.forall₂_iff_get.mpr ⟨hxy.length_eq, fun i hi hi' =>
    h _ (List.get_mem xs ⟨i, hi⟩) _ (List.get_mem ys ⟨i, hi'⟩) ((List.forall₂_iff_get.mp hxy).2 i hi hi')⟩

theorem Embeds.imp {α β : Type} {r s : α → β → Prop} {xs : List α} {ys : List β} (hxy : Embeds r xs ys)
    (h : ∀ x ∈ xs, ∀ y ∈ ys, r x y → s x y) : Embeds s xs ys :=
  ⟨hxy.1, fun x hx => (hxy.2 x hx).imp fun y hy => ⟨hy.1, h x hx y hy.1 hy.2⟩⟩

namespace Value

variable {x y z : Value} {n : Nat} {face : Face}

/-- Whatever one of two values equals, the other equals too; from either side. -/
def Interchange (x y : Value) : Prop := ∀ z, (Same x z ↔ Same y z) ∧ (Same z x ↔ Same z y)

theorem interchange_of_face (hx : x.face? = some face) (hy : y.face? = some face) : Interchange x y := by
  intro z
  cases x <;> cases hx <;> cases y <;> simp only [face?, Option.some.injEq, reduceCtorEq, Face.number.injEq,
    Face.text.injEq, Face.function.injEq] at hy <;> cases z <;>
    simp [Same, equals, scalarEquals, integer?, hy]

theorem Interchange.follow (h : Interchange x y) (hyz : Same y z) : Same x z := (h z).1.mpr hyz

theorem Interchange.precede (h : Interchange x y) (hzx : Same z x) : Same z y := (h z).2.mp hzx

/-- Values of one form are interchanged if their parts are. -/
theorem Alike.follow (hxy : Alike Interchange x y) (hyx : Alike Interchange y x) :
    (Same x z → Same y z) ∧ (Same z x → Same z y) := by
  cases hxy with
  | scalar hface hface' => exact (interchange_of_face hface hface' z).imp Iff.mp Iff.mp
  | list hrows =>
    cases hyx with | scalar h => cases h | list hback =>
    cases z with
    | list zs =>
      simp only [Same, equals, equalsAll_iff]
      exact ⟨fun h => forall₂_comp hback h fun hr hs => hr.follow hs,
        fun h => forall₂_comp h hrows fun hs hr => hr.precede hs⟩
    | _ => simp [Same, equals, scalarEquals, integer?]
  | tuple hrows =>
    cases hyx with | scalar h => cases h | tuple hback =>
    cases z with
    | tuple zs =>
      simp only [Same, equals, equalsAll_iff]
      exact ⟨fun h => forall₂_comp hback h fun hr hs => hr.follow hs,
        fun h => forall₂_comp h hrows fun hs hr => hr.precede hs⟩
    | _ => simp [Same, equals, scalarEquals, integer?]
  | set hembeds =>
    cases hyx with | scalar h => cases h | set hback =>
    cases z with
    | set zs =>
      simp only [set_same_iff]
      exact ⟨fun h => hback.comp h fun hr hs => hr.precede hs,
        fun h => h.comp hembeds fun hs hr => hr.follow hs⟩
    | _ => simp [Same, equals, scalarEquals, integer?]
  | dict hembeds =>
    cases hyx with | scalar h => cases h | dict hback =>
    cases z with
    | dict zs =>
      simp only [dict_same_iff]
      exact ⟨fun h => hback.comp h fun hr hs => ⟨hr.1.follow hs.1, hr.2.follow hs.2⟩,
        fun h => h.comp hembeds fun hs hr => ⟨hr.1.precede hs.1, hr.2.precede hs.2⟩⟩
    | _ => simp [Same, equals, scalarEquals, integer?]

theorem Alike.imp {r s : Value → Value → Prop} (hx : Within (n + 1) x) (hy : Within (n + 1) y)
    (h : ∀ {x y}, Within n x → Within n y → r x y → s x y) (hxy : Alike r x y) : Alike s x y := by
  cases hxy with
  | scalar hface hface' => exact .scalar hface hface'
  | list hrows => exact .list (forall₂_imp hrows fun x' hx' y' hy' => h (hx.list x' hx') (hy.list y' hy'))
  | tuple hrows => exact .tuple (forall₂_imp hrows fun x' hx' y' hy' => h (hx.tuple x' hx') (hy.tuple y' hy'))
  | set hembeds => exact .set (hembeds.imp fun x' hx' y' hy' => h (hy.set.1 y' hy') (hx.set.1 x' hx'))
  | dict hembeds =>
    refine .dict (hembeds.imp fun e he e' he' => ?_)
    obtain ⟨hk, hv⟩ := hx.dict.1 e he
    obtain ⟨hk', hv'⟩ := hy.dict.1 e' he'
    exact And.imp (h hk hk') (h hv hv')

theorem interchange_of_same_within : (n : Nat) → ∀ {x y : Value}, Within n x → Within n y → Same x y → Interchange x y
  | 0, _, _, hx, _, _ => absurd hx.2 (Nat.not_lt_zero _)
  | n + 1, x, y, hx, hy, hsame => by
    intro z
    have hback := same_equivalenceOn.symm hx.1 hy.1 hsame
    have hxy := ((same_iff hx.1 hy.1).mp hsame).imp hx hy (interchange_of_same_within n)
    have hyx := ((same_iff hy.1 hx.1).mp hback).imp hy hx (interchange_of_same_within n)
    obtain ⟨hfollow, hprecede⟩ := Alike.follow (z := z) hxy hyx
    obtain ⟨hfollow', hprecede'⟩ := Alike.follow (z := z) hyx hxy
    exact ⟨⟨hfollow, hfollow'⟩, ⟨hprecede, hprecede'⟩⟩

/-- Equal values without doubles equal the same values, whatever these are. -/
theorem interchange_of_same (hx : x.isDiscrete) (hy : y.isDiscrete) (h : Same x y) : Interchange x y :=
  interchange_of_same_within (sizeOf x + sizeOf y + 1) ⟨hx, by omega⟩ ⟨hy, by omega⟩ h

end Value
end ConfigSandbox
