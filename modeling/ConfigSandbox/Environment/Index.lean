import ConfigSandbox.Value.Basic
import Std.Data.HashMap

/-!
The index beside a row of entries. It finds the place of a name without a search, so it has to follow
the row through every replacement, addition and removal.
-/
namespace ConfigSandbox

abbrev Entry := String × Value

abbrev Index := Std.HashMap String Nat

namespace Index

/-- The index holds exactly the names of the entries, each with its place. -/
def Matches (index : Index) (entries : Array Entry) : Prop :=
  ∀ (key : String) (i : Nat), index[key]? = some i ↔ entries[i]?.map Prod.fst = some key

/-- Moves the places of some entries up by one. -/
def moveUp (index : Index) (later : List Entry) : Index :=
  later.foldl (fun index e => index.modify e.1 (· - 1)) index

theorem getElem?_moveUp (later : List Entry) (index : Index) (key : String)
    (hd : (later.map Prod.fst).Nodup) :
    (index.moveUp later)[key]? =
      if key ∈ later.map Prod.fst then index[key]?.map (· - 1) else index[key]? := by
  induction later generalizing index with
  | nil => simp [moveUp]
  | cons e later ih =>
    obtain ⟨hne, hd⟩ := List.nodup_cons.mp hd
    have hstep : index.moveUp (e :: later) = moveUp (index.modify e.1 (· - 1)) later := rfl
    rw [hstep, ih _ hd, Std.HashMap.getElem?_modify]
    by_cases hk : e.1 = key
    · subst hk
      simp [hne]
    · have hmem : key ∈ (e :: later).map Prod.fst ↔ key ∈ later.map Prod.fst := by
        rw [List.map_cons, List.mem_cons]
        exact or_iff_right fun he => hk he.symm
      simp only [hmem, beq_iff_eq, hk, if_false]

namespace Matches

variable {index : Index} {entries : Array Entry}

theorem empty : Matches ∅ #[] := by
  intro key i
  simp

/-- Two places with one name are one place. -/
theorem place_unique (h : index.Matches entries) {i j : Nat} {key : String}
    (hi : entries[i]?.map Prod.fst = some key) (hj : entries[j]?.map Prod.fst = some key) : i = j := by
  have hi' := (h key i).mpr hi
  have hj' := (h key j).mpr hj
  rw [hi'] at hj'
  exact Option.some.inj hj'

theorem keys_nodup (h : index.Matches entries) : (entries.toList.map Prod.fst).Nodup := by
  rw [List.Nodup, List.pairwise_iff_getElem]
  intro i j hi hj hlt he
  have hplace : ∀ (k : Nat) (hk : k < (entries.toList.map Prod.fst).length),
      entries[k]?.map Prod.fst = some (entries.toList.map Prod.fst)[k] := by
    intro k hk
    rw [← Array.getElem?_toList, ← List.getElem?_map, List.getElem?_eq_getElem hk]
  have hij : i = j := h.place_unique (hplace i hi) (by rw [hplace j hj, he])
  omega

theorem bound (h : index.Matches entries) {key : String} {i : Nat} (hi : index[key]? = some i) :
    ∃ value, entries[i]? = some (key, value) := by
  have he := (h key i).mp hi
  obtain ⟨e, hget, hkey⟩ := Option.map_eq_some_iff.mp he
  exact ⟨e.2, by rw [hget, ← hkey]⟩

theorem unbound (h : index.Matches entries) {key : String} (hn : index[key]? = none) (i : Nat) :
    entries[i]?.map Prod.fst ≠ some key := by
  intro he
  rw [(h key i).mpr he] at hn
  cases hn

theorem modify (h : index.Matches entries) (place : Nat) (value : Value) :
    index.Matches (entries.modify place fun e => (e.1, value)) := by
  intro key i
  have hsame : (entries.modify place fun e => (e.1, value))[i]?.map Prod.fst = entries[i]?.map Prod.fst := by
    rw [Array.getElem?_modify]
    split
    · rw [Option.map_map]
      rfl
    · rfl
  rw [hsame]
  exact h key i

theorem push (h : index.Matches entries) {key : String} (hn : index[key]? = none) (value : Value) :
    Matches (index.insert key entries.size) (entries.push (key, value)) := by
  intro name i
  rw [Std.HashMap.getElem?_insert, Array.getElem?_push]
  have hfresh := h.unbound hn i
  by_cases hk : key = name <;> by_cases hi : i = entries.size
  · simp [hk, hi]
  · subst hk
    have hi' : ¬ entries.size = i := fun he => hi he.symm
    simpa [hi, hi'] using hfresh
  · subst hi
    have hnone : index[name]? ≠ some entries.size := by
      rw [Ne, h name entries.size]
      simp
    simpa [hk] using hnone
  · simpa [hk, hi] using h name i

theorem pop (h : index.Matches entries) {last : Entry} (hl : entries.back? = some last) :
    Matches (index.erase last.1) entries.pop := by
  intro name i
  rw [Std.HashMap.getElem?_erase, Array.getElem?_pop]
  rw [Array.back?_eq_getElem?] at hl
  have hlast : entries[entries.size - 1]?.map Prod.fst = some last.1 := by rw [hl]; rfl
  by_cases hi : i < entries.size - 1
  · by_cases hk : last.1 = name
    · subst hk
      have hne : entries[i]?.map Prod.fst ≠ some last.1 := by
        intro he
        have := h.place_unique he hlast
        omega
      simpa [hi] using hne
    · simpa [hk, hi] using h name i
  · have hnone : last.1 ≠ name → index[name]? ≠ some i := by
      intro hk he
      have hi' := (h name i).mp he
      have hlt : i = entries.size - 1 := by
        obtain ⟨value, hget⟩ := h.bound he
        have := (Array.getElem?_eq_some_iff.mp hget).1
        omega
      rw [hlt, hlast] at hi'
      exact hk (Option.some.inj hi')
    by_cases hk : last.1 = name
    · simp [hk, hi]
    · simpa [hk, hi] using hnone hk

/-- The names that stand after a place. -/
theorem mem_later (h : index.Matches entries) (i : Nat) (name : String) :
    name ∈ (entries.toList.drop (i + 1)).map Prod.fst ↔ ∃ k, i < k ∧ index[name]? = some k := by
  constructor
  · intro hm
    obtain ⟨n, hn⟩ := List.mem_iff_getElem?.mp hm
    refine ⟨i + 1 + n, by omega, (h name _).mpr ?_⟩
    rwa [List.getElem?_map, List.getElem?_drop, Array.getElem?_toList] at hn
  · rintro ⟨k, hik, hk⟩
    apply List.mem_iff_getElem?.mpr
    refine ⟨k - (i + 1), ?_⟩
    rw [List.getElem?_map, List.getElem?_drop, Array.getElem?_toList,
      show i + 1 + (k - (i + 1)) = k from by omega]
    exact (h name k).mp hk

/-- Where a name stands once the entry at place `i` is gone. -/
theorem place_erase (h : index.Matches entries) (i j : Nat) (name : String) :
    (entries.eraseIdxIfInBounds i)[j]?.map Prod.fst = some name ↔
      index[name]? = some (if j < i then j else j + 1) := by
  rw [← Array.getElem?_toList, Array.toList_eraseIdxIfInBounds, List.getElem?_eraseIdx, h name]
  split <;> rw [Array.getElem?_toList]

theorem erase (h : index.Matches entries) {key : String} {i : Nat} (hi : index[key]? = some i) :
    Matches (moveUp (index.erase key) (entries.toList.drop (i + 1)))
      (entries.eraseIdxIfInBounds i) := by
  intro name j
  have hd : ((entries.toList.drop (i + 1)).map Prod.fst).Nodup :=
    h.keys_nodup.sublist ((List.drop_sublist _ _).map _)
  rw [getElem?_moveUp _ _ _ hd, Std.HashMap.getElem?_erase, h.place_erase]
  by_cases hk : key = name
  · subst hk
    have hne : i ≠ if j < i then j else j + 1 := by split <;> omega
    simp [hi, hne]
  · have hbeq : (key == name) = false := beq_false_of_ne hk
    simp only [hbeq, Bool.false_eq_true, if_false]
    cases hp : index[name]? with
    | none => simp
    | some k =>
      have hki : k ≠ i := by
        intro he
        subst he
        exact hk (Option.some.inj (((h key k).mp hi).symm.trans ((h name k).mp hp)))
      have hlater : name ∈ (entries.toList.drop (i + 1)).map Prod.fst ↔ i < k := by
        rw [h.mem_later, hp]
        simp
      by_cases hlt : i < k
      · rw [if_pos (hlater.mpr hlt), Option.map_some, Option.some.injEq, Option.some.injEq]
        split <;> omega
      · rw [if_neg fun hm => hlt (hlater.mp hm), Option.some.injEq, Option.some.injEq]
        split <;> omega

end Matches
end Index
end ConfigSandbox
