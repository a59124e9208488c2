import ConfigSandbox.Value.Equality

/-!
# Well-formed values

A value is well formed if the items of each set in it, and the keys of each dict, may be items and are
pairwise unequal. Sets and dicts that are built item by item are; the first of some equal items stands for
all of them, so it matters that equality does not depend on which of two items came first.
-/
namespace ConfigSandbox.Value

/-- Whether no item equals an earlier one. -/
def areDistinct : List Value → Bool
  | [] => true
  | x :: rest => rest.all (fun y => !y.equals x) && areDistinct rest

/-- Whether these may be the items of a set or the keys of a dict. -/
def areKeys (items : List Value) : Bool := items.all isHashable && areDistinct items

mutual

def isWellFormed : Value → Bool
  | list items | tuple items => allWellFormed items
  | set items => allWellFormed items && areKeys items
  | dict entries => entriesWellFormed entries && areKeys (entries.map Prod.fst)
  | _ => true

def allWellFormed : List Value → Bool
  | [] => true
  | item :: rest => item.isWellFormed && allWellFormed rest

def entriesWellFormed : List (Value × Value) → Bool
  | [] => true
  | (key, value) :: rest => key.isWellFormed && value.isWellFormed && entriesWellFormed rest

end

theorem allWellFormed_iff {items : List Value} :
    allWellFormed items ↔ ∀ item ∈ items, item.isWellFormed := by
  induction items with
  | nil => simp [allWellFormed]
  | cons item rest ih => simp [allWellFormed, ih]

theorem entriesWellFormed_iff {entries : List (Value × Value)} :
    entriesWellFormed entries ↔ ∀ e ∈ entries, e.1.isWellFormed ∧ e.2.isWellFormed := by
  induction entries with
  | nil => simp [entriesWellFormed]
  | cons e rest ih => simp [entriesWellFormed, ih, and_assoc]

/-! ### Equality of what may be an item -/

theorem equals_binary64_comm (x y : Binary64) : x.equals y = y.equals x := by
  unfold Binary64.equals
  rw [Bool.and_comm (!x.isNaN), BEq.comm (a := x.bits), Bool.and_comm (x.magnitude == 0)]

theorem scalarEquals_comm (a b : Value) : scalarEquals a b = scalarEquals b a := by
  cases a <;> cases b <;> simp [scalarEquals, integer?, equals_binary64_comm, BEq.comm]

mutual

/-- Of what may be an item it does not matter which of two is compared with the other. Sets are no items;
of two sets one can have all its items in the other, but not the other way round. -/
theorem equals_comm : (a b : Value) → a.isHashable → a.equals b = b.equals a
  | tuple xs, b, h => by
    cases b with
    | tuple ys =>
      rw [equals, equals]
      exact equalsAll_comm xs ys h
    | _ => simp [equals, scalarEquals_comm]
  | none, b, _ | bool _, b, _ | int _, b, _ | float _, b, _ | str _, b, _ | function _, b, _ => by
    cases b <;> simp [equals, scalarEquals_comm]

theorem equalsAll_comm : (xs ys : List Value) → allHashable xs → equalsAll xs ys = equalsAll ys xs
  | [], ys, _ => by cases ys <;> simp [equalsAll]
  | x :: xs, [], _ => by simp [equalsAll]
  | x :: xs, y :: ys, h => by
    rw [allHashable, Bool.and_eq_true] at h
    rw [equalsAll, equalsAll, equals_comm x y h.1, equalsAll_comm xs ys h.2]

end

/-! ### Sets and dicts that are built item by item -/

variable {kept items : List Value} {entries : List (Value × Value)} {item key value : Value}

theorem areDistinct_iff : areDistinct items ↔ items.Pairwise fun x y => y.equals x = false := by
  induction items with
  | nil => simp [areDistinct]
  | cons x rest ih => simp [areDistinct, ih]

theorem areKeys_iff : areKeys items ↔
    (∀ x ∈ items, x.isHashable) ∧ items.Pairwise fun x y => y.equals x = false := by
  rw [areKeys, Bool.and_eq_true, List.all_eq_true, areDistinct_iff]

theorem areKeys_addItem (h : areKeys kept) (hitem : item.isHashable) : areKeys (addItem kept item) := by
  unfold addItem
  split
  · exact h
  · rename_i hnew
    rw [occursIn_eq_any] at hnew
    obtain ⟨hhashable, hdistinct⟩ := areKeys_iff.mp h
    rw [areKeys_iff, List.pairwise_append]
    refine ⟨?_, hdistinct, List.pairwise_singleton _ _, fun x hx y hy => ?_⟩
    · intro x hx
      rcases List.mem_append.mp hx with hx | hx
      · exact hhashable x hx
      · rw [List.mem_singleton.mp hx]
        exact hitem
    · -- the item was compared as the later of the two
      rw [List.mem_singleton.mp hy, equals_comm item x hitem]
      simpa using fun heq => hnew (List.any_eq_true.mpr ⟨x, hx, heq⟩)

theorem mem_addItem {x : Value} (h : x ∈ addItem kept item) : x ∈ kept ∨ x = item := by
  unfold addItem at h
  split at h
  · exact Or.inl h
  · rcases List.mem_append.mp h with h | h
    · exact Or.inl h
    · exact Or.inr (List.mem_singleton.mp h)

theorem foldl_addItem (hkept : areKeys kept ∧ ∀ x ∈ kept, x.isWellFormed)
    (hitems : ∀ x ∈ items, x.isHashable ∧ x.isWellFormed) :
    areKeys (items.foldl addItem kept) ∧ ∀ x ∈ items.foldl addItem kept, x.isWellFormed := by
  induction items generalizing kept with
  | nil => exact hkept
  | cons item rest ih =>
    obtain ⟨⟨hhashable, hwell⟩, hrest⟩ := List.forall_mem_cons.mp hitems
    refine ih ⟨areKeys_addItem hkept.1 hhashable, fun x hx => ?_⟩ hrest
    rcases mem_addItem hx with hx | rfl
    · exact hkept.2 x hx
    · exact hwell

theorem setOf_isWellFormed (h : ∀ x ∈ items, x.isHashable ∧ x.isWellFormed) :
    (setOf items).isWellFormed := by
  have hnone : ∀ x ∈ ([] : List Value), x.isWellFormed := List.forall_mem_nil _
  obtain ⟨hkeys, hwell⟩ := foldl_addItem ⟨rfl, hnone⟩ h
  rw [setOf, isWellFormed, Bool.and_eq_true]
  exact ⟨allWellFormed_iff.mpr hwell, hkeys⟩

/-- A key that is there already keeps its place, another comes last. -/
theorem keys_addEntry : (addEntry key value entries).map Prod.fst = addItem (entries.map Prod.fst) key := by
  induction entries with
  | nil => simp [addEntry, addItem, occursIn]
  | cons e rest ih =>
    obtain ⟨k, v⟩ := e
    rw [addEntry]
    split
    · rename_i heq
      simp [addItem, occursIn, heq]
    · rename_i hne
      rw [List.map_cons, ih, addItem, addItem, List.map_cons, occursIn]
      simp only [hne, Bool.false_or]
      split <;> rfl

theorem mem_addEntry {e : Value × Value} (h : e ∈ addEntry key value entries) :
    e ∈ entries ∨ e = (key, value) ∨ ∃ v, (e.1, v) ∈ entries ∧ e.2 = value := by
  induction entries with
  | nil => exact Or.inr (Or.inl (List.mem_singleton.mp h))
  | cons e' rest ih =>
    obtain ⟨k, v⟩ := e'
    rw [addEntry] at h
    split at h
    · rcases List.mem_cons.mp h with rfl | h
      · exact Or.inr (Or.inr ⟨v, List.mem_cons_self, rfl⟩)
      · exact Or.inl (List.mem_cons_of_mem _ h)
    · rcases List.mem_cons.mp h with rfl | h
      · exact Or.inl List.mem_cons_self
      · rcases ih h with h | rfl | ⟨v', h, hv⟩
        · exact Or.inl (List.mem_cons_of_mem _ h)
        · exact Or.inr (Or.inl rfl)
        · exact Or.inr (Or.inr ⟨v', List.mem_cons_of_mem _ h, hv⟩)

theorem foldl_addEntry {added : List (Value × Value)}
    (hentries : areKeys (entries.map Prod.fst) ∧ ∀ e ∈ entries, e.1.isWellFormed ∧ e.2.isWellFormed)
    (hadded : ∀ e ∈ added, e.1.isHashable ∧ e.1.isWellFormed ∧ e.2.isWellFormed) :
    areKeys ((added.foldl (fun kept (k, v) => addEntry k v kept) entries).map Prod.fst) ∧
      ∀ e ∈ added.foldl (fun kept (k, v) => addEntry k v kept) entries,
        e.1.isWellFormed ∧ e.2.isWellFormed := by
  induction added generalizing entries with
  | nil => exact hentries
  | cons a rest ih =>
    obtain ⟨⟨hhashable, hkey, hvalue⟩, hrest⟩ := List.forall_mem_cons.mp hadded
    refine ih ⟨?_, fun e he => ?_⟩ hrest
    · rw [keys_addEntry]
      exact areKeys_addItem hentries.1 hhashable
    · rcases mem_addEntry he with he | rfl | ⟨v, he, hv⟩
      · exact hentries.2 e he
      · exact ⟨hkey, hvalue⟩
      · rw [hv]
        exact ⟨(hentries.2 _ he).1, hvalue⟩

theorem dictOf_isWellFormed (h : ∀ e ∈ entries, e.1.isHashable ∧ e.1.isWellFormed ∧ e.2.isWellFormed) :
    (dictOf entries).isWellFormed := by
  obtain ⟨hkeys, hwell⟩ := foldl_addEntry ⟨rfl, List.forall_mem_nil _⟩ h
  rw [dictOf, isWellFormed, Bool.and_eq_true]
  exact ⟨entriesWellFormed_iff.mpr hwell, hkeys⟩

end ConfigSandbox.Value
