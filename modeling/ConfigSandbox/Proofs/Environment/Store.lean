import ConfigSandbox.Proofs.Environment.OrderedMap

/-!
# The indexed store is an insertion-ordered map

Each operation of the store answers as the same operation on its row of entries does, and leaves the
row that the other leaves. Nothing after this module looks at the index.
-/
namespace ConfigSandbox.Environment

theorem keys_nodup (env : Environment) : (OrderedMap.keys env.toList).Nodup := env.indexed.keys_nodup

/-- The index finds an entry that no other entry shares its name with. -/
theorem split_of_place {env : Environment} {key : String} {i : Nat} (h : env.index[key]? = some i) :
    ∃ before value after, env.toList = before ++ (key, value) :: after ∧ before.length = i ∧
      key ∉ OrderedMap.keys before ∧ key ∉ OrderedMap.keys after := by
  obtain ⟨value, hget⟩ := env.indexed.bound h
  rw [← Array.getElem?_toList] at hget
  obtain ⟨before, after, hs⟩ := OrderedMap.split_at_key env.keys_nodup hget
  exact ⟨before, value, after, hs⟩

theorem absent_of_no_place {env : Environment} {key : String} (h : env.index[key]? = none) :
    key ∉ OrderedMap.keys env.toList := by
  intro hm
  obtain ⟨i, hi⟩ := List.mem_iff_getElem?.mp hm
  rw [OrderedMap.keys, List.getElem?_map, toList, Array.getElem?_toList] at hi
  exact env.indexed.unbound h i hi

variable (env : Environment) (key : String) (value : Value)

theorem get?_eq : env.get? key = OrderedMap.get? env.toList key := by
  unfold get?
  split
  · rename_i i hi
    obtain ⟨before, value, after, hs, hlen, hb, -⟩ := split_of_place hi
    have hget : env.entries[i]? = some (key, value) := by
      rw [← Array.getElem?_toList]
      change env.toList[i]? = _
      rw [hs, ← hlen]
      simp
    rw [hget, hs, OrderedMap.get?_at hb]
    rfl
  · rename_i hn
    rw [OrderedMap.get?_eq_none_iff.mpr (absent_of_no_place hn)]

theorem contains_eq : env.contains key = (OrderedMap.get? env.toList key).isSome := by
  rw [← get?_eq, contains, Std.HashMap.contains_eq_isSome_getElem?]
  unfold get?
  split
  · rename_i i hi
    obtain ⟨value, hget⟩ := env.indexed.bound hi
    rw [hi, hget]
    rfl
  · rename_i hn
    rw [hn]
    rfl

theorem insert_eq : (env.insert key value).1 = OrderedMap.get? env.toList key ∧
    (env.insert key value).2.toList = OrderedMap.insert key value env.toList := by
  have hfound := get?_eq env key
  unfold get? at hfound
  unfold insert
  split
  · rename_i i hi
    obtain ⟨before, former, after, hs, hlen, hb, -⟩ := split_of_place hi
    rw [hi] at hfound
    refine ⟨hfound, ?_⟩
    change (env.entries.modify i fun e => (e.1, value)).toList = _
    rw [Array.toList_modify]
    change env.toList.modify i _ = _
    rw [hs, OrderedMap.insert_at hb, List.modify_eq_take_cons_drop (by simp [← hlen])]
    simp [← hlen]
  · rename_i hn
    rw [hn] at hfound
    refine ⟨hfound, ?_⟩
    rw [OrderedMap.insert_absent (absent_of_no_place hn)]
    simp [toList]

theorem remove_eq : (env.remove key).1 = OrderedMap.get? env.toList key ∧
    (env.remove key).2.toList = OrderedMap.erase env.toList key := by
  have hfound := get?_eq env key
  unfold get? at hfound
  unfold remove
  split
  · rename_i i hi
    obtain ⟨before, former, after, hs, hlen, hb, ha⟩ := split_of_place hi
    rw [hi] at hfound
    refine ⟨hfound, ?_⟩
    change (env.entries.eraseIdxIfInBounds i).toList = _
    rw [Array.toList_eraseIdxIfInBounds]
    change env.toList.eraseIdx i = _
    rw [hs, OrderedMap.erase_at hb ha, List.eraseIdx_append_of_length_le (Nat.le_of_eq hlen),
      ← hlen, Nat.sub_self, List.eraseIdx_cons_zero]
  · rename_i hn
    rw [hn] at hfound
    exact ⟨hfound, (OrderedMap.erase_absent (absent_of_no_place hn)).symm⟩

theorem popLast_eq : env.popLast.1 = env.toList.getLast? ∧
    env.popLast.2.toList = env.toList.dropLast := by
  unfold popLast
  split
  · rename_i entry hl
    refine ⟨?_, by simp [toList]⟩
    rw [toList, Array.getLast?_toList]
    exact hl.symm
  · rename_i hn
    have hnil : env.toList = [] := by
      rw [← List.getLast?_eq_none_iff, toList, Array.getLast?_toList, hn]
    simp [hnil]

@[simp]
theorem insert_fst : (env.insert key value).1 = OrderedMap.get? env.toList key :=
  (insert_eq env key value).1

@[simp]
theorem toList_insert : (env.insert key value).2.toList = OrderedMap.insert key value env.toList :=
  (insert_eq env key value).2

@[simp]
theorem remove_fst : (env.remove key).1 = OrderedMap.get? env.toList key := (remove_eq env key).1

@[simp]
theorem toList_remove : (env.remove key).2.toList = OrderedMap.erase env.toList key :=
  (remove_eq env key).2

@[simp]
theorem toList_insertAll (added : List Entry) :
    (env.insertAll added).toList = OrderedMap.insertAll env.toList added := by
  induction added generalizing env with
  | nil => rfl
  | cons e added ih =>
    have hstep : env.insertAll (e :: added) = (env.insert e.1 e.2).2.insertAll added := rfl
    rw [hstep, ih, toList_insert]
    rfl

/-- Names that are all new, and differ from each other, are added at the end in their order. -/
theorem toList_insertAll_fresh (added : List Entry)
    (hd : (OrderedMap.keys (env.toList ++ added)).Nodup) :
    (env.insertAll added).toList = env.toList ++ added := by
  rw [toList_insertAll]
  generalize env.toList = entries at hd ⊢
  induction added generalizing entries with
  | nil => rw [List.append_nil]; rfl
  | cons e added ih =>
    have hassoc : entries ++ e :: added = (entries ++ [e]) ++ added := by simp
    have hfresh : e.1 ∉ OrderedMap.keys entries := by
      rw [OrderedMap.keys, List.map_append, List.nodup_append] at hd
      exact fun hm => hd.2.2 e.1 hm e.1 (by simp) rfl
    have hstep : OrderedMap.insertAll entries (e :: added) =
        OrderedMap.insertAll (OrderedMap.insert e.1 e.2 entries) added := rfl
    rw [hstep, OrderedMap.insert_absent hfresh, ih _ (by rw [← hassoc]; exact hd), hassoc]

end ConfigSandbox.Environment
