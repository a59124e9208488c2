import ConfigSandbox.Proofs.Value.Interchange
import Mathlib.Data.List.Induction

/-!
# What sets and dicts are built of

Where equality is an equivalence, comparing an item with those that were kept is as good as comparing it with
all that came before: whatever was dropped equals something kept. So a set keeps the first of all items that
are equal, and a dict keeps the first of its equal keys with the value that was given last.
-/
namespace ConfigSandbox.Value

variable {items : List Value} {entries : List (Value × Value)} {x y k v key : Value}

/-- The items that equal no earlier one. -/
def firsts (items : List Value) : List Value :=
  (items.zipIdx.filter fun (x, i) => !(items.take i).any fun earlier => earlier.equals x).map Prod.fst

/-- The value of the last entry whose key equals the given one. -/
def lastUnder (entries : List (Value × Value)) (key : Value) : Option Value :=
  ((entries.filter fun e => e.1.equals key).getLast?).map Prod.snd

/-! ### One more at the end -/

theorem firsts_concat (items : List Value) (x : Value) : firsts (items ++ [x]) =
    if items.any fun earlier => earlier.equals x then firsts items else firsts items ++ [x] := by
  have hfront : (items.zipIdx.filter fun (y, i) => !((items ++ [x]).take i).any fun earlier => earlier.equals y) =
      items.zipIdx.filter fun (y, i) => !(items.take i).any fun earlier => earlier.equals y := by
    apply List.filter_congr
    rintro ⟨y, i⟩ hy
    have hi : i < items.length := by simpa using (List.mem_zipIdx hy).2.1
    dsimp only
    rw [List.take_append_of_le_length (Nat.le_of_lt hi)]
  rw [firsts, List.zipIdx_append, List.filter_append, List.map_append, hfront, ← firsts]
  cases hany : items.any fun earlier => earlier.equals x <;> simp [hany]

theorem lastUnder_concat (entries : List (Value × Value)) (k v key : Value) : lastUnder (entries ++ [(k, v)]) key =
    if k.equals key then some v else lastUnder entries key := by
  cases heq : k.equals key <;> simp [lastUnder, heq]

/-! ### Sets -/

theorem mem_of_mem_firsts (h : x ∈ firsts items) : x ∈ items := by
  obtain ⟨⟨y, i⟩, hy, rfl⟩ := List.mem_map.mp h
  rw [(List.mem_zipIdx (List.mem_filter.mp hy).1).2.2]
  exact List.getElem_mem _

/-- What is dropped equals something kept. -/
theorem exists_firsts (hitems : ∀ x ∈ items, x.isDiscrete) (hx : x ∈ items) : ∃ y ∈ firsts items, Same y x := by
  induction items using List.reverseRecOn generalizing x with
  | nil => cases hx
  | append_singleton items last ih =>
    obtain ⟨hfront, hlast⟩ := List.forall_mem_append.mp hitems
    have hlast := hlast last (List.mem_singleton_self last)
    rw [firsts_concat]
    split
    · rename_i hany
      rcases List.mem_append.mp hx with hx | hx
      · exact ih hfront hx
      · obtain ⟨earlier, hmem, hsame⟩ := List.any_eq_true.mp hany
        obtain ⟨y, hy, hkept⟩ := ih hfront hmem
        have hyd : y.isDiscrete := hfront y (mem_of_mem_firsts hy)
        rw [List.mem_singleton.mp hx]
        exact ⟨y, hy, same_equivalenceOn.trans hyd (hfront _ hmem) hlast hkept hsame⟩
    · rcases List.mem_append.mp hx with hx | hx
      · obtain ⟨y, hy, hsame⟩ := ih hfront hx
        exact ⟨y, List.mem_append_left [last] hy, hsame⟩
      · rw [List.mem_singleton.mp hx]
        exact ⟨last, List.mem_append_right _ List.mem_cons_self, same_equivalenceOn.refl hlast⟩

theorem occursIn_firsts (hitems : ∀ x ∈ items, x.isDiscrete) (x : Value) :
    occursIn x (firsts items) = items.any fun earlier => earlier.equals x := by
  rw [occursIn_eq_any, Bool.eq_iff_iff, List.any_eq_true, List.any_eq_true]
  constructor
  · rintro ⟨y, hy, hsame⟩
    exact ⟨y, mem_of_mem_firsts hy, hsame⟩
  · rintro ⟨earlier, hmem, hsame⟩
    obtain ⟨y, hy, hkept⟩ := exists_firsts hitems hmem
    have hyd : y.isDiscrete := hitems y (mem_of_mem_firsts hy)
    exact ⟨y, hy, (interchange_of_same hyd (hitems _ hmem) hkept).follow hsame⟩

theorem foldl_addItem_eq_firsts (hitems : ∀ x ∈ items, x.isDiscrete) : items.foldl addItem [] = firsts items := by
  induction items using List.reverseRecOn with
  | nil => rfl
  | append_singleton items last ih =>
    obtain ⟨hfront, -⟩ := List.forall_mem_append.mp hitems
    rw [List.foldl_concat, ih hfront, firsts_concat, addItem, occursIn_firsts hfront]

/-- An item that is kept is unequal to those kept before it, in either order. -/
theorem pairwise_firsts (hitems : ∀ x ∈ items, x.isDiscrete) :
    (firsts items).Pairwise fun x y => x.equals y = false ∧ y.equals x = false := by
  induction items using List.reverseRecOn with
  | nil => exact List.Pairwise.nil
  | append_singleton items last ih =>
    obtain ⟨hfront, hlast⟩ := List.forall_mem_append.mp hitems
    have hlast := hlast last (List.mem_singleton_self last)
    rw [firsts_concat]
    split
    · exact ih hfront
    · rename_i hnone
      rw [List.any_eq_true, not_exists] at hnone
      refine List.pairwise_append.mpr ⟨ih hfront, List.pairwise_singleton _ _, fun x hx y hy => ?_⟩
      obtain rfl : y = last := List.mem_singleton.mp hy
      have hmem := mem_of_mem_firsts hx
      have hne : ¬ Same x y := fun hsame => hnone x ⟨hmem, hsame⟩
      exact ⟨Bool.eq_false_iff.mpr hne,
        Bool.eq_false_iff.mpr fun hsame => hne (same_equivalenceOn.symm hlast (hfront x hmem) hsame)⟩

/-- Of unequal items one at most equals a value. -/
theorem countP_le_one {kept : List Value} (hkept : ∀ y ∈ kept, y.isDiscrete) (hx : x.isDiscrete)
    (hne : kept.Pairwise fun y z => y.equals z = false ∧ z.equals y = false) :
    kept.countP (fun y => y.equals x) ≤ 1 := by
  induction kept with
  | nil => exact Nat.zero_le 1
  | cons y rest ih =>
    obtain ⟨hy, hrest⟩ := List.forall_mem_cons.mp hkept
    obtain ⟨hfirst, hmore⟩ := List.pairwise_cons.mp hne
    rw [List.countP_cons]
    split
    · rename_i hyx
      have hnone : rest.countP (fun z => z.equals x) = 0 := by
        refine List.countP_eq_zero.mpr fun z hz hzx => ?_
        have hxz : Same x z := same_equivalenceOn.symm (hrest z hz) hx hzx
        have hyz : Same y z := same_equivalenceOn.trans hy hx (hrest z hz) hyx hxz
        exact Bool.false_ne_true ((hfirst z hz).1.symm.trans hyz)
      omega
    · exact ih hrest hmore

theorem countP_firsts (hitems : ∀ x ∈ items, x.isDiscrete) (hx : x ∈ items) :
    (firsts items).countP (fun y => y.equals x) = 1 := by
  obtain ⟨y, hy, hsame⟩ := exists_firsts hitems hx
  have hpos : 0 < (firsts items).countP fun y => y.equals x := List.countP_pos_iff.mpr ⟨y, hy, hsame⟩
  have hle := countP_le_one (fun y hy => hitems y (mem_of_mem_firsts hy)) (hitems x hx) (pairwise_firsts hitems)
  omega

theorem find?_firsts (hitems : ∀ x ∈ items, x.isDiscrete) (key : Value) :
    (firsts items).find? (fun x => x.equals key) = items.find? fun x => x.equals key := by
  induction items using List.reverseRecOn with
  | nil => rfl
  | append_singleton items last ih =>
    obtain ⟨hfront, hlast⟩ := List.forall_mem_append.mp hitems
    have ih := ih hfront
    rw [firsts_concat, List.find?_append]
    split
    · rename_i hany
      obtain ⟨earlier, hmem, hsame⟩ := List.any_eq_true.mp hany
      rw [ih, List.find?_singleton]
      split
      · -- what equals the last item equals the key too, so that one was found before
        rename_i hkey
        have hearlier : Same earlier key :=
          (interchange_of_same (hfront _ hmem) (hlast _ List.mem_cons_self) hsame).follow hkey
        have hfound : (items.find? fun x => x.equals key).isSome := List.find?_isSome.mpr ⟨earlier, hmem, hearlier⟩
        rw [Option.or_of_isSome hfound]
      · rw [Option.or_none]
    · rw [List.find?_append, ih]

/-! ### Dicts -/

theorem keys_foldl_addEntry (entries : List (Value × Value)) :
    (entries.foldl (fun kept (k, v) => addEntry k v kept) []).map Prod.fst =
      (entries.map Prod.fst).foldl addItem [] := by
  induction entries using List.reverseRecOn with
  | nil => rfl
  | append_singleton entries e ih =>
    rw [List.foldl_concat, List.map_append, List.map_singleton, List.foldl_concat, ← ih]
    exact keys_addEntry

/-- A value that is put under a key is found under whatever equals the key, and nothing else is changed. -/
theorem lookup?_addEntry (hkeys : ∀ e ∈ entries, e.1.isDiscrete) (hk : k.isDiscrete) (hkey : key.isDiscrete) :
    (dict (addEntry k v entries)).lookup? key = if k.equals key then some v else (dict entries).lookup? key := by
  induction entries with
  | nil =>
    rw [addEntry, lookup?, List.find?_singleton]
    split <;> rfl
  | cons e rest ih =>
    obtain ⟨k', v'⟩ := e
    obtain ⟨hk', hrest⟩ := List.forall_mem_cons.mp hkeys
    dsimp only at hk'
    have ih := ih hrest
    rw [lookup?, lookup?] at ih ⊢
    rw [addEntry]
    split
    · rename_i hsame
      -- the key was there, and equals the same values
      have hiff : k'.equals key = k.equals key := Bool.eq_iff_iff.mpr (interchange_of_same hk' hk hsame key).1
      rw [List.find?_cons, List.find?_cons, hiff]
      split <;> simp_all
    · rename_i hne
      rw [List.find?_cons, List.find?_cons]
      dsimp only
      split
      · rename_i hfound
        have hnot : k.equals key = false := Bool.eq_false_iff.mpr fun h =>
          hne (same_equivalenceOn.trans hk' hkey hk hfound (same_equivalenceOn.symm hk hkey h))
        rw [hnot]
        rfl
      · exact ih

theorem keys_dictOf (hkeys : ∀ e ∈ entries, e.1.isDiscrete) :
    (entries.foldl (fun kept (k, v) => addEntry k v kept) []).map Prod.fst = firsts (entries.map Prod.fst) := by
  rw [keys_foldl_addEntry, foldl_addItem_eq_firsts (List.forall_mem_map.mpr hkeys)]

theorem isDiscrete_keys_dictOf (hkeys : ∀ e ∈ entries, e.1.isDiscrete) :
    ∀ e ∈ entries.foldl (fun kept (k, v) => addEntry k v kept) [], e.1.isDiscrete := by
  intro e he
  have hmem : e.1 ∈ firsts (entries.map Prod.fst) := keys_dictOf hkeys ▸ List.mem_map_of_mem he
  obtain ⟨e', he', heq⟩ := List.mem_map.mp (mem_of_mem_firsts hmem)
  rw [← heq]
  exact hkeys e' he'

theorem lookup?_dictOf (hkeys : ∀ e ∈ entries, e.1.isDiscrete) (hkey : key.isDiscrete) :
    (dictOf entries).lookup? key = lastUnder entries key := by
  induction entries using List.reverseRecOn with
  | nil => rfl
  | append_singleton entries e ih =>
    obtain ⟨k, v⟩ := e
    obtain ⟨hfront, hlast⟩ := List.forall_mem_append.mp hkeys
    have hk := hlast (k, v) (List.mem_singleton_self _)
    rw [lastUnder_concat, ← ih hfront, dictOf, List.foldl_concat]
    exact lookup?_addEntry (isDiscrete_keys_dictOf hfront) hk hkey

/-- Looking a key up is finding the first key that equals it and looking that one up. -/
theorem lookup?_eq_bind (hkeys : ∀ e ∈ entries, e.1.isDiscrete)
    (hne : (entries.map Prod.fst).Pairwise fun x y => x.equals y = false ∧ y.equals x = false) (key : Value) :
    (dict entries).lookup? key = ((entries.map Prod.fst).find? fun x => x.equals key).bind (dict entries).lookup? := by
  induction entries with
  | nil => rfl
  | cons e rest ih =>
    obtain ⟨k, v⟩ := e
    obtain ⟨hk, hrest⟩ := List.forall_mem_cons.mp hkeys
    obtain ⟨hfirst, hne⟩ := List.pairwise_cons.mp hne
    have hself : k.equals k = true := same_equivalenceOn.refl hk
    have ih := ih hrest hne
    rw [lookup?, List.map_cons, List.find?_cons, List.find?_cons]
    dsimp only
    split
    · rw [Option.bind_some, lookup?, List.find?_cons, hself]
    · rw [lookup?] at ih
      rw [ih]
      cases hfind : (rest.map Prod.fst).find? fun x => x.equals key with
      | none => rfl
      | some k' =>
        rw [Option.bind_some, Option.bind_some, lookup?, lookup?, List.find?_cons,
          (hfirst k' (List.mem_of_find?_eq_some hfind)).1]

theorem lookup?_dictOf_eq_bind (hkeys : ∀ e ∈ entries, e.1.isDiscrete) (key : Value) : (dictOf entries).lookup? key =
    ((entries.map Prod.fst).find? fun x => x.equals key).bind (lastUnder entries) := by
  have hlist : ∀ x ∈ entries.map Prod.fst, x.isDiscrete := List.forall_mem_map.mpr hkeys
  have hkept := keys_dictOf hkeys
  rw [dictOf, lookup?_eq_bind (isDiscrete_keys_dictOf hkeys) (hkept ▸ pairwise_firsts hlist), hkept,
    find?_firsts hlist]
  cases hfind : (entries.map Prod.fst).find? fun x => x.equals key with
  | none => rfl
  | some k => exact lookup?_dictOf hkeys (hlist k (List.mem_of_find?_eq_some hfind))

/-- If all the keys that equal a value equal one another, then the value given last under any of them is found. -/
theorem lookup?_dictOf_of_agree (hkeys : ∀ e ∈ entries, e.1.isDiscrete)
    (hagree : ∀ e ∈ entries, ∀ e' ∈ entries, e.1.equals key → e'.1.equals key → e.1.equals e'.1) :
    (dictOf entries).lookup? key = lastUnder entries key := by
  rw [lookup?_dictOf_eq_bind hkeys]
  cases hfind : (entries.map Prod.fst).find? fun x => x.equals key with
  | none =>
    have hnone : entries.filter (fun e => e.1.equals key) = [] :=
      List.filter_eq_nil_iff.mpr fun e he => List.find?_eq_none.mp hfind e.1 (List.mem_map_of_mem he)
    rw [lastUnder, hnone]
    rfl
  | some k =>
    have hk : k.equals key = true := by simpa using List.find?_some hfind
    obtain ⟨first, hfirst, rfl⟩ := List.mem_map.mp (List.mem_of_find?_eq_some hfind)
    have hsame : ∀ e ∈ entries, e.1.equals first.1 = e.1.equals key := fun e he =>
      Bool.eq_iff_iff.mpr ⟨fun h => (interchange_of_same (hkeys e he) (hkeys first hfirst) h).follow hk,
        fun h => hagree e he first hfirst h hk⟩
    rw [Option.bind_some, lastUnder, lastUnder, List.filter_congr hsame]

end ConfigSandbox.Value
