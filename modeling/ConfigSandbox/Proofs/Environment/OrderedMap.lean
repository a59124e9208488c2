import ConfigSandbox.Environment.Basic

/-!
# A row of entries as an insertion-ordered map

The reference that the indexed store is measured by: a plain list, searched from the front. There is
no index in it and no notion of a hidden name.
-/
namespace ConfigSandbox.OrderedMap

def keys (entries : List Entry) : List String := entries.map Prod.fst

def get? (entries : List Entry) (key : String) : Option Value :=
  (entries.find? fun e => e.1 = key).map Prod.snd

/-- Puts a value in the place of the former one, or else a new entry at the end. -/
def insert (key : String) (value : Value) : List Entry → List Entry
  | [] => [(key, value)]
  | e :: rest => if e.1 = key then (key, value) :: rest else e :: insert key value rest

/-- What is left keeps its order. -/
def erase (entries : List Entry) (key : String) : List Entry := entries.filter fun e => e.1 ≠ key

def insertAll (entries : List Entry) (added : List Entry) : List Entry :=
  added.foldl (fun entries e => insert e.1 e.2 entries) entries

variable {entries before after : List Entry} {key name : String} {value former : Value}

@[simp]
theorem get?_nil : get? [] key = none := rfl

theorem get?_cons (e : Entry) :
    get? (e :: entries) key = if e.1 = key then some e.2 else get? entries key := by
  by_cases h : e.1 = key <;> simp [get?, h]

theorem get?_append :
    get? (before ++ after) key = (get? before key).or (get? after key) := by
  simp only [get?, List.find?_append, Option.map_or]

/-- A name is bound exactly if it is one of the keys. -/
theorem get?_eq_none_iff : get? entries key = none ↔ key ∉ keys entries := by
  simp only [get?, keys, Option.map_eq_none_iff, List.find?_eq_none, List.mem_map, decide_eq_true_eq,
    not_exists, not_and]

/-! ### Around the place of a name -/

theorem get?_at (hb : key ∉ keys before) :
    get? (before ++ (key, value) :: after) key = some value := by
  rw [get?_append, get?_eq_none_iff.mpr hb, get?_cons, if_pos rfl]
  rfl

theorem insert_at (hb : key ∉ keys before) :
    insert key value (before ++ (key, former) :: after) = before ++ (key, value) :: after := by
  induction before with
  | nil => simp [insert]
  | cons e before ih =>
    obtain ⟨hne, hb⟩ : key ≠ e.1 ∧ key ∉ keys before := by simpa [keys] using hb
    rw [List.cons_append, insert, if_neg hne.symm, ih hb, List.cons_append]

theorem insert_absent (h : key ∉ keys entries) :
    insert key value entries = entries ++ [(key, value)] := by
  induction entries with
  | nil => rfl
  | cons e entries ih =>
    obtain ⟨hne, h⟩ : key ≠ e.1 ∧ key ∉ keys entries := by simpa [keys] using h
    rw [insert, if_neg hne.symm, ih h, List.cons_append]

theorem erase_absent (h : key ∉ keys entries) : erase entries key = entries := by
  rw [erase, List.filter_eq_self]
  intro e he
  have hne : e.1 ≠ key := fun hk => h (hk ▸ List.mem_map_of_mem he)
  exact decide_eq_true hne

theorem erase_at (hb : key ∉ keys before) (ha : key ∉ keys after) :
    erase (before ++ (key, value) :: after) key = before ++ after := by
  have hself : erase ((key, value) :: after) key = erase after key := by simp [erase]
  calc erase (before ++ (key, value) :: after) key
      = erase before key ++ erase ((key, value) :: after) key := List.filter_append ..
    _ = before ++ after := by rw [hself, erase_absent hb, erase_absent ha]

/-- Splits the row at a name that stands in it once. -/
theorem split_at_key (hd : (keys entries).Nodup) {place : Nat}
    (hp : entries[place]? = some (key, value)) :
    ∃ before after, entries = before ++ (key, value) :: after ∧ before.length = place ∧
      key ∉ keys before ∧ key ∉ keys after := by
  obtain ⟨hlt, hget⟩ := List.getElem?_eq_some_iff.mp hp
  have hsplit : entries = entries.take place ++ (key, value) :: entries.drop (place + 1) := by
    rw [← hget, ← List.drop_eq_getElem_cons hlt, List.take_append_drop]
  refine ⟨_, _, hsplit, List.length_take_of_le (Nat.le_of_lt hlt), ?_⟩
  rw [hsplit, keys, List.map_append, List.map_cons, List.nodup_append, List.nodup_cons] at hd
  exact ⟨fun hm => hd.2.2 key hm key List.mem_cons_self rfl, hd.2.1.1⟩

/-! ### Other names -/

theorem get?_insert : get? (insert key value entries) name =
    if key = name then some value else get? entries name := by
  induction entries with
  | nil => simp only [insert, get?_cons, get?_nil]
  | cons e entries ih =>
    by_cases he : e.1 = key
    · rw [insert, if_pos he, get?_cons, get?_cons, he]
      split <;> rfl
    · rw [insert, if_neg he, get?_cons, get?_cons, ih]
      split
      · rename_i hn
        rw [if_neg fun hk => he (hn.trans hk.symm)]
      · rfl

theorem get?_erase : get? (erase entries key) name =
    if key = name then none else get? entries name := by
  induction entries with
  | nil => simp [erase]
  | cons e entries ih =>
    by_cases he : e.1 = key
    · have hdrop : erase (e :: entries) key = erase entries key := by simp [erase, he]
      rw [hdrop, ih, get?_cons, he]
      split <;> rfl
    · have hkeep : erase (e :: entries) key = e :: erase entries key := by simp [erase, he]
      rw [hkeep, get?_cons, get?_cons, ih]
      split
      · rename_i hn
        rw [if_neg fun hk => he (hn.trans hk.symm)]
      · rfl

/-! ### Looking at some of the names only -/

variable {p : String → Bool}

/-- The entries whose names pass a test. -/
def only (p : String → Bool) (entries : List Entry) : List Entry := entries.filter fun e => p e.1

theorem only_append : only p (before ++ after) = only p before ++ only p after := List.filter_append ..

theorem only_eq_nil (h : ∀ e ∈ entries, p e.1 = false) : only p entries = [] := by
  rw [only, List.filter_eq_nil_iff]
  intro e hm
  simp [h e hm]

theorem get?_only : get? (only p entries) key = if p key then get? entries key else none := by
  induction entries with
  | nil => simp [only]
  | cons e entries ih =>
    by_cases he : p e.1
    · have hkeep : only p (e :: entries) = e :: only p entries := by simp [only, he]
      rw [hkeep, get?_cons, get?_cons, ih]
      by_cases hk : e.1 = key
      · rw [if_pos hk, if_pos hk, if_pos (hk ▸ he)]
      · rw [if_neg hk, if_neg hk]
    · have hdrop : only p (e :: entries) = only p entries := by simp [only, he]
      rw [hdrop, ih, get?_cons]
      by_cases hk : e.1 = key
      · rw [if_neg (hk ▸ he), if_neg (hk ▸ he)]
      · rw [if_neg hk]

theorem only_insert_of_pos (hk : p key) :
    only p (insert key value entries) = insert key value (only p entries) := by
  induction entries with
  | nil => simp [only, insert, hk]
  | cons e entries ih =>
    by_cases he : e.1 = key
    · simp [only, insert, he, hk]
    · by_cases hp : p e.1 <;> simp_all [only, insert]

theorem only_insert_of_neg (hk : ¬ p key) :
    only p (insert key value entries) = only p entries := by
  induction entries with
  | nil => simp [only, insert, hk]
  | cons e entries ih =>
    by_cases he : e.1 = key
    · simp [only, insert, he, hk]
    · by_cases hp : p e.1 <;> simp_all [only, insert]

/-- What is erased anyway may be bound first. -/
theorem erase_insert_self : erase (insert key value entries) key = erase entries key :=
  only_insert_of_neg (p := fun name => name ≠ key) (by simp)

theorem erase_insert_of_ne (hk : key ≠ name) :
    erase (insert key value entries) name = insert key value (erase entries name) :=
  only_insert_of_pos (p := fun other => other ≠ name) (by simp [hk])

theorem only_erase : only p (erase entries key) = erase (only p entries) key := by
  simp only [only, erase, List.filter_filter, Bool.and_comm]

theorem only_erase_of_neg (hk : ¬ p key) : only p (erase entries key) = only p entries := by
  rw [only_erase, erase_absent]
  intro hm
  obtain ⟨e, he, rfl⟩ := List.mem_map.mp hm
  exact hk (List.mem_filter.mp he).2

end ConfigSandbox.OrderedMap
