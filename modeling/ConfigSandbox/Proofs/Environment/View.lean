import ConfigSandbox.Environment.View
import ConfigSandbox.Plugin.Script
import ConfigSandbox.Proofs.Environment.Store

/-!
# The view is a map of the visible entries

What the view answers, and what it makes of the visible entries, is told by these entries alone. The
hidden ones stay as they are, in their order; where they stand among the others is not claimed here.
-/
namespace ConfigSandbox

/-- The entries that the view passes over. -/
def Environment.hidden (env : Environment) : List Entry := OrderedMap.only isHidden env.toList

namespace Environment

variable {env : Environment} {key : String} {value : Value}

theorem visible_eq : env.visible = OrderedMap.only (fun key => !isHidden key) env.toList := rfl

theorem hidden_eq : env.hidden = OrderedMap.only isHidden env.toList := rfl

theorem get?_visible (hk : isHidden key = false) :
    OrderedMap.get? env.visible key = OrderedMap.get? env.toList key := by
  rw [visible_eq, OrderedMap.get?_only, if_pos (by simp [hk])]

theorem get?_hidden (hk : isHidden key) :
    OrderedMap.get? env.hidden key = OrderedMap.get? env.toList key := by
  rw [hidden_eq, OrderedMap.get?_only, if_pos hk]

theorem visible_insert (hk : isHidden key = false) :
    (env.insert key value).2.visible = OrderedMap.insert key value env.visible := by
  rw [visible_eq, toList_insert, OrderedMap.only_insert_of_pos (by simp [hk]), visible_eq]

theorem hidden_insert (hk : isHidden key = false) :
    (env.insert key value).2.hidden = env.hidden := by
  rw [hidden_eq, toList_insert, OrderedMap.only_insert_of_neg (by simp [hk]), hidden_eq]

theorem visible_remove : (env.remove key).2.visible = OrderedMap.erase env.visible key := by
  rw [visible_eq, toList_remove, OrderedMap.only_erase, visible_eq]

theorem hidden_remove (hk : isHidden key = false) : (env.remove key).2.hidden = env.hidden := by
  rw [hidden_eq, toList_remove, OrderedMap.only_erase_of_neg (by simp [hk]), hidden_eq]

theorem visible_insertAll (env : Environment) (added : List Entry)
    (ha : ∀ e ∈ added, isHidden e.1 = false) :
    (env.insertAll added).visible = OrderedMap.insertAll env.visible added ∧
      (env.insertAll added).hidden = env.hidden := by
  induction added generalizing env with
  | nil => exact ⟨rfl, rfl⟩
  | cons e added ih =>
    have he := ha e List.mem_cons_self
    obtain ⟨hv, hh⟩ := ih (env.insert e.1 e.2).2 fun e' hm => ha e' (List.mem_cons_of_mem _ hm)
    exact ⟨hv.trans (by rw [visible_insert he]; rfl), hh.trans (hidden_insert he)⟩

theorem toList_removeAll (names : List String) :
    (names.foldl (fun env key => (env.remove key).2) env).toList =
      env.toList.filter fun e => e.1 ∉ names := by
  induction names generalizing env with
  | nil => exact (List.filter_eq_self.mpr fun _ _ => rfl).symm
  | cons name names ih =>
    rw [List.foldl_cons, ih, toList_remove, OrderedMap.erase, List.filter_filter]
    apply List.filter_congr
    intro e _
    simp [Bool.and_comm]

/-! ### Taking the last visible entry -/

/-- What is taken off the end is hidden, but for the entry that was looked for. -/
theorem unstack_eq (n : Nat) (env : Environment) (taken : List Entry) (hn : env.toList.length < n) :
    ∃ after, (∀ e ∈ after, isHidden e.1) ∧ (env.unstack n taken).2.1 = after ++ taken ∧
      env.toList = (env.unstack n taken).2.2.toList ++ (env.unstack n taken).1.toList ++ after ∧
      (∀ e, (env.unstack n taken).1 = some e → isHidden e.1 = false) ∧
      ((env.unstack n taken).1 = none → (env.unstack n taken).2.2.toList = []) := by
  -- by induction on the fuel; a hidden entry goes over to what is taken, so both have to vary
  induction n generalizing env taken with
  | zero => omega
  | succ n ih =>
    obtain ⟨hlast, hinit⟩ := popLast_eq env
    rcases hp : env.popLast with ⟨_ | e, rest⟩
    · rw [hp] at hlast hinit
      have hnil : env.toList = [] := List.getLast?_eq_none_iff.mp hlast.symm
      have hrest : rest.toList = [] := hinit.trans (by rw [hnil]; rfl)
      refine ⟨[], by simp, ?_⟩
      simp [unstack, hp, hnil, hrest]
    · rw [hp] at hlast hinit
      change some e = _ at hlast
      change rest.toList = _ at hinit
      have hsplit : env.toList = rest.toList ++ [e] := by
        obtain ⟨front, hfront⟩ := List.getLast?_eq_some_iff.mp hlast.symm
        rw [hinit, hfront, List.dropLast_concat]
      by_cases he : isHidden e.1
      · have hstep : env.unstack (n + 1) taken = rest.unstack n (e :: taken) := by
          simp [unstack, hp, he]
        have hlen : rest.toList.length < n := by
          rw [hsplit, List.length_append, List.length_singleton] at hn
          omega
        obtain ⟨after, hall, htaken, hrest, hsome, hnone⟩ := ih rest (e :: taken) hlen
        rw [hstep]
        refine ⟨after ++ [e], ?_, by simp [htaken], ?_, hsome, hnone⟩
        · intro e' hm
          rcases List.mem_append.mp hm with hm | hm
          · exact hall e' hm
          · rwa [List.mem_singleton.mp hm]
        · rw [hsplit, hrest]
          simp
      · have hstep : env.unstack (n + 1) taken = (some e, taken, rest) := by
          simp [unstack, hp, he]
        rw [hstep]
        refine ⟨[], by simp, rfl, by simp [hsplit], ?_, by simp⟩
        intro e' he'
        cases he'
        simpa using he

end Environment

namespace View

open Environment

/-- Taking the last visible entry deletes it and nothing else; without one nothing changes. -/
theorem popLast_eq (env : Environment) :
    (∃ before e after, env.toList = before ++ e :: after ∧ isHidden e.1 = false ∧
      (∀ e' ∈ after, isHidden e'.1) ∧ (popLast env).1 = .ok e ∧
      (popLast env).2.toList = before ++ after) ∨
    ((∀ e ∈ env.toList, isHidden e.1) ∧ (popLast env).1 = .error .empty ∧
      (popLast env).2.toList = env.toList) := by
  have hsize : env.toList.length < env.size + 1 := by simp [Environment.size, toList]
  obtain ⟨after, hall, htaken, hsplit, hsome, hnone⟩ := unstack_eq (env.size + 1) env [] hsize
  have hnodup := env.keys_nodup
  rw [List.append_nil] at htaken
  unfold popLast
  rcases hu : env.unstack (env.size + 1) [] with ⟨_ | e, taken, rest⟩
  · rw [hu] at htaken hsplit hnone
    subst htaken
    have hrest : rest.toList = [] := hnone rfl
    have htail : env.toList = taken := by rw [hsplit]; simp [hrest]
    rw [htail] at hnodup
    refine Or.inr ⟨htail ▸ hall, rfl, ?_⟩
    change (rest.insertAll taken).toList = _
    rw [toList_insertAll_fresh rest taken (by rw [hrest]; exact hnodup), hrest, htail]
    rfl
  · rw [hu] at htaken hsplit hsome
    subst htaken
    have hmid : env.toList = rest.toList ++ e :: taken := by rw [hsplit]; simp
    have hfresh : (OrderedMap.keys (rest.toList ++ taken)).Nodup := by
      rw [hmid] at hnodup
      exact hnodup.sublist (((List.sublist_cons_self e taken).append_left _).map _)
    exact Or.inl ⟨rest.toList, e, taken, hmid, hsome e rfl, hall, rfl,
      toList_insertAll_fresh rest taken hfresh⟩

theorem visible_clear (env : Environment) : (clear env).visible = [] := by
  rw [visible_eq, clear, toList_removeAll, OrderedMap.only, List.filter_filter,
    List.filter_eq_nil_iff]
  intro e he hk
  have hm : e ∈ env.visible := List.mem_filter.mpr ⟨he, (Bool.and_eq_true_iff.mp hk).1⟩
  have hkey : e.1 ∈ keys env := List.mem_map_of_mem hm
  simp [hkey] at hk

theorem hidden_clear (env : Environment) : (clear env).hidden = env.hidden := by
  rw [hidden_eq, clear, toList_removeAll, OrderedMap.only, List.filter_filter]
  apply List.filter_congr
  intro e _
  by_cases hk : isHidden e.1
  · have hm : e.1 ∉ keys env := by
      intro hm
      obtain ⟨e', he', heq⟩ := List.mem_map.mp hm
      have hv : isHidden e.1 = false := by
        rw [← heq]
        simpa using (List.mem_filter.mp he').2
      rw [hk] at hv
      cases hv
    simp [hk, hm]
  · simp [hk]

end View
end ConfigSandbox
