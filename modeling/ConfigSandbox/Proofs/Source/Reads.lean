import ConfigSandbox.Source.Cursor

/-!
# What lies between two positions

Reading moves a cursor over some characters. Offset, line and remaining text of the later position are
told by these characters, and so is the text between the two.
-/
namespace ConfigSandbox

/-- The bytes that some characters take. -/
def utf8Length : List Char → Nat
  | [] => 0
  | c :: cs => c.utf8Size + utf8Length cs

theorem takeBytes_utf8Length (cs rest : List Char) : takeBytes (utf8Length cs) (cs ++ rest) = cs := by
  induction cs with
  | nil =>
    cases rest with
    | nil => rfl
    | cons c rest => exact if_neg (Nat.not_le.mpr c.utf8Size_pos)
  | cons c cs ih =>
    rw [utf8Length, List.cons_append, takeBytes, if_pos (Nat.le_add_right _ _),
      Nat.add_sub_cancel_left, ih]

namespace Cursor

/-- Reading exactly `cs` leads from one position to the other. -/
inductive Reads : Cursor → List Char → Cursor → Prop
  | nothing (cur : Cursor) : Reads cur [] cur
  | char {cur last : Cursor} {c : Char} {rest cs : List Char} (hc : cur.rest = c :: rest)
      (h : Reads (cur.past c rest) cs last) : Reads cur (c :: cs) last

variable {first mid last : Cursor} {cs more : List Char}

theorem Reads.append (h : Reads first cs mid) (h' : Reads mid more last) :
    Reads first (cs ++ more) last := by
  induction h with
  | nothing cur => exact h'
  | char hc _ ih => exact .char hc (ih h')

theorem Reads.rest_eq (h : Reads first cs last) : first.rest = cs ++ last.rest := by
  induction h with
  | nothing cur => rfl
  | char hc _ ih => rw [hc, List.cons_append, ← ih, rest_past]

theorem Reads.offset_eq (h : Reads first cs last) : last.offset = first.offset + utf8Length cs := by
  induction h with
  | nothing cur => rfl
  | @char cur last c rest cs hc _ ih =>
    rw [ih, offset_past, utf8Length, Nat.add_assoc]

theorem Reads.textTo_eq (h : Reads first cs last) : first.textTo last = cs := by
  rw [textTo, h.offset_eq, Nat.add_sub_cancel_left, h.rest_eq, takeBytes_utf8Length]

theorem Reads.eq_of_nil (h : first.Reads [] last) : first = last := by
  cases h
  rfl

theorem Reads.cancel (h : first.Reads (cs ++ more) last) (h' : first.Reads cs mid) : mid.Reads more last := by
  induction h' with
  | nothing => exact h
  | char hc _ ih =>
    cases h with
    | char hc' h =>
      cases hc.symm.trans hc'
      exact ih h

theorem Reads.unique (h : first.Reads cs mid) (h' : first.Reads cs last) : mid = last := by
  rw [← List.append_nil cs] at h'
  exact (h'.cancel h).eq_of_nil

theorem Reads.split (h : first.Reads (cs ++ more) last) : ∃ mid, first.Reads cs mid ∧ mid.Reads more last := by
  induction cs generalizing first with
  | nil => exact ⟨first, .nothing first, h⟩
  | cons c cs ih =>
    cases h with
    | char hc h =>
      obtain ⟨mid, hmid, hmore⟩ := ih h
      exact ⟨mid, .char hc hmid, hmore⟩

theorem reads_of_one? {accepts : Char → Bool} (h : first.one? accepts = some last) :
    ∃ c, accepts c = true ∧ first.rest = c :: last.rest ∧ last = first.past c last.rest := by
  obtain ⟨c, hc, hr⟩ := rest_of_one? h
  rw [one?, hr] at h
  simp only [hc, if_true, Option.some.injEq] at h
  exact ⟨c, hc, hr, h.symm⟩

theorem Reads.one {c : Char} (h : Reads first [c] last) :
    ∃ rest, first.rest = c :: rest ∧ last = first.past c rest := by
  cases h with
  | char hc h =>
    cases h
    exact ⟨_, hc, rfl⟩

theorem Reads.three {a b c : Char} (h : Reads first [a, b, c] last) : ∃ more,
    first.rest = a :: b :: c :: more ∧
      last = ((first.past a (b :: c :: more)).past b (c :: more)).past c more := by
  cases h with
  | char ha h =>
    cases h with
    | char hb h =>
      cases h with
      | char hc h =>
        cases h
        cases hb
        cases hc
        exact ⟨_, ha, rfl⟩

theorem reads_of_text (h : first.text? (· == ·) cs = some last) : Reads first cs last := by
  induction cs generalizing first with
  | nil =>
    cases h
    exact .nothing _
  | cons c cs ih =>
    rw [text?] at h
    split at h
    · rename_i next hnext
      obtain ⟨r, hr, hrest, hpast⟩ := reads_of_one? hnext
      obtain rfl : c = r := by simpa using hr
      exact .char hrest (hpast ▸ ih h)
    · cases h

theorem not_prefix_of_text? (h : first.text? (· == ·) cs = none) : ¬ cs <+: first.rest := by
  induction cs generalizing first with
  | nil => cases h
  | cons c cs ih =>
    rintro ⟨more, hmore⟩
    have hone : first.one? (c == ·) = some (first.past c (cs ++ more)) := by
      rw [one?, ← hmore]
      simp
    rw [text?, hone] at h
    exact ih h ⟨more, rfl⟩

/-- Whatever holds of all that an expected character may stand for holds of what was read. -/
theorem reads_of_text? {same : Char → Char → Bool} {P : Char → Prop}
    (hP : ∀ c ∈ cs, ∀ r, same c r = true → P r) (h : first.text? same cs = some last) :
    ∃ read, Reads first read last ∧ ∀ r ∈ read, P r := by
  induction cs generalizing first with
  | nil =>
    cases h
    exact ⟨[], .nothing _, fun _ hr => absurd hr List.not_mem_nil⟩
  | cons c cs ih =>
    rw [text?] at h
    split at h
    · rename_i next hnext
      obtain ⟨r, hr, hrest, hpast⟩ := reads_of_one? hnext
      obtain ⟨read, hread, hall⟩ := ih (fun c' hc' => hP c' (List.mem_cons_of_mem _ hc')) h
      refine ⟨r :: read, .char hrest (hpast ▸ hread), List.forall_mem_cons.mpr ⟨?_, hall⟩⟩
      exact hP c List.mem_cons_self r hr
    · cases h

end Cursor
end ConfigSandbox
