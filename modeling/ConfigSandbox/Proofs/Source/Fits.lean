import ConfigSandbox.Proofs.Source.Reads

/-!
# Places that lie in a text

Every position that reading comes to stands between two characters of the text, and its line number is
told by the line feeds before it. A place between two such positions fits the text. Which construct
stands at a place is not looked at here.
-/
namespace ConfigSandbox

theorem utf8ByteSize_ofList (cs : List Char) : (String.ofList cs).utf8ByteSize = utf8Length cs := by
  induction cs with
  | nil => rfl
  | cons c cs ih =>
    have hcons : String.ofList (c :: cs) = String.singleton c ++ String.ofList cs := by
      rw [← String.toList_inj]
      simp
    rw [hcons, String.utf8ByteSize_append, String.utf8ByteSize_singleton, ih, utf8Length]

theorem utf8ByteSize_eq (source : String) : source.utf8ByteSize = utf8Length source.toList := by
  rw [← utf8ByteSize_ofList, String.ofList_toList]

theorem dropBytes_utf8Length (cs rest : List Char) : dropBytes (utf8Length cs) (cs ++ rest) = rest := by
  induction cs with
  | nil =>
    cases rest with
    | nil => rfl
    | cons c rest => exact if_neg (Nat.not_le.mpr c.utf8Size_pos)
  | cons c cs ih =>
    rw [utf8Length, List.cons_append, dropBytes, if_pos (Nat.le_add_right _ _),
      Nat.add_sub_cancel_left, ih]

/-- A place whose ends stand between characters of the text, in this order, and whose line is the one it
starts on. -/
structure Location.Fits (source : String) (loc : Location) : Prop where
  start_le_stop : loc.span.start ≤ loc.span.stop
  stop_le_size : loc.span.stop ≤ source.utf8ByteSize
  start_isValid : String.Pos.Raw.IsValid source ⟨loc.span.start⟩
  stop_isValid : String.Pos.Raw.IsValid source ⟨loc.span.stop⟩
  line_eq : loc.line = (takeBytes loc.span.start source.toList).count '\n' + 1

variable {source : String} {first mid last cur next : Cursor} {cs : List Char}

theorem isValid_of_split {before rest : List Char} (h : source.toList = before ++ rest) :
    String.Pos.Raw.IsValid source ⟨utf8Length before⟩ := by
  refine String.Pos.Raw.isValid_iff_exists_append.mpr ⟨.ofList before, .ofList rest, ?_, ?_⟩
  · rw [← String.ofList_append, ← h, String.ofList_toList]
  · rw [String.rawEndPos, utf8ByteSize_ofList]

namespace Cursor

theorem Reads.line_eq (h : cur.Reads cs next) : next.line = cur.line + cs.count '\n' := by
  induction h with
  | nothing cur => rfl
  | @char cur last c rest cs hc _ ih =>
    rw [ih, List.count_cons]
    by_cases hn : c = '\n'
    · simp only [past, hn, if_true, beq_self_eq_true]
      omega
    · simp [past, hn]

theorem Reads.offset_le (h : first.Reads cs last) : first.offset ≤ last.offset := by
  rw [h.offset_eq]
  exact Nat.le_add_right _ _

/-- Reading from the start of a text comes to the position. -/
def In (source : String) (cur : Cursor) : Prop := ∃ cs, (start source.toList).Reads cs cur

theorem start_in (source : String) : (start source.toList).In source := ⟨[], .nothing _⟩

theorem In.reads (h : cur.In source) (hr : cur.Reads cs next) : next.In source := by
  obtain ⟨before, hb⟩ := h
  exact ⟨before ++ cs, hb.append hr⟩

/-- Offset and line count the characters before a position. -/
theorem In.split (h : cur.In source) : ∃ before, source.toList = before ++ cur.rest ∧
    cur.offset = utf8Length before ∧ cur.line = before.count '\n' + 1 := by
  obtain ⟨before, hb⟩ := h
  refine ⟨before, hb.rest_eq, ?_, ?_⟩
  · rw [hb.offset_eq]
    exact Nat.zero_add _
  · rw [hb.line_eq]
    exact Nat.add_comm _ _

theorem In.offset_isValid (h : cur.In source) : String.Pos.Raw.IsValid source ⟨cur.offset⟩ := by
  obtain ⟨before, hsplit, hoffset, -⟩ := h.split
  rw [hoffset]
  exact isValid_of_split hsplit

theorem In.offset_le (h : cur.In source) : cur.offset ≤ source.utf8ByteSize :=
  h.offset_isValid.le_utf8ByteSize

theorem In.line_eq (h : cur.In source) :
    cur.line = (takeBytes cur.offset source.toList).count '\n' + 1 := by
  obtain ⟨before, hsplit, hoffset, hline⟩ := h.split
  rw [hline, hoffset, hsplit, takeBytes_utf8Length]

theorem location_fits (hf : first.In source) (h : first.Reads cs last) :
    (first.location last).Fits source :=
  ⟨h.offset_le, (hf.reads h).offset_le, hf.offset_isValid, (hf.reads h).offset_isValid, hf.line_eq⟩

/-- What a span covers is the text between the two positions. -/
theorem text_location (hf : first.In source) :
    (first.location last).span.text source = String.ofList (first.textTo last) := by
  obtain ⟨before, hsplit, hoffset, -⟩ := hf.split
  change String.ofList (takeBytes (last.offset - first.offset)
    (dropBytes first.offset source.toList)) = _
  rw [hsplit, hoffset, dropBytes_utf8Length, ← hoffset]
  rfl

end Cursor

namespace Location

/-- From the start of one place to the end of another that does not end before it. -/
theorem through_fits {a b : Location} (ha : a.Fits source) (hb : b.Fits source)
    (h : a.span.start ≤ b.span.stop) : (a.through b).Fits source :=
  ⟨h, hb.stop_le_size, ha.start_isValid, hb.stop_isValid, ha.line_eq⟩

/-- The whole text, from its first line. -/
theorem whole_fits (source : String) : Fits source ⟨1, ⟨0, source.utf8ByteSize⟩⟩ := by
  have hstart : (Cursor.start source.toList).In source := Cursor.start_in source
  refine ⟨Nat.zero_le _, Nat.le_refl _, hstart.offset_isValid, ?_, hstart.line_eq⟩
  rw [utf8ByteSize_eq]
  exact isValid_of_split (List.append_nil _).symm

theorem Fits.line_pos {loc : Location} (h : loc.Fits source) : 1 ≤ loc.line := by
  rw [h.line_eq]
  exact Nat.le_add_left _ _

end Location
end ConfigSandbox
