import ConfigSandbox.Source.Location

/-!
A reading position that carries the text still to be read. Offset and line number are kept with it,
so no later pass has to count again.
-/
namespace ConfigSandbox

structure Cursor where
  /-- Bytes read so far. -/
  offset : Nat
  /-- One more than the number of line feeds read so far. -/
  line : Nat
  rest : List Char
deriving DecidableEq, Repr, Inhabited

namespace Cursor

/-- Before the first character of a text. -/
def start (source : List Char) : Cursor := ⟨0, 1, source⟩

/-- The position after `c`, when `rest` is what follows it. -/
def past (cur : Cursor) (c : Char) (rest : List Char) : Cursor :=
  ⟨cur.offset + c.utf8Size, if c = '\n' then cur.line + 1 else cur.line, rest⟩

/-- Reads one character for which `accepts` holds. -/
def one? (cur : Cursor) (accepts : Char → Bool) : Option Cursor :=
  match cur.rest with
  | [] => none
  | c :: rest => if accepts c then some (cur.past c rest) else none

/-- Reads exactly the given characters, comparing each with the next one by `same`. -/
def text? (same : Char → Char → Bool) : List Char → Cursor → Option Cursor
  | [], cur => some cur
  | expected :: more, cur =>
    match cur.one? (same expected) with
    | some next => text? same more next
    | none => none

/-- The place between two positions of one text. -/
def location (first last : Cursor) : Location :=
  ⟨first.line, ⟨first.offset, last.offset⟩⟩

/-- The characters between two positions of one text. -/
def textTo (first last : Cursor) : List Char :=
  takeBytes (last.offset - first.offset) first.rest

@[simp] theorem offset_past (cur : Cursor) (c : Char) (rest : List Char) :
    (cur.past c rest).offset = cur.offset + c.utf8Size := rfl

@[simp] theorem rest_past (cur : Cursor) (c : Char) (rest : List Char) :
    (cur.past c rest).rest = rest := rfl

theorem rest_of_one? {cur next : Cursor} {accepts : Char → Bool}
    (h : cur.one? accepts = some next) :
    ∃ c, accepts c = true ∧ cur.rest = c :: next.rest := by
  cases hr : cur.rest with
  | nil => simp [one?, hr] at h
  | cons c rest =>
    simp only [one?, hr, Option.ite_none_right_eq_some, Option.some.injEq] at h
    exact ⟨c, h.1, by rw [← h.2, rest_past]⟩

end Cursor
end ConfigSandbox
