import ConfigSandbox.Text.Digits

/-!
Text between quotes. `quote` writes a text so that it can be read back, `unescape` resolves the
backslash escapes of what stands between the quotes. More can be read than is written: octal
escapes, eight-digit ones and line continuations; an escape that is not known stands for itself.
-/
namespace ConfigSandbox

inductive EscapeFault where
  | trailingBackslash
  /-- Not enough hexadecimal digits; what stands in their place is kept. -/
  | truncated (digits : List Char)
  /-- The digits name no character. -/
  | notACharacter (digits : List Char)
deriving DecidableEq, Repr

namespace EscapeFault

def message : EscapeFault → String
  | trailingBackslash => "trailing backslash"
  | truncated digits => "truncated \\x\x7b" ++ String.ofList digits ++ "\x7d escape"
  | notACharacter digits => "invalid escape \\" ++ String.ofList digits

end EscapeFault

/-- The escape of exactly `width` hexadecimal digits, with what follows them. -/
def hexEscape (width : Nat) (cs : List Char) : Except EscapeFault (List Char × List Char) :=
  let digits := cs.take width
  if digits.length = width ∧ digits.all isHexDigit then
    let code := digitsValue 16 digits
    if code.isValidChar then .ok ([Char.ofNat code], cs.drop width)
    else .error (.notACharacter digits)
  else .error (.truncated digits)

/-- What a letter or sign after a backslash stands for; a line end stands for nothing. -/
def plainEscape? : Char → Option (List Char)
  | '\n' | '\r' => some []
  | '\\' => some ['\\']
  | '\'' => some ['\'']
  | '"' => some ['"']
  | 'a' => some ['\x07']
  | 'b' => some ['\x08']
  | 'f' => some ['\x0c']
  | 'n' => some ['\n']
  | 'r' => some ['\r']
  | 't' => some ['\t']
  | 'v' => some ['\x0b']
  | _ => none

/-- How many hexadecimal digits follow the letter of a numeric escape. -/
def hexWidth? : Char → Option Nat
  | 'x' => some 2
  | 'u' => some 4
  | 'U' => some 8
  | _ => none

/-- The escape of up to three octal digits, the first of which is given. -/
def octalEscape (first : Char) (cs : List Char) : List Char × List Char :=
  let more := (cs.take 2).takeWhile isOctalDigit
  ([Char.ofNat (digitsValue 8 (first :: more))], cs.drop more.length)

/-- What the characters after a backslash stand for, with what follows the escape. -/
def readEscape : List Char → Except EscapeFault (List Char × List Char)
  | [] => .error .trailingBackslash
  | '\r' :: '\n' :: rest => .ok ([], rest)
  | c :: rest =>
    match plainEscape? c, hexWidth? c with
    | some out, _ => .ok (out, rest)
    | none, some width => hexEscape width rest
    | none, none => .ok (if isOctalDigit c then octalEscape c rest else (['\\', c], rest))

theorem hexEscape_length {width : Nat} {cs out more : List Char}
    (h : hexEscape width cs = .ok (out, more)) : more.length ≤ cs.length := by
  simp only [hexEscape] at h
  split at h
  · split at h
    · simp only [Except.ok.injEq, Prod.mk.injEq] at h
      rw [← h.2, List.length_drop]
      exact Nat.sub_le _ _
    · exact nomatch h
  · exact nomatch h

theorem octalEscape_length (first : Char) (cs : List Char) :
    (octalEscape first cs).2.length ≤ cs.length := by
  simp only [octalEscape, List.length_drop]
  exact Nat.sub_le _ _

theorem readEscape_length {cs out more : List Char}
    (h : readEscape cs = .ok (out, more)) : more.length ≤ cs.length := by
  fun_cases readEscape cs with
  | case1 => exact nomatch h
  | case2 rest =>
    obtain ⟨-, rfl⟩ : [] = out ∧ rest = more := by simpa [readEscape] using h
    simp only [List.length_cons]
    omega
  | case3 c rest hline plain hplain =>
    have hrest : rest = more := by simp_all [readEscape]
    rw [hrest]
    exact Nat.le_succ _
  | case4 c rest hline width hplain hwidth =>
    have hhex : hexEscape width rest = .ok (out, more) := by simp_all [readEscape]
    exact Nat.le_succ_of_le (hexEscape_length hhex)
  | case5 c rest hline hplain hwidth =>
    have hrest :
        (if isOctalDigit c then octalEscape c rest else (['\\', c], rest)) = (out, more) := by
      simp_all [readEscape]
    split at hrest
    · exact Nat.le_succ_of_le (by simpa [hrest] using octalEscape_length c rest)
    · obtain ⟨-, rfl⟩ := Prod.mk.inj hrest
      exact Nat.le_succ _

/-- The text that the characters between two quotes stand for. -/
def unescape : List Char → Except EscapeFault (List Char)
  | [] => .ok []
  | c :: rest =>
    if c = '\\' then
      match h : readEscape rest with
      | .error fault => .error fault
      | .ok (out, more) =>
        have := readEscape_length h
        match unescape more with
        | .error fault => .error fault
        | .ok text => .ok (out ++ text)
    else
      match unescape rest with
      | .error fault => .error fault
      | .ok text => .ok (c :: text)
termination_by cs => cs.length

/-- The single quote, unless it occurs in the text and the double quote does not. -/
def quoteFor (text : List Char) : Char :=
  if text.contains '\'' && !text.contains '"' then '"' else '\''

/-- Control characters are those below the space and from `7f` to `9f`. -/
def escapeChar (quote c : Char) : List Char :=
  if c = quote || c = '\\' then ['\\', c]
  else if c = '\n' then ['\\', 'n']
  else if c = '\r' then ['\\', 'r']
  else if c = '\t' then ['\\', 't']
  else if c.toNat < 0x20 || c.toNat = 0x7f then '\\' :: 'x' :: paddedDigits 16 2 c.toNat
  else if 0x80 ≤ c.toNat && c.toNat < 0xa0 then '\\' :: 'u' :: paddedDigits 16 4 c.toNat
  else [c]

/-- A text between quotes, written so that it can be read back. -/
def quote (text : String) : String :=
  let cs := text.toList
  let q := quoteFor cs
  String.ofList (q :: cs.flatMap (escapeChar q) ++ [q])

end ConfigSandbox
