/-!
Reading UTF-8. A text is refused at the first byte that no character can continue with; the fault
says where the broken character begins and how many of its bytes are wrong.
-/
namespace ConfigSandbox.Utf8

structure Fault where
  /-- The byte offset at which the broken character begins. -/
  index : Nat
  /-- The number of wrong bytes, unless the text ends inside the character. -/
  length : Option Nat
deriving DecidableEq, Repr

def Fault.message (f : Fault) : String :=
  match f.length with
  | some n =>
    "invalid utf-8 sequence of " ++ toString n ++ " bytes from index " ++ toString f.index
  | none => "incomplete utf-8 byte sequence from index " ++ toString f.index

/-- The number of bytes of a character that begins with this byte; none begins so if it is zero. -/
def width (b : UInt8) : Nat :=
  if b < 0x80 then 1
  else if 0xC2 ≤ b && b < 0xE0 then 2
  else if 0xE0 ≤ b && b < 0xF0 then 3
  else if 0xF0 ≤ b && b < 0xF5 then 4
  else 0

def isContinuation (b : UInt8) : Bool := 0x80 ≤ b && b < 0xC0

/-- Whether a character may begin with these two bytes. Overlong forms, surrogates and numbers
beyond the last code point are told by the second byte. -/
def maySecond (first second : UInt8) : Bool :=
  isContinuation second &&
    (first != 0xE0 || 0xA0 ≤ second) && (first != 0xED || second < 0xA0) &&
    (first != 0xF0 || 0x90 ≤ second) && (first != 0xF4 || second < 0x90)

private def low (b : UInt8) : Nat := b.toNat % 64

private def wrong (index n : Nat) : Except Fault (List Char) := .error ⟨index, some n⟩

private def cut (index : Nat) : Except Fault (List Char) := .error ⟨index, none⟩

/-- Reads the bytes that begin at the given offset of a text. -/
def decodeFrom (index : Nat) : List UInt8 → Except Fault (List Char)
  | [] => .ok []
  | a :: rest =>
    match width a, rest with
    | 1, rest => return Char.ofNat a.toNat :: (← decodeFrom (index + 1) rest)
    | 2, b :: rest =>
      if maySecond a b then
        return Char.ofNat (a.toNat % 32 * 64 + low b) :: (← decodeFrom (index + 2) rest)
      else wrong index 1
    | 3, b :: rest =>
      if !maySecond a b then wrong index 1
      else
        match rest with
        | [] => cut index
        | c :: rest =>
          if isContinuation c then
            return Char.ofNat ((a.toNat % 16 * 64 + low b) * 64 + low c) ::
              (← decodeFrom (index + 3) rest)
          else wrong index 2
    | 4, b :: rest =>
      if !maySecond a b then wrong index 1
      else
        match rest with
        | [] => cut index
        | c :: rest =>
          if !isContinuation c then wrong index 2
          else
            match rest with
            | [] => cut index
            | d :: rest =>
              if isContinuation d then
                return Char.ofNat (((a.toNat % 8 * 64 + low b) * 64 + low c) * 64 + low d) ::
                  (← decodeFrom (index + 4) rest)
              else wrong index 3
    | 0, _ => wrong index 1
    | _, _ => cut index

/-- The text of some bytes. -/
def decode (bytes : List UInt8) : Except Fault String :=
  return String.ofList (← decodeFrom 0 bytes)

end ConfigSandbox.Utf8
