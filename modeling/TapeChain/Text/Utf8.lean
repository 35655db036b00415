/-! Text as bytes. Bytes that are not UTF-8 are described by the first ill-formed range in them: a
leading byte with the continuation bytes that fit it. -/
namespace TapeChain

abbrev Bytes := Array UInt8

namespace Text

inductive Utf8Reason where
  | start
  | continuation
  | ending
  deriving DecidableEq

def Utf8Reason.text : Utf8Reason → String
  | .start => "invalid start byte"
  | .continuation => "invalid continuation byte"
  | .ending => "unexpected end of data"

/-- An ill-formed range: its first byte, where it starts and how many bytes it has. -/
structure Utf8Fault where
  lead : UInt8
  position : Nat
  length : Nat
  reason : Utf8Reason
  deriving DecidableEq

/-- A byte in two hexadecimal digits. -/
def hexByte (b : UInt8) : String :=
  String.ofList [Nat.digitChar (b.toNat / 16), Nat.digitChar (b.toNat % 16)]

def Utf8Fault.message (f : Utf8Fault) : String :=
  if f.length = 1 then
    s!"'utf-8' codec can't decode byte 0x{hexByte f.lead} in position {f.position}: {f.reason.text}"
  else
    s!"'utf-8' codec can't decode bytes in position {f.position}-{f.position + f.length - 1}: " ++
      f.reason.text

/-- The ranges of the continuation bytes that may follow a leading byte. -/
def continuations (lead : UInt8) : Option (List (UInt8 × UInt8)) :=
  if lead < 0x80 then some []
  else if lead < 0xc2 then none
  else if lead < 0xe0 then some [(0x80, 0xbf)]
  else if lead = 0xe0 then some [(0xa0, 0xbf), (0x80, 0xbf)]
  else if lead = 0xed then some [(0x80, 0x9f), (0x80, 0xbf)]
  else if lead < 0xf0 then some [(0x80, 0xbf), (0x80, 0xbf)]
  else if lead = 0xf0 then some [(0x90, 0xbf), (0x80, 0xbf), (0x80, 0xbf)]
  else if lead < 0xf4 then some [(0x80, 0xbf), (0x80, 0xbf), (0x80, 0xbf)]
  else if lead = 0xf4 then some [(0x80, 0x8f), (0x80, 0xbf), (0x80, 0xbf)]
  else none

/-- Finds the first ill-formed range. `lead` started at `start`, `taken` bytes of its sequence are
read and `wanted` are still to come. -/
def faultFrom? (lead : UInt8) (start taken : Nat) (wanted : List (UInt8 × UInt8)) :
    List UInt8 → Option Utf8Fault
  | [] => if wanted.isEmpty then none else some ⟨lead, start, taken, .ending⟩
  | b :: bs =>
    match wanted with
    | (low, high) :: wanted =>
      if low ≤ b && b ≤ high then faultFrom? lead start (taken + 1) wanted bs
      else some ⟨lead, start, taken, .continuation⟩
    | [] =>
      match continuations b with
      | some wanted => faultFrom? b (start + taken) 1 wanted bs
      | none => some ⟨b, start + taken, 1, .start⟩

def utf8Fault? (bytes : List UInt8) : Option Utf8Fault := faultFrom? 0 0 0 [] bytes

def encodeUtf8 (s : String) : Bytes := s.toUTF8.data

def decodeUtf8 (bytes : Bytes) : Except Utf8Fault String :=
  match String.fromUTF8? ⟨bytes⟩ with
  | some s => .ok s
  | none => .error ((utf8Fault? bytes.toList).getD ⟨0, 0, 0, .start⟩)

/-- Carriage returns, with or without a line feed after them, become line feeds. -/
def foldNewlines : List Char → List Char
  | [] => []
  | '\r' :: '\n' :: cs => '\n' :: foldNewlines cs
  | c :: cs => (if c = '\r' then '\n' else c) :: foldNewlines cs

end Text

end TapeChain
