import SourceOptimizer.Fault
import SourceOptimizer.Text.Basic

/-! Bytes to text and back in UTF-8, with the place and cause of each fault. -/
namespace SourceOptimizer.Text

inductive Utf8Cause where
  | invalidStart | invalidContinuation | unexpectedEnd

def Utf8Cause.message : Utf8Cause → String
  | .invalidStart => "invalid start byte"
  | .invalidContinuation => "invalid continuation byte"
  | .unexpectedEnd => "unexpected end of data"

structure Utf8Fault where
  byte : Nat
  position : Nat
  length : Nat
  cause : Utf8Cause

def byteText (b : Nat) : String := "0x" ++ String.ofList (hexPadded 2 b)

def Utf8Fault.describe (f : Utf8Fault) : String :=
  if f.length == 1 then s!"byte {byteText f.byte} in position {f.position}: " ++ f.cause.message
  else s!"bytes in position {f.position}-{f.position + f.length - 1}: " ++ f.cause.message

def isContinuation (b : Nat) : Bool := 0x80 ≤ b && b < 0xc0

def secondByteRange (lead : Nat) : Nat × Nat :=
  if lead == 0xe0 then (0xa0, 0xbf) else if lead == 0xed then (0x80, 0x9f)
  else if lead == 0xf0 then (0x90, 0xbf) else if lead == 0xf4 then (0x80, 0x8f) else (0x80, 0xbf)

def sequenceLength (lead : Nat) : Option Nat :=
  if lead < 0x80 then some 1 else if 0xc2 ≤ lead && lead < 0xe0 then some 2
  else if 0xe0 ≤ lead && lead < 0xf0 then some 3 else if 0xf0 ≤ lead && lead < 0xf5 then some 4
  else none

def nextUtf8 (position lead : Nat) (rest : List Nat) : Except Utf8Fault (Nat × Nat) :=
  let fault (n : Nat) (c : Utf8Cause) : Except Utf8Fault (Nat × Nat) := .error ⟨lead, position, n, c⟩
  match sequenceLength lead with
  | none => fault 1 .invalidStart
  | some 1 => .ok (lead, 1)
  | some n =>
    match rest with
    | [] => fault 1 .unexpectedEnd
    | b :: rest =>
      let (lo, hi) := secondByteRange lead
      if b < lo || hi < b then fault 1 .invalidContinuation
      else if n == 2 then .ok ((lead - 0xc0) * 64 + (b - 0x80), 2)
      else match rest with
        | [] => fault 2 .unexpectedEnd
        | c :: rest =>
          if !isContinuation c then fault 2 .invalidContinuation
          else if n == 3 then .ok (((lead - 0xe0) * 64 + (b - 0x80)) * 64 + (c - 0x80), 3)
          else match rest with
            | [] => fault 3 .unexpectedEnd
            | d :: _ =>
              if !isContinuation d then fault 3 .invalidContinuation
              else .ok ((((lead - 0xf0) * 64 + (b - 0x80)) * 64 + (c - 0x80)) * 64 + (d - 0x80), 4)

/-- Decoding with a choice of what a fault becomes; `skip` bytes belong to the character before. -/
def decodeUtf8With {ε : Type} (onFault : Utf8Fault → Except ε Text) : Nat → Nat → List Nat → Except ε Text
  | _, _, [] => .ok []
  | position, skip + 1, _ :: bs => decodeUtf8With onFault (position + 1) skip bs
  | position, 0, b :: bs =>
    match nextUtf8 position b bs with
    | .ok (c, n) => do .ok (c :: (← decodeUtf8With onFault (position + 1) (n - 1) bs))
    | .error f => do
      let t ← onFault f
      .ok (t ++ (← decodeUtf8With onFault (position + 1) (f.length - 1) bs))

def decodeUtf8 (bs : List Nat) : Except Utf8Fault Text := decodeUtf8With .error 0 0 bs

def encodeUtf8Char (c : Nat) : List Nat :=
  if c < 0x80 then [c]
  else if c < 0x800 then [0xc0 + c / 64, 0x80 + c % 64]
  else if c < 0x10000 then [0xe0 + c / 4096, 0x80 + c / 64 % 64, 0x80 + c % 64]
  else [0xf0 + c / 262144, 0x80 + c / 4096 % 64, 0x80 + c / 64 % 64, 0x80 + c % 64]

def encodeUtf8 (t : Text) : List Nat := t.flatMap encodeUtf8Char

end SourceOptimizer.Text
