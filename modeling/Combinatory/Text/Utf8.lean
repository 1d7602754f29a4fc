import Combinatory.Text.Quoted

/-!
Reading text from bytes. A character of several bytes is read with the range that its next byte must
lie in, which rules out overlong forms, surrogates, and numbers that are no code points at the first
byte that gives them away.
-/

namespace Combinatory

namespace Utf8

inductive Reason where
  | invalidStart
  | invalidContinuation
  | unexpectedEnd
  deriving DecidableEq

structure Fault where
  offset : Nat
  length : Nat
  byte : UInt8
  reason : Reason
  deriving DecidableEq

def Reason.text : Reason → String
  | .invalidStart => "invalid start byte"
  | .invalidContinuation => "invalid continuation byte"
  | .unexpectedEnd => "unexpected end of data"

def Fault.text (f : Fault) : String :=
  let place :=
    if f.length = 1 then
      "byte 0x" ++ String.ofList (Quoted.hexadecimal 2 f.byte.toNat) ++ " in position " ++
        toString f.offset
    else
      "bytes in position " ++ toString f.offset ++ "-" ++ toString (f.offset + f.length - 1)
  "'utf-8' codec can't decode " ++ place ++ ": " ++ f.reason.text

structure Pending where
  offset : Nat
  byte : UInt8
  length : Nat
  missing : Nat
  low : UInt8
  high : UInt8
  code : Nat

def Pending.fault (p : Pending) (reason : Reason) : Fault :=
  { offset := p.offset, length := p.length, byte := p.byte, reason }

def Pending.continue (p : Pending) (code : Nat) : Pending :=
  { p with length := p.length + 1, missing := p.missing - 1, low := 0x80, high := 0xbf, code }

def Pending.ofLead? (offset : Nat) (byte : UInt8) : Option Pending :=
  let lead (missing : Nat) (low high : UInt8) (code : Nat) : Option Pending :=
    some { offset, byte, length := 1, missing, low, high, code }
  let n := byte.toNat
  if 0xc2 ≤ n ∧ n ≤ 0xdf then lead 1 0x80 0xbf (n - 0xc0)
  else if n = 0xe0 then lead 2 0xa0 0xbf 0
  else if n = 0xed then lead 2 0x80 0x9f 0xd
  else if 0xe1 ≤ n ∧ n ≤ 0xef then lead 2 0x80 0xbf (n - 0xe0)
  else if n = 0xf0 then lead 3 0x90 0xbf 0
  else if 0xf1 ≤ n ∧ n ≤ 0xf3 then lead 3 0x80 0xbf (n - 0xf0)
  else if n = 0xf4 then lead 3 0x80 0x8f 4
  else none

def decode (bytes : List UInt8) : Except Fault (List Char) :=
  go 0 [] none bytes
where
  go (offset : Nat) (acc : List Char) : Option Pending → List UInt8 → Except Fault (List Char)
    | none, [] => .ok acc.reverse
    | some p, [] => .error (p.fault .unexpectedEnd)
    | none, byte :: bytes =>
      if byte < 0x80 then
        go (offset + 1) (Char.ofNat byte.toNat :: acc) none bytes
      else
        match Pending.ofLead? offset byte with
        | some p => go (offset + 1) acc (some p) bytes
        | none => .error { offset, length := 1, byte, reason := .invalidStart }
    | some p, byte :: bytes =>
      if p.low ≤ byte ∧ byte ≤ p.high then
        let code := p.code * 64 + (byte.toNat - 0x80)
        if p.missing = 1 then
          go (offset + 1) (Char.ofNat code :: acc) none bytes
        else
          go (offset + 1) acc (some (p.continue code)) bytes
      else
        .error (p.fault .invalidContinuation)

end Utf8

end Combinatory
