import ComplianceIntake.Json.Lexeme

/-!
# String literals and the texts they stand for

A literal is understood when it has no stray octet and its escaped UTF-16
units pair up: a high surrogate is followed by an escaped low one and neither
stands alone. Writing escapes what JSON requires and nothing else, and reading
what was written gives the text back.
-/

set_option autoImplicit false

namespace ComplianceIntake.Json

open ComplianceIntake.Text
open ComplianceIntake.Number

def unescape? : Char → Option Char
  | '"' => some '"'
  | '\\' => some '\\'
  | '/' => some '/'
  | 'b' => some '\x08'
  | 'f' => some '\x0c'
  | 'n' => some '\n'
  | 'r' => some '\r'
  | 't' => some '\t'
  | _ => none

def unitValue? (a b c d : Char) : Option Nat := do
  let a ← hexValue? a
  let b ← hexValue? b
  let c ← hexValue? c
  let d ← hexValue? d
  return ((a * 16 + b) * 16 + c) * 16 + d

def isHighSurrogate (n : Nat) : Bool := 0xD800 ≤ n && n ≤ 0xDBFF

def isLowSurrogate (n : Nat) : Bool := 0xDC00 ≤ n && n ≤ 0xDFFF

def pairedSurrogates (high low : Nat) : Char :=
  Char.ofNat (0x10000 + (high - 0xD800) * 0x400 + (low - 0xDC00))

def readChars (done : List Char) : Literal → Option (List Char)
  | [] => some done.reverse
  | .plain (.char c) :: rest => readChars (c :: done) rest
  | .plain (.stray _) :: _ => none
  | .letter c :: rest =>
    match unescape? c with
    | some c => readChars (c :: done) rest
    | none => none
  | .unit a b c d :: rest =>
    match unitValue? a b c d with
    | none => none
    | some n =>
      if isLowSurrogate n then none
      else if isHighSurrogate n then
        match rest with
        | .unit a b c d :: rest =>
          match unitValue? a b c d with
          | none => none
          | some m =>
            if isLowSurrogate m then readChars (pairedSurrogates n m :: done) rest else none
        | _ => none
      else readChars (Char.ofNat n :: done) rest

def Literal.string? (l : Literal) : Option String := (readChars [] l).map String.ofList

def hexDigit (n : Nat) : Char := Nat.digitChar n

def Piece.ofChar (c : Char) : Piece :=
  if c = '"' then .letter '"'
  else if c = '\\' then .letter '\\'
  else if c = '\x08' then .letter 'b'
  else if c = '\x0c' then .letter 'f'
  else if c = '\n' then .letter 'n'
  else if c = '\r' then .letter 'r'
  else if c = '\t' then .letter 't'
  else if c.toNat < 0x20 then
    .unit '0' '0' (hexDigit (c.toNat / 16)) (hexDigit (c.toNat % 16))
  else .plain (.char c)

def Literal.ofString (s : String) : Literal := s.toList.map Piece.ofChar

end ComplianceIntake.Json
