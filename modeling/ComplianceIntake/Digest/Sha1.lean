/-!
# SHA-1

The digest of a list of octets, written as forty lower-case hexadecimal
digits. The message is followed by the octet 0x80, by zeros up to eight short
of a whole block of sixty-four octets, and by its length in bits; every block
in turn is mixed into five words.
-/

set_option autoImplicit false

namespace ComplianceIntake.Digest

structure Words where
  a : UInt32
  b : UInt32
  c : UInt32
  d : UInt32
  e : UInt32
  deriving DecidableEq, Repr

def initialWords : Words := ⟨0x67452301, 0xEFCDAB89, 0x98BADCFE, 0x10325476, 0xC3D2E1F0⟩

def rotateLeft (x n : UInt32) : UInt32 := (x <<< n) ||| (x >>> (32 - n))

def wordOfOctets (w x y z : UInt8) : UInt32 :=
  (w.toUInt32 <<< 24) ||| (x.toUInt32 <<< 16) ||| (y.toUInt32 <<< 8) ||| z.toUInt32

def wordsOfOctets : List UInt8 → List UInt32
  | w :: x :: y :: z :: rest => wordOfOctets w x y z :: wordsOfOctets rest
  | _ => []

/-- The next word of the schedule from the sixteen before it, last first. -/
def nextWord : List UInt32 → UInt32
  | _ :: _ :: w3 :: _ :: _ :: _ :: _ :: w8 :: _ :: _ :: _ :: _ :: _ :: w14 :: _ :: w16 :: _ =>
    rotateLeft (w3 ^^^ w8 ^^^ w14 ^^^ w16) 1
  | _ => 0

def extend : Nat → List UInt32 → List UInt32
  | 0, ws => ws
  | n + 1, ws => extend n (nextWord ws :: ws)

def schedule (block : List UInt32) : List UInt32 := (extend 64 block.reverse).reverse

def roundTerms (round : Nat) (s : Words) : UInt32 × UInt32 :=
  if round < 20 then ((s.b &&& s.c) ||| (~~~s.b &&& s.d), 0x5A827999)
  else if round < 40 then (s.b ^^^ s.c ^^^ s.d, 0x6ED9EBA1)
  else if round < 60 then ((s.b &&& s.c) ||| (s.b &&& s.d) ||| (s.c &&& s.d), 0x8F1BBCDC)
  else (s.b ^^^ s.c ^^^ s.d, 0xCA62C1D6)

def round (n : Nat) (w : UInt32) (s : Words) : Words :=
  let terms := roundTerms n s
  ⟨rotateLeft s.a 5 + terms.1 + s.e + terms.2 + w, s.a, rotateLeft s.b 30, s.c, s.d⟩

def rounds (n : Nat) : List UInt32 → Words → Words
  | [], s => s
  | w :: ws, s => rounds (n + 1) ws (round n w s)

def compress (s : Words) (block : List UInt32) : Words :=
  let t := rounds 0 (schedule block) s
  ⟨s.a + t.a, s.b + t.b, s.c + t.c, s.d + t.d, s.e + t.e⟩

structure Progress where
  words : Words
  filled : List UInt8
  count : Nat

def absorb (p : Progress) (o : UInt8) : Progress :=
  if p.count = 63 then
    ⟨compress p.words (wordsOfOctets (o :: p.filled).reverse), [], 0⟩
  else ⟨p.words, o :: p.filled, p.count + 1⟩

def bigEndian : Nat → Nat → List UInt8
  | 0, _ => []
  | n + 1, x => bigEndian n (x / 256) ++ [x.toUInt8]

def padding (n : Nat) : List UInt8 :=
  0x80 :: (List.replicate ((119 - n % 64) % 64) 0 ++ bigEndian 8 (8 * n))

def digest (message : List UInt8) : Words :=
  let absorbed := message.foldl absorb ⟨initialWords, [], 0⟩
  ((padding message.length).foldl absorb absorbed).words

def hexDigits : Nat → Nat → List Char
  | 0, _ => []
  | n + 1, x => hexDigits n (x / 16) ++ [Nat.digitChar (x % 16)]

def Words.hex (s : Words) : List Char :=
  [s.a, s.b, s.c, s.d, s.e].flatMap fun w => hexDigits 8 w.toNat

def sha1 (message : List UInt8) : String := String.ofList (digest message).hex

theorem length_hex_digits (n x : Nat) : (hexDigits n x).length = n := by
  induction n generalizing x with
  | zero => rfl
  | succ n ih => simp [hexDigits, ih]

theorem length_hex (s : Words) : s.hex.length = 40 := by
  simp [Words.hex, length_hex_digits]

end ComplianceIntake.Digest
