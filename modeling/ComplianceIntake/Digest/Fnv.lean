/-!
# FNV-1a

A fingerprint of sixty-four bits. Each octet in turn is mixed into the low
bits of a word, which is then multiplied by a fixed prime and wraps around.
The fingerprint of two lists one after the other goes on from that of the first.
-/

set_option autoImplicit false

namespace ComplianceIntake.Digest

def fnvBasis : UInt64 := 0xCBF29CE484222325

def fnvPrime : UInt64 := 0x100000001B3

def fnvMix (word : UInt64) (o : UInt8) : UInt64 := (word ^^^ o.toUInt64) * fnvPrime

def fnv1a (message : List UInt8) : UInt64 := message.foldl fnvMix fnvBasis

end ComplianceIntake.Digest
