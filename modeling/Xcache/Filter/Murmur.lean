import Mathlib.Tactic

/-! The hash behind both Bloom filters, entry 1 of `hash_funcs`. The server
(`server/util/hash.h`) and the kernel client (`client/hash.h`) carry the same text. -/

namespace Xcache

def keyBytes (key : BitVec 64) : List (BitVec 8) :=
  (List.range 8).map fun i => key.extractLsb' (8 * i) 8

def murmurMix (k : BitVec 32) : BitVec 32 :=
  let k := k * 0x5bd1e995#32
  (k ^^^ (k >>> 24)) * 0x5bd1e995#32

/-- The loop over four-byte words, then the fall-through `switch` on the rest. -/
def murmurBody : List (BitVec 8) → BitVec 32 → BitVec 32
  | b0 :: b1 :: b2 :: b3 :: rest, h =>
    murmurBody rest (h * 0x5bd1e995#32 ^^^ murmurMix (b3 ++ b2 ++ b1 ++ b0))
  | [b0, b1, b2], h =>
    (h ^^^ b2.zeroExtend 32 <<< 16 ^^^ b1.zeroExtend 32 <<< 8 ^^^ b0.zeroExtend 32) * 0x5bd1e995#32
  | [b0, b1], h => (h ^^^ b1.zeroExtend 32 <<< 8 ^^^ b0.zeroExtend 32) * 0x5bd1e995#32
  | [b0], h => (h ^^^ b0.zeroExtend 32) * 0x5bd1e995#32
  | [], h => h

/-- `murmur2`. The running hash is an `unsigned int`, so the seed is cut to 32 bits. -/
def murmur2 (data : List (BitVec 8)) (seed : BitVec 64) : BitVec 64 :=
  let h := murmurBody data ((seed ^^^ BitVec.ofNat 64 data.length).setWidth 32)
  let h := (h ^^^ (h >>> 13)) * 0x5bd1e995#32
  (h ^^^ (h >>> 15)).setWidth 64

end Xcache
