import Mathlib.Data.Nat.Log
import Mathlib.Data.List.Basic
import Mathlib.Algebra.Order.Ring.Nat

-- The SCALE codec, as far as lengths and byte strings need it.
namespace Scale

-- `k` little-endian bytes of `n`.
def littleEndian (k n : Nat) : List UInt8 :=
  (List.range k).map fun i => UInt8.ofNat (n / 256 ^ i)

-- A compact integer: the two low bits of the first byte select one, two or four bytes, or a length
-- prefixed run of bytes.
def compact (n : Nat) : List UInt8 :=
  if n < 2 ^ 6 then
    littleEndian 1 (4 * n)
  else if n < 2 ^ 14 then
    littleEndian 2 (4 * n + 1)
  else if n < 2 ^ 30 then
    littleEndian 4 (4 * n + 2)
  else
    let len := Nat.log 256 n + 1
    littleEndian 1 (4 * (len - 4) + 3) ++ littleEndian len n

-- A `Vec<u8>`: its compact length, then its bytes.
def encodeBytes (bs : List UInt8) : List UInt8 :=
  compact bs.length ++ bs

def encodeString (s : String) : List UInt8 :=
  encodeBytes s.toUTF8.toList

end Scale
