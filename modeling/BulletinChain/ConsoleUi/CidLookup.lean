import BulletinChain.State
import BulletinChain.TypescriptSdk.Dag

namespace Bulletin

open Except TypescriptSdk

variable {T : Config}

namespace ConsoleUi

structure OnChainTransaction where
  blockNumber : Nat
  index       : Nat
  size        : Option Nat
  kind        : Option EntryKind
  cidCodec    : Option CidCodec
  hashing     : Option HashingAlgorithm
deriving DecidableEq

-- The hex text of a digest is a key by the digest.
def contentHashHex (cid : CID) : List UInt8 :=
  cid.digest

-- A `Map`, the last entry first.
abbrev Locations := List (List UInt8 × Option OnChainTransaction)

def Locations.set (m : Locations) (hash : List UInt8) (location : Option OnChainTransaction) : Locations :=
  (hash, location) :: m

-- `locations.get(hash) ?? null`
def Locations.get (m : Locations) (hash : List UInt8) : Option OnChainTransaction :=
  (m.lookup hash).join

-- The chain as a client sees it. The client encodes a key, which fails unless it has 32 bytes. Every
-- query is answered from a state of its own: that of the block that is the last one when it is asked.
structure Api (T : Config) where
  encodeKey                : List UInt8 → Except Thrown T.ContentHash
  transactionByContentHash : Nat → State T
  transactions             : Nat → State T
  encodeKey_encode         : ∀ hash, encodeKey (T.encodeContentHash hash) = ok hash

def located (blockNumber txIndex : Nat) (infos : Option (List (TransactionInfo T))) :
    OnChainTransaction :=
  let info := infos.bind (·[txIndex]?)
  ⟨blockNumber, txIndex, info.map (·.size), info.map (·.kind), info.map (·.cidCodec),
    info.map (·.hashing)⟩

namespace Api

-- The two queries for the `i`-th hash. The second one, of a round that follows that of the first ones,
-- is for the entries of the block that the first one has named. A block without entries is no error.
def locate (api : Api T) (i : Nat) (hash : List UInt8) : Except Thrown (Option OnChainTransaction) := do
  let key ← api.encodeKey hash
  let indexHit := (api.transactionByContentHash i).transactionByContentHash.lookup key
  return indexHit.map fun (blockNumber, txIndex) =>
    let infos := ((api.transactions i).transactions.lookup blockNumber).map (·.val)
    located blockNumber txIndex infos

end Api

def locateContentHashes (api : Api T) (hashes : List (List UInt8)) : Except Thrown Locations := do
  let out := hashes.foldl (fun out h => Locations.set out h none) []
  let hits ← hashes.zipIdx.mapM fun (h, i) => do return (h, ← api.locate i h)
  return hits.foldl (fun out (h, hit) =>
    match hit with
    | none          => out
    | some location => Locations.set out h (some location)) out

def lookupCidOnChain (api : Api T) (cid : CID) : Except Thrown (Option OnChainTransaction) := do
  let hash := contentHashHex cid
  let map ← locateContentHashes api [hash]
  return map.get hash

end ConsoleUi
end Bulletin
