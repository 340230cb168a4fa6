import BulletinChain.State

namespace Bulletin

-- The layouts of version 1.

structure V1AuthorizationExtent where
  transactions : Nat
  bytes        : Nat

structure V1Authorization where
  extent     : V1AuthorizationExtent
  expiration : Nat

structure V1TransactionInfo (T : Config) where
  chunkRoot   : T.ChunkRoot
  contentHash : T.ContentHash
  hashing     : HashingAlgorithm
  cidCodec    : CidCodec
  size        : Nat
  blockChunks : Nat

-- The storage of version 1: the authorizations and the entries of the current block in their old
-- layouts, next to everything that is not migrated. `BlockTransactions` may be absent.
structure V1Storage (T : Config) where
  rest              : State T
  authorizations    : Finmap fun _ : AuthorizationScope T => V1Authorization
  blockTransactions : Option (BoundedVec (V1TransactionInfo T) T.maxBlockTransactions)

open Machine

variable {T : Config}

def V1Authorization.expired (a : V1Authorization) (now : Nat) : Bool :=
  a.expiration ≤ now

namespace VersionUncheckedMigrateV1ToV2

-- What is left of an old authorization becomes the caps of the new one, of which nothing is used.
def translateAuthorization (now : Nat) (old : V1Authorization) : Option Authorization :=
  if old.extent.bytes = 0 ∨ old.expired now then
    none
  else
    some {
      extent := {
        bytes                 := 0
        extra                 := ⟨0⟩
        bytesAllowance        := old.extent.bytes
        transactions          := 0
        transactionsAllowance := old.extent.transactions }
      expiration := old.expiration }

def translateInfo (old : V1TransactionInfo T) : TransactionInfo T where
  chunkRoot      := old.chunkRoot
  contentHash    := old.contentHash
  hashing        := old.hashing
  cidCodec       := old.cidCodec
  size           := old.size
  extrinsicIndex := u32Max
  blockChunks    := old.blockChunks
  kind           := .store

def onRuntimeUpgrade (s : V1Storage T) : State T :=
  { s.rest with
    authorizations    := s.authorizations.translate fun _ => translateAuthorization s.rest.blockNumber
    blockTransactions := (s.blockTransactions.map (·.map translateInfo)).getD .empty }

end VersionUncheckedMigrateV1ToV2
end Bulletin
