import BulletinChain.Chain
import BulletinChain.Migrations.Westend

namespace Bulletin

open Except

-- The assertions that a runtime makes of its configuration when it is built: a failed one panics with
-- its message.

def assertDistinctTagPrefixes : List (String × ValidTransactionParams) → Except String Unit
  | []                  => ok ()
  | (name, one) :: rest => do
    rest.forM fun (otherName, other) =>
      let tagPrefix := one.tagPrefix
      ensure (one.tagPrefix ≠ other.tagPrefix) <|
        s!"{name} and {otherName} must not share the tag prefix `{tagPrefix}`: their pool tags " ++
          "would dedup against each other"
    assertDistinctTagPrefixes rest

def GenesisConfig.default (T : Config) : GenesisConfig T where
  retentionPeriod        := PalletStorage.defaultRetentionPeriod
  allowedAuthorizers     := []
  accountAuthorizations  := []
  preimageAuthorizations := []

variable (T : Config)

namespace TransactionStorage

-- The pallets that depend on this one add their own families as `extra`.
def assertPoolFamiliesDistinct (extra : List (String × ValidTransactionParams)) :
    Except String Unit :=
  assertDistinctTagPrefixes <| extra ++ [
    ("StoreTxParams", T.storeTxParams),
    ("AuthorizeTxParams", T.authorizeTxParams),
    ("RemoveExpiredAccountAuthorizationTxParams", T.removeExpiredAccountAuthorizationTxParams),
    ("RemoveExpiredPreimageAuthorizationTxParams", T.removeExpiredPreimageAuthorizationTxParams),
    ("RemoveExhaustedAuthorizerTxParams", T.removeExhaustedAuthorizerTxParams)]

def integrityTest : Except String Unit := do
  ensure (T.maxBlockTransactions ≠ 0) "MaxBlockTransactions must be greater than zero"
  ensure (T.maxTransactionSize ≠ 0) "MaxTransactionSize must be greater than zero"
  ensure ((GenesisConfig.default T).retentionPeriod = PalletStorage.defaultRetentionPeriod)
    "GenesisConfig.retention_period must match DEFAULT_RETENTION_PERIOD"
  ensure (T.authorizationPeriod ≠ 0) "AuthorizationPeriod must be greater than zero"
  assertPoolFamiliesDistinct T []

end TransactionStorage

def DataRenewal.integrityTest : Except String Unit :=
  TransactionStorage.assertPoolFamiliesDistinct T [("RenewTxParams", T.renewTxParams)]

def HopPromotion.integrityTest : Except String Unit := do
  let promote := T.promoteTxParams.priority
  let store := T.storeTxParams.priority
  ensure (promote < store)
    s!"promote priority ({promote}) must be strictly below store priority ({store})"
  TransactionStorage.assertPoolFamiliesDistinct T [("PromoteTxParams", T.promoteTxParams)]

end Bulletin
