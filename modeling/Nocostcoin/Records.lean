import Nocostcoin.Block

/-!
# Accounts, registries and votes

The records that the ledger and the chain keep, from `state.rs` and `vote.rs`. Rust's
`HashMap` is a finite map without an order; where the code walks one, the walk's order is an
argument.
-/

namespace Nocostcoin

/-- An account: native balance, nonce, holdings and allowances. -/
structure Account where
  balance : UInt64
  nonce : UInt64
  /-- Asset id to balance. -/
  assets : FiniteMap Bytes UInt64
  /-- Collection id to the ids of the items owned. -/
  nfts : FiniteMap Bytes (List UInt64)
  /-- Delegate to remaining allowance. -/
  delegatedAllowance : FiniteMap Bytes UInt64
  deriving DecidableEq

/-- `Account::new`. -/
def Account.new (balance : UInt64) : Account :=
  { balance, nonce := 0, assets := ∅, nfts := ∅, delegatedAllowance := ∅ }

/-- bincode of a map: its size, then its entries in the order in which the map is walked. -/
def bincodeMap {ν : Type} (encode : ν → Bytes) (listing : Finset Bytes → List Bytes)
    (map : FiniteMap Bytes ν) : Bytes :=
  u64ToLeBytes (UInt64.ofNat map.keys.card) ++
    (listing map.keys).flatMap fun key => bincodeBytes key ++ (map.lookup key).elim [] encode

/-- `bincode::serialize` of an account whose maps are walked by the given listing. -/
def Account.serialize (listing : Finset Bytes → List Bytes) (account : Account) : Bytes :=
  u64ToLeBytes account.balance ++ u64ToLeBytes account.nonce ++
    bincodeMap u64ToLeBytes listing account.assets ++
    bincodeMap (bincodeVec u64ToLeBytes) listing account.nfts ++
    bincodeMap u64ToLeBytes listing account.delegatedAllowance

/-- A registered asset. -/
structure Asset where
  id : Bytes
  issuer : Bytes
  name : String
  symbol : String
  totalSupply : UInt64
  decimals : UInt8
  metadata : Bytes
  deriving DecidableEq

/-- An item of a collection. -/
structure NFTItem where
  id : UInt64
  owner : Bytes
  metadata : Bytes
  deriving DecidableEq

/-- A registered collection with its items by id. -/
structure Collection where
  id : Bytes
  issuer : Bytes
  name : String
  symbol : String
  metadata : Bytes
  items : FiniteMap UInt64 NFTItem
  deriving DecidableEq

/-- A payment channel; `partnerA` opened it. -/
structure PaymentChannel where
  id : Bytes
  partnerA : Bytes
  partnerB : Bytes
  totalDeposit : UInt64
  expiry : UInt64
  isClosed : Bool
  deriving DecidableEq

/-- A validator's vote for a block. -/
structure Vote where
  blockHash : String
  slot : UInt64
  validatorPubkey : Bytes
  signature : Bytes
  deriving DecidableEq

end Nocostcoin
