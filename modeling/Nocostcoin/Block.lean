import Nocostcoin.Transaction

/-!
# Blocks

Block headers, the Merkle root over the transaction hashes and the header hash, from
`block.rs`. A block carries its hash as a field of its own: nothing in the type ties it to
the header.
-/

namespace Nocostcoin

/-- The block header, with the fields in their serialized order. -/
structure BlockHeader where
  parentHash : String
  slot : UInt64
  epoch : UInt64
  vrfOutput : Bytes
  vrfProof : Bytes
  validatorPubkey : Bytes
  producerSignature : Bytes
  stateRoot : String
  txRoot : String
  extraWitnesses : List Bytes
  timestamp : Int64
  deriving DecidableEq, Repr

/-- A block as it is delivered and stored. -/
structure Block where
  header : BlockHeader
  transactions : List Transaction
  hash : String
  deriving DecidableEq, Repr

/-- The hash of the parent. -/
def Block.parentHash (block : Block) : String := block.header.parentHash

/-- `bincode::serialize` of a header. -/
def BlockHeader.serialize (header : BlockHeader) : Bytes :=
  bincodeString header.parentHash ++ u64ToLeBytes header.slot ++ u64ToLeBytes header.epoch ++
    bincodeBytes header.vrfOutput ++ bincodeBytes header.vrfProof ++
    bincodeBytes header.validatorPubkey ++ bincodeBytes header.producerSignature ++
    bincodeString header.stateRoot ++ bincodeString header.txRoot ++
    bincodeVec bincodeBytes header.extraWitnesses ++ u64ToLeBytes header.timestamp.toUInt64

namespace Block

/-- One level of the Merkle tree: pairs are hashed together, an odd last hash with itself. -/
def merkleLevel (crypto : Crypto) : List Bytes → List Bytes
  | left :: right :: rest => crypto.sha256 (left ++ right) :: merkleLevel crypto rest
  | [last] => [crypto.sha256 (last ++ last)]
  | [] => []

/-- The `while hashes.len() > 1` loop; each round at least shortens the list by one. -/
def merkleLoop (crypto : Crypto) : ℕ → List Bytes → List Bytes
  | 0, hashes => hashes
  | rounds + 1, hashes =>
      if 1 < hashes.length then merkleLoop crypto rounds (merkleLevel crypto hashes) else hashes

/-- `Block::calculate_merkle_root`. -/
def calculateMerkleRoot (crypto : Crypto) (transactions : List Transaction) : String :=
  if transactions.isEmpty then ""
  else
    let hashes := transactions.map (Transaction.hash crypto)
    match merkleLoop crypto hashes.length hashes with
    | [] => ""
    | root :: _ => hexEncode root

/-- `Block::calculate_hash`. -/
def calculateHash (crypto : Crypto) (header : BlockHeader) : String :=
  hexEncode (crypto.sha256 header.serialize)

/-- `Block::new`: fill in the transaction root and the hash. -/
def new (crypto : Crypto) (header : BlockHeader) (transactions : List Transaction) : Block :=
  let header := { header with txRoot := calculateMerkleRoot crypto transactions }
  { header, transactions, hash := calculateHash crypto header }

end Block

end Nocostcoin
