import Nocostcoin.Crypto

/-!
# Transactions

The eleven kinds of transaction, the bytes a transaction is hashed and signed over, and the
two validation passes, from `transaction.rs`.
-/

namespace Nocostcoin

/-- The kinds of transaction with their parameters. -/
inductive TransactionData where
  | nativeTransfer (amount : UInt64)
  | createAsset (name symbol : String) (supply : UInt64) (decimals : UInt8) (metadata : Bytes)
  | transferAsset (assetId : Bytes) (amount : UInt64)
  | createCollection (name symbol : String) (metadata : Bytes)
  | mintNFT (collectionId : Bytes) (itemId : UInt64) (itemMetadata recipient : Bytes)
  | transferNFT (collectionId : Bytes) (itemId : UInt64)
  | openChannel (partner : Bytes) (amount duration : UInt64)
  | closeChannel (channelId balanceProof : Bytes) (finalBalanceA finalBalanceB : UInt64)
  | delegateSpend (delegate : Bytes) (allowance expiry : UInt64)
  | registerValidator (stake : UInt64)
  | unregisterValidator
  deriving DecidableEq, Repr

/-- A transaction; addresses are public key bytes, the receiver is empty for some kinds. -/
structure Transaction where
  sender : Bytes
  receiver : Bytes
  nonce : UInt64
  data : TransactionData
  signature : Bytes
  deriving DecidableEq, Repr

namespace TransactionData

/-- The tag and the fields of the data, in the order in which they are hashed. -/
def hashInput : TransactionData → Bytes
  | nativeTransfer amount => asBytes "NativeTransfer" ++ u64ToLeBytes amount
  | createAsset name symbol supply decimals metadata =>
      asBytes "CreateAsset" ++ asBytes name ++ asBytes symbol ++ u64ToLeBytes supply ++
        [decimals] ++ metadata
  | transferAsset assetId amount => asBytes "TransferAsset" ++ assetId ++ u64ToLeBytes amount
  | createCollection name symbol metadata =>
      asBytes "CreateCollection" ++ asBytes name ++ asBytes symbol ++ metadata
  | mintNFT collectionId itemId itemMetadata recipient =>
      asBytes "MintNFT" ++ collectionId ++ u64ToLeBytes itemId ++ itemMetadata ++ recipient
  | transferNFT collectionId itemId => asBytes "TransferNFT" ++ collectionId ++ u64ToLeBytes itemId
  | openChannel partner amount duration =>
      asBytes "OpenChannel" ++ partner ++ u64ToLeBytes amount ++ u64ToLeBytes duration
  | closeChannel channelId balanceProof finalBalanceA finalBalanceB =>
      asBytes "CloseChannel" ++ channelId ++ balanceProof ++ u64ToLeBytes finalBalanceA ++
        u64ToLeBytes finalBalanceB
  | delegateSpend delegate allowance expiry =>
      asBytes "DelegateSpend" ++ delegate ++ u64ToLeBytes allowance ++ u64ToLeBytes expiry
  | registerValidator stake => asBytes "RegisterValidator" ++ u64ToLeBytes stake
  | unregisterValidator => asBytes "UnregisterValidator"

end TransactionData

namespace Transaction

/-- Everything `hash` feeds to SHA-256; the signature is not part of it. -/
def hashInput (tx : Transaction) : Bytes :=
  tx.sender ++ tx.receiver ++ u64ToLeBytes tx.nonce ++ tx.data.hashInput

/-- The transaction hash, which is also the signed message. -/
def hash (crypto : Crypto) (tx : Transaction) : Bytes := crypto.sha256 tx.hashInput

/-- `Transaction::new`: build and sign with the key pair of the given public key. -/
def new (crypto : Crypto) (sender receiver : Bytes) (data : TransactionData) (nonce : UInt64)
    (keypair : Bytes) : Transaction :=
  let tx : Transaction := { sender, receiver, nonce, data, signature := [] }
  { tx with signature := crypto.sign keypair (tx.hash crypto) }

/-- The id of the asset, collection or channel that the transaction creates. -/
def calculateAssetId (crypto : Crypto) (tx : Transaction) : Option Bytes :=
  match tx.data with
  | .createAsset name .. => some (crypto.sha256 (tx.sender ++ u64ToLeBytes tx.nonce ++ asBytes name))
  | .createCollection name .. =>
      some (crypto.sha256 (tx.sender ++ u64ToLeBytes tx.nonce ++ asBytes name))
  | .openChannel .. =>
      some (crypto.sha256 (tx.sender ++ u64ToLeBytes tx.nonce ++ asBytes "channel"))
  | _ => none

/-- Signature check: lengths, key, then the signature over the transaction hash. -/
def validateSignature (crypto : Crypto) (tx : Transaction) : Except String Unit :=
  if tx.signature.isEmpty then .error "Empty signature"
  else if tx.sender.length ≠ 32 then .error "Invalid sender key length"
  else if ¬ crypto.isVerifyingKey tx.sender then .error "Invalid sender public key"
  else if tx.signature.length ≠ 64 then .error "Invalid signature length"
  else if ¬ crypto.verify tx.sender (tx.hash crypto) tx.signature then
    .error "Signature verification failed"
  else .ok ()

/-- The checks of each kind on its own fields. -/
def validateLogic (tx : Transaction) : Except String Unit :=
  if tx.sender.isEmpty then .error "Sender address is empty" else
  match tx.data with
  | .nativeTransfer amount =>
      if amount = 0 then .error "Amount must be greater than 0"
      else if tx.receiver.isEmpty then .error "Receiver address is empty"
      else if tx.sender = tx.receiver then .error "Cannot send to self"
      else .ok ()
  | .createAsset name symbol supply _ _ =>
      if name.isEmpty ∨ symbol.isEmpty then .error "Asset name and symbol cannot be empty"
      else if supply = 0 then .error "Supply must be greater than 0"
      else .ok ()
  | .transferAsset _ amount =>
      if amount = 0 then .error "Amount must be greater than 0"
      else if tx.receiver.isEmpty then .error "Receiver address is empty"
      else .ok ()
  | .createCollection name symbol _ =>
      if name.isEmpty ∨ symbol.isEmpty then .error "Collection name and symbol cannot be empty"
      else .ok ()
  | .mintNFT collectionId _ _ _ =>
      if collectionId.isEmpty then .error "Collection ID cannot be empty" else .ok ()
  | .transferNFT collectionId _ =>
      if collectionId.isEmpty then .error "Collection ID cannot be empty"
      else if tx.receiver.isEmpty then .error "Receiver address is empty"
      else .ok ()
  | .openChannel partner amount _ =>
      if partner.isEmpty then .error "Partner address required"
      else if amount = 0 then .error "Channel must have initial deposit"
      else .ok ()
  | .closeChannel channelId _ _ _ =>
      if channelId.isEmpty then .error "Channel ID required" else .ok ()
  | .delegateSpend delegate allowance _ =>
      if delegate.isEmpty then .error "Delegate address required"
      else if allowance = 0 then .error "Allowance must be > 0"
      else .ok ()
  | .registerValidator stake => if stake = 0 then .error "Stake must be > 0" else .ok ()
  | .unregisterValidator => .ok ()

/-- Full validation: logic first, then the signature. -/
def validate (crypto : Crypto) (tx : Transaction) : Except String Unit := do
  tx.validateLogic
  tx.validateSignature crypto

end Transaction

end Nocostcoin
