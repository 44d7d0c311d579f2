import Nocostcoin.Transaction

/-!
# What a transaction signature covers

The bytes that are hashed are the sender, the receiver, the nonce, a tag for the kind and the fields one
after the other, without lengths. The tags are prefix-free, so the bytes determine the transaction as
soon as they are cut at the same places: a signature covers exactly one transaction among those whose
fields have the same lengths, and not among others.
-/

namespace Nocostcoin

/-- The number is read back from its bytes. -/
theorem leValue_u64ToLeBytes (x : UInt64) : leValue (u64ToLeBytes x) = x.toNat := by
  have hbound := x.toNat_lt
  have hrange : List.range 8 = [0, 1, 2, 3, 4, 5, 6, 7] := rfl
  rw [u64ToLeBytes, hrange]
  simp [leValue, UInt64.toNat_toUInt8, UInt64.toNat_shiftRight, Nat.shiftRight_eq_div_pow]
  omega

/-- A number is determined by its bytes. -/
theorem u64ToLeBytes_injective : Function.Injective u64ToLeBytes := by
  intro x y h
  have hvalue := congrArg leValue h
  rw [leValue_u64ToLeBytes, leValue_u64ToLeBytes] at hvalue
  exact UInt64.toNat_inj.mp hvalue

@[simp] theorem u64ToLeBytes_inj {x y : UInt64} : u64ToLeBytes x = u64ToLeBytes y ↔ x = y :=
  u64ToLeBytes_injective.eq_iff

/-- A text is determined by its bytes. -/
theorem asBytes_injective : Function.Injective asBytes := by
  intro s t h
  have harray : s.toUTF8.data = t.toUTF8.data := Array.ext' h
  exact String.toByteArray_inj.mp (ByteArray.ext harray)

@[simp] theorem asBytes_inj {s t : String} : asBytes s = asBytes t ↔ s = t := asBytes_injective.eq_iff

namespace TransactionData

/-- The eleven kinds. -/
inductive Kind where
  | nativeTransfer | createAsset | transferAsset | createCollection | mintNFT | transferNFT
  | openChannel | closeChannel | delegateSpend | registerValidator | unregisterValidator
  deriving DecidableEq

/-- The tag that is hashed in front of the fields. -/
def Kind.tag : Kind → String
  | nativeTransfer => "NativeTransfer"
  | createAsset => "CreateAsset"
  | transferAsset => "TransferAsset"
  | createCollection => "CreateCollection"
  | mintNFT => "MintNFT"
  | transferNFT => "TransferNFT"
  | openChannel => "OpenChannel"
  | closeChannel => "CloseChannel"
  | delegateSpend => "DelegateSpend"
  | registerValidator => "RegisterValidator"
  | unregisterValidator => "UnregisterValidator"

/-- The kind of the data. -/
def kind : TransactionData → Kind
  | nativeTransfer .. => .nativeTransfer
  | createAsset .. => .createAsset
  | transferAsset .. => .transferAsset
  | createCollection .. => .createCollection
  | mintNFT .. => .mintNFT
  | transferNFT .. => .transferNFT
  | openChannel .. => .openChannel
  | closeChannel .. => .closeChannel
  | delegateSpend .. => .delegateSpend
  | registerValidator .. => .registerValidator
  | unregisterValidator => .unregisterValidator

/-- The bytes of each field, in the order in which they are hashed. -/
def fields : TransactionData → List Bytes
  | nativeTransfer amount => [u64ToLeBytes amount]
  | createAsset name symbol supply decimals metadata =>
      [asBytes name, asBytes symbol, u64ToLeBytes supply, [decimals], metadata]
  | transferAsset assetId amount => [assetId, u64ToLeBytes amount]
  | createCollection name symbol metadata => [asBytes name, asBytes symbol, metadata]
  | mintNFT collectionId itemId itemMetadata recipient =>
      [collectionId, u64ToLeBytes itemId, itemMetadata, recipient]
  | transferNFT collectionId itemId => [collectionId, u64ToLeBytes itemId]
  | openChannel partner amount duration => [partner, u64ToLeBytes amount, u64ToLeBytes duration]
  | closeChannel channelId balanceProof finalBalanceA finalBalanceB =>
      [channelId, balanceProof, u64ToLeBytes finalBalanceA, u64ToLeBytes finalBalanceB]
  | delegateSpend delegate allowance expiry =>
      [delegate, u64ToLeBytes allowance, u64ToLeBytes expiry]
  | registerValidator stake => [u64ToLeBytes stake]
  | unregisterValidator => []

/-- The tag and the fields are what is hashed. -/
theorem hashInput_eq (data : TransactionData) :
    data.hashInput = asBytes data.kind.tag ++ data.fields.flatten := by
  cases data <;> simp [hashInput, kind, Kind.tag, fields]

/-- All kinds. -/
def Kind.all : List Kind :=
  [nativeTransfer, createAsset, transferAsset, createCollection, mintNFT, transferNFT, openChannel,
    closeChannel, delegateSpend, registerValidator, unregisterValidator]

theorem Kind.mem_all (k : Kind) : k ∈ Kind.all := by
  cases k <;> decide

/-- No tag is a prefix of another. -/
theorem Kind.eq_of_tag {k k' : Kind} (h : asBytes k.tag <+: asBytes k'.tag) : k = k' := by
  have htags : ∀ k ∈ Kind.all, ∀ k' ∈ Kind.all, asBytes k.tag <+: asBytes k'.tag → k = k' := by
    decide
  exact htags k k.mem_all k' k'.mem_all h

/-- Data of one kind with the same fields are equal. -/
theorem eq_of_fields {data data' : TransactionData} (hkind : data.kind = data'.kind)
    (hfields : data.fields = data'.fields) : data = data' := by
  cases data <;> cases data' <;> cases hkind
  all_goals first
    | rfl
    | simpa [fields] using hfields

/-- The hashed bytes and the lengths of the fields determine the data. -/
theorem eq_of_hashInput {data data' : TransactionData} (hinput : data.hashInput = data'.hashInput)
    (hlengths : data.fields.map List.length = data'.fields.map List.length) : data = data' := by
  rw [hashInput_eq, hashInput_eq] at hinput
  have hkind : data.kind = data'.kind := by
    have hle : asBytes data.kind.tag <+: asBytes data'.kind.tag ++ data'.fields.flatten := by
      rw [← hinput]
      exact List.prefix_append _ _
    rcases List.prefix_or_prefix_of_prefix hle (List.prefix_append _ _) with h | h
    · exact Kind.eq_of_tag h
    · exact (Kind.eq_of_tag h).symm
  rw [hkind] at hinput
  exact eq_of_fields hkind
    (List.eq_iff_flatten_eq.mpr ⟨List.append_cancel_left hinput, hlengths⟩)

end TransactionData

namespace Transaction

/-- The lengths of the fields between which nothing is hashed. -/
def fieldLengths (tx : Transaction) : List ℕ :=
  tx.receiver.length :: tx.data.fields.map List.length

/-- Two transactions with senders of 32 bytes and the same hashed bytes are the same but for the
signature exactly when their fields have the same lengths. -/
theorem covered_iff_fieldLengths {tx tx' : Transaction} (hsender : tx.sender.length = 32)
    (hsender' : tx'.sender.length = 32) (hinput : tx.hashInput = tx'.hashInput) :
    (tx.sender = tx'.sender ∧ tx.receiver = tx'.receiver ∧ tx.nonce = tx'.nonce ∧ tx.data = tx'.data) ↔
      tx.fieldLengths = tx'.fieldLengths := by
  constructor
  · rintro ⟨-, hreceiver, -, hdata⟩
    rw [fieldLengths, fieldLengths, hreceiver, hdata]
  · intro hlengths
    obtain ⟨hreceiver, hfields⟩ := List.cons.inj hlengths
    simp only [hashInput, List.append_assoc] at hinput
    obtain ⟨hsenders, hrest⟩ := List.append_inj hinput (hsender.trans hsender'.symm)
    obtain ⟨hreceivers, hrest⟩ := List.append_inj hrest hreceiver
    obtain ⟨hnonce, hdata⟩ := List.append_inj hrest rfl
    exact ⟨hsenders, hreceivers, u64ToLeBytes_injective hnonce,
      TransactionData.eq_of_hashInput hdata hfields⟩

/-- The signed creation of an asset. -/
def signedCreation : Transaction :=
  .new Crypto.plain (List.replicate 32 1) [] (.createAsset "ab" "c" 5 0 []) 0 (List.replicate 32 1)

/-- The same with a letter moved from the name to the symbol. -/
def movedCreation : Transaction := { signedCreation with data := .createAsset "a" "bc" 5 0 [] }

/-- The creation and the altered one are the same exactly when their fields have the same lengths. -/
theorem covered_of_signedCreation :
    (signedCreation.sender = movedCreation.sender ∧ signedCreation.receiver = movedCreation.receiver ∧
        signedCreation.nonce = movedCreation.nonce ∧ signedCreation.data = movedCreation.data) ↔
      signedCreation.fieldLengths = movedCreation.fieldLengths :=
  covered_iff_fieldLengths (by decide +kernel) (by decide +kernel) (by decide +kernel)

/-- Both pass the logic and have the same hashed bytes, and one signature is valid for both. -/
theorem signature_covers_two :
    signedCreation.validateLogic = .ok () ∧ movedCreation.validateLogic = .ok () ∧
      signedCreation.sender.length = 32 ∧ signedCreation.hashInput = movedCreation.hashInput ∧
      signedCreation.data ≠ movedCreation.data ∧ signedCreation.signature = movedCreation.signature ∧
      signedCreation.validate Crypto.plain = .ok () ∧ movedCreation.validate Crypto.plain = .ok () := by
  decide +kernel

end Transaction

end Nocostcoin
