import Nocostcoin.Bytes

/-!
# The cryptographic crates

`sha2`, `schnorrkel` and `ed25519-dalek` are not part of the repository, so a `Crypto` is a
parameter of every function that calls them. A key pair is named by its public key: what
matters of it here is which outputs, proofs and signatures it makes.
-/

namespace Nocostcoin

/-- The functions of the external crates that the node calls. -/
structure Crypto where
  /-- `Sha256::new()`, `update`, `finalize` on the concatenation of all updates. -/
  sha256 : Bytes → Bytes
  /-- `schnorrkel::PublicKey::from_bytes` succeeds. -/
  isPublicKey : Bytes → Bool
  /-- `schnorrkel::vrf::VRFPreOut::from_bytes` succeeds. -/
  isVrfPreOut : Bytes → Bool
  /-- `schnorrkel::vrf::VRFProof::from_bytes` succeeds. -/
  isVrfProof : Bytes → Bool
  /-- `Crypto::vrf_sign` of a key pair on an input: the output and its proof. -/
  vrfSign : Bytes → Bytes → Bytes × Bytes
  /-- `Crypto::vrf_verify` of public key, input, output and proof. -/
  vrfVerify : Bytes → Bytes → Bytes → Bytes → Bool
  /-- `schnorrkel::Signature::from_bytes` succeeds. -/
  isSignature : Bytes → Bool
  /-- `Keypair::sign` of a message in the context `nocostcoin-vote`. -/
  voteSign : Bytes → Bytes → Bytes
  /-- `PublicKey::verify` of a message and a signature in the context `nocostcoin-vote`. -/
  voteVerify : Bytes → Bytes → Bytes → Bool
  /-- `ed25519_dalek::VerifyingKey::from_bytes` succeeds. -/
  isVerifyingKey : Bytes → Bool
  /-- `SigningKey::sign`. -/
  sign : Bytes → Bytes → Bytes
  /-- `VerifyingKey::verify` of a message and a signature. -/
  verify : Bytes → Bytes → Bytes → Bool

/-- Little-endian digits of a number, as many as asked for. -/
def leDigits : ℕ → ℕ → Bytes
  | 0, _ => []
  | count + 1, n => UInt8.ofNat n :: leDigits count (n / 256)

/-- A 32-byte digest that computes: a polynomial of the bytes modulo `2 ^ 256`. -/
def polynomialDigest (bytes : Bytes) : Bytes :=
  leDigits 32 (bytes.foldl (fun acc byte => (acc * 65599 + byte.toNat + 1) % 2 ^ 256) bytes.length)

/-- Computable primitives for concrete runs. Digests, keys and signatures have the lengths of
the real ones, a VRF output is a function of the key and the input, and exactly the outputs,
proofs and signatures that the key pair makes verify. -/
def Crypto.plain : Crypto where
  sha256 := polynomialDigest
  isPublicKey key := key.length = 32
  isVrfPreOut output := output.length = 32
  isVrfProof proof := proof.length = 64
  vrfSign key input :=
    (polynomialDigest (0 :: key ++ input),
      polynomialDigest (1 :: key ++ input) ++ polynomialDigest (2 :: key ++ input))
  vrfVerify key input output proof :=
    output = polynomialDigest (0 :: key ++ input) ∧
      proof = polynomialDigest (1 :: key ++ input) ++ polynomialDigest (2 :: key ++ input)
  isSignature signature := signature.length = 64
  voteSign key message :=
    polynomialDigest (3 :: key ++ message) ++ polynomialDigest (4 :: key ++ message)
  voteVerify key message signature :=
    signature = polynomialDigest (3 :: key ++ message) ++ polynomialDigest (4 :: key ++ message)
  isVerifyingKey key := key.length = 32
  sign key message :=
    polynomialDigest (5 :: key ++ message) ++ polynomialDigest (6 :: key ++ message)
  verify key message signature :=
    signature = polynomialDigest (5 :: key ++ message) ++ polynomialDigest (6 :: key ++ message)

end Nocostcoin
