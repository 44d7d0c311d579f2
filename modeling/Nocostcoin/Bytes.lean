import Mathlib.Data.List.Sort
import Nocostcoin.Library.FiniteMap

/-!
# Byte strings and the encodings built from them

`Vec<u8>` is a list of bytes. The little-endian words are those of `to_le_bytes`, the
hexadecimal text is that of the `hex` crate, and the `bincode` functions follow the default
configuration of `bincode::serialize`: fixed-width little-endian integers, a `u64` length in
front of every sequence and string, a `u32` index in front of every enum variant.
-/

namespace Nocostcoin

/-- `Vec<u8>`. -/
abbrev Bytes := List UInt8

/-- The lowercase digit of a nibble. -/
def hexDigit (nibble : UInt8) : Char :=
  Char.ofNat (if nibble < 10 then 48 + nibble.toNat else 87 + nibble.toNat)

/-- `hex::encode`: two digits for each byte, high nibble first. -/
def hexEncode (bytes : Bytes) : String :=
  String.ofList (bytes.flatMap fun (byte : UInt8) => [hexDigit (byte >>> 4), hexDigit (byte &&& 0x0F)])

/-- The nibble that a lowercase digit stands for. -/
def hexValue (digit : Char) : UInt8 :=
  UInt8.ofNat (if digit.toNat < 58 then digit.toNat - 48 else digit.toNat - 87)

/-- The two digits of a byte tell it. -/
theorem hexValue_digits (byte : UInt8) :
    hexValue (hexDigit (byte >>> 4)) * 16 + hexValue (hexDigit (byte &&& 0x0F)) = byte := by
  have hall : ∀ n : Fin 256, hexValue (hexDigit (UInt8.ofNat n >>> 4)) * 16 +
      hexValue (hexDigit (UInt8.ofNat n &&& 0x0F)) = UInt8.ofNat n := by decide +kernel
  have hbyte := hall ⟨byte.toNat, byte.toNat_lt⟩
  rwa [UInt8.ofNat_toNat] at hbyte

/-- Different bytes have different hexadecimal texts. -/
theorem hexEncode_injective : Function.Injective hexEncode := by
  intro bytes bytes' h
  have hdigits := String.ofList_injective h
  induction bytes generalizing bytes' with
  | nil =>
    cases bytes' with
    | nil => rfl
    | cons byte' rest' => simp at hdigits
  | cons byte rest ih =>
    cases bytes' with
    | nil => simp at hdigits
    | cons byte' rest' =>
      simp only [List.flatMap_cons, List.cons_append, List.nil_append, List.cons.injEq] at hdigits
      obtain ⟨hhigh, hlow, hrest⟩ := hdigits
      have hbyte := hexValue_digits byte
      rw [hhigh, hlow, hexValue_digits] at hbyte
      rw [hbyte, ih (congrArg String.ofList hrest) hrest]

/-- `u64::to_le_bytes`. -/
def u64ToLeBytes (x : UInt64) : Bytes :=
  (List.range 8).map fun i => (x >>> UInt64.ofNat (8 * i)).toUInt8

/-- The number that little-endian bytes spell. -/
def leValue : Bytes → ℕ
  | [] => 0
  | byte :: rest => byte.toNat + 256 * leValue rest

/-- `str::as_bytes`. -/
def asBytes (text : String) : Bytes := text.toUTF8.data.toList

/-- bincode of a `Vec<u8>`: its length, then its bytes. -/
def bincodeBytes (bytes : Bytes) : Bytes :=
  u64ToLeBytes (UInt64.ofNat bytes.length) ++ bytes

/-- bincode of a `String`. -/
def bincodeString (text : String) : Bytes := bincodeBytes (asBytes text)

/-- bincode of a vector, given that of its elements. -/
def bincodeVec {α : Type} (encode : α → Bytes) (items : List α) : Bytes :=
  u64ToLeBytes (UInt64.ofNat items.length) ++ items.flatMap encode

/-- bincode of an `Option`: a tag byte, then the value. -/
def bincodeOption {α : Type} (encode : α → Bytes) : Option α → Bytes
  | none => [0]
  | some a => 1 :: encode a

/-- The index of an enum variant, a `u32`. -/
def bincodeVariant (index : UInt8) : Bytes := [index, 0, 0, 0]

/-- A set of byte strings in the lexicographic order in which RocksDB keeps its keys. -/
def keysInOrder (keys : Finset Bytes) : List Bytes := FiniteSet.sorted (· ≤ ·) keys

end Nocostcoin
