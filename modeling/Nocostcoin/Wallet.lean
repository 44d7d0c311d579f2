import Nocostcoin.Node

/-!
# The browser wallet and the send route

`browserWallet.ts` writes a transfer into a buffer of fixed offsets, hashes and signs it, and the route
`transaction/send` turns the returned hexadecimal strings into the JSON that the node reads. A string of
JavaScript is a list of UTF-16 code units, the numbers that occur are integers of at most 53 bits, and
`@noble/ed25519` is a parameter.
-/

namespace Nocostcoin

namespace BrowserWallet

/-- A string of JavaScript. -/
abbrev JsString := List UInt16

/-- What JavaScript code throws. -/
inductive JsError where
  /-- `new Error(message)` -/
  | error (message : String)
  /-- The `RangeError` of a write past the end of a buffer. -/
  | rangeError
  deriving DecidableEq, Repr

/-- The white space and the line terminators that `parseInt` skips. -/
def isWhiteSpace (unit : UInt16) : Bool :=
  (0x0009 ≤ unit && unit ≤ 0x000D) || unit == 0x0020 || unit == 0x00A0 || unit == 0x1680 ||
    (0x2000 ≤ unit && unit ≤ 0x200A) || unit == 0x2028 || unit == 0x2029 || unit == 0x202F ||
    unit == 0x205F || unit == 0x3000 || unit == 0xFEFF

/-- The value of a hexadecimal digit of either case. -/
def digitValue (unit : UInt16) : Option ℕ :=
  if 0x30 ≤ unit ∧ unit ≤ 0x39 then some (unit.toNat - 0x30)
  else if 0x61 ≤ unit ∧ unit ≤ 0x66 then some (unit.toNat - 0x57)
  else if 0x41 ≤ unit ∧ unit ≤ 0x46 then some (unit.toNat - 0x37)
  else none

/-- The digits in front of the first unit that is none. -/
def leadingDigits : JsString → List ℕ
  | [] => []
  | unit :: rest =>
    match digitValue unit with
    | some digit => digit :: leadingDigits rest
    | none => []

/-- A sign in front, and what follows it. -/
def splitSign : JsString → ℤ × JsString
  | [] => (1, [])
  | unit :: rest =>
    if unit = 0x2D then (-1, rest) else if unit = 0x2B then (1, rest) else (1, unit :: rest)

/-- The text behind a `0x` or `0X`. -/
def stripHexMark : JsString → JsString
  | zero :: mark :: rest => if zero = 0x30 ∧ (mark = 0x78 ∨ mark = 0x58) then rest else zero :: mark :: rest
  | text => text

/-- `parseInt(text, 16)`; `none` is `NaN`. Negative zero is zero, which is how a `Uint8Array` and JSON
take it. -/
def parseInt16 (text : JsString) : Option ℤ :=
  let (sign, unsigned) := splitSign (text.dropWhile isWhiteSpace)
  let digits := leadingDigits (stripHexMark unsigned)
  let value : ℕ := digits.foldl (fun value digit => value * 16 + digit) 0
  if digits.isEmpty then none else some (sign * value)

/-- The substrings of two units that both `hexToBytes` loops read; the last may be shorter. -/
def substrings : JsString → List JsString
  | [] => []
  | [unit] => [[unit]]
  | unit :: unit' :: rest => [unit, unit'] :: substrings rest

/-- What storing a number in a `Uint8Array` keeps of it. -/
def toUint8 : Option ℤ → UInt8
  | none => 0
  | some value => UInt8.ofInt value

/-- `hexToBytes` of the wallet. -/
def hexToBytes (hex : JsString) : Except JsError Bytes :=
  if hex.length % 2 ≠ 0 then .error (.error "Invalid hex string")
  else .ok ((substrings hex).map fun text => toUint8 (parseInt16 text))

/-- A digit as JavaScript writes it. -/
def digitUnit (digit : UInt8) : UInt16 := if digit < 10 then 0x30 + digit.toUInt16 else 0x57 + digit.toUInt16

/-- `byte.toString(16)`. -/
def toString16 (byte : UInt8) : JsString :=
  if byte < 16 then [digitUnit byte] else [digitUnit (byte / 16), digitUnit (byte % 16)]

/-- `padStart` with one unit. -/
def padStart (length : ℕ) (fill : UInt16) (text : JsString) : JsString :=
  List.replicate (length - text.length) fill ++ text

/-- `bytesToHex` of the wallet. The hexadecimal texts of `Buffer` and `CryptoJS` are the same. -/
def bytesToHex (bytes : Bytes) : JsString := bytes.flatMap fun byte => padStart 2 0x30 (toString16 byte)

/-- `buffer.set(bytes, offset)`. -/
def setBytes (buffer bytes : Bytes) (offset : ℕ) : Except JsError Bytes :=
  if buffer.length < offset + bytes.length then .error .rangeError
  else .ok (buffer.take offset ++ bytes ++ buffer.drop (offset + bytes.length))

/-- `view.setBigUint64(offset, BigInt(value), true)`. -/
def setBigUint64 (buffer : Bytes) (offset : ℕ) (value : ℤ) : Except JsError Bytes :=
  setBytes buffer (u64ToLeBytes (UInt64.ofInt value)) offset

/-- `Wallet`; the private key is there while the wallet is unlocked. -/
structure Wallet where
  publicKey : JsString
  privateKey : Option JsString

/-- `Transaction` of the wallet, as it is returned and posted. -/
structure SignedTransfer where
  sender : JsString
  receiver : JsString
  nonce : ℤ
  amount : ℤ
  signature : JsString
  deriving DecidableEq, Repr

/-- The buffer that `createAndSignTransaction` hashes. -/
def hashBuffer (wallet : Wallet) (receiverHex : JsString) (amount nonce : ℤ) : Except JsError Bytes := do
  let senderBytes ← hexToBytes wallet.publicKey
  let receiverBytes ← hexToBytes receiverHex
  let tag := asBytes "NativeTransfer"
  let buffer ← setBytes (List.replicate (32 + 32 + 8 + tag.length + 8) 0) senderBytes 0
  let buffer ← setBytes buffer receiverBytes 32
  let buffer ← setBigUint64 buffer 64 nonce
  let buffer ← setBytes buffer tag 72
  setBigUint64 buffer (72 + tag.length) amount

/-- `createAndSignTransaction`. -/
def createAndSignTransaction (crypto : Crypto) (signAsync : Bytes → Bytes → Except JsError Bytes)
    (wallet : Wallet) (receiverHex : JsString) (amount nonce : ℤ) : Except JsError SignedTransfer :=
  match wallet.privateKey with
  | none | some [] => .error (.error "Wallet is locked or private key invalid")
  | some privateKey => do
    let buffer ← hashBuffer wallet receiverHex amount nonce
    let hashBytes ← hexToBytes (bytesToHex (crypto.sha256 buffer))
    let privateKeyBytes ← hexToBytes privateKey
    let signatureBytes ← signAsync hashBytes privateKeyBytes
    return { sender := wallet.publicKey, receiver := receiverHex, nonce, amount,
             signature := bytesToHex signatureBytes }

/-- A byte is written with two units. -/
theorem length_toString16 (byte : UInt8) : (padStart 2 0x30 (toString16 byte)).length = 2 := by
  unfold toString16 padStart
  split <;> rfl

/-- The substrings of a text are those of its parts of two units. -/
theorem substrings_flatMap {bytes : Bytes} {write : UInt8 → JsString}
    (hwrite : ∀ byte, (write byte).length = 2) : substrings (bytes.flatMap write) = bytes.map write := by
  induction bytes with
  | nil => rfl
  | cons byte rest ih =>
    obtain ⟨high, low, hunits⟩ := List.length_eq_two.mp (hwrite byte)
    rw [List.flatMap_cons, List.map_cons, hunits]
    simp only [List.cons_append, List.nil_append, substrings, ih]

/-- A byte reads back as itself. -/
theorem parseInt16_toString16 (byte : UInt8) :
    parseInt16 (padStart 2 0x30 (toString16 byte)) = some (byte.toNat : ℤ) := by
  have hall : ∀ n : Fin 256, parseInt16 (padStart 2 0x30 (toString16 (UInt8.ofNat n))) = some (n.val : ℤ) := by
    decide +kernel
  have hbyte := hall ⟨byte.toNat, byte.toNat_lt⟩
  rwa [UInt8.ofNat_toNat] at hbyte

/-- The numbers in the text of some bytes are the bytes. -/
theorem parseInt16_bytesToHex (bytes : Bytes) :
    (substrings (bytesToHex bytes)).map parseInt16 = bytes.map fun byte => some (byte.toNat : ℤ) := by
  rw [bytesToHex, substrings_flatMap length_toString16, List.map_map]
  exact List.map_congr_left fun byte _ => parseInt16_toString16 byte

/-- A byte of a `Uint8Array` stays as it is. -/
theorem toUint8_toNat (byte : UInt8) : toUint8 (some (byte.toNat : ℤ)) = byte := by
  have hlt := byte.toNat_lt
  rw [toUint8, UInt8.ofInt, Int.emod_eq_of_lt (by omega) (by omega), Int.toNat_natCast, UInt8.ofNat_toNat]

/-- The text of some bytes has an even length. -/
theorem length_bytesToHex (bytes : Bytes) : (bytesToHex bytes).length = 2 * bytes.length := by
  induction bytes with
  | nil => rfl
  | cons byte rest ih =>
    rw [bytesToHex, List.flatMap_cons, List.length_append, length_toString16, List.length_cons, Nat.mul_succ,
      Nat.add_comm]
    exact congrArg (· + 2) ih

/-- The wallet reads back what it writes. -/
theorem hexToBytes_bytesToHex (bytes : Bytes) : hexToBytes (bytesToHex bytes) = .ok bytes := by
  have hread : (substrings (bytesToHex bytes)).map (fun text => toUint8 (parseInt16 text)) = bytes := by
    calc (substrings (bytesToHex bytes)).map (fun text => toUint8 (parseInt16 text))
        = ((substrings (bytesToHex bytes)).map parseInt16).map toUint8 := by rw [List.map_map]; rfl
      _ = bytes := by
        rw [parseInt16_bytesToHex, List.map_map]
        exact (List.map_congr_left fun byte _ => toUint8_toNat byte).trans (List.map_id bytes)
  rw [hexToBytes, if_neg (by rw [length_bytesToHex]; omega), hread]

/-- A text of even length has a substring for every two units. -/
theorem length_substrings {text : JsString} (heven : text.length % 2 = 0) :
    2 * (substrings text).length = text.length := by
  induction text using substrings.induct with
  | case1 => rfl
  | case2 unit => cases heven
  | case3 unit unit' rest ih =>
    simp only [List.length_cons] at heven
    have hrest := ih (by omega)
    simp only [substrings, List.length_cons]
    omega

/-- No substring has more than two units. -/
theorem length_le_of_mem_substrings {text part : JsString} (hpart : part ∈ substrings text) :
    part.length ≤ 2 := by
  induction text using substrings.induct with
  | case1 => cases hpart
  | case2 unit =>
    rw [List.mem_singleton.mp hpart]
    exact Nat.le_succ 1
  | case3 unit unit' rest ih =>
    rcases List.mem_cons.mp hpart with rfl | hrest
    · exact le_rfl
    · exact ih hrest

/-- A digit is below sixteen. -/
theorem digitValue_lt {unit : UInt16} {digit : ℕ} (h : digitValue unit = some digit) : digit < 16 := by
  unfold digitValue at h
  simp only [UInt16.le_iff_toNat_le] at h
  split at h
  · rename_i hrange
    cases h
    exact Nat.lt_of_le_of_lt (Nat.sub_le_sub_right hrange.2 _) (by decide)
  · split at h
    · rename_i hrange
      cases h
      exact Nat.lt_of_le_of_lt (Nat.sub_le_sub_right hrange.2 _) (by decide)
    · split at h
      · rename_i hrange
        cases h
        exact Nat.lt_of_le_of_lt (Nat.sub_le_sub_right hrange.2 _) (by decide)
      · cases h

/-- The digits in front of a text spell less than sixteen to the length of the text. -/
theorem foldl_leadingDigits_lt (text : JsString) (value : ℕ) :
    (leadingDigits text).foldl (fun value digit => value * 16 + digit) value <
      (value + 1) * 16 ^ text.length := by
  induction text generalizing value with
  | nil => simp [leadingDigits]
  | cons unit rest ih =>
    rw [leadingDigits]
    cases hdigit : digitValue unit with
    | none =>
      have hpos : 0 < 16 ^ (unit :: rest).length := Nat.pow_pos (by decide)
      exact Nat.lt_of_lt_of_le (Nat.lt_succ_self value) (Nat.le_mul_of_pos_right _ hpos)
    | some digit =>
      have hlt := digitValue_lt hdigit
      calc _ < (value * 16 + digit + 1) * 16 ^ rest.length := ih _
        _ ≤ ((value + 1) * 16) * 16 ^ rest.length := Nat.mul_le_mul_right _ (by omega)
        _ = (value + 1) * 16 ^ (unit :: rest).length := by
          rw [List.length_cons, Nat.pow_succ, Nat.mul_assoc, Nat.mul_comm 16]

/-- What is parsed is not longer than the text. -/
theorem length_stripHexMark_le (text : JsString) :
    (stripHexMark (splitSign (text.dropWhile isWhiteSpace)).2).length ≤ text.length := by
  have hstrip : ∀ text : JsString, (stripHexMark text).length ≤ text.length := by
    intro text
    unfold stripHexMark
    split
    · split
      · exact Nat.le_add_right _ 2
      · exact le_rfl
    · exact le_rfl
  have hsign : ∀ text : JsString, (splitSign text).2.length ≤ text.length := by
    intro text
    unfold splitSign
    split
    · exact le_rfl
    · split
      · exact Nat.le_succ _
      · split
        · exact Nat.le_succ _
        · exact le_rfl
  exact ((hstrip _).trans (hsign _)).trans (text.dropWhile_sublist _).length_le

/-- Two units are parsed to less than 256. -/
theorem parseInt16_lt {text : JsString} (hlength : text.length ≤ 2) {value : ℤ}
    (h : parseInt16 text = some value) : value < 256 := by
  simp only [parseInt16, Option.ite_none_left_eq_some, Option.some.injEq] at h
  obtain ⟨-, rfl⟩ := h
  have hspelled := foldl_leadingDigits_lt (stripHexMark (splitSign (text.dropWhile isWhiteSpace)).2) 0
  have hpow : 16 ^ (stripHexMark (splitSign (text.dropWhile isWhiteSpace)).2).length ≤ 16 ^ 2 :=
    Nat.pow_le_pow_right (by decide) ((length_stripHexMark_le text).trans hlength)
  have hsign : ∀ text : JsString, (splitSign text).1 = 1 ∨ (splitSign text).1 = -1 := by
    intro text
    unfold splitSign
    split
    · exact .inl rfl
    · split
      · exact .inr rfl
      · split <;> exact .inl rfl
  rcases hsign (text.dropWhile isWhiteSpace) with hpositive | hnegative
  · rw [hpositive]
    omega
  · rw [hnegative]
    omega

/-- A computation goes on with what the one before it returns. -/
theorem bind_eq_ok {α β : Type} {first : Except JsError α} {next : α → Except JsError β} {result : β} :
    first >>= next = .ok result ↔ ∃ value, first = .ok value ∧ next value = .ok result := by
  cases first with
  | error thrown => simp [bind, Except.bind]
  | ok value => simp [bind, Except.bind]

/-- A write in the middle of a buffer. -/
theorem setBytes_append {front middle back bytes : Bytes} {offset : ℕ} (hoffset : front.length = offset)
    (hlength : middle.length = bytes.length) :
    setBytes (front ++ middle ++ back) bytes offset = .ok (front ++ bytes ++ back) := by
  subst hoffset
  have hroom : ¬ (front ++ (middle ++ back)).length < front.length + bytes.length := by
    simp only [List.length_append]
    omega
  rw [List.append_assoc, setBytes, if_neg hroom, List.take_left, ← List.drop_drop, List.drop_left, ← hlength,
    List.drop_left]

/-- A write keeps the length of the buffer. -/
theorem length_of_setBytes {buffer bytes written : Bytes} {offset : ℕ}
    (h : setBytes buffer bytes offset = .ok written) : written.length = buffer.length := by
  unfold setBytes at h
  split at h
  · cases h
  · cases h
    simp only [List.length_append, List.length_take, List.length_drop]
    omega

/-- The hashed buffer has 94 bytes. -/
theorem length_of_hashBuffer {wallet : Wallet} {receiver : JsString} {amount nonce : ℤ} {buffer : Bytes}
    (h : hashBuffer wallet receiver amount nonce = .ok buffer) : buffer.length = 94 := by
  simp only [hashBuffer, bind_eq_ok, setBigUint64] at h
  obtain ⟨senderBytes, -, receiverBytes, -, first, hfirst, second, hsecond, third, hthird, fourth, hfourth,
    hlast⟩ := h
  rw [length_of_setBytes hlast, length_of_setBytes hfourth, length_of_setBytes hthird,
    length_of_setBytes hsecond, length_of_setBytes hfirst]
  rfl

/-- The buffer for a receiver of 32 bytes. -/
theorem hashBuffer_eq {wallet : Wallet} {receiver : JsString} {amount nonce : ℤ} {key receiverBytes : Bytes}
    (hkey : key.length = 32) (hpublic : wallet.publicKey = bytesToHex key)
    (hreceiver : hexToBytes receiver = .ok receiverBytes) (hlength : receiverBytes.length = 32) :
    hashBuffer wallet receiver amount nonce =
      .ok (key ++ receiverBytes ++ u64ToLeBytes (UInt64.ofInt nonce) ++ asBytes "NativeTransfer" ++
        u64ToLeBytes (UInt64.ofInt amount)) := by
  have hword : ∀ x, (u64ToLeBytes x).length = 8 := fun x => rfl
  have htag : (asBytes "NativeTransfer").length = 14 := rfl
  -- the five fields of the empty buffer
  have hzeros : (List.replicate (32 + 32 + 8 + (asBytes "NativeTransfer").length + 8) 0 : Bytes) =
      [] ++ List.replicate 32 0 ++ (List.replicate 32 0 ++ (List.replicate 8 0 ++
        (List.replicate 14 0 ++ List.replicate 8 0))) := rfl
  unfold hashBuffer setBigUint64
  rw [hpublic, hexToBytes_bytesToHex, hreceiver]
  simp only [bind, Except.bind]
  rw [hzeros, setBytes_append (by rfl) (by rw [List.length_replicate, hkey]), List.nil_append]
  dsimp only
  rw [← List.append_assoc, setBytes_append hkey (by rw [List.length_replicate, hlength])]
  dsimp only
  rw [← List.append_assoc, setBytes_append (by rw [List.length_append, hkey, hlength])
    (by rw [List.length_replicate, hword])]
  dsimp only
  rw [← List.append_assoc, setBytes_append (by simp only [List.length_append, hkey, hlength, hword])
    (by rw [List.length_replicate, htag])]
  dsimp only
  rw [← List.append_nil (List.replicate 8 0), ← List.append_assoc, setBytes_append
    (by simp only [List.length_append, hkey, hlength, hword, htag]) (by rw [List.length_replicate, hword]),
    List.append_nil]

/-- What a returned transfer was made of. -/
theorem signed_of_createAndSignTransaction {crypto : Crypto} {signAsync : Bytes → Bytes → Except JsError Bytes}
    {wallet : Wallet} {receiver : JsString} {amount nonce : ℤ} {signed : SignedTransfer}
    (h : createAndSignTransaction crypto signAsync wallet receiver amount nonce = .ok signed) :
    ∃ privateKey secret buffer signature, wallet.privateKey = some privateKey ∧
      hexToBytes privateKey = .ok secret ∧ hashBuffer wallet receiver amount nonce = .ok buffer ∧
      signAsync (crypto.sha256 buffer) secret = .ok signature ∧
      signed = ⟨wallet.publicKey, receiver, nonce, amount, bytesToHex signature⟩ := by
  unfold createAndSignTransaction at h
  split at h
  · cases h
  · cases h
  · rename_i privateKey _ hprivate
    simp only [bind_eq_ok, hexToBytes_bytesToHex, Except.ok.injEq, exists_eq_left'] at h
    obtain ⟨buffer, hbuffer, secret, hsecret, signature, hsignature, hreturn⟩ := h
    exact ⟨privateKey, secret, buffer, signature, hprivate, hsecret, hbuffer, hsignature,
      (Except.ok.inj hreturn).symm⟩

end BrowserWallet

namespace SendRoute

open BrowserWallet

/-- `hexToBytes` of the route: the numbers as parsed, `NaN` as the `null` it is in JSON. -/
def hexToBytes (hex : JsString) : List (Option ℤ) := (substrings hex).map parseInt16

/-- The JSON that the route sends to the node. -/
structure Body where
  sender : List (Option ℤ)
  receiver : List (Option ℤ)
  nonce : ℤ
  amount : ℤ
  signature : List (Option ℤ)

/-- `POST` up to the request to the node. -/
def post (body : SignedTransfer) : Body where
  sender := hexToBytes body.sender
  receiver := hexToBytes body.receiver
  nonce := body.nonce
  amount := body.amount
  signature := hexToBytes body.signature

/-- serde's `u8`: `null`, negative and larger numbers are refused. -/
def readU8 : Option ℤ → Option UInt8
  | none => none
  | some value => if 0 ≤ value ∧ value < 256 then some (UInt8.ofInt value) else none

/-- serde's `u64`. -/
def readU64 (value : ℤ) : Option UInt64 :=
  if 0 ≤ value ∧ value < 2 ^ 64 then some (UInt64.ofInt value) else none

/-- serde's `Vec<u8>`. -/
def readBytes : List (Option ℤ) → Option Bytes
  | [] => some []
  | value :: rest => do
    let byte ← readU8 value
    let bytes ← readBytes rest
    return byte :: bytes

/-- The transaction that the node reads, if it reads one. -/
def received (body : Body) : Option Transaction := do
  let sender ← readBytes body.sender
  let receiver ← readBytes body.receiver
  let nonce ← readU64 body.nonce
  let amount ← readU64 body.amount
  let signature ← readBytes body.signature
  return { sender, receiver, nonce, data := .nativeTransfer amount, signature }

/-- A byte is read from its number only. -/
theorem readU8_eq_some {value : Option ℤ} {byte : UInt8} :
    readU8 value = some byte ↔ value = some (byte.toNat : ℤ) := by
  have hlt := byte.toNat_lt
  cases value with
  | none => simp [readU8]
  | some value =>
    simp only [readU8, Option.ite_none_right_eq_some, Option.some.injEq]
    constructor
    · rintro ⟨hrange, rfl⟩
      rw [UInt8.ofInt, UInt8.toNat_ofNat']
      omega
    · rintro rfl
      exact ⟨by omega, toUint8_toNat byte⟩

/-- Bytes are read from their numbers only. -/
theorem readBytes_eq_some {values : List (Option ℤ)} {bytes : Bytes} :
    readBytes values = some bytes ↔ values = bytes.map fun byte => some (byte.toNat : ℤ) := by
  induction values generalizing bytes with
  | nil =>
    rw [readBytes, Option.some.injEq, List.nil_eq, List.nil_eq, List.map_eq_nil_iff]
  | cons value rest ih =>
    simp only [readBytes, Option.bind_eq_bind, Option.bind_eq_some_iff, readU8_eq_some, ih, Option.pure_def,
      Option.some.injEq]
    constructor
    · rintro ⟨byte, rfl, later, rfl, rfl⟩
      rfl
    · intro h
      cases bytes with
      | nil => cases h
      | cons byte later =>
        obtain ⟨hfirst, hrest⟩ := List.cons.inj h
        exact ⟨byte, hfirst, later, hrest, rfl⟩

/-- A number of 53 bits is read as it is. -/
theorem readU64_of_lt {value : ℤ} (hpos : 0 ≤ value) (hlt : value < 2 ^ 53) :
    readU64 value = some (UInt64.ofInt value) := if_pos ⟨hpos, by omega⟩

/-- The route hands the bytes on that a text of the wallet stands for. -/
theorem readBytes_bytesToHex (bytes : Bytes) : readBytes (hexToBytes (bytesToHex bytes)) = some bytes :=
  readBytes_eq_some.mpr (parseInt16_bytesToHex bytes)

/-- The node reads a posted transfer exactly when it reads the receiver. -/
theorem received_post {sender receiver : JsString} {amount nonce : ℤ} {key : Bytes} (signature : Bytes)
    (hsender : sender = bytesToHex key) (hamount : 0 ≤ amount ∧ amount < 2 ^ 53)
    (hnonce : 0 ≤ nonce ∧ nonce < 2 ^ 53) (tx : Transaction) :
    received (post ⟨sender, receiver, nonce, amount, bytesToHex signature⟩) = some tx ↔
      ∃ bytes, readBytes (hexToBytes receiver) = some bytes ∧
        ⟨key, bytes, UInt64.ofInt nonce, .nativeTransfer (UInt64.ofInt amount), signature⟩ = tx := by
  simp only [received, post, hsender, readBytes_bytesToHex, readU64_of_lt hamount.1 hamount.2,
    readU64_of_lt hnonce.1 hnonce.2, Option.bind_eq_bind, Option.bind_some, Option.bind_eq_some_iff,
    Option.pure_def, Option.some.injEq]

/-- A text that stands for a key as the node reads it: 64 units, and every two of them are parsed to a
number that is not negative. -/
def ReadsAsKey (text : JsString) : Prop :=
  text.length = 64 ∧ ∀ part ∈ substrings text, ∃ value, parseInt16 part = some value ∧ 0 ≤ value

/-- The node reads the bytes that the wallet hashed, if it reads any. -/
theorem hexToBytes_of_readBytes {text : JsString} {bytes walletBytes : Bytes}
    (hread : readBytes (hexToBytes text) = some bytes)
    (hwallet : BrowserWallet.hexToBytes text = .ok walletBytes) : walletBytes = bytes := by
  have hparsed := readBytes_eq_some.mp hread
  unfold BrowserWallet.hexToBytes at hwallet
  split at hwallet
  · cases hwallet
  · cases hwallet
    calc (substrings text).map (fun part => toUint8 (parseInt16 part))
        = (hexToBytes text).map toUint8 := by rw [hexToBytes, List.map_map]; rfl
      _ = bytes := by
        rw [hparsed, List.map_map]
        exact (List.map_congr_left fun byte _ => toUint8_toNat byte).trans (List.map_id bytes)

/-- The node reads some bytes exactly when all numbers are there and none is negative. -/
theorem exists_readBytes_iff {text : JsString} :
    (∃ bytes, readBytes (hexToBytes text) = some bytes) ↔
      ∀ part ∈ substrings text, ∃ value, parseInt16 part = some value ∧ 0 ≤ value := by
  constructor
  · rintro ⟨bytes, hread⟩ part hpart
    have hmem : parseInt16 part ∈ hexToBytes text := List.mem_map_of_mem hpart
    rw [readBytes_eq_some.mp hread] at hmem
    obtain ⟨byte, -, hvalue⟩ := List.mem_map.mp hmem
    exact ⟨byte.toNat, hvalue.symm, Int.natCast_nonneg _⟩
  · intro hparsed
    refine ⟨(substrings text).map fun part => toUint8 (parseInt16 part), readBytes_eq_some.mpr ?_⟩
    rw [hexToBytes, List.map_map]
    refine List.map_congr_left fun part hpart => ?_
    obtain ⟨value, hvalue, hpos⟩ := hparsed part hpart
    have hlt := parseInt16_lt (length_le_of_mem_substrings hpart) hvalue
    simp only [hvalue, Function.comp_apply, toUint8, UInt8.ofInt, UInt8.toNat_ofNat', Option.some.injEq]
    omega

end SendRoute

namespace BrowserWallet

variable {crypto : Crypto} {signAsync : Bytes → Bytes → Except JsError Bytes} {wallet : Wallet}
  {receiver : JsString} {amount nonce : ℤ} {signed : SignedTransfer} {key : Bytes} {privateKey : JsString}

/-- `@noble/ed25519` signs with a private key for the verifying key: what it signs is a signature of 64
bytes that verifies. -/
structure SignsFor (crypto : Crypto) (signAsync : Bytes → Bytes → Except JsError Bytes) (privateKey : JsString)
    (key : Bytes) : Prop where
  isVerifyingKey : crypto.isVerifyingKey key
  verifies : ∀ secret message signature, hexToBytes privateKey = .ok secret →
    signAsync message secret = .ok signature → signature.length = 64 ∧ crypto.verify key message signature

/-- The wallet hashed what the node hashes for the transaction it reads from the route, and the node
accepts the signature. -/
def SignsSame (crypto : Crypto) (wallet : Wallet) (receiver : JsString) (amount nonce : ℤ)
    (signed : SignedTransfer) : Prop :=
  ∃ buffer tx, hashBuffer wallet receiver amount nonce = .ok buffer ∧
    SendRoute.received (SendRoute.post signed) = some tx ∧ tx.hashInput = buffer ∧
    tx.validateSignature crypto = .ok ()

/-- Signing with keys that name themselves. -/
def plainSignAsync (message secret : Bytes) : Except JsError Bytes := .ok (Crypto.plain.sign secret message)

/-- The wallet of such a key. -/
def plainWallet (key : Bytes) : Wallet where
  publicKey := bytesToHex key
  privateKey := some (bytesToHex key)

/-- It signs for the key. -/
theorem signsFor_plainWallet {key : Bytes} (hkey : key.length = 32) :
    SignsFor Crypto.plain plainSignAsync (bytesToHex key) key where
  isVerifyingKey := decide_eq_true hkey
  verifies := by
    intro secret message signature hsecret hsign
    rw [hexToBytes_bytesToHex] at hsecret
    cases hsecret
    cases hsign
    exact ⟨rfl, decide_eq_true rfl⟩

/-- A receiver of 32 bytes is one of 64 units. -/
theorem length_of_hexToBytes {text : JsString} {bytes : Bytes} (h : hexToBytes text = .ok bytes) :
    text.length = 2 * bytes.length := by
  unfold hexToBytes at h
  split at h
  · cases h
  · cases h
    rw [List.length_map, length_substrings (by omega)]

/-- The node accepts a signature of 64 bytes that verifies. -/
theorem validateSignature_eq_ok {tx : Transaction} (hsender : tx.sender.length = 32)
    (hkey : crypto.isVerifyingKey tx.sender) (hlength : tx.signature.length = 64)
    (hverify : crypto.verify tx.sender (tx.hash crypto) tx.signature) : tx.validateSignature crypto = .ok () := by
  have hsigned : ¬ tx.signature.isEmpty := by
    intro hempty
    rw [List.isEmpty_iff.mp hempty] at hlength
    cases hlength
  rw [Transaction.validateSignature, if_neg hsigned, if_neg (not_not.mpr hsender), if_neg (not_not.mpr hkey),
    if_neg (not_not.mpr hlength), if_neg (not_not.mpr hverify)]

/-- A returned transfer is signed over what the node hashes exactly when its receiver reads as a key. -/
theorem signsSame_iff_readsAsKey (hkey : key.length = 32) (hpublic : wallet.publicKey = bytesToHex key)
    (hprivate : wallet.privateKey = some privateKey) (hsigner : SignsFor crypto signAsync privateKey key)
    (hamount : 0 ≤ amount ∧ amount < 2 ^ 53) (hnonce : 0 ≤ nonce ∧ nonce < 2 ^ 53)
    (hsigned : createAndSignTransaction crypto signAsync wallet receiver amount nonce = .ok signed) :
    SignsSame crypto wallet receiver amount nonce signed ↔ SendRoute.ReadsAsKey receiver := by
  obtain ⟨privateKey', secret, buffer, signature, hprivate', hsecret, hbuffer, hsignature, rfl⟩ :=
    signed_of_createAndSignTransaction hsigned
  obtain rfl : privateKey = privateKey' := Option.some.inj (hprivate.symm.trans hprivate')
  have hreceived := @SendRoute.received_post _ receiver _ _ _ signature hpublic hamount hnonce
  obtain ⟨receiverBytes, hreceiverBytes⟩ : ∃ receiverBytes, hexToBytes receiver = .ok receiverBytes := by
    simp only [hashBuffer, bind_eq_ok] at hbuffer
    obtain ⟨-, -, receiverBytes, hreceiverBytes, -⟩ := hbuffer
    exact ⟨receiverBytes, hreceiverBytes⟩
  have hlengths := length_of_hexToBytes hreceiverBytes
  constructor
  · rintro ⟨buffer', tx, hbuffer', hread, hinput, -⟩
    obtain rfl : buffer = buffer' := Except.ok.inj (hbuffer.symm.trans hbuffer')
    obtain ⟨bytes, hbytes, rfl⟩ := (hreceived tx).mp hread
    refine ⟨?_, SendRoute.exists_readBytes_iff.mp ⟨bytes, hbytes⟩⟩
    obtain rfl := SendRoute.hexToBytes_of_readBytes hbytes hreceiverBytes
    -- the node's input has 62 bytes more than the receiver, the buffer always 94
    have hsize := congrArg List.length hinput
    have hnode : (Transaction.hashInput ⟨key, receiverBytes, UInt64.ofInt nonce,
        .nativeTransfer (UInt64.ofInt amount), signature⟩).length = 32 + receiverBytes.length + 8 + (14 + 8) := by
      simp only [Transaction.hashInput, TransactionData.hashInput, List.length_append, hkey]
      rfl
    rw [hnode, length_of_hashBuffer hbuffer] at hsize
    omega
  · rintro ⟨hlength, hparsed⟩
    obtain ⟨bytes, hbytes⟩ := SendRoute.exists_readBytes_iff.mpr hparsed
    obtain rfl := SendRoute.hexToBytes_of_readBytes hbytes hreceiverBytes
    obtain rfl := Except.ok.inj (hbuffer.symm.trans (hashBuffer_eq hkey hpublic hreceiverBytes (by omega)))
    have hinput : Transaction.hashInput ⟨key, receiverBytes, UInt64.ofInt nonce,
        .nativeTransfer (UInt64.ofInt amount), signature⟩ = key ++ receiverBytes ++
          u64ToLeBytes (UInt64.ofInt nonce) ++ asBytes "NativeTransfer" ++ u64ToLeBytes (UInt64.ofInt amount) := by
      simp only [Transaction.hashInput, TransactionData.hashInput, List.append_assoc]
    refine ⟨_, _, hbuffer, (hreceived _).mpr ⟨receiverBytes, hbytes, rfl⟩, hinput, ?_⟩
    obtain ⟨hsize, hverify⟩ := hsigner.verifies secret _ signature hsecret hsignature
    rw [← hinput] at hverify
    exact validateSignature_eq_ok hkey hsigner.isVerifyingKey hsize hverify

/-- A value that is returned and checked when it is computed. -/
theorem exists_returned {α : Type} {result : Except JsError α} (check : α → Bool)
    (h : result.toOption.any check = true) : ∃ value, result = .ok value ∧ check value = true := by
  cases result with
  | error thrown => cases h
  | ok value => exact ⟨value, rfl, h⟩

/-- To Bob the wallet and the node sign the same. -/
theorem signsSame_iff_readsAsKey_bob :
    ∃ signed, createAndSignTransaction Crypto.plain plainSignAsync (plainWallet Sample.alice)
        (bytesToHex Sample.bob) 5 0 = .ok signed ∧
      (SignsSame Crypto.plain (plainWallet Sample.alice) (bytesToHex Sample.bob) 5 0 signed ↔
        SendRoute.ReadsAsKey (bytesToHex Sample.bob)) := by
  have hkey : Sample.alice.length = 32 := rfl
  obtain ⟨signed, hsigned, -⟩ := exists_returned (fun _ => true)
    (show (createAndSignTransaction Crypto.plain plainSignAsync (plainWallet Sample.alice)
      (bytesToHex Sample.bob) 5 0).toOption.any _ = true by decide +kernel)
  exact ⟨signed, hsigned,
    signsSame_iff_readsAsKey hkey rfl rfl (signsFor_plainWallet hkey) (by decide) (by decide) hsigned⟩

/-- To a receiver of four digits the wallet signs 94 bytes, and the node hashes 64. -/
theorem not_signsSame_of_short :
    ∃ signed, SignsFor Crypto.plain plainSignAsync (bytesToHex Sample.alice) Sample.alice ∧
      createAndSignTransaction Crypto.plain plainSignAsync
        (plainWallet Sample.alice) [0x61, 0x62, 0x63, 0x64] 5 0 = .ok signed ∧
      ¬ SignsSame Crypto.plain (plainWallet Sample.alice) [0x61, 0x62, 0x63, 0x64] 5 0 signed := by
  have hkey : Sample.alice.length = 32 := rfl
  obtain ⟨signed, hsigned, hread⟩ := exists_returned
    (fun signed => (SendRoute.received (SendRoute.post signed)).all fun tx => tx.hashInput.length != 94)
    (show (createAndSignTransaction Crypto.plain plainSignAsync
      (plainWallet Sample.alice) [0x61, 0x62, 0x63, 0x64] 5 0).toOption.any _ = true by decide +kernel)
  refine ⟨signed, signsFor_plainWallet hkey, hsigned, ?_⟩
  rintro ⟨buffer, tx, hbuffer, hreceived, hinput, -⟩
  rw [hreceived] at hread
  refine absurd (length_of_hashBuffer hbuffer) ?_
  rw [← hinput]
  exact bne_iff_ne.mp hread

end BrowserWallet

end Nocostcoin
