import Nocostcoin.Wallet

/-!
# The password of the browser wallet

`unlockWallet` and `changePassword` take a password for the right one when the stored key decrypts to any text
but the empty one. AES is a parameter of which only the round trip is assumed; another password may give any
text, or an error. `localStorage` takes every write.
-/

namespace Nocostcoin

namespace BrowserWallet

/-- `encrypt` and `decrypt` of the wallet. The cipher draws a salt for each encryption, and a decryption that
throws says what `String` makes of the thrown value. -/
structure PasswordCipher where
  encrypt : Bytes → JsString → JsString → JsString
  decrypt : JsString → JsString → Except String JsString

/-- What was encrypted is decrypted with the same password. -/
def PasswordCipher.Lawful (cipher : PasswordCipher) : Prop :=
  ∀ salt data password, cipher.decrypt (cipher.encrypt salt data password) password = .ok data

/-- `StoredWallet`. -/
structure StoredWallet where
  version : JsString
  encryptedPrivateKey : JsString
  publicKey : JsString
  address : JsString
  createdAt : ℤ
  encryptedMnemonic : Option JsString
  deriving DecidableEq

/-- `Session`. -/
structure Session where
  privateKey : JsString
  expiresAt : ℤ
  deriving DecidableEq

/-- The item under `STORAGE_KEY`: a wallet, or a text that `JSON.parse` does not take, with its error. -/
inductive StoredItem where
  | wallet (stored : StoredWallet)
  | unreadable (error : String)
  deriving DecidableEq

/-- The two items of `localStorage`; no wallet is also the empty text under its key. -/
structure LocalStorage where
  wallet : Option StoredItem
  session : Option Session
  deriving DecidableEq

/-- `SESSION_DURATION`, in milliseconds. -/
def sessionDuration : ℤ := 30 * 60 * 1000

/-- `createSession`. -/
def createSession (storage : LocalStorage) (now : ℤ) (privateKey : JsString) : LocalStorage :=
  { storage with session := some { privateKey, expiresAt := now + sessionDuration } }

/-- The wallet that is returned by `unlockWallet`. -/
structure UnlockedWallet extends Wallet where
  address : JsString

/-- `unlockWallet`: what it returns or throws, and the storage after it. -/
def unlockWallet (cipher : PasswordCipher) (storage : LocalStorage) (now : ℤ) (password : JsString) :
    Except JsError UnlockedWallet × LocalStorage :=
  match storage.wallet with
  | none => (.error (.error "No wallet found"), storage)
  | some (.unreadable _) => (.error (.error "Invalid password or corrupted wallet"), storage)
  | some (.wallet stored) =>
    match cipher.decrypt stored.encryptedPrivateKey password with
    | .error _ | .ok [] => (.error (.error "Invalid password or corrupted wallet"), storage)
    | .ok privateKeyHex =>
      (.ok { publicKey := stored.publicKey, privateKey := some privateKeyHex, address := stored.address },
        createSession storage now privateKeyHex)

/-- The mnemonic part of `changePassword`: encrypted anew if there is one. -/
def reencryptMnemonic (cipher : PasswordCipher) (salt : Bytes) (encryptedMnemonic : Option JsString)
    (oldPassword newPassword : JsString) : Except String (Option JsString) :=
  match encryptedMnemonic with
  | none | some [] => .ok none
  | some ciphertext =>
    (cipher.decrypt ciphertext oldPassword).map fun mnemonic => some (cipher.encrypt salt mnemonic newPassword)

/-- `changePassword`, with a salt for the key and one for the mnemonic. -/
def changePassword (cipher : PasswordCipher) (salt salt' : Bytes) (storage : LocalStorage) (now : ℤ)
    (oldPassword newPassword : JsString) : Except JsError Unit × LocalStorage :=
  match storage.wallet with
  | none => (.error (.error "No wallet found"), storage)
  | some (.unreadable error) => (.error (.error ("Failed to change password: " ++ error)), storage)
  | some (.wallet stored) =>
    match cipher.decrypt stored.encryptedPrivateKey oldPassword with
    | .error error => (.error (.error ("Failed to change password: " ++ error)), storage)
    | .ok [] => (.error (.error ("Failed to change password: " ++ "Error: Invalid password")), storage)
    | .ok privateKeyHex =>
      let encryptedPrivateKey := cipher.encrypt salt privateKeyHex newPassword
      match reencryptMnemonic cipher salt' stored.encryptedMnemonic oldPassword newPassword with
      | .error error => (.error (.error ("Failed to change password: " ++ error)), storage)
      | .ok encryptedMnemonic =>
        let updatedWallet := { stored with encryptedPrivateKey, encryptedMnemonic }
        (.ok (), createSession { storage with wallet := some (.wallet updatedWallet) } now privateKeyHex)

/-- The encrypted mnemonic; an empty text is taken for none. -/
def StoredWallet.sealedMnemonic (stored : StoredWallet) : Option JsString :=
  match stored.encryptedMnemonic with
  | none | some [] => none
  | some ciphertext => some ciphertext

/-- A stored wallet decrypts, with a password, to a key and to a mnemonic if it has one. -/
structure Seals (cipher : PasswordCipher) (stored : StoredWallet) (password privateKey : JsString)
    (mnemonic : Option JsString) : Prop where
  privateKey : cipher.decrypt stored.encryptedPrivateKey password = .ok privateKey
  mnemonic : stored.sealedMnemonic.map (cipher.decrypt · password) = mnemonic.map .ok

/-- The password change throws and leaves the stored wallet as it was, or the stored wallet decrypts, with
the new password, to the original key and mnemonic. -/
def ChangeSafe (cipher : PasswordCipher) (salt salt' : Bytes) (storage : LocalStorage) (now : ℤ)
    (oldPassword newPassword privateKey : JsString) (mnemonic : Option JsString) : Prop :=
  let (result, after) := changePassword cipher salt salt' storage now oldPassword newPassword
  (result ≠ .ok () ∧ after.wallet = storage.wallet) ∨
    ∃ stored, after.wallet = some (.wallet stored) ∧
      cipher.decrypt stored.encryptedPrivateKey newPassword = .ok privateKey ∧
      stored.encryptedMnemonic.map (cipher.decrypt · newPassword) = mnemonic.map .ok

/-- The unlocking throws and leaves the session as it was, or it opens one with the original key. -/
def UnlockSafe (cipher : PasswordCipher) (storage : LocalStorage) (now : ℤ)
    (password privateKey : JsString) : Prop :=
  let (result, after) := unlockWallet cipher storage now password
  ((∀ wallet, result ≠ .ok wallet) ∧ after.session = storage.session) ∨
    ∃ wallet session, result = .ok wallet ∧ wallet.privateKey = some privateKey ∧
      after.session = some session ∧ session.privateKey = privateKey

/-- The key decrypts, with a password, to an error or to nothing, or to the original. -/
def KeyHarmless (cipher : PasswordCipher) (stored : StoredWallet) (password privateKey : JsString) : Prop :=
  ∀ text, cipher.decrypt stored.encryptedPrivateKey password = .ok text → text = [] ∨ text = privateKey

/-- If the key decrypts to the original, the mnemonic decrypts to an error or to the original. -/
def MnemonicHarmless (cipher : PasswordCipher) (stored : StoredWallet) (password privateKey : JsString)
    (mnemonic : Option JsString) : Prop :=
  cipher.decrypt stored.encryptedPrivateKey password = .ok privateKey → privateKey ≠ [] →
    ∀ ciphertext text, stored.sealedMnemonic = some ciphertext → cipher.decrypt ciphertext password = .ok text →
      mnemonic = some text

variable {cipher : PasswordCipher} {storage : LocalStorage} {stored : StoredWallet} {salt salt' : Bytes}
  {now : ℤ} {password oldPassword newPassword privateKey text : JsString} {mnemonic : Option JsString}

theorem reencryptMnemonic_eq_ok_iff {result : Option JsString} :
    reencryptMnemonic cipher salt stored.encryptedMnemonic oldPassword newPassword = .ok result ↔
      (stored.sealedMnemonic = none ∧ result = none) ∨
        ∃ ciphertext text, stored.sealedMnemonic = some ciphertext ∧
          cipher.decrypt ciphertext oldPassword = .ok text ∧
          result = some (cipher.encrypt salt text newPassword) := by
  rw [StoredWallet.sealedMnemonic]
  rcases stored.encryptedMnemonic with _ | _ | ⟨unit, rest⟩
  · simp [reencryptMnemonic, eq_comm]
  · simp [reencryptMnemonic, eq_comm]
  · cases hdecrypt : cipher.decrypt (unit :: rest) oldPassword <;>
      simp [reencryptMnemonic, hdecrypt, Except.map, eq_comm]

/-- A wallet without a mnemonic keeps none, one with a mnemonic keeps what it decrypts to. -/
theorem map_decrypt_reencryptMnemonic {result : Option JsString} (hlawful : cipher.Lawful)
    (hresult : reencryptMnemonic cipher salt stored.encryptedMnemonic oldPassword newPassword = .ok result) :
    result.map (cipher.decrypt · newPassword) = stored.sealedMnemonic.map (cipher.decrypt · oldPassword) := by
  obtain ⟨hnone, rfl⟩ | ⟨ciphertext, text, hsome, hdecrypt, rfl⟩ := reencryptMnemonic_eq_ok_iff.mp hresult
  · rw [hnone]
    rfl
  · rw [hsome, Option.map_some, Option.map_some, hlawful, hdecrypt]

/-- The unlocking is safe exactly if the key decrypts to nothing harmful. -/
theorem unlockSafe_iff (hwallet : storage.wallet = some (.wallet stored)) :
    UnlockSafe cipher storage now password privateKey ↔ KeyHarmless cipher stored password privateKey := by
  simp only [UnlockSafe, KeyHarmless, unlockWallet, hwallet]
  cases hdecrypt : cipher.decrypt stored.encryptedPrivateKey password with
  | error error => simp
  | ok text => cases text <;> simp [createSession]

/-- The password change is safe exactly if, where it writes, it writes what was there. -/
theorem changeSafe_iff (hlawful : cipher.Lawful) (hwallet : storage.wallet = some (.wallet stored)) :
    ChangeSafe cipher salt salt' storage now oldPassword newPassword privateKey mnemonic ↔
      ∀ text result, cipher.decrypt stored.encryptedPrivateKey oldPassword = .ok text → text ≠ [] →
        reencryptMnemonic cipher salt' stored.encryptedMnemonic oldPassword newPassword = .ok result →
          text = privateKey ∧ stored.sealedMnemonic.map (cipher.decrypt · oldPassword) = mnemonic.map .ok := by
  simp only [ChangeSafe, changePassword, hwallet]
  cases hdecrypt : cipher.decrypt stored.encryptedPrivateKey oldPassword with
  | error error => simp [hwallet]
  | ok text =>
    cases text with
    | nil =>
      simp only [hwallet, ne_eq, reduceCtorEq, not_false_eq_true, and_self, true_or, Except.ok.injEq, true_iff]
      rintro text result rfl hnonempty
      exact absurd rfl hnonempty
    | cons unit rest =>
      cases hmnemonic : reencryptMnemonic cipher salt' stored.encryptedMnemonic oldPassword newPassword with
      | error error => simp [hwallet]
      | ok result =>
        simp [createSession, hlawful salt, map_decrypt_reencryptMnemonic hlawful hmnemonic]

/-- No password damages or impersonates the wallet exactly if the key decrypts, with it, to an error, to
nothing or to the original, and then the mnemonic to an error or to the original. -/
theorem passwordSafe_iff_harmless (hlawful : cipher.Lawful) (hwallet : storage.wallet = some (.wallet stored))
    (hseals : Seals cipher stored password privateKey mnemonic) :
    (ChangeSafe cipher salt salt' storage now oldPassword newPassword privateKey mnemonic ∧
        UnlockSafe cipher storage now oldPassword privateKey) ↔
      KeyHarmless cipher stored oldPassword privateKey ∧
        MnemonicHarmless cipher stored oldPassword privateKey mnemonic := by
  rw [unlockSafe_iff hwallet, changeSafe_iff hlawful hwallet, and_comm]
  refine and_congr_right fun hkey => ⟨fun hchange hdecrypt hnonempty ciphertext text hsealed htext => ?_,
    fun hmnemonic text result hdecrypt hnonempty hresult => ?_⟩
  · have hresult : reencryptMnemonic cipher salt' stored.encryptedMnemonic oldPassword newPassword =
        .ok (some (cipher.encrypt salt' text newPassword)) :=
      reencryptMnemonic_eq_ok_iff.mpr (.inr ⟨ciphertext, text, hsealed, htext, rfl⟩)
    have hsame := (hchange privateKey _ hdecrypt hnonempty hresult).2
    rw [hsealed, Option.map_some, htext] at hsame
    cases mnemonic with
    | none => cases hsame
    | some original => rw [Except.ok.inj (Option.some.inj hsame)]
  · obtain rfl := (hkey text hdecrypt).resolve_left hnonempty
    refine ⟨rfl, ?_⟩
    obtain ⟨hnone, -⟩ | ⟨ciphertext, text, hsealed, htext, -⟩ := reencryptMnemonic_eq_ok_iff.mp hresult
    · rw [hnone, ← hseals.mnemonic, hnone]
      rfl
    · rw [hsealed, hmnemonic hdecrypt hnonempty ciphertext text hsealed htext, Option.map_some, Option.map_some,
        htext]

/-- A cipher that shifts every code unit by the length of the password. -/
def shiftCipher : PasswordCipher where
  encrypt _ data password := data.map (· + UInt16.ofNat password.length)
  decrypt ciphertext password := .ok (ciphertext.map (· - UInt16.ofNat password.length))

theorem shiftCipher_lawful : shiftCipher.Lawful := by
  intro salt data password
  simp [shiftCipher, Function.comp_def]

/-- A wallet of the key `"13"` and the mnemonic `"ab"`, both under the password `"x"`. -/
def shiftedWallet : StoredWallet where
  version := [0x31, 0x2E, 0x30]
  encryptedPrivateKey := shiftCipher.encrypt [] [0x31, 0x33] [0x78]
  publicKey := []
  address := []
  createdAt := 0
  encryptedMnemonic := some (shiftCipher.encrypt [] [0x61, 0x62] [0x78])

theorem shiftedWallet_seals : Seals shiftCipher shiftedWallet [0x78] [0x31, 0x33] (some [0x61, 0x62]) where
  privateKey := rfl
  mnemonic := rfl

/-- The storage of the shifted wallet, without a session. -/
def shiftedStorage : LocalStorage where
  wallet := some (.wallet shiftedWallet)
  session := none

/-- With its own password the wallet is safe. -/
theorem passwordSafe_iff_harmless_shifted :
    ChangeSafe shiftCipher [] [] shiftedStorage 0 [0x78] [0x79, 0x7A] [0x31, 0x33] (some [0x61, 0x62]) ∧
      UnlockSafe shiftCipher shiftedStorage 0 [0x78] [0x31, 0x33] := by
  refine (passwordSafe_iff_harmless shiftCipher_lawful rfl shiftedWallet_seals).mpr ⟨?_, ?_⟩
  · intro text htext
    exact .inr (Except.ok.inj htext).symm
  · intro _ _ ciphertext text hciphertext htext
    obtain rfl := Option.some.inj hciphertext
    rw [← Except.ok.inj htext]
    rfl

/-- Under the wrong password `"xx"` the key decrypts to `"02"`: the unlocking opens a session with it, and the
password change puts it in the place of the only copy of `"13"`. -/
theorem not_passwordSafe_of_wrongPassword :
    shiftCipher.Lawful ∧ Seals shiftCipher shiftedWallet [0x78] [0x31, 0x33] (some [0x61, 0x62]) ∧
      ¬ ChangeSafe shiftCipher [] [] shiftedStorage 0 [0x78, 0x78] [0x79] [0x31, 0x33] (some [0x61, 0x62]) ∧
      ¬ UnlockSafe shiftCipher shiftedStorage 0 [0x78, 0x78] [0x31, 0x33] := by
  refine ⟨shiftCipher_lawful, shiftedWallet_seals, ?_, ?_⟩
  · rintro (⟨hthrows, -⟩ | ⟨stored, hstored, hkey, -⟩)
    · exact hthrows rfl
    · obtain rfl := StoredItem.wallet.inj (Option.some.inj hstored)
      exact absurd hkey (by decide)
  · rintro (⟨hthrows, -⟩ | ⟨wallet, session, hresult, hkey, -⟩)
    · exact hthrows _ rfl
    · obtain rfl := Except.ok.inj hresult
      exact absurd hkey (by decide)

end BrowserWallet

end Nocostcoin
