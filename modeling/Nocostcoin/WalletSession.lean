import Nocostcoin.Library.Execution
import Nocostcoin.Library.IdleLimit
import Nocostcoin.WalletPassword

/-!
# The sessions of the browser wallet

The unlocked key lies in `localStorage` with a time at which it expires, half an hour after the wallet was opened
or the session refreshed. All functions of the wallet work on the two items of that storage, whatever tab calls
them, and whatever their order.
-/

namespace Nocostcoin

open Execution

namespace BrowserWallet

/-- `mnemonicToSeedSync` and `getPublicKeyAsync`. -/
structure KeyDerivation where
  seedOf : JsString → Bytes
  publicKeyOf : Bytes → Bytes

/-- `trim`. -/
def trim (text : JsString) : JsString :=
  ((text.dropWhile isWhiteSpace).reverse.dropWhile isWhiteSpace).reverse

/-- What `createWallet` and `importWallet` do with a private key: the wallet is stored, under the key and the
mnemonic encrypted with the password, and a session is opened. -/
def enterWallet (cipher : PasswordCipher) (keys : KeyDerivation) (salt salt' : Bytes) (storage : LocalStorage)
    (now : ℤ) (privateKey : Bytes) (mnemonic password : JsString) : UnlockedWallet × LocalStorage :=
  let publicKey := bytesToHex (keys.publicKeyOf privateKey)
  let storedWallet :=
    { version := [0x31, 0x2E, 0x30]
      encryptedPrivateKey := cipher.encrypt salt (bytesToHex privateKey) password
      publicKey
      address := publicKey
      createdAt := now
      encryptedMnemonic := some (cipher.encrypt salt' mnemonic password) }
  ({ publicKey, privateKey := some (bytesToHex privateKey), address := publicKey },
    createSession { storage with wallet := some (.wallet storedWallet) } now (bytesToHex privateKey))

/-- `createWallet`, given the mnemonic that is generated. -/
def createWallet (cipher : PasswordCipher) (keys : KeyDerivation) (salt salt' : Bytes) (storage : LocalStorage)
    (now : ℤ) (mnemonic password : JsString) : (UnlockedWallet × JsString) × LocalStorage :=
  let entered := enterWallet cipher keys salt salt' storage now ((keys.seedOf mnemonic).take 32) mnemonic password
  ((entered.1, mnemonic), entered.2)

/-- `importWallet`: the key is that of the trimmed mnemonic, and the mnemonic is stored as it was typed. -/
def importWallet (cipher : PasswordCipher) (keys : KeyDerivation) (salt salt' : Bytes) (storage : LocalStorage)
    (now : ℤ) (mnemonic password : JsString) : UnlockedWallet × LocalStorage :=
  enterWallet cipher keys salt salt' storage now ((keys.seedOf (trim mnemonic)).take 32) mnemonic password

/-- `lockWallet`. -/
def lockWallet (storage : LocalStorage) : LocalStorage := { storage with session := none }

/-- `hasWallet`. -/
def hasWallet (storage : LocalStorage) : Bool := storage.wallet.isSome

/-- `isWalletUnlocked`: an expired session is removed. -/
def isWalletUnlocked (storage : LocalStorage) (now : ℤ) : Bool × LocalStorage :=
  match storage.session with
  | none => (false, storage)
  | some session => if session.expiresAt < now then (false, lockWallet storage) else (true, storage)

/-- `getUnlockedWallet`. -/
def getUnlockedWallet (storage : LocalStorage) (now : ℤ) : Option UnlockedWallet × LocalStorage :=
  match isWalletUnlocked storage now with
  | (false, storage) => (none, storage)
  | (true, storage) =>
    match storage.session, storage.wallet with
    | some session, some (.wallet stored) =>
      (some { publicKey := stored.publicKey, privateKey := some session.privateKey, address := stored.address },
        storage)
    | _, _ => (none, storage)

/-- `getWalletAddress`. -/
def getWalletAddress (storage : LocalStorage) : Option JsString :=
  match storage.wallet with
  | some (.wallet stored) => some stored.address
  | _ => none

/-- `exportMnemonic`. -/
def exportMnemonic (cipher : PasswordCipher) (storage : LocalStorage) (password : JsString) :
    Except JsError JsString :=
  match storage.wallet with
  | none => .error (.error "No wallet found")
  | some (.unreadable error) => .error (.error ("Failed to export mnemonic: " ++ error))
  | some (.wallet stored) =>
    match stored.sealedMnemonic with
    | none =>
      .error (.error ("Failed to export mnemonic: " ++ "Error: Mnemonic not available for this wallet"))
    | some ciphertext =>
      match cipher.decrypt ciphertext password with
      | .error error => .error (.error ("Failed to export mnemonic: " ++ error))
      | .ok [] => .error (.error ("Failed to export mnemonic: " ++ "Error: Invalid password"))
      | .ok mnemonic => .ok mnemonic

/-- `deleteWallet`. -/
def deleteWallet (_storage : LocalStorage) : LocalStorage := ⟨none, none⟩

/-- `refreshSession`. -/
def refreshSession (storage : LocalStorage) (now : ℤ) : LocalStorage :=
  match storage.session, isWalletUnlocked storage now with
  | some session, (true, storage) =>
      { storage with session := some { session with expiresAt := now + sessionDuration } }
  | _, (_, storage) => storage

/-- `exportWallet`. -/
def exportWallet (storage : LocalStorage) : Option StoredItem := storage.wallet

/-- One call of a function of the wallet, with what it draws at random. -/
inductive WalletCall where
  | createWallet (salt salt' : Bytes) (mnemonic password : JsString)
  | importWallet (salt salt' : Bytes) (mnemonic password : JsString)
  | unlockWallet (password : JsString)
  | lockWallet
  | hasWallet
  | isWalletUnlocked
  | getUnlockedWallet
  | getWalletAddress
  | exportMnemonic (password : JsString)
  | deleteWallet
  | refreshSession
  | exportWallet
  | changePassword (salt salt' : Bytes) (oldPassword newPassword : JsString)

/-- What a function of the wallet returns. -/
inductive WalletAnswer where
  | done
  | verdict (answer : Bool)
  | wallet (found : Option UnlockedWallet)
  | text (found : Option JsString)
  | stored (found : Option StoredItem)

/-- A call at a time. -/
structure TimedCall where
  now : ℤ
  call : WalletCall

/-- Make a call: what it returns or throws, and the storage after it. -/
def serve (cipher : PasswordCipher) (keys : KeyDerivation) (storage : LocalStorage) (timed : TimedCall) :
    Option (Except JsError WalletAnswer × LocalStorage) :=
  match timed.call with
  | .createWallet salt salt' mnemonic password =>
    let created := createWallet cipher keys salt salt' storage timed.now mnemonic password
    some (.ok (.wallet (some created.1.1)), created.2)
  | .importWallet salt salt' mnemonic password =>
    let imported := importWallet cipher keys salt salt' storage timed.now mnemonic password
    some (.ok (.wallet (some imported.1)), imported.2)
  | .unlockWallet password =>
    let unlocked := unlockWallet cipher storage timed.now password
    some (unlocked.1.map fun wallet => .wallet (some wallet), unlocked.2)
  | .lockWallet => some (.ok .done, lockWallet storage)
  | .hasWallet => some (.ok (.verdict (hasWallet storage)), storage)
  | .isWalletUnlocked =>
    some (.ok (.verdict (isWalletUnlocked storage timed.now).1), (isWalletUnlocked storage timed.now).2)
  | .getUnlockedWallet =>
    some (.ok (.wallet (getUnlockedWallet storage timed.now).1), (getUnlockedWallet storage timed.now).2)
  | .getWalletAddress => some (.ok (.text (getWalletAddress storage)), storage)
  | .exportMnemonic password => some ((exportMnemonic cipher storage password).map (.text ∘ some), storage)
  | .deleteWallet => some (.ok .done, deleteWallet storage)
  | .refreshSession => some (.ok .done, refreshSession storage timed.now)
  | .exportWallet => some (.ok (.stored (exportWallet storage)), storage)
  | .changePassword salt salt' oldPassword newPassword =>
    let changed := changePassword cipher salt salt' storage timed.now oldPassword newPassword
    some (changed.1.map fun _ => .done, changed.2)

/-- What the key of the stored wallet decrypts to with a password. -/
def decryptedKey (cipher : PasswordCipher) (storage : LocalStorage) (password : JsString) : Option JsString :=
  match storage.wallet with
  | some (.wallet stored) => (cipher.decrypt stored.encryptedPrivateKey password).toOption
  | _ => none

/-- The key that a call is about: creating and importing take it from the mnemonic, unlocking and a change of the
password decrypt the stored one. -/
def keyOfCall (cipher : PasswordCipher) (keys : KeyDerivation) (storage : LocalStorage) :
    WalletCall → Option JsString
  | .createWallet _ _ mnemonic _ => some (bytesToHex ((keys.seedOf mnemonic).take 32))
  | .importWallet _ _ mnemonic _ => some (bytesToHex ((keys.seedOf (trim mnemonic)).take 32))
  | .unlockWallet password => decryptedKey cipher storage password
  | .changePassword _ _ oldPassword _ => decryptedKey cipher storage oldPassword
  | _ => none

/-- What a call is for the session: one that is about a key opens a session with it if it succeeds. -/
def sessionEvents (cipher : PasswordCipher) (keys : KeyDerivation) :
    IdleLimit.Events (Call LocalStorage TimedCall (Except JsError WalletAnswer)) JsString where
  time call := call.label.now
  opens call :=
    match call.output with
    | .ok _ => keyOfCall cipher keys call.pre call.label.call
    | .error _ => none
  closes call :=
    match call.label.call with
    | .lockWallet | .deleteWallet => true
    | _ => false
  uses call :=
    match call.label.call with
    | .refreshSession => true
    | _ => false

/-- The key is in use at a time: it was opened and not locked or deleted since, the session was refreshed every
half hour, and no more than half an hour has passed since. -/
def InUse (cipher : PasswordCipher) (keys : KeyDerivation)
    (calls : List (Call LocalStorage TimedCall (Except JsError WalletAnswer))) (now : ℤ) (key : JsString) : Prop :=
  ∃ last, IdleLimit.Lasts (sessionEvents cipher keys) sessionDuration calls key last ∧
    now ≤ last + sessionDuration

variable {cipher : PasswordCipher} {keys : KeyDerivation} {storage storage' : LocalStorage} {timed : TimedCall}
  {output : Except JsError WalletAnswer} {now : ℤ}
  {calls : List (Call LocalStorage TimedCall (Except JsError WalletAnswer))}

/-- A check of the session keeps it, or removes it when it has expired. -/
theorem session_isWalletUnlocked (storage : LocalStorage) (now : ℤ) :
    (isWalletUnlocked storage now).2 = storage ∨
      (isWalletUnlocked storage now = (false, lockWallet storage) ∧
        ∃ session, storage.session = some session ∧ session.expiresAt < now) := by
  unfold isWalletUnlocked
  cases hsession : storage.session with
  | none => exact .inl rfl
  | some session =>
    dsimp only
    split
    · rename_i hexpired
      exact .inr ⟨rfl, session, rfl, hexpired⟩
    · exact .inl rfl

theorem isWalletUnlocked_eq_true_iff : (isWalletUnlocked storage now).1 = true ↔
    ∃ session, storage.session = some session ∧ now ≤ session.expiresAt := by
  unfold isWalletUnlocked
  cases hsession : storage.session with
  | none => simp
  | some session => by_cases hexpired : session.expiresAt < now <;> simp [hexpired, not_lt.mp, not_le.mpr]

/-- What is shown as unlocked is the stored wallet with the key of a session that has not expired. -/
theorem getUnlockedWallet_eq_some_iff {wallet : UnlockedWallet} :
    (getUnlockedWallet storage now).1 = some wallet ↔ ∃ session stored, storage.session = some session ∧
      now ≤ session.expiresAt ∧ storage.wallet = some (.wallet stored) ∧
      wallet =
        { publicKey := stored.publicKey, privateKey := some session.privateKey, address := stored.address } := by
  unfold getUnlockedWallet isWalletUnlocked
  cases hsession : storage.session with
  | none => simp
  | some session =>
    dsimp only
    by_cases hexpired : session.expiresAt < now
    · rw [if_pos hexpired]
      simp [hexpired]
    · rw [if_neg hexpired]
      dsimp only
      rw [hsession]
      rcases hwallet : storage.wallet with _ | stored | error <;> simp [not_lt.mp hexpired, eq_comm]

/-- Unlocking throws and changes nothing, or opens a session with what the stored key decrypts to. -/
theorem unlockWallet_cases (cipher : PasswordCipher) (storage : LocalStorage) (now : ℤ) (password : JsString) :
    (∃ error, unlockWallet cipher storage now password = (.error error, storage)) ∨
      ∃ stored privateKey wallet, storage.wallet = some (.wallet stored) ∧
        cipher.decrypt stored.encryptedPrivateKey password = .ok privateKey ∧ privateKey ≠ [] ∧
        unlockWallet cipher storage now password = (.ok wallet, createSession storage now privateKey) := by
  unfold unlockWallet
  rcases hwallet : storage.wallet with _ | stored | error
  · exact .inl ⟨_, rfl⟩
  · dsimp only
    rcases hdecrypt : cipher.decrypt stored.encryptedPrivateKey password with error | _ | ⟨unit, rest⟩
    · exact .inl ⟨_, rfl⟩
    · exact .inl ⟨_, rfl⟩
    · exact .inr ⟨stored, unit :: rest, _, rfl, hdecrypt, List.cons_ne_nil unit rest, rfl⟩
  · exact .inl ⟨_, rfl⟩

/-- A change of the password throws and changes nothing, or stores the wallet anew and opens a session with what
the stored key decrypted to. -/
theorem changePassword_cases (cipher : PasswordCipher) (salt salt' : Bytes) (storage : LocalStorage) (now : ℤ)
    (oldPassword newPassword : JsString) :
    (∃ error, changePassword cipher salt salt' storage now oldPassword newPassword = (.error error, storage)) ∨
      ∃ stored updated privateKey, storage.wallet = some (.wallet stored) ∧
        cipher.decrypt stored.encryptedPrivateKey oldPassword = .ok privateKey ∧ privateKey ≠ [] ∧
        updated.publicKey = stored.publicKey ∧ updated.address = stored.address ∧
        changePassword cipher salt salt' storage now oldPassword newPassword =
          (.ok (), createSession { storage with wallet := some (.wallet updated) } now privateKey) := by
  unfold changePassword
  rcases hwallet : storage.wallet with _ | stored | error
  · exact .inl ⟨_, rfl⟩
  · dsimp only
    rcases hdecrypt : cipher.decrypt stored.encryptedPrivateKey oldPassword with error | _ | ⟨unit, rest⟩
    · exact .inl ⟨_, rfl⟩
    · exact .inl ⟨_, rfl⟩
    · dsimp only
      cases reencryptMnemonic cipher salt' stored.encryptedMnemonic oldPassword newPassword with
      | error error => exact .inl ⟨_, rfl⟩
      | ok encryptedMnemonic =>
        exact .inr ⟨stored,
          { stored with
            encryptedPrivateKey := cipher.encrypt salt (unit :: rest) newPassword
            encryptedMnemonic },
          unit :: rest, rfl, hdecrypt, List.cons_ne_nil unit rest, rfl, rfl, rfl⟩
  · exact .inl ⟨_, rfl⟩

/-- Refreshing extends a session that has not expired, and removes one that has. -/
theorem refreshSession_cases (storage : LocalStorage) (now : ℤ) :
    (storage.session = none ∧ refreshSession storage now = storage) ∨
      ∃ session, storage.session = some session ∧
        ((session.expiresAt < now ∧ refreshSession storage now = lockWallet storage) ∨
          (now ≤ session.expiresAt ∧ refreshSession storage now =
            { storage with session := some { session with expiresAt := now + sessionDuration } })) := by
  unfold refreshSession isWalletUnlocked
  cases hsession : storage.session with
  | none => exact .inl ⟨rfl, rfl⟩
  | some session =>
    refine .inr ⟨session, rfl, ?_⟩
    by_cases hexpired : session.expiresAt < now
    · exact .inl ⟨hexpired, by simp [hexpired]⟩
    · exact .inr ⟨not_lt.mp hexpired, by simp [hexpired]⟩

/-- What reading the unlocked wallet leaves behind is what the check of the session leaves. -/
theorem getUnlockedWallet_snd (storage : LocalStorage) (now : ℤ) :
    (getUnlockedWallet storage now).2 = (isWalletUnlocked storage now).2 := by
  unfold getUnlockedWallet
  rcases isWalletUnlocked storage now with ⟨_ | _, after⟩
  · rfl
  · dsimp only
    split <;> rfl

theorem decryptedKey_eq_some {stored : StoredWallet} {password privateKey : JsString}
    (hwallet : storage.wallet = some (.wallet stored))
    (hdecrypt : cipher.decrypt stored.encryptedPrivateKey password = .ok privateKey) :
    decryptedKey cipher storage password = some privateKey := by
  unfold decryptedKey
  rw [hwallet]
  dsimp only
  rw [hdecrypt]
  rfl

/-- What a call does to the session. -/
theorem session_of_serve (h : serve cipher keys storage timed = some (output, storage')) :
    (∃ key, (sessionEvents cipher keys).opens ⟨storage, timed, output, storage'⟩ = some key ∧
      storage'.session = some ⟨key, timed.now + sessionDuration⟩) ∨
    ((sessionEvents cipher keys).opens ⟨storage, timed, output, storage'⟩ = none ∧
      (((sessionEvents cipher keys).closes ⟨storage, timed, output, storage'⟩ = true ∧ storage'.session = none) ∨
        (sessionEvents cipher keys).closes ⟨storage, timed, output, storage'⟩ = false ∧
          (((sessionEvents cipher keys).uses ⟨storage, timed, output, storage'⟩ = true ∧
              storage' = refreshSession storage timed.now) ∨
            (sessionEvents cipher keys).uses ⟨storage, timed, output, storage'⟩ = false ∧
              (storage'.session = storage.session ∨ storage'.session = none ∧
                ∃ session, storage.session = some session ∧ session.expiresAt < timed.now)))) := by
  obtain ⟨now, call⟩ := timed
  have hchecked : ∀ now, (isWalletUnlocked storage now).2.session = storage.session ∨
      (isWalletUnlocked storage now).2.session = none ∧
        ∃ session, storage.session = some session ∧ session.expiresAt < now := by
    intro now
    rcases session_isWalletUnlocked storage now with hkept | ⟨hremoved, hexpired⟩
    · exact .inl (by rw [hkept])
    · exact .inr ⟨by rw [hremoved]; rfl, hexpired⟩
  cases call with
  | createWallet | importWallet =>
    obtain ⟨rfl, rfl⟩ := Prod.mk.inj (Option.some.inj h)
    exact .inl ⟨_, rfl, rfl⟩
  | unlockWallet password =>
    obtain ⟨rfl, rfl⟩ := Prod.mk.inj (Option.some.inj h)
    rcases unlockWallet_cases cipher storage now password with
      ⟨error, hthrown⟩ | ⟨stored, privateKey, wallet, hwallet, hdecrypt, -, hopened⟩
    · rw [hthrown]
      exact .inr ⟨rfl, .inr ⟨rfl, .inr ⟨rfl, .inl rfl⟩⟩⟩
    · rw [hopened]
      exact .inl ⟨privateKey, decryptedKey_eq_some hwallet hdecrypt, rfl⟩
  | changePassword salt salt' oldPassword newPassword =>
    obtain ⟨rfl, rfl⟩ := Prod.mk.inj (Option.some.inj h)
    rcases changePassword_cases cipher salt salt' storage now oldPassword newPassword with
      ⟨error, hthrown⟩ | ⟨stored, updated, privateKey, hwallet, hdecrypt, -, -, -, hopened⟩
    · rw [hthrown]
      exact .inr ⟨rfl, .inr ⟨rfl, .inr ⟨rfl, .inl rfl⟩⟩⟩
    · rw [hopened]
      exact .inl ⟨privateKey, decryptedKey_eq_some hwallet hdecrypt, rfl⟩
  | lockWallet | deleteWallet =>
    obtain ⟨rfl, rfl⟩ := Prod.mk.inj (Option.some.inj h)
    exact .inr ⟨rfl, .inl ⟨rfl, rfl⟩⟩
  | refreshSession =>
    obtain ⟨rfl, rfl⟩ := Prod.mk.inj (Option.some.inj h)
    exact .inr ⟨rfl, .inr ⟨rfl, .inl ⟨rfl, rfl⟩⟩⟩
  | isWalletUnlocked =>
    obtain ⟨rfl, rfl⟩ := Prod.mk.inj (Option.some.inj h)
    exact .inr ⟨rfl, .inr ⟨rfl, .inr ⟨rfl, hchecked now⟩⟩⟩
  | getUnlockedWallet =>
    obtain ⟨rfl, rfl⟩ := Prod.mk.inj (Option.some.inj h)
    dsimp only
    rw [getUnlockedWallet_snd]
    exact .inr ⟨rfl, .inr ⟨rfl, .inr ⟨rfl, hchecked now⟩⟩⟩
  | exportMnemonic password =>
    obtain ⟨rfl, rfl⟩ := Prod.mk.inj (Option.some.inj h)
    refine .inr ⟨?_, .inr ⟨rfl, .inr ⟨rfl, .inl rfl⟩⟩⟩
    cases exportMnemonic cipher storage password <;> rfl
  | hasWallet | getWalletAddress | exportWallet =>
    obtain ⟨rfl, rfl⟩ := Prod.mk.inj (Option.some.inj h)
    exact .inr ⟨rfl, .inr ⟨rfl, .inr ⟨rfl, .inl rfl⟩⟩⟩

/-- The stored session is the one that lasts, with half an hour from its last use on. Where none is stored, one
that lasts had expired at some call. -/
structure Tracks (cipher : PasswordCipher) (keys : KeyDerivation)
    (calls : List (Call LocalStorage TimedCall (Except JsError WalletAnswer))) (storage : LocalStorage) :
    Prop where
  stored : ∀ session, storage.session = some session →
    IdleLimit.sessionAfter (sessionEvents cipher keys) sessionDuration calls =
      some (session.privateKey, session.expiresAt - sessionDuration)
  gone : storage.session = none → ∀ key last,
    IdleLimit.sessionAfter (sessionEvents cipher keys) sessionDuration calls = some (key, last) →
      ∃ call ∈ calls, last + sessionDuration < call.label.now

/-- The times of the calls do not go back, and the time now is none before them. -/
def Clocked (calls : List (Call LocalStorage TimedCall (Except JsError WalletAnswer))) (now : ℤ) : Prop :=
  (calls.map fun call => call.label.now).Pairwise (· ≤ ·) ∧ ∀ call ∈ calls, call.label.now ≤ now

/-- One more call at a later time. -/
theorem Tracks.serve (htracks : Tracks cipher keys calls storage)
    (hclock : ∀ call ∈ calls, call.label.now ≤ timed.now)
    (h : serve cipher keys storage timed = some (output, storage')) :
    Tracks cipher keys (calls ++ [⟨storage, timed, output, storage'⟩]) storage' := by
  have hlater : ∀ last, (∃ call ∈ calls, last + sessionDuration < call.label.now) →
      ∃ call ∈ calls ++ [⟨storage, timed, output, storage'⟩], last + sessionDuration < call.label.now := by
    rintro last ⟨call, hcall, hexpired⟩
    exact ⟨call, List.mem_append_left _ hcall, hexpired⟩
  rcases session_of_serve h with ⟨key, hopens, hsession⟩ | ⟨hopens, ⟨hcloses, hsession⟩ | ⟨hcloses,
    ⟨huses, rfl⟩ | ⟨huses, hsession | ⟨hsession, session, hstored, hexpired⟩⟩⟩⟩
  · -- a session is opened
    constructor
    · intro session hsome
      obtain rfl := Option.some.inj (hsession.symm.trans hsome)
      rw [IdleLimit.sessionAfter_snoc, IdleLimit.after, hopens]
      simp [sessionEvents]
    · intro hnone
      rw [hsession] at hnone
      contradiction
  · -- it is closed
    constructor
    · intro session hsome
      rw [hsession] at hsome
      contradiction
    · intro _ key last hlast
      rw [IdleLimit.sessionAfter_snoc, IdleLimit.after, hopens] at hlast
      simp [hcloses] at hlast
  · -- it is refreshed
    have hused : IdleLimit.sessionAfter (sessionEvents cipher keys) sessionDuration
        (calls ++ [⟨storage, timed, output, refreshSession storage timed.now⟩]) =
          (IdleLimit.sessionAfter (sessionEvents cipher keys) sessionDuration calls).bind fun opened =>
            if timed.now ≤ opened.2 + sessionDuration then some (opened.1, timed.now) else none := by
      rw [IdleLimit.sessionAfter_snoc, IdleLimit.after, hopens]
      simp only [hcloses, huses, Bool.false_eq_true, if_false, if_true]
      rfl
    constructor
    · intro after hafter
      rcases refreshSession_cases storage timed.now with ⟨hnone, hsame⟩ | ⟨session, hsession, ⟨-, hlocked⟩ |
        ⟨hvalid, hextended⟩⟩
      · rw [hsame, hnone] at hafter
        contradiction
      · rw [hlocked] at hafter
        contradiction
      · rw [hextended] at hafter
        obtain rfl := Option.some.inj hafter
        rw [hused, htracks.stored session hsession, Option.bind_some, if_pos (by omega), add_sub_cancel_right]
    · intro hnone key last hlast
      rw [hused] at hlast
      obtain ⟨⟨found, earlier⟩, hearlier, hrefreshed⟩ := Option.bind_eq_some_iff.mp hlast
      dsimp only at hrefreshed
      split at hrefreshed
      · rename_i hintime
        -- a session refreshed in time is still there
        exfalso
        rcases refreshSession_cases storage timed.now with ⟨hmissing, -⟩ | ⟨session, hsession, ⟨hexpired, -⟩ |
          ⟨-, hextended⟩⟩
        · obtain ⟨call, hcall, hexpired⟩ := htracks.gone hmissing found earlier hearlier
          have hbefore := hclock call hcall
          omega
        · rw [htracks.stored session hsession] at hearlier
          obtain ⟨-, rfl⟩ := Prod.mk.inj (Option.some.inj hearlier)
          omega
        · rw [hextended] at hnone
          contradiction
      · contradiction
  · -- it is left as it was
    have hsame : IdleLimit.sessionAfter (sessionEvents cipher keys) sessionDuration
        (calls ++ [⟨storage, timed, output, storage'⟩]) =
          IdleLimit.sessionAfter (sessionEvents cipher keys) sessionDuration calls := by
      rw [IdleLimit.sessionAfter_snoc, IdleLimit.after, hopens]
      simp [hcloses, huses]
    constructor
    · rw [hsession, hsame]
      exact htracks.stored
    · rw [hsession, hsame]
      exact fun hnone key last hlast => hlater last (htracks.gone hnone key last hlast)
  · -- it is found expired
    constructor
    · intro after hafter
      rw [hsession] at hafter
      contradiction
    · intro _ key last hlast
      rw [IdleLimit.sessionAfter_snoc, IdleLimit.after, hopens] at hlast
      simp only [hcloses, huses, Bool.false_eq_true, if_false] at hlast
      rw [htracks.stored session hstored] at hlast
      obtain ⟨-, rfl⟩ := Prod.mk.inj (Option.some.inj hlast)
      exact ⟨_, List.mem_append_right _ (List.mem_singleton_self _), by dsimp only; omega⟩

/-- Wherever a session is stored, so is a wallet, and its key goes with that wallet. -/
def SessionMatches (Goes : StoredWallet → JsString → Prop) (storage : LocalStorage) : Prop :=
  ∀ session, storage.session = some session →
    ∃ stored, storage.wallet = some (.wallet stored) ∧ Goes stored session.privateKey

/-- The private key is the one that the public key and the address of the stored wallet come from. -/
def Fits (keys : KeyDerivation) (stored : StoredWallet) (privateKey : JsString) : Prop :=
  ∃ bytes, privateKey = bytesToHex bytes ∧ stored.publicKey = bytesToHex (keys.publicKeyOf bytes) ∧
    stored.address = stored.publicKey

/-- The passwords that a call tries on the stored wallet. -/
def WalletCall.tried : WalletCall → List JsString
  | .unlockWallet password => [password]
  | .changePassword _ _ oldPassword _ => [oldPassword]
  | _ => []

/-- The stored key decrypts, with a password that the call tries, to an error, to nothing, or to the key of the
wallet. -/
def Harmless (cipher : PasswordCipher) (keys : KeyDerivation)
    (call : Call LocalStorage TimedCall (Except JsError WalletAnswer)) : Prop :=
  ∀ stored, call.pre.wallet = some (.wallet stored) → ∀ password ∈ call.label.call.tried, ∀ text,
    cipher.decrypt stored.encryptedPrivateKey password = .ok text → text = [] ∨ Fits keys stored text

section Matching

variable {Goes : StoredWallet → JsString → Prop}

theorem SessionMatches.isWalletUnlocked (h : SessionMatches Goes storage) (now : ℤ) :
    SessionMatches Goes (isWalletUnlocked storage now).2 := by
  rcases session_isWalletUnlocked storage now with hkept | ⟨hremoved, -⟩
  · rwa [hkept]
  · rw [hremoved]
    intro session hsession
    contradiction

/-- A call keeps the session matched to the wallet, if new wallets match their keys, what the wallet shows
decides what matches it, and what the tried passwords decrypt matches. -/
theorem SessionMatches.serve (hmatches : SessionMatches Goes storage)
    (hentered : ∀ stored privateKey, Fits keys stored privateKey → Goes stored privateKey)
    (hshown : ∀ stored updated privateKey, updated.publicKey = stored.publicKey →
      updated.address = stored.address → Goes stored privateKey → Goes updated privateKey)
    (htried : ∀ stored, storage.wallet = some (.wallet stored) → ∀ password ∈ timed.call.tried, ∀ text,
      cipher.decrypt stored.encryptedPrivateKey password = .ok text → text ≠ [] → Goes stored text)
    (h : serve cipher keys storage timed = some (output, storage')) : SessionMatches Goes storage' := by
  obtain ⟨now, call⟩ := timed
  cases call with
  | createWallet | importWallet =>
    obtain ⟨rfl, rfl⟩ := Prod.mk.inj (Option.some.inj h)
    intro session hsession
    obtain rfl := Option.some.inj hsession
    exact ⟨_, rfl, hentered _ _ ⟨_, rfl, rfl, rfl⟩⟩
  | unlockWallet password =>
    obtain ⟨rfl, rfl⟩ := Prod.mk.inj (Option.some.inj h)
    rcases unlockWallet_cases cipher storage now password with
      ⟨error, hthrown⟩ | ⟨stored, privateKey, wallet, hwallet, hdecrypt, hnonempty, hopened⟩
    · rwa [hthrown]
    · rw [hopened]
      intro session hsession
      obtain rfl := Option.some.inj hsession
      exact ⟨stored, hwallet,
        htried stored hwallet password (List.mem_singleton_self _) privateKey hdecrypt hnonempty⟩
  | changePassword salt salt' oldPassword newPassword =>
    obtain ⟨rfl, rfl⟩ := Prod.mk.inj (Option.some.inj h)
    rcases changePassword_cases cipher salt salt' storage now oldPassword newPassword with
      ⟨error, hthrown⟩ | ⟨stored, updated, privateKey, hwallet, hdecrypt, hnonempty, hpublic, haddress, hopened⟩
    · rwa [hthrown]
    · rw [hopened]
      intro session hsession
      obtain rfl := Option.some.inj hsession
      exact ⟨updated, rfl, hshown stored updated privateKey hpublic haddress
        (htried stored hwallet oldPassword (List.mem_singleton_self _) privateKey hdecrypt hnonempty)⟩
  | lockWallet | deleteWallet =>
    obtain ⟨rfl, rfl⟩ := Prod.mk.inj (Option.some.inj h)
    intro session hsession
    contradiction
  | refreshSession =>
    obtain ⟨rfl, rfl⟩ := Prod.mk.inj (Option.some.inj h)
    rcases refreshSession_cases storage now with ⟨-, hsame⟩ | ⟨session, hsession, ⟨-, hlocked⟩ | ⟨-, hextended⟩⟩
    · rwa [hsame]
    · rw [hlocked]
      intro other hother
      contradiction
    · rw [hextended]
      intro other hother
      obtain rfl := Option.some.inj hother
      exact hmatches session hsession
  | isWalletUnlocked =>
    obtain ⟨rfl, rfl⟩ := Prod.mk.inj (Option.some.inj h)
    exact hmatches.isWalletUnlocked now
  | getUnlockedWallet =>
    obtain ⟨rfl, rfl⟩ := Prod.mk.inj (Option.some.inj h)
    dsimp only
    rw [getUnlockedWallet_snd]
    exact hmatches.isWalletUnlocked now
  | hasWallet | getWalletAddress | exportWallet | exportMnemonic =>
    obtain ⟨rfl, rfl⟩ := Prod.mk.inj (Option.some.inj h)
    exact hmatches

end Matching

/-- The storage of a browser that was never used. -/
def LocalStorage.empty : LocalStorage := ⟨none, none⟩

/-- The stored session is the one that lasts, in every run. -/
theorem tracks_of_run (hrun : Run (serve cipher keys) .empty calls storage)
    (hclock : (calls.map fun call => call.label.now).Pairwise (· ≤ ·)) : Tracks cipher keys calls storage := by
  induction hrun with
  | nil => exact ⟨fun _ hsession => (nomatch hsession), fun _ _ _ hlast => (nomatch hlast)⟩
  | snoc hrun hnext ih =>
    rw [List.map_append] at hclock
    obtain ⟨hbefore, -, hlater⟩ := List.pairwise_append.mp hclock
    refine (ih hbefore).serve ?_ hnext
    intro call hcall
    exact hlater _ (List.mem_map_of_mem hcall) _ (List.mem_singleton_self _)

/-- Where a session is stored, a wallet is stored that can be read. -/
theorem sessionMatches_of_run (hrun : Run (serve cipher keys) .empty calls storage) :
    SessionMatches (fun _ _ => True) storage := by
  induction hrun with
  | nil => exact fun _ hsession => nomatch hsession
  | snoc _ hnext ih =>
    exact ih.serve (fun _ _ _ => trivial) (fun _ _ _ _ _ _ => trivial) (fun _ _ _ _ _ _ _ => trivial) hnext

/-- Where the passwords are harmless, its key is that of the wallet. -/
theorem fits_of_run (hrun : Run (serve cipher keys) .empty calls storage)
    (hharmless : ∀ call ∈ calls, Harmless cipher keys call) : SessionMatches (Fits keys) storage := by
  induction hrun with
  | nil => exact fun _ hsession => nomatch hsession
  | snoc _ hnext ih =>
    obtain ⟨hbefore, hlast⟩ := List.forall_mem_append.mp hharmless
    refine (ih hbefore).serve (fun _ _ hfits => hfits) ?_ ?_ hnext
    · intro stored updated privateKey hpublic haddress ⟨bytes, hprivate, hbytes, hsame⟩
      exact ⟨bytes, hprivate, hpublic.trans hbytes, by rw [haddress, hsame, hpublic]⟩
    · intro stored hstored password hpassword text hdecrypt hnonempty
      exact (hlast _ (List.mem_singleton_self _) stored hstored password hpassword text hdecrypt).resolve_left
        hnonempty

/-- The stored session has not expired exactly if its key is in use. -/
theorem inUse_iff_session (htracks : Tracks cipher keys calls storage)
    (hclock : ∀ call ∈ calls, call.label.now ≤ now)
    (key : JsString) : InUse cipher keys calls now key ↔
      ∃ session, storage.session = some session ∧ session.privateKey = key ∧ now ≤ session.expiresAt := by
  constructor
  · rintro ⟨last, hlasts, hintime⟩
    have hlast := IdleLimit.sessionAfter_eq_some_iff.mpr hlasts
    cases hsession : storage.session with
    | none =>
      obtain ⟨call, hcall, hexpired⟩ := htracks.gone hsession key last hlast
      have hbefore := hclock call hcall
      omega
    | some session =>
      rw [htracks.stored session hsession] at hlast
      obtain ⟨hkey, rfl⟩ := Prod.mk.inj (Option.some.inj hlast)
      exact ⟨session, rfl, hkey, by omega⟩
  · rintro ⟨session, hsession, rfl, hvalid⟩
    exact ⟨_, IdleLimit.sessionAfter_eq_some_iff.mp (htracks.stored session hsession), by omega⟩

/-- Whatever the calls, the wallet shows a private key exactly while it is in use, and it counts as unlocked
exactly while it shows one. If no password that was tried decrypts the stored key to another text, the wallet
that is shown has the key that its public key and its address come from. -/
theorem shown_iff_inUse (hrun : Run (serve cipher keys) .empty calls storage) (hclock : Clocked calls now) :
    (∀ key, (∃ wallet, (getUnlockedWallet storage now).1 = some wallet ∧ wallet.privateKey = some key) ↔
      InUse cipher keys calls now key) ∧
    ((isWalletUnlocked storage now).1 = true ↔ ∃ wallet, (getUnlockedWallet storage now).1 = some wallet) ∧
    ((∀ call ∈ calls, Harmless cipher keys call) →
      ∀ wallet, (getUnlockedWallet storage now).1 = some wallet → ∃ bytes,
        wallet.privateKey = some (bytesToHex bytes) ∧ wallet.publicKey = bytesToHex (keys.publicKeyOf bytes) ∧
          wallet.address = wallet.publicKey) := by
  have hmatches := sessionMatches_of_run hrun
  refine ⟨?_, ?_, ?_⟩
  · intro key
    rw [inUse_iff_session (tracks_of_run hrun hclock.1) hclock.2]
    constructor
    · rintro ⟨wallet, hshown, hkey⟩
      obtain ⟨session, stored, hsession, hvalid, -, rfl⟩ := getUnlockedWallet_eq_some_iff.mp hshown
      exact ⟨session, hsession, Option.some.inj hkey, hvalid⟩
    · rintro ⟨session, hsession, rfl, hvalid⟩
      obtain ⟨stored, hstored, -⟩ := hmatches session hsession
      exact ⟨_, getUnlockedWallet_eq_some_iff.mpr ⟨session, stored, hsession, hvalid, hstored, rfl⟩, rfl⟩
  · rw [isWalletUnlocked_eq_true_iff]
    constructor
    · rintro ⟨session, hsession, hvalid⟩
      obtain ⟨stored, hstored, -⟩ := hmatches session hsession
      exact ⟨_, getUnlockedWallet_eq_some_iff.mpr ⟨session, stored, hsession, hvalid, hstored, rfl⟩⟩
    · rintro ⟨wallet, hshown⟩
      obtain ⟨session, stored, hsession, hvalid, -, -⟩ := getUnlockedWallet_eq_some_iff.mp hshown
      exact ⟨session, hsession, hvalid⟩
  · intro hharmless wallet hshown
    obtain ⟨session, stored, hsession, -, hstored, rfl⟩ := getUnlockedWallet_eq_some_iff.mp hshown
    obtain ⟨stored', hstored', bytes, hprivate, hpublic, haddress⟩ := fits_of_run hrun hharmless session hsession
    obtain rfl : stored = stored' := StoredItem.wallet.inj (Option.some.inj (hstored.symm.trans hstored'))
    exact ⟨bytes, congrArg some hprivate, hpublic, haddress⟩

/-- Keys that are their own public keys, and the low bytes of the mnemonic. -/
def plainKeys : KeyDerivation where
  seedOf mnemonic := mnemonic.map (·.toUInt8)
  publicKeyOf privateKey := privateKey

/-- A wallet is created under `"x"`, locked, unlocked, and its session refreshed twenty minutes later. -/
def refreshedCalls : List TimedCall :=
  [⟨0, .createWallet [] [] [0x61, 0x62] [0x78]⟩, ⟨10, .lockWallet⟩, ⟨20, .unlockWallet [0x78]⟩,
    ⟨1200000, .refreshSession⟩]

/-- The key of the mnemonic `"ab"` is shown forty minutes after it was unlocked. -/
theorem shown_iff_inUse_refreshed :
    ∃ calls storage, Run (serve shiftCipher plainKeys) .empty calls storage ∧
      calls.map Call.label = refreshedCalls ∧
      InUse shiftCipher plainKeys calls 2400000 (bytesToHex [0x61, 0x62]) ∧
      ∀ wallet, (getUnlockedWallet storage 2400000).1 = some wallet →
        wallet.address = wallet.publicKey ∧ wallet.publicKey = bytesToHex [0x61, 0x62] := by
  obtain ⟨calls, storage, hrun, hlabels, hcheck⟩ := Run.exists_of_trace (serve shiftCipher plainKeys) .empty
    refreshedCalls (fun calls storage => decide (
      ((getUnlockedWallet storage 2400000).1.map (·.privateKey)) = some (some (bytesToHex [0x61, 0x62])) ∧
      ∀ call ∈ calls, ∀ stored ∈ call.pre.wallet, ∀ password ∈ call.label.call.tried,
        stored = .wallet { version := [0x31, 0x2E, 0x30]
                           encryptedPrivateKey := shiftCipher.encrypt [] (bytesToHex [0x61, 0x62]) password
                           publicKey := bytesToHex [0x61, 0x62]
                           address := bytesToHex [0x61, 0x62]
                           createdAt := 0
                           encryptedMnemonic := some (shiftCipher.encrypt [] [0x61, 0x62] [0x78]) }))
    (by decide +kernel)
  obtain ⟨hshown, hstored⟩ := of_decide_eq_true hcheck
  have hclock : Clocked calls 2400000 := by
    have htimes : (calls.map fun call => call.label.now) = refreshedCalls.map TimedCall.now := by
      rw [← hlabels, List.map_map]
      rfl
    refine ⟨by rw [htimes]; decide, ?_⟩
    intro call hcall
    have htime : call.label.now ∈ refreshedCalls.map TimedCall.now := by
      rw [← htimes]
      exact List.mem_map_of_mem hcall
    revert htime
    generalize call.label.now = time
    simp only [refreshedCalls, List.map_cons, List.map_nil, List.mem_cons, List.not_mem_nil, or_false]
    omega
  obtain ⟨hiff, -, hfits⟩ := shown_iff_inUse hrun hclock
  obtain ⟨wallet, hwallet, hkey⟩ := Option.map_eq_some_iff.mp hshown
  have hharmless : ∀ call ∈ calls, Harmless shiftCipher plainKeys call := by
    intro call hcall stored hwallet password hpassword text hdecrypt
    obtain rfl := StoredItem.wallet.inj (hstored call hcall _ hwallet password hpassword)
    rw [shiftCipher_lawful] at hdecrypt
    exact .inr ⟨[0x61, 0x62], (Except.ok.inj hdecrypt).symm, rfl, rfl⟩
  refine ⟨calls, storage, hrun, hlabels, (hiff _).mp ⟨wallet, hwallet, hkey⟩, ?_⟩
  intro shown hsame
  obtain rfl := Option.some.inj (hwallet.symm.trans hsame)
  obtain ⟨bytes, hprivate, hpublic, haddress⟩ := hfits hharmless wallet hwallet
  have hbytes := hexToBytes_bytesToHex bytes
  rw [Option.some.inj (hprivate.symm.trans hkey), hexToBytes_bytesToHex] at hbytes
  obtain rfl := Except.ok.inj hbytes
  exact ⟨haddress, hpublic⟩

end BrowserWallet

end Nocostcoin
