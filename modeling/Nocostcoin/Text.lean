import Mathlib.Data.Nat.Digits.Defs
import Std.Data.String.ToNat
import Nocostcoin.TransactionEncoding

/-!
# Texts as bytes

How bytes are read as text, as `String::from_utf8` and `String::from_utf8_lossy` do: what is the encoding of
a text is that text, and in anything else the bytes that belong to no character are found one after the
other. Numbers and hexadecimal digits are written without a colon, so a colon next to them separates.
-/

namespace Nocostcoin

/-- The text that some bytes encode, if they encode one. -/
def bytesToText (bytes : Bytes) : Option String := String.fromUTF8? ⟨bytes.toArray⟩

/-- A text is read back from its bytes. -/
@[simp] theorem bytesToText_asBytes (text : String) : bytesToText (asBytes text) = some text := by
  have hvalid : ByteArray.IsValidUTF8 ⟨text.toUTF8.data⟩ := text.isValidUTF8
  unfold bytesToText asBytes String.fromUTF8?
  rw [Array.toArray_toList, dif_pos hvalid]
  rfl

/-- What stands at the head of some bytes: a whole character, bytes that begin none, or the beginning of
one that the bytes break off in. -/
inductive Utf8Chunk where
  | character (length : ℕ)
  | invalid (length : ℕ)
  | cut (length : ℕ)

/-- The number of bytes that a first byte announces, zero where no character begins with it. -/
def utf8Width (first : UInt8) : ℕ :=
  if first < 0x80 then 1
  else if 0xC2 ≤ first ∧ first ≤ 0xDF then 2
  else if 0xE0 ≤ first ∧ first ≤ 0xEF then 3
  else if 0xF0 ≤ first ∧ first ≤ 0xF4 then 4
  else 0

/-- The second bytes that may follow a first one. -/
def utf8SecondFits (first second : UInt8) : Bool :=
  if first = 0xE0 then 0xA0 ≤ second && second ≤ 0xBF
  else if first = 0xED then 0x80 ≤ second && second ≤ 0x9F
  else if first = 0xF0 then 0x90 ≤ second && second ≤ 0xBF
  else if first = 0xF4 then 0x80 ≤ second && second ≤ 0x8F
  else 0x80 ≤ second && second ≤ 0xBF

/-- The bytes of a character from its third one on, so many of which are still to come. -/
def utf8Tail : ℕ → ℕ → Bytes → Utf8Chunk
  | 0, length, _ => .character length
  | _ + 1, length, [] => .cut length
  | missing + 1, length, byte :: rest =>
      if 0x80 ≤ byte ∧ byte ≤ 0xBF then utf8Tail missing (length + 1) rest else .invalid length

/-- The chunk at the head of some bytes. -/
def utf8Chunk (first : UInt8) (rest : Bytes) : Utf8Chunk :=
  match utf8Width first with
  | 0 => .invalid 1
  | 1 => .character 1
  | width =>
    match rest with
    | [] => .cut 1
    | second :: rest => if utf8SecondFits first second then utf8Tail (width - 2) 2 rest else .invalid 1

/-- The text of the error about the first bytes that belong to no character, from an index on. -/
def utf8ErrorFrom : ℕ → ℕ → Bytes → String
  | 0, _, _ | _, _, [] => ""
  | fuel + 1, index, first :: rest =>
    match utf8Chunk first rest with
    | .character length => utf8ErrorFrom fuel (index + length) ((first :: rest).drop length)
    | .invalid length =>
        "invalid utf-8 sequence of " ++ toString length ++ " bytes from index " ++ toString index
    | .cut _ => "incomplete utf-8 byte sequence from index " ++ toString index

/-- `String::from_utf8`, with the text of its error. -/
def fromUtf8 (bytes : Bytes) : Except String String :=
  match bytesToText bytes with
  | some text => .ok text
  | none => .error (utf8ErrorFrom bytes.length 0 bytes)

/-- Every run of bytes that belong to no character becomes a replacement character. -/
def replaceInvalid : ℕ → Bytes → String
  | 0, _ | _, [] => ""
  | fuel + 1, first :: rest =>
    match utf8Chunk first rest with
    | .character length =>
        (bytesToText ((first :: rest).take length)).getD "" ++
          replaceInvalid fuel ((first :: rest).drop length)
    | .invalid length | .cut length => "\uFFFD" ++ replaceInvalid fuel ((first :: rest).drop length)

/-- `String::from_utf8_lossy`. -/
def fromUtf8Lossy (bytes : Bytes) : String :=
  (bytesToText bytes).getD (replaceInvalid bytes.length bytes)

@[simp] theorem fromUtf8_asBytes (text : String) : fromUtf8 (asBytes text) = .ok text := by
  rw [fromUtf8, bytesToText_asBytes]

@[simp] theorem fromUtf8Lossy_asBytes (text : String) : fromUtf8Lossy (asBytes text) = text := by
  rw [fromUtf8Lossy, bytesToText_asBytes, Option.getD_some]

/-- Joined texts have joined bytes. -/
theorem asBytes_append (s t : String) : asBytes (s ++ t) = asBytes s ++ asBytes t := by
  simp [asBytes, String.toUTF8]

section Separator

variable {α : Type} {separator : α} {head head' tail tail' : List α}

/-- What stands in front of the first separator and what stands behind it are determined. -/
theorem eq_of_first_separator (hhead : separator ∉ head) (hhead' : separator ∉ head')
    (h : head ++ separator :: tail = head' ++ separator :: tail') : head = head' ∧ tail = tail' := by
  induction head generalizing head' with
  | nil =>
    cases head' with
    | nil => exact ⟨rfl, (List.cons.inj h).2⟩
    | cons a rest' => exact absurd (List.cons.inj h).1 (List.ne_of_not_mem_cons hhead')
  | cons a rest ih =>
    cases head' with
    | nil => exact absurd (List.cons.inj h).1.symm (List.ne_of_not_mem_cons hhead)
    | cons a' rest' =>
      obtain ⟨rfl, hrest⟩ := List.cons.inj h
      obtain ⟨rfl, htail⟩ := ih (List.not_mem_of_not_mem_cons hhead)
        (List.not_mem_of_not_mem_cons hhead') hrest
      exact ⟨rfl, htail⟩

/-- So are what stands in front of the last one and behind it. -/
theorem eq_of_last_separator (htail : separator ∉ tail) (htail' : separator ∉ tail')
    (h : head ++ separator :: tail = head' ++ separator :: tail') : head = head' ∧ tail = tail' := by
  have hreversed := congrArg List.reverse h
  simp only [List.reverse_append, List.reverse_cons, List.append_assoc, List.singleton_append] at hreversed
  obtain ⟨hback, hfront⟩ := eq_of_first_separator (by simpa using htail) (by simpa using htail') hreversed
  exact ⟨List.reverse_injective hfront, List.reverse_injective hback⟩

end Separator

/-- The characters of two texts with a colon between them. -/
theorem toList_colon (s t : String) : (s ++ ":" ++ t).toList = s.toList ++ ':' :: t.toList := by
  simp

/-- A decimal number is written without a colon. -/
theorem colon_notMem_decimal (n : UInt64) : ':' ∉ (toString n).toList := by
  intro hmem
  change ':' ∈ (Nat.repr n.toNat).toList at hmem
  rw [Nat.toList_repr] at hmem
  have hdigit := Nat.isDigit_of_mem_toDigits (by decide) (by decide) hmem
  contradiction

/-- Different numbers are written differently. -/
theorem decimal_injective : Function.Injective (toString : UInt64 → String) := by
  intro n n' h
  exact UInt64.toNat_inj.mp (Nat.repr_inj.mp h)

/-- Hexadecimal text has no colon. -/
theorem colon_notMem_hex (bytes : Bytes) : ':' ∉ (hexEncode bytes).toList := by
  have hall : ∀ n : Fin 256, hexDigit (UInt8.ofNat n >>> 4) ≠ ':' ∧ hexDigit (UInt8.ofNat n &&& 0x0F) ≠ ':' := by
    decide +kernel
  intro hmem
  rw [hexEncode, String.toList_ofList, List.mem_flatMap] at hmem
  obtain ⟨byte, -, hbyte⟩ := hmem
  have hdigits := hall ⟨byte.toNat, byte.toNat_lt⟩
  rw [UInt8.ofNat_toNat] at hdigits
  rcases List.mem_cons.mp hbyte with hhigh | hlow
  · exact hdigits.1 hhigh.symm
  · exact hdigits.2 (List.mem_singleton.mp hlow).symm

end Nocostcoin
