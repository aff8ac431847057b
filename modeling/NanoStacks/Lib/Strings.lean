import NanoStacks.Lib.Bytes

/-!
# Texts as bytes

A text and its UTF-8 bytes determine each other (`utf8_inj`), and for ASCII the bytes are the characters
one by one. A byte is written as two hexadecimal digits; what is read back may be in either case, so
that only lower-case digits are the writing of what they are read as (`hexText_of_unhex`).
-/

namespace NanoStacks

open List

/-! ## UTF-8 -/

/-- The UTF-8 bytes of a text. -/
def utf8 (text : String) : List UInt8 := text.toList.flatMap String.utf8EncodeChar

/-- The text of some ASCII bytes. -/
def ofAscii (bytes : List UInt8) : String := String.ofList (bytes.map fun b => Char.ofNat b.toNat)

def IsAscii (text : String) : Prop := ∀ c ∈ text.toList, c.toNat < 128

theorem toNat_ofNat_of_lt : ∀ n < 128, (Char.ofNat n).toNat = n := by decide

theorem utf8EncodeChar_of_lt {c : Char} (h : c.toNat < 128) :
    String.utf8EncodeChar c = [UInt8.ofNat c.toNat] := by
  rw [String.utf8EncodeChar]
  exact if_pos (show c.toNat ≤ 127 by omega)

variable {text : String}

theorem utf8_of_isAscii (h : IsAscii text) :
    utf8 text = text.toList.map fun c => UInt8.ofNat c.toNat := by
  rw [utf8]
  unfold IsAscii at h
  generalize text.toList = cs at h ⊢
  induction cs with
  | nil => rfl
  | cons c cs ih =>
    rw [flatMap_cons, utf8EncodeChar_of_lt (h c mem_cons_self),
      ih fun d hd => h d (mem_cons_of_mem _ hd)]
    rfl

theorem ofAscii_utf8 (h : IsAscii text) : ofAscii (utf8 text) = text := by
  rw [utf8_of_isAscii h, ofAscii, map_map]
  have hsame : text.toList.map ((fun b : UInt8 => Char.ofNat b.toNat) ∘ fun c => UInt8.ofNat c.toNat)
      = text.toList.map id := by
    refine map_congr_left fun c hc => ?_
    have hlt := h c hc
    rw [Function.comp_apply, UInt8.toNat_ofNat', Nat.mod_eq_of_lt (by omega), id]
    exact Char.ofNat_toNat c
  rw [hsame, map_id, String.ofList_toList]

theorem ascii_of_isAscii (h : IsAscii text) : ∀ b ∈ utf8 text, b.toNat < 128 := by
  rw [utf8_of_isAscii h]
  intro b hb
  obtain ⟨c, hc, rfl⟩ := mem_map.1 hb
  have hlt := h c hc
  rw [UInt8.toNat_ofNat']
  omega

variable {bytes : List UInt8}

theorem isAscii_ofAscii (h : ∀ b ∈ bytes, b.toNat < 128) : IsAscii (ofAscii bytes) := by
  intro c hc
  rw [ofAscii, String.toList_ofList] at hc
  obtain ⟨b, hb, rfl⟩ := mem_map.1 hc
  rw [toNat_ofNat_of_lt _ (h b hb)]
  exact h b hb

theorem utf8_ofAscii (h : ∀ b ∈ bytes, b.toNat < 128) : utf8 (ofAscii bytes) = bytes := by
  rw [utf8_of_isAscii (isAscii_ofAscii h), ofAscii, String.toList_ofList, map_map]
  have hsame : bytes.map ((fun c : Char => UInt8.ofNat c.toNat) ∘ fun b => Char.ofNat b.toNat)
      = bytes.map id := by
    refine map_congr_left fun b hb => ?_
    rw [Function.comp_apply, toNat_ofNat_of_lt _ (h b hb), UInt8.ofNat_toNat, id]
  rw [hsame, map_id]

theorem utf8_inj {s t : String} (h : utf8 s = utf8 t) : s = t := by
  have hencode : s.toList.utf8Encode = t.toList.utf8Encode := by
    rw [utf8Encode, utf8Encode]
    exact congrArg toByteArray h
  have hdecode := congrArg ByteArray.utf8Decode? hencode
  rw [utf8Decode?_utf8Encode, utf8Decode?_utf8Encode] at hdecode
  have hlist : s.toList = t.toList := by simpa using hdecode
  exact String.toList_inj.1 hlist

@[simp] theorem utf8_append (s t : String) : utf8 (s ++ t) = utf8 s ++ utf8 t := by
  rw [utf8, utf8, utf8, String.toList_append, flatMap_append]

/-- The text whose UTF-8 some bytes are. -/
def fromUtf8 (bytes : List UInt8) : Option String := String.fromUTF8? bytes.toByteArray

theorem toByteArray_utf8 (text : String) : (utf8 text).toByteArray = text.toByteArray := by
  conv_rhs => rw [← String.ofList_toList (s := text)]
  rw [String.toByteArray_ofList, utf8Encode, utf8]

theorem fromUtf8_eq_some : fromUtf8 bytes = some text ↔ utf8 text = bytes := by
  have hsame : utf8 text = bytes ↔ text.toByteArray = bytes.toByteArray := by
    rw [← toByteArray_utf8]
    constructor
    · rintro rfl
      rfl
    · intro h
      simpa using congrArg (·.data.toList) h
  rw [hsame, fromUtf8, String.fromUTF8?]
  split_ifs with hvalid
  · rw [Option.some.injEq, ← String.toByteArray_inj]
    exact eq_comm
  · simp only [false_iff]
    intro h
    exact hvalid (h ▸ text.isValidUTF8)

/-! ## Hexadecimal digits -/

/-- The two characters of a byte, as bytes. -/
def hexPair (byte : UInt8) : List UInt8 :=
  [UInt8.ofNat (Nat.digitChar (byte.toNat / 16)).toNat,
    UInt8.ofNat (Nat.digitChar (byte.toNat % 16)).toNat]

/-- Bytes as lower-case digits. -/
def hexText (bytes : List UInt8) : List UInt8 := bytes.flatMap hexPair

def isAsciiHexdigit (c : UInt8) : Bool :=
  (48 ≤ c && c ≤ 57) || (65 ≤ c && c ≤ 70) || (97 ≤ c && c ≤ 102)

def isAsciiUppercase (c : UInt8) : Bool := 65 ≤ c && c ≤ 90

/-- The value of a digit in either case. -/
def hexValue (c : UInt8) : Option Nat :=
  if 48 ≤ c ∧ c ≤ 57 then some (c.toNat - 48)
  else if 65 ≤ c ∧ c ≤ 70 then some (c.toNat - 55)
  else if 97 ≤ c ∧ c ≤ 102 then some (c.toNat - 87)
  else none

/-- Bytes from their digits, in either case. -/
def unhex : List UInt8 → Option (List UInt8)
  | [] => some []
  | [_] => none
  | high :: low :: rest => do
    let high ← hexValue high
    let low ← hexValue low
    let bytes ← unhex rest
    return UInt8.ofNat (16 * high + low) :: bytes

theorem digitChar_byte_inj : ∀ a < 16, ∀ b < 16,
    UInt8.ofNat (Nat.digitChar a).toNat = UInt8.ofNat (Nat.digitChar b).toNat → a = b := by
  decide

theorem hexPair_inj {a b : UInt8} (h : hexPair a = hexPair b) : a = b := by
  have ha : a.toNat < 256 := a.toNat_lt
  have hb : b.toNat < 256 := b.toNat_lt
  simp only [hexPair, cons.injEq, and_true] at h
  have hhigh : a.toNat / 16 = b.toNat / 16 :=
    digitChar_byte_inj _ (by omega) _ (by omega) h.1
  have hlow : a.toNat % 16 = b.toNat % 16 :=
    digitChar_byte_inj _ (by omega) _ (by omega) h.2
  apply UInt8.toNat_inj.1
  omega

/-- A lower-case digit. -/
def IsLowerHex (c : UInt8) : Prop := isAsciiHexdigit c = true ∧ isAsciiUppercase c = false

theorem digitChar_lower : ∀ value < 16,
    hexValue (UInt8.ofNat (Nat.digitChar value).toNat) = some value ∧
      isAsciiHexdigit (UInt8.ofNat (Nat.digitChar value).toNat) = true ∧
      isAsciiUppercase (UInt8.ofNat (Nat.digitChar value).toNat) = false := by
  decide

variable {c : UInt8}

theorem hexValue_lower (h : IsLowerHex c) :
    ∃ value < 16, hexValue c = some value ∧ UInt8.ofNat (Nat.digitChar value).toNat = c := by
  have hall : ∀ n < 256, isAsciiHexdigit (UInt8.ofNat n) = true →
      isAsciiUppercase (UInt8.ofNat n) = false → ∃ value < 16,
        hexValue (UInt8.ofNat n) = some value ∧
          UInt8.ofNat (Nat.digitChar value).toNat = UInt8.ofNat n := by
    decide +kernel
  have hc := hall c.toNat c.toNat_lt
  rw [UInt8.ofNat_toNat] at hc
  exact hc h.1 h.2

@[simp] theorem length_hexText (bytes : List UInt8) : (hexText bytes).length = 2 * bytes.length := by
  induction bytes with
  | nil => rfl
  | cons byte bytes ih =>
    rw [hexText, flatMap_cons, length_append, ← hexText, ih, length_cons]
    rw [show (hexPair byte).length = 2 from rfl]
    omega

theorem isLowerHex_hexText (h : c ∈ hexText bytes) : IsLowerHex c := by
  obtain ⟨byte, -, hc⟩ := mem_flatMap.1 h
  have hbyte : byte.toNat < 256 := byte.toNat_lt
  simp only [hexPair, mem_cons, not_mem_nil, or_false] at hc
  rcases hc with rfl | rfl
  · exact (digitChar_lower _ (by omega)).2
  · exact (digitChar_lower _ (by omega)).2

theorem unhex_hexText (bytes : List UInt8) : unhex (hexText bytes) = some bytes := by
  induction bytes with
  | nil => rfl
  | cons byte bytes ih =>
    have hbyte : byte.toNat < 256 := byte.toNat_lt
    have hhigh := (digitChar_lower (byte.toNat / 16) (by omega)).1
    have hlow := (digitChar_lower (byte.toNat % 16) (by omega)).1
    have hsum : 16 * (byte.toNat / 16) + byte.toNat % 16 = byte.toNat := by omega
    change unhex (_ :: _ :: hexText bytes) = _
    rw [unhex, hhigh, hlow, ih]
    simp only [Option.bind_eq_bind, Option.bind_some, Option.pure_def, hsum, UInt8.ofNat_toNat]

variable {n : Nat}

theorem utf8_hex (b : Bytes n) : utf8 b.hex = hexText b.toList := by
  have hdigits : ∀ value < 16, (Nat.digitChar value).toNat < 128 := by decide
  have hascii : IsAscii b.hex := by
    intro c hc
    rw [Bytes.hex, String.toList_ofList] at hc
    obtain ⟨byte, -, hc⟩ := mem_flatMap.1 hc
    have hbyte : byte.toNat < 256 := byte.toNat_lt
    simp only [mem_cons, not_mem_nil, or_false] at hc
    rcases hc with rfl | rfl
    · exact hdigits _ (by omega)
    · exact hdigits _ (by omega)
  rw [utf8_of_isAscii hascii, Bytes.hex, String.toList_ofList, map_flatMap]
  rfl

/-- Bytes written as a text. -/
def hexEncode (bytes : List UInt8) : String := ofAscii (hexText bytes)

theorem lower_lt (h : IsLowerHex c) : c.toNat < 128 := by
  obtain ⟨hdigit, -⟩ := h
  simp only [isAsciiHexdigit, Bool.or_eq_true, Bool.and_eq_true, decide_eq_true_eq,
    UInt8.le_iff_toNat_le, UInt8.reduceToNat] at hdigit
  omega

theorem utf8_hexEncode (bytes : List UInt8) : utf8 (hexEncode bytes) = hexText bytes :=
  utf8_ofAscii fun _ hc => lower_lt (isLowerHex_hexText hc)

theorem Bytes.hex_inj {a b : Bytes n} (h : a.hex = b.hex) : a = b := by
  have htext : hexText a.toList = hexText b.toList := by rw [← utf8_hex, ← utf8_hex, h]
  have hbytes : some a.toList = some b.toList := by
    rw [← unhex_hexText, ← unhex_hexText, htext]
  exact Bytes.ext (Option.some.inj hbytes)

theorem hexText_of_unhex {s : List UInt8} (hlower : ∀ c ∈ s, IsLowerHex c)
    (h : unhex s = some bytes) : hexText bytes = s := by
  induction s using unhex.induct generalizing bytes with
  | case1 =>
    obtain rfl := Option.some.inj h
    rfl
  | case2 c => exact absurd h nofun
  | case3 high low rest ih =>
    obtain ⟨a, ha, hhigh, hhigh'⟩ := hexValue_lower (hlower high (by simp))
    obtain ⟨b, hb, hlow, hlow'⟩ := hexValue_lower (hlower low (by simp))
    rw [unhex, hhigh, hlow] at h
    simp only [Option.bind_eq_bind, Option.bind_some, Option.bind_eq_some_iff] at h
    obtain ⟨tail, htail, hbytes⟩ := h
    obtain rfl := Option.some.inj hbytes
    have hvalue : (UInt8.ofNat (16 * a + b)).toNat = 16 * a + b := by
      rw [UInt8.toNat_ofNat']
      omega
    have hpair : hexPair (UInt8.ofNat (16 * a + b)) = [high, low] := by
      rw [hexPair, hvalue, show (16 * a + b) / 16 = a by omega,
        show (16 * a + b) % 16 = b by omega, hhigh', hlow']
    rw [hexText, flatMap_cons, hpair, ← hexText, ih (fun c hc => hlower c (by simp [hc])) htail]
    rfl

theorem exists_unhex {s : List UInt8} (hlower : ∀ c ∈ s, IsLowerHex c) (hlength : s.length = 2 * n)
    : ∃ bytes, unhex s = some bytes ∧ bytes.length = n := by
  induction s using unhex.induct generalizing n with
  | case1 =>
    rw [length_nil] at hlength
    exact ⟨[], rfl, by rw [length_nil]; omega⟩
  | case2 c => simp at hlength; omega
  | case3 high low rest ih =>
    obtain ⟨a, -, hhigh, -⟩ := hexValue_lower (hlower high (by simp))
    obtain ⟨b, -, hlow, -⟩ := hexValue_lower (hlower low (by simp))
    rw [length_cons, length_cons] at hlength
    obtain ⟨tail, htail, htail'⟩ := ih (n := n - 1) (fun c hc => hlower c (by simp [hc])) (by omega)
    refine ⟨UInt8.ofNat (16 * a + b) :: tail, ?_, ?_⟩
    · rw [unhex, hhigh, hlow, htail]
      rfl
    · rw [length_cons]
      omega

end NanoStacks
