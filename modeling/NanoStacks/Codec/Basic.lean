import NanoStacks.Lib.Reader
import NanoStacks.Lib.Strings
import NanoStacks.Chain.Block

/-!
# Names, addresses and Clarity values

The parts a transaction's encoding is made of, as `nano-codec` reads and writes them. Each reader
comes with one fact, that it decodes what its writer writes of the values its grammar admits
(`…_decodes`), and what reads a larger part uses nothing else about it.

A text is its UTF-8 bytes; everything the codec accepts is ASCII, where bytes and characters are the
same. A Clarity value is kept as the bytes it was scanned from.
-/

namespace NanoStacks.Codec

open Bitcoin Chain Reader

inductive CodecError
  | endOfInput
  | invalidAuth
  | invalidCondition
  | invalidField
  | invalidKey
  | invalidLength
  | invalidTransaction
  | invalidPayload
  | invalidPostCondition
  | invalidPrincipal
  | invalidName
  | invalidString
  | invalidClarityValue
  deriving DecidableEq

def CodecError.display : CodecError → String
  | endOfInput => "unexpected end of input"
  | invalidAuth => "invalid transaction authorization"
  | invalidCondition => "invalid spending condition"
  | invalidField => "invalid authorization field"
  | invalidKey => "invalid public key encoding"
  | invalidLength => "invalid encoded length"
  | invalidTransaction => "invalid transaction"
  | invalidPayload => "invalid transaction payload"
  | invalidPostCondition => "invalid transaction post-condition"
  | invalidPrincipal => "invalid principal"
  | invalidName => "invalid Clarity name"
  | invalidString => "invalid Stacks string"
  | invalidClarityValue => "invalid Clarity value"

abbrev Read (α : Type) := Reader CodecError α

/-! ## Machine words -/

def byte : Read UInt8 := Reader.byte .endOfInput

def take (length : Nat) : Read (List UInt8) := Reader.take .endOfInput length

def array (length : Nat) : Read (Bytes length) := fixed .endOfInput length

def u16 : Read Nat := uint .endOfInput 2

def u32 : Read Nat := uint .endOfInput 4

def u64 : Read Nat := uint .endOfInput 8

variable {s rest : List UInt8}

@[simp] theorem byte_eq_ok {b : UInt8} : byte s = .ok (b, rest) ↔ s = b :: rest := Reader.byte_eq_ok _

theorem byte_bind_eq_ok {α : Type} {body : UInt8 → Read α} {a : α} : (byte >>= body) s = .ok (a, rest) ↔
    ∃ tag tail, s = tag :: tail ∧ body tag tail = .ok (a, rest) := by
  simp only [bind_eq_ok, byte_eq_ok]

/-- A reader that goes on by the byte in front. -/
theorem tagged_decodes {α : Type} {next : UInt8 → Read α} {encode : α → List UInt8}
    {good : α → Prop} (hencode : ∀ a, encode a ≠ [])
    (h : ∀ tag s a rest, next tag s = .ok (a, rest) ↔ good a ∧ tag :: s = encode a ++ rest) :
    Decodes (byte >>= next) encode good := by
  intro s a rest
  rw [byte_bind_eq_ok]
  constructor
  · rintro ⟨tag, tail, rfl, hok⟩
    exact (h tag tail a rest).1 hok
  · rintro ⟨hgood, rfl⟩
    obtain ⟨tag, tail, htag⟩ := List.exists_cons_of_ne_nil (hencode a)
    exact ⟨tag, tail ++ rest, by rw [htag]; rfl, (h _ _ _ _).2 ⟨hgood, by rw [htag]; rfl⟩⟩

@[simp] theorem take_eq_ok {length : Nat} {front : List UInt8} :
    take length s = .ok (front, rest) ↔ front.length = length ∧ s = front ++ rest :=
  Reader.take_eq_ok _

@[simp] theorem array_eq_ok {length : Nat} {b : Bytes length} :
    array length s = .ok (b, rest) ↔ s = b.toList ++ rest := fixed_eq_ok _

@[simp] theorem u16_eq_ok {n : Nat} : u16 s = .ok (n, rest) ↔ n < 2 ^ 16 ∧ s = toBe 2 n ++ rest :=
  uint_eq_ok _

@[simp] theorem u32_eq_ok {n : Nat} : u32 s = .ok (n, rest) ↔ n < 2 ^ 32 ∧ s = toBe 4 n ++ rest :=
  uint_eq_ok _

@[simp] theorem u64_eq_ok {n : Nat} : u64 s = .ok (n, rest) ↔ n < 2 ^ 64 ∧ s = toBe 8 n ++ rest :=
  uint_eq_ok _

/-! ## Names and sources -/

def writeName (name : String) : List UInt8 := UInt8.ofNat (utf8 name).length :: utf8 name

def writeStacksString (text : String) : List UInt8 := toBe 4 (utf8 text).length ++ utf8 text

def readName (maximum : Nat) : Read String := do
  let length ← byte
  check (length ≠ 0 ∧ length.toNat ≤ maximum) .invalidName
  let bytes ← take length.toNat
  check (bytes.all (·.toNat < 128)) .invalidName
  return ofAscii bytes

/-- Clarity's contract-name grammar, or the reserved name. -/
def contractNameGrammar (name : String) : Bool :=
  name = "__transient" ||
    match name.toList with
    | [] => false
    | first :: rest => first.isAlpha && rest.all fun c => c.isAlphanum || c = '-' || c = '_'

/-- Clarity's identifier grammar, with its operator spellings. -/
def clarityNameGrammar (name : String) : Bool :=
  ["-", "+", "=", "/", "*", "<", ">", "<=", ">="].contains name ||
    match name.toList with
    | [] => false
    | first :: rest => first.isAlpha && rest.all fun c =>
        c.isAlphanum || ['-', '_', '!', '?', '+', '<', '>', '=', '/', '*'].contains c

def readContractName (maximum : Nat) : Read String := do
  let name ← readName maximum
  check (contractNameGrammar name) .invalidName
  return name

def readClarityName : Read String := do
  let name ← readName 128
  check (clarityNameGrammar name) .invalidName
  return name

/-- A printable byte, a space, a tab or a line break. -/
def isStringByte (b : UInt8) : Bool :=
  (33 ≤ b.toNat && b.toNat ≤ 126) || b = 32 || b = 9 || b = 10

def readStacksString : Read String := do
  let length ← u32
  let bytes ← take length
  check (bytes.all isStringByte) .invalidString
  return ofAscii bytes

/-- A name of at most so many bytes, all of them ASCII. -/
def NameWithin (maximum : Nat) (name : String) : Prop :=
  IsAscii name ∧ utf8 name ≠ [] ∧ (utf8 name).length ≤ maximum

def IsContractName (maximum : Nat) (name : String) : Prop :=
  NameWithin maximum name ∧ contractNameGrammar name

def IsClarityName (name : String) : Prop := NameWithin 128 name ∧ clarityNameGrammar name

def IsStacksString (text : String) : Prop :=
  IsAscii text ∧ (∀ b ∈ utf8 text, isStringByte b) ∧ (utf8 text).length < 2 ^ 32

theorem readName_decodes {maximum : Nat} (hmaximum : maximum < 256) :
    Decodes (readName maximum) writeName (NameWithin maximum) := by
  intro s name rest
  simp only [readName, bind_eq_ok, byte_eq_ok, check_eq_ok, take_eq_ok, pure_eq_ok, List.all_eq_true,
    decide_eq_true_eq]
  constructor
  · rintro ⟨length, _, rfl, -, _, ⟨⟨hpos, hle⟩, rfl⟩, bytes, _, ⟨hlength, rfl⟩, -, _, ⟨hascii, rfl⟩,
      rfl, rfl⟩
    have hutf8 := utf8_ofAscii hascii
    refine ⟨⟨isAscii_ofAscii hascii, ?_, by rw [hutf8]; omega⟩, ?_⟩
    · rw [hutf8]
      rintro rfl
      exact hpos (UInt8.toNat_inj.1 hlength.symm)
    · rw [writeName, hutf8, hlength, UInt8.ofNat_toNat]
      rfl
  · rintro ⟨⟨hascii, hne, hle⟩, rfl⟩
    have hlength : (UInt8.ofNat (utf8 name).length).toNat = (utf8 name).length := by
      rw [UInt8.toNat_ofNat']
      omega
    have hpos : UInt8.ofNat (utf8 name).length ≠ 0 := by
      intro hzero
      rw [hzero] at hlength
      exact hne (List.length_eq_zero_iff.1 hlength.symm)
    exact ⟨_, _, rfl, (), _, ⟨⟨hpos, by omega⟩, rfl⟩, utf8 name, rest, ⟨hlength.symm, rfl⟩, (), rest,
      ⟨ascii_of_isAscii hascii, rfl⟩, ofAscii_utf8 hascii, rfl⟩

@[simp] theorem readContractName_decodes {maximum : Nat} (hmaximum : maximum < 256) :
    Decodes (readContractName maximum) writeName (IsContractName maximum) :=
  (readName_decodes hmaximum).check _ _

@[simp] theorem readClarityName_decodes : Decodes readClarityName writeName IsClarityName :=
  (readName_decodes (show 128 < 256 by decide)).check _ _

theorem lt_of_isStringByte {b : UInt8} (h : isStringByte b) : b.toNat < 128 := by
  simp only [isStringByte, Bool.or_eq_true, Bool.and_eq_true, decide_eq_true_eq] at h
  rcases h with ((h | rfl) | rfl) | rfl
  · omega
  all_goals decide

@[simp] theorem readStacksString_decodes : Decodes readStacksString writeStacksString IsStacksString := by
  intro s text rest
  simp only [readStacksString, bind_eq_ok, u32_eq_ok, take_eq_ok, check_eq_ok, List.all_eq_true,
    pure_eq_ok]
  constructor
  · rintro ⟨length, _, ⟨hlt, rfl⟩, bytes, _, ⟨rfl, rfl⟩, -, _, ⟨hstring, rfl⟩, rfl, rfl⟩
    have hascii : ∀ b ∈ bytes, b.toNat < 128 := fun b hb => lt_of_isStringByte (hstring b hb)
    have hutf8 := utf8_ofAscii hascii
    refine ⟨⟨isAscii_ofAscii hascii, by rwa [hutf8], by rwa [hutf8]⟩, ?_⟩
    rw [writeStacksString, hutf8, List.append_assoc]
  · rintro ⟨⟨hascii, hstring, hlt⟩, rfl⟩
    exact ⟨_, utf8 text ++ rest, ⟨hlt, by rw [writeStacksString, List.append_assoc]⟩, utf8 text, rest,
      ⟨rfl, rfl⟩, (), rest, ⟨hstring, rfl⟩, ofAscii_utf8 hascii, rfl⟩

/-! ## Addresses -/

def writeAddress (address : StacksAddress) : List UInt8 :=
  UInt8.ofNat address.version :: address.hash160.toList

/-- The version is looked at once all 21 bytes are there. -/
def readAddress : Read StacksAddress := do
  let version ← byte
  let hash160 ← array 20
  if h : version.toNat ≤ 31 then return ⟨version.toNat, hash160, h⟩ else throw .invalidPrincipal

@[simp] theorem readAddress_decodes : Decodes readAddress writeAddress fun _ => True := by
  intro s address rest
  simp only [readAddress, bind_eq_ok, byte_eq_ok, array_eq_ok, true_and]
  constructor
  · rintro ⟨version, _, rfl, hash160, _, rfl, hok⟩
    split_ifs at hok
    · obtain ⟨rfl, rfl⟩ := pure_eq_ok.1 hok
      rw [writeAddress, UInt8.ofNat_toNat]
      rfl
    · exact absurd hok throw_ne_ok
  · rintro rfl
    have hversion : (UInt8.ofNat address.version).toNat = address.version := by
      have hle := address.version_le
      rw [UInt8.toNat_ofNat']
      omega
    refine ⟨_, _, rfl, address.hash160, rest, rfl, ?_⟩
    rw [dif_pos (by rw [hversion]; exact address.version_le)]
    refine pure_eq_ok.2 ⟨?_, rfl⟩
    cases address
    simp only at hversion
    simp only [hversion]

/-! ## Principals -/

def encodePrincipal : Principal → List UInt8
  | .standard address => 5 :: writeAddress address
  | .contract address contractName => 6 :: (writeAddress address ++ writeName contractName)

/-- A principal travels as a Clarity value, which admits contract names of 128 bytes. -/
def readPrincipal : Read Principal := do
  match ← byte with
  | 5 => do
    let address ← readAddress
    return .standard address
  | 6 => do
    let address ← readAddress
    let contractName ← readContractName 128
    return .contract address contractName
  | _ => throw .invalidPrincipal

def PrincipalGrammar : Principal → Prop
  | .standard _ => True
  | .contract _ contractName => IsContractName 128 contractName

@[simp] theorem readPrincipal_decodes : Decodes readPrincipal encodePrincipal PrincipalGrammar := by
  refine tagged_decodes (by rintro (_ | _) <;> simp [encodePrincipal]) fun tag s principal rest => ?_
  split <;> cases principal <;> simp_all [encodePrincipal, PrincipalGrammar, and_comm]

/-! ## Clarity values -/

/-- The longest buffer, list or tuple of a value. -/
def clarityLengthLimit : Nat := 1024 * 1024

/-- `scan_clarity_value` at the depth `33 - fuel`: nothing is read below depth 32. -/
def scanClarityValue : Nat → Read Unit
  | 0 => throw .invalidClarityValue
  | fuel + 1 => do
    match ← byte with
    | 0 | 1 => do
      let _ ← take 16
    | 2 | 13 | 14 => do
      let length ← u32
      check (length ≤ clarityLengthLimit) .invalidClarityValue
      let _ ← take length
    | 3 | 4 | 9 => pure ()
    | 5 => do
      let _ ← readAddress
    | 6 => do
      let _ ← readAddress
      let _ ← readContractName 128
    | 7 | 8 | 10 => scanClarityValue fuel
    | 11 => do
      let length ← u32
      check (length ≤ clarityLengthLimit) .invalidClarityValue
      let _ ← times length (scanClarityValue fuel)
    | 12 => do
      let length ← u32
      check (length ≤ clarityLengthLimit) .invalidClarityValue
      let _ ← times length do
        let _ ← readClarityName
        scanClarityValue fuel
    | _ => throw .invalidClarityValue

def readClarityValue : Read ClarityValue := do
  let (_, bytes) ← taken (scanClarityValue 33)
  return bytes

/-- The values the scan accepts as a whole. -/
def IsClarityValue (value : ClarityValue) : Prop := scanClarityValue 33 value = .ok ((), [])

instance (value : ClarityValue) : Decidable (IsClarityValue value) := inferInstanceAs (Decidable (_ = _))

theorem byte_local : Local byte := by
  intro s b rest hok
  obtain rfl := byte_eq_ok.1 hok
  exact ⟨[b], rfl, fun after => rfl⟩

theorem take_local (length : Nat) : Local (take length) := by
  intro s front rest hok
  obtain ⟨hlength, rfl⟩ := take_eq_ok.1 hok
  exact ⟨front, rfl, fun after => take_eq_ok.2 ⟨hlength, rfl⟩⟩

theorem u32_local : Local u32 := (take_local 4).bind fun _ => Local.pure _

theorem scanClarityValue_local (fuel : Nat) : Local (scanClarityValue fuel) := by
  have haddress := readAddress_decodes.isLocal
  have hcontract := (readContractName_decodes (show 128 < 256 by decide)).isLocal
  have hname := readClarityName_decodes.isLocal
  induction fuel with
  | zero => exact Local.throw _
  | succ fuel ih =>
    have hmany {α : Type} {p : Nat → Read α} (hp : ∀ length, Local (p length)) : Local (do
        let length ← u32
        check (length ≤ clarityLengthLimit) .invalidClarityValue
        let _ ← p length) :=
      u32_local.bind fun length => (Local.check _ _).bind fun _ =>
        (hp length).bind fun _ => Local.pure ()
    have hbuffer := hmany take_local
    have hlist := hmany ih.times
    have htuple := hmany (hname.bind fun _ => ih).times
    refine byte_local.bind fun tag => ?_
    split
    case h_9 => exact haddress.bind fun _ => Local.pure ()
    case h_10 => exact haddress.bind fun _ => hcontract.bind fun _ => Local.pure ()
    all_goals first
      | exact (take_local 16).bind fun _ => Local.pure ()
      | exact hbuffer
      | exact Local.pure ()
      | exact ih
      | exact hlist
      | exact htuple
      | exact Local.throw _

@[simp] theorem readClarityValue_decodes : Decodes readClarityValue id IsClarityValue := by
  intro s value rest
  simp only [readClarityValue, bind_eq_ok, (scanClarityValue_local 33).taken, pure_eq_ok]
  constructor
  · rintro ⟨⟨⟨⟩, value⟩, _, ⟨hscan, rfl⟩, rfl, rfl⟩
    exact ⟨hscan, rfl⟩
  · rintro ⟨hscan, rfl⟩
    exact ⟨((), value), rest, ⟨hscan, rfl⟩, rfl, rfl⟩

theorem IsClarityValue.length_pos {value : ClarityValue} (h : IsClarityValue value) :
    1 ≤ value.length := by
  obtain ⟨tag, mid, rfl, -⟩ := byte_bind_eq_ok.1 h
  rw [List.length_cons]
  omega

end NanoStacks.Codec
