import NanoStacks.Codec.Basic

/-!
# Authorizations

The spending conditions of a transaction with everything that is signed: a single signature, or the
fields of a multisignature in one of two readings. Their fields are counted in front, and the count is
checked against the bytes left before anything is allocated: a field takes 34 bytes at least, so the
check refuses no list of fields that is really there (`readFields_decodes`).
-/

namespace NanoStacks.Codec

open Bitcoin Chain Reader

inductive KeyEncoding
  | compressed
  | uncompressed
  deriving DecidableEq

inductive MultisigHashMode
  | p2sh
  | p2wsh
  deriving DecidableEq

inductive OrderIndependentMultisigHashMode
  | p2sh
  | p2wsh
  deriving DecidableEq

inductive AuthField
  | publicKey (encoding : KeyEncoding) (bytes : List UInt8)
  | signature (encoding : KeyEncoding) (signature : MessageSignature)
  deriving DecidableEq

/-- What both multisignatures hold. -/
structure MultisigFields where
  signer : Hash160
  nonce : Nat
  fee : Nat
  fields : List AuthField
  signaturesRequired : Nat
  deriving DecidableEq

inductive SpendingCondition
  | singlesig (hashMode : SinglesigHashMode) (signer : Hash160) (nonce fee : Nat)
      (keyEncoding : KeyEncoding) (signature : MessageSignature)
  | multisig (hashMode : MultisigHashMode) (held : MultisigFields)
  | orderIndependentMultisig (hashMode : OrderIndependentMultisigHashMode) (held : MultisigFields)
  deriving DecidableEq

inductive TransactionAuth
  | standard (origin : SpendingCondition)
  | sponsored (origin sponsor : SpendingCondition)
  deriving DecidableEq

/-! ## Tags -/

def KeyEncoding.byte : KeyEncoding → UInt8
  | compressed => 0
  | uncompressed => 1

def KeyEncoding.parse : UInt8 → Read KeyEncoding
  | 0 => pure compressed
  | 1 => pure uncompressed
  | _ => throw .invalidKey

def singlesigByte : SinglesigHashMode → UInt8
  | .p2pkh => 0
  | .p2wpkh => 2

def MultisigHashMode.byte : MultisigHashMode → UInt8
  | p2sh => 1
  | p2wsh => 3

def OrderIndependentMultisigHashMode.byte : OrderIndependentMultisigHashMode → UInt8
  | p2sh => 5
  | p2wsh => 7

@[simp] theorem KeyEncoding.parse_eq_ok {b : UInt8} {encoding : KeyEncoding} {s rest : List UInt8} :
    KeyEncoding.parse b s = .ok (encoding, rest) ↔ b = encoding.byte ∧ s = rest := by
  unfold KeyEncoding.parse
  split <;> cases encoding <;> simp_all [KeyEncoding.byte]

/-! ## Fields -/

def writeField : AuthField → List UInt8
  | .publicKey .compressed bytes => 0 :: bytes
  | .publicKey .uncompressed bytes => 1 :: bytes
  | .signature .compressed signature => 2 :: signature.toList
  | .signature .uncompressed signature => 3 :: signature.toList

def readField : Read AuthField := do
  match ← byte with
  | 0 => do
    let bytes ← take 33
    return .publicKey .compressed bytes
  | 1 => do
    let bytes ← take 65
    return .publicKey .uncompressed bytes
  | 2 => do
    let signature ← array 65
    return .signature .compressed signature
  | 3 => do
    let signature ← array 65
    return .signature .uncompressed signature
  | _ => throw .invalidField

/-- A key is as long as its encoding says. -/
def FieldGrammar : AuthField → Prop
  | .publicKey .compressed bytes => bytes.length = 33
  | .publicKey .uncompressed bytes => bytes.length = 65
  | .signature _ _ => True

theorem readField_decodes : Decodes readField writeField FieldGrammar := by
  refine tagged_decodes (by rintro (⟨_ | _, _⟩ | ⟨_ | _, _⟩) <;> simp [writeField])
    fun tag s field rest => ?_
  split <;> rcases field with ⟨_ | _, _⟩ | ⟨_ | _, _⟩ <;> simp_all [writeField, FieldGrammar]

theorem length_writeField {field : AuthField} (h : FieldGrammar field) :
    34 ≤ (writeField field).length := by
  cases field with
  | publicKey encoding bytes =>
    cases encoding <;> simp_all [writeField, FieldGrammar]
  | signature encoding signature =>
    cases encoding <;> simp [writeField]

def encodeFields (hashMode : UInt8) (held : MultisigFields) : List UInt8 :=
  hashMode :: held.signer.toList ++ toBe 8 held.nonce ++ toBe 8 held.fee ++
    toBe 4 held.fields.length ++ held.fields.flatMap writeField ++ toBe 2 held.signaturesRequired

/-- `decode_fields`, behind the hash mode. -/
def readFields : Read MultisigFields := do
  let signer ← array 20
  let nonce ← u64
  let fee ← u64
  let length ← u32
  let left ← remaining
  check (length ≤ left / 34) .invalidLength
  let fields ← times length readField
  let signaturesRequired ← u16
  return ⟨signer, nonce, fee, fields, signaturesRequired⟩

def FieldsGrammar (held : MultisigFields) : Prop :=
  held.nonce < 2 ^ 64 ∧ held.fee < 2 ^ 64 ∧ held.fields.length < 2 ^ 32 ∧
    (∀ field ∈ held.fields, FieldGrammar field) ∧ held.signaturesRequired < 2 ^ 16

@[simp] theorem readFields_decodes :
    Decodes readFields (fun held => (encodeFields 0 held).tail) FieldsGrammar := by
  rintro s ⟨signer, nonce, fee, fields, required⟩ rest
  have henough (h : ∀ field ∈ fields, FieldGrammar field) :
      34 * fields.length ≤ (fields.map fun field => (writeField field).length).sum := by
    rw [← List.length_flatMap]
    exact length_flatMap_ge fun field hfield => length_writeField (h field hfield)
  simp [readFields, readField_decodes.times, encodeFields, FieldsGrammar]
  grind

/-! ## Spending conditions -/

def AuthField.isSignature : AuthField → Bool
  | publicKey _ _ => false
  | signature _ _ => true

def AuthField.isUncompressed : AuthField → Bool
  | publicKey encoding _ | signature encoding _ => encoding = .uncompressed

namespace MultisigFields

/-- How many of the fields are signatures. -/
def signatures (held : MultisigFields) : Nat := held.fields.countP (·.isSignature)

def hasUncompressed (held : MultisigFields) : Bool := held.fields.any (·.isUncompressed)

end MultisigFields

def encodeSpendingCondition : SpendingCondition → List UInt8
  | .singlesig hashMode signer nonce fee keyEncoding signature =>
    singlesigByte hashMode :: signer.toList ++ toBe 8 nonce ++ toBe 8 fee ++ [keyEncoding.byte] ++
      signature.toList
  | .multisig hashMode held => encodeFields hashMode.byte held
  | .orderIndependentMultisig hashMode held => encodeFields hashMode.byte held

def readSinglesig (hashMode : SinglesigHashMode) : Read SpendingCondition := do
  let signer ← array 20
  let nonce ← u64
  let fee ← u64
  let keyEncoding ← KeyEncoding.parse (← byte)
  check (hashMode = .p2wpkh → keyEncoding = .compressed) .invalidCondition
  let signature ← array 65
  return .singlesig hashMode signer nonce fee keyEncoding signature

/-- As many signatures as are required. -/
def readMultisig (hashMode : MultisigHashMode) : Read SpendingCondition := do
  let held ← readFields
  check (held.signatures = held.signaturesRequired) .invalidCondition
  check (hashMode = .p2wsh → ¬held.hasUncompressed) .invalidCondition
  return .multisig hashMode held

/-- At least as many signatures as are required. -/
def readOrderIndependent (hashMode : OrderIndependentMultisigHashMode) : Read SpendingCondition := do
  let held ← readFields
  check (held.signaturesRequired ≤ held.signatures ∧ (hashMode = .p2wsh → ¬held.hasUncompressed))
    .invalidCondition
  return .orderIndependentMultisig hashMode held

def readSpendingCondition : Read SpendingCondition := do
  match ← byte with
  | 0 => readSinglesig .p2pkh
  | 2 => readSinglesig .p2wpkh
  | 1 => readMultisig .p2sh
  | 3 => readMultisig .p2wsh
  | 5 => readOrderIndependent .p2sh
  | 7 => readOrderIndependent .p2wsh
  | _ => throw .invalidCondition

def ConditionGrammar : SpendingCondition → Prop
  | .singlesig hashMode _ nonce fee keyEncoding _ =>
    nonce < 2 ^ 64 ∧ fee < 2 ^ 64 ∧ (hashMode = .p2wpkh → keyEncoding = .compressed)
  | .multisig hashMode held =>
    FieldsGrammar held ∧ held.signatures = held.signaturesRequired ∧
      (hashMode = .p2wsh → ¬held.hasUncompressed)
  | .orderIndependentMultisig hashMode held =>
    FieldsGrammar held ∧ held.signaturesRequired ≤ held.signatures ∧
      (hashMode = .p2wsh → ¬held.hasUncompressed)

variable {rest : List UInt8}

@[simp] theorem readSpendingCondition_decodes :
    Decodes readSpendingCondition encodeSpendingCondition ConditionGrammar := by
  refine tagged_decodes (by rintro (_ | _ | _) <;> simp [encodeSpendingCondition, encodeFields])
    fun tag s condition rest => ?_
  split <;> rcases condition with ⟨_ | _, _⟩ | ⟨_ | _, _⟩ | ⟨_ | _, _⟩ <;>
    simp_all [readSinglesig, readMultisig, readOrderIndependent, encodeSpendingCondition, encodeFields,
      singlesigByte, MultisigHashMode.byte, OrderIndependentMultisigHashMode.byte, ConditionGrammar] <;>
    grind

/-! ## Authorizations -/

def encodeAuth : TransactionAuth → List UInt8
  | .standard origin => 4 :: encodeSpendingCondition origin
  | .sponsored origin sponsor =>
    5 :: (encodeSpendingCondition origin ++ encodeSpendingCondition sponsor)

/-- `TransactionAuth::decode`, on the bytes that are left. -/
def readAuth : Read TransactionAuth := do
  match ← byte with
  | 4 => do
    let origin ← readSpendingCondition
    return .standard origin
  | 5 => do
    let origin ← readSpendingCondition
    let sponsor ← readSpendingCondition
    return .sponsored origin sponsor
  | _ => throw .invalidAuth

def AuthGrammar : TransactionAuth → Prop
  | .standard origin => ConditionGrammar origin
  | .sponsored origin sponsor => ConditionGrammar origin ∧ ConditionGrammar sponsor

@[simp] theorem readAuth_decodes : Decodes readAuth encodeAuth AuthGrammar := by
  refine tagged_decodes (by rintro (_ | _) <;> simp [encodeAuth]) fun tag s auth rest => ?_
  split <;> cases auth <;> simp_all [encodeAuth, AuthGrammar]
  tauto

end NanoStacks.Codec
