import NanoStacks.Codec.Basic

/-!
# Payloads

The nine payloads. Whether eighty bytes are a VRF proof is a question to the curve, and a parameter
here. The arguments of a contract call are counted in front and take a byte each at least, so the check
of the count against the bytes left refuses none that are there (`readPayload_decodes`).
-/

namespace NanoStacks.Codec

open Chain Reader List

/-! ## Tags -/

def tenureChangeCauseByte : TenureChangeCause → UInt8
  | .blockFound => 0
  | .extended => 1
  | .extendedRuntime => 2
  | .extendedReadCount => 3
  | .extendedReadLength => 4
  | .extendedWriteCount => 5
  | .extendedWriteLength => 6

def parseTenureChangeCause : UInt8 → Read TenureChangeCause
  | 0 => pure .blockFound
  | 1 => pure .extended
  | 2 => pure .extendedRuntime
  | 3 => pure .extendedReadCount
  | 4 => pure .extendedReadLength
  | 5 => pure .extendedWriteCount
  | 6 => pure .extendedWriteLength
  | _ => throw .invalidPayload

/-- Clarity's versions are numbered from one. -/
def parseClarityVersion (value : UInt8) : Read Nat := do
  check (1 ≤ value.toNat ∧ value.toNat ≤ 6) .invalidPayload
  return value.toNat

variable {s rest : List UInt8}

@[simp] theorem parseTenureChangeCause_eq_ok {b : UInt8} {cause : TenureChangeCause} :
    parseTenureChangeCause b s = .ok (cause, rest) ↔ b = tenureChangeCauseByte cause ∧ s = rest := by
  unfold parseTenureChangeCause
  split <;> cases cause <;> simp_all [tenureChangeCauseByte]

@[simp] theorem parseClarityVersion_eq_ok {b : UInt8} {version : Nat} :
    parseClarityVersion b s = .ok (version, rest) ↔
      (1 ≤ version ∧ version ≤ 6) ∧ b = UInt8.ofNat version ∧ s = rest := by
  simp only [parseClarityVersion, bind_eq_ok, check_eq_ok, pure_eq_ok]
  constructor
  · rintro ⟨-, _, ⟨hrange, rfl⟩, rfl, rfl⟩
    exact ⟨hrange, by rw [UInt8.ofNat_toNat], rfl⟩
  · rintro ⟨hrange, rfl, rfl⟩
    have hversion : (UInt8.ofNat version).toNat = version := by
      rw [UInt8.toNat_ofNat']
      omega
    exact ⟨(), s, ⟨by rwa [hversion], rfl⟩, hversion, rfl⟩

/-! ## Microblock headers -/

def microblockSequence (header : Bytes 132) : Nat := ofBe ((header.toList.drop 1).take 2)

def microblockPreviousBlock (header : Bytes 132) : List UInt8 := (header.toList.drop 3).take 32

/-- Two headers that prove a fork: different, and with a sequence number or a parent in common. -/
def ProvesFork (first second : Bytes 132) : Prop :=
  first ≠ second ∧ (microblockSequence first = microblockSequence second ∨
    microblockPreviousBlock first = microblockPreviousBlock second)

instance (first second : Bytes 132) : Decidable (ProvesFork first second) :=
  inferInstanceAs (Decidable (_ ∧ _))

/-! ## Writing and reading -/

def encodePayload : TransactionPayloadData → List UInt8
  | .tokenTransfer recipient amount memo =>
    0 :: (encodePrincipal recipient ++ toBe 8 amount ++ memo.toList)
  | .smartContract contractName source => 1 :: (writeName contractName ++ writeStacksString source)
  | .contractCall address contractName functionName arguments =>
    2 :: (writeAddress address ++ writeName contractName ++ writeName functionName ++
      toBe 4 arguments.length ++ arguments.flatMap id)
  | .poisonMicroblock first second => 3 :: (first.toList ++ second.toList)
  | .coinbase payload => 4 :: payload.toList
  | .coinbaseToAltRecipient payload recipient => 5 :: (payload.toList ++ encodePrincipal recipient)
  | .versionedSmartContract clarityVersion contractName source =>
    6 :: ([UInt8.ofNat clarityVersion] ++ writeName contractName ++ writeStacksString source)
  | .tenureChange payload =>
    7 :: (payload.tenureConsensusHash.toList ++ payload.previousTenureConsensusHash.toList ++
      payload.bitcoinViewConsensusHash.toList ++ payload.previousTenureEnd.toList ++
      toBe 4 payload.previousTenureBlocks ++ [tenureChangeCauseByte payload.cause] ++
      payload.publicKeyHash.toList)
  | .nakamotoCoinbase payload recipient vrfProof =>
    8 :: (payload.toList ++
      (match recipient with
        | some principal => 10 :: encodePrincipal principal
        | none => [9]) ++ vrfProof.toList)

variable (vrfParses : Bytes 80 → Bool)

def readContractCall : Read TransactionPayloadData := do
  let address ← readAddress
  let contractName ← readContractName 40
  let functionName ← readClarityName
  let count ← u32
  let left ← remaining
  check (count ≤ left) .invalidLength
  let arguments ← times count readClarityValue
  return .contractCall address contractName functionName arguments

def readTenureChange : Read TransactionPayloadData := do
  let tenureConsensusHash ← array 20
  let previousTenureConsensusHash ← array 20
  let bitcoinViewConsensusHash ← array 20
  let previousTenureEnd ← array 32
  let previousTenureBlocks ← u32
  let cause ← parseTenureChangeCause (← byte)
  let publicKeyHash ← array 20
  return .tenureChange ⟨tenureConsensusHash, previousTenureConsensusHash, bitcoinViewConsensusHash,
    previousTenureEnd, previousTenureBlocks, cause, publicKeyHash⟩

/-- The recipient of a coinbase is optional, in Clarity's encoding. -/
def readOptionalPrincipal : Read (Option Principal) := do
  match ← byte with
  | 9 => pure none
  | 10 => do
    let principal ← readPrincipal
    return some principal
  | _ => throw .invalidPayload

def readPayload : Read TransactionPayloadData := do
  match ← byte with
  | 0 => do
    let recipient ← readPrincipal
    let amount ← u64
    let memo ← array 34
    return .tokenTransfer recipient amount memo
  | 1 => do
    let contractName ← readContractName 40
    let source ← readStacksString
    return .smartContract contractName source
  | 2 => readContractCall
  | 3 => do
    let first ← array 132
    let second ← array 132
    check (ProvesFork first second) .invalidPayload
    return .poisonMicroblock first second
  | 4 => do
    let payload ← array 32
    return .coinbase payload
  | 5 => do
    let payload ← array 32
    let recipient ← readPrincipal
    return .coinbaseToAltRecipient payload recipient
  | 6 => do
    let clarityVersion ← parseClarityVersion (← byte)
    let contractName ← readContractName 40
    let source ← readStacksString
    return .versionedSmartContract clarityVersion contractName source
  | 7 => readTenureChange
  | 8 => do
    let payload ← array 32
    let recipient ← readOptionalPrincipal
    let vrfProof ← array 80
    check (vrfParses vrfProof) .invalidPayload
    return .nakamotoCoinbase payload recipient vrfProof
  | _ => throw .invalidPayload

def PayloadGrammar : TransactionPayloadData → Prop
  | .tokenTransfer recipient amount _ => PrincipalGrammar recipient ∧ amount < 2 ^ 64
  | .smartContract contractName source => IsContractName 40 contractName ∧ IsStacksString source
  | .contractCall _ contractName functionName arguments =>
    IsContractName 40 contractName ∧ IsClarityName functionName ∧ arguments.length < 2 ^ 32 ∧
      ∀ argument ∈ arguments, IsClarityValue argument
  | .poisonMicroblock first second => ProvesFork first second
  | .coinbase _ => True
  | .coinbaseToAltRecipient _ recipient => PrincipalGrammar recipient
  | .versionedSmartContract clarityVersion contractName source =>
    (1 ≤ clarityVersion ∧ clarityVersion ≤ 6) ∧ IsContractName 40 contractName ∧ IsStacksString source
  | .tenureChange payload => payload.previousTenureBlocks < 2 ^ 32
  | .nakamotoCoinbase _ recipient vrfProof =>
    (∀ principal, recipient = some principal → PrincipalGrammar principal) ∧ vrfParses vrfProof

@[simp] theorem readOptionalPrincipal_decodes :
    Decodes readOptionalPrincipal
      (fun recipient => match recipient with
        | some principal => 10 :: encodePrincipal principal
        | none => [9])
      fun recipient => ∀ principal, recipient = some principal → PrincipalGrammar principal := by
  refine tagged_decodes (by rintro (_ | _) <;> simp) fun tag s recipient rest => ?_
  split <;> cases recipient <;> simp_all

theorem readPayload_decodes :
    Decodes (readPayload vrfParses) encodePayload (PayloadGrammar vrfParses) := by
  have henough {arguments : List ClarityValue} (h : ∀ argument ∈ arguments, IsClarityValue argument) :
      arguments.length ≤ (arguments.map length).sum := by
    have hflat : 1 * arguments.length ≤ (arguments.flatMap id).length :=
      length_flatMap_ge fun argument hmem => (h argument hmem).length_pos
    simpa using hflat
  refine tagged_decodes (by rintro (_ | _ | _ | _ | _ | _ | _ | _ | _) <;> simp [encodePayload])
    fun tag s data rest => ?_
  split <;> rcases data with _ | _ | _ | _ | _ | _ | _ | ⟨⟨⟩⟩ | _ <;>
    simp_all [readContractCall, readTenureChange, readClarityValue_decodes.times, encodePayload,
      PayloadGrammar] <;>
    grind

end NanoStacks.Codec
