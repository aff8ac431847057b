import NanoStacks.Codec.Basic

/-!
# Post-conditions

The five kinds of post-conditions. All but the last take eleven bytes at least; a condition on stacking
by the origin takes three (`length_encodePostCondition`).
-/

namespace NanoStacks.Codec

open Bitcoin Chain Reader

inductive PostConditionPrincipal
  | origin
  | standard (address : StacksAddress)
  | contract (address : StacksAddress) (contractName : String)
  deriving DecidableEq

structure AssetInfo where
  address : StacksAddress
  contractName : String
  assetName : String
  deriving DecidableEq

inductive FungibleCondition
  | sentEqual
  | sentGreater
  | sentGreaterEqual
  | sentLess
  | sentLessEqual
  deriving DecidableEq

inductive NonFungibleCondition
  | doesNotSend
  | doesSend
  | maySend
  deriving DecidableEq

inductive PoxCondition
  | notPerformed
  | maybePerformed
  | performed
  deriving DecidableEq

inductive PostConditionData
  | stx (principal : PostConditionPrincipal) (condition : FungibleCondition) (amount : Nat)
  | fungible (principal : PostConditionPrincipal) (asset : AssetInfo) (condition : FungibleCondition)
      (amount : Nat)
  | nonFungible (principal : PostConditionPrincipal) (asset : AssetInfo) (assetValue : ClarityValue)
      (condition : NonFungibleCondition)
  | staking (principal : PostConditionPrincipal) (condition : FungibleCondition) (amount : Nat)
  | pox (principal : PostConditionPrincipal) (condition : PoxCondition)
  deriving DecidableEq

/-! ## Conditions -/

def FungibleCondition.byte : FungibleCondition → UInt8
  | sentEqual => 1
  | sentGreater => 2
  | sentGreaterEqual => 3
  | sentLess => 4
  | sentLessEqual => 5

def readFungibleCondition : Read FungibleCondition := do
  match ← byte with
  | 1 => pure .sentEqual
  | 2 => pure .sentGreater
  | 3 => pure .sentGreaterEqual
  | 4 => pure .sentLess
  | 5 => pure .sentLessEqual
  | _ => throw .invalidPostCondition

def NonFungibleCondition.byte : NonFungibleCondition → UInt8
  | doesSend => 0x10
  | doesNotSend => 0x11
  | maySend => 0x12

def readNonFungibleCondition : Read NonFungibleCondition := do
  match ← byte with
  | 0x10 => pure .doesSend
  | 0x11 => pure .doesNotSend
  | 0x12 => pure .maySend
  | _ => throw .invalidPostCondition

def PoxCondition.byte : PoxCondition → UInt8
  | notPerformed => 0x30
  | maybePerformed => 0x31
  | performed => 0x32

def readPoxCondition : Read PoxCondition := do
  match ← byte with
  | 0x30 => pure .notPerformed
  | 0x31 => pure .maybePerformed
  | 0x32 => pure .performed
  | _ => throw .invalidPostCondition

variable {rest : List UInt8}

@[simp] theorem readFungibleCondition_decodes :
    Decodes readFungibleCondition (fun condition => [condition.byte]) fun _ => True := by
  refine tagged_decodes (by simp) fun tag s condition rest => ?_
  split <;> cases condition <;> simp_all [FungibleCondition.byte]

@[simp] theorem readNonFungibleCondition_decodes :
    Decodes readNonFungibleCondition (fun condition => [condition.byte]) fun _ => True := by
  refine tagged_decodes (by simp) fun tag s condition rest => ?_
  split <;> cases condition <;> simp_all [NonFungibleCondition.byte]

@[simp] theorem readPoxCondition_decodes :
    Decodes readPoxCondition (fun condition => [condition.byte]) fun _ => True := by
  refine tagged_decodes (by simp) fun tag s condition rest => ?_
  split <;> cases condition <;> simp_all [PoxCondition.byte]

/-! ## Principals and assets -/

def encodePostConditionPrincipal : PostConditionPrincipal → List UInt8
  | .origin => [1]
  | .standard address => 2 :: writeAddress address
  | .contract address contractName => 3 :: (writeAddress address ++ writeName contractName)

def readPostConditionPrincipal : Read PostConditionPrincipal := do
  match ← byte with
  | 1 => pure .origin
  | 2 => do
    let address ← readAddress
    return .standard address
  | 3 => do
    let address ← readAddress
    let contractName ← readContractName 40
    return .contract address contractName
  | _ => throw .invalidPostCondition

def PostConditionPrincipalGrammar : PostConditionPrincipal → Prop
  | .origin | .standard _ => True
  | .contract _ contractName => IsContractName 40 contractName

@[simp] theorem readPostConditionPrincipal_decodes :
    Decodes readPostConditionPrincipal encodePostConditionPrincipal PostConditionPrincipalGrammar := by
  refine tagged_decodes (by rintro (_ | _ | _) <;> simp [encodePostConditionPrincipal])
    fun tag s principal rest => ?_
  split <;> cases principal <;>
    simp_all [encodePostConditionPrincipal, PostConditionPrincipalGrammar, and_comm]

def encodeAssetInfo (asset : AssetInfo) : List UInt8 :=
  writeAddress asset.address ++ writeName asset.contractName ++ writeName asset.assetName

def readAssetInfo : Read AssetInfo := do
  let address ← readAddress
  let contractName ← readContractName 40
  let assetName ← readClarityName
  return ⟨address, contractName, assetName⟩

def AssetInfoGrammar (asset : AssetInfo) : Prop :=
  IsContractName 40 asset.contractName ∧ IsClarityName asset.assetName

@[simp] theorem readAssetInfo_decodes : Decodes readAssetInfo encodeAssetInfo AssetInfoGrammar := by
  rintro s ⟨address, contractName, assetName⟩ rest
  simp [readAssetInfo, encodeAssetInfo, AssetInfoGrammar, and_comm]

/-! ## Post-conditions -/

def encodePostCondition : PostConditionData → List UInt8
  | .stx principal condition amount =>
    0 :: (encodePostConditionPrincipal principal ++ [condition.byte] ++ toBe 8 amount)
  | .fungible principal asset condition amount =>
    1 :: (encodePostConditionPrincipal principal ++ encodeAssetInfo asset ++ [condition.byte] ++
      toBe 8 amount)
  | .nonFungible principal asset assetValue condition =>
    2 :: (encodePostConditionPrincipal principal ++ encodeAssetInfo asset ++ assetValue ++
      [condition.byte])
  | .staking principal condition amount =>
    3 :: (encodePostConditionPrincipal principal ++ [condition.byte] ++ toBe 8 amount)
  | .pox principal condition => 4 :: (encodePostConditionPrincipal principal ++ [condition.byte])

/-- What an amount of STX, sent or staked, is read as. -/
def readAmountCondition
    (build : PostConditionPrincipal → FungibleCondition → Nat → PostConditionData) :
    Read PostConditionData := do
  let principal ← readPostConditionPrincipal
  let condition ← readFungibleCondition
  let amount ← u64
  return build principal condition amount

def readPostCondition : Read PostConditionData := do
  match ← byte with
  | 0 => readAmountCondition .stx
  | 1 => do
    let principal ← readPostConditionPrincipal
    let asset ← readAssetInfo
    let condition ← readFungibleCondition
    let amount ← u64
    return .fungible principal asset condition amount
  | 2 => do
    let principal ← readPostConditionPrincipal
    let asset ← readAssetInfo
    let assetValue ← readClarityValue
    let condition ← readNonFungibleCondition
    return .nonFungible principal asset assetValue condition
  | 3 => readAmountCondition .staking
  | 4 => do
    let principal ← readPostConditionPrincipal
    let condition ← readPoxCondition
    return .pox principal condition
  | _ => throw .invalidPostCondition

def PostConditionGrammar : PostConditionData → Prop
  | .stx principal _ amount | .staking principal _ amount =>
    PostConditionPrincipalGrammar principal ∧ amount < 2 ^ 64
  | .fungible principal asset _ amount =>
    PostConditionPrincipalGrammar principal ∧ AssetInfoGrammar asset ∧ amount < 2 ^ 64
  | .nonFungible principal asset assetValue _ =>
    PostConditionPrincipalGrammar principal ∧ AssetInfoGrammar asset ∧ IsClarityValue assetValue
  | .pox principal _ => PostConditionPrincipalGrammar principal

@[simp] theorem readPostCondition_decodes :
    Decodes readPostCondition encodePostCondition PostConditionGrammar := by
  refine tagged_decodes (by rintro (_ | _ | _ | _ | _) <;> simp [encodePostCondition])
    fun tag s data rest => ?_
  split <;> cases data <;> simp_all [readAmountCondition, encodePostCondition, PostConditionGrammar] <;>
    tauto

end NanoStacks.Codec
