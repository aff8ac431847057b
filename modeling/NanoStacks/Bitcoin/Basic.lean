import NanoStacks.Lib.Bytes

/-!
# Bitcoin blocks and the operations in them

What `nano-bitcoin` decodes out of a Bitcoin block and the addresses `nano-address` gives its outputs.
Heights, amounts and indices are natural numbers; where the source's arithmetic can leave its machine
type, the function that does it says so.
-/

namespace NanoStacks.Bitcoin

abbrev Txid := Bytes 32
abbrev Hash160 := Bytes 20

/-! ## Addresses -/

structure StacksAddress where
  version : Nat
  hash160 : Hash160
  version_le : version ≤ 31
  deriving DecidableEq

theorem StacksAddress.single_le (mainnet : Bool) : (if mainnet then 22 else 26) ≤ 31 := by
  cases mainnet <;> decide

theorem StacksAddress.multi_le (mainnet : Bool) : (if mainnet then 20 else 21) ≤ 31 := by
  cases mainnet <;> decide

def StacksAddress.isBurn (address : StacksAddress) : Bool :=
  address.hash160.toList.all (· == 0)

inductive AddressHashMode
  | p2pkh
  | p2sh
  | p2wpkh
  | p2wsh
  deriving DecidableEq

inductive PoxAddressType32
  | p2wsh
  | p2tr
  deriving DecidableEq

inductive PoxAddress
  | standard (address : StacksAddress) (hashMode : Option AddressHashMode)
  | addr20 (mainnet : Bool) (bytes : Bytes 20)
  | addr32 (mainnet : Bool) (addressType : PoxAddressType32) (bytes : Bytes 32)
  deriving DecidableEq

namespace PoxAddress

def asStacksAddress : PoxAddress → Option StacksAddress
  | standard address _ => some address
  | addr20 .. | addr32 .. => none

def scriptPubkey : PoxAddress → List UInt8
  | standard address _ =>
    if address.version = 22 ∨ address.version = 26 then
      [0x76, 0xa9, 0x14] ++ address.hash160.toList ++ [0x88, 0xac]
    else
      [0xa9, 0x14] ++ address.hash160.toList ++ [0x87]
  | addr20 _ bytes => [0x00, 0x14] ++ bytes.toList
  | addr32 _ .p2wsh bytes => [0x00, 0x20] ++ bytes.toList
  | addr32 _ .p2tr bytes => [0x51, 0x20] ++ bytes.toList

end PoxAddress

/-! ## Blocks -/

structure BitcoinInput where
  txid : Txid
  outputIndex : Nat
  deriving DecidableEq

structure BitcoinOutput where
  amountSats : Nat
  recipient : PoxAddress
  deriving DecidableEq

structure LeaderBlockCommit where
  blockHeaderHash : Bytes 32
  newSeed : Bytes 32
  parentBlockHeight : Nat
  parentTransactionIndex : Nat
  keyBlockHeight : Nat
  keyTransactionIndex : Nat
  memo : UInt8
  parentModulus : UInt8
  deriving DecidableEq

inductive BitcoinOperationKind
  | leaderBlockCommit (commit : LeaderBlockCommit)
  | leaderKeyRegistration (consensusHash : Bytes 20) (vrfPublicKey : Bytes 32)
      (blockSigningKeyHash : Option Hash160) (memo : List UInt8)
  | preStx (sender : StacksAddress)
  | stackStx (sender : StacksAddress) (rewardAddress : PoxAddress) (amount cycles : Nat)
      (signerKey : Option (Bytes 33)) (maxAmount authorizationId : Option Nat)
  | transferStx (sender recipient : StacksAddress) (amount : Nat) (memo : List UInt8)
  | delegateStx (sender delegate : StacksAddress) (amount : Nat)
      (rewardAddress : Option PoxAddress) (rewardAddressOutput untilBitcoinHeight : Option Nat)
  | voteForAggregateKey (sender : StacksAddress) (signerIndex : Nat) (aggregateKey : Bytes 33)
      (round rewardCycle : Nat)
  deriving DecidableEq

structure BitcoinOperation where
  txid : Txid
  transactionIndex : Nat
  inputs : List BitcoinInput
  outputs : List BitcoinOutput
  kind : BitcoinOperationKind
  deriving DecidableEq

structure BitcoinBlock where
  height : Nat
  hash : Bytes 32
  timestamp : Nat
  operations : List BitcoinOperation

end NanoStacks.Bitcoin
