import NanoStacks.Chain.Block

/-!
# What tenures earn

`TenureAccounting`: what each tenure earned, and what matures at a later one. The one result about it
is the rewind: whatever tenures from some height on have been recorded over an accounting that knew
none of them, cutting at that height gives the old accounting back (`Extends.retractFrom`), as long as
nothing had to be pruned.
-/

namespace NanoStacks.Chain

open Bitcoin Result OrdMap

structure NativeStxCredit where
  recipient : Principal
  amount : Nat
  deriving DecidableEq

structure NativeBlockEffects where
  credits : List NativeStxCredit
  liquidSupplyIncrease : Nat
  deriving DecidableEq

def minerRewardMaturity : Nat := 100

def earningsKept : Nat := 2 * minerRewardMaturity + 1

structure TenureEarnings where
  recipient : Principal
  coinbase : Nat
  fees : Nat
  deriving DecidableEq

/-- `u128::saturating_add`. -/
def saturatingAdd128 (a b : Nat) : Nat := min (a + b) (2 ^ 128 - 1)

/-! ## The coinbase schedule -/

structure CoinbaseSchedule where
  mainnet : Bool
  firstBitcoinHeight : Nat
  initialMiningBonus : Nat

def testnetEmissions : List (Nat × Nat) :=
  [(0, 1000000000), (77777, 500000000), (77777 * 7, 250000000), (77777 * 14, 125000000),
    (77777 * 21, 62500000), (40000000 - 2000000, 1000000000)]

def mainnetEmissions : List (Nat × Nat) :=
  [(0, 1000000000), (278950, 500000000), (960230 - 666050, 1000000000)]

/-- The value of the last interval that has started. -/
def intervalAt (intervals : List (Nat × Nat)) (height : Nat) : Nat :=
  match intervals.reverse.find? (·.1 ≤ height) with
  | some interval => interval.2
  | none => 0

namespace CoinbaseSchedule

variable (schedule : CoinbaseSchedule)

def emissionAt (bitcoinHeight : Nat) : Nat :=
  intervalAt (if schedule.mainnet then mainnetEmissions else testnetEmissions)
    (bitcoinHeight - schedule.firstBitcoinHeight)

/-- The loop of `accumulated_at`, over the heights above the last sortition, highest first. -/
def accumulate (previous accumulated : Nat) : Nat → Nat
  | 0 => accumulated
  | height + 1 =>
    if previous < height + 1 then
      let bonus := saturatingAdd128 accumulated schedule.initialMiningBonus
      accumulate previous
        (if previous < height then saturatingAdd128 bonus (schedule.emissionAt height) else bonus)
        height
    else accumulated

def accumulatedAt (bitcoinHeight : Nat) (previousSortition : Option Nat) : Nat :=
  match previousSortition with
  | none => 0
  | some previous => schedule.accumulate previous 0 bitcoinHeight

end CoinbaseSchedule

def testnetSip031Emissions : List (Nat × Nat) :=
  [(71525 + 360, 1000), (71525 + 360 * 2, 2000), (71525 + 360 * 3, 3000), (71525 + 360 * 4, 4000),
    (71525 + 360 * 5, 5000), (71525 + 360 * 6, 0)]

def mainnetSip031Emissions : List (Nat × Nat) :=
  [(907740, 475000000), (960300, 1140000000), (1012860, 1705000000), (1065420, 1305000000),
    (1117980, 1155000000), (1170540, 0)]

def sip031Emission (network : Network) (bitcoinHeight : Nat) : Nat :=
  intervalAt (if network.mainnet then mainnetSip031Emissions else testnetSip031Emissions)
    bitcoinHeight

/-! ## Principals -/

/-- The address of the boot contracts: all zeroes under the network's single-signature version. -/
def Network.bootAddress (network : Network) : StacksAddress :=
  ⟨if network.mainnet then 22 else 26, Bytes.zero 20, by cases network.mainnet <;> decide⟩

/-- Whether an address and a name are a contract identifier (`QualifiedContractIdentifier::parse`). -/
abbrev ParsesContract := StacksAddress → String → Bool

def principalFromCodec (parses : ParsesContract) : Principal → Option Principal
  | .standard address => some (.standard address)
  | .contract address name => if parses address name then some (.contract address name) else none

namespace TenureEarnings

/-- The recipient a coinbase names, or else the miner that signed it. -/
def fromTenureStart (parses : ParsesContract) (block : NakamotoBlock) (coinbase : Nat) :
    Option TenureEarnings := do
  let transaction ← block.tenureCoinbase
  let named := match transaction.payload with
    | .nakamotoCoinbase _ recipient _ => recipient
    | .coinbaseToAltRecipient _ recipient => some recipient
    | _ => none
  let recipient ← match named with
    | some recipient => principalFromCodec parses recipient
    | none => some (.standard transaction.originAddress)
  return ⟨recipient, coinbase, 0⟩

end TenureEarnings

/-! ## The accounting -/

structure TenureAccounting where
  maturedEffects : OrdMap Nat NativeBlockEffects
  earnings : OrdMap Nat TenureEarnings
  schedule : Option CoinbaseSchedule
  started : Option Nat

inductive TenureAccountingError
  | duplicateCoinbaseHeight
  | invalidCheckpoint (error : String)
  | unknownTenure (height : Nat)
  deriving DecidableEq

def TenureAccountingError.display : TenureAccountingError → String
  | duplicateCoinbaseHeight => "duplicate matured accounting entry for a coinbase height"
  | invalidCheckpoint error => "invalid tenure accounting checkpoint: " ++ error
  | unknownTenure height => "tenure " ++ toString height ++ " matured without accounting: its " ++
      "rewards are neither checkpointed nor executed"

namespace TenureAccounting

variable (accounting : TenureAccounting)

def retractFrom (coinbaseHeight : Nat) : TenureAccounting :=
  let earnings := accounting.earnings.retain (· < coinbaseHeight)
  ⟨accounting.maturedEffects.retain (· < coinbaseHeight), earnings, accounting.schedule,
    if accounting.started.any (coinbaseHeight ≤ ·) then earnings.lastKey? else accounting.started⟩

def rewardForTenure (coinbaseHeight : Nat) : Nat :=
  match accounting.earnings.get coinbaseHeight with
  | some earnings => saturatingAdd128 earnings.coinbase earnings.fees
  | none => 0

/-- The oldest tenures go once there are more than `earningsKept`. -/
def recordEarnings (coinbaseHeight : Nat) (earnings : TenureEarnings) : TenureAccounting :=
  ⟨accounting.maturedEffects,
    (accounting.earnings.insert coinbaseHeight earnings).keepNewest earningsKept,
    accounting.schedule, some coinbaseHeight⟩

def addFees (coinbaseHeight fees : Nat) : TenureAccounting :=
  if accounting.started = some coinbaseHeight then
    match accounting.earnings.get coinbaseHeight with
    | some earnings =>
      ⟨accounting.maturedEffects,
        accounting.earnings.insert coinbaseHeight
          ⟨earnings.recipient, earnings.coinbase, saturatingAdd128 earnings.fees fees⟩,
        accounting.schedule, accounting.started⟩
    | none => accounting
  else accounting

def effectsForTenure (network : Network) (coinbaseHeight : Nat) :
    Except TenureAccountingError NativeBlockEffects :=
  match accounting.maturedEffects.get coinbaseHeight with
  | some effects => .ok effects
  | none =>
    if coinbaseHeight ≤ minerRewardMaturity then .ok ⟨[], 0⟩
    else do
      let matured := coinbaseHeight - minerRewardMaturity
      let earned ← okOr (accounting.earnings.get matured) (.unknownTenure matured)
      let previous := accounting.earnings.get (matured - 1)
      return ⟨[⟨earned.recipient, earned.coinbase⟩,
        match previous with
        | some previous => ⟨previous.recipient, previous.fees⟩
        | none => ⟨.standard network.bootAddress, 0⟩], earned.coinbase⟩

/-! ## Rewinding -/

/-- An accounting that knows nothing from `height` on, and whose started tenure is its last. -/
structure EndsBefore (height : Nat) : Prop where
  matured : ∀ e ∈ accounting.maturedEffects.entries, e.1 < height
  earned : ∀ e ∈ accounting.earnings.entries, e.1 < height
  started : accounting.started = accounting.earnings.lastKey?

/-- What recording tenures from `height` on can have made of an accounting. -/
structure Extends (origin accounting : TenureAccounting) (height : Nat) : Prop where
  matured : accounting.maturedEffects = origin.maturedEffects
  schedule : accounting.schedule = origin.schedule
  earned : accounting.earnings.retain (· < height) = origin.earnings
  started : accounting.started = origin.started ∨ ∃ s, accounting.started = some s ∧ height ≤ s

variable {accounting} {origin : TenureAccounting} {height : Nat}

theorem EndsBefore.extends (h : accounting.EndsBefore height) :
    Extends accounting accounting height where
  matured := rfl
  schedule := rfl
  earned := accounting.earnings.retain_of_forall fun e he => by simpa using h.earned e he
  started := .inl rfl

theorem EndsBefore.started_lt (h : accounting.EndsBefore height) {s : Nat}
    (hs : accounting.started = some s) : s < height := by
  rw [h.started, lastKey?, Option.map_eq_some_iff] at hs
  obtain ⟨e, he, rfl⟩ := hs
  exact h.earned e (List.mem_of_getLast? he)

section

variable (tenure : Nat) (earnings : TenureEarnings)

theorem recordEarnings_earnings :
    (accounting.recordEarnings tenure earnings).earnings
      = (accounting.earnings.insert tenure earnings).keepNewest earningsKept := by
  rw [TenureAccounting.recordEarnings]

@[simp] theorem recordEarnings_maturedEffects :
    (accounting.recordEarnings tenure earnings).maturedEffects = accounting.maturedEffects := by
  rw [TenureAccounting.recordEarnings]

@[simp] theorem recordEarnings_schedule :
    (accounting.recordEarnings tenure earnings).schedule = accounting.schedule := by
  rw [TenureAccounting.recordEarnings]

@[simp] theorem recordEarnings_started :
    (accounting.recordEarnings tenure earnings).started = some tenure := by
  rw [TenureAccounting.recordEarnings]

end

namespace Extends

section

variable (h : Extends origin accounting height)

include h

variable {tenure : Nat}

theorem recordEarnings (htenure : height ≤ tenure) (earnings : TenureEarnings)
    (hroom : (accounting.recordEarnings tenure earnings).earnings.entries.length < earningsKept) :
    Extends origin (accounting.recordEarnings tenure earnings) height := by
  -- fewer entries than are kept, so nothing was pruned
  have hall : (accounting.recordEarnings tenure earnings).earnings
      = accounting.earnings.insert tenure earnings := by
    rw [recordEarnings_earnings] at hroom ⊢
    rw [length_keepNewest] at hroom
    exact keepNewest_of_length_le _ (by omega)
  refine ⟨(recordEarnings_maturedEffects ..).trans h.matured,
    (recordEarnings_schedule ..).trans h.schedule, ?_,
    .inr ⟨tenure, recordEarnings_started .., htenure⟩⟩
  rw [hall, retain_insert_of_not _ (by simpa using htenure)]
  exact h.earned

theorem addFees (htenure : height ≤ tenure) (fees : Nat) :
    Extends origin (accounting.addFees tenure fees) height := by
  unfold TenureAccounting.addFees
  split_ifs with hstarted
  · split
    · refine ⟨h.matured, h.schedule, ?_, h.started⟩
      rw [retain_insert_of_not _ (by simpa using htenure)]
      exact h.earned
    · exact h
  · exact h

theorem retractFrom (horigin : origin.EndsBefore height) :
    accounting.retractFrom height = origin := by
  have hmatured : accounting.maturedEffects.retain (· < height) = origin.maturedEffects := by
    rw [h.matured]
    exact retain_of_forall _ fun e he => by simpa using horigin.matured e he
  have hstarted : (if accounting.started.any (height ≤ ·) then origin.earnings.lastKey?
      else accounting.started) = origin.started := by
    rcases h.started with hsame | ⟨s, hs, hle⟩
    · have hbelow : accounting.started.any (height ≤ ·) = false := by
        rw [hsame]
        cases hs : origin.started with
        | none => rfl
        | some s => simpa using horigin.started_lt hs
      rw [hbelow, hsame]
      rfl
    · rw [hs]
      simp [hle, horigin.started]
  show (⟨_, _, _, _⟩ : TenureAccounting) = origin
  rw [h.earned, hmatured, hstarted, h.schedule]

end

end Extends

theorem length_lt_of_recordEarnings {tenure : Nat} {earnings : TenureEarnings}
    (h : (accounting.recordEarnings tenure earnings).earnings.entries.length < earningsKept) :
    accounting.earnings.entries.length < earningsKept := by
  rw [recordEarnings_earnings, length_keepNewest] at h
  have hle := accounting.earnings.length_le_insert tenure earnings
  omega

theorem length_le_addFees (tenure fees : Nat) :
    accounting.earnings.entries.length
      ≤ (accounting.addFees tenure fees).earnings.entries.length := by
  unfold addFees
  split_ifs
  · split
    · exact length_le_insert _ _ _
    · exact le_rfl
  · exact le_rfl

end TenureAccounting

end NanoStacks.Chain
