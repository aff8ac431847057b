import NanoStacks.Codec.Block
import NanoStacks.Lib.Table

/-!
# Post-conditions

`check_postconditions`: one pass over a transaction's post-conditions checks each against what the
payload moved and notes what it names; two passes over what moved then look for anything nobody named.
The verdict is stated without the notes: every condition holds, and every movement the mode asks about is
named (`Accepts`).
-/

namespace NanoStacks.Chain

open Bitcoin Codec Result List

/-! ## What a payload moved -/

/-- `AssetIdentifier`: the contract a token or an asset is of, and its name there. -/
structure AssetIdentifier where
  address : StacksAddress
  contractName : String
  assetName : String
  deriving DecidableEq

/-- The identifier STX transfers are listed under: `AssetIdentifier::STX` of the clarity crate. -/
def AssetIdentifier.stx : AssetIdentifier := ⟨⟨0, Bytes.zero 20, by decide⟩, "STX", "STX"⟩

/-- The identifier burned STX is listed under: `AssetIdentifier::STX_burned` of that crate. -/
def AssetIdentifier.stxBurned : AssetIdentifier := ⟨⟨0, Bytes.zero 20, by decide⟩, "BURNED", "BURNED"⟩

/-- Everything a payload moved, by who moved it. Amounts are positive; a contract gives its tokens and its
assets different names, and STX is neither. -/
structure AssetMap (Value : Type) where
  stx : Table Principal Nat
  stxBurned : Table Principal Nat
  fungible : Table (Principal × AssetIdentifier) Nat
  nonfungible : Table (Principal × AssetIdentifier) (List Value)
  stacking : Table Principal Nat
  poxActions : List Principal
  stx_pos : ∀ principal amount, stx.lookup principal = some amount → 0 < amount
  stxBurned_pos : ∀ principal amount, stxBurned.lookup principal = some amount → 0 < amount
  fungible_apart : ∀ principal asset, (principal, asset) ∈ fungible →
    asset ≠ .stx ∧ asset ≠ .stxBurned ∧ (principal, asset) ∉ nonfungible
  nonfungible_apart : ∀ principal asset, (principal, asset) ∈ nonfungible →
    asset ≠ .stx ∧ asset ≠ .stxBurned

inductive AssetMapEntry (Value : Type)
  | stx (amount : Nat)
  | burn (amount : Nat)
  | token (amount : Nat)
  | asset (values : List Value)

variable {Value : Type}

/-- What moved, in one table: `AssetMap::to_table` of the clarity crate. -/
def AssetMap.toTable (assets : AssetMap Value) :
    List ((Principal × AssetIdentifier) × AssetMapEntry Value) :=
  (assets.fungible.entries.map fun e => (e.1, .token e.2)) ++
    (assets.stx.entries.map fun e => ((e.1, .stx), .stx e.2)) ++
    (assets.stxBurned.entries.map fun e => ((e.1, .stxBurned), .burn e.2)) ++
    assets.nonfungible.entries.map fun e => (e.1, .asset e.2)

variable {assets : AssetMap Value}

theorem AssetMap.forall_toTable {p : (Principal × AssetIdentifier) × AssetMapEntry Value → Prop} :
    (∀ entry ∈ assets.toTable, p entry) ↔
      (∀ principal amount, assets.stx.lookup principal = some amount → p ((principal, .stx), .stx amount)) ∧
      (∀ principal amount, assets.stxBurned.lookup principal = some amount →
        p ((principal, .stxBurned), .burn amount)) ∧
      (∀ k amount, assets.fungible.lookup k = some amount → p (k, .token amount)) ∧
      ∀ k values, assets.nonfungible.lookup k = some values → p (k, .asset values) := by
  simp only [AssetMap.toTable, mem_append, mem_map, Sigma.exists, Table.mem_entries]
  grind

/-- One thing a payload did, and who did it. -/
inductive Movement (Value : Type)
  | transfer (principal : Principal)
  | burn (principal : Principal)
  | token (principal : Principal) (asset : AssetIdentifier)
  | asset (principal : Principal) (asset : AssetIdentifier) (value : Value)
  | stacking (principal : Principal)
  | pox (principal : Principal)

def Movement.principal : Movement Value → Principal
  | .transfer principal | .burn principal | .token principal _ | .asset principal _ _
  | .stacking principal | .pox principal => principal

def AssetMap.Moved (assets : AssetMap Value) : Movement Value → Prop
  | .transfer principal => principal ∈ assets.stx
  | .burn principal => principal ∈ assets.stxBurned
  | .token principal asset => (principal, asset) ∈ assets.fungible
  | .asset principal asset value =>
    ∃ values, assets.nonfungible.lookup (principal, asset) = some values ∧ value ∈ values
  | .stacking principal => principal ∈ assets.stacking
  | .pox principal => principal ∈ assets.poxActions

/-- The STX a principal sent: its transfers and what it burned. -/
def AssetMap.stxSent (assets : AssetMap Value) (principal : Principal) : Nat :=
  (assets.stx.lookup principal).getD 0 + (assets.stxBurned.lookup principal).getD 0

variable {principal : Principal}

theorem AssetMap.transferred_pos (hmoved : assets.Moved (.transfer principal)) :
    0 < (assets.stx.lookup principal).getD 0 := by
  obtain ⟨amount, hamount⟩ := Option.isSome_iff_exists.1 (AList.lookup_isSome.2 hmoved)
  rw [hamount]
  exact assets.stx_pos principal amount hamount

theorem AssetMap.burned_pos (hmoved : assets.Moved (.burn principal)) :
    0 < (assets.stxBurned.lookup principal).getD 0 := by
  obtain ⟨amount, hamount⟩ := Option.isSome_iff_exists.1 (AList.lookup_isSome.2 hmoved)
  rw [hamount]
  exact assets.stxBurned_pos principal amount hamount

theorem AssetMap.token_ne {asset : AssetIdentifier}
    (hmoved : assets.Moved (.token principal asset)) : asset ≠ .stx ∧ asset ≠ .stxBurned := by
  obtain ⟨hstx, hburned, -⟩ := assets.fungible_apart principal asset hmoved
  exact ⟨hstx, hburned⟩

/-! ## The check -/

/-- What the check uses of the Clarity types: how they are written, and what of them parses. -/
structure ClarityTypes (Value : Type) where
  displayPrincipal : Principal → String
  displayAsset : AssetIdentifier → String
  parseContract : StacksAddress → String → Except String Unit
  parseName : String → Except String Unit
  deserializeRead : List UInt8 → Except String (Value × List UInt8)

def debugCondition : FungibleCondition → String
  | .sentEqual => "SentEqual"
  | .sentGreater => "SentGreater"
  | .sentGreaterEqual => "SentGreaterEqual"
  | .sentLess => "SentLess"
  | .sentLessEqual => "SentLessEqual"

def matchesFungibleCondition (condition : FungibleCondition) (expected actual : Nat) : Bool :=
  match condition with
  | .sentEqual => actual = expected
  | .sentGreater => expected < actual
  | .sentGreaterEqual => expected ≤ actual
  | .sentLess => actual < expected
  | .sentLessEqual => actual ≤ expected

def matchesNonfungibleCondition (condition : NonFungibleCondition) (moved : Bool) : Bool :=
  match condition with
  | .doesSend => moved
  | .doesNotSend => !moved
  | .maySend => true

def matchesPoxCondition (condition : PoxCondition) (performed : Bool) : Bool :=
  match condition with
  | .notPerformed => !performed
  | .maybePerformed => true
  | .performed => performed

/-- What has been named so far. -/
structure Checked (Value : Type) where
  fungible : List (Principal × AssetIdentifier)
  nonfungible : List ((Principal × AssetIdentifier) × Value)
  staking : List Principal
  pox : List Principal

def Checked.none : Checked Value := ⟨[], [], [], []⟩

/-- How the pass over the post-conditions stops: at one that cannot be read, or at one that fails. -/
inductive CheckStop
  | error (error : ChainStateError)
  | failed (reason : String)

section Check

variable (types : ClarityTypes Value) (origin : Principal) (assets : AssetMap Value)

def postconditionPrincipal : PostConditionPrincipal → Except ChainStateError Principal
  | .origin => .ok origin
  | .standard address => .ok (.standard address)
  | .contract address contractName => do
    (types.parseContract address contractName).mapError .invalidTransaction
    return .contract address contractName

def assetIdentifier (asset : AssetInfo) : Except ChainStateError AssetIdentifier := do
  (types.parseName asset.assetName).mapError .invalidTransaction
  (types.parseContract asset.address asset.contractName).mapError .invalidTransaction
  return ⟨asset.address, asset.contractName, asset.assetName⟩

def deserializeClarityValue (bytes : List UInt8) : Except ChainStateError Value := do
  let (value, rest) ← (types.deserializeRead bytes).mapError .invalidTransaction
  ensure (rest = []) (.invalidTransaction "non-fungible post-condition value has trailing bytes")
  return value

variable [DecidableEq Value]

/-- One turn of the loop: the condition is read, checked, and what it names is noted. -/
def checkPostcondition (checked : Checked Value) : PostConditionData → Except CheckStop (Checked Value)
  | .stx principal condition amount => do
    let principal ← (postconditionPrincipal types origin principal).mapError .error
    let transferred := (assets.stx.lookup principal).getD 0
    let burned := (assets.stxBurned.lookup principal).getD 0
    let sent := transferred + burned
    ensure (sent < 2 ^ 128) (.error (.invalidTransaction "STX post-condition amount overflow"))
    ensure (matchesFungibleCondition condition amount sent) (.failed
      s!"STX post-condition failed for {types.displayPrincipal principal}: expected {debugCondition condition} {amount}, got {sent}")
    return { checked with
      fungible := (if 0 < burned then [(principal, .stxBurned)] else []) ++
        (if 0 < transferred then [(principal, .stx)] else []) ++ checked.fungible }
  | .fungible principal asset condition amount => do
    let principal ← (postconditionPrincipal types origin principal).mapError .error
    let asset ← (assetIdentifier types asset).mapError .error
    let sent := (assets.fungible.lookup (principal, asset)).getD 0
    ensure (matchesFungibleCondition condition amount sent) (.failed
      s!"fungible post-condition failed for {types.displayAsset asset} owned by {types.displayPrincipal principal}: expected {debugCondition condition} {amount}, got {sent}")
    return { checked with fungible := (principal, asset) :: checked.fungible }
  | .nonFungible principal asset assetValue condition => do
    let principal ← (postconditionPrincipal types origin principal).mapError .error
    let asset ← (assetIdentifier types asset).mapError .error
    let value ← (deserializeClarityValue types assetValue).mapError .error
    let sent := (assets.nonfungible.lookup (principal, asset)).getD []
    ensure (matchesNonfungibleCondition condition (value ∈ sent)) (.failed
      s!"non-fungible post-condition failed for {types.displayAsset asset} owned by {types.displayPrincipal principal}")
    return { checked with nonfungible := ((principal, asset), value) :: checked.nonfungible }
  | .staking principal condition amount => do
    let principal ← (postconditionPrincipal types origin principal).mapError .error
    let staked := (assets.stacking.lookup principal).getD 0
    ensure (matchesFungibleCondition condition amount staked) (.failed
      s!"staking post-condition failed for {types.displayPrincipal principal}: expected {debugCondition condition} {amount}, got {staked}")
    return { checked with staking := principal :: checked.staking }
  | .pox principal condition => do
    let principal ← (postconditionPrincipal types origin principal).mapError .error
    ensure (matchesPoxCondition condition (principal ∈ assets.poxActions)) (.failed
      s!"PoX post-condition failed for {types.displayPrincipal principal}")
    return { checked with pox := principal :: checked.pox }

/-- What is wrong with one entry of what moved, if anything. -/
def uncheckedEntry (mode : PostConditionMode) (checked : Checked Value) :
    (Principal × AssetIdentifier) × AssetMapEntry Value → Option String
  | ((principal, asset), entry) =>
    if mode = .originator ∧ principal ≠ origin then none
    else match entry with
      | .asset values =>
        if values.any fun value => ((principal, asset), value) ∉ checked.nonfungible then
          some s!"non-fungible asset {types.displayAsset asset} moved by {types.displayPrincipal principal} was not covered"
        else none
      | _ =>
        if (principal, asset) ∈ checked.fungible then none
        else some
          s!"fungible asset {types.displayAsset asset} moved by {types.displayPrincipal principal} was not covered"

def checkUncheckedAssets (mode : PostConditionMode) (checked : Checked Value) : Option String :=
  if mode = .allow then none
  else assets.toTable.findSome? (uncheckedEntry types origin mode checked)

def requiresCheck (mode : PostConditionMode) (principal : Principal) : Bool :=
  mode = .deny ∨ principal = origin

def checkUncheckedPoxActions (mode : PostConditionMode) (checked : Checked Value) : Option String :=
  if mode = .allow then none
  else if assets.stacking.entries.any fun e => requiresCheck origin mode e.1 ∧ e.1 ∉ checked.staking then
    some "staking action was not covered by a post-condition"
  else if assets.poxActions.any fun p => requiresCheck origin mode p ∧ p ∉ checked.pox then
    some "PoX action was not covered by a post-condition"
  else none

def finishPostconditions (mode : PostConditionMode) (checked : Checked Value) : Option String :=
  (checkUncheckedAssets types origin assets mode checked).or
    (checkUncheckedPoxActions origin assets mode checked)

def checkPostconditions (transaction : Codec.Transaction) : Except ChainStateError (Option String) :=
  match (transaction.postConditions.map PostCondition.data).foldlM
      (checkPostcondition types origin assets) .none with
  | .ok checked => .ok (finishPostconditions types origin assets transaction.postConditionMode checked)
  | .error (.error error) => .error error
  | .error (.failed reason) => .ok (some reason)

/-! ## What it decides -/

/-- The condition can be read and is true of the movement it names. -/
def Holds : PostConditionData → Prop
  | .stx principal condition amount => ∃ p, postconditionPrincipal types origin principal = .ok p ∧
      assets.stxSent p < 2 ^ 128 ∧ matchesFungibleCondition condition amount (assets.stxSent p)
  | .fungible principal asset condition amount => ∃ p a,
      postconditionPrincipal types origin principal = .ok p ∧ assetIdentifier types asset = .ok a ∧
      matchesFungibleCondition condition amount ((assets.fungible.lookup (p, a)).getD 0)
  | .nonFungible principal asset assetValue condition => ∃ p a v,
      postconditionPrincipal types origin principal = .ok p ∧ assetIdentifier types asset = .ok a ∧
      deserializeClarityValue types assetValue = .ok v ∧
      matchesNonfungibleCondition condition (v ∈ (assets.nonfungible.lookup (p, a)).getD [])
  | .staking principal condition amount => ∃ p, postconditionPrincipal types origin principal = .ok p ∧
      matchesFungibleCondition condition amount ((assets.stacking.lookup p).getD 0)
  | .pox principal condition => ∃ p, postconditionPrincipal types origin principal = .ok p ∧
      matchesPoxCondition condition (p ∈ assets.poxActions)

/-- The movements a condition is about. One on the tokens of the identifier STX is listed under is about
STX too, and so for what is burned. -/
def Names (condition : PostConditionData) (movement : Movement Value) : Prop :=
  match condition with
  | .stx principal _ _ => ∃ p, postconditionPrincipal types origin principal = .ok p ∧
      (movement = .transfer p ∨ movement = .burn p)
  | .fungible principal asset _ _ => ∃ p a,
      postconditionPrincipal types origin principal = .ok p ∧ assetIdentifier types asset = .ok a ∧
      (movement = .token p a ∨ a = .stx ∧ movement = .transfer p ∨ a = .stxBurned ∧ movement = .burn p)
  | .nonFungible principal asset assetValue _ => ∃ p a v,
      postconditionPrincipal types origin principal = .ok p ∧ assetIdentifier types asset = .ok a ∧
      deserializeClarityValue types assetValue = .ok v ∧ movement = .asset p a v
  | .staking principal _ _ =>
    ∃ p, postconditionPrincipal types origin principal = .ok p ∧ movement = .stacking p
  | .pox principal _ => ∃ p, postconditionPrincipal types origin principal = .ok p ∧ movement = .pox p

/-- Whose movements a mode asks about. -/
def Asks : PostConditionMode → Principal → Prop
  | .deny, _ => True
  | .originator, principal => principal = origin
  | .allow, _ => False

/-- Every condition holds, and every movement the mode asks about is named by one. -/
def Accepts (mode : PostConditionMode) (conditions : List PostConditionData) : Prop :=
  (∀ condition ∈ conditions, Holds types origin assets condition) ∧
    ∀ movement, assets.Moved movement → Asks origin mode movement.principal →
      ∃ condition ∈ conditions, Names types origin condition movement

/-! ## The loop -/

/-- What the notes say of a movement. -/
def Checked.Covers (checked : Checked Value) : Movement Value → Prop
  | .transfer principal => (principal, .stx) ∈ checked.fungible
  | .burn principal => (principal, .stxBurned) ∈ checked.fungible
  | .token principal asset => (principal, asset) ∈ checked.fungible
  | .asset principal asset value => ((principal, asset), value) ∈ checked.nonfungible
  | .stacking principal => principal ∈ checked.staking
  | .pox principal => principal ∈ checked.pox

variable {types origin assets}

theorem checkPostcondition_isOk (checked : Checked Value) (condition : PostConditionData) :
    (∃ checked', checkPostcondition types origin assets checked condition = .ok checked') ↔
      Holds types origin assets condition := by
  cases condition <;> simp [checkPostcondition, Holds, AssetMap.stxSent, bind_eq_ok, mapError_eq_ok]

variable {checked : Checked Value} {condition : PostConditionData}

theorem checkPostcondition_covers {checked' : Checked Value}
    (hok : checkPostcondition types origin assets checked condition = .ok checked')
    {movement : Movement Value} (hmoved : assets.Moved movement) :
    checked'.Covers movement ↔ Names types origin condition movement ∨ checked.Covers movement := by
  cases condition with
  | stx principal condition amount =>
    simp [checkPostcondition, bind_eq_ok, mapError_eq_ok] at hok
    obtain ⟨p, hp, -, -, rfl⟩ := hok
    -- the two STX identifiers are noted when something moved under them, so that exactly here the
    -- amounts have to be positive, and tokens have to be under other identifiers
    cases movement with
    | transfer q =>
      have hpos := AssetMap.transferred_pos hmoved
      simp only [Checked.Covers, Names, hp]
      grind
    | burn q =>
      have hpos := AssetMap.burned_pos hmoved
      simp only [Checked.Covers, Names, hp]
      grind
    | token q a =>
      have hne := AssetMap.token_ne hmoved
      simp only [Checked.Covers, Names, hp]
      grind
    | asset q a v => simp [Checked.Covers, Names]
    | stacking q => simp [Checked.Covers, Names]
    | pox q => simp [Checked.Covers, Names]
  | fungible principal asset condition amount =>
    simp [checkPostcondition, bind_eq_ok, mapError_eq_ok] at hok
    obtain ⟨p, hp, a, ha, -, rfl⟩ := hok
    cases movement <;> simp [Checked.Covers, Names, hp, ha] <;> grind
  | nonFungible principal asset assetValue condition =>
    simp [checkPostcondition, bind_eq_ok, mapError_eq_ok] at hok
    obtain ⟨p, hp, a, ha, v, hv, -, rfl⟩ := hok
    cases movement <;> simp [Checked.Covers, Names, hp, ha, hv, and_assoc]
  | staking principal condition amount | pox principal condition =>
    simp [checkPostcondition, bind_eq_ok, mapError_eq_ok] at hok
    obtain ⟨p, hp, -, rfl⟩ := hok
    cases movement <;> simp [Checked.Covers, Names, hp]

theorem foldlM_checkPostcondition_isOk (conditions : List PostConditionData) (checked : Checked Value) :
    (∃ checked', conditions.foldlM (checkPostcondition types origin assets) checked = .ok checked') ↔
      ∀ condition ∈ conditions, Holds types origin assets condition := by
  induction conditions generalizing checked with
  | nil => simp
  | cons condition conditions ih =>
    rw [forall_mem_cons, ← checkPostcondition_isOk checked condition]
    simp only [foldlM_cons, bind_eq_ok]
    constructor
    · rintro ⟨last, next, hnext, hlast⟩
      exact ⟨⟨next, hnext⟩, (ih next).1 ⟨last, hlast⟩⟩
    · rintro ⟨⟨next, hnext⟩, hrest⟩
      obtain ⟨last, hlast⟩ := (ih next).2 hrest
      exact ⟨last, next, hnext, hlast⟩

variable {conditions : List PostConditionData}

theorem foldlM_checkPostcondition_covers {checked' : Checked Value}
    (hok : conditions.foldlM (checkPostcondition types origin assets) checked = .ok checked')
    {movement : Movement Value} (hmoved : assets.Moved movement) :
    checked'.Covers movement ↔
      (∃ condition ∈ conditions, Names types origin condition movement) ∨ checked.Covers movement := by
  induction conditions generalizing checked with
  | nil =>
    cases hok
    simp
  | cons condition conditions ih =>
    rw [foldlM_cons, bind_eq_ok] at hok
    obtain ⟨next, hnext, hlast⟩ := hok
    rw [ih hlast, checkPostcondition_covers hnext hmoved, exists_mem_cons_iff, or_left_comm, or_assoc]

/-! ## The passes over what moved -/

section Passes

variable {mode : PostConditionMode} {checked : Checked Value}

omit [DecidableEq Value] in
theorem asks_iff (hmode : mode ≠ .allow) (principal : Principal) :
    Asks origin mode principal ↔ ¬(mode = .originator ∧ principal ≠ origin) := by
  cases mode with
  | deny => simp [Asks]
  | allow => exact absurd rfl hmode
  | originator => simp [Asks]

theorem requiresCheck_iff (hmode : mode ≠ .allow) (principal : Principal) :
    requiresCheck origin mode principal = true ↔ Asks origin mode principal := by
  cases mode with
  | deny => simp [Asks, requiresCheck]
  | allow => exact absurd rfl hmode
  | originator => simp [Asks, requiresCheck]

theorem uncheckedEntry_eq_none (hmode : mode ≠ .allow) {k : Principal × AssetIdentifier}
    {entry : AssetMapEntry Value} : uncheckedEntry types origin mode checked (k, entry) = none ↔
      (Asks origin mode k.1 → match entry with
        | .asset values => ∀ value ∈ values, (k, value) ∈ checked.nonfungible
        | _ => k ∈ checked.fungible) := by
  rw [asks_iff hmode]
  by_cases hskip : mode = .originator ∧ k.1 ≠ origin
  · simp [uncheckedEntry, hskip]
  · cases entry <;> simp [uncheckedEntry, hskip]

theorem mem_table_iff {K V : Type} [DecidableEq K] {m : Table K V} {k : K} :
    k ∈ m ↔ ∃ v, m.lookup k = some v := by
  rw [← AList.lookup_isSome, Option.isSome_iff_exists]

omit [DecidableEq Value] in
theorem Movement.forall_iff {p : Movement Value → Prop} : (∀ movement, p movement) ↔
    (∀ principal, p (.transfer principal)) ∧ (∀ principal, p (.burn principal)) ∧
      (∀ k : _ × _, p (.token k.1 k.2)) ∧ (∀ (k : _ × _) value, p (.asset k.1 k.2 value)) ∧
      (∀ principal, p (.stacking principal)) ∧ ∀ principal, p (.pox principal) := by
  refine ⟨by simp_all, ?_⟩
  rintro ⟨_, _, _, _, _, _⟩ (_ | _ | _ | _ | _ | _) <;> simp_all

/-- The movements the pass over the assets looks at. -/
def Movement.IsAsset : Movement Value → Prop
  | .stacking _ | .pox _ => False
  | _ => True

theorem checkUncheckedAssets_eq_none_iff (hmode : mode ≠ .allow) :
    checkUncheckedAssets types origin assets mode checked = none ↔
      ∀ movement, movement.IsAsset → assets.Moved movement → Asks origin mode movement.principal →
        checked.Covers movement := by
  rw [checkUncheckedAssets, if_neg hmode, findSome?_eq_none_iff, AssetMap.forall_toTable,
    Movement.forall_iff]
  simp only [uncheckedEntry_eq_none hmode, Movement.IsAsset, AssetMap.Moved, Movement.principal,
    Checked.Covers, mem_table_iff, Prod.mk.eta]
  grind

omit [DecidableEq Value] in
theorem checkUncheckedPoxActions_eq_none_iff (hmode : mode ≠ .allow) :
    checkUncheckedPoxActions origin assets mode checked = none ↔
      ∀ movement, ¬movement.IsAsset → assets.Moved movement → Asks origin mode movement.principal →
        checked.Covers movement := by
  rw [checkUncheckedPoxActions, if_neg hmode, Movement.forall_iff]
  simp only [← requiresCheck_iff hmode, Movement.IsAsset, AssetMap.Moved, Movement.principal,
    Checked.Covers, mem_table_iff, ← Table.mem_entries]
  grind

theorem finishPostconditions_eq_none_iff :
    finishPostconditions types origin assets mode checked = none ↔
      ∀ movement, assets.Moved movement → Asks origin mode movement.principal →
        checked.Covers movement := by
  by_cases hmode : mode = .allow
  · subst hmode
    simp [finishPostconditions, checkUncheckedAssets, checkUncheckedPoxActions, Asks]
  · rw [finishPostconditions, Option.or_eq_none_iff, checkUncheckedAssets_eq_none_iff hmode,
      checkUncheckedPoxActions_eq_none_iff hmode, ← forall_and]
    refine forall_congr' fun movement => ?_
    by_cases hasset : movement.IsAsset <;> simp [hasset]

end Passes

/-! ## The verdict -/

theorem Accepts.of_checked {mode : PostConditionMode}
    (hok : conditions.foldlM (checkPostcondition types origin assets) .none = .ok checked) :
    Accepts types origin assets mode conditions ↔
      finishPostconditions types origin assets mode checked = none := by
  rw [Accepts, ← foldlM_checkPostcondition_isOk conditions .none, finishPostconditions_eq_none_iff]
  refine (and_iff_right ⟨checked, hok⟩).trans (forall_congr' fun movement => ?_)
  refine forall_congr' fun hmoved => imp_congr_right fun _ => ?_
  rw [foldlM_checkPostcondition_covers hok hmoved]
  refine (or_iff_left fun hnone => ?_).symm
  cases movement <;> simp [Checked.Covers, Checked.none] at hnone

theorem checkPostconditions_eq_ok_none (transaction : Codec.Transaction) :
    checkPostconditions types origin assets transaction = .ok none ↔
      Accepts types origin assets transaction.postConditionMode
        (transaction.postConditions.map PostCondition.data) := by
  rw [checkPostconditions]
  split
  · next checked hok => rw [Accepts.of_checked hok, Except.ok.injEq]
  · next error hstop =>
    rw [Accepts, ← foldlM_checkPostcondition_isOk _ .none, hstop]
    simp
  · next reason hstop =>
    rw [Accepts, ← foldlM_checkPostcondition_isOk _ .none, hstop]
    simp

theorem Accepts.insert {mode : PostConditionMode} {conditions' : List PostConditionData}
    (haccepts : Accepts types origin assets mode conditions)
    (hmem : ∀ c, c ∈ conditions' ↔ c = condition ∨ c ∈ conditions)
    (hholds : Holds types origin assets condition) : Accepts types origin assets mode conditions' := by
  refine ⟨fun c hc => ?_, fun movement hmoved hasks => ?_⟩
  · rcases (hmem c).1 hc with rfl | hc
    · exact hholds
    · exact haccepts.1 c hc
  · obtain ⟨c, hc, hnames⟩ := haccepts.2 movement hmoved hasks
    exact ⟨c, (hmem c).2 (.inr hc), hnames⟩

variable (types origin assets)

/-- A transaction passes exactly when every post-condition holds and every movement its mode asks about is
named; so the order does not matter, and one more condition that holds never turns a pass into a failure. -/
theorem postconditions_decided :
    (∀ transaction : Codec.Transaction, checkPostconditions types origin assets transaction = .ok none ↔
      Accepts types origin assets transaction.postConditionMode
        (transaction.postConditions.map PostCondition.data)) ∧
    (∀ transaction transaction' : Codec.Transaction,
      transaction'.postConditionMode = transaction.postConditionMode →
      transaction'.postConditions.Perm transaction.postConditions →
      (checkPostconditions types origin assets transaction' = .ok none ↔
        checkPostconditions types origin assets transaction = .ok none)) ∧
    ∀ (transaction transaction' : Codec.Transaction) (front back : List PostCondition)
      (condition : PostCondition),
      transaction'.postConditionMode = transaction.postConditionMode →
      transaction.postConditions = front ++ back →
      transaction'.postConditions = front ++ condition :: back →
      Holds types origin assets condition.data →
      checkPostconditions types origin assets transaction = .ok none →
      checkPostconditions types origin assets transaction' = .ok none := by
  refine ⟨checkPostconditions_eq_ok_none, ?_, ?_⟩
  · intro transaction transaction' hmode hperm
    rw [checkPostconditions_eq_ok_none, checkPostconditions_eq_ok_none, hmode, Accepts, Accepts]
    simp only [(hperm.map PostCondition.data).mem_iff]
  · intro transaction transaction' front back condition hmode hconditions hconditions' hholds hpass
    rw [checkPostconditions_eq_ok_none] at hpass ⊢
    rw [hmode]
    refine hpass.insert (fun c => ?_) hholds
    rw [hconditions, hconditions']
    simp only [map_append, map_cons, mem_append, mem_cons]
    exact or_left_comm

end Check

/-! ## In an execution -/

section Execution

variable {E : Clarity} [DecidableEq Value] {types : ClarityTypes Value} {moved : E.Assets → AssetMap Value}
  {σ ω : Type} {vm : VmOperations E σ ω} {transaction : Codec.Transaction}
  {H : Sortition.Hashes} {cost : ExecutionCost} {before after : σ} {writes : List ω} {receipt : E.Receipt}

/-- The engine checks post-conditions like this, given what its assets say was moved. -/
def ChecksPostconditions (E : Clarity) (types : ClarityTypes Value)
    (moved : E.Assets → AssetMap Value) : Prop :=
  ∀ (transaction : Codec.Transaction) origin assets, E.checkPostconditions transaction.toChain origin
    assets = checkPostconditions types origin (moved assets) transaction

/-- A user's transaction other than a transfer has a receipt of success only for a payload whose
movements its post-conditions accept. -/
theorem accepts_of_success (hchecks : ChecksPostconditions E types moved)
    (huser : transaction.toChain.isSystem = false)
    (htransfer : ∀ recipient amount memo, transaction.payload.data ≠ .tokenTransfer recipient amount memo)
    (hrun : runTransaction H vm transaction.toChain cost before = .ok (receipt, after, writes))
    (hsuccess : receipt.status = .success) :
    ∃ paid ran payload result, vm.executePayload transaction.toChain transaction.toChain.sender
        transaction.toChain.sponsor cost paid = ⟨.ok (.success result), ran, payload⟩ ∧
      Accepts types transaction.toChain.sender (moved result.assets) transaction.postConditionMode
        (transaction.postConditions.map PostCondition.data) := by
  have hran := runTransaction_eq_ok hrun
  rw [hsuccess] at hran
  generalize hstatus : TransactionStatus.success = status at hran
  cases hran with
  | system hsystem hexecutes => exact absurd hsystem (Bool.eq_false_iff.1 huser)
  | failed _ hfailed hmatch hfee hnonces => exact absurd hstatus.symm hfailed
  | finished _ houtcome hmatch hfee hpayload hnonces =>
    obtain ⟨rfl, -⟩ | ⟨-, result, rfl, hnone⟩ := houtcome
    · cases hstatus
    · refine ⟨_, _, _, result, hpayload, ?_⟩
      rw [← checkPostconditions_eq_ok_none, ← hchecks transaction]
      unfold Chain.Transaction.postconditionFailure at hnone
      split at hnone
      · next recipient amount memo hdata => exact absurd hdata (htransfer recipient amount memo)
      · exact hnone

end Execution

/-! ## Five STX sent -/

open Codec.Transaction (transferUnder transferUnder_grammatical)

/-- Values are their bytes, and everything parses. -/
def plainTypes : ClarityTypes (List UInt8) where
  displayPrincipal := fun _ => "principal"
  displayAsset := fun asset => asset.assetName
  parseContract := fun _ _ => .ok ()
  parseName := fun _ => .ok ()
  deserializeRead := fun bytes => .ok (bytes, [])

def sender : Principal := .standard ⟨22, Bytes.zero 20, StacksAddress.single_le true⟩

def fiveSent : AssetMap (List UInt8) where
  stx := AList.singleton sender 5
  stxBurned := ∅
  fungible := ∅
  nonfungible := ∅
  stacking := ∅
  poxActions := []
  stx_pos := by
    intro principal amount hlookup
    obtain ⟨-, rfl⟩ : principal = sender ∧ amount = 5 := by
      simpa using Table.mem_entries.2 hlookup
    decide
  stxBurned_pos := by simp
  fungible_apart := by simp
  nonfungible_apart := by simp

/-- None of the tokens STX is listed under was sent. -/
def noStxTokens : Codec.Transaction :=
  transferUnder [.fungible .origin ⟨⟨0, Bytes.zero 20, by decide⟩, "STX", "STX"⟩ .sentEqual 0]

/-- A condition on the tokens of the identifier STX is listed under names what was transferred, although it
says nothing about STX: the transfer passes with no condition on STX at all. -/
theorem stx_named_as_token :
    noStxTokens.Grammatical (fun _ => true) ∧ noStxTokens.postConditionMode = .deny ∧
      fiveSent.Moved (.transfer sender) ∧
      (∀ condition ∈ noStxTokens.postConditions, ∀ principal comparison amount,
        condition.data ≠ .stx principal comparison amount) ∧
      checkPostconditions plainTypes sender fiveSent noStxTokens = .ok none := by
  refine ⟨transferUnder_grammatical (by decide) ?_, rfl, ?_, ?_, by decide +kernel⟩
  · intro data hdata
    rw [mem_singleton.1 hdata]
    have hascii : IsAscii "STX" := show ∀ c ∈ "STX".toList, c.toNat < 128 by simp
    exact ⟨trivial, ⟨⟨⟨hascii, by decide +kernel, by decide +kernel⟩, by decide +kernel⟩,
      ⟨hascii, by decide +kernel, by decide +kernel⟩, by decide +kernel⟩, by decide⟩
  · exact AList.mem_keys.2 (by decide)
  · intro condition hmem principal comparison amount
    rw [mem_singleton.1 hmem]
    exact PostConditionData.noConfusion

theorem postconditions_decided_five :
    checkPostconditions plainTypes sender fiveSent (transferUnder
      [.stx .origin .sentEqual 5, .pox .origin .notPerformed]) = .ok none := by
  have hone : checkPostconditions plainTypes sender fiveSent (transferUnder
      [.stx .origin .sentEqual 5]) = .ok none := rfl
  obtain ⟨-, -, hinsert⟩ := postconditions_decided plainTypes sender fiveSent
  exact hinsert (transferUnder [.stx .origin .sentEqual 5]) _ [⟨.stx .origin .sentEqual 5, []⟩] []
    ⟨.pox .origin .notPerformed, []⟩ rfl rfl rfl ⟨sender, rfl, rfl⟩ hone

end NanoStacks.Chain
