import NanoStacks.Chain.Accounting
import Mathlib.Order.Interval.Finset.Nat

/-!
# What tenures are paid

A tenure's coinbase is paid at the start of the tenure a hundred above it, and its fees at the one after
that, both out of a map that is pruned by count and that a restart reads back from JSON. A run here is a
sequence of tenure starts with fees and restarts anywhere in between; each start pays two credits, and
which ones is said against what each tenure earned in all.
-/

namespace NanoStacks.Chain

open Result List OrdMap Function

/-! ## The checkpoint an accounting is written to -/

/-- How principals are written and read (`PrincipalData`'s `Display` and `parse`). -/
structure PrincipalTexts where
  display : Principal → String
  parse : String → Except String Principal
  parse_display : ∀ principal, parse (display principal) = .ok principal

structure TenureAccountingCheckpointTenure where
  coinbaseHeight : Nat
  recipient : String
  coinbase : Nat
  fees : Nat

structure TenureAccountingCheckpointCredit where
  recipient : String
  amount : Nat

structure TenureAccountingCheckpointEntry where
  coinbaseHeight : Nat
  credits : List TenureAccountingCheckpointCredit
  liquidSupplyIncrease : Nat

structure TenureAccountingCheckpoint where
  maturedEffects : List TenureAccountingCheckpointEntry
  tenures : List TenureAccountingCheckpointTenure
  coinbaseSchedule : Option CoinbaseSchedule
  started : Option Nat

namespace TenureAccounting

def recordMaturedEffects (accounting : TenureAccounting) (coinbaseHeight : Nat)
    (effects : NativeBlockEffects) : Except TenureAccountingError TenureAccounting :=
  match accounting.maturedEffects.get coinbaseHeight with
  | some _ => .error .duplicateCoinbaseHeight
  | none =>
    .ok { accounting with maturedEffects := accounting.maturedEffects.insert coinbaseHeight effects }

/-- The oldest tenures go once there are more than `earningsKept`. -/
def seedEarnings (accounting : TenureAccounting) (coinbaseHeight : Nat) (earnings : TenureEarnings) :
    TenureAccounting :=
  { accounting with
    earnings := (accounting.earnings.insert coinbaseHeight earnings).keepNewest earningsKept }

section Checkpoint

variable (texts : PrincipalTexts)

def parseRecipient (text : String) : Except TenureAccountingError Principal :=
  (texts.parse text).mapError .invalidCheckpoint

def seedTenure (accounting : TenureAccounting) (tenure : TenureAccountingCheckpointTenure) :
    Except TenureAccountingError TenureAccounting := do
  let recipient ← parseRecipient texts tenure.recipient
  return accounting.seedEarnings tenure.coinbaseHeight ⟨recipient, tenure.coinbase, tenure.fees⟩

def recordEntry (accounting : TenureAccounting) (entry : TenureAccountingCheckpointEntry) :
    Except TenureAccountingError TenureAccounting := do
  let credits ← entry.credits.mapM fun credit => do
    let recipient ← parseRecipient texts credit.recipient
    return (⟨recipient, credit.amount⟩ : NativeStxCredit)
  accounting.recordMaturedEffects entry.coinbaseHeight ⟨credits, entry.liquidSupplyIncrease⟩

def fromCheckpoint (checkpoint : TenureAccountingCheckpoint) :
    Except TenureAccountingError TenureAccounting := do
  let seeded ← checkpoint.tenures.foldlM (seedTenure texts)
    ⟨empty, empty, checkpoint.coinbaseSchedule, none⟩
  let accounting ← checkpoint.maturedEffects.foldlM (recordEntry texts) seeded
  return { accounting with started := checkpoint.started }

def checkpointTenure (tenure : Nat × TenureEarnings) : TenureAccountingCheckpointTenure :=
  ⟨tenure.1, texts.display tenure.2.recipient, tenure.2.coinbase, tenure.2.fees⟩

def checkpointEntry (entry : Nat × NativeBlockEffects) : TenureAccountingCheckpointEntry :=
  ⟨entry.1, entry.2.credits.map fun credit => ⟨texts.display credit.recipient, credit.amount⟩,
    entry.2.liquidSupplyIncrease⟩

def toCheckpoint (accounting : TenureAccounting) : TenureAccountingCheckpoint where
  maturedEffects := accounting.maturedEffects.entries.map (checkpointEntry texts)
  tenures := accounting.earnings.entries.map (checkpointTenure texts)
  coinbaseSchedule := accounting.schedule
  started := accounting.started

variable {texts}

theorem parseRecipient_display (principal : Principal) :
    parseRecipient texts (texts.display principal) = .ok principal := by
  rw [parseRecipient, texts.parse_display]
  rfl

section

variable (accounting : TenureAccounting)

include accounting

theorem seedTenure_checkpointTenure (tenure : Nat × TenureEarnings) :
    seedTenure texts accounting (checkpointTenure texts tenure)
      = .ok (accounting.seedEarnings tenure.1 tenure.2) := by
  simp only [seedTenure, checkpointTenure, parseRecipient_display, ok_bind, pure_eq_ok]

omit accounting in
theorem mapM_display (credits : List NativeStxCredit) :
    (credits.map fun credit =>
        (⟨texts.display credit.recipient, credit.amount⟩ : TenureAccountingCheckpointCredit)).mapM
      (fun credit => do
        let recipient ← parseRecipient texts credit.recipient
        return (⟨recipient, credit.amount⟩ : NativeStxCredit)) = .ok credits := by
  induction credits with
  | nil => rfl
  | cons credit rest ih =>
    simp only [map_cons, mapM_cons, parseRecipient_display, ok_bind, pure_eq_ok] at ih ⊢
    rw [ih]
    rfl

theorem recordEntry_checkpointEntry (entry : Nat × NativeBlockEffects) :
    recordEntry texts accounting (checkpointEntry texts entry)
      = accounting.recordMaturedEffects entry.1 entry.2 := by
  simp only [recordEntry, checkpointEntry, mapM_display, ok_bind]

theorem foldlM_seedTenure (tenures : List (Nat × TenureEarnings)) :
    (tenures.map (checkpointTenure texts)).foldlM (seedTenure texts) accounting
      = .ok { accounting with
        earnings := tenures.foldl (fun m e => (m.insert e.1 e.2).keepNewest earningsKept)
          accounting.earnings } := by
  induction tenures generalizing accounting with
  | nil => rfl
  | cons tenure rest ih =>
    rw [map_cons, foldlM_cons, seedTenure_checkpointTenure, ok_bind, ih, foldl_cons, seedEarnings]

theorem foldlM_recordEntry (entries : List (Nat × NativeBlockEffects))
    (hsorted : (accounting.maturedEffects.entries ++ entries).Pairwise fun a b => a.1 < b.1) :
    (entries.map (checkpointEntry texts)).foldlM (recordEntry texts) accounting
      = .ok { accounting with maturedEffects := accounting.maturedEffects.insertAll entries } := by
  induction entries generalizing accounting with
  | nil => rfl
  | cons entry rest ih =>
    have hlt : ∀ e ∈ accounting.maturedEffects.entries, e.1 < entry.1 :=
      fun e he => (pairwise_append.1 hsorted).2.2 e he entry mem_cons_self
    have hnew : accounting.maturedEffects.get entry.1 = none :=
      getEntry_eq_none fun e he => (hlt e he).ne
    have hmore : ((accounting.maturedEffects.insert entry.1 entry.2).entries ++ rest).Pairwise
        fun a b => a.1 < b.1 := by
      show (insertEntry entry.1 entry.2 accounting.maturedEffects.entries ++ rest).Pairwise _
      rw [insertEntry_of_forall_lt hlt, append_assoc]
      exact hsorted
    rw [map_cons, foldlM_cons, recordEntry_checkpointEntry, recordMaturedEffects, hnew,
      ok_bind, ih _ hmore]
    rfl

end

/-- What a restart reads back is what was written, pruned. -/
theorem fromCheckpoint_toCheckpoint (texts : PrincipalTexts) (accounting : TenureAccounting) :
    fromCheckpoint texts (accounting.toCheckpoint texts)
      = .ok { accounting with earnings := accounting.earnings.keepNewest earningsKept } := by
  have hseeded : accounting.earnings.entries.foldl
        (fun m e => (m.insert e.1 e.2).keepNewest earningsKept) empty
      = accounting.earnings.keepNewest earningsKept := by
    have hfold := empty.foldl_insert_keepNewest earningsKept accounting.earnings.sorted
    rw [accounting.earnings.insertAll_empty_entries] at hfold
    exact hfold
  have hsorted : ((empty : OrdMap Nat NativeBlockEffects).entries
      ++ accounting.maturedEffects.entries).Pairwise fun a b => a.1 < b.1 :=
    accounting.maturedEffects.sorted
  rw [fromCheckpoint, toCheckpoint, foldlM_seedTenure, ok_bind, hseeded, foldlM_recordEntry _ _ hsorted,
    ok_bind, insertAll_empty_entries]
  rfl

end Checkpoint

/-! ## Runs of tenure starts -/

/-- What happens between two tenure starts. -/
inductive Event
  /-- A block pays fees to the tenure that mined it. -/
  | fees (coinbaseHeight amount : Nat)
  /-- The accounting is written out and read back. -/
  | reload

/-- A tenure of a run: what its start records, and what happens before and after its start is paid out. -/
structure Tenure where
  earnings : TenureEarnings
  opening : List Event
  events : List Event

/-- What a tenure earned in all: what was recorded with every fee paid to it. -/
def Event.counted (coinbaseHeight : Nat) (earned : TenureEarnings) : Event → TenureEarnings
  | .fees height amount =>
    if height = coinbaseHeight then { earned with fees := saturatingAdd128 earned.fees amount }
    else earned
  | .reload => earned

def Tenure.total (coinbaseHeight : Nat) (tenure : Tenure) : TenureEarnings :=
  (tenure.opening ++ tenure.events).foldl (Event.counted coinbaseHeight) tenure.earnings

variable (texts : PrincipalTexts) (network : Network)

def event (accounting : TenureAccounting) : Event → Except TenureAccountingError TenureAccounting
  | .fees coinbaseHeight amount => .ok (accounting.addFees coinbaseHeight amount)
  | .reload => fromCheckpoint texts (accounting.toCheckpoint texts)

/-- One tenure: its start is recorded and pays what matures. -/
def tenureRun (coinbaseHeight : Nat) (accounting : TenureAccounting) (tenure : Tenure) :
    Except TenureAccountingError (TenureAccounting × NativeBlockEffects) := do
  let recorded ← tenure.opening.foldlM (event texts)
    (accounting.recordEarnings coinbaseHeight tenure.earnings)
  let effects ← recorded.effectsForTenure network coinbaseHeight
  let accounting ← tenure.events.foldlM (event texts) recorded
  return (accounting, effects)

def tenureRuns (coinbaseHeight : Nat) (accounting : TenureAccounting) :
    List Tenure → Except TenureAccountingError (TenureAccounting × List NativeBlockEffects)
  | [] => .ok (accounting, [])
  | tenure :: rest => do
    let (accounting, effects) ← tenureRun texts network coinbaseHeight accounting tenure
    let (accounting, later) ← tenureRuns (coinbaseHeight + 1) accounting rest
    return (accounting, effects :: later)

/-- What every tenure a run from `first` on knows of earned in all. -/
def earnedBy (accounting : TenureAccounting) (first : Nat) (tenures : List Tenure) (coinbaseHeight : Nat) :
    Option TenureEarnings :=
  if coinbaseHeight < first then accounting.earnings.get coinbaseHeight
  else tenures[coinbaseHeight - first]?.map (Tenure.total coinbaseHeight)

/-- What the start of the tenure a hundred above `matured` pays: that tenure's coinbase and the fees of
the one before it, each to its own recipient. -/
def payout (previous matured : TenureEarnings) : NativeBlockEffects :=
  ⟨[⟨matured.recipient, matured.coinbase⟩, ⟨previous.recipient, previous.fees⟩], matured.coinbase⟩

/-! ## What pruning leaves -/

section Pruning

variable {earnings : OrdMap Nat TenureEarnings} {height tenure : Nat}

/-- Few enough tenures above a height are known for it to keep the hundred and one below. -/
def FewAbove (earnings : OrdMap Nat TenureEarnings) (height : Nat) : Prop :=
  (earnings.retain (height < ·)).entries.length < minerRewardMaturity

section

variable (h : FewAbove earnings height)

include h

theorem FewAbove.insert (earned : TenureEarnings) (hle : tenure ≤ height) :
    FewAbove (earnings.insert tenure earned) height := by
  unfold FewAbove
  rw [retain_insert_of_not _ (by simpa using hle)]
  exact h

theorem FewAbove.sublist {kept : OrdMap Nat TenureEarnings}
    (hkept : kept.entries.Sublist earnings.entries) : FewAbove kept height :=
  (hkept.filter _).length_le.trans_lt h

theorem FewAbove.succ : FewAbove earnings (height + 1) := by
  refine (List.Sublist.length_le ?_).trans_lt h
  exact monotone_filter_right _ fun e he => by
    simp only [decide_eq_true_eq] at he ⊢
    omega

omit h in
theorem length_span_le (earnings : OrdMap Nat TenureEarnings) (tenure height : Nat) :
    (earnings.entries.filter fun e => tenure < e.1 ∧ e.1 ≤ height).length ≤ height - tenure := by
  have hnodup : ((earnings.entries.filter fun e => tenure < e.1 ∧ e.1 ≤ height).map (·.1)).Nodup := by
    rw [nodup_iff_pairwise_ne, pairwise_map]
    exact (earnings.sorted.filter _).imp fun hlt => hlt.ne
  have hsub : ((earnings.entries.filter fun e => tenure < e.1 ∧ e.1 ≤ height).map (·.1)).toFinset
      ⊆ Finset.Ioc tenure height := by
    intro key hkey
    simp only [mem_toFinset, mem_map, mem_filter, decide_eq_true_eq] at hkey
    obtain ⟨e, ⟨-, hspan⟩, rfl⟩ := hkey
    exact Finset.mem_Ioc.2 hspan
  calc _ = ((earnings.entries.filter fun e => tenure < e.1 ∧ e.1 ≤ height).map
          (·.1)).toFinset.card := by rw [toFinset_card_of_nodup hnodup, length_map]
    _ ≤ (Finset.Ioc tenure height).card := Finset.card_le_card hsub
    _ = height - tenure := Nat.card_Ioc tenure height

omit h in
theorem length_above_le (entries : List (Nat × TenureEarnings)) (tenure height : Nat) :
    (entries.filter fun e => tenure < e.1).length
      ≤ (entries.filter fun e => tenure < e.1 ∧ e.1 ≤ height).length
        + (entries.filter fun e => height < e.1).length := by
  simp only [← countP_eq_length_filter]
  induction entries with
  | nil => simp
  | cons e rest ih =>
    simp only [countP_cons, decide_eq_true_eq]
    split_ifs <;> omega

/-- Pruning takes no tenure a payout at the height or the next can read. -/
theorem FewAbove.get_keepNewest (hwindow : height ≤ tenure + 101) :
    (earnings.keepNewest earningsKept).get tenure = earnings.get tenure := by
  apply OrdMap.get_keepNewest
  have habove : (earnings.entries.filter fun e => height < e.1).length < 100 := h
  have hspan := length_span_le earnings tenure height
  have hsplit := length_above_le earnings.entries tenure height
  have hkept : earningsKept = 201 := rfl
  show (earnings.entries.filter fun e => tenure < e.1).length < earningsKept
  omega

end

end Pruning

/-! ## One tenure -/

/-- An accounting that can pay the start of the tenure at `height`. -/
structure Owing (height : Nat) (accounting : TenureAccounting) : Prop where
  matured : ∀ later, height ≤ later → accounting.maturedEffects.get later = none
  window : ∀ tenure, tenure < height → height ≤ tenure + 101 →
    ∃ earned, accounting.earnings.get tenure = some earned
  above : FewAbove accounting.earnings height

/-- An accounting inside the tenure at `height`, with what it knows of the tenures that will be read. -/
structure Inside (height : Nat) (known : Nat → Option TenureEarnings) (accounting : TenureAccounting) :
    Prop where
  matured : ∀ later, height ≤ later → accounting.maturedEffects.get later = none
  started : accounting.started = some height
  known : ∀ tenure, tenure ≤ height → height ≤ tenure + 101 → accounting.earnings.get tenure = known tenure
  above : FewAbove accounting.earnings height

section Tenure

variable {accounting : TenureAccounting} {height : Nat}
  {known : Nat → Option TenureEarnings}

theorem Owing.recordEarnings (h : Owing height accounting) (earned : TenureEarnings) :
    Inside height (update accounting.earnings.get height (some earned))
      (accounting.recordEarnings height earned) where
  matured := by
    rw [recordEarnings_maturedEffects]
    exact h.matured
  started := recordEarnings_started height earned
  known := by
    intro tenure hle hwindow
    rw [recordEarnings_earnings, (h.above.insert earned le_rfl).get_keepNewest hwindow,
      get_insert, update_apply]
  above := by
    rw [recordEarnings_earnings]
    exact (h.above.insert earned le_rfl).sublist (keepNewest_sublist _ _)

section

variable (h : Inside height known accounting)

include h

theorem Inside.reload (kept : OrdMap Nat TenureEarnings)
    (hkept : kept = accounting.earnings.keepNewest earningsKept) :
    Inside height known { accounting with earnings := kept } where
  matured := h.matured
  started := h.started
  known := by
    intro tenure hle hwindow
    rw [hkept, h.above.get_keepNewest hwindow]
    exact h.known tenure hle hwindow
  above := h.above.sublist (hkept ▸ keepNewest_sublist _ _)

variable {earned : TenureEarnings}

theorem Inside.addFees (hearned : known height = some earned) (amount : Nat) :
    Inside height
      (update known height (some { earned with fees := saturatingAdd128 earned.fees amount }))
      (accounting.addFees height amount) := by
  have hget : accounting.earnings.get height = some earned :=
    (h.known height le_rfl (by omega)).trans hearned
  rw [TenureAccounting.addFees, if_pos h.started, hget]
  refine ⟨h.matured, h.started, ?_, h.above.insert _ le_rfl⟩
  intro tenure hle hwindow
  rw [get_insert, update_apply, h.known tenure hle hwindow]

theorem Inside.addFees_of_ne {other : Nat} (hne : other ≠ height) (amount : Nat) :
    accounting.addFees other amount = accounting := by
  rw [TenureAccounting.addFees, if_neg]
  rw [h.started]
  exact fun heq => hne (Option.some.inj heq).symm

theorem Inside.event (hearned : known height = some earned) (happened : Event) :
    ∃ after, event texts accounting happened = .ok after ∧
      Inside height (update known height (some (happened.counted height earned))) after := by
  cases happened with
  | fees coinbaseHeight amount =>
    by_cases heq : coinbaseHeight = height
    · subst heq
      refine ⟨_, rfl, ?_⟩
      rw [Event.counted, if_pos rfl]
      exact h.addFees hearned amount
    · refine ⟨accounting, ?_, ?_⟩
      · rw [TenureAccounting.event, h.addFees_of_ne heq]
      · rw [Event.counted, if_neg heq, ← hearned, update_eq_self]
        exact h
  | reload =>
    refine ⟨_, fromCheckpoint_toCheckpoint texts accounting, ?_⟩
    rw [Event.counted, ← hearned, update_eq_self]
    exact h.reload _ rfl

theorem Inside.events (hearned : known height = some earned) (events : List Event) :
    ∃ after, events.foldlM (TenureAccounting.event texts) accounting = .ok after ∧
      Inside height
        (update known height (some (events.foldl (Event.counted height) earned))) after := by
  induction events generalizing accounting known earned with
  | nil =>
    refine ⟨accounting, rfl, ?_⟩
    rw [foldl_nil, ← hearned, update_eq_self]
    exact h
  | cons happened rest ih =>
    obtain ⟨next, hnext, hinside⟩ := h.event texts hearned happened
    obtain ⟨after, hafter, hlast⟩ := ih hinside (update_self ..)
    refine ⟨after, ?_, ?_⟩
    · rw [foldlM_cons, hnext, ok_bind, hafter]
    · rw [update_idem] at hlast
      exact hlast

theorem Inside.effectsForTenure (network : Network) {previous : Nat}
    (hprevious : previous + 101 = height) {paid matured : TenureEarnings}
    (hpaid : known previous = some paid) (hmatured : known (previous + 1) = some matured) :
    accounting.effectsForTenure network height = .ok (payout paid matured) := by
  have hget : accounting.earnings.get previous = some paid :=
    (h.known previous (by omega) (by omega)).trans hpaid
  have hget' : accounting.earnings.get (previous + 1) = some matured :=
    (h.known (previous + 1) (by omega) (by omega)).trans hmatured
  have hheight : height - minerRewardMaturity = previous + 1 := by
    rw [minerRewardMaturity]
    omega
  rw [TenureAccounting.effectsForTenure, h.matured height le_rfl]
  dsimp only
  rw [if_neg (by rw [minerRewardMaturity]; omega), hheight, hget', okOr_some, ok_bind,
    Nat.add_sub_cancel, hget]
  rfl

end

/-- A tenure whose start can be paid leaves an accounting that can pay the next. -/
theorem Owing.tenureRun (h : Owing height accounting) (tenure : Tenure) {previous : Nat}
    (hprevious : previous + 101 = height) :
    ∃ after paid matured, tenureRun texts network height accounting tenure = .ok (after, payout paid matured) ∧
      accounting.earnings.get previous = some paid ∧
      accounting.earnings.get (previous + 1) = some matured ∧ Owing (height + 1) after ∧
      after.earnings.get height = some (tenure.total height) ∧
      ∀ other, other < height → height ≤ other + 100 →
        after.earnings.get other = accounting.earnings.get other := by
  obtain ⟨paid, hpaid⟩ := h.window previous (by omega) (by omega)
  obtain ⟨matured, hmatured⟩ := h.window (previous + 1) (by omega) (by omega)
  obtain ⟨recorded, hrecorded, hinside⟩ :=
    (h.recordEarnings tenure.earnings).events texts (update_self ..) tenure.opening
  rw [update_idem] at hinside
  obtain ⟨after, hafter, hlast⟩ :=
    hinside.events texts (update_self ..) tenure.events
  rw [update_idem, ← foldl_append] at hlast
  have heffects := hinside.effectsForTenure network hprevious
    ((update_of_ne (by omega) ..).trans hpaid)
    ((update_of_ne (by omega) ..).trans hmatured)
  have hself : after.earnings.get height = some (tenure.total height) :=
    (hlast.known height le_rfl (by omega)).trans (update_self ..)
  have hother : ∀ other, other < height → height ≤ other + 101 →
      after.earnings.get other = accounting.earnings.get other :=
    fun other hlt hwindow => (hlast.known other hlt.le hwindow).trans (update_of_ne hlt.ne ..)
  refine ⟨after, paid, matured, ?_, hpaid, hmatured, ⟨?_, ?_, hlast.above.succ⟩, hself,
    fun other hlt hwindow => hother other hlt (by omega)⟩
  · simp only [TenureAccounting.tenureRun, hrecorded, ok_bind, heffects, hafter, pure_eq_ok]
  · intro later hlater
    exact hlast.matured later (by omega)
  · intro other hlt hwindow
    obtain rfl | hlt : other = height ∨ other < height := by omega
    · exact ⟨_, hself⟩
    · obtain ⟨earned, hearned⟩ := h.window other hlt (by omega)
      exact ⟨earned, (hother other hlt (by omega)).trans hearned⟩

theorem earnedBy_cons {after : TenureAccounting} {tenure : Tenure} {rest : List Tenure}
    {other : Nat} (hself : after.earnings.get height = some (tenure.total height))
    (hother : other < height → after.earnings.get other = accounting.earnings.get other) :
    earnedBy after (height + 1) rest other = earnedBy accounting height (tenure :: rest) other := by
  unfold earnedBy
  obtain hlt | rfl | hgt := lt_trichotomy other height
  · rw [if_pos (by omega), if_pos hlt, hother hlt]
  · rw [if_pos (by omega), if_neg (by omega), hself, Nat.sub_self]
    rfl
  · obtain ⟨offset, rfl⟩ : ∃ offset, other = height + 1 + offset := ⟨other - (height + 1), by omega⟩
    rw [if_neg (by omega), if_neg (by omega), Nat.add_sub_cancel_left,
      show height + 1 + offset - height = offset + 1 by omega, getElem?_cons_succ]

theorem Owing.tenureRuns (h : Owing height accounting) (hheight : 101 ≤ height) (tenures : List Tenure) :
    ∃ after effects, tenureRuns texts network height accounting tenures = .ok (after, effects) ∧
      effects.length = tenures.length ∧
      ∀ index < tenures.length, ∀ previous, previous + 101 = height + index →
        ∃ paid matured, earnedBy accounting height tenures previous = some paid ∧
          earnedBy accounting height tenures (previous + 1) = some matured ∧
          effects[index]? = some (payout paid matured) := by
  induction tenures generalizing height accounting with
  | nil => exact ⟨accounting, [], rfl, rfl, fun index hindex => absurd hindex (Nat.not_lt_zero _)⟩
  | cons tenure rest ih =>
    obtain ⟨before, hbefore⟩ : ∃ before, before + 101 = height := ⟨height - 101, by omega⟩
    obtain ⟨next, paid, matured, hrun, hpaid, hmatured, howing, hself, hother⟩ :=
      h.tenureRun texts network tenure hbefore
    obtain ⟨after, effects, hruns, hlength, hpays⟩ := ih howing (by omega)
    refine ⟨after, payout paid matured :: effects, ?_, ?_, ?_⟩
    · simp only [TenureAccounting.tenureRuns, hrun, ok_bind, hruns, pure_eq_ok]
    · rw [length_cons, length_cons, hlength]
    · intro index hindex previous hprevious
      cases index with
      | zero =>
        obtain rfl : previous = before := by omega
        refine ⟨paid, matured, ?_, ?_, rfl⟩
        · rw [earnedBy, if_pos (by omega), hpaid]
        · rw [earnedBy, if_pos (by omega), hmatured]
      | succ index =>
        obtain ⟨paid', matured', hpaid', hmatured', heffects⟩ :=
          hpays index (by simpa using hindex) previous (by omega)
        rw [earnedBy_cons hself fun hlt => hother _ hlt (by omega)] at hpaid' hmatured'
        exact ⟨paid', matured', hpaid', hmatured', heffects⟩

end Tenure

end TenureAccounting

open Bitcoin TenureAccounting

/-- Over any run of consecutive tenure starts, with fees and restarts anywhere between them, no start
fails, and the start of the tenure at `previous + 101` pays the coinbase of `previous + 1` and all the
fees of `previous`, each to its own tenure's recipient: so each coinbase and each fee total is paid at one
start. It takes the earnings of the hundred and one tenures below the first start, and fewer than a
hundred above it. -/
theorem tenures_paid_once (texts : PrincipalTexts) (network : Network) (accounting : TenureAccounting)
    (first : Nat) (hmatured : ∀ later, first ≤ later → accounting.maturedEffects.get later = none)
    (hearned : ∀ below < 101, ∃ tenure earned, tenure + below + 1 = first ∧
      accounting.earnings.get tenure = some earned)
    (habove : (accounting.earnings.retain (first < ·)).entries.length < 100) (tenures : List Tenure) :
    ∃ after effects, tenureRuns texts network first accounting tenures = .ok (after, effects) ∧
      effects.length = tenures.length ∧
      ∀ index < tenures.length, ∀ previous, previous + 101 = first + index →
        ∃ paid matured, earnedBy accounting first tenures previous = some paid ∧
          earnedBy accounting first tenures (previous + 1) = some matured ∧
          effects[index]? = some ⟨[⟨matured.recipient, matured.coinbase⟩, ⟨paid.recipient, paid.fees⟩],
            matured.coinbase⟩ := by
  have howing : Owing first accounting := by
    refine ⟨hmatured, ?_, habove⟩
    intro tenure hlt hwindow
    obtain ⟨found, earned, hfound, hget⟩ := hearned (first - tenure - 1) (by omega)
    obtain rfl : found = tenure := by omega
    exact ⟨earned, hget⟩
  obtain ⟨tenure, -, hfirst, -⟩ := hearned 100 (by omega)
  exact howing.tenureRuns texts network (by omega) tenures

/-! ## An accounting at the end of its window -/

def plainRecipient : Principal := .standard ⟨22, Bytes.zero 20, by decide⟩

/-- The accounting that knows the given tenures, each with a coinbase of 1 and fees of 5. -/
def plainAccounting (heights : List Nat) : TenureAccounting where
  maturedEffects := empty
  earnings := empty.insertAll (heights.map fun height => (height, ⟨plainRecipient, 1, 5⟩))
  schedule := some ⟨true, 666050, 0⟩
  started := some 100

section Texts

def addressChars (address : StacksAddress) : List Char :=
  Char.ofNat address.version :: address.hash160.toList.map fun byte => Char.ofNat byte.toNat

def plainDisplay : Principal → String
  | .standard address => String.ofList (addressChars address)
  | .contract address name => String.ofList (addressChars address ++ '.' :: name.toList)

def plainParse (text : String) : Except String Principal :=
  match text.toList with
  | [] => .error "empty"
  | version :: rest =>
    if h : version.toNat ≤ 31 ∧ ((rest.take 20).map fun c => UInt8.ofNat c.toNat).length = 20 then
      let address : StacksAddress := ⟨version.toNat, ⟨_, h.2⟩, h.1⟩
      match rest.drop 20 with
      | [] => .ok (.standard address)
      | _ :: name => .ok (.contract address (String.ofList name))
    else .error "invalid"

theorem toNat_ofNat_of_lt_256 : ∀ n < 256, (Char.ofNat n).toNat = n := by decide +kernel

theorem map_ofNat_toNat (bytes : List UInt8) :
    (bytes.map fun byte => Char.ofNat byte.toNat).map (fun c => UInt8.ofNat c.toNat) = bytes := by
  induction bytes with
  | nil => rfl
  | cons byte rest ih =>
    rw [map_cons, map_cons, ih, toNat_ofNat_of_lt_256 _ byte.toNat_lt, UInt8.ofNat_toNat]

theorem plainParse_addressChars (address : StacksAddress) (rest : List Char) :
    plainParse (String.ofList (addressChars address ++ rest)) = match rest with
      | [] => .ok (.standard address)
      | _ :: name => .ok (.contract address (String.ofList name)) := by
  obtain ⟨version, ⟨hash, hlength⟩, hversion⟩ := address
  have hchar : (Char.ofNat version).toNat = version := toNat_ofNat_of_lt_256 _ (by omega)
  have hchars : (hash.map fun byte => Char.ofNat byte.toNat).length = 20 := by
    rw [length_map, hlength]
  have htake : ((hash.map fun byte => Char.ofNat byte.toNat) ++ rest).take 20
      = hash.map fun byte => Char.ofNat byte.toNat := by
    rw [← hchars, take_left]
  have hdrop : ((hash.map fun byte => Char.ofNat byte.toNat) ++ rest).drop 20 = rest := by
    rw [← hchars, drop_left]
  simp only [plainParse, addressChars, String.toList_ofList, cons_append, htake, hdrop,
    map_ofNat_toNat, hchar]
  rw [dif_pos ⟨hversion, hlength⟩]

/-- A plain way to write principals. -/
def plainTexts : PrincipalTexts where
  display := plainDisplay
  parse := plainParse
  parse_display := by
    intro principal
    cases principal with
    | standard address =>
      have hparse := plainParse_addressChars address []
      rw [List.append_nil] at hparse
      exact hparse
    | contract address name =>
      rw [plainDisplay, plainParse_addressChars]
      dsimp only
      rw [String.ofList_toList]

end Texts

theorem tenures_paid_once_reloaded :
    ∃ after, tenureRuns plainTexts ⟨true, 1⟩ 101 (plainAccounting (List.range 101))
      [⟨⟨plainRecipient, 7, 0⟩, [.reload], [.fees 101 3, .reload]⟩]
        = .ok (after, [⟨[⟨plainRecipient, 1⟩, ⟨plainRecipient, 5⟩], 1⟩]) := by
  obtain ⟨after, effects, hruns, hlength, hpays⟩ := tenures_paid_once plainTexts ⟨true, 1⟩
    (plainAccounting (range 101)) 101 (fun _ _ => rfl)
    (fun below hbelow => ⟨100 - below, ⟨plainRecipient, 1, 5⟩, by omega, by
      have hall : ∀ below < 101, (plainAccounting (range 101)).earnings.get (100 - below)
          = some ⟨plainRecipient, 1, 5⟩ := by decide +kernel
      exact hall below hbelow⟩)
    (by decide +kernel) [⟨⟨plainRecipient, 7, 0⟩, [.reload], [.fees 101 3, .reload]⟩]
  obtain ⟨paid, matured, hpaid, hmatured, heffects⟩ := hpays 0 (by decide) 0 rfl
  have hzero : some paid = some ⟨plainRecipient, 1, 5⟩ := hpaid.symm.trans (by decide +kernel)
  have hone : some matured = some ⟨plainRecipient, 1, 5⟩ := hmatured.symm.trans (by decide +kernel)
  obtain rfl := Option.some.inj hzero
  obtain rfl := Option.some.inj hone
  obtain ⟨only, rfl⟩ := length_eq_one_iff.1 hlength
  obtain rfl := Option.some.inj heffects
  exact ⟨after, hruns⟩

/-- With a hundred tenures known above the first start, the start prunes the oldest tenure of the window
and pays its fees to nobody. -/
theorem crowded_fees_lost :
    (∀ below < 101, (plainAccounting ((List.range 202).erase 101)).earnings.get (100 - below)
        = some ⟨plainRecipient, 1, 5⟩) ∧
      (plainAccounting ((List.range 202).erase 101)).maturedEffects = empty ∧
      ((plainAccounting ((List.range 202).erase 101)).recordEarnings 101
          ⟨plainRecipient, 7, 0⟩).effectsForTenure ⟨true, 1⟩ 101
        = .ok ⟨[⟨plainRecipient, 1⟩, ⟨.standard (Network.bootAddress ⟨true, 1⟩), 0⟩], 1⟩ := by
  decide +kernel

end NanoStacks.Chain
