import NanoStacks.Mempool.Basic

/-!
# The pool's books balance

`Mempool::submit`, `remove` and `advance` keep the two indexes and the byte count in step with the
entries. `Balanced` is the invariant; what a removal does to it is said once (`Balanced.remove`), a
list of removals follows by induction (`Balanced.removeAll`), and a submission is a list of removals
followed by an entry whose keys are free by then (`Balanced.keep`). In a balanced pool nothing that a
step subtracts or looks up can fail, which is why removal may delete index keys without asking whose
they are.
-/

namespace NanoStacks.Pool

open Bitcoin Sortition Chain Result Table List Option

/-! ## What admission reads off a transaction -/

/-- The nonce a transaction spends of its origin. -/
def originNonce (transaction : Codec.Transaction) : StacksAddress × Nat :=
  (transaction.toChain.originAddress, transaction.toChain.auth.origin.nonce)

/-- The nonce a transaction spends of its sponsor. -/
def sponsorNonce (transaction : Codec.Transaction) : Option (StacksAddress × Nat) :=
  transaction.toChain.sponsorAddress.map fun sponsor =>
    (sponsor, transaction.toChain.auth.payer.nonce)

def payerFee (transaction : Codec.Transaction) : Nat := transaction.toChain.auth.payer.fee

/-- The fields of an entry are those of its transaction. -/
structure Entry.ReadOff (H : Hashes) (entry : Entry) : Prop where
  txid : entry.txid = entry.transaction.txid H
  origin : entry.originKey = Pool.originNonce entry.transaction
  sponsor : entry.sponsor = sponsorNonce entry.transaction
  fee : entry.fee = payerFee entry.transaction
  length : entry.length = max entry.transaction.bytes.length 1

theorem judge_readOff {H : Hashes} {verifyAuthorization : Codec.Transaction → Except String Unit}
    {pool : Mempool} {transaction : Codec.Transaction} {tip : ChainTip} {entry : Entry}
    (h : judge H verifyAuthorization pool transaction tip = .ok entry) :
    entry.transaction = transaction ∧ entry.ReadOff H := by
  simp only [judge, bind_eq_ok] at h
  obtain ⟨-, -, -, -, -, -, -, -, -, -, -, -, -, -, -, -, -, -, -, -, h⟩ := h
  obtain rfl := Except.ok.inj h
  exact ⟨rfl, ⟨rfl, rfl, rfl, rfl, rfl⟩⟩

/-! ## What admission checks -/

theorem checkFunds_eq_ok {account : Account} {total : Nat} {u : Unit} :
    checkFunds account total = .ok u ↔ ∀ balance ∈ account.balance, total ≤ balance := by
  unfold checkFunds
  cases account.balance <;> simp

/-- The nonces are not spent at the tip, but for an origin's whose sponsor is ahead of its account. -/
theorem checkNonces_eq_ok {tip : ChainTip} {claimed : NonceCheck} {u : Unit}
    (h : checkNonces tip claimed = .ok u) :
    (∀ sponsor ∈ claimed.sponsor, (tip sponsor).nonce ≤ claimed.payerNonce) ∧
      ((tip claimed.origin).nonce ≤ claimed.originNonce ∨
        ∃ sponsor ∈ claimed.sponsor, (tip sponsor).nonce < claimed.payerNonce) := by
  unfold checkNonces nonceMismatch at h
  cases hsponsor : claimed.sponsor with
  | none =>
    simp [hsponsor] at h ⊢
    split_ifs at h <;> simp at h <;> omega
  | some sponsor =>
    simp [hsponsor] at h ⊢
    split_ifs at h <;> simp at h <;> omega

/-- What admission overlooks of what a tip has spent: a nonce of the origin, where the sponsor's own is
ahead of its account, and the fee of a transfer that another account sponsors. -/
def Overlooked (tip : ChainTip) (transaction : Codec.Transaction) : Prop :=
  ∃ sponsor ∈ sponsorNonce transaction,
    ((tip sponsor.1).nonce < sponsor.2 ∧
      (originNonce transaction).2 < (tip (originNonce transaction).1).nonce) ∨
    (isTransfer transaction.payload.data ∧ sponsor.1 ≠ (originNonce transaction).1 ∧
      ∃ balance ∈ (tip sponsor.1).balance, balance < payerFee transaction)

theorem funds_checked {payload : TransactionPayloadData} {tip : ChainTip} {mainnet : Bool}
    {spend : Spend} {u v : Unit} (hfee : checkFeeFunds payload (tip spend.payer) spend.fee = .ok u)
    (hpayload : payloadChecks payload tip mainnet spend = .ok v) :
    (∀ balance ∈ (tip spend.payer).balance, spend.fee ≤ balance) ∨
      (isTransfer payload ∧ spend.payer ≠ spend.origin) := by
  unfold checkFeeFunds at hfee
  split_ifs at hfee with htransfer
  · by_cases hself : spend.origin = spend.payer
    · left
      unfold isTransfer at htransfer
      split at htransfer
      · simp only [payloadChecks, bind_eq_ok, checkFunds_eq_ok, hself, if_true] at hpayload
        obtain ⟨-, -, hfunds⟩ := hpayload
        exact fun balance hbalance => (Nat.le_add_left _ _).trans (hfunds balance hbalance)
      · cases htransfer
    · exact .inr ⟨htransfer, Ne.symm hself⟩
  · exact .inl (checkFunds_eq_ok.1 hfee)

theorem judge_isStale_iff {H : Hashes} {verifyAuthorization : Codec.Transaction → Except String Unit}
    {pool : Mempool} {transaction : Codec.Transaction} {tip : ChainTip} {entry : Entry} (now : Nat)
    (h : judge H verifyAuthorization pool transaction tip = .ok entry) :
    ({ entry with acceptedAt := now } : Entry).isStale tip now ↔ Overlooked tip transaction := by
  simp only [judge, bind_eq_ok] at h
  obtain ⟨-, -, -, -, -, -, -, -, -, -, -, -, _, hnonces, -, -, _, hfee, _, hpayload, h⟩ := h
  obtain rfl := Except.ok.inj h
  have hfunds := funds_checked hfee hpayload
  obtain ⟨hsponsor, horigin⟩ := checkNonces_eq_ok hnonces
  clear hnonces hfee hpayload h
  unfold Overlooked
  simp only [Entry.isStale, Nat.sub_self, Bool.or_eq_true, decide_eq_true_eq, Option.any_eq_true]
  unfold originNonce sponsorNonce payerFee Transaction.originAddress Transaction.sponsorAddress
  dsimp only [Codec.Transaction.toChain, Transaction.networkMainnet]
  generalize transaction.auth.toChain.sponsor = sponsor at hfunds hsponsor horigin ⊢
  cases sponsor <;> simp at hfunds hsponsor horigin ⊢ <;> grind

namespace Mempool

variable {H : Hashes} {verifyAuthorization : Codec.Transaction → Except String Unit}
  {network : Network} {limits : MempoolLimits} {pool pool' : Mempool}

/-! ## The invariant -/

structure Balanced (H : Hashes) (pool : Mempool) : Prop where
  readOff : ∀ txid entry, pool.entries.lookup txid = some entry →
    entry.txid = txid ∧ entry.ReadOff H
  origins : Table.Indexes (fun entry : Entry => some entry.originKey) pool.entries pool.origins
  sponsors : Table.Indexes (fun entry : Entry => entry.sponsor) pool.entries pool.sponsors
  bytes : pool.bytes = Table.weigh entryBytes pool.entries
  bytes_le : pool.bytes ≤ pool.limits.bytes
  size_le : Table.size pool.entries ≤ pool.limits.transactions

theorem balanced_withLimits : Balanced H (withLimits network limits) where
  readOff txid entry h := absurd h (by simp [withLimits, AList.lookup])
  origins := Table.Indexes.empty
  sponsors := Table.Indexes.empty
  bytes := rfl
  bytes_le := Nat.zero_le _
  size_le := Nat.zero_le _

/-! ## Removing -/

/-- What removals leave alone. -/
structure SameTerms (pool pool' : Mempool) : Prop where
  network : pool'.network = pool.network
  limits : pool'.limits = pool.limits
  saturations : pool'.saturations = pool.saturations

theorem SameTerms.trans {pool₁ pool₂ pool₃ : Mempool} (h : SameTerms pool₁ pool₂)
    (h' : SameTerms pool₂ pool₃) : SameTerms pool₁ pool₃ :=
  ⟨h'.network.trans h.network, h'.limits.trans h.limits, h'.saturations.trans h.saturations⟩

theorem Balanced.remove (h : Balanced H pool) (txid : Txid) :
    ∃ answer pool', pool.remove txid = .ok (answer, pool') ∧ Balanced H pool' ∧ SameTerms pool pool' ∧
      ∀ held entry, pool'.entries.lookup held = some entry ↔
        held ≠ txid ∧ pool.entries.lookup held = some entry := by
  cases hlookup : pool.entries.lookup txid with
  | none =>
    refine ⟨none, pool, by rw [Mempool.remove, hlookup], h, ⟨rfl, rfl, rfl⟩, fun held entry => ?_⟩
    constructor
    · intro hheld
      refine ⟨?_, hheld⟩
      rintro rfl
      exact absurd (hlookup.symm.trans hheld) nofun
    · exact And.right
  | some entry =>
    have hweigh := weigh_erase entryBytes hlookup
    have hsize := size_erase hlookup
    have hbytes := h.bytes
    have hbytes_le := h.bytes_le
    have hsize_le := h.size_le
    have hsubtract : subtract pool.bytes (entryBytes entry)
        = .ok (weigh entryBytes (pool.entries.erase txid)) := by
      rw [subtract_eq_ok]
      omega
    have hremove : pool.remove txid = .ok (some entry.transaction, { pool with
        entries := pool.entries.erase txid
        origins := pool.origins.erase entry.originKey
        sponsors := eraseKey pool.sponsors entry.sponsor
        bytes := weigh entryBytes (pool.entries.erase txid) }) := by
      rw [Mempool.remove, hlookup]
      simp only [hsubtract, ok_bind, pure_eq_ok]
    refine ⟨_, _, hremove, ?_, ⟨rfl, rfl, rfl⟩, fun held entry' => lookup_erase_iff⟩
    exact {
      readOff := fun held entry' hheld => h.readOff held entry' (lookup_erase_iff.1 hheld).2
      origins := h.origins.erase hlookup
      sponsors := h.sponsors.erase hlookup
      bytes := rfl
      bytes_le := by dsimp only; omega
      size_le := by dsimp only; omega }

theorem Balanced.removeAll (h : Balanced H pool) (txids : List Txid) :
    ∃ pool', pool.removeAll txids = .ok pool' ∧ Balanced H pool' ∧ SameTerms pool pool' ∧
      ∀ held entry, pool'.entries.lookup held = some entry ↔
        held ∉ txids ∧ pool.entries.lookup held = some entry := by
  induction txids generalizing pool with
  | nil => exact ⟨pool, rfl, h, ⟨rfl, rfl, rfl⟩, fun held entry => by simp⟩
  | cons txid txids ih =>
    obtain ⟨answer, next, hremove, hnext, hterms, hheld⟩ := h.remove txid
    obtain ⟨last, hrest, hlast, hterms', hheld'⟩ := ih hnext
    refine ⟨last, ?_, hlast, hterms.trans hterms', fun held entry => ?_⟩
    · rw [Mempool.removeAll, hremove]
      exact hrest
    · rw [hheld', hheld, mem_cons, not_or]
      exact ⟨fun ⟨h₁, h₂, h₃⟩ => ⟨⟨h₂, h₁⟩, h₃⟩, fun ⟨⟨h₁, h₂⟩, h₃⟩ => ⟨h₂, h₁, h₃⟩⟩

theorem Balanced.advance (h : Balanced H pool) (tip : ChainTip) (now : Nat) :
    ∃ pool', pool.advance tip now = .ok (pool.stale tip now, pool') ∧ Balanced H pool' ∧
      SameTerms pool pool' := by
  obtain ⟨pool', hremove, hpool', hterms, -⟩ := h.removeAll (pool.stale tip now)
  refine ⟨pool', ?_, hpool', hterms⟩
  simp only [Mempool.advance, hremove, ok_bind, pure_eq_ok]

/-! ## Holding -/

variable {entry : Entry} {txid : Txid} {held : List Entry}

theorem mem_holders :
    txid ∈ pool.holders entry ↔ pool.origins.lookup entry.originKey = some txid ∨
      ∃ sponsor, entry.sponsor = some sponsor ∧ pool.sponsors.lookup sponsor = some txid := by
  rw [holders, mem_dedup, mem_insertionSort, mem_append, mem_toList,
    mem_toList, bind_eq_some_iff]

theorem nodup_holders (entry : Entry) : (pool.holders entry).Nodup := List.nodup_dedup _

theorem Balanced.mem_holders_iff (h : Balanced H pool) :
    txid ∈ pool.holders entry ↔ ∃ prior, pool.entries.lookup txid = some prior ∧
      (prior.originKey = entry.originKey ∨
        ∃ sponsor, entry.sponsor = some sponsor ∧ prior.sponsor = some sponsor) := by
  simp only [mem_holders, h.origins _ _, h.sponsors _ _, some.injEq]
  grind

theorem Balanced.holders_held (h : Balanced H pool) (entry : Entry) :
    ∃ held : List Entry, (pool.holders entry).map pool.entries.lookup = held.map some := by
  refine exists_map_eq_map_some fun txid hmem => ?_
  obtain ⟨prior, hprior, -⟩ := h.mem_holders_iff.1 hmem
  exact ⟨prior, hprior⟩

theorem underbid_eq_ok {fee : Nat} {txids : List Txid}
    (hheld : txids.map pool.entries.lookup = held.map some) :
    pool.underbid fee txids = .ok (held.all fun prior => prior.fee < fee) := by
  induction txids generalizing held with
  | nil =>
    obtain rfl : held = [] := by simpa using hheld.symm
    rfl
  | cons txid txids ih =>
    obtain _ | ⟨prior, held⟩ := held
    · exact absurd hheld nofun
    rw [map_cons, map_cons, cons.injEq] at hheld
    rw [underbid, entry, hheld.1, okOr_some, ok_bind, all_cons]
    split_ifs with hfee
    · simp [hfee]
    · rw [ih hheld.2]
      simp [not_le.1 hfee]

theorem Balanced.keep (h : Balanced H pool) (hfresh : pool.entries.lookup txid = none)
    (htxid : entry.txid = txid) (hread : entry.ReadOff H)
    (hfree : ∀ txid, txid ∉ pool.holders entry) (hbytes : pool.bytes + entryBytes entry ≤ pool.limits.bytes)
    (hsize : Table.size pool.entries + 1 ≤ pool.limits.transactions) :
    Balanced H (pool.keep txid entry) where
  readOff held entry' hheld := by
    rcases lookup_insert_iff.1 hheld with ⟨rfl, rfl⟩ | ⟨-, hheld⟩
    · exact ⟨htxid, hread⟩
    · exact h.readOff held entry' hheld
  origins := h.origins.insert hfresh fun key hkey => eq_none_iff_forall_ne_some.2 fun txid hlookup =>
    hfree txid (mem_holders.2 (.inl (some.inj hkey ▸ hlookup)))
  sponsors := h.sponsors.insert hfresh fun key hkey => eq_none_iff_forall_ne_some.2 fun txid hlookup =>
    hfree txid (mem_holders.2 (.inr ⟨key, hkey, hlookup⟩))
  bytes := by
    have hweigh := weigh_insert entryBytes hfresh entry
    have hbytes := h.bytes
    simp only [Mempool.keep]
    omega
  bytes_le := hbytes
  size_le := by
    have hsize' := size_insert hfresh entry
    simp only [Mempool.keep]
    omega

/-! ## Submitting -/

/-- A transaction is held in the place of some others: those that hold its nonces, each of which pays
less. -/
structure Displaces (H : Hashes) (pool pool' : Mempool) (transaction : Codec.Transaction)
    (replaced : List Txid) : Prop where
  nodup : replaced.Nodup
  mem_iff : ∀ txid, txid ∈ replaced ↔ ∃ prior, pool.get txid = some prior ∧
    (originNonce prior = originNonce transaction ∨
      ∃ sponsor, sponsorNonce transaction = some sponsor ∧ sponsorNonce prior = some sponsor)
  outbids : ∀ txid ∈ replaced, ∀ prior, pool.get txid = some prior →
    payerFee prior < payerFee transaction
  held : pool'.get (transaction.txid H) = some transaction
  kept : ∀ txid ≠ transaction.txid H,
    pool'.entries.lookup txid = if txid ∈ replaced then none else pool.entries.lookup txid

/-- What a submission may answer, and what it does to the pool then. -/
def Answered (H : Hashes) (pool pool' : Mempool) (transaction : Codec.Transaction) :
    Except Rejection Admission → Prop
  | .error _ => pool' = { pool with saturations := pool'.saturations }
  | .ok .alreadyPresent => pool' = pool ∧ transaction.txid H ∈ pool.entries
  | .ok .added => Displaces H pool pool' transaction []
  | .ok (.replaced replaced) => replaced ≠ [] ∧ Displaces H pool pool' transaction replaced

theorem get_eq_some {prior : Codec.Transaction} :
    pool.get txid = some prior ↔
      ∃ entry, pool.entries.lookup txid = some entry ∧ entry.transaction = prior := by
  rw [get, map_eq_some_iff]

section

variable (h : Balanced H pool)

include h

theorem Balanced.displaces (hread : entry.ReadOff H)
    (hfees : ∀ txid ∈ pool.holders entry, ∀ prior, pool.entries.lookup txid = some prior →
      prior.fee < entry.fee) {cleared : Mempool}
    (hcleared : ∀ held prior, cleared.entries.lookup held = some prior ↔
      held ∉ pool.holders entry ∧ pool.entries.lookup held = some prior) :
    Displaces H pool (cleared.keep (entry.transaction.txid H) entry) entry.transaction
      (pool.holders entry) where
  nodup := nodup_holders entry
  mem_iff txid := by
    simp only [h.mem_holders_iff, get, map_eq_some_iff, exists_exists_and_eq_and]
    refine exists_congr fun prior => and_congr_right fun hprior => ?_
    have hread' := (h.readOff _ _ hprior).2
    rw [hread'.origin, hread.origin, hread'.sponsor, hread.sponsor]
  outbids txid hmem := by
    intro _ hget
    obtain ⟨prior, hprior, rfl⟩ := get_eq_some.1 hget
    rw [← (h.readOff _ _ hprior).2.fee, ← hread.fee]
    exact hfees txid hmem prior hprior
  held := get_eq_some.2 ⟨entry, AList.lookup_insert _, rfl⟩
  kept txid hne := by
    have hlookup : (cleared.keep (entry.transaction.txid H) entry).entries.lookup txid
        = cleared.entries.lookup txid := AList.lookup_insert_ne hne
    rw [hlookup]
    refine ext fun prior => ?_
    rw [hcleared]
    split_ifs with hmem
    · simp [hmem]
    · simp [hmem]

theorem Balanced.keys_free {cleared : Mempool} (hbalanced : Balanced H cleared)
    (hcleared : ∀ held prior, cleared.entries.lookup held = some prior ↔
      held ∉ pool.holders entry ∧ pool.entries.lookup held = some prior) (txid : Txid) :
    txid ∉ cleared.holders entry := by
  rw [hbalanced.mem_holders_iff]
  rintro ⟨prior, hprior, hkey⟩
  obtain ⟨hnot, hprior⟩ := (hcleared _ _).1 hprior
  exact hnot (h.mem_holders_iff.2 ⟨prior, hprior, hkey⟩)

theorem Balanced.admitEntry (hread : entry.ReadOff H)
    (hfresh : pool.entries.lookup (entry.transaction.txid H) = none)
    (hheld : (pool.holders entry).map pool.entries.lookup = held.map some)
    (hfees : ∀ prior ∈ held, prior.fee < entry.fee) :
    ∃ answer pool', pool.admitEntry (entry.transaction.txid H) entry (pool.holders entry)
        = .ok (answer, pool') ∧
      Balanced H pool' ∧ pool'.network = pool.network ∧ pool'.limits = pool.limits ∧
      Answered H pool pool' entry.transaction answer := by
  obtain ⟨cleared, hremove, hbalanced, hterms, hcleared⟩ := h.removeAll (pool.holders entry)
  have hvalues := values_perm (nodup_holders entry) hheld hcleared
  have hretained : subtract (size pool.entries + 1) (pool.holders entry).length
      = .ok (size cleared.entries + 1) := by
    have hsize := hvalues.length_eq
    have hlength := congrArg length hheld
    simp only [values, length_append, length_map] at hsize hlength
    rw [subtract_eq_ok, size, size]
    omega
  have hretained' : subtract pool.bytes (held.map entryBytes).sum = .ok cleared.bytes := by
    have hsum := (hvalues.map entryBytes).sum_eq
    rw [map_append, sum_append] at hsum
    rw [subtract_eq_ok, h.bytes, hbalanced.bytes, weigh, weigh, hsum, Nat.add_comm]
  have hmap : (pool.holders entry).mapM pool.entry = .ok held := mapM_okOr_eq_ok hheld
  by_cases hfull : pool.limits.transactions < size cleared.entries + 1 ∨
      pool.limits.bytes - cleared.bytes < entryBytes entry
  · refine ⟨pool.full.1, pool.full.2, ?_, ?_, rfl, rfl, rfl⟩
    · simp only [Mempool.admitEntry, hmap, hretained, hretained', ok_bind, if_pos hfull]
      rfl
    · exact ⟨h.readOff, h.origins, h.sponsors, h.bytes, h.bytes_le, h.size_le⟩
  · have hfresh' : cleared.entries.lookup (entry.transaction.txid H) = none := by
      refine eq_none_iff_forall_ne_some.2 fun prior hprior => ?_
      cases hfresh.symm.trans ((hcleared _ _).1 hprior).2
    have hfees' : ∀ txid ∈ pool.holders entry, ∀ prior, pool.entries.lookup txid = some prior →
        prior.fee < entry.fee := by
      intro txid hmem prior hprior
      have hsome : some prior ∈ held.map some := hheld ▸ hprior ▸ mem_map_of_mem hmem
      exact hfees prior (by simpa using hsome)
    have hbytes_le := hbalanced.bytes_le
    rw [hterms.limits] at hbytes_le
    have hdisplaces := h.displaces hread hfees' hcleared
    refine ⟨.ok (admission (pool.holders entry)), cleared.keep (entry.transaction.txid H) entry, ?_, ?_,
      hterms.network, hterms.limits, ?_⟩
    · simp only [Mempool.admitEntry, hmap, hretained, hretained', ok_bind, if_neg hfull, hremove]
      rfl
    · apply hbalanced.keep hfresh' hread.txid hread (h.keys_free hbalanced hcleared)
      · rw [hterms.limits]
        omega
      · rw [hterms.limits]
        omega
    · unfold admission
      split_ifs with hnone
      · rw [hnone] at hdisplaces
        exact hdisplaces
      · exact ⟨hnone, hdisplaces⟩

/-- A submission does not fail, and does what it answers. -/
theorem Balanced.submit (transaction : Codec.Transaction) (tip : ChainTip) (now : Nat) :
    ∃ answer pool', pool.submit H verifyAuthorization transaction tip now = .ok (answer, pool') ∧
      Balanced H pool' ∧ pool'.network = pool.network ∧ pool'.limits = pool.limits ∧
      Answered H pool pool' transaction answer := by
  unfold Mempool.submit
  dsimp only
  split_ifs with hpresent
  · exact ⟨_, pool, rfl, h, rfl, rfl, rfl, AList.lookup_isSome.1 hpresent⟩
  · have hfresh := not_isSome_iff_eq_none.1 hpresent
    split
    · exact ⟨_, pool, rfl, h, rfl, rfl, rfl⟩
    · rename_i judged hjudge
      obtain ⟨rfl, hread⟩ := judge_readOff hjudge
      have hread' : ({ judged with acceptedAt := now } : Entry).ReadOff H :=
        ⟨hread.txid, hread.origin, hread.sponsor, hread.fee, hread.length⟩
      obtain ⟨held, hheld⟩ := h.holders_held { judged with acceptedAt := now }
      have houtbid : pool.outbid { judged with acceptedAt := now } = .ok
          (if held.all (fun prior => prior.fee < judged.fee) then
            .ok (pool.holders { judged with acceptedAt := now })
          else .error .conflictingNonceInMempool) := by
        rw [outbid, underbid_eq_ok hheld]
        rfl
      rw [houtbid, ok_bind]
      by_cases hwins : held.all (fun prior => prior.fee < judged.fee) = true
      · rw [if_pos hwins]
        have hfees : ∀ prior ∈ held, prior.fee < judged.fee := by simpa using hwins
        exact h.admitEntry hread' hfresh hheld hfees
      · rw [if_neg hwins]
        exact ⟨_, pool, rfl, h, rfl, rfl, rfl⟩

/-! ## Runs -/

end

theorem Reached.balanced (h : Reached H verifyAuthorization network limits pool) :
    Balanced H pool ∧ pool.network = network ∧ pool.limits = limits := by
  induction h with
  | new => exact ⟨balanced_withLimits, rfl, rfl⟩
  | submit h hsubmit ih =>
    obtain ⟨hbalanced, hnetwork, hlimits⟩ := ih
    obtain ⟨answer, pool', hsubmit', hpool', hnetwork', hlimits', -⟩ := hbalanced.submit _ _ _
    obtain ⟨-, rfl⟩ := Prod.mk.inj (Except.ok.inj (hsubmit'.symm.trans hsubmit))
    exact ⟨hpool', hnetwork'.trans hnetwork, hlimits'.trans hlimits⟩
  | remove h hremove ih =>
    obtain ⟨hbalanced, hnetwork, hlimits⟩ := ih
    obtain ⟨answer, pool', hremove', hpool', hterms, -⟩ := hbalanced.remove _
    obtain ⟨-, rfl⟩ := Prod.mk.inj (Except.ok.inj (hremove'.symm.trans hremove))
    exact ⟨hpool', hterms.network.trans hnetwork, hterms.limits.trans hlimits⟩
  | advance h hadvance ih =>
    obtain ⟨hbalanced, hnetwork, hlimits⟩ := ih
    obtain ⟨pool', hadvance', hpool', hterms⟩ := hbalanced.advance _ _
    obtain ⟨-, rfl⟩ := Prod.mk.inj (Except.ok.inj (hadvance'.symm.trans hadvance))
    exact ⟨hpool', hterms.network.trans hnetwork, hterms.limits.trans hlimits⟩

/-- In every pool that is reached the indexes name each held transaction by the nonces it spends, the
byte count is that of the held transactions and within the limits with their number, and the next
operation meets no fault; a submission does what it answers. -/
theorem books_balance (h : Reached H verifyAuthorization network limits pool) :
    (∀ txid entry, pool.entries.lookup txid = some entry → entry.transaction.txid H = txid) ∧
    Table.Indexes (fun entry : Entry => some (originNonce entry.transaction)) pool.entries
      pool.origins ∧
    Table.Indexes (fun entry : Entry => sponsorNonce entry.transaction) pool.entries pool.sponsors ∧
    pool.bytes = Table.weigh (fun entry : Entry => min (max entry.transaction.bytes.length 1)
      (2 ^ 64 - 1)) pool.entries ∧
    pool.bytes ≤ limits.bytes ∧ Table.size pool.entries ≤ limits.transactions ∧
    (∀ transaction tip now, ∃ answer pool',
      pool.submit H verifyAuthorization transaction tip now = .ok (answer, pool') ∧
      Answered H pool pool' transaction answer) ∧
    (∀ txid, ∃ answer pool', pool.remove txid = .ok (answer, pool')) ∧
    ∀ tip now, ∃ dropped pool', pool.advance tip now = .ok (dropped, pool') := by
  obtain ⟨hbalanced, -, rfl⟩ := h.balanced
  have hread := fun txid entry hlookup => (hbalanced.readOff txid entry hlookup).2
  refine ⟨fun txid entry hlookup => ?_, ?_, ?_, ?_, hbalanced.bytes_le, hbalanced.size_le,
    fun transaction tip now => ?_, fun txid => ?_, fun tip now => ?_⟩
  · rw [← (hread txid entry hlookup).txid]
    exact (hbalanced.readOff txid entry hlookup).1
  · exact hbalanced.origins.congr fun txid entry hlookup =>
      congrArg some (hread txid entry hlookup).origin
  · exact hbalanced.sponsors.congr fun txid entry hlookup => (hread txid entry hlookup).sponsor
  · rw [hbalanced.bytes]
    refine weigh_congr fun txid entry hlookup => ?_
    rw [entryBytes, (hread txid entry hlookup).length]
  · obtain ⟨answer, pool', hsubmit, -, -, -, hanswered⟩ := hbalanced.submit transaction tip now
    exact ⟨answer, pool', hsubmit, hanswered⟩
  · obtain ⟨answer, pool', hremove, -⟩ := hbalanced.remove txid
    exact ⟨answer, pool', hremove⟩
  · obtain ⟨pool', hadvance, -⟩ := hbalanced.advance tip now
    exact ⟨_, pool', hadvance⟩

/-! ## A submission at its own tip -/

variable {transaction : Codec.Transaction} {tip : ChainTip} {now : Nat}

theorem Balanced.mem_stale (h : Balanced H pool) : txid ∈ pool.stale tip now ↔
    ∃ entry, pool.entries.lookup txid = some entry ∧ entry.isStale tip now := by
  simp only [stale, mem_insertionSort, List.mem_map, mem_filter, mem_values]
  grind [h.readOff]

/-- A submission that is taken up is held as it was judged. -/
theorem submit_held {admission : Admission} (hnew : admission ≠ .alreadyPresent)
    (h : pool.submit H verifyAuthorization transaction tip now = .ok (.ok admission, pool')) :
    ∃ judged, judge H verifyAuthorization pool transaction tip = .ok judged ∧
      pool'.entries.lookup (transaction.txid H) = some { judged with acceptedAt := now } := by
  unfold Mempool.submit at h
  dsimp only at h
  split_ifs at h
  · cases h
    exact absurd rfl hnew
  · split at h
    · cases h
    · rename_i judged hjudge
      obtain ⟨outcome, -, h⟩ := bind_eq_ok.1 h
      cases outcome with
      | error rejection => cases h
      | ok replaced =>
        simp only [Mempool.admitEntry, bind_eq_ok] at h
        obtain ⟨_, -, _, -, _, -, h⟩ := h
        split_ifs at h
        · cases h
        · obtain ⟨cleared, -, h⟩ := bind_eq_ok.1 h
          cases h
          exact ⟨judged, hjudge, AList.lookup_insert _⟩

variable (H verifyAuthorization) in
/-- Submit a transaction and advance to the same tip: the answer, and what is dropped. -/
def submitThenAdvance (pool : Mempool) (transaction : Codec.Transaction) (tip : ChainTip) (now : Nat) :
    Except Fault (Except Rejection Admission × List Txid) := do
  let (answer, pool) ← pool.submit H verifyAuthorization transaction tip now
  let (dropped, _) ← pool.advance tip now
  return (answer, dropped)

/-- A transaction that is taken up at a tip is dropped again by advancing to that tip exactly when it
is one of those that admission overlooks. -/
theorem submitted_dropped_iff (h : Reached H verifyAuthorization network limits pool)
    (transaction : Codec.Transaction) (tip : ChainTip) (now : Nat) :
    ∃ answer dropped, pool.submitThenAdvance H verifyAuthorization transaction tip now
        = .ok (answer, dropped) ∧
      ∀ admission, answer = .ok admission → admission ≠ .alreadyPresent →
        (transaction.txid H ∈ dropped ↔ Overlooked tip transaction) := by
  obtain ⟨answer, pool', hsubmit, hbalanced, -⟩ := h.balanced.1.submit transaction tip now
  obtain ⟨pool'', hadvance, -⟩ := hbalanced.advance tip now
  refine ⟨answer, pool'.stale tip now, bind_eq_ok.2 ⟨_, hsubmit, bind_eq_ok.2 ⟨_, hadvance, rfl⟩⟩, ?_⟩
  rintro admission rfl hnew
  obtain ⟨judged, hjudge, hheld⟩ := submit_held hnew hsubmit
  rw [hbalanced.mem_stale, hheld, ← judge_isStale_iff now hjudge]
  simp

/-! ## A replacement of two -/

/-- A transfer with its own encoding kept. -/
def transferBy (auth : Codec.TransactionAuth) : Codec.Transaction :=
  ({ Codec.Transaction.transferUnder [] with
    auth
    payload := ⟨.tokenTransfer (.standard ⟨22, Bytes.replicate 20 9, StacksAddress.single_le true⟩) 1 (Bytes.zero 34), []⟩ }
    : Codec.Transaction).cached

/-- The first nonce of an account, spent for a fee. -/
def spending (account : UInt8) (fee : Nat) : Codec.SpendingCondition :=
  .singlesig .p2pkh (Bytes.replicate 20 account) 0 fee .compressed (Bytes.zero 65)

/-- The pool after a submission at a tip that knows no account. -/
def next (pool : Mempool) (transaction : Codec.Transaction) : Mempool :=
  match pool.submit plainCrypto (fun _ => .ok ()) transaction (fun _ => ⟨0, none⟩) 0 with
  | .ok (_, pool') => pool'
  | .error _ => pool

theorem Reached.next (h : Reached plainCrypto (fun _ => .ok ()) network limits pool)
    (transaction : Codec.Transaction) :
    Reached plainCrypto (fun _ => .ok ()) network limits (pool.next transaction) := by
  unfold Mempool.next
  split
  · rename_i hsubmit
    exact h.submit hsubmit
  · exact h

/-- One transaction spends a nonce of account 1, the other is sponsored by account 3. -/
def contested : Mempool :=
  ((withLimits ⟨true, 1⟩ ⟨2, 500⟩).next (transferBy (.standard (spending 1 1000)))).next
    (transferBy (.sponsored (spending 2 0) (spending 3 1000)))

/-- It spends a nonce of both. -/
def contender : Codec.Transaction := transferBy (.sponsored (spending 1 0) (spending 3 1001))

theorem books_balance_contested :
    contested.bytes ≤ 500 ∧ Table.size contested.entries = 2 ∧
      ∃ replaced pool', contested.submit plainCrypto (fun _ => .ok ()) contender
          (fun _ => ⟨0, none⟩) 0 = .ok (.ok (.replaced replaced), pool') ∧
        replaced.length = 2 ∧ Displaces plainCrypto contested pool' contender replaced := by
  have hreached : Reached plainCrypto (fun _ => .ok ()) ⟨true, 1⟩ ⟨2, 500⟩ contested :=
    (Reached.new.next _).next _
  obtain ⟨-, -, -, -, hbytes, -, hsubmit, -⟩ := books_balance hreached
  obtain ⟨answer, pool', hsubmit, hanswered⟩ := hsubmit contender (fun _ => ⟨0, none⟩) 0
  have htwo : ((contested.submit plainCrypto (fun _ => .ok ()) contender
      (fun _ => ⟨0, none⟩) 0).map fun r => match r.1 with
        | .ok (.replaced replaced) => replaced.length
        | _ => 0) = .ok 2 := by
    decide +kernel
  refine ⟨hbytes, by decide +kernel, ?_⟩
  rw [hsubmit] at htwo ⊢
  obtain _ | _ | replaced | _ := answer
  · exact absurd htwo (by simp [Except.map])
  · exact absurd htwo (by simp [Except.map])
  · exact ⟨replaced, pool', rfl, Except.ok.inj htwo, hanswered.2⟩
  · exact absurd htwo (by simp [Except.map])

/-- Advancing drops what is stale at the tip and nothing else, and advancing again drops nothing. -/
theorem advance_settles (h : Reached H verifyAuthorization network limits pool) (tip : ChainTip)
    (now : Nat) :
    ∃ dropped pool', pool.advance tip now = .ok (dropped, pool') ∧
      (∀ txid, txid ∈ dropped ↔ ∃ entry, pool.entries.lookup txid = some entry ∧ entry.isStale tip now) ∧
      (∀ txid entry, pool'.entries.lookup txid = some entry ↔
        pool.entries.lookup txid = some entry ∧ ¬entry.isStale tip now) ∧
      pool'.advance tip now = .ok ([], pool') := by
  obtain ⟨pool', hremove, hbalanced, -, hkept⟩ := h.balanced.1.removeAll (pool.stale tip now)
  have hleft : ∀ txid entry, pool'.entries.lookup txid = some entry ↔
      pool.entries.lookup txid = some entry ∧ ¬entry.isStale tip now := by
    intro txid entry
    rw [hkept, h.balanced.1.mem_stale, and_comm, and_congr_right_iff]
    intro hheld
    simp [hheld]
  have hnone : pool'.stale tip now = [] := by
    refine eq_nil_iff_forall_not_mem.2 fun txid hmem => ?_
    obtain ⟨entry, hheld, hstale⟩ := hbalanced.mem_stale.1 hmem
    exact ((hleft txid entry).1 hheld).2 hstale
  refine ⟨_, pool', by simp only [Mempool.advance, hremove, ok_bind, pure_eq_ok],
    fun txid => h.balanced.1.mem_stale, hleft, ?_⟩
  rw [Mempool.advance, hnone]
  rfl

theorem advance_settles_contested :
    ∃ dropped pool', contested.advance (fun _ => ⟨1, none⟩) 0 = .ok (dropped, pool') ∧
      pool'.advance (fun _ => ⟨1, none⟩) 0 = .ok ([], pool') := by
  obtain ⟨dropped, pool', hadvance, -, -, hagain⟩ :=
    advance_settles ((Reached.new.next _).next _ : Reached plainCrypto (fun _ => .ok ()) _ _
      contested) (fun _ => ⟨1, none⟩) 0
  exact ⟨dropped, pool', hadvance, hagain⟩

/-- A new pool is offered a transaction at a tip: whether it is added, and what is dropped. -/
def offered (transaction : Codec.Transaction) (tip : ChainTip) : Except Fault (Bool × List Txid) :=
  ((withLimits ⟨true, 1⟩ ⟨2, 500⟩).submitThenAdvance plainCrypto (fun _ => .ok ())
    transaction tip 0).map fun (answer, dropped) => (answer matches .ok .added, dropped)

theorem submitted_dropped_iff_new :
    ∃ dropped, (withLimits ⟨true, 1⟩ ⟨2, 500⟩).submitThenAdvance plainCrypto
        (fun _ => .ok ()) contender (fun _ => ⟨0, none⟩) 0 = .ok (.ok .added, dropped) ∧
      (contender.txid plainCrypto ∈ dropped ↔ Overlooked (fun _ => ⟨0, none⟩) contender) := by
  obtain ⟨answer, dropped, hrun, hiff⟩ :=
    submitted_dropped_iff .new contender (fun _ => ⟨0, none⟩) 0
  have hadded : (offered contender fun _ => ⟨0, none⟩).map (·.1) = .ok true := by decide +kernel
  rw [offered, hrun] at hadded
  obtain rfl : answer = .ok .added := by
    simp only [Except.map, Except.ok.injEq] at hadded
    split at hadded <;> simp_all
  exact ⟨dropped, hrun, hiff _ rfl nofun⟩

/-- A transfer whose sponsor cannot pay its fee. -/
theorem added_and_dropped :
    offered contender (fun _ => ⟨0, some 1⟩) = .ok (true, [contender.txid plainCrypto]) ∧
      -- The nonce of an origin is spent, and the one of its sponsor is to come.
      (offered (transferBy (.sponsored (spending 1 0) (.singlesig .p2pkh (Bytes.replicate 20 3) 1 1001
          .compressed (Bytes.zero 65))))
        (fun address => ⟨if address.hash160 = Bytes.replicate 20 1 then 1 else 0, none⟩)).map
          (fun r => (r.1, r.2.length)) = .ok (true, 1) := by
  decide +kernel

end Mempool

end NanoStacks.Pool
