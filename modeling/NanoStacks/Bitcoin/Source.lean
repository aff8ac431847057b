import NanoStacks.Bitcoin.Decode
import NanoStacks.Lib.Result
import Mathlib.Data.Finset.Insert
import Mathlib.Order.Interval.Finset.Nat

/-!
# Bitcoin sources

A source reads blocks one height at a time and carries the `PreStx` senders of the last six blocks. It
remembers the last block it read, goes on from there when asked for a higher one, and reads the window
again when it is asked for a lower one or has nothing to go on from. The RPC source and the REST
source differ only in where they stand after an invalidation.

What a source has read is followed beside it (`Coverage`): the heights whose senders the cache stands
for, and whether the last block was decoded with all six blocks below it among them. A block without a
`PreStx` is not missed.

* `source_reads_like_new`: in every run, over a chain that may reorganize between calls, a block read
  while the cache stands for every sender of its window is the block a new source reads.
* `window_lost`: both sources can be brought to read with a window that is not whole.
-/

namespace NanoStacks.Bitcoin

open Result List Option

/-! ## The sources -/

inductive BitcoinRpcSourceError
  | rpc (reason : String)
  | rest (reason : String)
  | restResponseTooLarge (limit : Nat)
  | parse (error : BitcoinParseError)
  | reorganized (height : Nat)

structure Source where
  preStx : PreStxCache
  lastHeight : Option Nat
  lastBlock : Option BitcoinBlock

/-- What a Bitcoin node answers during one call: the hash of a block, and the block, `none` for bytes
that are not one. -/
structure Reads where
  hashAt : Nat → Except BitcoinRpcSourceError (Bytes 32)
  rawAt : Nat → Except BitcoinRpcSourceError (Option RawBlock)

inductive SourceKind
  | rpc
  | rest

namespace Source

def new : Source := ⟨.new, none, none⟩

/-- `BitcoinRpcSource::invalidate_from`: the source stands on the block below. -/
def rpcInvalidateFrom (source : Source) (height : Nat) : Source where
  preStx := source.preStx.invalidateFrom height
  lastBlock := source.lastBlock.filter (·.height < height)
  lastHeight := source.lastHeight.bind fun last =>
    if last < height then some last else if height = 0 then none else some (height - 1)

/-- `BitcoinRestSource::invalidate_from`: the source stands nowhere. -/
def restInvalidateFrom (source : Source) (height : Nat) : Source where
  preStx := source.preStx.invalidateFrom height
  lastBlock := source.lastBlock.filter (·.height < height)
  lastHeight := source.lastHeight.filter (· < height)

def invalidateFrom (kind : SourceKind) (source : Source) (height : Nat) : Source :=
  match kind with
  | .rpc => source.rpcInvalidateFrom height
  | .rest => source.restInvalidateFrom height

variable (validKey : Bytes 32 → Bool) (magic : Bytes 2) (kind : SourceKind) (reads : Reads)

/-- Report a reorganization of the last block read. -/
def checkLastRead (source : Source) : Except BitcoinRpcSourceError Unit × Source :=
  match source.lastBlock with
  | none => (.ok (), source)
  | some block =>
    match reads.hashAt block.height with
    | .error error => (.error error, source)
    | .ok hash =>
      if hash = block.hash then (.ok (), source)
      else (.error (.reorganized block.height), source.invalidateFrom kind block.height)

/-- Read some heights in order; the last block read is the answer. -/
def walk : Option BitcoinBlock → List Nat → Source →
    Except BitcoinRpcSourceError BitcoinBlock × Source
  | current, [], source => (okOr current (.parse .invalidBlock), source)
  | _, height :: rest, source =>
    match reads.rawAt height with
    | .error error => (.error error, source)
    | .ok raw =>
      match decodeBlockWithPreStx validKey magic height raw source.preStx with
      | (.error error, cache) => (.error (.parse error), { source with preStx := cache })
      | (.ok block, cache) => walk (some block) rest ⟨cache, some height, some block⟩

/-- The first height a read has to start from: the next one, or the window's. -/
def firstHeight (source : Source) (height : Nat) : Nat :=
  match source.lastHeight.filter (· < height) with
  | some last => last + 1
  | none => height - preStxWindowBlocks

/-- The senders are forgotten when an older block is asked for. -/
def forgetAhead (source : Source) (height : Nat) : Source :=
  if source.lastHeight.any (height < ·) then { source with preStx := .new } else source

def blockAt (source : Source) (height : Nat) : Except BitcoinRpcSourceError BitcoinBlock × Source :=
  match checkLastRead kind reads source with
  | (.error error, source) => (.error error, source)
  | (.ok (), source) =>
    match source.lastBlock.filter (·.height = height) with
    | some block => (.ok block, source)
    | none =>
      let first := source.firstHeight height
      walk validKey magic reads none (List.range' first (height + 1 - first))
        (source.forgetAhead height)

end Source

/-! ## The chain read, and what the cache stands for -/

/-- Bitcoin's blocks by height. -/
abbrev BurnChain := Nat → RawBlock

/-- What Bitcoin's rules give: a transaction is in the chain once, spends what stands before it, and
a block has no more transactions than a `u32` counts. -/
structure ValidChain (chain : BurnChain) : Prop where
  unique : ∀ ⦃x j y k : Nat⦄ ⦃transaction other : RawTransaction⦄, (chain x).transactions[j]? = some transaction →
    (chain y).transactions[k]? = some other → transaction.txid = other.txid → x = y ∧ j = k
  ordered : ∀ ⦃x j y k : Nat⦄ ⦃transaction other : RawTransaction⦄ ⦃input : BitcoinInput⦄,
    (chain x).transactions[j]? = some transaction →
    (chain y).transactions[k]? = some other → transaction.inputs.head? = some input →
    input.txid = other.txid → y < x ∨ y = x ∧ k < j
  short : ∀ x, (chain x).transactions.length ≤ 2 ^ 32

/-- The reads that answer, answer with the chain. -/
structure Reads.Faithful (reads : Reads) (chain : BurnChain) : Prop where
  hash : ∀ ⦃height hash⦄, reads.hashAt height = .ok hash → hash = (chain height).hash
  raw : ∀ ⦃height raw⦄, reads.rawAt height = .ok raw → raw = some (chain height)

/-- Reads that never fail. -/
def Reads.answering (chain : BurnChain) : Reads :=
  ⟨fun height => .ok (chain height).hash, fun height => .ok (some (chain height))⟩

/-- The heights whose senders the cache stands for, and whether the last block was decoded with its
whole window among them. -/
structure Coverage where
  held : Finset Nat
  whole : Bool

/-- A block holds no `PreStx`. -/
def Barren (validKey : Bytes 32 → Bool) (magic : Bytes 2) (chain : BurnChain) (height : Nat) : Bool :=
  (chain height).transactions.all (preStxSender validKey magic · = none)

/-- Each of the six blocks below a height is held, or has nothing to hold. -/
def Spans (barren : Nat → Bool) (held : Finset Nat) (height : Nat) : Prop :=
  ∀ x ∈ Finset.Ico (height - preStxWindowBlocks) height, x ∈ held ∨ barren x

instance (barren : Nat → Bool) (held : Finset Nat) (height : Nat) : Decidable (Spans barren held height) :=
  inferInstanceAs (Decidable (∀ x ∈ Finset.Ico _ _, x ∈ held ∨ barren x))

namespace Coverage

def new : Coverage := ⟨∅, false⟩

/-- A block is decoded: what lies more than six below it is dropped. -/
def decode (barren : Nat → Bool) (coverage : Coverage) (height : Nat) : Coverage where
  held := insert height (coverage.held.filter (height - · ≤ preStxWindowBlocks))
  whole := Spans barren coverage.held height

def invalidateFrom (coverage : Coverage) (height : Nat) : Coverage :=
  { coverage with held := coverage.held.filter (· < height) }

/-- The heights read in order until a read fails. -/
def walk (barren : Nat → Bool) (reads : Reads) : List Nat → Coverage → Coverage
  | [], coverage => coverage
  | height :: rest, coverage =>
    match reads.rawAt height with
    | .error _ => coverage
    | .ok _ => walk barren reads rest (coverage.decode barren height)

def forgetAhead (source : Source) (coverage : Coverage) (height : Nat) : Coverage :=
  if source.lastHeight.any (height < ·) then { coverage with held := ∅ } else coverage

/-- A last block that is no longer the chain's is given up. -/
def checkLastRead (reads : Reads) (source : Source) (coverage : Coverage) : Coverage :=
  match source.lastBlock with
  | none => coverage
  | some block =>
    match reads.hashAt block.height with
    | .error _ => coverage
    | .ok hash => if hash = block.hash then coverage else coverage.invalidateFrom block.height

def blockAt (barren : Nat → Bool) (kind : SourceKind) (reads : Reads) (source : Source)
    (coverage : Coverage) (height : Nat) : Coverage :=
  let coverage := checkLastRead reads source coverage
  match source.checkLastRead kind reads with
  | (.error _, _) => coverage
  | (.ok (), source) =>
    match source.lastBlock.filter (·.height = height) with
    | some _ => coverage
    | none =>
      let first := source.firstHeight height
      walk barren reads (List.range' first (height + 1 - first))
        (forgetAhead source coverage height)

end Coverage

/-! ## Decoding with the window at hand -/

section Decoding

variable (validKey : Bytes 32 → Bool) (magic : Bytes 2)

/-- The transaction at a position of the chain is a `PreStx`. -/
def PreStxAt (chain : BurnChain) (height index : Nat) (txid : Txid) (sender : StacksAddress) : Prop :=
  ∃ transaction, (chain height).transactions[index]? = some transaction ∧
    transaction.txid = txid ∧ preStxSender validKey magic transaction = some sender

/-- The cache holds the senders of exactly these blocks. -/
def StandsFor (chain : BurnChain) (held : Finset Nat) (cache : PreStxCache) : Prop :=
  ∀ txid sender height, cache.senders txid = some (sender, height) ↔
    height ∈ held ∧ ∃ index, PreStxAt validKey magic chain height index txid sender

/-- A cache that knows every sender a transaction at a position can name: it holds nothing but
senders of the window, and all of them that stand before the position. -/
structure Knows (chain : BurnChain) (height index : Nat) (cache : PreStxCache) : Prop where
  truthful : ∀ ⦃txid sender seen⦄, cache.senders txid = some (sender, seen) →
    height - seen ≤ preStxWindowBlocks ∧
      ∃ index, PreStxAt validKey magic chain seen index txid sender
  complete : ∀ ⦃txid sender seen at_⦄, PreStxAt validKey magic chain seen at_ txid sender →
    height - seen ≤ preStxWindowBlocks → (seen < height ∨ seen = height ∧ at_ < index) →
    cache.senders txid = some (sender, seen)

variable {validKey magic} {chain : BurnChain} {height index : Nat} {held : Finset Nat}
  {cache cache' : PreStxCache}

variable {sender : StacksAddress}

theorem PreStxAt.not_barren {txid : Txid}
    (h : PreStxAt validKey magic chain height index txid sender) :
    ¬Barren validKey magic chain height := by
  obtain ⟨transaction, hat, -, hsender⟩ := h
  intro hbarren
  have hnone := all_eq_true.1 hbarren transaction (mem_of_getElem? hat)
  simp [hsender] at hnone

theorem noteTransaction_senders (transaction : RawTransaction) (txid : Txid) :
    (noteTransaction validKey magic height cache transaction).senders txid =
      if txid = transaction.txid then
        ((preStxSender validKey magic transaction).map (·, height)).or (cache.senders txid)
      else cache.senders txid := by
  unfold noteTransaction
  cases preStxSender validKey magic transaction <;> simp
  grind

theorem StandsFor.new : StandsFor validKey magic chain ∅ .new := by
  intro txid sender seen
  simp [PreStxCache.new]

section

variable (h : StandsFor validKey magic chain held cache)

include h

theorem StandsFor.retainWindow (height : Nat) :
    StandsFor validKey magic chain (held.filter (height - · ≤ preStxWindowBlocks))
      (cache.retainWindow height) := by
  intro txid sender seen
  simp only [PreStxCache.retainWindow, filter_eq_some_iff, h txid sender seen,
    Finset.mem_filter, decide_eq_true_eq]
  tauto

variable {chain' : BurnChain}

theorem StandsFor.invalidateFrom {height : Nat} (hagree : ∀ x < height, chain' x = chain x) :
    StandsFor validKey magic chain' (held.filter (· < height)) (cache.invalidateFrom height) := by
  intro txid sender seen
  simp only [PreStxCache.invalidateFrom, filter_eq_some_iff, h txid sender seen,
    Finset.mem_filter, decide_eq_true_eq, PreStxAt]
  grind

theorem StandsFor.knows (hspans : Spans (Barren validKey magic chain) held height) :
    Knows validKey magic chain height 0 (cache.retainWindow height) where
  truthful := by
    intro txid sender seen hseen
    obtain ⟨hmem, hat⟩ := (h.retainWindow height txid sender seen).1 hseen
    exact ⟨(Finset.mem_filter.1 hmem).2, hat⟩
  complete := by
    intro txid sender seen index hat hwindow hbefore
    have hlt : seen < height := by omega
    have hheld : seen ∈ held :=
      (hspans seen (Finset.mem_Ico.2 ⟨by omega, hlt⟩)).resolve_right hat.not_barren
    exact (h.retainWindow height txid sender seen).2 ⟨Finset.mem_filter.2 ⟨hheld, hwindow⟩, _, hat⟩

end

variable {transaction : RawTransaction}

section

variable (hvalid : ValidChain chain) (h : Knows validKey magic chain height index cache)

include hvalid h

theorem Knows.step (hat : (chain height).transactions[index]? = some transaction) :
    Knows validKey magic chain height (index + 1)
      (noteTransaction validKey magic height cache transaction) where
  truthful := by
    intro txid sender seen hseen
    rw [noteTransaction_senders] at hseen
    have hknown (hbefore : cache.senders txid = some (sender, seen)) := h.truthful hbefore
    have hhere (found : StacksAddress) (hfound : preStxSender validKey magic transaction = some found) :
        PreStxAt validKey magic chain height index transaction.txid found := ⟨_, hat, rfl, hfound⟩
    cases hsender : preStxSender validKey magic transaction <;> grind
  complete := by
    intro txid sender seen at_ hprestx hwindow hbefore
    obtain ⟨other, hother, htxid, hsender⟩ := hprestx
    rw [noteTransaction_senders]
    -- two positions never hold one transaction
    have hsame := hvalid.unique hother hat
    have hknown := h.complete ⟨other, hother, htxid, hsender⟩ hwindow
    grind

section

variable (h' : Knows validKey magic chain height index cache')
  (hat : (chain height).transactions[index]? = some transaction)

include h' hat

theorem Knows.senderOf (hsender : cache.senderOf transaction = some sender) :
    cache'.senderOf transaction = some sender := by
  simp only [PreStxCache.senderOf, bind_eq_bind, bind_eq_some_iff] at hsender ⊢
  obtain ⟨input, hinput, hsender⟩ := hsender
  refine ⟨input, hinput, ?_⟩
  split_ifs at hsender ⊢ with houtput
  obtain ⟨⟨found, seen⟩, hfound, rfl⟩ := map_eq_some_iff.1 hsender
  obtain ⟨hwindow, at_, hprestx⟩ := h.truthful hfound
  obtain ⟨other, hother, htxid, -⟩ := id hprestx
  have hbefore := hvalid.ordered hat hother hinput htxid.symm
  rw [h'.complete hprestx hwindow hbefore]
  rfl

theorem Knows.senderOf_eq : cache.senderOf transaction = cache'.senderOf transaction := by
  apply ext
  intro sender
  exact ⟨h.senderOf hvalid h' hat, h'.senderOf hvalid h hat⟩

end

end

variable {transactions : List RawTransaction}

theorem Knows.decode_eq (hvalid : ValidChain chain)
    (h : Knows validKey magic chain height index cache)
    (h' : Knows validKey magic chain height index cache')
    (hrest : (chain height).transactions.drop index = transactions) :
    (decodeTransactions validKey magic height index transactions cache).1 =
      (decodeTransactions validKey magic height index transactions cache').1 := by
  induction transactions generalizing index cache cache' with
  | nil => rfl
  | cons transaction rest ih =>
    have hat : (chain height).transactions[index]? = some transaction := by
      rw [← head?_drop, hrest, head?_cons]
    have hindex : index < 2 ^ 32 :=
      Nat.lt_of_lt_of_le (List.getElem?_eq_some_iff.1 hat).1 (hvalid.short height)
    have hdrop : (chain height).transactions.drop (index + 1) = rest := by
      rw [← drop_drop, hrest, drop_one, tail_cons]
    rw [decodeTransactions_cons hindex, decodeTransactions_cons hindex]
    simp only
    rw [h.senderOf_eq hvalid h' hat, ih (h.step hvalid hat) (h'.step hvalid hat) hdrop]

/-- What a list of distinct transactions leaves in the cache: their own senders, and what was there
before. -/
theorem foldl_note_senders
    (hunique : ∀ a ∈ transactions, ∀ b ∈ transactions, a.txid = b.txid → a = b) {txid : Txid}
    {seen : Nat} :
    (transactions.foldl (noteTransaction validKey magic height) cache).senders txid =
        some (sender, seen) ↔
      (seen = height ∧ ∃ transaction ∈ transactions, transaction.txid = txid ∧
        preStxSender validKey magic transaction = some sender) ∨
      cache.senders txid = some (sender, seen) ∧ ∀ transaction ∈ transactions,
        transaction.txid = txid → preStxSender validKey magic transaction = none := by
  induction transactions generalizing cache with
  | nil => simp
  | cons first rest ih =>
    have hrest : ∀ a ∈ rest, ∀ b ∈ rest, a.txid = b.txid → a = b := fun a ha b hb =>
      hunique a (mem_cons_of_mem _ ha) b (mem_cons_of_mem _ hb)
    -- a transaction of the rest with the first one's identifier is the first one again
    have hsame : ∀ a ∈ rest, a.txid = first.txid → a = first := fun a ha heq =>
      hunique a (mem_cons_of_mem _ ha) first mem_cons_self heq
    rw [foldl_cons, ih hrest, noteTransaction_senders]
    by_cases htxid : txid = first.txid
    · cases hfirst : preStxSender validKey magic first with
      | none => simp [htxid, hfirst]
      | some found =>
        by_cases hagain : ∃ a ∈ rest, a.txid = first.txid <;> grind
    · have hne : first.txid ≠ txid := fun heq => htxid heq.symm
      simp [htxid, hne]

theorem StandsFor.noted (hvalid : ValidChain chain) (h : StandsFor validKey magic chain held cache) :
    StandsFor validKey magic chain (insert height held)
      ((chain height).transactions.foldl (noteTransaction validKey magic height) cache) := by
  have hplaces := hvalid.unique
  have hunique : ∀ a ∈ (chain height).transactions, ∀ b ∈ (chain height).transactions,
      a.txid = b.txid → a = b := by
    simp only [mem_iff_getElem?]
    grind
  intro txid sender seen
  rw [foldl_note_senders hunique, h txid sender seen, Finset.mem_insert]
  simp only [PreStxAt, mem_iff_getElem?]
  grind

theorem exists_decodeTransactions (hindex : index + transactions.length ≤ 2 ^ 32)
    (cache : PreStxCache) :
    ∃ operations,
      (decodeTransactions validKey magic height index transactions cache).1 = .ok operations := by
  induction transactions generalizing index cache with
  | nil => exact ⟨[], rfl⟩
  | cons transaction rest ih =>
    rw [length_cons] at hindex
    have hrest : index + 1 + rest.length ≤ 2 ^ 32 := by omega
    rw [decodeTransactions_cons (by omega)]
    obtain ⟨operations, hoperations⟩ :=
      ih hrest (noteTransaction validKey magic height cache transaction)
    simp only [hoperations]
    exact ⟨_, rfl⟩

section

variable (hvalid : ValidChain chain) (h : StandsFor validKey magic chain held cache)

include hvalid h

theorem StandsFor.decodeBlock (height : Nat) :
    ∃ block cache', decodeBlockWithPreStx validKey magic height (some (chain height)) cache =
        (.ok block, cache') ∧ block.height = height ∧
      StandsFor validKey magic chain
        (insert height (held.filter (height - · ≤ preStxWindowBlocks))) cache' := by
  have hlength : 0 + (chain height).transactions.length ≤ 2 ^ 32 := by
    rw [Nat.zero_add]
    exact hvalid.short height
  obtain ⟨operations, hoperations⟩ : ∃ operations,
      (decodeTransactions validKey magic height 0 (chain height).transactions
        (cache.retainWindow height)).1 = .ok operations := exists_decodeTransactions hlength _
  refine ⟨⟨height, (chain height).hash, (chain height).timestamp, operations⟩, _,
    Prod.ext ?_ rfl, rfl, ?_⟩
  · simp only [decodeBlockWithPreStx, hoperations, Except.map]
  · simp only [decodeBlockWithPreStx]
    rw [decodeTransactions_cache hlength]
    exact (h.retainWindow height).noted hvalid

theorem StandsFor.decodeBlock_eq {held' : Finset Nat}
    (h' : StandsFor validKey magic chain held' cache')
    (hspans : Spans (Barren validKey magic chain) held height)
    (hspans' : Spans (Barren validKey magic chain) held' height) :
    (decodeBlockWithPreStx validKey magic height (some (chain height)) cache).1 =
      (decodeBlockWithPreStx validKey magic height (some (chain height)) cache').1 := by
  simp only [decodeBlockWithPreStx]
  rw [(h.knows hspans).decode_eq hvalid (h'.knows hspans') (drop_zero)]

end

end Decoding

/-! ## Walks -/

section Walks

variable (validKey : Bytes 32 → Bool) (magic : Bytes 2)

/-- The block a new source reads. -/
def freshBlock (chain : BurnChain) (height : Nat) : Except BitcoinRpcSourceError BitcoinBlock :=
  (Source.walk validKey magic (.answering chain) none
    (List.range' (height - preStxWindowBlocks) (height + 1 - (height - preStxWindowBlocks)))
    .new).1

theorem blockAt_new (kind : SourceKind) (chain : BurnChain) (height : Nat) :
    (Source.blockAt validKey magic kind (.answering chain) .new height).1 =
      freshBlock validKey magic chain height := rfl

variable {validKey magic} {chain : BurnChain} {reads : Reads}

variable {held : Finset Nat} {source : Source} {height : Nat}

theorem answering_faithful (chain : BurnChain) : (Reads.answering chain).Faithful chain :=
  ⟨fun _ _ h => (Except.ok.inj h).symm, fun _ _ h => (Except.ok.inj h).symm⟩

theorem walk_cons (hvalid : ValidChain chain) (hreads : reads.Faithful chain)
    (h : StandsFor validKey magic chain held source.preStx) {raw : Option RawBlock}
    (hraw : reads.rawAt height = .ok raw) (current : Option BitcoinBlock) (rest : List Nat) :
    ∃ block cache, (decodeBlockWithPreStx validKey magic height (some (chain height))
        source.preStx).1 = .ok block ∧ block.height = height ∧
      StandsFor validKey magic chain
        (insert height (held.filter (height - · ≤ preStxWindowBlocks))) cache ∧
      source.walk validKey magic reads current (height :: rest) =
        Source.walk validKey magic reads (some block) rest ⟨cache, some height, some block⟩ := by
  obtain ⟨block, cache, hdecode, hheight, hstands⟩ := h.decodeBlock hvalid height
  obtain rfl := hreads.raw hraw
  refine ⟨block, cache, by rw [hdecode], hheight, hstands, ?_⟩
  rw [Source.walk, hraw]
  simp only [hdecode]

/-- Where a walk over consecutive heights ends up if every read answers: the last block is decoded
with a cache that still stands for what the walk has read and what was there before. -/
theorem walk_answering (hvalid : ValidChain chain) (first steps : Nat)
    (h : StandsFor validKey magic chain held source.preStx) (current : Option BitcoinBlock) :
    ∃ held' cache block, StandsFor validKey magic chain held' cache ∧
      (∀ x, x ∈ held ∨ first ≤ x ∧ x < first + steps →
        first + steps - x ≤ preStxWindowBlocks → x ∈ held') ∧
      (decodeBlockWithPreStx validKey magic (first + steps) (some (chain (first + steps)))
        cache).1 = .ok block ∧
      (source.walk validKey magic (.answering chain) current
        (List.range' first (steps + 1))).1 = .ok block := by
  have hreads := answering_faithful chain
  induction steps generalizing first held source current with
  | zero =>
    have hraw : (Reads.answering chain).rawAt first = .ok (some (chain first)) := rfl
    obtain ⟨block, cache, hdecode, -, -, hwalk⟩ := walk_cons hvalid hreads h hraw current []
    refine ⟨held, source.preStx, block, h, by grind, hdecode, ?_⟩
    rw [Nat.zero_add, range'_one, hwalk]
    rfl
  | succ steps ih =>
    have hraw : (Reads.answering chain).rawAt first = .ok (some (chain first)) := rfl
    obtain ⟨block, cache, -, -, hstands, hwalk⟩ := walk_cons hvalid hreads h hraw current
      (range' (first + 1) (steps + 1))
    have hnext : StandsFor validKey magic chain
        (insert first (held.filter (first - · ≤ preStxWindowBlocks)))
        (Source.mk cache (some first) (some block)).preStx := hstands
    obtain ⟨held', cache', last, hstands', hheld', hlast, hresult⟩ :=
      ih (first + 1) hnext (some block)
    have hend : first + 1 + steps = first + (steps + 1) := by omega
    rw [hend] at hheld' hlast
    refine ⟨held', cache', last, hstands', fun x hx hwindow => hheld' x ?_ hwindow, hlast, ?_⟩
    · rw [Finset.mem_insert, Finset.mem_filter]
      grind
    · rw [range'_succ, hwalk]
      exact hresult

variable {block : BitcoinBlock}

theorem freshBlock_eq (hvalid : ValidChain chain) {cache : PreStxCache}
    (h : StandsFor validKey magic chain held cache)
    (hspans : Spans (Barren validKey magic chain) held height)
    (hdecode : (decodeBlockWithPreStx validKey magic height (some (chain height)) cache).1 =
      .ok block) : freshBlock validKey magic chain height = .ok block := by
  have hnew : StandsFor validKey magic chain ∅ Source.new.preStx := StandsFor.new
  obtain ⟨held', cache', block', hstands', hheld', hblock', hwalk⟩ :=
    walk_answering hvalid (height - preStxWindowBlocks) (height - (height - preStxWindowBlocks))
      hnew none
  have hend : height - preStxWindowBlocks + (height - (height - preStxWindowBlocks)) = height := by
    omega
  rw [hend] at hheld' hblock'
  have hspans' : Spans (Barren validKey magic chain) held' height := by
    intro x hx
    rw [Finset.mem_Ico] at hx
    exact .inl (hheld' x (.inr hx) (by omega))
  have hsteps : height + 1 - (height - preStxWindowBlocks) =
      height - (height - preStxWindowBlocks) + 1 := by omega
  have heq := h.decodeBlock_eq hvalid hstands' hspans hspans'
  rw [hdecode, hblock'] at heq
  obtain rfl := Except.ok.inj heq
  rw [freshBlock, hsteps, hwalk]

theorem decodeBlock_height {raw : Option RawBlock} {cache cache' : PreStxCache}
    (h : decodeBlockWithPreStx validKey magic height raw cache = (.ok block, cache')) :
    block.height = height := by
  cases raw with
  | none => simp [decodeBlockWithPreStx] at h
  | some raw =>
    simp only [decodeBlockWithPreStx, Prod.mk.injEq] at h
    obtain ⟨_, -, rfl⟩ := Result.map_eq_ok.1 h.1
    rfl

variable {heights : List Nat}

/-- A walk that answers has read every height, and stands on its answer, the block of the last. -/
theorem walk_eq_ok {current : Option BitcoinBlock}
    (hcurrent : ∀ read ∈ current, source.lastBlock = some read)
    (h : (source.walk validKey magic reads current heights).1 = .ok block) :
    (∀ height ∈ heights, ∃ raw, reads.rawAt height = .ok raw) ∧
      (source.walk validKey magic reads current heights).2.lastBlock = some block ∧
      ∀ last ∈ heights.getLast?, block.height = last := by
  induction heights generalizing current source with
  | nil =>
    refine ⟨by simp, ?_, by simp⟩
    simp only [Source.walk, okOr_eq_ok] at h
    exact hcurrent block h
  | cons height rest ih =>
    rw [Source.walk] at h ⊢
    cases hraw : reads.rawAt height with
    | error error => simp [hraw] at h
    | ok raw =>
      simp only [hraw] at h ⊢
      cases hdecode : decodeBlockWithPreStx validKey magic height raw source.preStx with
      | mk decoded cache =>
        cases decoded with
        | error error => simp [hdecode] at h
        | ok read =>
          simp only [hdecode] at h ⊢
          have hread : ∀ found ∈ some read,
              (Source.mk cache (some height) (some read)).lastBlock = some found := by simp
          obtain ⟨hreads, hlast, hheight⟩ := ih hread h
          refine ⟨by simpa [hraw] using hreads, hlast, ?_⟩
          cases rest with
          | nil =>
            obtain rfl : read = block := by simpa [Source.walk] using h
            simpa using decodeBlock_height hdecode
          | cons next rest =>
            rw [getLast?_cons_cons]
            exact hheight

theorem walk_whole (steps : Nat) {first : Nat} {barren : Nat → Bool} {coverage : Coverage}
    (hreads : ∀ height ∈ List.range' first (steps + 1), ∃ raw, reads.rawAt height = .ok raw)
    (hheld : ∀ x, first + steps - preStxWindowBlocks ≤ x → x < first →
      x ∈ coverage.held ∨ barren x) :
    (coverage.walk barren reads (List.range' first (steps + 1))).whole = true := by
  induction steps generalizing first coverage with
  | zero =>
    obtain ⟨raw, hraw⟩ := hreads first (by simp)
    simp only [Nat.zero_add, range'_one, Coverage.walk, hraw, Coverage.decode,
      decide_eq_true_eq]
    intro x hx
    rw [Finset.mem_Ico] at hx
    exact hheld x (by omega) hx.2
  | succ steps ih =>
    obtain ⟨raw, hraw⟩ := hreads first (by simp [range'_succ])
    rw [range'_succ, Coverage.walk, hraw]
    refine ih (fun height hmem => hreads height ?_) fun x hlow hhigh => ?_
    · rw [range'_succ]
      exact mem_cons_of_mem _ hmem
    · rw [Coverage.decode, Finset.mem_insert, Finset.mem_filter]
      grind

theorem walk_congr {reads' : Reads}
    (h : ∀ height ∈ heights, reads.rawAt height = reads'.rawAt height)
    (current : Option BitcoinBlock) (source : Source) :
    source.walk validKey magic reads current heights =
      source.walk validKey magic reads' current heights := by
  induction heights generalizing current source with
  | nil => rfl
  | cons height rest ih =>
    have hrest := ih fun other hmem => h other (mem_cons_of_mem _ hmem)
    simp only [Source.walk, h height mem_cons_self, hrest]

theorem freshBlock_congr {chain' : BurnChain} (h : ∀ x ≤ height, chain' x = chain x) :
    freshBlock validKey magic chain' height = freshBlock validKey magic chain height := by
  unfold freshBlock
  rw [walk_congr]
  intro x hx
  simp only [mem_range'_1] at hx
  simp only [Reads.answering, h x (by omega)]

end Walks

/-! ## Runs -/

section Runs

variable (validKey : Bytes 32 → Bool) (magic : Bytes 2) (kind : SourceKind)

/-- The states of a source over a chain that may reorganize between calls: every reorganization is
answered by an invalidation from the first height replaced. -/
inductive Reached : BurnChain → Source → Coverage → Prop
  | new {chain} : ValidChain chain → Reached chain .new .new
  | invalidated {chain chain' source coverage height} : Reached chain source coverage →
      ValidChain chain' → (∀ x < height, chain' x = chain x) →
      Reached chain' (source.invalidateFrom kind height) (coverage.invalidateFrom height)
  | read {chain source coverage reads height} : Reached chain source coverage →
      reads.Faithful chain →
      Reached chain (source.blockAt validKey magic kind reads height).2
        (coverage.blockAt (Barren validKey magic chain) kind reads source height)

/-- A call reads the window again, or the cache stands for every block of it that is not read now and
holds a `PreStx`; for the last block once more, the cache did when it was decoded. -/
def Covered (barren : Nat → Bool) (source : Source) (coverage : Coverage) (height : Nat) : Prop :=
  match source.lastBlock.filter (·.height = height) with
  | some _ => coverage.whole = true
  | none => ∀ last ∈ source.lastHeight, last < height →
      ∀ x, height - preStxWindowBlocks ≤ x → x ≤ last → x ∈ coverage.held ∨ barren x

structure Sound (chain : BurnChain) (source : Source) (coverage : Coverage) : Prop where
  stands : StandsFor validKey magic chain coverage.held source.preStx
  last : ∀ block ∈ source.lastBlock, coverage.whole = true →
    freshBlock validKey magic chain block.height = .ok block

variable {validKey magic kind} {chain : BurnChain} {reads : Reads} {source : Source}
  {coverage : Coverage}

theorem Sound.invalidateFrom {chain' : BurnChain} (h : Sound validKey magic chain source coverage)
    {height : Nat} (hagree : ∀ x < height, chain' x = chain x) :
    Sound validKey magic chain' (source.invalidateFrom kind height)
      (coverage.invalidateFrom height) := by
  have hcache : (source.invalidateFrom kind height).preStx = source.preStx.invalidateFrom height := by
    cases kind <;> rfl
  have hlast : (source.invalidateFrom kind height).lastBlock =
      source.lastBlock.filter (·.height < height) := by
    cases kind <;> rfl
  constructor
  · rw [hcache]
    exact h.stands.invalidateFrom hagree
  · intro block hblock hwhole
    rw [hlast, mem_def, filter_eq_some_iff, decide_eq_true_eq] at hblock
    obtain ⟨hblock, hlow⟩ := hblock
    rw [freshBlock_congr fun x hx => hagree x (by omega)]
    exact h.last block hblock hwhole

theorem Sound.walk {heights : List Nat} (hvalid : ValidChain chain) (hreads : reads.Faithful chain)
    (h : Sound validKey magic chain source coverage) (current : Option BitcoinBlock) :
    Sound validKey magic chain (source.walk validKey magic reads current heights).2
      (coverage.walk (Barren validKey magic chain) reads heights) := by
  induction heights generalizing source coverage current with
  | nil => exact h
  | cons height rest ih =>
    cases hraw : reads.rawAt height with
    | error error => simpa [Source.walk, Coverage.walk, hraw] using h
    | ok raw =>
      obtain ⟨block, cache, hdecode, hheight, hstands, hwalk⟩ :=
        walk_cons hvalid hreads h.stands hraw current rest
      have hnext : Sound validKey magic chain ⟨cache, some height, some block⟩
          (coverage.decode (Barren validKey magic chain) height) := by
        refine ⟨hstands, ?_⟩
        rintro read ⟨⟩ hwhole
        rw [hheight]
        exact freshBlock_eq hvalid h.stands (of_decide_eq_true hwhole) hdecode
      rw [hwalk, Coverage.walk, hraw]
      exact ih hnext (some block)

theorem Sound.forgetAhead (h : Sound validKey magic chain source coverage) (height : Nat) :
    Sound validKey magic chain (source.forgetAhead height)
      (Coverage.forgetAhead source coverage height) := by
  unfold Source.forgetAhead Coverage.forgetAhead
  split_ifs
  · exact ⟨StandsFor.new, h.last⟩
  · exact h

theorem checkLastRead_cases (kind : SourceKind) (reads : Reads) (source : Source)
    (coverage : Coverage) :
    source.checkLastRead kind reads = (.ok (), source) ∧
        Coverage.checkLastRead reads source coverage = coverage ∨
      (∃ error height, source.checkLastRead kind reads =
          (.error error, source.invalidateFrom kind height) ∧
        Coverage.checkLastRead reads source coverage = coverage.invalidateFrom height) ∨
      ∃ error, source.checkLastRead kind reads = (.error error, source) ∧
        Coverage.checkLastRead reads source coverage = coverage := by
  unfold Source.checkLastRead Coverage.checkLastRead
  cases source.lastBlock with
  | none => exact .inl ⟨rfl, rfl⟩
  | some block => cases reads.hashAt block.height <;> grind

theorem Sound.blockAt (hvalid : ValidChain chain) (hreads : reads.Faithful chain)
    (h : Sound validKey magic chain source coverage) (height : Nat) :
    Sound validKey magic chain (source.blockAt validKey magic kind reads height).2
      (coverage.blockAt (Barren validKey magic chain) kind reads source height) := by
  unfold Source.blockAt Coverage.blockAt
  rcases checkLastRead_cases kind reads source coverage with
    ⟨hcheck, hcoverage⟩ | ⟨error, last, hcheck, hcoverage⟩ | ⟨error, hcheck, hcoverage⟩
  · simp only [hcheck, hcoverage]
    cases hread : source.lastBlock.filter (·.height = height) with
    | some block => exact h
    | none => exact (h.forgetAhead height).walk hvalid hreads none
  · simp only [hcheck, hcoverage]
    exact h.invalidateFrom fun _ _ => rfl
  · simp only [hcheck, hcoverage]
    exact h

theorem Reached.valid (h : Reached validKey magic kind chain source coverage) :
    ValidChain chain := by
  induction h with
  | new hvalid => exact hvalid
  | invalidated _ hvalid _ _ => exact hvalid
  | read _ _ ih => exact ih

theorem Reached.sound (h : Reached validKey magic kind chain source coverage) :
    Sound validKey magic chain source coverage := by
  induction h with
  | new hvalid => exact ⟨StandsFor.new, fun _ hblock => by cases hblock⟩
  | invalidated _ _ hagree ih => exact ih.invalidateFrom hagree
  | read hreached hreads ih => exact ih.blockAt hreached.valid hreads _

theorem Covered.below {barren : Nat → Bool} {height : Nat} (h : Covered barren source coverage height)
    (hread : source.lastBlock.filter (·.height = height) = none) :
    ∀ x, height - preStxWindowBlocks ≤ x → x < source.firstHeight height →
      x ∈ (Coverage.forgetAhead source coverage height).held ∨ barren x := by
  rw [Covered, hread] at h
  intro x hlow hhigh
  unfold Source.firstHeight at hhigh
  unfold Coverage.forgetAhead
  cases hlast : source.lastHeight <;> grind

theorem firstHeight_le (source : Source) (height : Nat) : source.firstHeight height ≤ height := by
  unfold Source.firstHeight
  cases source.lastHeight <;> grind

/-- In every run of either source, over a chain that reorganizes between calls and with reads that
fail at any point, a covered call that answers gives the block a new source gives. -/
theorem source_reads_like_new (h : Reached validKey magic kind chain source coverage)
    (hreads : reads.Faithful chain) {height : Nat}
    (hcovered : Covered (Barren validKey magic chain) source coverage height) {block : BitcoinBlock}
    (hblock : (source.blockAt validKey magic kind reads height).1 = .ok block) :
    (Source.new.blockAt validKey magic kind (.answering chain) height).1 = .ok block := by
  have hsound : Sound validKey magic chain source coverage := h.sound
  rw [blockAt_new]
  unfold Source.blockAt at hblock
  rcases checkLastRead_cases kind reads source coverage with
    ⟨hcheck, -⟩ | ⟨error, last, hcheck, -⟩ | ⟨error, hcheck, -⟩
  · simp only [hcheck] at hblock
    cases hread : source.lastBlock.filter (·.height = height) with
    | some read =>
      obtain rfl : read = block := by simpa [hread] using hblock
      rw [Covered, hread] at hcovered
      simp only [filter_eq_some_iff, decide_eq_true_eq] at hread
      obtain ⟨hlast, rfl⟩ := hread
      exact hsound.last read hlast hcovered
    | none =>
      simp only [hread] at hblock
      have hfirst := firstHeight_le source height
      have hsteps : height + 1 - source.firstHeight height =
          height - source.firstHeight height + 1 := by omega
      rw [hsteps] at hblock
      obtain ⟨hanswered, hlast, hheight⟩ := walk_eq_ok (by simp) hblock
      have hwhole := walk_whole (height - source.firstHeight height) hanswered
        (fun x hlow hhigh => hcovered.below hread x (by omega) hhigh)
      have hfresh := ((hsound.forgetAhead height).walk h.valid hreads none).last block hlast hwhole
      have hend : block.height = height := by
        apply hheight
        simp only [range'_concat, mem_def, getLast?_append, getLast?_singleton, some_or]
        congr 1
        omega
      rw [← hfresh, hend]
  · simp [hcheck] at hblock
  · simp [hcheck] at hblock

end Runs

/-! ## A transfer and its `PreStx` -/

def plainMagic : Bytes 2 := Bytes.zero 2

def plainScript : List UInt8 := [0x76, 0xa9, 0x14] ++ List.replicate 20 1 ++ [0x88, 0xac]

/-- A `PreStx` for an address. -/
def preStxTransaction : RawTransaction :=
  ⟨Bytes.replicate 32 1, [⟨Bytes.zero 32, 0⟩], some [0, 0, 0x70], [(1000, plainScript)]⟩

/-- A transfer that spends it. -/
def transferTransaction : RawTransaction :=
  ⟨Bytes.replicate 32 2, [⟨Bytes.replicate 32 1, 1⟩],
    some ([0, 0, 0x24] ++ List.replicate 16 0), [(1000, plainScript)]⟩

/-- A chain with the `PreStx` in block 1 and other transactions in block 7. -/
def payingChain (paid : List RawTransaction) : BurnChain := fun height =>
  ⟨Bytes.replicate 32 (UInt8.ofNat (if height < 7 then height else height + paid.length)), height,
    if height = 1 then [preStxTransaction] else if height = 7 then paid else []⟩

variable {paid : List RawTransaction}

theorem payingChain_at (hpaid : paid ⊆ [transferTransaction]) (hone : paid.length ≤ 1) {x j : Nat}
    {transaction : RawTransaction} (h : (payingChain paid x).transactions[j]? = some transaction) :
    x = 1 ∧ j = 0 ∧ transaction = preStxTransaction ∨
      x = 7 ∧ j = 0 ∧ transaction = transferTransaction := by
  simp only [payingChain] at h
  have hlength := (List.getElem?_eq_some_iff.1 h).1
  have hmem := mem_of_getElem? h
  split_ifs at h hlength hmem with h1 h7
  · left
    exact ⟨h1, by simp at hlength; exact hlength, by simpa using hmem⟩
  · right
    exact ⟨h7, by omega, by simpa using hpaid hmem⟩
  · simp at hmem

theorem payingChain_valid (hpaid : paid ⊆ [transferTransaction]) (hone : paid.length ≤ 1) :
    ValidChain (payingChain paid) where
  unique := by
    intro x j y k transaction other hx hy htxid
    have hne : transferTransaction.txid ≠ preStxTransaction.txid := by decide
    have hx := payingChain_at hpaid hone hx
    have hy := payingChain_at hpaid hone hy
    grind
  ordered := by
    intro x j y k transaction other input hx hy hinput htxid
    rcases payingChain_at hpaid hone hx with ⟨rfl, rfl, rfl⟩ | ⟨rfl, rfl, rfl⟩ <;>
      obtain rfl := some.inj hinput <;>
      rcases payingChain_at hpaid hone hy with ⟨rfl, rfl, rfl⟩ | ⟨rfl, rfl, rfl⟩ <;>
      first | omega | exact absurd htxid (by decide)
  short := by
    intro x
    simp only [payingChain]
    split_ifs
    · simp
    · omega
    · simp

def anyKey (_ : Bytes 32) : Bool := true

/-- A source of a kind that has read up to a height. -/
def readTo (kind : SourceKind) (chain : BurnChain) (height : Nat) : Source :=
  (Source.new.blockAt anyKey plainMagic kind (.answering chain) height).2

/-- What a source makes of a block: the number of operations in it. -/
def operationsAt (kind : SourceKind) (source : Source) (chain : BurnChain) (height : Nat) :
    Option Nat :=
  (source.blockAt anyKey plainMagic kind (.answering chain) height).1.toOption.map
    (·.operations.length)

def paidChain : BurnChain := payingChain [transferTransaction]

/-- A source that has read block 6 finds the transfer in block 7, as a new one does. -/
theorem source_reads_like_new_after_six :
    ∃ block, ((readTo .rpc paidChain 6).blockAt anyKey plainMagic .rpc (.answering paidChain) 7).1
        = .ok block ∧
      block.operations.length = 1 ∧
      (Source.new.blockAt anyKey plainMagic .rpc (.answering paidChain) 7).1 = .ok block := by
  have hcount : operationsAt .rpc (readTo .rpc paidChain 6) paidChain 7 = some 1 := by decide +kernel
  obtain ⟨block, hblock, hone⟩ := map_eq_some_iff.1 hcount
  have hok := toOption_eq_some.1 hblock
  refine ⟨block, hok, hone, ?_⟩
  refine source_reads_like_new (Reached.read (Reached.new (payingChain_valid (by simp) (by simp)))
    (answering_faithful _)) (answering_faithful _) ?_ hok
  show ∀ last ∈ some 6, last < 7 → ∀ x, 1 ≤ x → x ≤ last → x ∈ _ ∨ _
  rintro _ ⟨⟩ - x hlow hhigh
  have hheld : ∀ x ≤ 6, x ∈ (Coverage.new.blockAt (Barren anyKey plainMagic paidChain) .rpc
      (.answering paidChain) .new 6).held := by decide +kernel
  exact .inl (hheld x hhigh)

/-- The reads of a chain up to a height. -/
def readsBelow (chain : BurnChain) (height : Nat) : Reads :=
  ⟨fun x => .ok (chain x).hash, fun x =>
    if x < height then .ok (some (chain x)) else .error (.rest "timed out")⟩

/-- An RPC source that gives blocks 7 to 9 back reads block 7 without the `PreStx` of block 1, and so
does a source of either kind whose read of block 8 failed at block 7. -/
theorem window_lost :
    operationsAt .rpc .new paidChain 7 = some 1 ∧ (∀ x < 7, paidChain x = payingChain [] x) ∧
      operationsAt .rpc ((readTo .rpc (payingChain []) 9).invalidateFrom .rpc 7) paidChain 7
        = some 0 ∧
      ∀ kind, operationsAt kind (Source.new.blockAt anyKey plainMagic kind
        (readsBelow paidChain 7) 8).2 paidChain 7 = some 0 := by
  refine ⟨by decide +kernel, by decide +kernel, by decide +kernel, ?_⟩
  intro kind
  cases kind <;> decide +kernel

end NanoStacks.Bitcoin
