import NanoStacks.Mempool.Balanced

/-!
# Pages of the pool

A peer asks for the transactions it does not know in pages. A page is a walk over the ids in their order
that stops at the first transaction there is no room for, and its cursor is the last transaction in it.
What is due after the cursor is then what was due before the page and is not in it (`due_after`).
-/

namespace NanoStacks.Pool

open Bitcoin Sortition Chain List

/-- What a peer asks for, beside its cursor. -/
structure PageRequest where
  maxTransactions : Nat
  maxBytes : Nat
  wanted : Txid → Bool

namespace Mempool

section Pages

variable (pool : Mempool) (request : PageRequest)

/-- The walk of `page`, with what it has taken so far; it also says whether it stopped early. A sum of
lengths that overflows is beyond every limit. -/
def pageFrom (after : Option Txid) : List Txid → List Codec.Transaction → Nat →
    Option (List Codec.Transaction × Bool)
  | [], transactions, _ => some (transactions, false)
  | txid :: txids, transactions, bytes =>
    if (after.any fun after => txid ≤ after) ∨ request.wanted txid = false then
      pageFrom after txids transactions bytes
    else do
      let transaction ← pool.get txid
      let length := transaction.bytes.length
      if transactions = [] ∧ request.maxBytes < length then pageFrom after txids transactions bytes
      else if transactions.length = request.maxTransactions ∨ request.maxBytes < bytes + length then
        return (transactions, true)
      else pageFrom after txids (transactions ++ [transaction]) (bytes + length)

variable (H : Hashes)

/-- One page and the cursor to go on from. There is none where the source panics: at an id without an
entry, and at an early stop with an empty page. -/
def page (after : Option Txid) : Option (List Codec.Transaction × Option Txid) :=
  if request.maxTransactions = 0 then some ([], none)
  else do
    let txids := pool.entries.keys.insertionSort (· ≤ ·)
    let (transactions, more) ← pool.pageFrom request after txids [] 0
    if more then do
      let last ← transactions.getLast?
      return (transactions, some (last.txid H))
    else return (transactions, none)

/-- The pages a peer gets that goes on from each cursor, if they end in so many calls. -/
def pages : Nat → Option Txid → Option (List (List Codec.Transaction))
  | 0, _ => none
  | calls + 1, after => do
    let (transactions, next) ← pool.page request H after
    match next with
    | none => return [transactions]
    | some cursor => (transactions :: ·) <$> pages calls (some cursor)

end Pages

/-! ## What a page leaves -/

def totalBytes (transactions : List Codec.Transaction) : Nat :=
  (transactions.map (·.bytes.length)).sum

def Fits (request : PageRequest) (page : List Codec.Transaction) : Prop :=
  page.length ≤ request.maxTransactions ∧ totalBytes page ≤ request.maxBytes

/-- A transaction is to come in some page after a cursor. -/
def Due (H : Hashes) (request : PageRequest) (after : Option Txid) (transaction : Codec.Transaction) :
    Prop :=
  ¬((after.any fun after => transaction.txid H ≤ after) ∨ request.wanted (transaction.txid H) = false) ∧
    transaction.bytes.length ≤ request.maxBytes
  deriving Decidable

variable {H : Hashes} {pool : Mempool} {request : PageRequest} {after : Option Txid}
  {held page left : List Codec.Transaction} {last : Codec.Transaction}

theorem pageFrom_due (after : Option Txid) (hpositive : 0 < request.maxTransactions)
    (hheld : ∀ transaction ∈ held, pool.get (transaction.txid H) = some transaction)
    (hfits : Fits request page) :
    ∃ added left, held.filter (Due H request after) = added ++ left ∧ Fits request (page ++ added) ∧
      (pool.pageFrom request after (held.map (·.txid H)) page (totalBytes page)
          = some (page ++ added, false) ∧ left = [] ∨
        pool.pageFrom request after (held.map (·.txid H)) page (totalBytes page)
          = some (page ++ added, true) ∧ page ++ added ≠ []) := by
  induction held generalizing page with
  | nil => exact ⟨[], [], rfl, by simpa, .inl ⟨by simp [pageFrom], rfl⟩⟩
  | cons transaction held ih =>
    obtain ⟨hget, hheld⟩ := forall_mem_cons.1 hheld
    rw [map_cons, pageFrom, hget]
    by_cases hskip : (after.any fun after => transaction.txid H ≤ after) ∨
        request.wanted (transaction.txid H) = false
    · rw [if_pos hskip, filter_cons_of_neg (by simp [Due, hskip])]
      exact ih hheld hfits
    rw [if_neg hskip, Option.bind_eq_bind, Option.bind_some]
    by_cases hlarge : page = [] ∧ request.maxBytes < transaction.bytes.length
    · rw [if_pos hlarge, filter_cons_of_neg (by simp [Due, hlarge.2])]
      exact ih hheld hfits
    rw [if_neg hlarge]
    by_cases hfull : page.length = request.maxTransactions ∨
        request.maxBytes < totalBytes page + transaction.bytes.length
    · rw [if_pos hfull]
      refine ⟨[], _, rfl, by simpa, .inr ⟨by simp, ?_⟩⟩
      rintro hempty
      obtain rfl : page = [] := by simpa using hempty
      simp [totalBytes, hpositive.ne] at hlarge hfull
      omega
    · rw [if_neg hfull]
      rw [not_or, not_lt] at hfull
      have htotal : totalBytes (page ++ [transaction]) = totalBytes page + transaction.bytes.length := by
        simp [totalBytes]
      have hfits' : Fits request (page ++ [transaction]) := by
        refine ⟨?_, htotal ▸ hfull.2⟩
        rw [length_append]
        exact lt_of_le_of_ne hfits.1 hfull.1
      obtain ⟨added, left, hdue, hrest⟩ := ih hheld hfits'
      rw [htotal, append_assoc] at hrest
      have hsmall : Due H request after transaction := ⟨hskip, by omega⟩
      exact ⟨transaction :: added, left, by simp [hsmall, hdue], hrest⟩

/-- The transactions held, in the order of their ids. -/
def sorted (pool : Mempool) : List Codec.Transaction :=
  (pool.entries.keys.insertionSort (· ≤ ·)).filterMap pool.get

section

variable (h : Balanced H pool)

include h

theorem Balanced.sorted_txids :
    pool.sorted.map (·.txid H) = pool.entries.keys.insertionSort (· ≤ ·) := by
  rw [sorted, map_filterMap]
  refine (filterMap_congr fun txid hmem => ?_).trans filterMap_some
  rw [mem_insertionSort] at hmem
  obtain ⟨entry, hentry⟩ := Option.isSome_iff_exists.1 (AList.lookup_isSome.2 hmem)
  obtain ⟨htxid, hread⟩ := h.readOff txid entry hentry
  simp [Mempool.get, hentry, ← hread.txid, htxid]

theorem Balanced.mem_sorted {transaction : Codec.Transaction} :
    transaction ∈ pool.sorted ↔ pool.get (transaction.txid H) = some transaction := by
  simp only [sorted, mem_filterMap, mem_insertionSort]
  constructor
  · rintro ⟨txid, -, hget⟩
    obtain ⟨entry, hentry, rfl⟩ := Option.map_eq_some_iff.1 hget
    obtain ⟨htxid, hread⟩ := h.readOff txid entry hentry
    rwa [← hread.txid, htxid]
  · intro hget
    obtain ⟨entry, hentry, -⟩ := Option.map_eq_some_iff.1 hget
    exact ⟨_, AList.lookup_isSome.1 (by simp [hentry]), hget⟩

theorem Balanced.pairwise_sorted :
    pool.sorted.Pairwise fun left right => left.txid H < right.txid H := by
  suffices hsorted : (pool.sorted.map (·.txid H)).Pairwise (· < ·) from pairwise_map.1 hsorted
  rw [h.sorted_txids]
  have hnodup : (pool.entries.keys.insertionSort (· ≤ ·)).Nodup :=
    (perm_insertionSort _ _).nodup_iff.2 pool.entries.keys_nodup
  exact ((pairwise_insertionSort _ _).and hnodup).imp fun hboth => lt_of_le_of_ne hboth.1 hboth.2

theorem Balanced.due_after
    (hdue : pool.sorted.filter (Due H request after) = page ++ last :: left) :
    pool.sorted.filter (Due H request (some (last.txid H))) = left := by
  have hsorted := h.pairwise_sorted.filter (Due H request after)
  rw [hdue, pairwise_append, pairwise_cons] at hsorted
  have hlast : Due H request after last := by
    have hmem : last ∈ pool.sorted.filter (Due H request after) := by simp [hdue]
    simpa using (mem_filter.1 hmem).2
  have hsplit : (fun transaction => decide (Due H request (some (last.txid H)) transaction))
      = fun transaction => decide (last.txid H < transaction.txid H) &&
        decide (Due H request after transaction) := by
    funext transaction
    cases after <;> grind [Due]
  rw [hsplit, ← List.filter_filter, hdue, filter_append, filter_eq_nil_iff.2, filter_cons_of_neg (by simp),
    filter_eq_self.2, nil_append]
  · simpa using hsorted.2.1.1
  · intro transaction hmem
    simpa using (hsorted.2.2 transaction hmem last mem_cons_self).le

theorem Balanced.pages_due (hpositive : 0 < request.maxTransactions) {calls : Nat}
    (hcalls : (pool.sorted.filter (Due H request after)).length < calls) :
    ∃ pages, pool.pages request H calls after = some pages ∧
      pages.flatten = pool.sorted.filter (Due H request after) ∧ ∀ page ∈ pages, Fits request page := by
  induction calls generalizing after with
  | zero => exact absurd hcalls (Nat.not_lt_zero _)
  | succ calls ih =>
    obtain ⟨page, left, hdue, hfits, hwalk⟩ := pageFrom_due after hpositive (fun _ => h.mem_sorted.1)
      (⟨Nat.zero_le _, Nat.zero_le _⟩ : Fits request [])
    rw [h.sorted_txids, nil_append, totalBytes, map_nil, sum_nil] at hwalk
    rw [pages, Mempool.page, if_neg hpositive.ne']
    rcases hwalk with ⟨hpage, rfl⟩ | ⟨hpage, hne⟩
    · exact ⟨[page], by simp [hpage], by simp [hdue], by simpa using hfits⟩
    · obtain ⟨page, last, rfl⟩ := (eq_nil_or_concat' page).resolve_left hne
      have hleft : pool.sorted.filter (Due H request (some (last.txid H))) = left :=
        h.due_after (hdue.trans (append_assoc page [last] left))
      have hfewer : (pool.sorted.filter (Due H request (some (last.txid H)))).length < calls := by
        rw [hdue, length_append, length_append, length_singleton] at hcalls
        rw [hleft]
        omega
      obtain ⟨rest, hrest, hflatten, hall⟩ := ih hfewer
      exact ⟨(page ++ [last]) :: rest, by simp [hpage, hrest], by simp [hflatten, hleft, hdue],
        by simpa using ⟨hfits, hall⟩⟩

end

variable {verifyAuthorization : Codec.Transaction → Except String Unit} {network : Network}
  {limits : MempoolLimits}

/-- A peer that goes on from each cursor is done one call after what the pool holds, at the latest. Its
pages hold every transaction that is wanted and fits a page, once and in the order of the ids, and each
is within both limits. -/
theorem pages_complete (h : Reached H verifyAuthorization network limits pool)
    (hpositive : 0 < request.maxTransactions) {calls : Nat} (hcalls : Table.size pool.entries < calls) :
    ∃ pages, pool.pages request H calls none = some pages ∧
      (pages.flatten.map (·.txid H)).Pairwise (· < ·) ∧
      (∀ transaction, transaction ∈ pages.flatten ↔
        pool.get (transaction.txid H) = some transaction ∧
          request.wanted (transaction.txid H) = true ∧
          transaction.bytes.length ≤ request.maxBytes) ∧
      ∀ page ∈ pages, page.length ≤ request.maxTransactions ∧
        (page.map (·.bytes.length)).sum ≤ request.maxBytes := by
  have hbalanced := h.balanced.1
  have hlength : (pool.sorted.filter (Due H request none)).length ≤ Table.size pool.entries := by
    refine (length_filter_le _ _).trans ((length_filterMap_le _ _).trans ?_)
    simp [Table.size, AList.keys, List.keys]
  obtain ⟨pages, hpages, hflatten, hfits⟩ :=
    hbalanced.pages_due hpositive (hlength.trans_lt hcalls)
  refine ⟨pages, hpages, ?_, fun transaction => ?_, hfits⟩
  · rw [hflatten]
    exact pairwise_map.2 (hbalanced.pairwise_sorted.filter _)
  · simp [hflatten, hbalanced.mem_sorted, Due]

theorem pages_complete_contested :
    ∃ pages, contested.pages ⟨1, 500, fun _ => true⟩ plainCrypto 3 none = some pages ∧
      ∀ page ∈ pages, page.length ≤ 1 := by
  obtain ⟨pages, hpages, -, -, hfits⟩ := pages_complete ((Reached.new.next _).next _)
    (show 0 < (⟨1, 500, fun _ => true⟩ : PageRequest).maxTransactions by decide)
    (show Table.size contested.entries < 3 by decide +kernel)
  exact ⟨pages, hpages, fun page hpage => (hfits page hpage).1⟩

end Mempool

end NanoStacks.Pool
