import NanoStacks.Chain.Plain
import NanoStacks.Lib.Quorum
import Mathlib.Algebra.Order.Floor.Div

/-!
# Which signatures approve a block

`SignerWeights.verify` walks the reward set once, with a cursor that only moves forward. What it
accepts is said here without the cursor: the recovered hashes are members of the set in its order, and
their weights reach the threshold (`Approved`). Two approved blocks share signers of positive weight,
since seven tenths taken twice exceed the whole.
-/

namespace NanoStacks.Chain

open Bitcoin Result List

/-! ## Sums of weights -/

theorem foldlM_checked_add (weights : List Nat) (start : Nat) (hstart : start < 2 ^ 32) (total : Nat) :
    weights.foldlM (fun total weight => do
        ensure (total + weight < 2 ^ 32) SignerSetError.weightOverflow
        return total + weight) start = .ok total
      ↔ start + weights.sum = total ∧ total < 2 ^ 32 := by
  induction weights generalizing start with
  | nil => 
    simp only [foldlM_nil, return_eq_ok, sum_nil]
    omega
  | cons weight weights ih =>
    simp only [foldlM_cons, bind_eq_ok, ensure_eq_ok, sum_cons]
    constructor
    · rintro ⟨next, ⟨-, hlt, hnext⟩, hrest⟩
      cases hnext
      have h := (ih _ hlt).1 hrest
      omega
    · rintro ⟨hsum, hlt⟩
      have hnext : start + weight < 2 ^ 32 := by omega
      exact ⟨start + weight, ⟨(), hnext, rfl⟩, (ih _ hnext).2 (by omega)⟩

theorem sumWeights_eq_ok {weights : List Nat} {total : Nat} :
    sumWeights weights = .ok total ↔ weights.sum = total ∧ total < 2 ^ 32 := by
  rw [sumWeights, foldlM_checked_add weights 0 (by decide), Nat.zero_add]

namespace SignerWeights

variable (weights : SignerWeights)

/-- What all signers weigh together. -/
def total : Nat := (weights.entries.map (·.2)).sum

/-- The signing hashes in reward-set order. -/
def members : List Hash160 := weights.entries.map (·.1)

/-- The weight recorded for a signing hash. -/
def weightOf (signing : Hash160) : Nat :=
  ((weights.entries.find? (·.1 = signing)).map (·.2)).getD 0

theorem totalWeight_eq_ok {total : Nat} :
    weights.totalWeight = .ok total ↔ weights.total = total ∧ total < 2 ^ 32 :=
  sumWeights_eq_ok

variable {threshold : Nat}

theorem approvalThreshold_eq_ok :
    weights.approvalThreshold = .ok threshold
      ↔ weights.total < 2 ^ 32 ∧ (7 * weights.total) ⌈/⌉ 10 = threshold := by
  rw [approvalThreshold, bind_eq_ok, Nat.ceilDiv_eq_add_pred_div]
  constructor
  · rintro ⟨total, htotal, hthreshold⟩
    obtain ⟨rfl, hlt⟩ := weights.totalWeight_eq_ok.1 htotal
    cases hthreshold
    exact ⟨hlt, by rw [Nat.mul_comm]; rfl⟩
  · rintro ⟨hlt, rfl⟩
    refine ⟨weights.total, weights.totalWeight_eq_ok.2 ⟨rfl, hlt⟩, ?_⟩
    rw [Nat.mul_comm 7]
    rfl

theorem total_lt_two_thresholds (hpositive : 0 < weights.total)
    (hthreshold : weights.approvalThreshold = .ok threshold) : weights.total < 2 * threshold := by
  obtain ⟨-, rfl⟩ := weights.approvalThreshold_eq_ok.1 hthreshold
  rw [Nat.ceilDiv_eq_add_pred_div]
  omega

/-! ## What the cursor accepts -/

theorem fits_after {remaining after : List (Hash160 × Nat)} {signed : Nat} {signer : Hash160 × Nat}
    (hnodup : (remaining.map (·.1)).Nodup) (hfits : signed + (remaining.map (·.2)).sum < 2 ^ 32)
    (hsuffix : (signer :: after).Sublist remaining) :
    (after.map (·.1)).Nodup ∧ signed + signer.2 + (after.map (·.2)).sum < 2 ^ 32 := by
  constructor
  · exact hnodup.sublist (((sublist_cons_self _ _).trans hsuffix).map _)
  · have hle := (hsuffix.map (·.2)).sum_le_sum fun _ _ => Nat.zero_le _
    rw [map_cons, sum_cons] at hle
    omega

variable {weight : Nat}

/-- Over a list that cannot overflow, the loop counts exactly the parts of the list that the
signatures recover to. -/
theorem countSignatures_eq_ok (recover : MessageSignature → Option Hash160)
    (recoverError : MessageSignature → String) {signatures : List MessageSignature} {signed : Nat}
    {remaining : List (Hash160 × Nat)} (hnodup : (remaining.map (·.1)).Nodup)
    (hfits : signed + (remaining.map (·.2)).sum < 2 ^ 32) :
    countSignatures recover recoverError remaining signed signatures = .ok weight
      ↔ ∃ signers : List (Hash160 × Nat), signers.Sublist remaining ∧
          signatures.map recover = signers.map (some ·.1) ∧
          signed + (signers.map (·.2)).sum = weight := by
  induction signatures generalizing remaining signed with
  | nil => simp [countSignatures]
  | cons signature rest ih =>
    rw [countSignatures, bind_eq_ok]
    constructor
    · rintro ⟨signing, hrecover, hloop⟩
      have hsome : recover signature = some signing := okOr_eq_ok.1 hrecover
      split at hloop
      · cases hloop
      · rename_i hash weight after hdrop
        obtain ⟨-, -, hloop⟩ := bind_eq_ok.1 hloop
        have hhash : hash = signing := by
          have hhead := head?_dropWhile_not (·.1 ≠ signing) remaining
          rw [hdrop] at hhead
          simpa using hhead
        have hsuffix : ((hash, weight) :: after).Sublist remaining := by
          rw [← hdrop]
          exact (dropWhile_suffix _).sublist
        obtain ⟨hafter, hfits⟩ := fits_after hnodup hfits hsuffix
        obtain ⟨signers, hpart, hmap, hsum⟩ := (ih hafter hfits).1 hloop
        refine ⟨(hash, weight) :: signers, (hpart.cons_cons _).trans hsuffix, ?_, ?_⟩
        · rw [map_cons, map_cons, hsome, hmap, hhash]
        · rw [map_cons, sum_cons, ← hsum]
          omega
    · rintro ⟨signers, hpart, hmap, hsum⟩
      cases signers with
      | nil => cases hmap
      | cons signer signers =>
        obtain ⟨hhead, hmap⟩ := cons.inj hmap
        obtain ⟨after, hdrop, hrest⟩ := dropWhile_of_sublist (·.1) hpart hnodup
        have hsuffix : (signer :: after).Sublist remaining := by
          rw [← hdrop]
          exact (dropWhile_suffix _).sublist
        obtain ⟨hafter, hfits⟩ := fits_after hnodup hfits hsuffix
        refine ⟨signer.1, by rw [hhead]; rfl, ?_⟩
        rw [hdrop]
        have hstep : signed + signer.2 < 2 ^ 32 := by omega
        refine bind_eq_ok.2 ⟨(), ensure_eq_ok.2 hstep, (ih hafter hfits).2 ⟨signers, hrest, hmap, ?_⟩⟩
        rw [map_cons, sum_cons] at hsum
        omega

/-- The signing hashes a header's signatures recover to, if all of them do. -/
def recovered (C : Crypto) (header : NakamotoBlockHeader) : Option (List Hash160) :=
  header.signerSignatures.mapM (C.recover · (header.signerSignatureHash C))

/-- A header's signatures approve it with a weight: they recover to distinct members of the set, in
its order, whose weights sum up to it and reach the threshold. -/
structure Approved (C : Crypto) (header : NakamotoBlockHeader) (weight : Nat)
    (signing : List Hash160) : Prop where
  recovered : recovered C header = some signing
  distinct : signing.Nodup
  members : ∀ hash ∈ signing, hash ∈ weights.members
  ordered : signing.Pairwise (weights.members.idxOf · < weights.members.idxOf ·)
  weighs : (signing.map weights.weightOf).sum = weight
  fits : weights.total < 2 ^ 32
  reaches : (7 * weights.total) ⌈/⌉ 10 ≤ weight

theorem weightOf_of_mem {signer : Hash160 × Nat} (hmem : signer ∈ weights.entries) :
    weights.weightOf signer.1 = signer.2 := by
  rw [weightOf, (find?_key_eq_some weights.nodup).2 ⟨hmem, rfl⟩]
  rfl

theorem map_weightOf {signers : List (Hash160 × Nat)} (hpart : signers.Sublist weights.entries) :
    (signers.map (·.1)).map weights.weightOf = signers.map (·.2) := by
  rw [map_map]
  exact map_congr_left fun signer hsigner => weights.weightOf_of_mem (hpart.subset hsigner)

theorem members_weigh_total : (weights.members.map weights.weightOf).sum = weights.total := by
  rw [members, weights.map_weightOf (List.Sublist.refl _), total]

variable {C : Crypto} {header : NakamotoBlockHeader} {signing : List Hash160}

section

variable (h : weights.Approved C header weight signing)

include h

theorem Approved.sublist : signing.Sublist weights.members :=
  (sublist_iff_idxOf_increasing weights.nodup).2 ⟨h.members, h.ordered⟩

omit h in
theorem verify_eq_ok :
    weights.verify C header = .ok weight ↔ ∃ signing, weights.Approved C header weight signing := by
  rw [verify]
  simp only [bind_eq_ok, ensure_eq_ok, return_eq_ok]
  constructor
  · rintro ⟨signed, hloop, threshold, hthreshold, -, hreaches, rfl⟩
    obtain ⟨hfits, rfl⟩ := weights.approvalThreshold_eq_ok.1 hthreshold
    obtain ⟨signers, hpart, hmap, hsum⟩ :=
      (countSignatures_eq_ok _ _ weights.nodup (by rwa [Nat.zero_add])).1 hloop
    obtain ⟨hmembers, hordered⟩ :=
      (sublist_iff_idxOf_increasing weights.nodup).1 (hpart.map (·.1))
    have hdistinct := weights.nodup.sublist (hpart.map (·.1))
    refine ⟨signers.map Prod.fst, ?_, hdistinct, hmembers, hordered, ?_, hfits, hreaches⟩
    · rw [SignerWeights.recovered, mapM_eq_some_iff, hmap, map_map]
      rfl
    · rw [weights.map_weightOf hpart, ← hsum, Nat.zero_add]
  · rintro ⟨signing, h⟩
    obtain ⟨signers, hpart, rfl⟩ := sublist_map_iff.1 (h.sublist)
    refine ⟨weight, ?_, _, weights.approvalThreshold_eq_ok.2 ⟨h.fits, rfl⟩, (), h.reaches, rfl⟩
    refine (countSignatures_eq_ok _ _ weights.nodup (by rw [Nat.zero_add]; exact h.fits)).2
      ⟨signers, hpart, ?_, ?_⟩
    · rw [(mapM_eq_some_iff).1 h.recovered, map_map]
      rfl
    · rw [Nat.zero_add, ← weights.map_weightOf hpart]
      exact h.weighs

theorem Approved.weight_eq :
    weights.members.filter (· ∈ signing) = signing ∧
      ((weights.members.filter (· ∈ signing)).map weights.weightOf).sum = weight := by
  have hnodup : (weights.members.map id).Nodup := by
    rw [map_id]
    exact weights.nodup
  have hpart := filter_key_mem_of_sublist id h.sublist hnodup
  simp only [id, map_id] at hpart
  exact ⟨hpart, by rw [hpart]; exact h.weighs⟩

/-- Two approvals share at least what their weights exceed the whole by. -/
theorem Approved.overlap {header' : NakamotoBlockHeader} {weight' : Nat} {signing' : List Hash160}
    (h' : weights.Approved C header' weight' signing') :
    weight + weight'
      ≤ weights.total + ((signing.filter (· ∈ signing')).map weights.weightOf).sum := by
  obtain ⟨hpart, hweight⟩ := h.weight_eq
  obtain ⟨-, hweight'⟩ := h'.weight_eq
  have hboth : signing.filter (· ∈ signing')
      = weights.members.filter fun hash => decide (hash ∈ signing) && decide (hash ∈ signing') := by
    conv_lhs => rw [← hpart, filter_filter]
    exact filter_congr fun hash _ => Bool.and_comm _ _
  have hle := sum_filter_add_sum_filter_le weights.weightOf weights.members (· ∈ signing) (· ∈ signing')
  rwa [hweight, hweight', weights.members_weigh_total, ← hboth] at hle

end

/-- Where the sum of all weights fits, the `u64` product and the `u32` quotient of the threshold do. -/
theorem approvalThreshold_fits (h : weights.approvalThreshold = .ok threshold) :
    7 * weights.total + 9 < 2 ^ 64 ∧ threshold < 2 ^ 32 := by
  obtain ⟨hfits, rfl⟩ := weights.approvalThreshold_eq_ok.1 h
  rw [Nat.ceilDiv_eq_add_pred_div]
  omega

/-- `verify` accepts exactly the approvals, no sum but the reported ones can overflow, and any two
headers it accepts have signers of positive weight in common, at least twice the threshold less the
whole. -/
theorem verified_quorums_overlap (C : Crypto) (hpositive : 0 < weights.total) :
    (∀ header weight,
      weights.verify C header = .ok weight ↔ ∃ signing, weights.Approved C header weight signing) ∧
    (∀ threshold, weights.approvalThreshold = .ok threshold →
      7 * weights.total + 9 < 2 ^ 64 ∧ threshold < 2 ^ 32) ∧
    ∀ header header' weight weight',
      weights.verify C header = .ok weight → weights.verify C header' = .ok weight' →
      ∃ signing signing' threshold,
        recovered C header = some signing ∧ recovered C header' = some signing' ∧
        weights.approvalThreshold = .ok threshold ∧ 0 < 2 * threshold - weights.total ∧
        2 * threshold - weights.total
          ≤ ((signing.filter (· ∈ signing')).map weights.weightOf).sum := by
  refine ⟨fun header weight => weights.verify_eq_ok, fun _ => weights.approvalThreshold_fits, ?_⟩
  intro header header' weight weight' hverify hverify'
  obtain ⟨signing, h⟩ := weights.verify_eq_ok.1 hverify
  obtain ⟨signing', h'⟩ := weights.verify_eq_ok.1 hverify'
  have hthreshold := weights.approvalThreshold_eq_ok.2 ⟨h.fits, rfl⟩
  have hexceeds := weights.total_lt_two_thresholds hpositive hthreshold
  have hoverlap := h.overlap weights h'
  refine ⟨signing, signing', _, h.recovered, h'.recovered, hthreshold, by omega, ?_⟩
  have hreaches := h.reaches
  have hreaches' := h'.reaches
  omega

end SignerWeights

/-- Three signers with ten votes between them. -/
def threeSigners : SignerWeights where
  entries := [(Bytes.replicate 20 1, 5), (Bytes.replicate 20 2, 3), (Bytes.replicate 20 3, 2)]
  entries_ne_nil := by decide
  nodup := by decide

/-- Signatures that name their signer. -/
def namingCrypto : Crypto :=
  { plainCrypto with
    sign := fun secret _ => Bytes.replicate 65 (secret.toList.headD 0)
    recover := fun signature _ => some (Bytes.replicate 20 (signature.toList.headD 0)) }

def signedBy (signers : List UInt8) : NakamotoBlockHeader :=
  { (plainBlock (Bytes.zero 32) 1 1 0 []).header with
    signerSignatures := signers.map (Bytes.replicate 65) }

theorem quorums_of_three_overlap :
    ∃ signing signing' threshold,
      SignerWeights.recovered namingCrypto (signedBy [1, 2]) = some signing ∧
      SignerWeights.recovered namingCrypto (signedBy [1, 3]) = some signing' ∧
      threeSigners.approvalThreshold = .ok threshold ∧ 0 < 2 * threshold - threeSigners.total ∧
      2 * threshold - threeSigners.total
        ≤ ((signing.filter (· ∈ signing')).map threeSigners.weightOf).sum :=
  (threeSigners.verified_quorums_overlap namingCrypto (by decide)).2.2
    (signedBy [1, 2]) (signedBy [1, 3]) 8 7 (by decide) (by decide)

end NanoStacks.Chain
