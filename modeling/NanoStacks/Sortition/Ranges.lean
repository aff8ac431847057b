import NanoStacks.Sortition.Distribution

/-!
# What the null miner takes

It shrinks as a block burns more, although it is the sum of a product that grows and a rest that falls.
-/

namespace NanoStacks.Sortition

open FixedPoint

variable {advantage : CarryoverAdvantage} {blockBurn windowMedianBurn ratio : Nat}

theorem carryover_lt_one (h : carryover blockBurn windowMedianBurn = some ratio) : ratio < one := by
  unfold carryover at h
  split_ifs at h with hzero hlt
  · obtain rfl := Option.some.inj h
    decide
  · obtain rfl := Option.some.inj h
    rw [fraction, Nat.div_lt_iff_lt_mul (Nat.pos_of_ne_zero hzero), Nat.mul_comm]
    exact Nat.mul_lt_mul_of_pos_left hlt (by decide)

theorem carryover_mono {less : Nat} (hless : less ≤ blockBurn)
    (h : carryover blockBurn windowMedianBurn = some ratio) :
    ∃ ratio' ≤ ratio, carryover less windowMedianBurn = some ratio' := by
  unfold carryover at h ⊢
  split_ifs at h with hzero hlt
  · exact ⟨0, Nat.zero_le _, if_pos hzero⟩
  · obtain rfl := Option.some.inj h
    refine ⟨fraction less windowMedianBurn, ?_, ?_⟩
    · exact Nat.div_le_div_right (Nat.mul_le_mul_right _ hless)
    · rw [if_neg hzero, if_pos (hless.trans_lt hlt)]

theorem integerPart_scaled (h : ratio < one) :
    integerPart (multiply (min ratio one) (fraction 1024 1)) = ratio * 1024 / 2 ^ 64 := by
  simp only [integerPart, multiply, fraction, one] at h ⊢
  omega

theorem lookupAdvantage_antitone (hadvantage : Antitone fun i => (advantage i).toNat) {ratio' : Nat}
    (hle : ratio' ≤ ratio) (h : ratio < one) :
    lookupAdvantage advantage ratio ≤ lookupAdvantage advantage ratio' := by
  rw [lookupAdvantage, lookupAdvantage, integerPart_scaled h, integerPart_scaled (hle.trans_lt h)]
  apply hadvantage
  rw [Fin.le_def, Fin.val_ofNat, Fin.val_ofNat]
  omega

/-- The part of the null miner before it is cut to the range. -/
def nullShare (advantage : CarryoverAdvantage) (ratio : Nat) : Nat :=
  multiply ratio (lookupAdvantage advantage ratio) + (one - ratio)

theorem lookupAdvantage_lt (advantage : CarryoverAdvantage) (ratio : Nat) :
    lookupAdvantage advantage ratio < one :=
  UInt64.toNat_lt _

theorem nullShare_le_one (advantage : CarryoverAdvantage) (h : ratio < one) :
    nullShare advantage ratio ≤ one := by
  have hproduct : multiply ratio (lookupAdvantage advantage ratio) ≤ ratio :=
    Nat.div_le_of_le_mul ((Nat.mul_le_mul_left ratio (lookupAdvantage_lt advantage ratio).le).trans_eq
      (Nat.mul_comm _ _))
  unfold nullShare
  omega

/-- Of a larger carryover the product is larger by at most the difference, since no advantage exceeds one. -/
theorem nullShare_antitone (hadvantage : Antitone fun i => (advantage i).toNat) {ratio' : Nat}
    (hle : ratio' ≤ ratio) (h : ratio < one) :
    nullShare advantage ratio ≤ nullShare advantage ratio' := by
  have hproduct : multiply ratio (lookupAdvantage advantage ratio)
      ≤ multiply ratio' (lookupAdvantage advantage ratio') + (ratio - ratio') := by
    calc ratio * lookupAdvantage advantage ratio / 2 ^ 64
      _ ≤ ratio * lookupAdvantage advantage ratio' / 2 ^ 64 :=
        Nat.div_le_div_right (Nat.mul_le_mul_left _ (lookupAdvantage_antitone hadvantage hle h))
      _ = (ratio' * lookupAdvantage advantage ratio'
          + (ratio - ratio') * lookupAdvantage advantage ratio') / 2 ^ 64 := by
        rw [← Nat.add_mul, Nat.add_sub_cancel' hle]
      _ ≤ (ratio' * lookupAdvantage advantage ratio' + (ratio - ratio') * 2 ^ 64) / 2 ^ 64 :=
        Nat.div_le_div_right (Nat.add_le_add_left
          (Nat.mul_le_mul_left _ (lookupAdvantage_lt advantage ratio').le) _)
      _ = ratio' * lookupAdvantage advantage ratio' / 2 ^ 64 + (ratio - ratio') :=
        Nat.add_mul_div_right _ _ (by decide)
  unfold nullShare
  omega

theorem probability_mono : Monotone probability := by
  intro a b hab
  unfold probability
  split_ifs with ha hb hb
  · exact le_rfl
  · exact absurd (ha.trans hab) hb
  · exact Nat.mul_le_mul_right _ (Nat.le_sub_one_of_lt (Nat.not_le.1 ha))
  · exact Nat.mul_le_mul_right _ hab

theorem nullMinerProbability_eq_some (h : carryover blockBurn windowMedianBurn = some ratio) :
    nullMinerProbability advantage blockBurn windowMedianBurn
      = some (probability (nullShare advantage ratio)) := by
  have hlt := carryover_lt_one h
  have hone := nullShare_le_one advantage hlt
  have hfits : one ≤ uint256Max := by decide
  simp only [nullMinerProbability, h, Option.bind_eq_bind, Option.bind_some, if_pos hlt.le]
  rw [← nullShare, if_pos (hone.trans hfits)]
  exact congrArg (fun x => some (probability x)) (min_eq_left hone)

/-- **The null miner never gains when a block burns more**, where the table of advantages does not rise; and
none of its arithmetic leaves 256 bits or the table. -/
theorem nullMinerProbability_antitone (hadvantage : Antitone fun i => (advantage i).toNat)
    {less : Nat} (hless : less ≤ blockBurn) :
    (∀ part, nullMinerProbability advantage blockBurn windowMedianBurn = some part →
      ∃ part', nullMinerProbability advantage less windowMedianBurn = some part' ∧ part ≤ part') ∧
    ∀ ratio, carryover blockBurn windowMedianBurn = some ratio →
      ratio * lookupAdvantage advantage ratio < 2 ^ 256 ∧
      min ratio one * fraction 1024 1 < 2 ^ 256 ∧
      nullShare advantage ratio ≤ one ∧
      integerPart (multiply (min ratio one) (fraction 1024 1)) < 1024 := by
  refine ⟨fun part hpart => ?_, fun ratio h => ?_⟩
  · obtain ⟨ratio, h, -⟩ := Option.bind_eq_some_iff.1 hpart
    obtain ⟨ratio', hle, h'⟩ := carryover_mono hless h
    obtain rfl := Option.some.inj ((nullMinerProbability_eq_some h).symm.trans hpart)
    refine ⟨_, nullMinerProbability_eq_some h', ?_⟩
    exact probability_mono (nullShare_antitone hadvantage hle (carryover_lt_one h))
  · have hlt := carryover_lt_one h
    refine ⟨?_, ?_, nullShare_le_one advantage hlt, ?_⟩
    · calc ratio * lookupAdvantage advantage ratio
        _ ≤ one * one :=
          Nat.mul_le_mul hlt.le (lookupAdvantage_lt advantage ratio).le
        _ < 2 ^ 256 := by decide
    · exact (Nat.mul_le_mul_right _ (min_le_right _ _)).trans_lt (by decide)
    · rw [integerPart_scaled hlt]
      unfold one at hlt
      omega

theorem nullMinerProbability_antitone_flat :
    ∃ part, nullMinerProbability (fun _ => 1) 4 10 = some part ∧
      ∃ part', nullMinerProbability (fun _ => 1) 3 10 = some part' ∧ part ≤ part' := by
  obtain ⟨part, hpart⟩ := Option.isSome_iff_exists.1
    (show (nullMinerProbability (fun _ => 1) 4 10).isSome by decide +kernel)
  exact ⟨part, hpart, (nullMinerProbability_antitone (fun _ _ _ => le_rfl) (by decide)).1 part hpart⟩

end NanoStacks.Sortition
