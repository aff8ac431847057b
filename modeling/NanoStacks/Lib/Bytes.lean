import NanoStacks.Lib.Result
import Mathlib.Tactic.Ring
import Mathlib.Order.Defs.LinearOrder

/-!
# Byte strings

Byte strings of a fixed length, little-endian integers of a fixed width, and the one reading step
every decoder here is made of: cut a given number of bytes off the front of the input.

* `Bytes n` carries its own length, so a hash or a stored value of the wrong size cannot be built.
* `toLe w n` and `ofLe` are inverse to each other below `256 ^ w` (`ofLe_toLe`), and what was
  written by `toLe` is read back by `takeBytes` (`takeBytes_append`).
-/

namespace NanoStacks

open List

/-- Byte strings of length `n`. -/
structure Bytes (n : Nat) where
  toList : List UInt8
  length_toList : toList.length = n
  deriving DecidableEq

namespace Bytes

variable {n : Nat}

@[ext] theorem ext {a b : Bytes n} (h : a.toList = b.toList) : a = b := by
  cases a; cases b; cases h; rfl

attribute [simp] length_toList

/-- The byte string of length `n` made of one repeated byte. -/
def replicate (n : Nat) (b : UInt8) : Bytes n := ⟨List.replicate n b, List.length_replicate⟩

/-- All zeroes. -/
def zero (n : Nat) : Bytes n := replicate n 0

/-- A list of bytes of the right length. -/
def ofList? (n : Nat) (l : List UInt8) : Option (Bytes n) :=
  if h : l.length = n then some ⟨l, h⟩ else none

@[simp] theorem ofList?_toList (b : Bytes n) : ofList? n b.toList = some b := by
  simp [ofList?]

/-- The lower-case hexadecimal digits of a byte string. -/
def hex (b : Bytes n) : String :=
  String.ofList (b.toList.flatMap fun byte =>
    [Nat.digitChar (byte.toNat / 16), Nat.digitChar (byte.toNat % 16)])

/-- The first `n` bytes of a list, filled up with zeroes. -/
def fill (n : Nat) (l : List UInt8) : Bytes n :=
  ⟨(l ++ List.replicate n 0).take n, by simp⟩

end Bytes

/-! ## Little-endian integers -/

/-- The `w` little-endian bytes of `n`. -/
def toLe : Nat → Nat → List UInt8
  | 0, _ => []
  | w + 1, n => UInt8.ofNat (n % 256) :: toLe w (n / 256)

/-- The natural number with the given little-endian bytes. -/
def ofLe : List UInt8 → Nat
  | [] => 0
  | b :: bs => b.toNat + 256 * ofLe bs

@[simp] theorem length_toLe (w n : Nat) : (toLe w n).length = w := by
  induction w generalizing n with
  | zero => rfl
  | succ w ih => simp [toLe, ih]

theorem ofLe_toLe {w n : Nat} (h : n < 256 ^ w) : ofLe (toLe w n) = n := by
  induction w generalizing n with
  | zero => simp [toLe, ofLe] at h ⊢; omega
  | succ w ih =>
    have hdiv : n / 256 < 256 ^ w := by
      rw [Nat.div_lt_iff_lt_mul (by norm_num)]
      rwa [pow_succ] at h
    have hbyte : n % 256 % 2 ^ 8 = n % 256 := Nat.mod_eq_of_lt (Nat.mod_lt n (by norm_num))
    rw [toLe, ofLe, ih hdiv, UInt8.toNat_ofNat', hbyte]
    omega

theorem ofLe_lt (l : List UInt8) : ofLe l < 256 ^ l.length := by
  induction l with
  | nil => simp [ofLe]
  | cons b bs ih =>
    have hb : b.toNat < 256 := b.toNat_lt
    rw [ofLe, length_cons, pow_succ]
    omega

theorem toLe_ofLe (l : List UInt8) : toLe l.length (ofLe l) = l := by
  induction l with
  | nil => rfl
  | cons b bs ih =>
    have hb : b.toNat < 256 := b.toNat_lt
    have hmod : (b.toNat + 256 * ofLe bs) % 256 = b.toNat := by omega
    have hdiv : (b.toNat + 256 * ofLe bs) / 256 = ofLe bs := by omega
    rw [ofLe, length_cons, toLe, hmod, hdiv, ih, UInt8.ofNat_toNat]

theorem ofLe_append (l l' : List UInt8) : ofLe (l ++ l') = ofLe l + 256 ^ l.length * ofLe l' := by
  induction l with
  | nil => simp [ofLe]
  | cons b bs ih =>
    rw [cons_append, ofLe, ih, ofLe, length_cons]
    ring

theorem ofLe_append_zeros (l : List UInt8) (n : Nat) : ofLe (l ++ replicate n 0) = ofLe l := by
  have hzero : ofLe (replicate n 0) = 0 := by
    induction n with
    | zero => rfl
    | succ n ih => simpa [replicate_succ, ofLe] using ih
  rw [ofLe_append, hzero, mul_zero, add_zero]

theorem take_toLe {v w : Nat} (h : v ≤ w) (n : Nat) : (toLe w n).take v = toLe v n := by
  induction v generalizing w n with
  | zero => rfl
  | succ v ih =>
    obtain ⟨w, rfl⟩ : ∃ w', w = w' + 1 := ⟨w - 1, by omega⟩
    rw [toLe, toLe, take_succ_cons, ih (by omega)]

/-- What holds of every number below 256 holds of every byte. -/
theorem forall_byte {p : UInt8 → Prop} (h : ∀ n < 256, p (UInt8.ofNat n)) (b : UInt8) : p b := by
  rw [← UInt8.ofNat_toNat (x := b)]
  exact h b.toNat b.toNat_lt

/-! ## Big-endian integers -/

/-- The `w` big-endian bytes of `n`. -/
def toBe (w n : Nat) : List UInt8 := (toLe w n).reverse

/-- The natural number with the given big-endian bytes. -/
def ofBe (l : List UInt8) : Nat := ofLe l.reverse

@[simp] theorem length_toBe (w n : Nat) : (toBe w n).length = w := by
  rw [toBe, length_reverse, length_toLe]

theorem ofBe_toBe {w n : Nat} (h : n < 256 ^ w) : ofBe (toBe w n) = n := by
  rw [ofBe, toBe, reverse_reverse, ofLe_toLe h]

theorem toBe_ofBe (l : List UInt8) : toBe l.length (ofBe l) = l := by
  have h := toLe_ofLe l.reverse
  rw [length_reverse] at h
  rw [toBe, ofBe, h, reverse_reverse]

theorem ofBe_lt (l : List UInt8) : ofBe l < 256 ^ l.length := by
  have h := ofLe_lt l.reverse
  rwa [length_reverse] at h

theorem Bytes.ofBe_inj {n : Nat} {a b : Bytes n} (h : ofBe a.toList = ofBe b.toList) : a = b := by
  have ha := toBe_ofBe a.toList
  have hb := toBe_ofBe b.toList
  rw [a.length_toList] at ha
  rw [b.length_toList] at hb
  exact Bytes.ext (by rw [← ha, ← hb, h])

/-- Strings of one length compare from the first byte on, which is how the numbers they write compare. -/
instance {n : Nat} : LinearOrder (Bytes n) where
  le a b := ofBe a.toList ≤ ofBe b.toList
  le_refl a := Nat.le_refl _
  le_trans a b c := Nat.le_trans
  le_antisymm a b h h' := Bytes.ofBe_inj (Nat.le_antisymm h h')
  le_total a b := Nat.le_total _ _
  toDecidableLE a b := inferInstanceAs (Decidable (ofBe a.toList ≤ ofBe b.toList))
  toDecidableEq := inferInstance

/-! ## Reading -/

/-- Cut `n` bytes off the front, or report that the input is too short. -/
def takeBytes (n : Nat) (input : List UInt8) : Option (List UInt8 × List UInt8) :=
  if n ≤ input.length then some (input.take n, input.drop n) else none

theorem takeBytes_append (front rest : List UInt8) {n : Nat} (h : front.length = n) :
    takeBytes n (front ++ rest) = some (front, rest) := by
  subst h
  simp [takeBytes]

theorem takeBytes_length {n : Nat} {input front rest : List UInt8}
    (h : takeBytes n input = some (front, rest)) : front.length = n := by
  unfold takeBytes at h
  split_ifs at h with hn
  obtain ⟨rfl, -⟩ := Prod.mk.inj (Option.some.inj h)
  simp [hn]

end NanoStacks
