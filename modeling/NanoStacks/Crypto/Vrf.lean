import NanoStacks.Lib.Bytes
import Mathlib.Data.ZMod.Basic
import Mathlib.GroupTheory.OrderOfElement
import Mathlib.NumberTheory.LucasPrimality
import Mathlib.Tactic.ReduceModChar
import Mathlib.Tactic.NormNum.Prime

/-!
# The verifiable random function

A prover commits to a nonce with two points and answers a challenge hashed from them; the verifier
recombines the points from the answer and hashes them again. The group has a cofactor, so scalars, which
are reduced modulo the order `l` of the base point, act on a point only up to a part of small order. What
makes the two challenges agree is that every point here is a multiple of one that `l` annihilates
(`mul_response`), and what makes the proof readable is that a clamped secret is no multiple of `l`
(`not_dvd_clampInteger`).
-/

namespace NanoStacks.Crypto

open Result List

inductive VrfError
  | invalidPublicKey
  | invalidProof
  | invalidChallenge
  deriving DecidableEq

/-- What the curve and the digest are taken to be: a group of order `8 * l` with a point of order `l`, an
encoding of its points, and any function. The bounds on `l` are those of the order of edwards25519. -/
structure Suite (Point : Type) [AddCommGroup Point] where
  l : Nat
  prime : l.Prime
  le_l : 2 ^ 252 ≤ l
  l_lt : l < 2 ^ 256
  card : Nat.card Point = 8 * l
  basepoint : Point
  order_basepoint : addOrderOf basepoint = l
  compress : Point → Bytes 32
  decompress : Bytes 32 → Option Point
  decompress_compress : ∀ point, decompress (compress point) = some point
  sha512 : List UInt8 → Bytes 64

namespace Suite

variable {Point : Type} [AddCommGroup Point] (E : Suite Point)

/-- Integers modulo the order of the base point. -/
abbrev Scalar := ZMod E.l

instance : NeZero E.l := ⟨E.prime.ne_zero⟩

/-- A scalar times a point. -/
def mul (scalar : E.Scalar) (point : Point) : Point := scalar.val • point

/-- `Scalar::from_canonical_bytes`. -/
def fromCanonicalBytes (bytes : List UInt8) : Option E.Scalar :=
  if ofLe bytes < E.l then some (ofLe bytes) else none

def vrfSuite : UInt8 := 3

def clampInteger (bytes : List UInt8) : List UInt8 :=
  ((bytes.modify 0 (· &&& 0xf8)).modify 31 (· &&& 0x7f)).modify 31 (· ||| 0x40)

/-- The clamped secret times the base point. -/
def publicKey (privateKey : Bytes 32) : Bytes 32 :=
  E.compress (ofLe (clampInteger ((E.sha512 privateKey.toList).toList.take 32)) • E.basepoint)

/-- The secret is clamped, and once more as a scalar is made of it. -/
def expandPrivateKey (privateKey : Bytes 32) : Bytes 32 × E.Scalar × List UInt8 :=
  let digest := (E.sha512 privateKey.toList).toList
  (E.publicKey privateKey, (ofLe (clampInteger (clampInteger (digest.take 32))) : Nat), digest.drop 32)

/-- The bytes of a counter that count: those above which it reaches. -/
def counterBytes (counter : Nat) : List UInt8 :=
  if counter = 0 then [0]
  else (toLe 8 counter).zipIdx.filterMap fun (byte, index) =>
    if 1 <<< (index * 8) < counter then some byte else none

def hashToCurveFrom (publicKey : Bytes 32) (message : List UInt8) : Nat → Nat → Option Point
  | 0, _ => none
  | fuel + 1, counter =>
    let digest := E.sha512 (vrfSuite :: 0x01 :: (publicKey.toList ++ message ++ counterBytes counter))
    match E.decompress ⟨digest.toList.take 32, by simp⟩ with
    | some point => some (8 • point)
    | none => hashToCurveFrom publicKey message fuel (counter + 1)

/-- `none` is the panic of a counter that runs out. -/
def hashToCurve (publicKey : Bytes 32) (message : List UInt8) : Option Point :=
  E.hashToCurveFrom publicKey message (2 ^ 64) 0

def challenge (first second third fourth : Point) : Except VrfError E.Scalar :=
  let digest := E.sha512 (vrfSuite :: 0x02 :: [first, second, third, fourth].flatMap fun point =>
    (E.compress point).toList)
  okOr (E.fromCanonicalBytes (digest.toList.take 16 ++ List.replicate 16 0)) .invalidChallenge

def nonce (noncePrefix : List UInt8) (hashPoint : Point) : E.Scalar :=
  ofLe (E.sha512 (noncePrefix ++ (E.compress hashPoint).toList)).toList

@[ext] structure VrfProof where
  gamma : Point
  challenge : E.Scalar
  response : E.Scalar

def prove (privateKey : Bytes 32) (message : List UInt8) : Option (Except VrfError E.VrfProof) :=
  let (publicKey, scalar, noncePrefix) := E.expandPrivateKey privateKey
  (E.hashToCurve publicKey message).map fun hashPoint => do
    let gamma := E.mul scalar hashPoint
    let nonce := E.nonce noncePrefix hashPoint
    let challenge ← E.challenge hashPoint gamma (E.mul nonce E.basepoint) (E.mul nonce hashPoint)
    return ⟨gamma, challenge, nonce + challenge * scalar⟩

def VrfProof.toBytes (proof : E.VrfProof) : List UInt8 :=
  (E.compress proof.gamma).toList ++ (toLe 32 proof.challenge.val).take 16 ++ toLe 32 proof.response.val

section Checks

variable [DecidableEq Point]

def isSmallOrder (point : Point) : Bool := 8 • point = 0

def verify (publicKey : Bytes 32) (proof : E.VrfProof) (message : List UInt8) :
    Option (Except VrfError Bool) :=
  if isSmallOrder proof.gamma then some (.error .invalidPublicKey)
  else (E.hashToCurve publicKey message).map fun hashPoint => do
    let publicPoint ← okOr (E.decompress publicKey) .invalidPublicKey
    let first := E.mul proof.response E.basepoint - E.mul proof.challenge publicPoint
    let second := E.mul proof.response hashPoint - E.mul proof.challenge proof.gamma
    let challenge ← E.challenge hashPoint proof.gamma first second
    return challenge = proof.challenge

def VrfProof.fromBytes (bytes : List UInt8) : Except VrfError E.VrfProof := do
  let bytes ← okOr (Bytes.ofList? 80 bytes) .invalidProof
  let gamma ← okOr ((E.decompress ⟨bytes.toList.take 32, by simp⟩).filter (¬isSmallOrder ·)) .invalidProof
  let challenge ← okOr
    (E.fromCanonicalBytes ((bytes.toList.drop 32).take 16 ++ List.replicate 16 0)) .invalidProof
  let response ← okOr (E.fromCanonicalBytes (bytes.toList.drop 48)) .invalidProof
  return ⟨gamma, challenge, response⟩

end Checks

/-! ## Scalars on the points that `l` annihilates -/

section Torsion

variable {E} {point : Point} (h : E.l • point = 0)

include h

theorem mul_natCast (n : Nat) : E.mul n point = n • point := by
  rw [mul, ZMod.val_natCast]
  exact nsmul_eq_nsmul_iff_modEq.2
    ((Nat.mod_modEq n E.l).of_dvd (addOrderOf_dvd_of_nsmul_eq_zero h))

/-- The answer to a challenge takes the nonce to the point it was committed with. -/
theorem mul_response (nonce challenge scalar : E.Scalar) :
    E.mul (nonce + challenge * scalar) point - E.mul challenge (E.mul scalar point)
      = E.mul nonce point := by
  have hcast : nonce + challenge * scalar
      = ((nonce.val + challenge.val * scalar.val : Nat) : E.Scalar) := by simp
  rw [hcast, mul_natCast h, add_nsmul, mul_nsmul', mul, mul, mul, add_sub_cancel_right]

end Torsion

variable {E}

theorem annihilated_basepoint : E.l • E.basepoint = 0 := by
  rw [← E.order_basepoint, addOrderOf_nsmul_eq_zero]

variable {hashPoint : Point}

theorem hashToCurveFrom_eq_some {publicKey : Bytes 32} {message : List UInt8} {fuel counter : Nat}
    (h : E.hashToCurveFrom publicKey message fuel counter = some hashPoint) :
    ∃ point, hashPoint = 8 • point := by
  induction fuel generalizing counter with
  | zero => cases h
  | succ fuel ih =>
    rw [hashToCurveFrom] at h
    split at h
    · rename_i point _
      exact ⟨point, (Option.some.inj h).symm⟩
    · exact ih h

theorem annihilated_hashPoint {publicKey : Bytes 32} {message : List UInt8}
    (h : E.hashToCurve publicKey message = some hashPoint) : E.l • hashPoint = 0 := by
  obtain ⟨point, rfl⟩ := hashToCurveFrom_eq_some h
  rw [← mul_nsmul, ← E.card, card_nsmul_eq_zero']

/-! ## Clamped secrets -/

theorem modify_last {middle : List UInt8} {n : Nat} (h : middle.length = n) (last : UInt8)
    (f : UInt8 → UInt8) : (middle ++ [last]).modify n f = middle ++ [f last] := by
  subst h
  induction middle with
  | nil => rfl
  | cons b middle ih => simpa using ih

variable {bytes : List UInt8}

section

variable (h : bytes.length = 32)

include h

theorem clampInteger_eq :
    ∃ first middle last, middle.length = 30 ∧
      clampInteger bytes = (first &&& 0xf8) :: (middle ++ [last &&& 0x7f ||| 0x40]) := by
  obtain ⟨first, rest, rfl⟩ := exists_cons_of_length_eq_add_one h
  obtain ⟨middle, last, rfl⟩ := (eq_nil_or_concat' rest).resolve_left (by rintro rfl; simp at h)
  have hmiddle : middle.length = 30 := by simpa using h
  exact ⟨first, middle, last, hmiddle, by simp [clampInteger, modify_last hmiddle]⟩

theorem clampInteger_clampInteger : clampInteger (clampInteger bytes) = clampInteger bytes := by
  obtain ⟨first, middle, last, hmiddle, hclamp⟩ := clampInteger_eq h
  have hfirst := forall_byte (p := fun b => b &&& 0xf8 &&& 0xf8 = b &&& 0xf8) (by decide +kernel) first
  have hlast := forall_byte (p := fun b => (b &&& 0x7f ||| 0x40) &&& 0x7f ||| 0x40 = b &&& 0x7f ||| 0x40)
    (by decide +kernel) last
  rw [hclamp]
  simp [clampInteger, modify_last hmiddle, hfirst, hlast]

/-- A clamped secret is eight times a number that is not zero and has at most 252 bits. -/
theorem ofLe_clampInteger : ∃ k, ofLe (clampInteger bytes) = 8 * k ∧ 0 < k ∧ k < 2 ^ 252 := by
  obtain ⟨first, middle, last, hmiddle, hclamp⟩ := clampInteger_eq h
  have hfirst := forall_byte (p := fun b => (b &&& 0xf8).toNat % 8 = 0) (by decide +kernel) first
  have hbyte := (first &&& 0xf8).toNat_lt
  have hlast := forall_byte (p := fun b => 0 < (b &&& 0x7f ||| 0x40).toNat ∧
    (b &&& 0x7f ||| 0x40).toNat < 128) (by decide +kernel) last
  have hbytes := ofLe_lt middle
  have hvalue : ofLe (clampInteger bytes) = (first &&& 0xf8).toNat +
      256 * (ofLe middle + 256 ^ 30 * (last &&& 0x7f ||| 0x40).toNat) := by
    rw [hclamp, ofLe, ofLe_append, hmiddle]
    simp [ofLe]
  rw [hmiddle] at hbytes
  exact ⟨ofLe (clampInteger bytes) / 8, by omega, by omega, by omega⟩

theorem not_dvd_clampInteger : ¬E.l ∣ 8 * ofLe (clampInteger bytes) := by
  obtain ⟨k, hk, hpos, hlt⟩ := ofLe_clampInteger h
  have hl := E.le_l
  rw [hk]
  intro hdvd
  have hor : E.l ∣ 8 ∨ E.l ∣ 8 ∨ E.l ∣ k := by
    rwa [← E.prime.dvd_mul, ← E.prime.dvd_mul]
  rcases hor with hdvd | hdvd | hdvd
  · exact absurd (Nat.le_of_dvd (by decide) hdvd) (by omega)
  · exact absurd (Nat.le_of_dvd (by decide) hdvd) (by omega)
  · exact absurd (Nat.le_of_dvd hpos hdvd) (by omega)

end

theorem not_smallOrder_gamma (h : E.l • hashPoint = 0) (hne : hashPoint ≠ 0) {n : Nat}
    (hn : ¬E.l ∣ 8 * n) : 8 • E.mul n hashPoint ≠ 0 := by
  have : Fact E.l.Prime := ⟨E.prime⟩
  rw [mul_natCast h, ← mul_nsmul', ne_eq, ← addOrderOf_dvd_iff_nsmul_eq_zero, addOrderOf_eq_prime h hne]
  exact hn

/-! ## The wire form -/

theorem fromCanonicalBytes_toLe (scalar : E.Scalar) :
    E.fromCanonicalBytes (toLe 32 scalar.val) = some scalar := by
  have hlt := scalar.val_lt
  have hl := E.l_lt
  rw [fromCanonicalBytes, ofLe_toLe (by omega), if_pos hlt, ZMod.natCast_zmod_val]

/-- A challenge is there, and sixteen bytes long. -/
theorem challenge_eq_ok (first second third fourth : Point) :
    ∃ challenge, E.challenge first second third fourth = .ok challenge ∧ challenge.val < 2 ^ 128 := by
  have hl := E.le_l
  unfold Suite.challenge
  dsimp only
  generalize E.sha512 _ = digest
  have hlt := ofLe_lt (digest.toList.take 16)
  have hlength : (digest.toList.take 16).length = 16 := by simp
  rw [hlength] at hlt
  rw [fromCanonicalBytes, ofLe_append_zeros, if_pos (by omega)]
  refine ⟨_, rfl, ?_⟩
  rw [ZMod.val_natCast, Nat.mod_eq_of_lt (by omega)]
  omega

section Checks

variable [DecidableEq Point]

theorem fromBytes_toBytes {proof : E.VrfProof} (hgamma : 8 • proof.gamma ≠ 0)
    (hchallenge : proof.challenge.val < 2 ^ 128) :
    VrfProof.fromBytes E (VrfProof.toBytes E proof) = .ok proof := by
  have hshort : ofLe ((toLe 32 proof.challenge.val).take 16 ++ List.replicate 16 0)
      = proof.challenge.val := by
    rw [ofLe_append_zeros, take_toLe (by decide), ofLe_toLe (by omega)]
  have hread : E.fromCanonicalBytes ((toLe 32 proof.challenge.val).take 16 ++ List.replicate 16 0)
      = some proof.challenge := by
    rw [fromCanonicalBytes, hshort, if_pos proof.challenge.val_lt, ZMod.natCast_zmod_val]
  have hbytes : Bytes.ofList? 80 (VrfProof.toBytes E proof)
      = some ⟨VrfProof.toBytes E proof, by simp [VrfProof.toBytes]⟩ :=
    Bytes.ofList?_toList ⟨_, _⟩
  have hfront : (VrfProof.toBytes E proof).take 32 = (E.compress proof.gamma).toList := by
    simp [VrfProof.toBytes]
  have hmiddle : ((VrfProof.toBytes E proof).drop 32).take 16 = (toLe 32 proof.challenge.val).take 16 := by
    simp [VrfProof.toBytes]
  have hback : (VrfProof.toBytes E proof).drop 48 = toLe 32 proof.response.val := by
    simp [VrfProof.toBytes, drop_append]
  simp [VrfProof.fromBytes, hbytes, hfront, hmiddle, hback, hread, fromCanonicalBytes_toLe,
    E.decompress_compress, isSmallOrder, hgamma, -reduceReplicate]

/-- **What is proved verifies**, also after a trip through its bytes. -/
theorem proof_verifies (E : Suite Point) (privateKey : Bytes 32) (message : List UInt8) {hashPoint : Point}
    (hhash : E.hashToCurve (E.publicKey privateKey) message = some hashPoint) (hne : hashPoint ≠ 0) :
    ∃ proof, E.prove privateKey message = some (.ok proof) ∧
      VrfProof.fromBytes E (VrfProof.toBytes E proof) = .ok proof ∧
      E.verify (E.publicKey privateKey) proof message = some (.ok true) := by
  have hpoint := annihilated_hashPoint hhash
  have hlength : ((E.sha512 privateKey.toList).toList.take 32).length = 32 := by simp
  set secret := ofLe (clampInteger ((E.sha512 privateKey.toList).toList.take 32))
  set nonce := E.nonce ((E.sha512 privateKey.toList).toList.drop 32) hashPoint
  obtain ⟨challenge, hchallenge, hsmall⟩ := E.challenge_eq_ok hashPoint (E.mul secret hashPoint)
    (E.mul nonce E.basepoint) (E.mul nonce hashPoint)
  have hgamma : 8 • E.mul secret hashPoint ≠ 0 :=
    not_smallOrder_gamma hpoint hne (not_dvd_clampInteger hlength)
  have hkey : E.publicKey privateKey = E.compress (E.mul secret E.basepoint) := by
    rw [publicKey, mul_natCast annihilated_basepoint]
  refine ⟨⟨E.mul secret hashPoint, challenge, nonce + challenge * secret⟩, ?_,
    fromBytes_toBytes hgamma hsmall, ?_⟩
  · simp only [prove, expandPrivateKey, clampInteger_clampInteger hlength, hhash, Option.map_some]
    rw [hchallenge]
    rfl
  · simp only [verify, isSmallOrder, hgamma, decide_false, hhash, Option.map_some]
    rw [hkey, E.decompress_compress]
    simp only [okOr, ok_bind, mul_response annihilated_basepoint, mul_response hpoint, hchallenge]
    simp

end Checks

/-- `203 * 2 ^ 245 + 1`, a prime of the size of the order of edwards25519. -/
abbrev plainOrder : Nat := 11477438532800384604973100564825998678815335394104020751957953883596858064897

theorem plainOrder_prime : plainOrder.Prime := by
  refine lucas_primality _ 5 (by reduce_mod_char) fun q hq hdvd => ?_
  have hdvd : q ∣ 2 ^ 245 ∨ q ∣ 7 ∨ q ∣ 29 := by
    rw [← hq.dvd_mul, ← hq.dvd_mul]
    exact hdvd
  have hfactor : q = 2 ∨ q = 7 ∨ q = 29 := by
    rcases hdvd with h | h | h
    · exact .inl ((Nat.prime_dvd_prime_iff_eq hq Nat.prime_two).1 (hq.dvd_of_dvd_pow h))
    · exact .inr (.inl ((Nat.prime_dvd_prime_iff_eq hq (by norm_num)).1 h))
    · exact .inr (.inr ((Nat.prime_dvd_prime_iff_eq hq (by norm_num)).1 h))
  rcases hfactor with rfl | rfl | rfl <;> norm_num <;> reduce_mod_char <;> decide

/-- Integers modulo `8 * l`, and a digest that does not depend on anything. -/
def plainSuite : Suite (ZMod (8 * plainOrder)) where
  l := plainOrder
  prime := plainOrder_prime
  le_l := by decide
  l_lt := by decide
  card := Nat.card_zmod _
  basepoint := 8
  order_basepoint := by
    rw [show (8 : ZMod (8 * plainOrder)) = (8 : Nat) from rfl, ZMod.addOrderOf_coe _ (by decide)]
    decide
  compress point := ⟨toLe 32 point.val, length_toLe _ _⟩
  decompress bytes := some (ofLe bytes.toList)
  decompress_compress point := by
    rw [ofLe_toLe (point.val_lt.trans (by decide)), ZMod.natCast_zmod_val]
  sha512 _ := Bytes.fill 64 [1]

theorem proof_verifies_plain :
    ∃ proof, plainSuite.prove (Bytes.zero 32) [7] = some (.ok proof) ∧
      VrfProof.fromBytes plainSuite (VrfProof.toBytes plainSuite proof) = .ok proof ∧
      plainSuite.verify (plainSuite.publicKey (Bytes.zero 32)) proof [7] = some (.ok true) := by
  have hhash : plainSuite.hashToCurve (plainSuite.publicKey (Bytes.zero 32)) [7] = some 8 := by
    decide +kernel
  exact proof_verifies plainSuite (Bytes.zero 32) [7] hhash (by decide)

end Suite

end NanoStacks.Crypto
