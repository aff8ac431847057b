import NanoStacks.Lib.Bytes
import Mathlib.Tactic.Common

/-!
# Reading a value off the front of some bytes

A reader takes what it needs off the front of the bytes that are left, or fails. Two notions say what
a reader is good for:

* `Decodes p encode good`: it succeeds exactly where the encoding of a good value stands, with that
  value, and takes exactly its encoding. This is the round trip in both directions.
* `Local p`: what it reads does not depend on the bytes it leaves. A value that is kept as the bytes
  it was read from (`taken`) decodes for this reason alone.

Readers are chained by `bind`, and `bind_eq_ok` takes a chain apart again; `times` repeats one.
-/

namespace NanoStacks

open List

/-- A reader over the bytes that are left. -/
abbrev Reader (ε α : Type) := StateT (List UInt8) (Except ε) α

namespace Reader

variable {ε α β : Type} {s rest : List UInt8}

@[simp] theorem bind_eq_ok {p : Reader ε α} {f : α → Reader ε β} {b : β} :
    (p >>= f) s = .ok (b, rest) ↔ ∃ a mid, p s = .ok (a, mid) ∧ f a mid = .ok (b, rest) := by
  show (p s >>= fun r => f r.1 r.2) = _ ↔ _
  rw [Result.bind_eq_ok, Prod.exists]

variable {a : α}

@[simp] theorem pure_eq_ok {b : α} :
    (pure a : Reader ε α) s = .ok (b, rest) ↔ a = b ∧ s = rest := by
  show Except.ok (a, s) = _ ↔ _
  simp

@[simp] theorem map_eq_ok {p : Reader ε α} {f : α → β} {b : β} :
    (f <$> p) s = .ok (b, rest) ↔ ∃ a, p s = .ok (a, rest) ∧ f a = b := by
  rw [← bind_pure_comp, bind_eq_ok]
  simp

@[simp] theorem throw_ne_ok {e : ε} : ¬(throw e : Reader ε α) s = .ok (a, rest) := by
  intro h
  cases h

/-! ## The elements -/

/-- Fail with an error unless a condition holds. -/
def check (p : Prop) [Decidable p] (e : ε) : Reader ε Unit := if p then pure () else throw e

@[simp] theorem check_eq_ok {p : Prop} [Decidable p] {e : ε} {u : Unit} :
    check p e s = .ok (u, rest) ↔ p ∧ s = rest := by
  unfold check
  split_ifs with h
  · rw [pure_eq_ok]
    simp [h]
  · simp [h, throw_ne_ok]

/-- How many bytes are left. -/
def remaining : Reader ε Nat := fun s => .ok (s.length, s)

variable {n : Nat}

@[simp] theorem remaining_eq_ok :
    (remaining : Reader ε Nat) s = .ok (n, rest) ↔ s.length = n ∧ s = rest := by
  show Except.ok (s.length, s) = _ ↔ _
  simp

variable (short : ε)

/-- The next `n` bytes. -/
def take (n : Nat) : Reader ε (List UInt8) := fun s => Result.okOr (takeBytes n s) short

theorem take_eq_ok {front : List UInt8} :
    take short n s = .ok (front, rest) ↔ front.length = n ∧ s = front ++ rest := by
  rw [take, Result.okOr_eq_ok]
  constructor
  · intro h
    refine ⟨takeBytes_length h, ?_⟩
    unfold takeBytes at h
    split_ifs at h
    obtain ⟨rfl, rfl⟩ := Prod.mk.inj (Option.some.inj h)
    rw [take_append_drop]
  · rintro ⟨hlength, rfl⟩
    exact takeBytes_append front rest hlength

/-- The next byte. -/
def byte : Reader ε UInt8
  | [] => .error short
  | b :: rest => .ok (b, rest)

theorem byte_eq_ok {b : UInt8} : byte short s = .ok (b, rest) ↔ s = b :: rest := by
  cases s <;> simp [byte]

/-- The next bytes, as a string of a fixed length. -/
def fixed (n : Nat) : Reader ε (Bytes n) := fun s =>
  if h : n ≤ s.length then .ok (⟨s.take n, by simpa using h⟩, s.drop n) else .error short

theorem fixed_eq_ok {b : Bytes n} : fixed short n s = .ok (b, rest) ↔ s = b.toList ++ rest := by
  unfold fixed
  split_ifs with h
  · simp only [Except.ok.injEq, Prod.mk.injEq, Bytes.ext_iff]
    constructor
    · rintro ⟨hfront, hrest⟩
      rw [← hfront, ← hrest, take_append_drop]
    · rintro rfl
      have hlength := b.length_toList
      exact ⟨take_left' hlength, drop_left' hlength⟩
  · simp only [false_iff]
    rintro rfl
    rw [length_append, b.length_toList] at h
    omega

/-- The next big-endian integer of `w` bytes. -/
def uint (w : Nat) : Reader ε Nat := do
  let bytes ← take short w
  return ofBe bytes

theorem uint_eq_ok {w : Nat} :
    uint short w s = .ok (n, rest) ↔ n < 256 ^ w ∧ s = toBe w n ++ rest := by
  simp only [uint, bind_eq_ok, take_eq_ok, pure_eq_ok]
  grind [ofBe_lt, toBe_ofBe, ofBe_toBe, length_toBe]

/-- The results of reading `n` times. -/
def times (n : Nat) (p : Reader ε α) : Reader ε (List α) :=
  match n with
  | 0 => pure []
  | n + 1 => do
    let first ← p
    let rest ← times n p
    return first :: rest

/-- What a reader reads, with the bytes it takes for it. -/
def taken (p : Reader ε α) : Reader ε (α × List UInt8) := fun s => do
  let (a, rest) ← p s
  return ((a, s.take (s.length - rest.length)), rest)

/-! ## Decoding -/

/-- The reader finds a good value exactly where its encoding stands, and takes exactly that. -/
@[reducible] def Decodes (p : Reader ε α) (encode : α → List UInt8) (good : α → Prop) : Prop :=
  ∀ s a rest, p s = .ok (a, rest) ↔ good a ∧ s = encode a ++ rest

variable {p : Reader ε α} {encode : α → List UInt8} {good : α → Prop}

section

variable (h : Decodes p encode good)

include h

theorem Decodes.times (n : Nat) :
    Decodes (times n p) (·.flatMap encode) fun as => as.length = n ∧ ∀ a ∈ as, good a := by
  induction n with
  | zero =>
    intro s as rest
    simp only [Reader.times, pure_eq_ok, length_eq_zero_iff]
    grind
  | succ n ih =>
    intro s as rest
    simp only [Reader.times, bind_eq_ok, h _ _ _, ih _ _ _, pure_eq_ok]
    cases as <;> grind

theorem Decodes.check (q : α → Prop) [DecidablePred q] (e : ε) :
    Decodes (do let a ← p; check (q a) e; return a) encode fun a => good a ∧ q a := by
  intro s a rest
  simp only [bind_eq_ok, h _ _ _, check_eq_ok, pure_eq_ok]
  grind

theorem Decodes.congr {encode' : α → List UInt8} {good' : α → Prop} (hgood : ∀ a, good a ↔ good' a)
    (hencode : ∀ a, good a → encode a = encode' a) : Decodes p encode' good' := by
  intro s a rest
  rw [h s a rest]
  grind

theorem Decodes.inj {b : α} (ha : good a) (hb : good b) {x y : List UInt8}
    (heq : encode a ++ x = encode b ++ y) : a = b ∧ x = y := by
  have hread : p (encode a ++ x) = .ok (a, x) := (h _ _ _).2 ⟨ha, rfl⟩
  rw [heq, (h _ b y).2 ⟨hb, rfl⟩] at hread
  obtain ⟨hab, hxy⟩ := Prod.mk.inj (Except.ok.inj hread)
  exact ⟨hab.symm, hxy.symm⟩

end

variable {as : List α}

theorem exists_of_mem_times (h : times n p s = .ok (as, rest)) :
    ∀ a ∈ as, ∃ s' rest', p s' = .ok (a, rest') := by
  induction n generalizing s as with
  | zero =>
    obtain ⟨rfl, -⟩ := pure_eq_ok.1 h
    simp
  | succ n ih =>
    simp only [times, bind_eq_ok, pure_eq_ok] at h
    grind

theorem times_congr {ε' : Type} {q : Reader ε' α}
    (h : ∀ s a rest, p s = .ok (a, rest) ↔ q s = .ok (a, rest)) :
    times n p s = .ok (as, rest) ↔ times n q s = .ok (as, rest) := by
  induction n generalizing s as rest with
  | zero => simp only [times, pure_eq_ok]
  | succ n ih => simp only [times, bind_eq_ok, h, ih, pure_eq_ok]

/-! ## Locality -/

/-- What is read does not depend on what is left. -/
def Local (p : Reader ε α) : Prop :=
  ∀ ⦃s a rest⦄, p s = .ok (a, rest) →
    ∃ used, s = used ++ rest ∧ ∀ after, p (used ++ after) = .ok (a, after)

theorem Decodes.isLocal (h : Decodes p encode good) : Local p := by
  intro s a rest hok
  obtain ⟨hgood, rfl⟩ := (h _ _ _).1 hok
  exact ⟨encode a, rfl, fun after => (h _ _ _).2 ⟨hgood, rfl⟩⟩

theorem Local.pure (a : α) : Local (pure a : Reader ε α) := by
  intro s b rest hok
  obtain ⟨rfl, rfl⟩ := pure_eq_ok.1 hok
  exact ⟨[], rfl, fun after => rfl⟩

theorem Local.throw (e : ε) : Local (throw e : Reader ε α) :=
  fun _ _ _ hok => absurd hok throw_ne_ok

theorem Local.check (p : Prop) [Decidable p] (e : ε) : Local (check p e) := by
  unfold Reader.check
  split_ifs
  · exact Local.pure ()
  · exact Local.throw e

theorem Local.bind {p : Reader ε α} {f : α → Reader ε β} (hp : Local p) (hf : ∀ a, Local (f a)) :
    Local (p >>= f) := by
  intro s b rest hok
  obtain ⟨a, mid, ha, hb⟩ := bind_eq_ok.1 hok
  obtain ⟨used, rfl, hused⟩ := hp ha
  obtain ⟨used', rfl, hused'⟩ := hf a hb
  refine ⟨used ++ used', by simp, fun after => ?_⟩
  rw [append_assoc]
  exact bind_eq_ok.2 ⟨a, used' ++ after, hused _, hused' after⟩

theorem Local.times {p : Reader ε α} (h : Local p) (n : Nat) : Local (times n p) := by
  induction n with
  | zero => exact Local.pure []
  | succ n ih => exact h.bind fun _ => ih.bind fun _ => Local.pure _

/-- The bytes a local reader takes are those it reads the same from. -/
theorem Local.taken {p : Reader ε α} (h : Local p) :
    Decodes (taken p) (·.2) fun r => p r.2 = .ok (r.1, []) := by
  rintro s ⟨a, used⟩ rest
  show (p s >>= fun r => Except.ok ((r.1, s.take (s.length - r.2.length)), r.2)) = _ ↔ _
  rw [Result.bind_eq_ok]
  constructor
  · rintro ⟨⟨a', rest'⟩, hok, heq⟩
    obtain ⟨hpair, rfl⟩ := Prod.mk.inj (Except.ok.inj heq)
    obtain ⟨rfl, rfl⟩ := Prod.mk.inj hpair
    obtain ⟨used, rfl, hused⟩ := h hok
    have hfront : (used ++ rest').take ((used ++ rest').length - rest'.length) = used := by
      rw [length_append, Nat.add_sub_cancel, take_left]
    have hwhole := hused []
    rw [append_nil] at hwhole
    rw [hfront]
    exact ⟨hwhole, rfl⟩
  · rintro ⟨hok, rfl⟩
    obtain ⟨used', hused', hsame⟩ := h hok
    obtain rfl : used = used' := hused'.trans (append_nil used')
    refine ⟨(a, rest), hsame rest, ?_⟩
    rw [length_append, Nat.add_sub_cancel, take_left]

theorem Decodes.taken (h : Decodes p encode good) :
    Decodes (taken p) (fun r => encode r.1) fun r => good r.1 ∧ r.2 = encode r.1 := by
  refine h.isLocal.taken.congr (fun r => ?_) fun r hr => ?_
  · rw [h, append_nil]
  · rw [h, append_nil] at hr
    exact hr.2

theorem length_flatMap_ge {least : Nat} (h : ∀ a ∈ as, least ≤ (encode a).length) :
    least * as.length ≤ (as.flatMap encode).length := by
  induction as with
  | nil => simp
  | cons a as ih =>
    have hfirst := h a mem_cons_self
    have hrest := ih fun b hb => h b (mem_cons_of_mem _ hb)
    rw [flatMap_cons, length_append, length_cons, Nat.mul_succ]
    omega

end Reader

end NanoStacks
