import NanoStacks.Lib.Bytes

/-!
# Encodings that end by themselves

An encoding is delimited if it can be cut off the front of whatever follows it: two values followed by
anything are written alike only if the values are the same and the same follows. Texts of one width are,
and texts behind their own length. A list of values that are written one after another, with no count and
nothing behind it, is then determined by what is written, as long as no value is written as nothing.
-/

namespace NanoStacks

open List

universe u

variable {α : Type u} {β : Type}

/-- Good values are told apart by their encodings, whatever follows them. -/
def Delimited (encode : α → List β) (good : α → Prop) : Prop :=
  ∀ ⦃a b x y⦄, good a → good b → encode a ++ x = encode b ++ y → a = b ∧ x = y

variable {encode : α → List β} {good : α → Prop}

theorem Delimited.ofWidth {w : Nat} (hwidth : ∀ a, good a → (encode a).length = w)
    (hinj : ∀ a b, good a → good b → encode a = encode b → a = b) : Delimited encode good := by
  intro a b x y ha hb h
  obtain ⟨hencode, hrest⟩ := append_inj h (by rw [hwidth a ha, hwidth b hb])
  exact ⟨hinj a b ha hb hencode, hrest⟩

theorem delimited_toBe (w : Nat) : Delimited (toBe w) (· < 256 ^ w) :=
  Delimited.ofWidth (fun n _ => length_toBe w n) fun n m hn hm h => by
    rw [← ofBe_toBe hn, h, ofBe_toBe hm]

theorem Delimited.measured {text : α → List UInt8} {good : α → Prop} (w : Nat)
    (hfits : ∀ a, good a → (text a).length < 256 ^ w)
    (hinj : ∀ a b, good a → good b → text a = text b → a = b) :
    Delimited (fun a => toBe w (text a).length ++ text a) good := by
  intro a b x y ha hb h
  rw [append_assoc, append_assoc] at h
  obtain ⟨hlength, h⟩ := delimited_toBe w (hfits a ha) (hfits b hb) h
  obtain ⟨htext, hrest⟩ := append_inj h hlength
  exact ⟨hinj a b ha hb htext, hrest⟩

theorem Delimited.flatMap_of_length (h : Delimited encode good) {as bs : List α} {x y : List β}
    (hlength : as.length = bs.length) (has : ∀ a ∈ as, good a) (hbs : ∀ b ∈ bs, good b)
    (heq : as.flatMap encode ++ x = bs.flatMap encode ++ y) : as = bs ∧ x = y := by
  induction as generalizing bs with
  | nil =>
    obtain rfl := length_eq_zero_iff.1 hlength.symm
    exact ⟨rfl, heq⟩
  | cons a as ih =>
    obtain _ | ⟨b, bs⟩ := bs
    · exact absurd hlength (by simp)
    rw [flatMap_cons, flatMap_cons, append_assoc, append_assoc] at heq
    obtain ⟨rfl, htail⟩ := h (has a mem_cons_self) (hbs b mem_cons_self) heq
    obtain ⟨rfl, hrest⟩ := ih (by simpa using hlength)
      (fun a ha => has a (mem_cons_of_mem _ ha)) (fun b hb => hbs b (mem_cons_of_mem _ hb))
      htail
    exact ⟨rfl, hrest⟩

theorem Delimited.flatMap_inj (h : Delimited encode good) (hne : ∀ a, good a → encode a ≠ [])
    {as bs : List α} (has : ∀ a ∈ as, good a) (hbs : ∀ b ∈ bs, good b)
    (heq : as.flatMap encode = bs.flatMap encode) : as = bs := by
  induction as generalizing bs with
  | nil =>
    cases bs with
    | nil => rfl
    | cons b bs =>
      rw [flatMap_nil, flatMap_cons] at heq
      exact absurd (append_eq_nil_iff.1 heq.symm).1 (hne b (hbs b mem_cons_self))
  | cons a as ih =>
    cases bs with
    | nil =>
      rw [flatMap_nil, flatMap_cons] at heq
      exact absurd (append_eq_nil_iff.1 heq).1 (hne a (has a mem_cons_self))
    | cons b bs =>
      rw [flatMap_cons, flatMap_cons] at heq
      obtain ⟨rfl, htail⟩ := h (has a mem_cons_self) (hbs b mem_cons_self) heq
      rw [ih (fun a ha => has a (mem_cons_of_mem _ ha))
        (fun b hb => hbs b (mem_cons_of_mem _ hb)) htail]

end NanoStacks
