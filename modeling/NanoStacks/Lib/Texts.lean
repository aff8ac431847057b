import NanoStacks.Lib.Result
import Mathlib.Data.List.Forall2

/-!
# Texts that follow one another

When texts are written one after another with nothing between them, what was written can be read back
only if each text can be cut off the front of what follows it. `Reads P R Q` says that it can for two
values related by `P`: their texts, whatever comes after, are the same only if `Q` holds of the values
and what comes after is the same. `Reads.flatten` carries this to whole lists.
-/

namespace NanoStacks.Texts

open List

universe u v

variable {α : Type u} {β : Type v}

/-- The texts `R` writes for two values related by `P` are told from what follows them, and determine
the values as far as `Q`. -/
def Reads (P : α → α → Prop) (R : α → List β → Prop) (Q : α → α → Prop) : Prop :=
  ∀ ⦃a b s t x y⦄, P a b → R a s → R b t → s ++ x = t ++ y → Q a b ∧ x = y

variable {P Q : α → α → Prop} {R : α → List β → Prop}

theorem Reads.ofWidth (hwidth : ∀ ⦃a b s t⦄, P a b → R a s → R b t → s.length = t.length)
    (hinj : ∀ ⦃a b s⦄, R a s → R b s → Q a b) : Reads P R Q := by
  intro a b s t x y hP hs ht heq
  obtain ⟨rfl, rfl⟩ := append_inj heq (hwidth hP hs ht)
  exact ⟨hinj hs ht, rfl⟩

theorem Reads.flatten (h : Reads P R Q) {as bs : List α} {ss ts : List (List β)} {x y : List β}
    (hP : List.Forall₂ P as bs) (hs : List.Forall₂ R as ss) (ht : List.Forall₂ R bs ts)
    (heq : ss.flatten ++ x = ts.flatten ++ y) : List.Forall₂ Q as bs ∧ x = y := by
  induction hP generalizing ss ts with
  | nil =>
    cases hs
    cases ht
    exact ⟨.nil, heq⟩
  | cons hab _ ih =>
    obtain _ | ⟨hsa, hsrest⟩ := hs
    obtain _ | ⟨htb, htrest⟩ := ht
    simp only [flatten_cons, append_assoc] at heq
    obtain ⟨hQ, heq⟩ := h hab hsa htb heq
    obtain ⟨hQs, hrest⟩ := ih hsrest htrest heq
    exact ⟨.cons hQ hQs, hrest⟩

theorem append_cons_inj {mark : β} {s t x y : List β} (hs : mark ∉ s) (ht : mark ∉ t)
    (heq : s ++ mark :: x = t ++ mark :: y) : s = t ∧ x = y := by
  induction s generalizing t with
  | nil =>
    cases t with
    | nil => exact ⟨rfl, by simpa using heq⟩
    | cons c t =>
      obtain rfl : mark = c := by simpa using (cons.inj heq).1
      simp at ht
  | cons c s ih =>
    cases t with
    | nil =>
      obtain rfl : c = mark := by simpa using (cons.inj heq).1
      simp at hs
    | cons d t =>
      obtain ⟨rfl, hrest⟩ := cons.inj heq
      obtain ⟨rfl, rfl⟩ := ih (not_mem_of_not_mem_cons hs) (not_mem_of_not_mem_cons ht) hrest
      exact ⟨rfl, rfl⟩

theorem forall₂_comp {α β γ : Type} {R : α → β → Prop} {S : β → γ → Prop} {as : List α}
    {bs : List β} {cs : List γ} (h : List.Forall₂ R as bs) (h' : List.Forall₂ S bs cs) :
    List.Forall₂ (fun a c => ∃ b, R a b ∧ S b c) as cs := by
  induction h generalizing cs with
  | nil =>
    cases h'
    exact .nil
  | cons hR _ ih =>
    obtain _ | ⟨hS, hrest⟩ := h'
    exact .cons ⟨_, hR, hS⟩ (ih hrest)

theorem forall₂_of_mapM_ok {ε α β : Type} {f : α → Except ε β} {l : List α} {l' : List β}
    (h : l.mapM f = .ok l') : List.Forall₂ (fun a b => f a = .ok b) l l' := by
  induction l generalizing l' with
  | nil =>
    obtain rfl : l' = [] := by simpa using h.symm
    exact .nil
  | cons a l ih =>
    simp only [mapM_cons, Result.bind_eq_ok, Result.return_eq_ok] at h
    obtain ⟨b, hb, rest, hrest, rfl⟩ := h
    exact .cons hb (ih hrest)

end NanoStacks.Texts
