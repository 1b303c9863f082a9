import Mathlib

/-! # Prefix codes

An encoding is a prefix code if the bytes alone tell where the text of a value ends, whatever comes
behind it. Texts in a row can then be taken apart in one way only, even if the last one is torn.
-/

namespace FuncWarble.Text

variable {α β γ : Type}

/-- The encoded value and what comes behind it are determined by the whole text. -/
def PrefixCode (encode : α → List γ) : Prop :=
  ∀ ⦃a b : α⦄ ⦃x y : List γ⦄, encode a ++ x = encode b ++ y → a = b ∧ x = y

/-- The text of a value of which some of the end is missing. -/
def Torn (encode : α → List γ) (text : List γ) : Prop :=
  ∃ a rest, rest ≠ [] ∧ encode a = text ++ rest

namespace PrefixCode

variable {encode : α → List γ} {encode' : β → List γ}

theorem pair (code : PrefixCode encode) (code' : PrefixCode encode') :
    PrefixCode fun both : α × β => encode both.1 ++ encode' both.2 := by
  rintro ⟨a, a'⟩ ⟨b, b'⟩ x y same
  simp only [List.append_assoc] at same
  obtain ⟨rfl, behind⟩ := code same
  obtain ⟨rfl, rest⟩ := code' behind
  exact ⟨rfl, rest⟩

/-- Fixed bytes in front of a text do not matter. -/
theorem behind (code : PrefixCode encode) (front : List γ) :
    PrefixCode fun a => front ++ encode a := by
  intro a b x y same
  simp only [List.append_assoc] at same
  exact code (List.append_cancel_left same)

/-- No whole text fits into a torn one. -/
theorem not_prefix_torn (code : PrefixCode encode) {a : α} {text : List γ}
    (torn : Torn encode text) : ¬ encode a <+: text := by
  rintro ⟨more, rfl⟩
  obtain ⟨b, rest, nonempty, whole⟩ := torn
  have same : encode b ++ [] = encode a ++ (more ++ rest) := by
    rw [List.append_nil, whole, List.append_assoc]
  have nothing := (code same).2.symm
  exact nonempty (List.append_eq_nil_iff.mp nothing).2

/-- A row of texts with a torn one behind it determines all the values and what is torn. -/
theorem flatMap_append_torn (code : PrefixCode encode) {as bs : List α} {x y : List γ}
    (torn : Torn encode x) (torn' : Torn encode y) :
    as.flatMap encode ++ x = bs.flatMap encode ++ y ↔ as = bs ∧ x = y := by
  refine ⟨fun same => ?_, fun ⟨values, rest⟩ => by rw [values, rest]⟩
  induction as generalizing bs with
  | nil =>
    cases bs with
    | nil => exact ⟨rfl, same⟩
    | cons b bs =>
      rw [List.flatMap_cons, List.append_assoc] at same
      exact absurd ⟨_, same.symm⟩ (code.not_prefix_torn torn)
  | cons a as ih =>
    cases bs with
    | nil =>
      rw [List.flatMap_cons, List.append_assoc] at same
      exact absurd ⟨_, same⟩ (code.not_prefix_torn torn')
    | cons b bs =>
      rw [List.flatMap_cons, List.flatMap_cons, List.append_assoc, List.append_assoc] at same
      obtain ⟨rfl, behind⟩ := code same
      obtain ⟨rfl, rest⟩ := ih behind
      exact ⟨rfl, rest⟩

/-- A row of texts begins with another one just when its values do. -/
theorem flatMap_prefix_iff (code : PrefixCode encode) (nonempty : ∀ a, encode a ≠ [])
    {as bs : List α} : as.flatMap encode <+: bs.flatMap encode ↔ as <+: bs := by
  induction as generalizing bs with
  | nil => simp
  | cons a as ih =>
    cases bs with
    | nil => simp [nonempty a]
    | cons b bs =>
      rw [List.flatMap_cons, List.flatMap_cons, List.cons_prefix_cons]
      constructor
      · rintro ⟨more, same⟩
        rw [List.append_assoc] at same
        obtain ⟨rfl, behind⟩ := code same
        exact ⟨rfl, ih.mp ⟨more, behind⟩⟩
      · rintro ⟨rfl, values⟩
        exact (List.prefix_append_right_inj _).mpr (ih.mpr values)

end PrefixCode

end FuncWarble.Text
