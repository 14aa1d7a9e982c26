import Mathlib.Data.List.Basic
import Mathlib.Logic.Function.Basic

/-!
# Encodings whose end can be told

An encoding is self-delimiting when its reader knows where a value ends, and
what it was, whatever follows. Encodings of one length are.

* `SelfDelimiting.of_length` — encodings of one length;
* `SelfDelimiting.flatMap_inj` — a row of encodings is read back;
* `SelfDelimiting.injective` — the encoding is injective.
-/

namespace Encoding

variable {α β : Type*} {enc : α → List β}

/-- Where an encoded value ends, and what it was, can be told. -/
def SelfDelimiting (enc : α → List β) : Prop :=
  ∀ ⦃a b : α⦄ ⦃x y : List β⦄, enc a ++ x = enc b ++ y → a = b ∧ x = y

/-- An injective encoding of one length. -/
theorem SelfDelimiting.of_length (n : ℕ) (hlen : ∀ a, (enc a).length = n)
    (hinj : Function.Injective enc) :
    SelfDelimiting enc := by
  intro a b x y h
  obtain ⟨hab, hxy⟩ := List.append_inj h ((hlen a).trans (hlen b).symm)
  exact ⟨hinj hab, hxy⟩

/-- As many values as are known to follow. -/
theorem SelfDelimiting.flatMap_inj (henc : SelfDelimiting enc) {l l' : List α}
    (hlen : l.length = l'.length)
    {x y : List β} (h : l.flatMap enc ++ x = l'.flatMap enc ++ y) : l = l' ∧ x = y := by
  induction l generalizing l' with
  | nil =>
    obtain rfl : l' = [] := List.eq_nil_of_length_eq_zero hlen.symm
    exact ⟨rfl, h⟩
  | cons a l ih =>
    cases l' with
    | nil => exact absurd hlen (by simp)
    | cons b l' =>
      simp only [List.flatMap_cons, List.append_assoc] at h
      obtain ⟨rfl, hrest⟩ := henc h
      obtain ⟨rfl, rfl⟩ := ih (by simpa using hlen) hrest
      exact ⟨rfl, rfl⟩

/-- With nothing after it. -/
theorem SelfDelimiting.injective (henc : SelfDelimiting enc) : Function.Injective enc := by
  intro a b h
  exact (henc (x := []) (y := []) (by rw [h])).1

end Encoding
