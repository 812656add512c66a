/-!
# Machine integers

The integers of the language have 64 bits and a sign. They are made from mathematical integers by
`Integer.ofInt?`, which fails outside the range and never wraps around.

* `toInt_ofInt?`: the result, when there is one, is the same integer.
* `ofInt?_eq_none_iff`: there is none exactly outside the range.
* `ofInt?_eq_some_iff`: an integer of the language is made from its own value only.
-/

namespace FeatherScript.Integer

/-- The least integer of the language. -/
def least : Int := -9223372036854775808

/-- The largest integer of the language. -/
def largest : Int := 9223372036854775807

/-- A mathematical integer as one of the language, if it is in range. -/
def ofInt? (n : Int) : Option Int64 :=
  if least ≤ n ∧ n ≤ largest then some (Int64.ofInt n) else none

/-- The decimal form, with a minus sign before negative numbers. -/
def text (n : Int64) : String := toString n.toInt

/-- The result, when there is one, is the same integer. -/
theorem toInt_ofInt? {n : Int} {i : Int64} (h : ofInt? n = some i) : i.toInt = n := by
  obtain ⟨⟨hLow, hHigh⟩, hSome⟩ := Option.ite_none_right_eq_some.mp h
  cases hSome
  simp only [least, largest] at hLow hHigh
  exact Int64.toInt_ofInt_of_le (by omega) (by omega)

/-- There is no result exactly outside the range. -/
theorem ofInt?_eq_none_iff (n : Int) : ofInt? n = none ↔ n < least ∨ largest < n := by
  rw [ofInt?, ite_eq_right_iff]
  constructor
  · intro h
    by_cases hLow : least ≤ n
    · by_cases hHigh : n ≤ largest
      · cases h ⟨hLow, hHigh⟩
      · exact .inr (Int.not_le.mp hHigh)
    · exact .inl (Int.not_le.mp hLow)
  · omega

/-- An integer of the language is made from its own value only. -/
theorem ofInt?_eq_some_iff {n : Int} {i : Int64} : ofInt? n = some i ↔ n = i.toInt := by
  constructor
  · intro h
    exact (toInt_ofInt? h).symm
  · rintro rfl
    have hLow := i.le_toInt
    have hHigh := i.toInt_lt
    rw [ofInt?, if_pos (by simp only [least, largest]; omega), Int64.ofInt_toInt]

end FeatherScript.Integer
