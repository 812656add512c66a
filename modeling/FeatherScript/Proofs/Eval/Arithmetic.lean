import FeatherScript.Eval.Arithmetic
import Mathlib.Algebra.Group.Int.Defs

/-!
# Operators are exact or fail

Operands that are not both integers are refused before anything else is looked at. On integers every
operator agrees with mathematics: its result is the exact one, or it fails because the divisor is
zero or because the exact result has no place in 64 bits. Remainders always have one, also that of
the least integer by minus one, whose quotient has none.

* `Exact`: the mathematical results of sums, differences, products and truncated quotients.
* `IsRemainder`: what remains of a truncated quotient.
* `Gives`: what an operator makes of two mathematical integers.
* `operators_exact`: an operator gives this, and nothing else.
-/

namespace FeatherScript

/-! ## Truncated quotients -/

/-- The quotient of two integers, truncated toward zero: its magnitude is that of the magnitudes,
rounded down, and its sign is the product of the signs. -/
structure IsQuotient (a b q : Int) : Prop where
  magnitude : q.natAbs = a.natAbs / b.natAbs
  sign : q = 0 ∨ q.sign = a.sign * b.sign

/-- What remains of an integer after its truncated quotient by another one. -/
structure IsRemainder (a b r : Int) : Prop where
  smaller : r.natAbs < b.natAbs
  sign : r = 0 ∨ r.sign = a.sign
  rest : ∃ q, IsQuotient a b q ∧ a = q * b + r

theorem isQuotient_tdiv (a b : Int) : IsQuotient a b (a.tdiv b) := by
  refine ⟨Int.natAbs_tdiv a b, ?_⟩
  rw [← Int.sign_eq_zero_iff_zero, Int.sign_tdiv]
  split
  · exact .inl rfl
  · exact .inr rfl

/-- There is one quotient. -/
theorem IsQuotient.unique {a b q q' : Int} (h : IsQuotient a b q) (h' : IsQuotient a b q') :
    q = q' := by
  have hMagnitude : q.natAbs = q'.natAbs := h.magnitude.trans h'.magnitude.symm
  rcases h.sign with rfl | hSign
  · omega
  rcases h'.sign with rfl | hSign'
  · omega
  rw [← Int.sign_mul_natAbs q, ← Int.sign_mul_natAbs q', hSign, hSign', hMagnitude]

theorem isRemainder_tmod {a b : Int} (hDivisor : b ≠ 0) : IsRemainder a b (a.tmod b) := by
  refine ⟨?_, ?_, a.tdiv b, isQuotient_tdiv a b, (Int.tdiv_mul_add_tmod a b).symm⟩
  · rw [Int.natAbs_tmod]
    exact Nat.mod_lt _ (Int.natAbs_pos.mpr hDivisor)
  · rw [← Int.sign_eq_zero_iff_zero, Int.sign_tmod]
    split
    · exact .inl rfl
    · exact .inr rfl

/-- There is one remainder. -/
theorem IsRemainder.unique {a b r r' : Int} (h : IsRemainder a b r) (h' : IsRemainder a b r') :
    r = r' := by
  obtain ⟨q, hQuotient, hRest⟩ := h.rest
  obtain ⟨q', hQuotient', hRest'⟩ := h'.rest
  obtain rfl := hQuotient.unique hQuotient'
  omega

/-! ## What operators give -/

/-- The mathematical result of an operator that may leave the range, and the operation it is. -/
inductive Exact (a b : Int) : Operator → Operation → Int → Prop
  | sum : Exact a b .add .addition (a + b)
  | difference : Exact a b .sub .subtraction (a - b)
  | product : Exact a b .mul .multiplication (a * b)
  | quotient {q} (hDivisor : b ≠ 0) (h : IsQuotient a b q) : Exact a b .div .division q

/-- What an operator makes of two mathematical integers. -/
inductive Gives (a b : Int) : Operator → Except EvalCause Value → Prop
  | exact {op operation n i} (h : Exact a b op operation n) (hRange : -2 ^ 63 ≤ n ∧ n ≤ 2 ^ 63 - 1)
      (hValue : Int64.toInt i = n) : Gives a b op (.ok (.int i))
  | overflow {op operation n} (h : Exact a b op operation n)
      (hRange : ¬ (-2 ^ 63 ≤ n ∧ n ≤ 2 ^ 63 - 1)) :
      Gives a b op (.error (.integerOverflow operation))
  | divisionByZero (hDivisor : b = 0) : Gives a b .div (.error .divisionByZero)
  | moduloByZero (hDivisor : b = 0) : Gives a b .mod (.error .moduloByZero)
  | remainder {r} (h : IsRemainder a b (Int64.toInt r)) : Gives a b .mod (.ok (.int r))
  | greater : Gives a b .greater (.ok (.bool (decide (a > b))))
  | greaterEqual : Gives a b .greaterEqual (.ok (.bool (decide (a ≥ b))))
  | less : Gives a b .less (.ok (.bool (decide (a < b))))
  | lessEqual : Gives a b .lessEqual (.ok (.bool (decide (a ≤ b))))
  | equal : Gives a b .equal (.ok (.bool (decide (a = b))))

variable {a b n n' : Int} {op : Operator} {operation operation' : Operation}

theorem Exact.unique (h : Exact a b op operation n) (h' : Exact a b op operation' n') :
    operation = operation' ∧ n = n' := by
  cases h with
  | quotient _ hQuotient =>
    cases h' with
    | quotient _ hQuotient' => exact ⟨rfl, hQuotient.unique hQuotient'⟩
  | _ =>
    cases h'
    exact ⟨rfl, rfl⟩

/-- An operator gives one thing. -/
theorem Gives.unique {x y : Except EvalCause Value} (h : Gives a b op x) (h' : Gives a b op y) :
    x = y := by
  cases h with
  | exact hExact hRange hValue =>
    cases h' with
    | exact hExact' _ hValue' =>
      obtain ⟨-, rfl⟩ := hExact.unique hExact'
      rw [Int64.toInt_inj.mp (hValue.trans hValue'.symm)]
    | overflow hExact' hRange' =>
      obtain ⟨-, rfl⟩ := hExact.unique hExact'
      exact absurd hRange hRange'
    | divisionByZero hDivisor =>
      cases hExact with
      | quotient hOther => exact absurd hDivisor hOther
    | _ => cases hExact
  | overflow hExact hRange =>
    cases h' with
    | exact hExact' hRange' =>
      obtain ⟨-, rfl⟩ := hExact.unique hExact'
      exact absurd hRange' hRange
    | overflow hExact' =>
      obtain ⟨rfl, -⟩ := hExact.unique hExact'
      rfl
    | divisionByZero hDivisor =>
      cases hExact with
      | quotient hOther => exact absurd hDivisor hOther
    | _ => cases hExact
  | divisionByZero hDivisor =>
    cases h' with
    | exact hExact' | overflow hExact' =>
      cases hExact' with
      | quotient hOther => exact absurd hDivisor hOther
    | divisionByZero => rfl
  | moduloByZero hDivisor =>
    cases h' with
    | exact hExact' | overflow hExact' => cases hExact'
    | moduloByZero => rfl
    | remainder hRemainder =>
      subst hDivisor
      exact absurd hRemainder.smaller (Nat.not_lt_zero _)
  | remainder hRemainder =>
    cases h' with
    | exact hExact' | overflow hExact' => cases hExact'
    | moduloByZero hDivisor =>
      subst hDivisor
      exact absurd hRemainder.smaller (Nat.not_lt_zero _)
    | remainder hRemainder' => rw [Int64.toInt_inj.mp (hRemainder.unique hRemainder')]
  | _ =>
    cases h' with
    | exact hExact' | overflow hExact' => cases hExact'
    | _ => rfl

/-! ## Operators -/

/-- A result in range is the integer, and one out of range an overflow of its operation. -/
theorem gives_inRange (h : Exact a b op operation n) : Gives a b op (inRange operation n) := by
  unfold inRange
  cases hResult : Integer.ofInt? n with
  | some i =>
    have hValue := Integer.toInt_ofInt? hResult
    have hLow := i.le_toInt
    have hHigh := i.toInt_lt
    exact .exact h (by omega) hValue
  | none =>
    have hOut := (Integer.ofInt?_eq_none_iff n).mp hResult
    simp only [Integer.least, Integer.largest] at hOut
    exact .overflow h (by omega)

/-- A remainder has a place in 64 bits. -/
theorem toInt_ofInt_tmod (a b : Int64) (hDivisor : b.toInt ≠ 0) :
    (Int64.ofInt (a.toInt.tmod b.toInt)).toInt = a.toInt.tmod b.toInt := by
  have hSmaller := (isRemainder_tmod (a := a.toInt) hDivisor).smaller
  have hLow := b.le_toInt
  have hHigh := b.toInt_lt
  exact Int64.toInt_ofInt_of_le (by omega) (by omega)

theorem gives_applyInt (op : Operator) (a b : Int64) :
    Gives a.toInt b.toInt op (op.applyInt a b) := by
  have hZero : b = 0 ↔ b.toInt = 0 := by rw [← Int64.toInt_inj, Int64.toInt_zero]
  cases op with
  | add => exact gives_inRange .sum
  | sub => exact gives_inRange .difference
  | mul => exact gives_inRange .product
  | div =>
    simp only [Operator.applyInt]
    by_cases hDivisor : b = 0
    · rw [if_pos hDivisor]
      exact .divisionByZero (hZero.mp hDivisor)
    · rw [if_neg hDivisor]
      exact gives_inRange (.quotient (mt hZero.mpr hDivisor) (isQuotient_tdiv _ _))
  | mod =>
    simp only [Operator.applyInt]
    by_cases hDivisor : b = 0
    · rw [if_pos hDivisor]
      exact .moduloByZero (hZero.mp hDivisor)
    · rw [if_neg hDivisor]
      have hOther := mt hZero.mpr hDivisor
      refine .remainder ?_
      rw [toInt_ofInt_tmod a b hOther]
      exact isRemainder_tmod hOther
  | greater =>
    rw [Operator.applyInt, decide_eq_decide.mpr Int64.lt_iff_toInt_lt]
    exact .greater
  | greaterEqual =>
    rw [Operator.applyInt, decide_eq_decide.mpr Int64.le_iff_toInt_le]
    exact .greaterEqual
  | less =>
    rw [Operator.applyInt, decide_eq_decide.mpr Int64.lt_iff_toInt_lt]
    exact .less
  | lessEqual =>
    rw [Operator.applyInt, decide_eq_decide.mpr Int64.le_iff_toInt_le]
    exact .lessEqual
  | equal =>
    rw [Operator.applyInt, decide_eq_decide.mpr Int64.toInt_inj.symm]
    exact .equal

/-- On integers an operator does what it gives. -/
theorem apply_int_eq_iff (op : Operator) (a b : Int64) (result : Except EvalCause Value) :
    op.apply (.int a) (.int b) = result ↔ Gives a.toInt b.toInt op result := by
  constructor
  · rintro rfl
    exact gives_applyInt op a b
  · exact (gives_applyInt op a b).unique

/-- A failure for the operands' types comes from them, and names the operator and the types. -/
theorem apply_mistyped_iff (op : Operator) (v w : Value) (cause : EvalCause) :
    op.apply v w = .error cause ∧ cause.code = .operandNotInteger ↔
      (v.type ≠ .integer ∨ w.type ≠ .integer) ∧
        cause = .operandNotInteger op v.type w.type := by
  have hMistyped : v.type ≠ .integer ∨ w.type ≠ .integer →
      op.apply v w = .error (.operandNotInteger op v.type w.type) := by
    intro hTypes
    cases v with
    | int a =>
      cases w with
      | int b => exact absurd rfl (hTypes.resolve_left fun h => h rfl)
      | _ => rfl
    | _ => rfl
  constructor
  · rintro ⟨hFails, hCode⟩
    by_cases hTypes : v.type ≠ .integer ∨ w.type ≠ .integer
    · cases hFails.symm.trans (hMistyped hTypes)
      exact ⟨hTypes, rfl⟩
    · cases v with
      | int a =>
        cases w with
        | int b =>
          cases (apply_int_eq_iff op a b _).mp hFails <;> cases hCode
        | _ => simp [Value.type] at hTypes
      | _ => simp [Value.type] at hTypes
  · rintro ⟨hTypes, rfl⟩
    exact ⟨hMistyped hTypes, rfl⟩

/-- An operator refuses operands that are not both integers, whatever they are, and for no others it
fails in this way. On integers its result is what mathematics gives, truncated quotients and their
remainders included; it fails for a zero divisor, and where the exact result is out of range. A
remainder is never out of range. -/
theorem operators_exact (op : Operator) :
    (∀ v w cause, op.apply v w = .error cause ∧ cause.code = .operandNotInteger ↔
      (v.type ≠ .integer ∨ w.type ≠ .integer) ∧
        cause = .operandNotInteger op v.type w.type) ∧
    (∀ (a b : Int64) result,
      op.apply (.int a) (.int b) = result ↔ Gives a.toInt b.toInt op result) ∧
    (∀ a b : Int64, op.apply (.int a) (.int b) = .error .divisionByZero ↔ op = .div ∧ b = 0) ∧
    (∀ a b : Int64, op.apply (.int a) (.int b) = .error .moduloByZero ↔ op = .mod ∧ b = 0) ∧
    ∀ (a b : Int64) operation,
      Operator.mod.apply (.int a) (.int b) ≠ .error (.integerOverflow operation) := by
  have hZero : ∀ b : Int64, b.toInt = 0 ↔ b = 0 := by
    intro b
    rw [← Int64.toInt_inj, Int64.toInt_zero]
  refine ⟨apply_mistyped_iff op, apply_int_eq_iff op, fun a b => ?_, fun a b => ?_,
    fun a b operation hFails => ?_⟩
  · rw [apply_int_eq_iff]
    constructor
    · rintro ⟨⟩
      next hDivisor => exact ⟨rfl, (hZero b).mp hDivisor⟩
    · rintro ⟨rfl, hDivisor⟩
      exact .divisionByZero ((hZero b).mpr hDivisor)
  · rw [apply_int_eq_iff]
    constructor
    · rintro ⟨⟩
      next hDivisor => exact ⟨rfl, (hZero b).mp hDivisor⟩
    · rintro ⟨rfl, hDivisor⟩
      exact .moduloByZero ((hZero b).mpr hDivisor)
  · cases (apply_int_eq_iff _ _ _ _).mp hFails with
    | overflow hExact => cases hExact

/-- The least integer by minus one has a remainder and no quotient. -/
example : Operator.div.apply (.int Int64.minValue) (.int (-1))
      = .error (.integerOverflow .division) ∧
    Operator.mod.apply (.int Int64.minValue) (.int (-1)) = .ok (.int 0) := ⟨rfl, rfl⟩

end FeatherScript
