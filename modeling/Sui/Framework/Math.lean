import Sui.System.Move

/-!
# Integer powers and roots

A power is computed by repeated squaring, and a root one binary digit at a time.
Every operation aborts if its result does not fit.  Nothing on the way overflows
unless the power itself does not fit.
-/

namespace Sui.Framework.Math

open Library Sui.System

/-! ## Powers -/

/-- The loop of a power. -/
def powLoop (res base exponent : Nat) : Program Nat :=
  if 1 ≤ exponent then
    if exponent % 2 = 0 then do
      let base ← U64.cast (base * base)
      powLoop res base (exponent / 2)
    else do
      let res ← U64.cast (res * base)
      powLoop res base (exponent - 1)
  else
    pure res
termination_by exponent

/-- The value of a base raised to a power. -/
def pow (base exponent : Nat) : Program Nat :=
  powLoop 1 base exponent

/-- A program that goes on with a part of the product that it computes. -/
theorem cast_bind {next : Nat → Program Nat} (part : factor ≤ product)
    (rest : factor < 2 ^ 64 → next factor = U64.cast product) :
    (do next (← U64.cast factor)) = U64.cast product := by
  by_cases fits : factor < 2 ^ 64
  · rw [U64.cast_eq_ok.mpr ⟨fits, rfl⟩]
    exact rest fits
  · have overflows : ¬product < 2 ^ 64 := fun small => fits (part.trans_lt small)
    rw [U64.cast, checkedCast, if_neg fits, checkedCast, if_neg overflows]
    rfl

/-- What the loop returns is the result so far times the power that is left. -/
theorem powLoop_eq (fits : res < 2 ^ 64) (positive : 0 < res ∨ base = 0) :
    powLoop res base exponent = U64.cast (res * base ^ exponent) := by
  fun_induction powLoop res base exponent with
  | case1 res base exponent more even ih =>
    have half : base ^ exponent = (base * base) ^ (exponent / 2) := by
      rw [← Nat.pow_two, ← Nat.pow_mul, Nat.mul_div_cancel' (Nat.dvd_of_mod_eq_zero even)]
    rw [half]
    refine cast_bind ?_ fun _ => ih _ fits (positive.imp_right fun zero => by simp [zero])
    rcases positive with positive | rfl
    · exact (Nat.le_self_pow (by omega) _).trans (Nat.le_mul_of_pos_left _ positive)
    · exact Nat.zero_le _
  | case2 res base exponent more odd ih =>
    have rest : res * base ^ exponent = res * base * base ^ (exponent - 1) := by
      rw [Nat.mul_assoc, ← Nat.pow_succ', Nat.succ_eq_add_one, Nat.sub_add_cancel more]
    have part : res * base ≤ res * base ^ exponent :=
      Nat.mul_le_mul_left _ (Nat.le_self_pow (by omega) _)
    refine cast_bind part fun small => ?_
    rw [ih _ small, rest]
    rcases base.eq_zero_or_pos with zero | baseNonzero
    · exact .inr zero
    · exact .inl (Nat.mul_pos (positive.resolve_right baseNonzero.ne') baseNonzero)
  | case3 res base exponent done =>
    rw [Nat.eq_zero_of_not_pos done, Nat.pow_zero, Nat.mul_one]
    exact (U64.cast_eq_ok.mpr ⟨fits, rfl⟩).symm

/-! ## Roots -/

/-- The loop of a root, in integers of some number of bits. -/
def sqrtLoop (bits bit res x : Nat) : Program Nat :=
  if bit ≠ 0 then do
    let sum ← checkedAdd bits .arithmetic res bit
    if sum ≤ x then
      let x ← checkedSub .arithmetic x sum
      let res ← checkedAdd bits .arithmetic (res >>> 1) bit
      sqrtLoop bits (bit >>> 2) res x
    else
      sqrtLoop bits (bit >>> 2) (res >>> 1) x
  else
    pure res
termination_by bit
decreasing_by all_goals
  rw [Nat.shiftRight_eq_div_pow]
  omega

/-- The root of an integer of 64 bits. -/
def sqrt (x : Nat) : Program Nat := do
  let res ← sqrtLoop 128 (1 <<< 64) 0 x
  U64.cast res

/-- The root of an integer of 128 bits. -/
def sqrtU128 (x : Nat) : Program Nat := do
  let res ← sqrtLoop 256 (1 <<< 128) 0 x
  checkedCast 128 .arithmetic res

/-- With one binary digit of the root to find for each power of four, the root so
far is multiplied by the next power. -/
theorem sqrtLoop_eq (digits root : Nat) (below : x < (2 * root + 1) * 4 ^ digits)
    (room : (root + 1) * 4 ^ digits ≤ 2 ^ bits) :
    sqrtLoop bits (4 ^ digits / 4) (root * 4 ^ digits) x =
      .ok (Nat.sqrt (root * root * 4 ^ digits + x)) := by
  induction digits generalizing root x with
  | zero =>
    unfold sqrtLoop
    simp only [Nat.pow_zero, Nat.mul_one] at below ⊢
    rw [Nat.sqrt_add_eq _ (by omega)]
    rfl
  | succ digits ih =>
    rw [Nat.pow_succ] at *
    have powerPositive : 0 < 4 ^ digits := Nat.pow_pos (by decide)
    generalize 4 ^ digits = power at *
    rw [Nat.mul_div_cancel _ (by decide)]
    have sumFits : root * (power * 4) + power < 2 ^ bits := by
      rw [Nat.add_mul] at room
      omega
    have halved : (root * (power * 4)) >>> 1 = 2 * root * power := by
      rw [Nat.shiftRight_eq_div_pow]
      grind
    unfold sqrtLoop
    rw [if_pos powerPositive.ne', checkedAdd, if_pos sumFits, ok_bind, halved,
      Nat.shiftRight_eq_div_pow]
    by_cases taken : root * (power * 4) + power ≤ x
    · have nextFits : 2 * root * power + power < 2 ^ bits := by grind
      rw [if_pos taken, checkedSub, if_pos taken, ok_bind, checkedAdd, if_pos nextFits, ok_bind]
      have next := ih (x := x - (root * (power * 4) + power)) (2 * root + 1) (by grind) (by grind)
      have square : (2 * root + 1) * (2 * root + 1) * power + (x - (root * (power * 4) + power)) =
          root * root * (power * 4) + x := by grind
      rwa [square, Nat.succ_mul] at next
    · rw [if_neg taken]
      have next := ih (x := x) (2 * root) (by grind) (by grind)
      have square : 2 * root * (2 * root) * power = root * root * (power * 4) := by grind
      rwa [square] at next

/-- The loop computes the root if there are enough digits. -/
theorem root_eq (small : x < 2 ^ width) (digits : Nat) (enough : 2 ^ width ≤ 4 ^ digits)
    (room : 4 ^ digits ≤ 2 ^ bits) :
    (do checkedCast width .arithmetic (← sqrtLoop bits (4 ^ digits / 4) 0 x)) =
      (.ok (Nat.sqrt x) : Program Nat) := by
  have found : sqrtLoop bits _ _ x = _ := sqrtLoop_eq digits 0 (by omega) (by omega)
  rw [Nat.zero_mul, Nat.zero_add] at found
  rw [found]
  exact if_pos ((Nat.sqrt_le_self x).trans_lt small)

/-- Both roots are the largest integers whose square is not larger, and a power is
returned exactly if it fits. -/
theorem roots_and_powers_exact (x : Fin (2 ^ 64)) (y : Fin (2 ^ 128)) (base exponent : Nat) :
    (∃ root, sqrt x = .ok root ∧ ∀ smaller : Nat, smaller * smaller ≤ x ↔ smaller ≤ root) ∧
      (∃ root, sqrtU128 y = .ok root ∧ ∀ smaller : Nat, smaller * smaller ≤ y ↔ smaller ≤ root) ∧
      pow base exponent =
        if base ^ exponent < 2 ^ 64 then .ok (base ^ exponent) else .error .arithmetic := by
  refine ⟨⟨_, root_eq x.isLt 33 (by decide) (by decide), fun _ => Nat.le_sqrt.symm⟩,
    ⟨_, root_eq y.isLt 65 (by decide) (by decide), fun _ => Nat.le_sqrt.symm⟩, ?_⟩
  rw [pow, powLoop_eq (by decide) (.inl Nat.one_pos), Nat.one_mul]
  rfl

end Sui.Framework.Math
