/-!
Rounding of sizes and offsets.
-/
namespace OnePass

/-- The smallest multiple of `step` that is at least `n`. -/
def roundUp (n step : Nat) : Nat := (n + step - 1) / step * step

theorem dvd_roundUp (n step : Nat) : step ∣ roundUp n step := Nat.dvd_mul_left step _

theorem le_roundUp (n : Nat) {step : Nat} (h : 0 < step) : n ≤ roundUp n step := by
  have := Nat.div_add_mod (n + step - 1) step
  have := Nat.mod_lt (n + step - 1) h
  rw [roundUp, Nat.mul_comm]
  omega

end OnePass
