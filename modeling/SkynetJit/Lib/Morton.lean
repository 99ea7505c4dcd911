import Mathlib.Data.Nat.Bitwise
import Mathlib.Tactic.IntervalCases
import Mathlib.Tactic.LinearCombination
import Mathlib.Tactic.Positivity
import Mathlib.Tactic.Ring

/-!
# SkynetJit.Lib.Morton

Two numbers with their bits interleaved, one in the even positions and the
other in the odd ones.

A coordinate can be moved by one without taking the bits apart: the positions of
the other coordinate are filled with ones, through which a carry runs
(`land_lane_add`), or a borrow is taken from the lowest one (`land_lane_sub`).

Nothing here depends on the commands of this development.
-/

namespace SkynetJit

namespace Morton

/-- The bits of a number in the even positions. -/
def spread (n : Nat) : Nat := if n = 0 then 0 else 4 * spread (n / 2) + n % 2
termination_by n

/-- Ones in the first `s` even positions. -/
def lanes (s : Nat) : Nat := spread (2 ^ s - 1)

/-- Two numbers interleaved. -/
def interleave (x y : Nat) : Nat := spread x + 2 * spread y

theorem spread_eq (n : Nat) : spread n = 4 * spread (n / 2) + n % 2 := by
  by_cases h : n = 0
  · rw [h, spread]
    rfl
  · rw [spread, if_neg h]

@[simp] theorem spread_zero : spread 0 = 0 := by
  rw [spread]
  rfl

/-- One more bit. -/
theorem spread_bit (n : Nat) {b : Nat} (hb : b < 2) : spread (2 * n + b) = 4 * spread n + b := by
  rw [spread_eq, show (2 * n + b) / 2 = n by omega, show (2 * n + b) % 2 = b by omega]

theorem spread_lt {n k : Nat} (h : n < 2 ^ k) : spread n < 4 ^ k := by
  induction k generalizing n with
  | zero =>
      obtain rfl : n = 0 := by rw [pow_zero] at h; omega
      rw [spread_zero]
      decide
  | succ k ih =>
      have hlt := ih (n := n / 2) (by rw [pow_succ] at h; omega)
      rw [spread_eq, pow_succ]
      omega

theorem spread_pos {n : Nat} (h : 0 < n) : 0 < spread n := by
  induction n using Nat.strongRecOn with
  | ind n ih =>
      rw [spread_eq]
      by_cases hhalf : n / 2 = 0
      · omega
      · have hpos := ih (n / 2) (by omega) (by omega)
        omega

/-- A digit to the base four of each coordinate's bits. -/
theorem interleave_eq (x y : Nat) :
    interleave x y = 4 * interleave (x / 2) (y / 2) + (x % 2 + 2 * (y % 2)) := by
  rw [interleave, interleave, spread_eq x, spread_eq y]
  ring

theorem interleave_lt {x y k : Nat} (hx : x < 2 ^ k) (hy : y < 2 ^ k) : interleave x y < 4 ^ k := by
  induction k generalizing x y with
  | zero =>
      obtain rfl : x = 0 := by rw [pow_zero] at hx; omega
      obtain rfl : y = 0 := by rw [pow_zero] at hy; omega
      rw [interleave, spread_zero]
      decide
  | succ k ih =>
      rw [pow_succ] at hx hy ⊢
      have hlt := @ih (x / 2) (y / 2) (by omega) (by omega)
      rw [interleave_eq]
      omega

theorem interleave_inj {x y x' y' : Nat} (h : interleave x y = interleave x' y') : x = x' ∧ y = y' := by
  have hbounded : ∀ k x y x' y', x < 2 ^ k → y < 2 ^ k → x' < 2 ^ k → y' < 2 ^ k →
      interleave x y = interleave x' y' → x = x' ∧ y = y' := by
    intro k
    induction k with
    | zero =>
        intro x y x' y' hx hy hx' hy' _
        rw [pow_zero] at hx hy hx' hy'
        omega
    | succ k ih =>
        intro x y x' y' hx hy hx' hy' h
        rw [pow_succ] at hx hy hx' hy'
        rw [interleave_eq x y, interleave_eq x' y'] at h
        obtain ⟨hx2, hy2⟩ := ih (x / 2) (y / 2) (x' / 2) (y' / 2) (by omega) (by omega) (by omega) (by omega)
          (by omega)
        omega
  have hlt : ∀ n, n ≤ x + y + x' + y' → n < 2 ^ (x + y + x' + y') := fun n hn =>
    hn.trans_lt Nat.lt_two_pow_self
  exact hbounded _ x y x' y' (hlt _ (by omega)) (hlt _ (by omega)) (hlt _ (by omega)) (hlt _ (by omega)) h

/-! ## Digits to the base four -/

theorem land_quad (a b : Nat) {r s : Nat} (hr : r < 4) (hs : s < 4) :
    (4 * a + r) &&& (4 * b + s) = 4 * (a &&& b) + (r &&& s) := by
  have hdiv := @Nat.and_div_two_pow (4 * a + r) (4 * b + s) 2
  have hmod := @Nat.and_mod_two_pow (4 * a + r) (4 * b + s) 2
  rw [show (4 * a + r) / 2 ^ 2 = a by omega, show (4 * b + s) / 2 ^ 2 = b by omega] at hdiv
  rw [show (4 * a + r) % 2 ^ 2 = r by omega, show (4 * b + s) % 2 ^ 2 = s by omega] at hmod
  omega

theorem lor_quad (a b : Nat) {r s : Nat} (hr : r < 4) (hs : s < 4) :
    (4 * a + r) ||| (4 * b + s) = 4 * (a ||| b) + (r ||| s) := by
  have hdiv := @Nat.or_div_two_pow (4 * a + r) (4 * b + s) 2
  have hmod := @Nat.or_mod_two_pow (4 * a + r) (4 * b + s) 2
  rw [show (4 * a + r) / 2 ^ 2 = a by omega, show (4 * b + s) / 2 ^ 2 = b by omega] at hdiv
  rw [show (4 * a + r) % 2 ^ 2 = r by omega, show (4 * b + s) % 2 ^ 2 = s by omega] at hmod
  omega

/-- The bits of two coordinates are in different places. -/
theorem lor_spread (x y : Nat) : spread x ||| 2 * spread y = interleave x y := by
  induction hn : x + y using Nat.strongRecOn generalizing x y with
  | ind n ih =>
      by_cases hzero : x = 0 ∧ y = 0
      · rw [hzero.1, hzero.2, interleave, spread_zero]
        rfl
      · have hrec := ih (x / 2 + y / 2) (by omega) (x / 2) (y / 2) rfl
        have hdigit : x % 2 ||| 2 * (y % 2) = x % 2 + 2 * (y % 2) := by
          rcases Nat.mod_two_eq_zero_or_one x with hx | hx <;>
            rcases Nat.mod_two_eq_zero_or_one y with hy | hy <;> rw [hx, hy] <;> rfl
        rw [spread_eq x, spread_eq y, interleave_eq, ← hrec,
          show 2 * (4 * spread (y / 2) + y % 2) = 4 * (2 * spread (y / 2)) + 2 * (y % 2) by ring,
          lor_quad _ _ (by omega) (by omega), hdigit]

/-- Spreading goes bit by bit. -/
theorem spread_lor (x y : Nat) : spread (x ||| y) = spread x ||| spread y := by
  induction hn : x + y using Nat.strongRecOn generalizing x y with
  | ind n ih =>
      by_cases hzero : x = 0 ∧ y = 0
      · rw [hzero.1, hzero.2, Nat.or_zero, spread_zero]
        rfl
      · have hrec := ih (x / 2 + y / 2) (by omega) (x / 2) (y / 2) rfl
        have hmod := @Nat.or_mod_two_pow x y 1
        rw [pow_one] at hmod
        rw [spread_eq (x ||| y), Nat.or_div_two, hrec, hmod, spread_eq x, spread_eq y,
          lor_quad _ _ (by omega) (by omega)]

/-! ## Moving in a lane

`f` is the place of the coordinate's bits in a digit, `g` the place of the
other's. -/

/-- The two places of a digit. -/
def Places (f g : Nat) : Prop := f = 1 ∧ g = 2 ∨ f = 2 ∧ g = 1

@[simp] theorem lanes_zero : lanes 0 = 0 := spread_zero

theorem lanes_succ (s : Nat) : lanes (s + 1) = 4 * lanes s + 1 := by
  have hpos := Nat.two_pow_pos s
  rw [lanes, lanes, ← spread_bit _ (by decide), pow_succ]
  congr 1
  omega

theorem three_mul_lanes (s : Nat) : 3 * lanes s + 1 = 4 ^ s := by
  induction s with
  | zero =>
      rw [lanes_zero, pow_zero]
      rfl
  | succ s ih =>
      rw [lanes_succ, pow_succ]
      omega

theorem lanes_lt (s : Nat) : lanes s < 4 ^ s := spread_lt (Nat.sub_lt (Nat.two_pow_pos s) Nat.one_pos)

theorem lanes_add (s k : Nat) : lanes (s + k) = 4 ^ k * lanes s + lanes k := by
  induction k with
  | zero => rw [Nat.add_zero, pow_zero, lanes_zero, Nat.one_mul, Nat.add_zero]
  | succ k ih =>
      rw [← Nat.add_assoc, lanes_succ, lanes_succ, ih, pow_succ]
      ring

/-- A longer mask without its first digits. -/
theorem mul_lanes_div {f : Nat} (hf : f ≤ 2) (s k : Nat) : f * lanes (s + k) / 4 ^ k = f * lanes s := by
  have hlanes := three_mul_lanes k
  have hlt : f * lanes k < 4 ^ k := (Nat.mul_le_mul_right _ hf).trans_lt (by omega)
  rw [lanes_add, Nat.mul_add, Nat.mul_left_comm, Nat.mul_add_div (by positivity), Nat.div_eq_of_lt hlt, Nat.add_zero]

section Lane

variable {f g : Nat}

/-- A digit and its lane. -/
theorem Places.land_digit (hf : Places f g) {b c : Nat} (hb : b < 2) (hc : c < 2) :
    (f * b + g * c) &&& f = f * b := by
  rcases hf with ⟨rfl, rfl⟩ | ⟨rfl, rfl⟩ <;> interval_cases b <;> interval_cases c <;> rfl

theorem two_pow_succ_mod (n s : Nat) {b : Nat} (hb : b < 2) :
    (2 * n + b) % 2 ^ (s + 1) = 2 * (n % 2 ^ s) + b := by
  rw [pow_succ, Nat.mul_comm (2 ^ s), Nat.mod_mul, show (2 * n + b) / 2 = n by omega]
  omega

/-- **The mask** leaves the coordinate, within the grid. -/
theorem land_lane (hf : Places f g) (x y s : Nat) :
    (f * spread x + g * spread y) &&& (f * lanes s) = f * spread (x % 2 ^ s) := by
  induction s generalizing x y with
  | zero => rw [lanes_zero, Nat.mul_zero, Nat.and_zero, pow_zero, Nat.mod_one, spread_zero, Nat.mul_zero]
  | succ s ih =>
      have hb := Nat.mod_lt x Nat.two_pos
      have hc := Nat.mod_lt y Nat.two_pos
      have hdigit : f * (x % 2) + g * (y % 2) < 4 := by
        rcases hf with ⟨rfl, rfl⟩ | ⟨rfl, rfl⟩ <;> omega
      have hplace : f < 4 := by rcases hf with ⟨rfl, -⟩ | ⟨rfl, -⟩ <;> decide
      have hx : x % 2 ^ (s + 1) = 2 * (x / 2 % 2 ^ s) + x % 2 := by
        conv_lhs => rw [← Nat.div_add_mod x 2]
        exact two_pow_succ_mod _ _ hb
      rw [spread_eq x, spread_eq y, lanes_succ, hx, spread_bit _ hb,
        show f * (4 * spread (x / 2) + x % 2) + g * (4 * spread (y / 2) + y % 2) =
          4 * (f * spread (x / 2) + g * spread (y / 2)) + (f * (x % 2) + g * (y % 2)) by ring,
        show f * (4 * lanes s + 1) = 4 * (f * lanes s) + f by ring, land_quad _ _ hdigit hplace, ih,
        hf.land_digit hb hc]
      ring

/-- **One further**: the other positions are filled, and one is added. -/
theorem land_lane_add (hf : Places f g) (x s : Nat) :
    (f * spread x + g * lanes s + 1) &&& (f * lanes s) = f * spread ((x + 1) % 2 ^ s) := by
  induction s generalizing x with
  | zero => rw [lanes_zero, Nat.mul_zero f, Nat.and_zero, pow_zero, Nat.mod_one, spread_zero, Nat.mul_zero]
  | succ s ih =>
      have hplace : f < 4 := by rcases hf with ⟨rfl, -⟩ | ⟨rfl, -⟩ <;> decide
      have hmask : f * lanes (s + 1) = 4 * (f * lanes s) + f := by
        rw [lanes_succ]
        ring
      rcases Nat.mod_two_eq_zero_or_one x with hbit | hbit
      · -- no carry out of this digit
        have hx : x = 2 * (x / 2) := by omega
        have hsum : f * spread x + g * lanes (s + 1) + 1 = 4 * (f * spread (x / 2) + g * lanes s) + (g + 1) := by
          rw [spread_eq x, hbit, lanes_succ]
          ring
        have hdigit : (g + 1) &&& f = f := by rcases hf with ⟨rfl, rfl⟩ | ⟨rfl, rfl⟩ <;> rfl
        have hg : g + 1 < 4 := by rcases hf with ⟨-, rfl⟩ | ⟨-, rfl⟩ <;> decide
        have hlane : (f * spread (x / 2) + g * lanes s) &&& (f * lanes s) = f * spread (x / 2 % 2 ^ s) :=
          land_lane hf _ _ s
        rw [hsum, hmask, land_quad _ _ hg hplace, hdigit, hlane]
        have hmod : (x + 1) % 2 ^ (s + 1) = 2 * (x / 2 % 2 ^ s) + 1 := by
          rw [hx]
          conv_rhs => rw [← hx]
          exact two_pow_succ_mod _ _ (by decide)
        rw [hmod, spread_bit _ (by decide)]
        ring
      · -- the carry goes to the next digit
        have hsum : f * spread x + g * lanes (s + 1) + 1 = 4 * (f * spread (x / 2) + g * lanes s + 1) + 0 := by
          have hfg : f + g = 3 := by rcases hf with ⟨rfl, rfl⟩ | ⟨rfl, rfl⟩ <;> rfl
          rw [spread_eq x, hbit, lanes_succ]
          linear_combination hfg
        have hmod : (x + 1) % 2 ^ (s + 1) = 2 * ((x / 2 + 1) % 2 ^ s) + 0 := by
          rw [show x + 1 = 2 * (x / 2 + 1) + 0 by omega]
          exact two_pow_succ_mod _ _ (by decide)
        rw [hsum, hmask, land_quad _ _ (by decide) hplace, ih, Nat.zero_and, hmod, spread_bit _ (by decide)]
        ring

/-- **One back**: a borrow from the lowest position. -/
theorem land_lane_sub (hf : Places f g) {x : Nat} (hx : 0 < x) (s : Nat) :
    (f * spread x - 1) &&& (f * lanes s) = f * spread ((x - 1) % 2 ^ s) := by
  induction s generalizing x with
  | zero => rw [lanes_zero, Nat.mul_zero f, Nat.and_zero, pow_zero, Nat.mod_one, spread_zero, Nat.mul_zero]
  | succ s ih =>
      have hplace : f < 4 := by rcases hf with ⟨rfl, -⟩ | ⟨rfl, -⟩ <;> decide
      have hmask : f * lanes (s + 1) = 4 * (f * lanes s) + f := by
        rw [lanes_succ]
        ring
      rcases Nat.mod_two_eq_zero_or_one x with hbit | hbit
      · -- the borrow comes from a higher digit
        have hhalf : 0 < x / 2 := by omega
        have hpos : 0 < f * spread (x / 2) := by
          refine Nat.mul_pos ?_ (spread_pos hhalf)
          rcases hf with ⟨rfl, -⟩ | ⟨rfl, -⟩ <;> decide
        have hsum : f * spread x - 1 = 4 * (f * spread (x / 2) - 1) + 3 := by
          rw [spread_eq x, hbit, Nat.add_zero, show f * (4 * spread (x / 2)) = 4 * (f * spread (x / 2)) by ring]
          omega
        have hdigit : 3 &&& f = f := by rcases hf with ⟨rfl, -⟩ | ⟨rfl, -⟩ <;> rfl
        have hmod : (x - 1) % 2 ^ (s + 1) = 2 * ((x / 2 - 1) % 2 ^ s) + 1 := by
          rw [show x - 1 = 2 * (x / 2 - 1) + 1 by omega]
          exact two_pow_succ_mod _ _ (by decide)
        rw [hsum, hmask, land_quad _ _ (by decide) hplace, ih hhalf, hdigit, hmod, spread_bit _ (by decide)]
        ring
      · -- this digit has it
        have hsum : f * spread x - 1 = 4 * (f * spread (x / 2)) + (f - 1) := by
          have hone : 1 ≤ f := by rcases hf with ⟨rfl, -⟩ | ⟨rfl, -⟩ <;> decide
          rw [spread_eq x, hbit, show f * (4 * spread (x / 2) + 1) = 4 * (f * spread (x / 2)) + f by ring]
          omega
        have hdigit : (f - 1) &&& f = 0 := by rcases hf with ⟨rfl, -⟩ | ⟨rfl, -⟩ <;> rfl
        have hlane := land_lane hf (x / 2) 0 s
        rw [spread_zero, Nat.mul_zero, Nat.add_zero] at hlane
        have hmod : (x - 1) % 2 ^ (s + 1) = 2 * (x / 2 % 2 ^ s) + 0 := by
          rw [show x - 1 = 2 * (x / 2) + 0 by omega]
          exact two_pow_succ_mod _ _ (by decide)
        rw [hsum, hmask, land_quad _ _ (by omega) hplace, hlane, hdigit, hmod, spread_bit _ (by decide)]
        ring

end Lane

end Morton

end SkynetJit
