import Mathlib.Algebra.Order.Group.Unbundled.Int
import Mathlib.Algebra.Order.GroupWithZero.Basic
import Mathlib.Algebra.Order.Ring.Int
import Mathlib.Tactic.Zify
import SkynetJit.Compat.Pack

/-!
# SkynetJit.Compat.Integers

What `integer_value` reads of what `integer_bytes` wrote.

Up to six bytes, and at eight, an integer that a double holds exactly comes
back.  Seven bytes are read through a double before the sign is taken off, so
a negative number comes back if it is a multiple of 8.  Wider than eight bytes
the sign is lost: the upper bytes are zero.
-/

namespace SkynetJit.Compat

/-! ## Doubles -/

theorem roundDouble_of_lt {n : Nat} (h : n < 2 ^ 53) : roundDouble n = n := if_pos h

/-- A multiple of its last place is a double. -/
theorem roundDouble_of_dvd {n : Nat} (h : 2 ^ (n.log2 - 52) ∣ n) : roundDouble n = n := by
  rw [roundDouble]
  dsimp only
  split_ifs with hlt htie
  · rfl
  · exact Nat.div_mul_cancel h
  · exact absurd (.inl (by rw [Nat.mod_eq_zero_of_dvd h]; exact Nat.two_pow_pos _)) htie

theorem roundDouble_le_pow {n : Nat} (h : n ≤ 2 ^ 53) : roundDouble n = n := by
  rcases Nat.lt_or_eq_of_le h with hlt | rfl
  · exact roundDouble_of_lt hlt
  · exact roundDouble_of_dvd (by decide)

theorem toDouble_of_natAbs_le {n : Int} (h : n.natAbs ≤ 2 ^ 53) : toDouble n = n := by
  rw [toDouble, roundDouble_le_pow h]
  split_ifs <;> omega

/-- Between 2^55 and 2^56 doubles are eight apart. -/
theorem roundDouble_eight {n : Nat} (hlow : 2 ^ 55 ≤ n) (hhigh : n < 2 ^ 56) :
    8 ∣ roundDouble n ∧ n / 8 * 8 ≤ roundDouble n ∧ roundDouble n ≤ n / 8 * 8 + 8 ∧
      (8 ∣ n → roundDouble n = n) := by
  have hlog : n.log2 = 55 := by
    rw [Nat.log2_eq_iff (by omega)]
    exact ⟨hlow, hhigh⟩
  have hulp : 2 ^ (55 - 52) = 8 := rfl
  have hexact : 8 ∣ n → roundDouble n = n := fun h => roundDouble_of_dvd (by rw [hlog, hulp]; exact h)
  refine ⟨?_, ?_, ?_, hexact⟩
  all_goals
    rw [roundDouble, if_neg (by omega), hlog, hulp]
    dsimp only
    split_ifs
  · exact Nat.dvd_mul_left 8 _
  · exact Nat.dvd_mul_left 8 _
  · exact Nat.le_refl _
  · omega
  · exact Nat.le_add_right _ _
  · omega

/-! ## Bytes -/

/-- The loops read the number that the bytes stand for, modulo 2^64. -/
theorem accumulate_reverse (bytes : Bytes) : accumulate bytes.reverse = leNat bytes % 2 ^ 64 := by
  rw [accumulate, List.foldl_reverse]
  induction bytes with
  | nil => rfl
  | cons b bytes ih =>
      rw [List.foldr_cons, ih, leNat]
      omega

/-- **Reading what was written**, in either order of the bytes. -/
theorem accumulate_integerBytes (number : UInt64) (size : Nat) (littleEndian : Bool) :
    accumulate (if littleEndian then (integerBytes number size littleEndian).reverse
        else integerBytes number size littleEndian)
      = number.toNat % 256 ^ size % 2 ^ 64 := by
  rw [integerBytes, ← leNat_leBytes, ← accumulate_reverse]
  cases littleEndian <;> rfl

/-! ## Integers that come back -/

/-- An integer that a double holds, in the range of its option. -/
structure Readable (size : Nat) (signed : Bool) (n : Int) : Prop where
  exact : n.natAbs ≤ 2 ^ 53
  range : if signed then -2 ^ (8 * size - 1) ≤ n ∧ n < 2 ^ (8 * size - 1) else 0 ≤ n ∧ n < 2 ^ (8 * size)

/-- A negative integer comes back through a signed option of this width. -/
def Converts (size : Nat) (signed : Bool) (n : Int) : Prop :=
  signed = true → n < 0 → size ≤ 6 ∨ size = 8 ∨ size = 7 ∧ 8 ∣ n

theorem pow_256 (size : Nat) : 256 ^ size = 2 ^ (8 * size) := by
  rw [Nat.pow_mul]

/-- The number that is read, for an integer from zero on. -/
theorem mod_of_nonneg {size : Nat} {n : Int} (hexact : n.natAbs ≤ 2 ^ 53) (hpos : 0 ≤ n)
    (hrange : n < 2 ^ (8 * size)) : (n % 2 ^ 64).toNat % 256 ^ size % 2 ^ 64 = n.toNat := by
  have hlt : n.toNat < 256 ^ size := by
    rw [pow_256, Int.toNat_lt hpos, Int.natCast_pow]
    exact hrange
  rw [show n % 2 ^ 64 = n from Int.emod_eq_of_lt hpos (by omega), Nat.mod_eq_of_lt hlt, Nat.mod_eq_of_lt (by omega)]

/-- The number that is read, for a negative integer. -/
theorem mod_of_neg {size : Nat} {n : Int} (hexact : n.natAbs ≤ 2 ^ 53) (hneg : n < 0) (hsize : 1 ≤ size)
    (hrange : -2 ^ (8 * size - 1) ≤ n) :
    (n % 2 ^ 64).toNat % 256 ^ size % 2 ^ 64 = 2 ^ (8 * min size 8) - n.natAbs := by
  have hmod : (n % 2 ^ 64).toNat = 2 ^ 64 - n.natAbs := by omega
  rw [hmod]
  by_cases hwide : 8 ≤ size
  · have hle : 2 ^ 64 ≤ 256 ^ size := by
      calc 2 ^ 64 = 256 ^ 8 := by decide
        _ ≤ 256 ^ size := Nat.pow_le_pow_right (by decide) hwide
    rw [Nat.min_eq_right hwide, Nat.mod_eq_of_lt (lt_of_lt_of_le (by omega) hle), Nat.mod_eq_of_lt (by omega)]
  · rw [Nat.min_eq_left (by omega)]
    obtain rfl | rfl | rfl | rfl | rfl | rfl | rfl : size = 1 ∨ size = 2 ∨ size = 3 ∨ size = 4 ∨ size = 5 ∨
        size = 6 ∨ size = 7 := by omega
    all_goals
      simp only [Nat.reduceMul, Nat.reduceSub] at hrange ⊢
      omega

/-- What comes back of an integer from zero on. -/
theorem integerValue_of_nonneg {size : Nat} {signed : Bool} {n : Int} {bytes : Bytes} {littleEndian : Bool}
    (h : Readable size signed n) (hpos : 0 ≤ n)
    (hread : accumulate (if littleEndian then bytes.reverse else bytes) = n.toNat) :
    integerValue bytes size littleEndian signed = n := by
  have hexact := h.exact
  have hround : roundDouble n.toNat = n.toNat := roundDouble_le_pow (by omega)
  have hsmall : ¬ (signed && decide (size < 8 ∧ 2 ^ (size * 8 - 1) ≤ n.toNat)) = true := by
    intro hbig
    obtain ⟨hsigned, hbig⟩ := Bool.and_eq_true_iff.mp hbig
    have hle := (of_decide_eq_true hbig).2
    have hrange := h.range
    rw [hsigned, if_pos rfl] at hrange
    have hlt : n.toNat < 2 ^ (8 * size - 1) := by
      rw [Int.toNat_lt hpos, Int.natCast_pow]
      exact hrange.2
    rw [Nat.mul_comm] at hle
    omega
  rw [integerValue, hread]
  simp only [hround]
  rw [if_neg hsmall]
  split_ifs
  · rw [show ((n.toNat : Int)).bmod (2 ^ 64) = n from by
      rw [Int.toNat_of_nonneg hpos]
      exact Int.bmod_eq_of_le_mul_two (by omega) (by omega)]
    exact toDouble_of_natAbs_le hexact
  · exact Int.toNat_of_nonneg hpos

/-- A number with its top bit set, read signed in fewer than eight bytes. -/
theorem integerValue_narrow {size v : Nat} {bytes : Bytes} {littleEndian : Bool}
    (hread : accumulate (if littleEndian then bytes.reverse else bytes) = v) (hsize : size < 8)
    (hbig : 2 ^ (size * 8 - 1) ≤ roundDouble v) :
    integerValue bytes size littleEndian true = toDouble ((roundDouble v : Int) - 2 ^ (size * 8)) := by
  rw [integerValue, hread, if_pos]
  rw [Bool.true_and]
  exact decide_eq_true ⟨hsize, hbig⟩

theorem integerValue_wide {size v : Nat} {bytes : Bytes} {littleEndian : Bool}
    (hread : accumulate (if littleEndian then bytes.reverse else bytes) = v) (hsize : 8 ≤ size) :
    integerValue bytes size littleEndian true
      = if size = 8 then toDouble ((v : Int).bmod (2 ^ 64)) else roundDouble v := by
  rw [integerValue, hread, if_neg]
  · by_cases height : size = 8
    · rw [if_pos height, if_pos (by rw [Bool.true_and]; exact decide_eq_true height)]
    · rw [if_neg height, if_neg (by rw [Bool.true_and, decide_eq_false height]; exact Bool.false_ne_true)]
  · rw [Bool.true_and, decide_eq_false (by omega)]
    exact Bool.false_ne_true

/-- The range of a signed option, over natural numbers. -/
theorem Readable.natAbs_le {size : Nat} {n : Int} (h : Readable size true n) (hneg : n < 0) :
    n.natAbs ≤ 2 ^ (8 * size - 1) := by
  have hrange := h.range
  rw [if_pos rfl] at hrange
  zify
  rw [abs_of_neg hneg]
  omega

theorem two_pow_double {size : Nat} (hone : 1 ≤ size) : 2 ^ (8 * size) = 2 * 2 ^ (8 * size - 1) := by
  rw [← Nat.pow_succ', Nat.succ_eq_add_one, Nat.sub_add_cancel (by omega)]

/-- Up to six bytes a negative integer comes back. -/
theorem integerValue_neg_six {size : Nat} {n : Int} {bytes : Bytes} {littleEndian : Bool}
    (h : Readable size true n) (hneg : n < 0) (hone : 1 ≤ size) (hsix : size ≤ 6)
    (hread : accumulate (if littleEndian then bytes.reverse else bytes) = 2 ^ (8 * size) - n.natAbs) :
    integerValue bytes size littleEndian true = n := by
  have hexact := h.exact
  have hle := h.natAbs_le hneg
  have hdouble := two_pow_double hone
  have hpow : 2 ^ (8 * size) ≤ 2 ^ 48 := Nat.pow_le_pow_right (by decide) (by omega)
  have hround : roundDouble (2 ^ (8 * size) - n.natAbs) = 2 ^ (8 * size) - n.natAbs :=
    roundDouble_of_lt (by omega)
  have hback : ((2 ^ (8 * size) - n.natAbs : Nat) : Int) - 2 ^ (size * 8) = n := by
    rw [Nat.mul_comm size 8, Int.natCast_sub (by omega), Int.natCast_pow, show ((2 : Nat) : Int) = 2 from rfl]
    omega
  rw [integerValue_narrow hread (by omega) (by rw [hround, Nat.mul_comm size 8]; omega), hround, hback]
  exact toDouble_of_natAbs_le hexact

/-- Through seven bytes a negative integer comes back if it is a multiple
of 8. -/
theorem integerValue_neg_seven {n : Int} {bytes : Bytes} {littleEndian : Bool} (h : Readable 7 true n)
    (hneg : n < 0) (hread : accumulate (if littleEndian then bytes.reverse else bytes) = 2 ^ 56 - n.natAbs) :
    integerValue bytes 7 littleEndian true = n ↔ 8 ∣ n := by
  have hexact := h.exact
  obtain ⟨hdvd, hlow, hhigh, heven⟩ := roundDouble_eight (n := 2 ^ 56 - n.natAbs) (by omega) (by omega)
  rw [integerValue_narrow hread (by decide) (by rw [show 2 ^ (7 * 8 - 1) = 2 ^ 55 from rfl]; omega)]
  have hpow : (2 : Int) ^ (7 * 8) = 2 ^ 56 := rfl
  rw [hpow, toDouble_of_natAbs_le (by omega)]
  generalize roundDouble (2 ^ 56 - n.natAbs) = r at hdvd hlow hhigh heven ⊢
  constructor
  · intro heq
    omega
  · intro height
    have hexact := heven (by omega)
    omega

/-- Through eight bytes a negative integer comes back. -/
theorem integerValue_neg_eight {n : Int} {bytes : Bytes} {littleEndian : Bool} (h : Readable 8 true n)
    (hneg : n < 0) (hread : accumulate (if littleEndian then bytes.reverse else bytes) = 2 ^ 64 - n.natAbs) :
    integerValue bytes 8 littleEndian true = n := by
  have hexact := h.exact
  have hwrap : ((2 ^ 64 - n.natAbs : Nat) : Int).bmod (2 ^ 64) = n := by
    rw [Int.bmod_def]
    omega
  rw [integerValue_wide hread (Nat.le_refl 8), if_pos rfl, hwrap]
  exact toDouble_of_natAbs_le hexact

/-- Wider than eight bytes, what comes back is not negative. -/
theorem integerValue_neg_wide {size v : Nat} {n : Int} {bytes : Bytes} {littleEndian : Bool} (hneg : n < 0)
    (hsize : 8 < size) (hread : accumulate (if littleEndian then bytes.reverse else bytes) = v) :
    integerValue bytes size littleEndian true ≠ n := by
  rw [integerValue_wide hread hsize.le, if_neg hsize.ne']
  omega

theorem Converts.of_nonneg {size : Nat} {signed : Bool} {n : Int} (hpos : 0 ≤ n) : Converts size signed n :=
  fun _ hneg => absurd hneg (Int.not_lt.mpr hpos)

/-- **Which integers come back**: all from zero on, and the negative ones that
convert. -/
theorem integerValue_integerBytes {size : Nat} {signed : Bool} {n : Int} {number : UInt64} (hone : 1 ≤ size)
    (h : Readable size signed n) (hnumber : (number.toNat : Int) = n % 2 ^ 64) (littleEndian : Bool) :
    integerValue (integerBytes number size littleEndian) size littleEndian signed = n ↔
      Converts size signed n := by
  have hread := accumulate_integerBytes number size littleEndian
  rw [show number.toNat = (n % 2 ^ 64).toNat by omega] at hread
  by_cases hpos : 0 ≤ n
  · have hrange : n < 2 ^ (8 * size) := by
      have hr := h.range
      cases signed with
      | false => exact (if_neg Bool.false_ne_true ▸ hr).2
      | true =>
          rw [if_pos rfl] at hr
          exact lt_of_lt_of_le hr.2 (pow_le_pow_right₀ (by decide) (Nat.sub_le _ _))
    rw [mod_of_nonneg h.exact hpos hrange] at hread
    exact iff_of_true (integerValue_of_nonneg h hpos hread) (.of_nonneg hpos)
  · have hneg : n < 0 := Int.not_le.mp hpos
    obtain rfl : signed = true := by
      cases signed with
      | true => rfl
      | false =>
          have hr := h.range
          rw [if_neg Bool.false_ne_true] at hr
          omega
    have hlow : -2 ^ (8 * size - 1) ≤ n := (if_pos rfl ▸ h.range).1
    rw [mod_of_neg h.exact hneg hone hlow] at hread
    have hconverts : Converts size true n ↔ size ≤ 6 ∨ size = 8 ∨ size = 7 ∧ 8 ∣ n :=
      ⟨fun hc => hc rfl hneg, fun hc _ _ => hc⟩
    rw [hconverts]
    obtain hsix | rfl | rfl | hwide : size ≤ 6 ∨ size = 7 ∨ size = 8 ∨ 8 < size := by omega
    · rw [Nat.min_eq_left (by omega)] at hread
      exact iff_of_true (integerValue_neg_six h hneg hone hsix hread) (.inl hsix)
    · have hseven := integerValue_neg_seven h hneg hread
      rw [hseven]
      omega
    · exact iff_of_true (integerValue_neg_eight h hneg hread) (.inr (.inl rfl))
    · exact iff_of_false (integerValue_neg_wide hneg hwide hread) (by omega)

end SkynetJit.Compat
