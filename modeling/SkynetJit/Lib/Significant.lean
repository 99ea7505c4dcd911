import Mathlib.Algebra.Order.Floor.Semiring
import Mathlib.Data.Int.Log
import Mathlib.Data.Rat.Floor
import Mathlib.Tactic.FieldSimp
import Mathlib.Tactic.Linarith
import Mathlib.Tactic.Positivity
import Mathlib.Tactic.Ring
import SkynetJit.Lib.Bytes

/-!
# SkynetJit.Lib.Significant

Numbers at so many significant digits, and the text `%.<p>g` writes of them.

A positive number is rounded to an integer of `p` digits times a power of ten
(`significant`, `rounded`).  The text is that of an integer exactly if the
rounded number is one and is short enough (`formatG_eq_natDec_iff`).

Nothing here depends on the commands of this development.
-/

namespace SkynetJit

namespace Significant

/-! ## Rounding -/

/-- The nearest integer, ties to even. -/
def roundEven (q : ℚ) : Nat :=
  let f := ⌊q⌋₊
  if q - f < 1 / 2 ∨ q - f = 1 / 2 ∧ f % 2 = 0 then f else f + 1

theorem roundEven_natCast (n : Nat) : roundEven n = n := by
  rw [roundEven, Nat.floor_natCast, sub_self]
  exact if_pos (.inl (by norm_num))

/-- It is at most a half away. -/
theorem roundEven_mem {q : ℚ} (hq : 0 ≤ q) : q - 1 / 2 ≤ roundEven q ∧ (roundEven q : ℚ) ≤ q + 1 / 2 := by
  have hle := Nat.floor_le hq
  have hlt := Nat.lt_floor_add_one q
  rw [roundEven]
  split_ifs with h
  · rcases h with h | h
    · exact ⟨by linarith, by linarith⟩
    · exact ⟨by linarith [h.1], by linarith [h.1]⟩
  · have hge : 1 / 2 ≤ q - ⌊q⌋₊ := not_lt.mp (not_or.mp h).1
    push_cast
    exact ⟨by linarith, by linarith⟩

/-- It does not pass an integer. -/
theorem roundEven_le {q : ℚ} {n : Nat} (hq : 0 ≤ q) (h : q ≤ n) : roundEven q ≤ n := by
  have hmem := (roundEven_mem hq).2
  have hlt : (roundEven q : ℚ) < n + 1 := by linarith
  exact_mod_cast Nat.lt_succ_iff.mp (by exact_mod_cast hlt)

theorem le_roundEven {q : ℚ} {n : Nat} (h : (n : ℚ) ≤ q) : n ≤ roundEven q := by
  have hq : 0 ≤ q := le_trans (Nat.cast_nonneg n) h
  have hmem := (roundEven_mem hq).1
  have hlt : (n : ℚ) < roundEven q + 1 := by linarith
  exact Nat.lt_succ_iff.mp (by exact_mod_cast hlt)

/-- `p` digits and the power of ten of the first one. -/
def significant (p : Nat) (v : ℚ) : Nat × Int :=
  let x := Int.log 10 v
  let s := roundEven (v / 10 ^ (x + 1 - p))
  if s = 10 ^ p then (10 ^ (p - 1), x + 1) else (s, x)

/-- The number rounded to `p` digits. -/
def rounded (p : Nat) (v : ℚ) : ℚ := (significant p v).1 * 10 ^ ((significant p v).2 + 1 - p)

/-- Whether a number is an integer. -/
def Whole (v : ℚ) : Prop := ∃ n : Nat, v = n

section Positive

variable {p : Nat} {v : ℚ} (hp : 1 ≤ p) (hv : 0 < v)

theorem ten_zpow_pos (x : Int) : (0 : ℚ) < 10 ^ x := zpow_pos (by norm_num) x

include hp hv in
theorem scaled_bounds : ((10 ^ (p - 1) : Nat) : ℚ) ≤ v / 10 ^ (Int.log 10 v + 1 - p) ∧
    v / 10 ^ (Int.log 10 v + 1 - p) < (10 ^ p : Nat) := by
  have hlow := Int.zpow_log_le_self (b := 10) (by decide) hv
  have hhigh := Int.lt_zpow_succ_log_self (b := 10) (by decide) v
  have hten : (10 : ℚ) ≠ 0 := by norm_num
  push_cast at hlow hhigh ⊢
  constructor
  · rw [le_div_iff₀ (ten_zpow_pos _), ← zpow_natCast, ← zpow_add₀ hten]
    convert hlow using 2
    omega
  · rw [div_lt_iff₀ (ten_zpow_pos _), ← zpow_natCast, ← zpow_add₀ hten]
    convert hhigh using 2
    omega

/-- Rounding up to the next power of ten is rounding. -/
theorem rounded_eq (hp : 1 ≤ p) (v : ℚ) : rounded p v =
    roundEven (v / 10 ^ (Int.log 10 v + 1 - p)) * 10 ^ (Int.log 10 v + 1 - p) := by
  rw [rounded, significant]
  split_ifs with hcarry
  · have hten : (10 : ℚ) ≠ 0 := by norm_num
    rw [hcarry]
    push_cast
    rw [← zpow_natCast, ← zpow_natCast, ← zpow_add₀ hten, ← zpow_add₀ hten]
    congr 1
    omega
  · rfl

include hp hv in
/-- The digits are `p`. -/
theorem significant_bounds : 10 ^ (p - 1) ≤ (significant p v).1 ∧ (significant p v).1 < 10 ^ p := by
  obtain ⟨hlow, hhigh⟩ := scaled_bounds hp hv
  have hle := le_roundEven hlow
  have hge := roundEven_le (le_trans (Nat.cast_nonneg _) hlow) hhigh.le
  rw [significant]
  split_ifs with hcarry
  · exact ⟨Nat.le_refl _, Nat.pow_lt_pow_right (by decide) (by omega)⟩
  · exact ⟨hle, Nat.lt_of_le_of_ne hge hcarry⟩

/-- An integer of at most `p` digits is rounded to itself. -/
theorem rounded_natCast (hp : 1 ≤ p) {n : Nat} (h : n < 10 ^ p) : rounded p (n : ℚ) = n := by
  have hlog : Int.log 10 (n : ℚ) + 1 - p ≤ 0 := by
    rw [Int.log_natCast]
    have := Nat.log_lt_of_lt_pow' (by omega) h
    omega
  obtain ⟨k, hk⟩ := Int.eq_ofNat_of_zero_le (show 0 ≤ -(Int.log 10 (n : ℚ) + 1 - p) by omega)
  have hscale : (10 : ℚ) ^ (Int.log 10 (n : ℚ) + 1 - p) = (10 ^ k)⁻¹ := by
    rw [← neg_neg (Int.log 10 (n : ℚ) + 1 - p), hk, zpow_neg, zpow_natCast]
  have hpos : (0 : ℚ) < 10 ^ k := by positivity
  rw [rounded_eq hp, hscale, div_inv_eq_mul]
  have hcast : (n : ℚ) * 10 ^ k = ((n * 10 ^ k : Nat) : ℚ) := by push_cast; ring
  rw [hcast, roundEven_natCast]
  push_cast
  field_simp

/-- It is at most half a unit of the last digit away. -/
theorem rounded_le (hp : 1 ≤ p) (hv : 0 ≤ v) : rounded p v ≤ v + 10 ^ (Int.log 10 v + 1 - p) / 2 := by
  have hpos := ten_zpow_pos (Int.log 10 v + 1 - p)
  have hmem := (roundEven_mem (div_nonneg hv hpos.le)).2
  rw [rounded_eq hp]
  calc (roundEven (v / 10 ^ (Int.log 10 v + 1 - p)) : ℚ) * 10 ^ (Int.log 10 v + 1 - p)
      ≤ (v / 10 ^ (Int.log 10 v + 1 - p) + 1 / 2) * 10 ^ (Int.log 10 v + 1 - p) :=
        mul_le_mul_of_nonneg_right hmem hpos.le
    _ = v + 10 ^ (Int.log 10 v + 1 - p) / 2 := by field_simp

theorem significant_snd_le (p : Nat) (v : ℚ) : (significant p v).2 ≤ Int.log 10 v + 1 := by
  rw [significant]
  split_ifs
  · exact Int.le_refl _
  · exact Int.le_of_lt (Int.lt_succ _)

end Positive

/-! ## The text -/

/-- Decimals, without the zeros at their end. -/
def fraction (w f : Nat) : Bytes :=
  if f = 0 then []
  else charByte '.' ::
    ((List.replicate (w - (natDec f).length) (charByte '0') ++ natDec f).reverse.dropWhile
      (· = charByte '0')).reverse

/-- An exponent, of two digits at least. -/
def exponent (x : Int) : Bytes :=
  charByte 'e' :: (if x < 0 then charByte '-' else charByte '+') ::
    ((if x.natAbs < 10 then [charByte '0'] else []) ++ natDec x.natAbs)

/-- The text `%.<p>g` writes of a number with a sign. -/
def formatG (p : Nat) (neg : Bool) (v : ℚ) : Bytes :=
  let sign := if neg then [charByte '-'] else []
  if v = 0 then sign ++ ascii "0"
  else
    let (s, x) := significant p v
    if -4 ≤ x ∧ x < p then
      let w := (p - 1 - x).toNat
      sign ++ natDec (s / 10 ^ w) ++ fraction w (s % 10 ^ w)
    else sign ++ natDec (s / 10 ^ (p - 1)) ++ fraction (p - 1) (s % 10 ^ (p - 1)) ++ exponent x

/-- Only digits are in a numeral. -/
theorem le_of_mem_natDec {n : Nat} {b : UInt8} (h : b ∈ natDec n) : 48 ≤ b.toNat ∧ b.toNat ≤ 57 := by
  obtain ⟨c, hc, rfl⟩ := List.mem_map.mp h
  have hdigit := Char.isDigit_iff_toNat.mp (Nat.isDigit_of_mem_toDigits (by decide) (by decide) hc)
  have hbyte : (charByte c).toNat = c.toNat := by
    rw [charByte, UInt8.toNat_ofNat']
    exact Nat.mod_eq_of_lt (Nat.lt_of_le_of_lt hdigit.2 (by decide))
  rw [hbyte]
  exact hdigit

theorem mem_fraction {w f : Nat} (hf : f ≠ 0) : charByte '.' ∈ fraction w f := by
  rw [fraction, if_neg hf]
  exact List.mem_cons_self

theorem mem_exponent (x : Int) : charByte 'e' ∈ exponent x := List.mem_cons_self

/-- A text begins with a digit, or with the sign. -/
theorem head_formatG {p : Nat} {neg : Bool} {v : ℚ} {b : UInt8} (h : (formatG p neg v).head? = some b) :
    b = charByte '-' ∧ neg = true ∨ 48 ≤ b.toNat ∧ b.toNat ≤ 57 := by
  obtain ⟨n, t, ht⟩ : ∃ n t, formatG p neg v = (if neg then [charByte '-'] else []) ++ (natDec n ++ t) := by
    rw [formatG]
    generalize (if neg then [charByte '-'] else []) = sign
    by_cases hzero : v = 0
    · exact ⟨0, [], by rw [if_pos hzero, List.append_nil]; rfl⟩
    · rw [if_neg hzero]
      obtain ⟨s, x⟩ := significant p v
      by_cases hfixed : -4 ≤ x ∧ x < p
      · exact ⟨_, _, (if_pos hfixed).trans (List.append_assoc _ _ _)⟩
      · refine ⟨s / 10 ^ (p - 1), fraction (p - 1) (s % 10 ^ (p - 1)) ++ exponent x, (if_neg hfixed).trans ?_⟩
        rw [List.append_assoc, List.append_assoc]
  rw [ht] at h
  cases neg with
  | true => exact .inl ⟨(Option.some.inj h).symm, rfl⟩
  | false =>
      rw [if_neg Bool.false_ne_true, List.nil_append, List.head?_append_of_ne_nil _ (natDec_ne_nil n)] at h
      exact .inr (le_of_mem_natDec (List.mem_of_mem_head? h))

/-- What the rounded number is where decimals are written. -/
theorem rounded_eq_div {p : Nat} {v : ℚ} (hx : (significant p v).2 < p) :
    rounded p v = (significant p v).1 / 10 ^ (p - 1 - (significant p v).2).toNat := by
  have hexp : (significant p v).2 + 1 - p = -((p - 1 - (significant p v).2).toNat : Int) := by omega
  rw [rounded, hexp, zpow_neg, zpow_natCast, div_eq_mul_inv]

/-- **The text of an integer** is written exactly for the numbers that are
rounded to it, if they are short enough. -/
theorem formatG_eq_natDec_iff {p : Nat} {v : ℚ} (hp : 1 ≤ p) (hv : 0 < v) (hx : (significant p v).2 < p)
    (n : Nat) : formatG p false v = natDec n ↔ rounded p v = n := by
  obtain ⟨hlow, hhigh⟩ := significant_bounds hp hv
  have hrounded := rounded_eq_div hx
  rw [formatG, if_neg hv.ne']
  generalize significant p v = r at *
  obtain ⟨s, x⟩ := r
  simp only [Bool.false_eq_true, if_false, List.nil_append] at *
  by_cases hfour : -4 ≤ x
  · rw [if_pos ⟨hfour, hx⟩, hrounded]
    generalize (p - 1 - x).toNat = w
    have hpos : (0 : ℚ) < 10 ^ w := by positivity
    have hwhole : (s : ℚ) / 10 ^ w = n ↔ s = n * 10 ^ w := by
      rw [div_eq_iff hpos.ne']
      exact_mod_cast Iff.rfl
    rw [hwhole]
    constructor
    · intro h
      have hzero : s % 10 ^ w = 0 := by
        by_contra hne
        have hmem : charByte '.' ∈ natDec n := h ▸ List.mem_append_right _ (mem_fraction hne)
        exact absurd (le_of_mem_natDec hmem) (by decide)
      rw [hzero, fraction, if_pos rfl, List.append_nil] at h
      rw [← natDec_injective h, Nat.div_mul_cancel (Nat.dvd_of_mod_eq_zero hzero)]
    · rintro rfl
      rw [Nat.mul_mod_left, Nat.mul_div_cancel _ (Nat.pow_pos (by decide)), fraction, if_pos rfl, List.append_nil]
  · rw [if_neg fun h => hfour h.1]
    constructor
    · intro h
      have hmem : charByte 'e' ∈ natDec n := h ▸ List.mem_append_right _ (mem_exponent x)
      exact absurd (le_of_mem_natDec hmem) (by decide)
    · -- a number this small is not rounded to an integer
      intro h
      rw [hrounded] at h
      have hw : p ≤ (p - 1 - x).toNat := by omega
      have hpos : (0 : ℚ) < 10 ^ (p - 1 - x).toNat := by positivity
      rw [div_eq_iff hpos.ne'] at h
      have hs : s = n * 10 ^ (p - 1 - x).toNat := by exact_mod_cast h
      have hle : 10 ^ p ≤ 10 ^ (p - 1 - x).toNat := Nat.pow_le_pow_right (by decide) hw
      have hsmall : 0 < s := Nat.lt_of_lt_of_le (Nat.pow_pos (by decide)) hlow
      rcases Nat.eq_zero_or_pos n with rfl | hn
      · omega
      · have := Nat.le_mul_of_pos_left (10 ^ (p - 1 - x).toNat) hn
        omega

end Significant

end SkynetJit
