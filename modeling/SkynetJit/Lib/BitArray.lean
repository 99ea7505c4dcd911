import Mathlib.Tactic.Ring
import Mathlib.Tactic.SplitIfs
import SkynetJit.Lib.Bytes

/-!
# SkynetJit.Lib.BitArray

Bit arrays and the numbers in them.  A bit array is a function from positions
to bits; a field is a run of bits, the most significant one first.  A byte
string is a bit array whose bit 0 is the top bit of its first byte, and which
is zero past its end.

Nothing here depends on the commands of this development.
-/

namespace SkynetJit

/-- Bits by position. -/
abbrev BitArray := Nat → Bool

namespace BitArray

/-- The number in the `n` bits from `off` on. -/
def field (f : BitArray) (off : Nat) : Nat → Nat
  | 0 => 0
  | n + 1 => field f off n * 2 + (f (off + n)).toNat

/-- Write a number into the `n` bits from `off` on. -/
def put (f : BitArray) (off n v : Nat) : BitArray := fun i =>
  if off ≤ i ∧ i < off + n then v.testBit (off + n - 1 - i) else f i

theorem field_lt (f : BitArray) (off n : Nat) : f.field off n < 2 ^ n := by
  induction n with
  | zero => exact Nat.one_pos
  | succ n ih =>
      have hbit : (f (off + n)).toNat ≤ 1 := Bool.toNat_le _
      rw [field, Nat.pow_succ]
      omega

theorem field_congr {f g : BitArray} {off n : Nat} (h : ∀ i, off ≤ i → i < off + n → f i = g i) :
    f.field off n = g.field off n := by
  induction n with
  | zero => rfl
  | succ n ih =>
      rw [field, field, ih fun i hi hi' => h i hi (by omega), h (off + n) (by omega) (by omega)]

/-- Fields of shifted arrays. -/
theorem field_shift (f : BitArray) (k off n : Nat) :
    field (fun i => f (i + k)) off n = f.field (off + k) n := by
  induction n with
  | zero => rfl
  | succ n ih => rw [field, field, ih, Nat.add_right_comm]

/-- A field begins with its first bit. -/
theorem field_succ (f : BitArray) (off n : Nat) :
    f.field off (n + 1) = (f off).toNat * 2 ^ n + f.field (off + 1) n := by
  induction n with
  | zero => simp [field]
  | succ n ih =>
      rw [field, ih, field, Nat.pow_succ, show off + (n + 1) = off + 1 + n by omega]
      ring

theorem put_outside {f : BitArray} {off n v i : Nat} (h : i < off ∨ off + n ≤ i) :
    f.put off n v i = f i := if_neg (by omega)

theorem put_inside {f : BitArray} {off n v i : Nat} (h : off ≤ i) (h' : i < off + n) :
    f.put off n v i = v.testBit (off + n - 1 - i) := if_pos ⟨h, h'⟩

/-- Only the low bits of a number are written. -/
theorem put_mod (f : BitArray) (off n v : Nat) : f.put off n (v % 2 ^ n) = f.put off n v := by
  funext i
  by_cases h : off ≤ i ∧ i < off + n
  · rw [put_inside h.1 h.2, put_inside h.1 h.2, Nat.testBit_mod_two_pow,
      decide_eq_true (show off + n - 1 - i < n by omega), Bool.true_and]
  · rw [put_outside (by omega), put_outside (by omega)]

/-- Writing the bits one by one, the top one first. -/
theorem put_succ (f : BitArray) (off n v : Nat) :
    f.put off (n + 1) v = put (f.put off 1 (v.testBit n).toNat) (off + 1) n v := by
  funext i
  rcases Nat.lt_trichotomy i off with hi | rfl | hi
  · rw [put_outside (.inl hi), put_outside (.inl (by omega)), put_outside (.inl hi)]
  · rw [put_inside (by omega) (by omega), put_outside (.inl (by omega)),
      put_inside (by omega) (by omega)]
    rw [show i + (n + 1) - 1 - i = n by omega, show i + 1 - 1 - i = 0 by omega]
    cases v.testBit n <;> rfl
  · by_cases hin : i < off + (n + 1)
    · rw [put_inside (by omega) hin, put_inside (by omega) (by omega)]
      congr 1
      omega
    · rw [put_outside (.inr (by omega)), put_outside (.inr (by omega)), put_outside (.inr (by omega))]

/-! ## Scans -/

/-- The first of `n` positions from `lo` on that has the bit asked for. -/
def scan (f : BitArray) (b : Bool) (lo n : Nat) : Option Nat := (List.range' lo n).find? fun i => f i == b

variable {f g : BitArray} {b : Bool} {lo m n i : Nat}

theorem scan_eq_none : f.scan b lo n = none ↔ ∀ i, lo ≤ i → i < lo + n → f i = !b := by
  simp [scan, Bool.eq_not]

theorem scan_eq_some : f.scan b lo n = some i ↔
    (lo ≤ i ∧ i < lo + n ∧ f i = b) ∧ ∀ j, lo ≤ j → j < i → f j = !b := by
  rw [scan, List.find?_range'_eq_some, List.mem_range'_1]
  simp only [beq_iff_eq, Bool.not_eq_true', beq_eq_false_iff_ne, ne_eq, Bool.eq_not]
  tauto

/-- One stretch after the other. -/
theorem scan_add : f.scan b lo (m + n) = (f.scan b lo m).or (f.scan b (lo + m) n) := by
  rw [scan, ← List.range'_append_1, List.find?_append]
  rfl

theorem scan_congr (h : ∀ i, lo ≤ i → i < lo + n → f i = g i) : f.scan b lo n = g.scan b lo n := by
  rw [scan, scan, ← List.head?_filter, ← List.head?_filter]
  refine congrArg List.head? (List.filter_congr fun i hi => ?_)
  obtain ⟨hlo, hhi⟩ := List.mem_range'_1.mp hi
  rw [h i hlo hhi]

/-- Scans of shifted arrays. -/
theorem scan_shift (f : BitArray) (b : Bool) (k lo n : Nat) :
    (scan (fun i => f (k + i)) b lo n).map (k + ·) = f.scan b (k + lo) n := by
  rw [scan, scan, ← List.map_add_range', List.find?_map]
  rfl

/-- A scan that has met the bit does not depend on how far it could go. -/
theorem scan_of_lt (h : f.scan b lo n = some i) (hi : i < lo + m) : f.scan b lo m = some i := by
  obtain ⟨⟨hlo, -, hb⟩, hbefore⟩ := scan_eq_some.mp h
  exact scan_eq_some.mpr ⟨⟨hlo, hi, hb⟩, hbefore⟩

end BitArray

/-! ## Byte strings -/

/-- The bits of a byte string. -/
def bitAt (s : Bytes) : BitArray := fun i => (s.getD (i / 8) 0).toNat.testBit (7 - i % 8)

theorem bitAt_eq_false {s : Bytes} {i : Nat} (h : s.length ≤ i / 8) : bitAt s i = false := by
  rw [bitAt, List.getD_eq_getElem?_getD, List.getElem?_eq_none h]
  simp

/-- Zeros at the end do not show. -/
theorem bitAt_append_zeros (s : Bytes) (n : Nat) : bitAt (s ++ List.replicate n 0) = bitAt s := by
  funext i
  rw [bitAt, bitAt, List.getD_eq_getElem?_getD, List.getD_eq_getElem?_getD]
  by_cases h : i / 8 < s.length
  · rw [List.getElem?_append_left h]
  · rw [List.getElem?_append_right (by omega), List.getElem?_eq_none (l := s) (by omega),
      List.getElem?_replicate]
    split_ifs <;> rfl

/-- The bits of the tail of a byte string. -/
theorem bitAt_drop (s : Bytes) (k i : Nat) : bitAt (s.drop k) i = bitAt s (i + 8 * k) := by
  rw [bitAt, bitAt, List.getD_eq_getElem?_getD, List.getD_eq_getElem?_getD, List.getElem?_drop,
    Nat.add_mul_div_left i k (by decide), Nat.add_mul_mod_self_left, Nat.add_comm k]

theorem bitAt_take {s : Bytes} {k i : Nat} (h : i / 8 < k) : bitAt (s.take k) i = bitAt s i := by
  rw [bitAt, bitAt, List.getD_eq_getElem?_getD, List.getD_eq_getElem?_getD,
    List.getElem?_take_of_lt h]

/-- Writing one byte changes the bits in it. -/
theorem bitAt_set {s : Bytes} {k : Nat} (hk : k < s.length) (b : UInt8) (i : Nat) :
    bitAt (s.set k b) i = if i / 8 = k then b.toNat.testBit (7 - i % 8) else bitAt s i := by
  rw [bitAt, bitAt, List.getD_eq_getElem?_getD, List.getD_eq_getElem?_getD, List.getElem?_set]
  by_cases h : k = i / 8
  · rw [if_pos h, if_pos hk, if_pos h.symm]
    rfl
  · rw [if_neg h, if_neg (Ne.symm h)]

end SkynetJit
