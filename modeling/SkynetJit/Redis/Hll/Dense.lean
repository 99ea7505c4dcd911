import Mathlib.Data.Nat.Bitwise
import SkynetJit.Lib.Bytes

/-!
# SkynetJit.Redis.Hll.Dense

The dense representation of a HyperLogLog: 16384 registers of six bits,
packed least significant bit first (`kernel/hyperloglog.c`).

A register straddles two bytes, so the two macros that read and write one
shift and mask both.  Everything the rest needs is the pair
`hllDenseGetRegister_setRegister` and `hllDenseGetRegister_setRegister_ne`,
which come from reading single bits: bit `m` of the string is bit `m % 8` of
byte `m / 8`, and register `r` is made of the bits `6 * r, …, 6 * r + 5`.
-/

namespace SkynetJit.Redis.HyperLogLog

/-- `HLL_REGISTERS`. -/
def hllRegisters : Nat := 16384

/-- The bytes that hold the registers: `(HLL_REGISTERS*HLL_BITS+7)/8`. -/
def hllDenseBytes : Nat := 12288

/-- A byte of the registers; the terminator of the string reads as zero. -/
def byteAt (p : Bytes) (i : Nat) : Nat := (p.getD i 0).toNat

/-- `HLL_DENSE_GET_REGISTER`. -/
def hllDenseGetRegister (p : Bytes) (regnum : Nat) : Nat :=
  let byte := regnum * 6 / 8
  let fb := regnum * 6 % 8
  let fb8 := 8 - fb
  (byteAt p byte >>> fb ||| byteAt p (byte + 1) <<< fb8) &&& 63

/-- Clear the bits of a mask in a byte and write others there. -/
def maskByte (mask val : Nat) (b : UInt8) : UInt8 :=
  b &&& ~~~UInt8.ofNat mask ||| UInt8.ofNat val

/-- `HLL_DENSE_SET_REGISTER`. -/
def hllDenseSetRegister (p : Bytes) (regnum val : Nat) : Bytes :=
  let byte := regnum * 6 / 8
  let fb := regnum * 6 % 8
  let fb8 := 8 - fb
  (p.modify byte (maskByte (63 <<< fb) (val <<< fb))).modify (byte + 1)
    (maskByte (63 >>> fb8) (val >>> fb8))

/-- `hllDenseSet`: raise a register, and whether it was raised. -/
def hllDenseSet (p : Bytes) (index count : Nat) : Bool × Bytes :=
  if count > hllDenseGetRegister p index then (true, hllDenseSetRegister p index count)
  else (false, p)

/-- One iteration of `hllDenseRegHisto`: the sixteen registers of twelve
bytes, unrolled. -/
def denseGroup (r : Nat → Nat) : List Nat :=
  [r 0 &&& 63, (r 0 >>> 6 ||| r 1 <<< 2) &&& 63, (r 1 >>> 4 ||| r 2 <<< 4) &&& 63,
    (r 2 >>> 2) &&& 63,
    r 3 &&& 63, (r 3 >>> 6 ||| r 4 <<< 2) &&& 63, (r 4 >>> 4 ||| r 5 <<< 4) &&& 63,
    (r 5 >>> 2) &&& 63,
    r 6 &&& 63, (r 6 >>> 6 ||| r 7 <<< 2) &&& 63, (r 7 >>> 4 ||| r 8 <<< 4) &&& 63,
    (r 8 >>> 2) &&& 63,
    r 9 &&& 63, (r 9 >>> 6 ||| r 10 <<< 2) &&& 63, (r 10 >>> 4 ||| r 11 <<< 4) &&& 63,
    (r 11 >>> 2) &&& 63]

/-- How many registers have each value (`reghisto`). -/
abbrev Histogram := Nat → Nat

/-- The histogram of a list of registers. -/
def histogram (regs : List Nat) : Histogram := fun v => regs.count v

/-- `hllDenseRegHisto`.  The four accumulators of the source are added up at
its end. -/
def hllDenseRegHisto (p : Bytes) : Histogram :=
  histogram ((List.range 1024).flatMap fun j => denseGroup fun i => byteAt p (12 * j + i))

/-- The registers, one number each. -/
def denseRegisters (p : Bytes) : List Nat :=
  (List.range hllRegisters).map (hllDenseGetRegister p)

@[simp] theorem length_denseRegisters (p : Bytes) : (denseRegisters p).length = hllRegisters := by
  simp [denseRegisters]

theorem getElem?_denseRegisters (p : Bytes) {i : Nat} (hi : i < hllRegisters) :
    (denseRegisters p)[i]? = some (hllDenseGetRegister p i) := by
  simp [denseRegisters, hi]

@[simp] theorem length_hllDenseSetRegister (p : Bytes) (r v : Nat) :
    (hllDenseSetRegister p r v).length = p.length := by
  simp [hllDenseSetRegister]

/-! ## Bits -/

/-- Bit `m` of the registers. -/
def bitAt (p : Bytes) (m : Nat) : Bool := (byteAt p (m / 8)).testBit (m % 8)

theorem byteAt_lt (p : Bytes) (i : Nat) : byteAt p i < 256 := (p.getD i 0).toNat_lt

theorem testBit_byteAt_of_le (p : Bytes) (i : Nat) {k : Nat} (hk : 8 ≤ k) :
    (byteAt p i).testBit k = false := by
  apply Nat.testBit_lt_two_pow
  calc byteAt p i < 2 ^ 8 := byteAt_lt p i
    _ ≤ 2 ^ k := Nat.pow_le_pow_right (by decide) hk

theorem testBit_sixtyThree (k : Nat) : (63 : Nat).testBit k = decide (k < 6) := by
  rw [show (63 : Nat) = 2 ^ 6 - 1 by decide, Nat.testBit_two_pow_sub_one]

theorem testBit_maskByte (mask val : Nat) (b : UInt8) {k : Nat} (hk : k < 8) :
    (maskByte mask val b).toNat.testBit k
      = (b.toNat.testBit k && !mask.testBit k || val.testBit k) := by
  have hofNat : ∀ n : Nat, (UInt8.ofNat n).toBitVec.getLsbD k = n.testBit k := by
    intro n
    rw [UInt8.toBitVec_ofNat', BitVec.getLsbD_ofNat]
    simp [hk]
  have hbyte : ∀ c : UInt8, c.toNat.testBit k = c.toBitVec.getLsbD k := fun _ => rfl
  rw [hbyte, hbyte, maskByte, UInt8.toBitVec_or, UInt8.toBitVec_and, UInt8.toBitVec_not,
    BitVec.getLsbD_or, BitVec.getLsbD_and, BitVec.getLsbD_not, hofNat, hofNat]
  simp [hk]

/-- A register is made of six bits. -/
theorem testBit_hllDenseGetRegister (p : Bytes) (r k : Nat) :
    (hllDenseGetRegister p r).testBit k = (decide (k < 6) && bitAt p (6 * r + k)) := by
  simp only [hllDenseGetRegister, Nat.testBit_and, Nat.testBit_or, Nat.testBit_shiftRight,
    Nat.testBit_shiftLeft, testBit_sixtyThree, bitAt]
  by_cases hk : k < 6
  · simp only [hk, decide_true, Bool.and_true, Bool.true_and]
    by_cases hb : r * 6 % 8 + k < 8
    · -- the bit is in the first of the two bytes
      have hdiv : (6 * r + k) / 8 = r * 6 / 8 := by omega
      have hmod : (6 * r + k) % 8 = r * 6 % 8 + k := by omega
      have hshift : decide (8 - r * 6 % 8 ≤ k) = false := decide_eq_false (by omega)
      rw [hdiv, hmod, hshift, Bool.false_and, Bool.or_false]
    · have hdiv : (6 * r + k) / 8 = r * 6 / 8 + 1 := by omega
      have hmod : (6 * r + k) % 8 = k - (8 - r * 6 % 8) := by omega
      have hshift : decide (8 - r * 6 % 8 ≤ k) = true := decide_eq_true (by omega)
      rw [hdiv, hmod, hshift, Bool.true_and, testBit_byteAt_of_le p _ (by omega), Bool.false_or]
  · simp [hk]

theorem hllDenseGetRegister_lt (p : Bytes) (r : Nat) : hllDenseGetRegister p r < 64 :=
  Nat.lt_succ_of_le Nat.and_le_right

theorem getD_modify (p : Bytes) (i : Nat) {j : Nat} (f : UInt8 → UInt8) (hj : j < p.length) :
    (p.modify i f).getD j 0 = if i = j then f (p.getD j 0) else p.getD j 0 := by
  simp only [List.getD_eq_getElem?_getD, List.getElem?_modify, List.getElem?_eq_getElem hj]
  split <;> rfl

/-- The bytes after writing a register. -/
theorem byteAt_hllDenseSetRegister (p : Bytes) (r v : Nat) {j : Nat} (hj : j < p.length) :
    byteAt (hllDenseSetRegister p r v) j =
      if j = r * 6 / 8 + 1 then
        (maskByte (63 >>> (8 - r * 6 % 8)) (v >>> (8 - r * 6 % 8)) (p.getD j 0)).toNat
      else if j = r * 6 / 8 then
        (maskByte (63 <<< (r * 6 % 8)) (v <<< (r * 6 % 8)) (p.getD j 0)).toNat
      else byteAt p j := by
  simp only [byteAt, hllDenseSetRegister]
  rw [getD_modify _ _ _ (by simpa using hj), getD_modify _ _ _ hj]
  by_cases hhigh : j = r * 6 / 8 + 1
  · rw [if_pos hhigh.symm, if_pos hhigh, if_neg (by omega)]
  · rw [if_neg (Ne.symm hhigh), if_neg hhigh]
    by_cases hlow : j = r * 6 / 8
    · rw [if_pos hlow.symm, if_pos hlow]
    · rw [if_neg (Ne.symm hlow), if_neg hlow]

theorem testBit_of_lt_sixtyFour {v k : Nat} (hv : v < 64) (hk : 6 ≤ k) : v.testBit k = false := by
  apply Nat.testBit_lt_two_pow
  calc v < 2 ^ 6 := hv
    _ ≤ 2 ^ k := Nat.pow_le_pow_right (by decide) hk

/-- Writing a register changes its six bits and no others. -/
theorem bitAt_hllDenseSetRegister {p : Bytes} {r v m : Nat} (hv : v < 64)
    (hm : m < 8 * p.length) :
    bitAt (hllDenseSetRegister p r v) m
      = if 6 * r ≤ m ∧ m < 6 * r + 6 then v.testBit (m - 6 * r) else bitAt p m := by
  have hk : m % 8 < 8 := Nat.mod_lt _ (by decide)
  rw [bitAt, byteAt_hllDenseSetRegister p r v (by omega)]
  by_cases hhigh : m / 8 = r * 6 / 8 + 1
  · -- the second byte of the register
    have hadd : 8 - r * 6 % 8 + m % 8 = m - 6 * r := by omega
    rw [if_pos hhigh, testBit_maskByte _ _ _ hk, Nat.testBit_shiftRight, Nat.testBit_shiftRight,
      testBit_sixtyThree, hadd]
    by_cases hin : m - 6 * r < 6
    · rw [if_pos (by omega)]
      simp [hin]
    · rw [if_neg (by omega), testBit_of_lt_sixtyFour hv (by omega)]
      simp [hin, bitAt, byteAt]
  · rw [if_neg hhigh]
    by_cases hlow : m / 8 = r * 6 / 8
    · rw [if_pos hlow, testBit_maskByte _ _ _ hk, Nat.testBit_shiftLeft, Nat.testBit_shiftLeft,
        testBit_sixtyThree]
      by_cases hge : r * 6 % 8 ≤ m % 8
      · have hsub : m % 8 - r * 6 % 8 = m - 6 * r := by omega
        rw [hsub]
        by_cases hin : m - 6 * r < 6
        · rw [if_pos (by omega)]
          simp [hge, hin]
        · rw [if_neg (by omega), testBit_of_lt_sixtyFour hv (by omega)]
          simp [hin, bitAt, byteAt]
      · rw [if_neg (by omega)]
        simp [hge, bitAt, byteAt]
    · rw [if_neg hlow, if_neg (by omega), bitAt]

/-! ## Registers -/

theorem hllDenseGetRegister_setRegister {p : Bytes} {r v : Nat} (hv : v < 64)
    (hr : 6 * r + 6 ≤ 8 * p.length) : hllDenseGetRegister (hllDenseSetRegister p r v) r = v := by
  apply Nat.eq_of_testBit_eq
  intro k
  rw [testBit_hllDenseGetRegister]
  by_cases hk : k < 6
  · rw [bitAt_hllDenseSetRegister hv (by omega), if_pos (by omega), Nat.add_sub_cancel_left]
    simp [hk]
  · rw [testBit_of_lt_sixtyFour hv (by omega)]
    simp [hk]

theorem hllDenseGetRegister_setRegister_ne {p : Bytes} {r q v : Nat} (hv : v < 64)
    (hq : 6 * q + 6 ≤ 8 * p.length) (hne : q ≠ r) :
    hllDenseGetRegister (hllDenseSetRegister p r v) q = hllDenseGetRegister p q := by
  apply Nat.eq_of_testBit_eq
  intro k
  rw [testBit_hllDenseGetRegister, testBit_hllDenseGetRegister]
  by_cases hk : k < 6
  · rw [bitAt_hllDenseSetRegister hv (by omega), if_neg (by omega)]
  · simp [hk]

/-- **Writing a register** replaces that entry of the register list. -/
theorem denseRegisters_hllDenseSetRegister {p : Bytes} (hp : p.length = hllDenseBytes) {r v : Nat}
    (hr : r < hllRegisters) (hv : v < 64) :
    denseRegisters (hllDenseSetRegister p r v) = (denseRegisters p).set r v := by
  have hfits : ∀ q, q < hllRegisters → 6 * q + 6 ≤ 8 * p.length := by
    intro q hq
    rw [hp, hllDenseBytes]
    rw [hllRegisters] at hq
    omega
  apply List.ext_getElem?
  intro i
  by_cases hi : i < hllRegisters
  · rw [getElem?_denseRegisters _ hi, List.getElem?_set, length_denseRegisters]
    by_cases hri : r = i
    · subst hri
      rw [if_pos rfl, if_pos hr, hllDenseGetRegister_setRegister hv (hfits r hr)]
    · rw [if_neg hri, getElem?_denseRegisters _ hi,
        hllDenseGetRegister_setRegister_ne hv (hfits i hi) (Ne.symm hri)]
  · rw [List.getElem?_eq_none (by simp; omega), List.getElem?_eq_none (by simp; omega)]

theorem and_sixtyThree_of_shift (a b : Nat) {k : Nat} (hk : 6 ≤ k) :
    (a ||| b <<< k) &&& 63 = a &&& 63 := by
  apply Nat.eq_of_testBit_eq
  intro i
  simp only [Nat.testBit_and, Nat.testBit_or, Nat.testBit_shiftLeft, testBit_sixtyThree]
  by_cases hi : i < 6
  · have hki : ¬ k ≤ i := by omega
    simp [hki]
  · simp [hi]

/-- The unrolled shifts are the macro's. -/
theorem denseGroup_eq (p : Bytes) (j : Nat) :
    (denseGroup fun i => byteAt p (12 * j + i))
      = (List.range 16).map fun k => hllDenseGetRegister p (16 * j + k) := by
  have hbyte : ∀ k, (16 * j + k) * 6 / 8 = 12 * j + k * 6 / 8 := by omega
  have hfb : ∀ k, (16 * j + k) * 6 % 8 = k * 6 % 8 := by omega
  simp [denseGroup, hllDenseGetRegister, hbyte, hfb, List.range_succ, and_sixtyThree_of_shift,
    Nat.add_assoc]

theorem flatMap_range_blocks {α : Type} (f : Nat → α) (k n : Nat) :
    ((List.range n).flatMap fun j => (List.range k).map fun i => f (k * j + i))
      = (List.range (k * n)).map f := by
  induction n with
  | zero => simp
  | succ n ih =>
      rw [List.range_succ, List.flatMap_append, ih, Nat.mul_succ, List.range_add, List.map_append,
        List.map_map]
      simp [Function.comp_def]

theorem hllDenseRegHisto_eq (p : Bytes) : hllDenseRegHisto p = histogram (denseRegisters p) := by
  have hgroups : ((List.range 1024).flatMap fun j => denseGroup fun i => byteAt p (12 * j + i))
      = denseRegisters p := by
    simp only [denseGroup_eq]
    exact flatMap_range_blocks (hllDenseGetRegister p) 16 1024
  rw [hllDenseRegHisto, hgroups]

/-- Fresh registers are zero. -/
theorem denseRegisters_replicate (n : Nat) :
    denseRegisters (List.replicate n 0) = List.replicate hllRegisters 0 := by
  apply List.ext_getElem?
  intro i
  by_cases hi : i < hllRegisters
  · have hzero : ∀ j, byteAt (List.replicate n 0) j = 0 := by
      intro j
      simp only [byteAt, List.getD_eq_getElem?_getD, List.getElem?_replicate]
      split <;> rfl
    rw [getElem?_denseRegisters _ hi, List.getElem?_replicate_of_lt hi]
    simp [hllDenseGetRegister, hzero]
  · rw [List.getElem?_eq_none (by simp; omega), List.getElem?_eq_none (by simp; omega)]

end SkynetJit.Redis.HyperLogLog
