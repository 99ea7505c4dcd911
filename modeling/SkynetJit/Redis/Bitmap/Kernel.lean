import Mathlib.Data.Nat.Bitwise
import SkynetJit.Lib.BitArray
import SkynetJit.Redis.Decimal

/-!
# SkynetJit.Redis.Bitmap.Kernel

The integers of a bitmap (`kernel/bitops.c`): reading and writing fields of up
to 64 bits, and the overflow checks.  Unsigned machine words are natural
numbers and signed ones integers; `u64` and `i64` are the casts.

* `getUnsignedBitfield_eq`, `getSignedBitfield_eq`, `bitAt_setUnsignedBitfield`
  — what the loops over the bits read and write;
* `checkUnsignedBitfieldOverflow_spec`, `checkSignedBitfieldOverflow_spec` —
  what the checks answer about the exact result.
-/

namespace SkynetJit.Redis

open BitArray

/-- The cast to `uint64_t`. -/
def u64 (x : Int) : Nat := (x % 2 ^ 64).toNat

/-- The cast to `int64_t`. -/
def i64 (x : Int) : Int := x.bmod (2 ^ 64)

/-- The `BFOVERFLOW_*` policies. -/
inductive Owtype where
  | wrap | sat | fail
deriving DecidableEq, Repr

/-! ## Fields -/

/-- `setUnsignedBitfield`, from the top bit down. -/
def setUnsignedBitfield (p : Bytes) (offset : Nat) : Nat → Nat → Bytes
  | 0, _ => p
  | n + 1, value =>
      let bitval := if value &&& (1 <<< n) ≠ 0 then 1 else 0
      let byte := offset >>> 3
      let bit := 7 - (offset &&& 7)
      let byteval := (p.getD byte 0).toNat
      let byteval := byteval &&& (0xff ^^^ (1 <<< bit))
      let byteval := byteval ||| (bitval <<< bit)
      setUnsignedBitfield (p.set byte (UInt8.ofNat (byteval &&& 0xff))) (offset + 1) n value

/-- `setSignedBitfield`. -/
def setSignedBitfield (p : Bytes) (offset bits : Nat) (value : Int) : Bytes :=
  setUnsignedBitfield p offset bits (u64 value)

/-- The loop of `getUnsignedBitfield`: `n` bits to go. -/
def getBits (p : Bytes) : Nat → Nat → Nat → Nat
  | 0, _, value => value
  | n + 1, offset, value =>
      let byte := offset >>> 3
      let bit := 7 - (offset &&& 7)
      let byteval := (p.getD byte 0).toNat
      let bitval := (byteval >>> bit) &&& 1
      getBits p n (offset + 1) ((value <<< 1) % 2 ^ 64 ||| bitval)

/-- `getUnsignedBitfield`. -/
def getUnsignedBitfield (p : Bytes) (offset bits : Nat) : Nat := getBits p bits offset 0

/-- All the bits of a word from `bits` on. -/
def highMask (bits : Nat) : Nat := ((2 ^ 64 - 1) <<< bits) % 2 ^ 64

/-- `getSignedBitfield`. -/
def getSignedBitfield (p : Bytes) (offset bits : Nat) : Int :=
  let u := getUnsignedBitfield p offset bits
  if bits < 64 ∧ u &&& (1 <<< (bits - 1)) ≠ 0 then i64 (u ||| highMask bits : Nat) else i64 u

/-! ## Overflow -/

/-- `checkUnsignedBitfieldOverflow`, and the limit; a limit that is not
written is 0. -/
def checkUnsignedBitfieldOverflow (value : Nat) (incr : Int) (bits : Nat) (owtype : Owtype) :
    Int × Nat :=
  let max : Nat := if bits = 64 then 2 ^ 64 - 1 else 1 <<< bits - 1
  let maxincr := i64 (max - value)
  let minincr := i64 (-value)
  let wrapped := u64 (value + incr) &&& (2 ^ 64 - 1 - highMask bits)
  if value > max ∨ (incr > 0 ∧ incr > maxincr) then
    match owtype with
    | .wrap => (1, wrapped)
    | .sat => (1, max)
    | .fail => (1, 0)
  else if incr < 0 ∧ incr < minincr then
    match owtype with
    | .wrap => (1, wrapped)
    | .sat => (-1, 0)
    | .fail => (-1, 0)
  else (0, 0)

/-- The part of `checkSignedBitfieldOverflow` behind `handle_wrap`. -/
def signedWrap (value incr : Int) (bits : Nat) : Int :=
  let c := u64 (value + incr)
  i64 (if bits < 64 then
      if c &&& (1 <<< (bits - 1)) ≠ 0 then c ||| highMask bits
      else c &&& (2 ^ 64 - 1 - highMask bits)
    else c : Nat)

/-- `checkSignedBitfieldOverflow`, and the limit. -/
def checkSignedBitfieldOverflow (value incr : Int) (bits : Nat) (owtype : Owtype) : Int × Int :=
  let max : Int := if bits = 64 then 2 ^ 63 - 1 else 2 ^ (bits - 1) - 1
  let min := -max - 1
  let maxincr := i64 (max - value)
  let minincr := i64 (min - value)
  if value > max ∨ (bits ≠ 64 ∧ incr > maxincr) ∨ (value ≥ 0 ∧ incr > 0 ∧ incr > maxincr) then
    match owtype with
    | .wrap => (1, signedWrap value incr bits)
    | .sat => (1, max)
    | .fail => (1, 0)
  else if value < min ∨ (bits ≠ 64 ∧ incr < minincr) ∨ (value < 0 ∧ incr < 0 ∧ incr < minincr) then
    match owtype with
    | .wrap => (1, signedWrap value incr bits)
    | .sat => (-1, min)
    | .fail => (-1, 0)
  else (0, 0)

/-! ## The loops over the bits -/

theorem shiftRight_three (n : Nat) : n >>> 3 = n / 8 := Nat.shiftRight_eq_div_pow n 3

theorem and_seven (n : Nat) : n &&& 7 = n % 8 := Nat.and_two_pow_sub_one_eq_mod n 3

/-- One step of the reading loop reads one bit. -/
theorem byte_bit (p : Bytes) (offset : Nat) :
    ((p.getD (offset / 8) 0).toNat >>> (7 - offset % 8)) &&& 1 = (bitAt p offset).toNat := by
  rw [bitAt, Nat.and_one_is_mod, Nat.toNat_testBit, Nat.shiftRight_eq_div_pow]

theorem double_or_bit (value : Nat) (b : Bool) : value * 2 ||| b.toNat = value * 2 + b.toNat := by
  have h := Nat.two_pow_add_eq_or_of_lt (i := 1) (b := b.toNat) (by cases b <;> decide) value
  rw [Nat.mul_comm value 2]
  exact h.symm

theorem getBits_eq (p : Bytes) (n offset value : Nat) (h : (value + 1) * 2 ^ n ≤ 2 ^ 64) :
    getBits p n offset value = value * 2 ^ n + (bitAt p).field offset n := by
  induction n generalizing offset value with
  | zero => simp [getBits, field]
  | succ n ih =>
      have hroom : (value * 2 + 2) * 2 ^ n ≤ 2 ^ 64 :=
        calc (value * 2 + 2) * 2 ^ n = (value + 1) * 2 ^ (n + 1) := by ring
          _ ≤ 2 ^ 64 := h
      have hval : value * 2 < 2 ^ 64 :=
        calc value * 2 < value * 2 + 2 := by omega
          _ ≤ (value * 2 + 2) * 2 ^ n := Nat.le_mul_of_pos_right _ (Nat.two_pow_pos n)
          _ ≤ 2 ^ 64 := hroom
      have hnext : (value * 2 + (bitAt p offset).toNat + 1) * 2 ^ n ≤ 2 ^ 64 := by
        refine Nat.le_trans (Nat.mul_le_mul_right _ ?_) hroom
        have hbit : (bitAt p offset).toNat ≤ 1 := Bool.toNat_le _
        omega
      rw [getBits, shiftRight_three, and_seven, byte_bit, Nat.shiftLeft_eq, pow_one,
        Nat.mod_eq_of_lt hval, double_or_bit, ih _ _ hnext, field_succ]
      ring

/-- **Reading an unsigned field.** -/
theorem getUnsignedBitfield_eq (p : Bytes) (offset : Nat) {bits : Nat} (h : bits ≤ 64) :
    getUnsignedBitfield p offset bits = (bitAt p).field offset bits := by
  have hpow : (0 + 1) * 2 ^ bits ≤ 2 ^ 64 := by
    rw [Nat.zero_add, Nat.one_mul]
    exact Nat.pow_le_pow_right (by decide) h
  rw [getUnsignedBitfield, getBits_eq p bits offset 0 hpow, Nat.zero_mul, Nat.zero_add]

/-- The byte that a step of the writing loop stores. -/
theorem testBit_byte (b : Bool) {byteval bit k : Nat} (hk : k < 8) :
    (UInt8.ofNat (((byteval &&& (0xff ^^^ (1 <<< bit))) ||| (b.toNat <<< bit)) &&& 0xff)).toNat.testBit
      k = if k = bit then b else byteval.testBit k := by
  have hff : Nat.testBit 0xff k = true := by
    rw [show (0xff : Nat) = 2 ^ 8 - 1 by rfl, Nat.testBit_two_pow_sub_one]
    exact decide_eq_true hk
  rw [UInt8.toNat_ofNat', Nat.testBit_mod_two_pow, Nat.testBit_and, Nat.testBit_or, Nat.testBit_and,
    Nat.testBit_xor, Nat.shiftLeft_eq, Nat.one_mul, Nat.testBit_two_pow, Nat.testBit_shiftLeft, hff]
  by_cases hkb : k = bit
  · subst hkb
    cases b <;> simp [hk]
  · have hbit : (k ≥ bit && b.toNat.testBit (k - bit)) = false := by
      by_cases hge : k ≥ bit
      · obtain ⟨m, hm⟩ : ∃ m, k - bit = m + 1 := ⟨k - bit - 1, by omega⟩
        cases b <;> simp [hm, Nat.testBit_succ]
      · simp [hge]
    simp [hk, hkb, Ne.symm hkb, hbit]

/-- **Writing a field** that lies inside the string. -/
theorem setUnsignedBitfield_spec {p : Bytes} {offset bits : Nat} (value : Nat)
    (h : offset + bits ≤ 8 * p.length) :
    (setUnsignedBitfield p offset bits value).length = p.length ∧
      bitAt (setUnsignedBitfield p offset bits value) = (bitAt p).put offset bits value := by
  induction bits generalizing p offset with
  | zero =>
      refine ⟨rfl, funext fun i => ?_⟩
      rw [put_outside (by omega)]
      rfl
  | succ n ih =>
      rw [setUnsignedBitfield, shiftRight_three, and_seven]
      have hbitval : (if value &&& (1 <<< n) ≠ 0 then 1 else 0) = (value.testBit n).toNat := by
        rw [Nat.shiftLeft_eq, Nat.one_mul, Nat.and_two_pow]
        cases value.testBit n <;> simp
      rw [hbitval]
      set q := p.set (offset / 8) (UInt8.ofNat ((((p.getD (offset / 8) 0).toNat &&&
        (0xff ^^^ (1 <<< (7 - offset % 8)))) ||| ((value.testBit n).toNat <<< (7 - offset % 8)))
          &&& 0xff)) with hq
      have hlen : q.length = p.length := by rw [hq, List.length_set]
      have hfirst : bitAt q = (bitAt p).put offset 1 (value.testBit n).toNat := by
        funext i
        rw [hq, bitAt_set (by omega), testBit_byte _ (by omega)]
        by_cases hi : i = offset
        · subst hi
          rw [if_pos rfl, if_pos rfl, put_inside (Nat.le_refl i) (by omega)]
          rw [show i + 1 - 1 - i = 0 by omega]
          cases value.testBit n <;> rfl
        · rw [put_outside (by omega)]
          by_cases hb : i / 8 = offset / 8
          · rw [if_pos hb, if_neg (by omega), bitAt, hb]
          · rw [if_neg hb]
      obtain ⟨hlen', hbits⟩ := @ih q (offset + 1) (by omega)
      exact ⟨hlen'.trans hlen, by rw [hbits, hfirst, ← put_succ]⟩

/-! ## Two's complement -/

theorem isInt64_i64 (x : Int) : IsInt64 (i64 x) := by
  rw [IsInt64, i64, Int.bmod_def]
  split_ifs <;> omega

theorem i64_of_isInt64 {x : Int} (h : IsInt64 x) : i64 x = x := by
  obtain ⟨hlo, hhi⟩ := h
  rw [i64, Int.bmod_def]
  split_ifs <;> omega

theorem i64_of_ge {x : Int} (h : 2 ^ 63 ≤ x) (h' : x < 2 ^ 64) : i64 x = x - 2 ^ 64 := by
  rw [i64, Int.bmod_def]
  split_ifs <;> omega

theorem pow_le_pow_64 {bits : Nat} (h : bits ≤ 64) : 2 ^ bits ≤ 2 ^ 64 :=
  Nat.pow_le_pow_right (by decide) h

theorem highMask_eq {bits : Nat} (h : bits ≤ 64) : highMask bits = 2 ^ 64 - 2 ^ bits := by
  have hle := pow_le_pow_64 h
  have hpos := Nat.two_pow_pos bits
  rw [highMask, Nat.shiftLeft_eq]
  generalize 2 ^ bits = m at hle hpos
  omega

theorem and_lowMask {bits : Nat} (h : bits ≤ 64) (c : Nat) :
    c &&& (2 ^ 64 - 1 - highMask bits) = c % 2 ^ bits := by
  have hle := pow_le_pow_64 h
  have hpos := Nat.two_pow_pos bits
  have hmask : 2 ^ 64 - 1 - highMask bits = 2 ^ bits - 1 := by
    rw [highMask_eq h]
    omega
  rw [hmask, Nat.and_two_pow_sub_one_eq_mod]

theorem or_highMask {bits c : Nat} (h : bits ≤ 64) (hc : c < 2 ^ 64) :
    c ||| highMask bits = c % 2 ^ bits + (2 ^ 64 - 2 ^ bits) := by
  have hle := pow_le_pow_64 h
  have hsplit : 2 ^ 64 - 2 ^ bits = 2 ^ bits * (2 ^ (64 - bits) - 1) := by
    rw [Nat.mul_sub, Nat.mul_one, ← Nat.pow_add, Nat.add_sub_cancel' h]
  rw [highMask_eq h, hsplit, Nat.add_comm]
  apply Nat.eq_of_testBit_eq
  intro i
  rw [Nat.testBit_two_pow_mul_add _ (Nat.mod_lt _ (Nat.two_pow_pos bits)), Nat.testBit_or,
    Nat.testBit_two_pow_mul, Nat.testBit_two_pow_sub_one, Nat.testBit_mod_two_pow]
  by_cases hi : i < bits
  · simp [hi, Nat.not_le.mpr hi]
  · have hge : i ≥ bits := Nat.le_of_not_lt hi
    by_cases hi' : i < 64
    · simp [hi, hge, show i - bits < 64 - bits by omega]
    · have hbit : c.testBit i = false :=
        Nat.testBit_lt_two_pow (Nat.lt_of_lt_of_le hc (Nat.pow_le_pow_right (by decide) (by omega)))
      simp [hi, hge, hbit, show ¬ i - bits < 64 - bits by omega]

/-- The top bit of a field says whether it is in the upper half. -/
theorem and_topBit {n : Nat} (c : Nat) : c &&& (1 <<< n) ≠ 0 ↔ 2 ^ n ≤ c % 2 ^ (n + 1) := by
  have hpos := Nat.two_pow_pos n
  have hlt := Nat.mod_lt c hpos
  rw [Nat.shiftLeft_eq, Nat.one_mul, Nat.and_two_pow, Nat.mod_pow_succ,
    Nat.testBit_eq_decide_div_mod_eq]
  rcases Nat.mod_two_eq_zero_or_one (c / 2 ^ n) with h | h
  · simp [h, hlt]
  · simp [h]

theorem bmod_two_pow_succ (x : Int) (n : Nat) : x.bmod (2 ^ (n + 1)) =
    if x % 2 ^ (n + 1) < 2 ^ n then x % 2 ^ (n + 1) else x % 2 ^ (n + 1) - 2 ^ (n + 1) := by
  rw [Int.bmod_def]
  have hpow : ((2 ^ (n + 1) : Nat) : Int) = 2 ^ (n + 1) := by push_cast; rfl
  have hhalf : (((2 ^ (n + 1) : Nat) : Int) + 1) / 2 = 2 ^ n := by
    rw [hpow, pow_succ]
    omega
  rw [hhalf, hpow]

/-- Extending the sign of the low bits of a word is reduction to the signed
range. -/
theorem signExtend_eq {bits c : Nat} (hbits : 1 ≤ bits) (hle : bits ≤ 64) (hc : c < 2 ^ 64) :
    i64 (if bits < 64 then
        if c &&& (1 <<< (bits - 1)) ≠ 0 then c ||| highMask bits
        else c &&& (2 ^ 64 - 1 - highMask bits)
      else c : Nat) = (c : Int).bmod (2 ^ bits) := by
  obtain ⟨n, rfl⟩ : ∃ n, bits = n + 1 := ⟨bits - 1, by omega⟩
  rw [Nat.add_sub_cancel, bmod_two_pow_succ]
  have hmod : ((c : Int) % 2 ^ (n + 1)) = (c % 2 ^ (n + 1) : Nat) := by push_cast; rfl
  have hlt : c % 2 ^ (n + 1) < 2 ^ (n + 1) := Nat.mod_lt _ (Nat.two_pow_pos _)
  have hpow : (2 : Int) ^ n = (2 ^ n : Nat) := by push_cast; rfl
  have hpow' : (2 : Int) ^ (n + 1) = (2 ^ (n + 1) : Nat) := by push_cast; rfl
  have htwo : 2 ^ (n + 1) = 2 * 2 ^ n := Nat.pow_succ'
  have hbound := pow_le_pow_64 hle
  rw [hmod, hpow, hpow']
  by_cases hlast : n + 1 < 64
  · have hhalf : 2 ^ (n + 1) ≤ 2 ^ 63 := Nat.pow_le_pow_right (by decide) (by omega)
    rw [if_pos hlast]
    by_cases htop : c &&& (1 <<< n) ≠ 0
    · have htop' := (and_topBit c).mp htop
      rw [if_pos htop, or_highMask hle hc, i64_of_ge (by omega) (by omega), if_neg (by omega)]
      omega
    · have htop' := mt (and_topBit c).mpr htop
      rw [if_neg htop, and_lowMask hle, i64_of_isInt64 ⟨by omega, by omega⟩, if_pos (by omega)]
  · obtain rfl : n = 63 := by omega
    rw [if_neg hlast, Nat.mod_eq_of_lt hc]
    by_cases htop : c < 2 ^ 63
    · rw [i64_of_isInt64 ⟨by omega, by omega⟩, if_pos (by omega)]
    · rw [i64_of_ge (by omega) (by omega), if_neg (by omega)]
      omega

/-- **Reading a signed field.** -/
theorem getSignedBitfield_eq (p : Bytes) (offset : Nat) {bits : Nat} (hbits : 1 ≤ bits)
    (hle : bits ≤ 64) :
    getSignedBitfield p offset bits = ((bitAt p).field offset bits : Int).bmod (2 ^ bits) := by
  have hlt := field_lt (bitAt p) offset bits
  rw [← signExtend_eq hbits hle (Nat.lt_of_lt_of_le hlt (pow_le_pow_64 hle)), getSignedBitfield,
    getUnsignedBitfield_eq p offset hle, and_lowMask hle, Nat.mod_eq_of_lt hlt]
  by_cases hlast : bits < 64
  · by_cases htop : (bitAt p).field offset bits &&& (1 <<< (bits - 1)) ≠ 0
    · rw [if_pos ⟨hlast, htop⟩, if_pos hlast, if_pos htop]
    · rw [if_neg fun h => htop h.2, if_pos hlast, if_neg htop]
  · rw [if_neg fun h => hlast h.1, if_neg hlast]

/-- A number reduced to the signed range keeps its residue. -/
theorem bmod_congr {x y : Int} {m : Nat} (h : x % m = y % m) : x.bmod m = y.bmod m := by
  rw [Int.bmod_def, Int.bmod_def, h]

theorem u64_emod {bits : Nat} (h : bits ≤ 64) (x : Int) : (u64 x : Int) % 2 ^ bits = x % 2 ^ bits := by
  have hnonneg := Int.emod_nonneg x (b := 2 ^ 64) (by decide)
  rw [u64, Int.toNat_of_nonneg hnonneg]
  exact Int.emod_emod_of_dvd x (pow_dvd_pow 2 h)

theorem u64_lt (x : Int) : u64 x < 2 ^ 64 := by
  have hnonneg := Int.emod_nonneg x (b := 2 ^ 64) (by decide)
  have hlt := Int.emod_lt_of_pos x (b := 2 ^ 64) (by decide)
  rw [u64]
  omega

theorem signedWrap_eq (value incr : Int) {bits : Nat} (hbits : 1 ≤ bits) (hle : bits ≤ 64) :
    signedWrap value incr bits = (value + incr).bmod (2 ^ bits) := by
  rw [signedWrap, signExtend_eq hbits hle (u64_lt _)]
  apply bmod_congr
  push_cast
  exact u64_emod hle _

/-! ## The overflow checks -/

/-- What an overflow check has to answer about an exact result `x` and a range
of values: whether it is outside, and, as the policy asks, what it wraps to or
the end of the range it is clamped to. -/
structure ChecksOverflow (owtype : Owtype) (lo hi wrapped x : Int) (r : Int × Int) : Prop where
  inside : lo ≤ x → x ≤ hi → r.1 = 0
  outside : ¬ (lo ≤ x ∧ x ≤ hi) → r.1 ≠ 0
  wrap : owtype = .wrap → ¬ (lo ≤ x ∧ x ≤ hi) → r.2 = wrapped
  sat : owtype = .sat → ¬ (lo ≤ x ∧ x ≤ hi) → r.2 = max lo (min hi x)

/-- **The unsigned check** is right for an increment of a field value, and for
any value without an increment. -/
theorem checkUnsignedBitfieldOverflow_spec {value bits : Nat} {incr : Int} (hbits : bits ≤ 63)
    (hvalue : value < 2 ^ 64) (h : incr = 0 ∨ value < 2 ^ bits) (owtype : Owtype) :
    ChecksOverflow owtype 0 (2 ^ bits - 1) ((value + incr) % 2 ^ bits) (value + incr)
      ((checkUnsignedBitfieldOverflow value incr bits owtype).1,
        (checkUnsignedBitfieldOverflow value incr bits owtype).2) := by
  have hwrap : ((u64 (value + incr) &&& (2 ^ 64 - 1 - highMask bits) : Nat) : Int) =
      (value + incr) % 2 ^ bits := by
    rw [and_lowMask (by omega), ← u64_emod (show bits ≤ 64 by omega)]
    push_cast
    rfl
  have hmax : (if bits = 64 then 2 ^ 64 - 1 else 1 <<< bits - 1) = 2 ^ bits - 1 := by
    rw [if_neg (by omega), Nat.shiftLeft_eq, Nat.one_mul]
  have hpow : (2 : Int) ^ bits = (2 ^ bits : Nat) := by push_cast; rfl
  have hpos := Nat.two_pow_pos bits
  have hhalf : 2 ^ bits ≤ 2 ^ 63 := Nat.pow_le_pow_right (by decide) hbits
  have hmaxincr : value < 2 ^ bits → i64 (((2 ^ bits - 1 : Nat) : Int) - value) =
      2 ^ bits - 1 - value := fun hv => by
    rw [hpow, i64_of_isInt64 ⟨by omega, by omega⟩]
    omega
  have hminincr : value < 2 ^ bits → i64 (-value) = -value := fun hv =>
    i64_of_isInt64 ⟨by omega, by omega⟩
  simp only [checkUnsignedBitfieldOverflow, hmax]
  generalize hW : (u64 (value + incr) &&& (2 ^ 64 - 1 - highMask bits)) = W at hwrap ⊢
  rw [hpow] at hwrap
  by_cases hover : value > 2 ^ bits - 1 ∨ (incr > 0 ∧ incr > i64 (((2 ^ bits - 1 : Nat) : Int) - value))
  · have hx : (2 : Int) ^ bits - 1 < value + incr := by
      rw [hpow]
      rcases h with rfl | hv
      · rcases hover with h' | h' <;> omega
      · rw [hmaxincr hv, hpow] at hover
        rcases hover with h' | h' <;> omega
    rw [if_pos hover]
    rw [hpow] at hx ⊢
    cases owtype with
    | wrap => exact ⟨by omega, by simp, fun _ _ => hwrap, nofun⟩
    | sat =>
        refine ⟨by omega, by simp, nofun, fun _ _ => ?_⟩
        dsimp only
        omega
    | fail => exact ⟨by omega, by simp, nofun, nofun⟩
  · rw [if_neg hover]
    have hv : value < 2 ^ bits := by omega
    rw [hmaxincr hv, hpow] at hover
    rw [hminincr hv, hpow]
    by_cases hunder : incr < 0 ∧ incr < -(value : Int)
    · rw [if_pos hunder]
      cases owtype with
      | wrap => exact ⟨by omega, by simp, fun _ _ => hwrap, nofun⟩
      | sat =>
          refine ⟨by omega, by simp, nofun, fun _ _ => ?_⟩
          dsimp only
          omega
      | fail => exact ⟨by omega, by simp, nofun, nofun⟩
    · rw [if_neg hunder]
      exact ⟨fun _ _ => rfl, by omega, by omega, by omega⟩

/-- The values for which the room above wraps around: so far below the range
that the check takes them for values above it. -/
def signedSlip (bits : Nat) (value : Int) : Prop := bits < 64 ∧ value ≤ 2 ^ (bits - 1) - 1 - 2 ^ 63

instance (bits : Nat) (value : Int) : Decidable (signedSlip bits value) :=
  inferInstanceAs (Decidable (_ ∧ _))

/-- The signed check with the casts away: an increment of a field value, or
any value without one. -/
theorem checkSignedBitfieldOverflow_eq {value incr : Int} {bits : Nat} (hbits : 1 ≤ bits)
    (hle : bits ≤ 64) (hvalue : IsInt64 value) (hincr : IsInt64 incr)
    (h : incr = 0 ∨ (-2 ^ (bits - 1) ≤ value ∧ value ≤ 2 ^ (bits - 1) - 1)) (owtype : Owtype) :
    checkSignedBitfieldOverflow value incr bits owtype =
      if value + incr > 2 ^ (bits - 1) - 1 ∨ signedSlip bits value then
        (1, match owtype with
          | .wrap => (value + incr).bmod (2 ^ bits)
          | .sat => 2 ^ (bits - 1) - 1
          | .fail => 0)
      else if value + incr < -2 ^ (bits - 1) then
        (if owtype = .wrap then 1 else -1, match owtype with
          | .wrap => (value + incr).bmod (2 ^ bits)
          | .sat => -2 ^ (bits - 1)
          | .fail => 0)
      else (0, 0) := by
  obtain ⟨n, rfl⟩ : ∃ n, bits = n + 1 := ⟨bits - 1, by omega⟩
  have hmax : (if n + 1 = 64 then (2 : Int) ^ 63 - 1 else 2 ^ n - 1) = 2 ^ n - 1 := by
    split_ifs with h64
    · rw [show n = 63 by omega]
    · rfl
  have hpow : (2 : Int) ^ n = (2 ^ n : Nat) := by push_cast; rfl
  have hpos := Nat.two_pow_pos n
  have hhalf : 2 ^ n ≤ 2 ^ 63 := Nat.pow_le_pow_right (by decide) (by omega)
  have hhalf' : n + 1 ≠ 64 → 2 ^ n ≤ 2 ^ 62 := fun h64 =>
    Nat.pow_le_pow_right (by decide) (by omega)
  have hfull : n + 1 = 64 → 2 ^ n = 2 ^ 63 := fun h64 => by rw [show n = 63 by omega]
  obtain ⟨hvlo, hvhi⟩ := hvalue
  obtain ⟨hilo, hihi⟩ := hincr
  simp only [checkSignedBitfieldOverflow, Nat.add_sub_cancel, hmax,
    signedWrap_eq value incr hbits hle, signedSlip] at h ⊢
  rw [hpow] at h ⊢
  generalize 2 ^ n = m at hpos hhalf hhalf' hfull h
  have hover : (value > (m : Int) - 1 ∨ (n + 1 ≠ 64 ∧ incr > i64 ((m : Int) - 1 - value)) ∨
      (value ≥ 0 ∧ incr > 0 ∧ incr > i64 ((m : Int) - 1 - value))) ↔
      (value + incr > (m : Int) - 1 ∨ (n + 1 < 64 ∧ value ≤ (m : Int) - 1 - 2 ^ 63)) := by
    rw [i64, Int.bmod_def]
    split_ifs <;> omega
  by_cases hx : value + incr > (m : Int) - 1 ∨ (n + 1 < 64 ∧ value ≤ (m : Int) - 1 - 2 ^ 63)
  · rw [if_pos (hover.mpr hx), if_pos hx]
    cases owtype <;> rfl
  · rw [if_neg (mt hover.mp hx), if_neg hx]
    have hunder : (value < -((m : Int) - 1) - 1 ∨
        (n + 1 ≠ 64 ∧ incr < i64 (-((m : Int) - 1) - 1 - value)) ∨
        (value < 0 ∧ incr < 0 ∧ incr < i64 (-((m : Int) - 1) - 1 - value))) ↔
        value + incr < -(m : Int) := by
      rw [i64, Int.bmod_def]
      split_ifs <;> omega
    by_cases hx' : value + incr < -(m : Int)
    · rw [if_pos (hunder.mpr hx'), if_pos hx']
      cases owtype
      · rfl
      · rw [show -((m : Int) - 1) - 1 = -m by omega]
        rfl
      · rfl
    · rw [if_neg (mt hunder.mp hx'), if_neg hx']

/-- **The signed check** is right, unless a value far below the range is to be
clamped. -/
theorem checkSignedBitfieldOverflow_spec {value incr : Int} {bits : Nat} (hbits : 1 ≤ bits)
    (hle : bits ≤ 64) (hvalue : IsInt64 value) (hincr : IsInt64 incr)
    (h : incr = 0 ∨ (-2 ^ (bits - 1) ≤ value ∧ value ≤ 2 ^ (bits - 1) - 1)) {owtype : Owtype}
    (hslip : owtype = .sat → ¬ signedSlip bits value) :
    ChecksOverflow owtype (-2 ^ (bits - 1)) (2 ^ (bits - 1) - 1) ((value + incr).bmod (2 ^ bits))
      (value + incr) (checkSignedBitfieldOverflow value incr bits owtype) := by
  have hpos : (1 : Int) ≤ 2 ^ (bits - 1) := Int.pow_pos (by decide)
  have hbound : ∀ k, bits - 1 ≤ k → (2 : Int) ^ (bits - 1) ≤ 2 ^ k := fun k hk => by
    exact_mod_cast Nat.pow_le_pow_right (n := 2) (by decide) hk
  -- a value that slips is below the range, and no increment is added to it
  have hlow : signedSlip bits value → value + incr < -2 ^ (bits - 1) := by
    rintro ⟨hlt, hv⟩
    have hhalf := hbound 62 (by omega)
    rcases h with rfl | hrange <;> omega
  rw [checkSignedBitfieldOverflow_eq hbits hle hvalue hincr h]
  by_cases hover : value + incr > 2 ^ (bits - 1) - 1 ∨ signedSlip bits value
  · rw [if_pos hover]
    have hout : value + incr > 2 ^ (bits - 1) - 1 ∨ value + incr < -2 ^ (bits - 1) :=
      hover.imp_right hlow
    refine ⟨by omega, by simp, fun how _ => by rw [how], fun how _ => ?_⟩
    have hx := hover.resolve_right (hslip how)
    simp only [how]
    omega
  · rw [if_neg hover]
    by_cases hunder : value + incr < -2 ^ (bits - 1)
    · rw [if_pos hunder]
      refine ⟨by omega, ?_, fun how _ => by rw [how], fun how _ => ?_⟩
      · intro _
        dsimp only
        split_ifs <;> decide
      · simp only [how]
        omega
    · rw [if_neg hunder]
      exact ⟨fun _ _ => rfl, by omega, by omega, by omega⟩

end SkynetJit.Redis
