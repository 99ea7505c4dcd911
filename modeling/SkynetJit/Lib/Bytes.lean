import Mathlib.Algebra.Ring.Int.Defs
import Mathlib.Algebra.Ring.Nat
import Mathlib.Data.List.Basic
import Mathlib.Data.List.Nodup

/-!
# SkynetJit.Lib.Bytes

Byte strings and their decimal numerals.  Lua strings and C `sds` strings
are sequences of bytes with no encoding, so both are `List UInt8` here; the
ASCII literals of the sources go through `ascii`.  `natDec` is the decimal
numeral of a natural number, the text `tostring` and `%d` write.
-/

namespace SkynetJit

/-- A byte string: a Lua string, an `sds`, a blob. -/
abbrev Bytes := List UInt8

/-- Named, so that every module finds the same term for it. -/
instance instLawfulBEqBytes : LawfulBEq Bytes := inferInstance

/-- The byte of an ASCII character. -/
def charByte (c : Char) : UInt8 := UInt8.ofNat c.toNat

/-- The bytes of an ASCII literal. -/
def ascii (s : String) : Bytes := s.toList.map charByte

/-- Decimal numeral of a natural number, without leading zeros. -/
def natDec (n : Nat) : Bytes := (Nat.toDigits 10 n).map charByte

theorem natDec_ne_nil (n : Nat) : natDec n ≠ [] := by
  simp [natDec, Nat.toDigits_ne_nil]

/-- Digit characters are told apart by their bytes. -/
theorem charByte_inj_of_isDigit {c d : Char} (hc : c.isDigit) (hd : d.isDigit)
    (h : charByte c = charByte d) : c = d := by
  have hc' : c.toNat ≤ 57 := (Char.isDigit_iff_toNat.mp hc).2
  have hd' : d.toNat ≤ 57 := (Char.isDigit_iff_toNat.mp hd).2
  have hn : c.toNat = d.toNat := by
    have := congrArg UInt8.toNat h
    simp only [charByte, UInt8.toNat_ofNat'] at this
    omega
  exact Char.toNat_inj.mp hn

/-- Mapping `charByte` over digit strings is injective. -/
theorem map_charByte_inj {xs ys : List Char} (hx : ∀ c ∈ xs, c.isDigit) (hy : ∀ c ∈ ys, c.isDigit)
    (h : xs.map charByte = ys.map charByte) : xs = ys := by
  induction xs generalizing ys with
  | nil =>
      cases ys with
      | nil => rfl
      | cons y ys => simp at h
  | cons x xs ih =>
      cases ys with
      | nil => simp at h
      | cons y ys =>
          simp only [List.map_cons, List.cons.injEq] at h
          have hxy : x = y := charByte_inj_of_isDigit (hx x (by simp)) (hy y (by simp)) h.1
          have htl : xs = ys :=
            ih (fun c hc => hx c (by simp [hc])) (fun c hc => hy c (by simp [hc])) h.2
          rw [hxy, htl]

/-- Different numbers have different numerals. -/
theorem natDec_injective {m n : Nat} (h : natDec m = natDec n) : m = n := by
  have hd : ∀ k, ∀ c ∈ Nat.toDigits 10 k, c.isDigit := fun k c hc =>
    Nat.isDigit_of_mem_toDigits (by decide) (by decide) hc
  have ht : Nat.toDigits 10 m = Nat.toDigits 10 n := map_charByte_inj (hd m) (hd n) h
  have hm := Nat.ofDigitChars_ten_toDigits (n := m)
  rw [ht, Nat.ofDigitChars_ten_toDigits] at hm
  exact hm.symm

/-- The `n` low bytes of a number, least significant first. -/
def leBytes : Nat → Nat → Bytes
  | 0, _ => []
  | n + 1, v => UInt8.ofNat (v % 256) :: leBytes n (v / 256)

/-- The number that bytes stand for, least significant first. -/
def leNat : Bytes → Nat
  | [] => 0
  | b :: bs => b.toNat + 256 * leNat bs

@[simp] theorem length_leBytes (n v : Nat) : (leBytes n v).length = n := by
  induction n generalizing v with
  | zero => rfl
  | succ n ih => simp [leBytes, ih]

theorem leNat_leBytes (n v : Nat) : leNat (leBytes n v) = v % 256 ^ n := by
  induction n generalizing v with
  | zero => simp [leBytes, leNat, Nat.mod_one]
  | succ n ih =>
      have hbyte : (UInt8.ofNat (v % 256)).toNat = v % 256 := by
        rw [UInt8.toNat_ofNat']
        omega
      rw [leBytes, leNat, ih, hbyte, Nat.pow_succ', Nat.mod_mul]

theorem leNat_leBytes_of_lt {n v : Nat} (h : v < 256 ^ n) : leNat (leBytes n v) = v := by
  rw [leNat_leBytes, Nat.mod_eq_of_lt h]

theorem leNat_lt (bs : Bytes) : leNat bs < 256 ^ bs.length := by
  induction bs with
  | nil => simp [leNat]
  | cons b bs ih =>
      have hb := b.toNat_lt
      rw [leNat, List.length_cons, Nat.pow_succ']
      omega

theorem leBytes_leNat (bs : Bytes) : leBytes bs.length (leNat bs) = bs := by
  induction bs with
  | nil => rfl
  | cons b bs ih =>
      have hb := b.toNat_lt
      have hmod : (b.toNat + 256 * leNat bs) % 256 = b.toNat := by omega
      have hdiv : (b.toNat + 256 * leNat bs) / 256 = leNat bs := by omega
      rw [List.length_cons, leBytes, leNat, hmod, hdiv, ih, UInt8.ofNat_toNat]

/-! ## Byte order -/

/-- `memcmp` over the length of the shorter string. -/
def memcmp : Bytes → Bytes → Ordering
  | x :: xs, y :: ys => (compare x y).then (memcmp xs ys)
  | _, _ => .eq

/-- Bytes first, then the lengths: `sdscmp`. -/
def sdscmp (a b : Bytes) : Ordering := (memcmp a b).then (compare a.length b.length)

@[simp] theorem sdscmp_nil_nil : sdscmp [] [] = .eq := rfl

@[simp] theorem sdscmp_nil_cons (y : UInt8) (ys : Bytes) : sdscmp [] (y :: ys) = .lt := by
  simp [sdscmp, memcmp, Nat.compare_eq_lt]

@[simp] theorem sdscmp_cons_nil (x : UInt8) (xs : Bytes) : sdscmp (x :: xs) [] = .gt := by
  simp [sdscmp, memcmp, Nat.compare_eq_gt]

theorem sdscmp_cons_cons (x y : UInt8) (xs ys : Bytes) :
    sdscmp (x :: xs) (y :: ys) = (compare x y).then (sdscmp xs ys) := by
  have hlen : compare (xs.length + 1) (ys.length + 1) = compare xs.length ys.length := by
    simp [Nat.compare_eq_ite_lt]
  rw [sdscmp, sdscmp, memcmp, List.length_cons, List.length_cons, hlen, Ordering.then_assoc]

theorem sdscmp_eq_lt_iff {a b : Bytes} : sdscmp a b = .lt ↔ a < b := by
  induction a generalizing b with
  | nil => cases b <;> simp
  | cons x xs ih =>
      cases b with
      | nil => simp
      | cons y ys =>
          rw [sdscmp_cons_cons, Ordering.then_eq_lt, List.cons_lt_cons_iff, ih]
          simp [Std.compare_eq_lt]

theorem sdscmp_eq_iff {a b : Bytes} : sdscmp a b = .eq ↔ a = b := by
  induction a generalizing b with
  | nil => cases b <;> simp
  | cons x xs ih =>
      cases b with
      | nil => simp
      | cons y ys =>
          rw [sdscmp_cons_cons, Ordering.then_eq_eq, ih, List.cons.injEq]
          simp

theorem sdscmp_swap (a b : Bytes) : (sdscmp a b).swap = sdscmp b a := by
  induction a generalizing b with
  | nil => cases b <;> simp
  | cons x xs ih =>
      cases b with
      | nil => simp
      | cons y ys =>
          rw [sdscmp_cons_cons, sdscmp_cons_cons, Ordering.swap_then, ih, ← Std.OrientedOrd.eq_swap]

theorem sdscmp_eq_gt_iff {a b : Bytes} : sdscmp a b = .gt ↔ b < a := by
  rw [← sdscmp_eq_lt_iff, ← sdscmp_swap a b]
  cases sdscmp a b <;> simp

/-- One hexadecimal digit, lower case. -/
def hexDigit (n : Nat) : UInt8 := UInt8.ofNat (if n < 10 then 48 + n else 87 + n)

/-- Lower-case hexadecimal rendering, two digits a byte. -/
def hex (s : Bytes) : Bytes :=
  s.flatMap fun b => [hexDigit (b.toNat / 16), hexDigit (b.toNat % 16)]

end SkynetJit
