import Mathlib.Data.UInt
import SkynetJit.Lib.Popcount
import SkynetJit.Redis.Bitmap.Bitpos

/-!
# SkynetJit.Redis.Bitmap.Bitcount

BITCOUNT (`facade/bitmap.c`, `kernel/bitops.c`).

`redisPopcount` counts the first bytes by table, up to an aligned one, then
words in one of two ways, then the bytes that are left by table.  A range of
bits is counted as whole bytes, less what is masked in the first and in the
last of them.
-/

namespace SkynetJit.Redis

open Raise Words BitArray Popcount

variable {ν : Type}

/-! ## `redisPopcount` -/

/-- `B2`. -/
def b2 (n : Nat) : List Nat := [n, n + 1, n + 1, n + 2]

/-- `B4`. -/
def b4 (n : Nat) : List Nat := b2 n ++ b2 (n + 1) ++ b2 (n + 1) ++ b2 (n + 2)

/-- `B6`. -/
def b6 (n : Nat) : List Nat := b4 n ++ b4 (n + 1) ++ b4 (n + 1) ++ b4 (n + 2)

/-- `bitsinbyte`. -/
def bitsinbyte : List Nat := b6 0 ++ b6 1 ++ b6 1 ++ b6 2

/-- `__builtin_popcountll`. -/
def popcountll (x : Nat) : Nat := count x.testBit 0 64

/-- Count the first bytes, up to an aligned one. -/
def countUnaligned (align : Nat) : Nat → Bytes → Nat × Bytes
  | _, [] => (0, [])
  | addr, c :: rest =>
      if addr &&& align = 0 then (0, c :: rest)
      else
        let (bits, rest) := countUnaligned align (addr + 1) rest
        (bitsinbyte.getD c.toNat 0 + bits, rest)

/-- Count so many blocks of 32 bytes, in four counters. -/
def countPopcnt : Nat → List Nat → Bytes → List Nat × Bytes
  | 0, cnt, p => (cnt, p)
  | n + 1, cnt, p =>
      countPopcnt n (List.zipWith (· + ·) cnt ((List.range 4).map fun k => popcountll (load 8 p k))) (p.drop 32)

/-- The first two steps on `aux1` and its like. -/
def auxFours (aux : UInt32) : UInt32 :=
  let aux : UInt32 := aux - ((aux >>> 1) &&& (0x55555555 : UInt32))
  (aux &&& (0x33333333 : UInt32)) + ((aux >>> 2) &&& (0x33333333 : UInt32))

/-- The third step. -/
def auxEights (aux : UInt32) : UInt32 := (aux + (aux >>> 4)) &&& 0x0F0F0F0F

/-- Count 28 bytes. -/
def countSeven (p : Bytes) : UInt32 :=
  let aux := (List.range 7).map fun k => auxFours (UInt32.ofNat (load 4 p k))
  ((aux.map auxEights).sum * 0x01010101) >>> 24

/-- Count so many blocks of 28 bytes. -/
def countSevens : Nat → Bytes → Nat × Bytes
  | 0, p => (0, p)
  | n + 1, p =>
      let (bits, rest) := countSevens n (p.drop 28)
      ((countSeven p).toNat + bits, rest)

/-- `remain:`. -/
def countRemain (p : Bytes) : Nat := (p.map fun c => bitsinbyte.getD c.toNat 0).sum

/-- `redisPopcount` on the bytes at an address. -/
def redisPopcount (usePopcnt : Bool) (addr : Nat) (s : Bytes) : Nat :=
  let align := if usePopcnt then 7 else 3
  let (bits, p) := countUnaligned align addr s
  if usePopcnt then
    let (cnt, p) := countPopcnt (p.length / 32) [0, 0, 0, 0] p
    bits + cnt.sum + countRemain p
  else
    let (aux, p) := countSevens (p.length / 28) p
    bits + aux + countRemain p

/-! ## The command -/

/-- What BITCOUNT answers for some bytes of a string. -/
def bitcountBytes (usePopcnt : Bool) (mem : BitposMemory) (p : Bytes) (start stop : Nat) (first last : UInt8) :
    Int :=
  let bytes := stop - start + 1
  let count : Int := redisPopcount usePopcnt (mem.addr + start) ((p.drop start).take bytes)
  if first ≠ 0 ∨ last ≠ 0 then
    let firstlast := [if first ≠ 0 then p.getD start 0 &&& first else 0,
      if last ≠ 0 then p.getD stop 0 &&& last else 0]
    count - redisPopcount usePopcnt mem.tmp firstlast
  else count

/-- A range that BITCOUNT takes for an empty one before it clamps it. -/
def BitposRange.inverted : BitposRange → Bool
  | .within start stop _ => decide (start < 0 ∧ stop < 0 ∧ start > stop)
  | _ => false

/-- What BITCOUNT answers for a string. -/
def bitcount (usePopcnt : Bool) (mem : BitposMemory) (range : BitposRange) (p : Bytes) : Int :=
  if range.inverted then 0
  else
    let b := bitposBounds p.length range
    if b.start > b.stop then 0
    else bitcountBytes usePopcnt mem p b.start.toNat b.stop.toNat b.first b.last

section Command

variable [LuaCoercion ν]

/-- The arguments of BITCOUNT behind the handle. -/
def bitcountRange : List (LuaValue ν) → Except LuaError BitposRange
  | [] => return .whole
  | [start, stop] => do
      let start ← rlChecklonglong start "value is not an integer or out of range"
      let stop ← rlChecklonglong stop "value is not an integer or out of range"
      return .within start stop false
  | [start, stop, unit] => do
      let start ← rlChecklonglong start "value is not an integer or out of range"
      let stop ← rlChecklonglong stop "value is not an integer or out of range"
      let isbit ← rlUnitArg unit
      return .within start stop isbit
  | _ => .error syntaxErr

/-- `lbitmap_bitcount`. -/
def lbitmapBitcount (usePopcnt : Bool) (mem : BitposMemory) (args : List (LuaValue ν)) :
    Command (Handles Bytes) (Reply ν) := do
  let id ← check (rlCheck args 1 .bitmap)
  let range ← check (bitcountRange (args.drop 1))
  let s ← get
  return .int (bitcount usePopcnt mem range (s id))

end Command

/-! ## What the kernel counts -/

set_option maxRecDepth 4000 in
theorem bitsinbyte_eq (b : UInt8) : bitsinbyte.getD b.toNat 0 = byteCount b := by
  have htable : ∀ n < 256, bitsinbyte.getD n 0 = count n.testBit 0 8 := by decide
  exact htable b.toNat b.toNat_lt

theorem countRemain_eq (p : Bytes) : countRemain p = bytesCount p := by
  simp only [countRemain, bitsinbyte_eq, bytesCount]

/-- The first bytes. -/
theorem countUnaligned_eq (align addr : Nat) (s : Bytes) :
    (countUnaligned align addr s).1 + bytesCount (countUnaligned align addr s).2 = bytesCount s := by
  induction s generalizing addr with
  | nil => rfl
  | cons c rest ih =>
      rw [countUnaligned]
      split_ifs
      · exact Nat.zero_add _
      · show bitsinbyte.getD c.toNat 0 + _ + _ = _
        rw [bitsinbyte_eq, bytesCount_cons, Nat.add_assoc, ih]

/-- One block of 32 bytes. -/
theorem sum_popcountll {p : Bytes} (h : 32 ≤ p.length) :
    ((List.range 4).map fun k => popcountll (load 8 p k)).sum = bytesCount (p.take 32) := by
  rw [← sum_count_loads (w := 8) (c := 4) h]
  refine congrArg List.sum (List.map_congr_left fun k hk => ?_)
  exact count_load (by have := List.mem_range.mp hk; omega)

theorem sum_zipWith_add {xs ys : List Nat} (h : xs.length = ys.length) :
    (List.zipWith (· + ·) xs ys).sum = xs.sum + ys.sum := by
  induction xs generalizing ys with
  | nil =>
      obtain rfl := List.length_eq_zero_iff.mp h.symm
      rfl
  | cons x xs ih =>
      cases ys with
      | nil => simp at h
      | cons y ys =>
          rw [List.zipWith_cons_cons, List.sum_cons, List.sum_cons, List.sum_cons, ih (Nat.succ.inj h)]
          omega

/-- The loop with four counters. -/
theorem countPopcnt_eq (n : Nat) (cnt : List Nat) (hcnt : cnt.length = 4) (p : Bytes) (h : 32 * n ≤ p.length) :
    (countPopcnt n cnt p).1.sum + bytesCount (countPopcnt n cnt p).2 = cnt.sum + bytesCount p := by
  induction n generalizing cnt p with
  | zero => rfl
  | succ n ih =>
      have hdrop : 32 * n ≤ (p.drop 32).length := by
        rw [List.length_drop]
        omega
      rw [countPopcnt, ih _ (by simp [hcnt]) _ hdrop, sum_zipWith_add (by simp [hcnt]), sum_popcountll (by omega),
        Nat.add_assoc, bytesCount_take_add_drop]

theorem and_toNat_mod (y : Nat) {m : Nat} (hm : m < 2 ^ 32) : y % 2 ^ 32 &&& m = y &&& m := by
  have hmod := Nat.and_mod_two_pow (a := y) (b := m) (n := 32)
  rw [Nat.mod_eq_of_lt hm] at hmod
  rw [← hmod, Nat.mod_eq_of_lt (Nat.lt_of_le_of_lt Nat.and_le_right hm)]

/-- The steps on a word. -/
theorem toNat_auxFours (aux : UInt32) :
    (auxFours aux).toNat = fours 0x33333333 (pairs 0x55555555 aux.toNat) := by
  have hone : ((aux >>> 1) &&& 0x55555555).toNat = aux.toNat / 2 &&& 0x55555555 := by
    simp [UInt32.toNat_and, Nat.shiftRight_eq_div_pow]
  have hle : (aux >>> 1) &&& 0x55555555 ≤ aux := by
    rw [UInt32.le_iff_toNat_le, hone]
    exact Nat.le_trans Nat.and_le_left (Nat.div_le_self _ _)
  have hpairs : (aux - ((aux >>> 1) &&& 0x55555555)).toNat = pairs 0x55555555 aux.toNat := by
    rw [UInt32.toNat_sub_of_le _ _ hle, hone, pairs]
  have hlow : pairs 0x55555555 aux.toNat &&& 0x33333333 ≤ 0x33333333 := Nat.and_le_right
  have hhigh : pairs 0x55555555 aux.toNat / 4 &&& 0x33333333 ≤ 0x33333333 := Nat.and_le_right
  rw [auxFours, UInt32.toNat_add, UInt32.toNat_and, UInt32.toNat_and, UInt32.toNat_shiftRight, hpairs, fours]
  have hshift : pairs 0x55555555 aux.toNat >>> ((2 : UInt32).toNat % 32) = pairs 0x55555555 aux.toNat / 4 :=
    Nat.shiftRight_eq_div_pow _ 2
  rw [hshift]
  exact Nat.mod_eq_of_lt (Nat.lt_of_le_of_lt (Nat.add_le_add hlow hhigh) (by decide))

theorem toNat_auxEights (aux : UInt32) : (auxEights aux).toNat = eights 0x0F0F0F0F aux.toNat := by
  have hshift : aux.toNat >>> ((4 : UInt32).toNat % 32) = aux.toNat / 16 := Nat.shiftRight_eq_div_pow _ 4
  rw [auxEights, UInt32.toNat_and, UInt32.toNat_add, UInt32.toNat_shiftRight, eights, hshift]
  exact and_toNat_mod _ (by decide)

theorem toNat_sum (l : List UInt32) : l.sum.toNat = (l.map UInt32.toNat).sum % 2 ^ 32 := by
  induction l with
  | nil => rfl
  | cons x l ih => rw [List.sum_cons, UInt32.toNat_add, ih, List.map_cons, List.sum_cons, Nat.add_mod_mod]

/-- 28 bytes. -/
theorem toNat_countSeven {p : Bytes} (h : 28 ≤ p.length) : (countSeven p).toNat = bytesCount (p.take 28) := by
  let words := (List.range 7).map fun k => (p.drop (4 * k)).take 4
  have hwords : ∀ t ∈ words, t.length = 4 := by
    intro t ht
    obtain ⟨k, hk, rfl⟩ := List.mem_map.mp ht
    have := List.mem_range.mp hk
    rw [List.length_take, List.length_drop]
    omega
  have hlanes :
      (((List.range 7).map fun k => auxFours (UInt32.ofNat (load 4 p k))).map auxEights).map UInt32.toNat =
        words.map fun t => lanes (t.map byteCount) := by
    rw [List.map_map, List.map_map, List.map_map]
    refine List.map_congr_left fun k hk => ?_
    have hlen := hwords ((p.drop (4 * k)).take 4) (List.mem_map_of_mem hk)
    have hlt : load 4 p k < 2 ^ 32 := by
      have := leNat_lt ((p.drop (4 * k)).take 4)
      rw [hlen] at this
      exact this
    have hlanes := lanes_byteCount ((p.drop (4 * k)).take 4)
    rw [hlen] at hlanes
    show (auxEights (auxFours (UInt32.ofNat (load 4 p k)))).toNat = _
    rw [toNat_auxEights, toNat_auxFours, UInt32.toNat_ofNat_of_lt' hlt]
    exact hlanes
  have hsum : (words.map bytesCount).sum = bytesCount (p.take 28) := by
    rw [← sum_count_loads (w := 4) (c := 7) h, List.map_map]
    rfl
  rw [countSeven, UInt32.toNat_shiftRight, UInt32.toNat_mul, toNat_sum, hlanes, ← hsum,
    ← mul_lanes_sum hwords (Nat.le_refl 7)]
  show _ >>> 24 = _
  rw [Nat.shiftRight_eq_div_pow, Nat.mod_mul_mod]
  rfl

/-- The loop over 28 bytes. -/
theorem countSevens_eq (n : Nat) (p : Bytes) (h : 28 * n ≤ p.length) :
    (countSevens n p).1 + bytesCount (countSevens n p).2 = bytesCount p := by
  induction n generalizing p with
  | zero => exact Nat.zero_add _
  | succ n ih =>
      have hdrop : 28 * n ≤ (p.drop 28).length := by
        rw [List.length_drop]
        omega
      show (countSeven p).toNat + (countSevens n (p.drop 28)).1 + bytesCount (countSevens n (p.drop 28)).2 = _
      rw [toNat_countSeven (by omega), Nat.add_assoc, ih _ hdrop, bytesCount_take_add_drop]

/-- **`redisPopcount`** counts the ones, with POPCNT or without it and wherever
the bytes are. -/
theorem redisPopcount_eq (usePopcnt : Bool) (addr : Nat) (s : Bytes) :
    redisPopcount usePopcnt addr s = bytesCount s := by
  have hfirst := countUnaligned_eq (if usePopcnt then 7 else 3) addr s
  simp only [redisPopcount]
  generalize countUnaligned (if usePopcnt then 7 else 3) addr s = r at hfirst ⊢
  obtain ⟨bits, p⟩ := r
  simp only [countRemain_eq] at hfirst ⊢
  split_ifs
  · have hwords := countPopcnt_eq (p.length / 32) [0, 0, 0, 0] rfl p (Nat.mul_div_le _ _)
    simp only [List.sum_cons, List.sum_nil] at hwords
    omega
  · have hwords := countSevens_eq (p.length / 28) p (Nat.mul_div_le _ _)
    omega

/-! ## What BITCOUNT is for -/

/-- The ones of some bytes of a string. -/
theorem bytesCount_slice {p : Bytes} {start bytes : Nat} (h : start + bytes ≤ p.length) :
    bytesCount ((p.drop start).take bytes) = count (bitAt p) (8 * start) (8 * bytes) := by
  have hlen : ((p.drop start).take bytes).length = bytes := by
    rw [List.length_take, List.length_drop]
    omega
  rw [bytesCount_eq, hlen, ← Nat.add_zero (8 * start), ← count_shift (bitAt p) (8 * start) 0]
  refine count_congr fun i _ hi => ?_
  rw [bitAt_take (by omega), bitAt_drop, Nat.add_comm]

/-- What the first mask takes away: the bits before the range. -/
theorem byteCount_first (p : Bytes) (S : Nat) :
    byteCount (p.getD (S / 8) 0 &&& firstByteNegMask S) = count (bitAt p) (8 * (S / 8)) (S % 8) := by
  rw [byteCount_eq]
  refine @count_window _ _ 0 _ _ _ (by omega) fun i hi => ?_
  rw [testBit_and_byte, testBit_firstByteNegMask S hi, testBit_getD p _ hi]
  simp

/-- What the last mask takes away: the bits behind the range. -/
theorem byteCount_last (p : Bytes) (E : Nat) :
    byteCount (p.getD (E / 8) 0 &&& lastByteNegMask E) = count (bitAt p) (E + 1) (7 - E % 8) := by
  rw [byteCount_eq, show E + 1 = 8 * (E / 8) + (E % 8 + 1) by omega]
  refine count_window (by omega) fun i hi => ?_
  rw [testBit_and_byte, testBit_lastByteNegMask E hi, testBit_getD p _ hi]
  congr 2
  exact propext ⟨fun h => by omega, fun h => by omega⟩

/-- The bytes of a range, less what is masked. -/
theorem bitcountBytes_eq (usePopcnt : Bool) (mem : BitposMemory) {p : Bytes} {S E : Nat} (hSE : S ≤ E)
    (hE : E < 8 * p.length) :
    bitcountBytes usePopcnt mem p (S / 8) (E / 8) (firstByteNegMask S) (lastByteNegMask E) =
      count (bitAt p) S (E - S + 1) := by
  have hslice := @bytesCount_slice p (S / 8) (E / 8 - S / 8 + 1) (by omega)
  have hsplit : count (bitAt p) (8 * (S / 8)) (8 * (E / 8 - S / 8 + 1)) =
      count (bitAt p) (8 * (S / 8)) (S % 8) +
        (count (bitAt p) S (E - S + 1) + count (bitAt p) (E + 1) (7 - E % 8)) := by
    rw [show 8 * (E / 8 - S / 8 + 1) = S % 8 + (E - S + 1 + (7 - E % 8)) by omega, count_add, count_add,
      show 8 * (S / 8) + S % 8 = S by omega, show S + (E - S + 1) = E + 1 by omega]
  have hfirst : (if firstByteNegMask S ≠ 0 then p.getD (S / 8) 0 &&& firstByteNegMask S else 0) =
      p.getD (S / 8) 0 &&& firstByteNegMask S := by
    split_ifs with h
    · rfl
    · rw [not_not.mp h, UInt8.and_zero]
  have hlast : (if lastByteNegMask E ≠ 0 then p.getD (E / 8) 0 &&& lastByteNegMask E else 0) =
      p.getD (E / 8) 0 &&& lastByteNegMask E := by
    split_ifs with h
    · rfl
    · rw [not_not.mp h, UInt8.and_zero]
  have hmasked := byteCount_first p S
  have hmasked' := byteCount_last p E
  simp only [bitcountBytes, redisPopcount_eq, hslice, hsplit, hfirst, hlast]
  split_ifs with hmask
  · rw [bytesCount_cons, bytesCount_cons, bytesCount_nil, hmasked, hmasked']
    omega
  · obtain ⟨hzero, hzero'⟩ := not_or.mp hmask
    rw [not_not.mp hzero, UInt8.and_zero] at hmasked
    rw [not_not.mp hzero', UInt8.and_zero] at hmasked'
    rw [← hmasked, ← hmasked']
    simp [byteCount, count]

/-- The positions BITCOUNT is to look at. -/
def BitposRange.counted (len : Nat) (range : BitposRange) : Set Nat :=
  if range.inverted then ∅ else range.positions len

theorem positions_zero (range : BitposRange) : range.positions 0 = ∅ := by
  refine Set.eq_empty_iff_forall_notMem.mpr fun i hi => ?_
  cases range with
  | whole => exact Nat.not_lt_zero i hi
  | tail start => exact Nat.not_lt_zero i hi.2
  | within start stop isbit =>
      cases isbit with
      | false => exact Nat.not_lt_zero i hi.2.2
      | true => exact Nat.not_lt_zero i hi.2.2

/-- Nothing of the empty string is counted. -/
theorem bitposBounds_zero (range : BitposRange) :
    (bitposBounds (0 : Nat) range).stop < (bitposBounds (0 : Nat) range).start := by
  have hclamp : ∀ start stop isbit, (bitposClamp start stop isbit (0 : Nat)).stop <
      (bitposClamp start stop isbit (0 : Nat)).start := by
    intro start stop isbit
    have htotlen : (if isbit = true then 8 * ((0 : Nat) : Int) else (0 : Nat)) = 0 := by
      cases isbit <;> rfl
    have hlo := clampIndex_nonneg 0 start
    have hhi := Int.min_le_right (clampIndex 0 stop) (0 - 1)
    rw [bitposClamp_eq, htotlen, if_neg fun h => by omega]
    show min (clampIndex 0 stop) (0 - 1) < clampIndex 0 start
    omega
  cases range with
  | whole => decide
  | tail start => exact hclamp start (-1) false
  | within start stop isbit => exact hclamp start stop isbit

/-- BITCOUNT of a string. -/
theorem bitcount_eq (usePopcnt : Bool) (mem : BitposMemory) (range : BitposRange) (p : Bytes) :
    bitcount usePopcnt mem range p = ({i ∈ range.counted p.length | getbit p i = 1}.ncard : Nat) := by
  rw [bitcount, BitposRange.counted]
  cases hinv : range.inverted with
  | true => simp
  | false =>
      simp only [Bool.false_eq_true, if_false]
      rcases Nat.eq_zero_or_pos p.length with hlen | hlen
      · have hlt := bitposBounds_zero range
        rw [hlen, if_pos hlt, positions_zero]
        simp
      · rcases bitposBounds_selects hlen range with ⟨hlt, hempty⟩ | ⟨S, E, h⟩
        · rw [if_pos hlt, hempty]
          simp
        · have hle := h.le
          rw [h.start, h.stop, h.first, h.last, if_neg (by omega), Int.toNat_natCast, Int.toNat_natCast,
            bitcountBytes_eq usePopcnt mem h.le h.lt, count_eq_ncard, h.positions]
          congr 2
          ext i
          have hone : getbit p i = 1 ↔ bitAt p i = true := @getbit_eq_toNat_iff p i true
          simp only [Set.mem_ofPred_eq, hone, ← and_assoc]
          refine and_congr_left fun _ => ?_
          omega

section Command

variable [LuaCoercion ν]

/-- **BITCOUNT** answers with the number of positions in the range whose GETBIT
is 1, whatever the processor and wherever the bytes are, and changes nothing. -/
theorem bitcount_counts (usePopcnt : Bool) (mem : BitposMemory) {args : List (LuaValue ν)} {id : Nat}
    {range : BitposRange} (hid : rlCheck args 1 .bitmap = .ok id)
    (hrange : bitcountRange (args.drop 1) = .ok range) (s : Handles Bytes) :
    exec (lbitmapBitcount usePopcnt mem args) s =
      (.ok (.int ({i ∈ range.counted (s id).length | getbit (s id) i = 1}.ncard : Nat)), s) := by
  rw [lbitmapBitcount, exec_check_bind, hid]
  show exec (check (bitcountRange (args.drop 1)) >>= _) s = _
  rw [exec_check_bind, hrange]
  show (Except.ok (Reply.int (bitcount usePopcnt mem range (s id))), s) = _
  rw [bitcount_eq]

end Command

/-- Bits of two bytes, some of both. -/
def bitcountArgs : List (LuaValue IntegralDouble) :=
  [.handle .bitmap 0, .number (.fin 6), .number (.fin (-3)), .string (ascii "BIT")]

theorem bitcount_counts_sample :
    exec (lbitmapBitcount true ⟨1, 4⟩ bitcountArgs) (fun _ => [255, 255]) =
      (.ok (.int ({i ∈ (BitposRange.within 6 (-3) true).counted 2 | getbit [255, 255] i = 1}.ncard : Nat)),
        fun _ => [255, 255]) :=
  bitcount_counts true ⟨1, 4⟩ (show rlCheck bitcountArgs 1 .bitmap = .ok 0 from rfl)
    (show bitcountRange (bitcountArgs.drop 1) = .ok (.within 6 (-3) true) from rfl) (fun _ => [255, 255])

end SkynetJit.Redis
