import Mathlib.Data.Set.Card
import SkynetJit.Lib.Words

/-!
# SkynetJit.Lib.Popcount

Population counts.

The ones of a byte string can be counted byte after byte, by words, or with
several counts in one word: a word is cut into bytes, every step works on the
bytes one by one (`pairs_lanes`, `fours_lanes`, `eights_lanes`), and one
multiplication adds them.

Nothing here depends on the commands of this development.
-/

namespace SkynetJit

namespace BitArray

/-- The number of ones among the `n` positions from `lo` on. -/
def count (f : BitArray) (lo n : Nat) : Nat := (List.range' lo n).countP f

variable {f g : BitArray} {lo m n : Nat}

/-- One stretch after the other. -/
theorem count_add : f.count lo (m + n) = f.count lo m + f.count (lo + m) n := by
  rw [count, ← List.range'_append_1, List.countP_append]
  rfl

theorem count_congr (h : ∀ i, lo ≤ i → i < lo + n → f i = g i) : f.count lo n = g.count lo n :=
  List.countP_congr fun i hi => by rw [h i (List.mem_range'_1.mp hi).1 (List.mem_range'_1.mp hi).2]

theorem count_eq_zero (h : ∀ i, lo ≤ i → i < lo + n → f i = false) : f.count lo n = 0 :=
  List.countP_eq_zero.mpr fun i hi => by rw [h i (List.mem_range'_1.mp hi).1 (List.mem_range'_1.mp hi).2]; nofun

/-- Counts of shifted arrays. -/
theorem count_shift (f : BitArray) (k lo n : Nat) : count (fun i => f (k + i)) lo n = f.count (k + lo) n := by
  rw [count, count, ← List.map_add_range', List.countP_map]
  rfl

/-- A window of one array in another. -/
theorem count_window {k : Nat} (hle : lo + n ≤ m)
    (h : ∀ i, i < m → f i = (g (k + i) && decide (lo ≤ i ∧ i < lo + n))) : f.count 0 m = g.count (k + lo) n := by
  have hbefore : f.count 0 lo = 0 :=
    count_eq_zero fun i _ hi => by rw [h i (by omega), decide_eq_false (by omega), Bool.and_false]
  have hafter : f.count (lo + n) (m - (lo + n)) = 0 :=
    count_eq_zero fun i hi hi' => by rw [h i (by omega), decide_eq_false (by omega), Bool.and_false]
  have hinside : f.count lo n = g.count (k + lo) n := by
    rw [← count_shift g k]
    exact count_congr fun i hi hi' => by rw [h i (by omega), decide_eq_true ⟨hi, hi'⟩, Bool.and_true]
  rw [← Nat.add_sub_of_le hle, count_add, count_add, Nat.zero_add, Nat.zero_add, hbefore, hafter, hinside,
    Nat.zero_add, Nat.add_zero]

/-- The count as the size of a set. -/
theorem count_eq_ncard (f : BitArray) (lo n : Nat) :
    f.count lo n = {i | lo ≤ i ∧ i < lo + n ∧ f i = true}.ncard := by
  have hset : {i | lo ≤ i ∧ i < lo + n ∧ f i = true} = (((List.range' lo n).filter f).toFinset : Set Nat) := by
    ext i
    simp [and_assoc]
  rw [hset, Set.ncard_coe_finset, List.toFinset_card_of_nodup ((List.nodup_range' 1).filter _),
    ← List.countP_eq_length_filter, count]

end BitArray

namespace Popcount

open BitArray Words

/-! ## Bytes and words -/

/-- The ones of a byte. -/
def byteCount (b : UInt8) : Nat := count (b.toNat.testBit ·) 0 8

/-- The ones of a byte string. -/
def bytesCount (s : Bytes) : Nat := (s.map byteCount).sum

@[simp] theorem bytesCount_nil : bytesCount [] = 0 := rfl

@[simp] theorem bytesCount_cons (b : UInt8) (s : Bytes) : bytesCount (b :: s) = byteCount b + bytesCount s := by
  rw [bytesCount, List.map_cons, List.sum_cons, bytesCount]

/-- Some bytes and those after them. -/
theorem bytesCount_take_add_drop (k : Nat) (s : Bytes) :
    bytesCount (s.take k) + bytesCount (s.drop k) = bytesCount s := by
  rw [bytesCount, bytesCount, ← List.sum_append, ← List.map_append, List.take_append_drop, bytesCount]

/-- The top bit first or last, the ones of a byte are as many. -/
theorem byteCount_eq (b : UInt8) : byteCount b = count (fun i => b.toNat.testBit (7 - i)) 0 8 := by
  simp only [byteCount, count, List.range'_eq_map_range, List.range, List.range.loop, List.map_cons, List.map_nil,
    List.countP_cons, List.countP_nil, Nat.zero_add, Nat.reduceSub]
  omega

/-- The ones of a byte string are those of its bits. -/
theorem bytesCount_eq (s : Bytes) : bytesCount s = count (bitAt s) 0 (8 * s.length) := by
  induction s with
  | nil => rfl
  | cons b s ih =>
      have hfirst : byteCount b = count (bitAt (b :: s)) 0 8 := by
        rw [byteCount_eq]
        refine count_congr fun i _ hi => ?_
        rw [bitAt, Nat.div_eq_of_lt (by omega), Nat.mod_eq_of_lt (by omega)]
        rfl
      have hrest : count (bitAt s) 0 (8 * s.length) = count (bitAt (b :: s)) 8 (8 * s.length) := by
        rw [← count_shift (bitAt (b :: s)) 8 0]
        refine count_congr fun i _ _ => ?_
        rw [Nat.add_comm, ← bitAt_drop (b :: s) 1 i]
        rfl
      rw [bytesCount_cons, ih, hfirst, hrest, List.length_cons, Nat.mul_succ, Nat.add_comm (8 * s.length),
        count_add]

/-- The ones of a number are those of its bytes. -/
theorem count_leNat (s : Bytes) : count (leNat s).testBit 0 (8 * s.length) = bytesCount s := by
  induction s with
  | nil => rfl
  | cons b s ih =>
      have hfirst : count (leNat (b :: s)).testBit 0 8 = byteCount b := by
        refine count_congr fun i _ hi => ?_
        rw [testBit_leNat, bits, Nat.div_eq_of_lt (by omega), Nat.mod_eq_of_lt (by omega)]
        rfl
      have hrest : count (leNat (b :: s)).testBit 8 (8 * s.length) = bytesCount s := by
        rw [← ih, ← count_shift _ 8 0]
        refine count_congr fun i _ _ => ?_
        rw [testBit_leNat, testBit_leNat, ← bits_drop (b :: s) 1 i]
        rfl
      rw [List.length_cons, Nat.mul_succ, Nat.add_comm (8 * s.length), count_add, hfirst, hrest, bytesCount_cons]

/-- The ones of a word. -/
theorem count_load {w : Nat} {s : Bytes} {k : Nat} (h : w * k + w ≤ s.length) :
    count (load w s k).testBit 0 (8 * w) = bytesCount ((s.drop (w * k)).take w) := by
  have hlen : ((s.drop (w * k)).take w).length = w := by
    rw [List.length_take, List.length_drop]
    omega
  rw [← count_leNat, hlen, load]

/-- Words that follow one another. -/
theorem sum_count_loads {w c : Nat} {s : Bytes} (h : w * c ≤ s.length) :
    ((List.range c).map fun k => bytesCount ((s.drop (w * k)).take w)).sum = bytesCount (s.take (w * c)) := by
  induction c with
  | zero => simp
  | succ c ih =>
      rw [Nat.mul_succ] at h ⊢
      rw [List.range_succ, List.map_append, List.sum_append, ih (by omega), List.map_singleton, List.sum_singleton,
        ← bytesCount_take_add_drop (w * c) (s.take (w * c + w)), List.take_take, Nat.min_eq_left (by omega),
        List.drop_take, Nat.add_sub_cancel_left]

/-! ## Several counts in one word -/

/-- The number with these bytes, the least significant one first. -/
def lanes : List Nat → Nat
  | [] => 0
  | b :: l => b + 256 * lanes l

theorem lanes_cons (b : Nat) (l : List Nat) : lanes (b :: l) = b + 256 * lanes l := rfl

/-- One byte in every lane. -/
def rep (w m : Nat) : Nat := lanes (List.replicate w m)

theorem rep_succ (w m : Nat) : rep (w + 1) m = m + 256 * rep w m := rfl

theorem leNat_eq_lanes (s : Bytes) : leNat s = lanes (s.map UInt8.toNat) := by
  induction s with
  | nil => rfl
  | cons b s ih => rw [leNat, List.map_cons, lanes, ih]

/-- A mask works on the low bits and on the others. -/
theorem and_split {k a m : Nat} (b n : Nat) (ha : a < 2 ^ k) (hm : m < 2 ^ k) :
    (a + 2 ^ k * b) &&& (m + 2 ^ k * n) = (a &&& m) + 2 ^ k * (b &&& n) := by
  have hlow : ((a + 2 ^ k * b) &&& (m + 2 ^ k * n)) % 2 ^ k = a &&& m := by
    rw [Nat.and_mod_two_pow, Nat.add_mul_mod_self_left, Nat.add_mul_mod_self_left, Nat.mod_eq_of_lt ha,
      Nat.mod_eq_of_lt hm]
  have hhigh : ((a + 2 ^ k * b) &&& (m + 2 ^ k * n)) / 2 ^ k = b &&& n := by
    rw [Nat.and_div_two_pow, Nat.add_mul_div_left _ _ (Nat.two_pow_pos k),
      Nat.add_mul_div_left _ _ (Nat.two_pow_pos k), Nat.div_eq_of_lt ha, Nat.div_eq_of_lt hm, Nat.zero_add,
      Nat.zero_add]
  rw [← hlow, ← hhigh, Nat.mod_add_div]

/-- A mask works on the lanes of a shifted word, if it leaves out the bits that
come from the next lane. -/
theorem and_lane {k b m : Nat} (r n : Nat) (hk : k ≤ 8) (hb : b < 2 ^ 8) (hm : m < 2 ^ (8 - k)) :
    (b + 256 * r) / 2 ^ k &&& (m + 256 * n) = (b / 2 ^ k &&& m) + 256 * (r / 2 ^ k &&& n) := by
  have hpow : 2 ^ k * 2 ^ (8 - k) = 256 := by rw [← Nat.pow_add, Nat.add_sub_of_le hk]
  have hpow' : 2 ^ (8 - k) * 2 ^ k = 256 := by rw [Nat.mul_comm, hpow]
  have hb' : b / 2 ^ k < 2 ^ (8 - k) := Nat.div_lt_of_lt_mul (by rw [hpow]; exact hb)
  have hshift : (b + 256 * r) / 2 ^ k = b / 2 ^ k + 2 ^ (8 - k) * r := by
    rw [← hpow, Nat.mul_assoc, Nat.add_mul_div_left _ _ (Nat.two_pow_pos k)]
  have hr : r &&& 2 ^ k * n = 2 ^ k * (r / 2 ^ k &&& n) := by
    have hsplit := and_split (k := k) (r / 2 ^ k) n (Nat.mod_lt r (Nat.two_pow_pos k)) (Nat.two_pow_pos k)
    rwa [Nat.mod_add_div, Nat.zero_add, Nat.and_zero, Nat.zero_add] at hsplit
  calc (b + 256 * r) / 2 ^ k &&& (m + 256 * n)
      = (b / 2 ^ k + 2 ^ (8 - k) * r) &&& (m + 2 ^ (8 - k) * (2 ^ k * n)) := by
        rw [hshift, ← Nat.mul_assoc, hpow']
    _ = (b / 2 ^ k &&& m) + 2 ^ (8 - k) * (2 ^ k * (r / 2 ^ k &&& n)) := by rw [and_split _ _ hb' hm, hr]
    _ = _ := by rw [← Nat.mul_assoc, hpow']

/-- The ones of every two bits. -/
def pairs (mask x : Nat) : Nat := x - (x / 2 &&& mask)

/-- The sums of every two pairs. -/
def fours (mask x : Nat) : Nat := (x &&& mask) + (x / 4 &&& mask)

/-- The sums of every two fours. -/
def eights (mask x : Nat) : Nat := (x + x / 16) &&& mask

theorem pairs_lanes {l : List Nat} (hl : ∀ b ∈ l, b < 2 ^ 8) :
    pairs (rep l.length 0x55) (lanes l) = lanes (l.map (pairs 0x55)) := by
  induction l with
  | nil => rfl
  | cons b l ih =>
      have hb := hl b List.mem_cons_self
      have ih := ih fun c hc => hl c (List.mem_cons_of_mem b hc)
      have hlane : (b + 256 * lanes l) / 2 &&& (0x55 + 256 * rep l.length 0x55) =
          (b / 2 &&& 0x55) + 256 * (lanes l / 2 &&& rep l.length 0x55) :=
        and_lane (k := 1) _ _ (by decide) hb (by decide)
      have hle : b / 2 &&& 0x55 ≤ b / 2 := Nat.and_le_left
      have hle' : lanes l / 2 &&& rep l.length 0x55 ≤ lanes l / 2 := Nat.and_le_left
      rw [List.map_cons, lanes_cons, lanes_cons, List.length_cons, rep_succ, ← ih, pairs, pairs, pairs]
      omega

theorem fours_lanes {l : List Nat} (hl : ∀ b ∈ l, b < 2 ^ 8) :
    fours (rep l.length 0x33) (lanes l) = lanes (l.map (fours 0x33)) := by
  induction l with
  | nil => rfl
  | cons b l ih =>
      have hb := hl b List.mem_cons_self
      have ih := ih fun c hc => hl c (List.mem_cons_of_mem b hc)
      have hlane : (b + 256 * lanes l) / 4 &&& (0x33 + 256 * rep l.length 0x33) =
          (b / 4 &&& 0x33) + 256 * (lanes l / 4 &&& rep l.length 0x33) :=
        and_lane (k := 2) _ _ (by decide) hb (by decide)
      have hlane' := and_lane (k := 0) (m := 0x33) (lanes l) (rep l.length 0x33) (by decide) hb (by decide)
      simp only [Nat.pow_zero, Nat.div_one] at hlane'
      rw [List.map_cons, lanes_cons, lanes_cons, List.length_cons, rep_succ, ← ih, fours, fours, fours]
      omega

/-- A byte that holds two counts of four bits each. -/
def Fours (b : Nat) : Prop := b / 16 ≤ 4 ∧ b % 16 ≤ 4

theorem eights_lanes {l : List Nat} (hl : ∀ b ∈ l, Fours b) :
    eights (rep l.length 0x0F) (lanes l) = lanes (l.map (eights 0x0F)) := by
  induction l with
  | nil => rfl
  | cons b l ih =>
      obtain ⟨hhigh, hlow⟩ := hl b List.mem_cons_self
      have hl' : ∀ c ∈ l, Fours c := fun c hc => hl c (List.mem_cons_of_mem b hc)
      have hnext : lanes l % 16 ≤ 4 := by
        cases l with
        | nil => exact Nat.zero_le 4
        | cons c l =>
            have := (hl' c List.mem_cons_self).2
            rw [lanes]
            omega
      -- what comes from the next lane does not carry, and the mask leaves it out
      have hsum : b + 256 * lanes l + (b + 256 * lanes l) / 16 =
          b + b / 16 + 16 * (lanes l % 16) + 256 * (lanes l + lanes l / 16) := by omega
      have hlane := and_lane (k := 0) (m := 0x0F) (lanes l + lanes l / 16) (rep l.length 0x0F) (by decide)
        (show b + b / 16 + 16 * (lanes l % 16) < 2 ^ 8 by omega) (by decide)
      simp only [Nat.pow_zero, Nat.div_one] at hlane
      have hmask : b + b / 16 + 16 * (lanes l % 16) &&& 0x0F = b + b / 16 &&& 0x0F := by
        rw [show 0x0F = 2 ^ 4 - 1 from rfl, Nat.and_two_pow_sub_one_eq_mod, Nat.and_two_pow_sub_one_eq_mod]
        omega
      rw [List.map_cons, lanes_cons, lanes_cons, List.length_cons, rep_succ, ← ih hl', eights, eights, eights,
        hsum, hlane, hmask]

set_option maxRecDepth 4000 in
/-- The three steps on one byte. -/
theorem eights_fours_pairs : ∀ b < 256, Fours (fours 0x33 (pairs 0x55 b)) ∧ pairs 0x55 b < 2 ^ 8 ∧
    eights 0x0F (fours 0x33 (pairs 0x55 b)) = count b.testBit 0 8 := by
  unfold Fours
  decide

/-- **The three steps** on a word leave the ones of its bytes in its lanes. -/
theorem lanes_byteCount (s : Bytes) :
    eights (rep s.length 0x0F) (fours (rep s.length 0x33) (pairs (rep s.length 0x55) (leNat s))) =
      lanes (s.map byteCount) := by
  have hbyte : ∀ b ∈ s.map UInt8.toNat, b < 256 := by
    intro b hb
    obtain ⟨c, -, rfl⟩ := List.mem_map.mp hb
    exact c.toNat_lt
  have hpairs := pairs_lanes hbyte
  have hfours := fours_lanes (l := (s.map UInt8.toNat).map (pairs 0x55)) fun b hb => by
    obtain ⟨c, hc, rfl⟩ := List.mem_map.mp hb
    exact (eights_fours_pairs c (hbyte c hc)).2.1
  have heights := eights_lanes (l := ((s.map UInt8.toNat).map (pairs 0x55)).map (fours 0x33)) fun b hb => by
    obtain ⟨d, hd, rfl⟩ := List.mem_map.mp hb
    obtain ⟨c, hc, rfl⟩ := List.mem_map.mp hd
    exact (eights_fours_pairs c (hbyte c hc)).1
  simp only [List.length_map] at hpairs hfours heights
  rw [leNat_eq_lanes, hpairs, hfours, heights, List.map_map, List.map_map, List.map_map]
  refine congrArg lanes (List.map_congr_left fun b _ => ?_)
  exact (eights_fours_pairs b.toNat b.toNat_lt).2.2

/-- The multiplication that adds four lanes. -/
theorem mul_lanes {a b c d : Nat} (h : a + b + c + d < 256) :
    lanes [a, b, c, d] * 0x01010101 % 2 ^ 32 / 2 ^ 24 = a + b + c + d := by
  have hprod : lanes [a, b, c, d] * 0x01010101 = a + 256 * (a + b) + 65536 * (a + b + c) +
      2 ^ 24 * (a + b + c + d) + 2 ^ 32 * (b + c + d + 256 * (c + d) + 65536 * d) := by
    simp only [lanes]
    ring
  have hlow : a + 256 * (a + b) + 65536 * (a + b + c) < 2 ^ 24 := by omega
  rw [hprod, Nat.add_mul_mod_self_left, Nat.mod_eq_of_lt (by omega), Nat.add_mul_div_left _ _ (by decide),
    Nat.div_eq_of_lt hlow, Nat.zero_add]

theorem byteCount_le (b : UInt8) : byteCount b ≤ 8 := by
  have hle := List.countP_le_length (p := fun i => b.toNat.testBit i) (l := List.range' 0 8)
  rwa [List.length_range'] at hle

/-- The lanes of several words of four bytes, added. -/
theorem exists_lanes_sum (ts : List Bytes) (hts : ∀ t ∈ ts, t.length = 4) :
    ∃ a b c d, (ts.map fun t => lanes (t.map byteCount)).sum = lanes [a, b, c, d] ∧
      a + b + c + d = (ts.map bytesCount).sum ∧ a + b + c + d ≤ 32 * ts.length := by
  induction ts with
  | nil => exact ⟨0, 0, 0, 0, rfl, rfl, Nat.le_refl 0⟩
  | cons t ts ih =>
      obtain ⟨a, b, c, d, hsum, hcount, hle⟩ := ih fun t' h => hts t' (List.mem_cons_of_mem t h)
      obtain ⟨x, y, z, u, rfl⟩ := List.length_eq_four.mp (hts t List.mem_cons_self)
      refine ⟨byteCount x + a, byteCount y + b, byteCount z + c, byteCount u + d, ?_, ?_, ?_⟩
      · rw [List.map_cons, List.sum_cons, hsum]
        simp only [List.map_cons, List.map_nil, lanes]
        omega
      · rw [List.map_cons, List.sum_cons, ← hcount]
        simp only [bytesCount_cons, bytesCount_nil]
        omega
      · have hx := byteCount_le x
        have hy := byteCount_le y
        have hz := byteCount_le z
        have hu := byteCount_le u
        rw [List.length_cons]
        omega

/-- The ones of up to seven words by one multiplication. -/
theorem mul_lanes_sum {ts : List Bytes} (hts : ∀ t ∈ ts, t.length = 4) (hlen : ts.length ≤ 7) :
    (ts.map fun t => lanes (t.map byteCount)).sum * 0x01010101 % 2 ^ 32 / 2 ^ 24 = (ts.map bytesCount).sum := by
  obtain ⟨a, b, c, d, hsum, hcount, hle⟩ := exists_lanes_sum ts hts
  rw [hsum, mul_lanes (by omega), hcount]

end Popcount

end SkynetJit
