import Mathlib.Data.Nat.Bitwise
import Mathlib.Tactic.Ring
import SkynetJit.Lib.BitArray

/-!
# SkynetJit.Lib.Words

Machine words in a byte string.

A word of `w` bytes is the number its bytes stand for, the least significant
byte first; `bits` numbers the bits of a byte string in that order.  Code that
works on a few words at a time works on these bits one by one
(`bits_wordLoop`), so it does not matter how many bytes a word has.
-/

namespace SkynetJit

namespace Words

/-- The bits of a byte string, the least significant bit of a byte first. -/
def bits (s : Bytes) : BitArray := fun n => (s.getD (n / 8) 0).toNat.testBit (n % 8)

/-- The other order of the bits in a byte. -/
theorem bitAt_eq_bits (s : Bytes) (i : Nat) : bitAt s i = bits s (8 * (i / 8) + (7 - i % 8)) := by
  rw [bitAt, bits, show (8 * (i / 8) + (7 - i % 8)) / 8 = i / 8 by omega,
    show (8 * (i / 8) + (7 - i % 8)) % 8 = 7 - i % 8 by omega]

theorem bits_eq_false {s : Bytes} {n : Nat} (h : 8 * s.length ≤ n) : bits s n = false := by
  rw [bits, List.getD_eq_getElem?_getD, List.getElem?_eq_none (by omega)]
  simp

theorem bits_append (s t : Bytes) (n : Nat) :
    bits (s ++ t) n = if n < 8 * s.length then bits s n else bits t (n - 8 * s.length) := by
  rw [bits, List.getD_eq_getElem?_getD]
  split_ifs with h
  · rw [List.getElem?_append_left (by omega), bits, List.getD_eq_getElem?_getD]
  · rw [List.getElem?_append_right (by omega), bits, List.getD_eq_getElem?_getD,
      show (n - 8 * s.length) / 8 = n / 8 - s.length by omega, show (n - 8 * s.length) % 8 = n % 8 by omega]

theorem bits_drop (s : Bytes) (k n : Nat) : bits (s.drop k) n = bits s (8 * k + n) := by
  rw [bits, bits, List.getD_eq_getElem?_getD, List.getD_eq_getElem?_getD, List.getElem?_drop,
    Nat.mul_add_div (by decide), Nat.mul_add_mod]

theorem bits_take {s : Bytes} {k n : Nat} (h : n < 8 * k) : bits (s.take k) n = bits s n := by
  rw [bits, bits, List.getD_eq_getElem?_getD, List.getD_eq_getElem?_getD,
    List.getElem?_take_of_lt (by omega)]

theorem bits_take_of_le {s : Bytes} {k n : Nat} (h : 8 * k ≤ n) : bits (s.take k) n = false :=
  bits_eq_false (Nat.le_trans (Nat.mul_le_mul_left 8 (List.length_take_le k s)) h)

/-- The bits of a number are those of its bytes. -/
theorem testBit_leNat (s : Bytes) (n : Nat) : (leNat s).testBit n = bits s n := by
  induction s generalizing n with
  | nil => simp [leNat, bits]
  | cons b s ih =>
      have hb := b.toNat_lt
      have hsplit : leNat (b :: s) = 2 ^ 8 * leNat s + b.toNat := by
        rw [leNat]
        omega
      rw [hsplit, Nat.testBit_two_pow_mul_add _ hb]
      split_ifs with hn
      · rw [bits, Nat.div_eq_of_lt hn, Nat.mod_eq_of_lt hn]
        rfl
      · rw [ih, bits, bits, show n / 8 = (n - 8) / 8 + 1 by omega, show n % 8 = (n - 8) % 8 by omega]
        rfl

/-- The bits decide the bytes. -/
theorem ext_bits {s t : Bytes} (hlen : s.length = t.length) (h : ∀ n, n < 8 * s.length → bits s n = bits t n) :
    s = t := by
  have hnat : leNat s = leNat t := by
    refine Nat.eq_of_testBit_eq fun n => ?_
    rw [testBit_leNat, testBit_leNat]
    by_cases hn : n < 8 * s.length
    · exact h n hn
    · rw [bits_eq_false (Nat.not_lt.mp hn), bits_eq_false (hlen ▸ Nat.not_lt.mp hn)]
  rw [← leBytes_leNat s, ← leBytes_leNat t, hnat, hlen]

/-- The bytes of a number have its bits. -/
theorem bits_leBytes {w v n : Nat} (h : n < 8 * w) : bits (leBytes w v) n = v.testBit n := by
  have hpow : 256 ^ w = 2 ^ (8 * w) := by
    rw [show 256 = 2 ^ 8 from rfl, ← Nat.pow_mul]
  rw [← testBit_leNat, leNat_leBytes, hpow, Nat.testBit_mod_two_pow, decide_eq_true h, Bool.true_and]

/-! ## Operations on bytes -/

theorem testBit_and_byte (a b : UInt8) (t : Nat) :
    (a &&& b).toNat.testBit t = (a.toNat.testBit t && b.toNat.testBit t) := by
  rw [UInt8.toNat_and, Nat.testBit_and]

theorem testBit_or_byte (a b : UInt8) (t : Nat) :
    (a ||| b).toNat.testBit t = (a.toNat.testBit t || b.toNat.testBit t) := by
  rw [UInt8.toNat_or, Nat.testBit_or]

theorem testBit_xor_byte (a b : UInt8) (t : Nat) :
    (a ^^^ b).toNat.testBit t = (Bool.xor (a.toNat.testBit t) (b.toNat.testBit t)) := by
  rw [UInt8.toNat_xor, Nat.testBit_xor]

theorem testBit_not_byte (a : UInt8) {t : Nat} (ht : t < 8) : (~~~a).toNat.testBit t = !a.toNat.testBit t := by
  have hnot : (~~~a.toBitVec).getLsbD t = !a.toBitVec.getLsbD t := by simp [ht]
  exact hnot

theorem testBit_zero_byte (t : Nat) : (0 : UInt8).toNat.testBit t = false := Nat.zero_testBit t

theorem testBit_ones_byte {t : Nat} (ht : t < 8) : (0xff : UInt8).toNat.testBit t = true := by
  have hones : (0xff : UInt8).toNat = 2 ^ 8 - 1 := rfl
  rw [hones, Nat.testBit_two_pow_sub_one, decide_eq_true ht]

/-! ## Several words -/

/-- The word at an index. -/
def load (w : Nat) (s : Bytes) (k : Nat) : Nat := leNat ((s.drop (w * k)).take w)

/-- `c` words from an index on. -/
def loads (w c : Nat) (s : Bytes) (k : Nat) : List Nat := (List.range c).map fun q => load w s (k + q)

/-- Write words from an index on. -/
def stores (w : Nat) (s : Bytes) (k : Nat) (ws : List Nat) : Bytes :=
  s.take (w * k) ++ ws.flatMap (leBytes w) ++ s.drop (w * k + w * ws.length)

/-- The bits of words that follow one another. -/
def wordsBit (w : Nat) (ws : List Nat) (n : Nat) : Bool := (ws.getD (n / (8 * w)) 0).testBit (n % (8 * w))

theorem testBit_load {w n : Nat} (s : Bytes) (k : Nat) (h : n < 8 * w) :
    (load w s k).testBit n = bits s (8 * w * k + n) := by
  rw [load, testBit_leNat, bits_take h, bits_drop, Nat.mul_assoc]

theorem wordsBit_loads {w c n : Nat} (s : Bytes) (k : Nat) (h : n < 8 * w * c) :
    wordsBit w (loads w c s k) n = bits s (8 * w * k + n) := by
  have hw : 0 < 8 * w := Nat.pos_of_ne_zero fun h0 => by simp [h0] at h
  have hq : n / (8 * w) < c := Nat.div_lt_of_lt_mul h
  rw [wordsBit, loads, List.getD_eq_getElem?_getD, List.getElem?_map, List.getElem?_range hq, Option.map_some,
    Option.getD_some, testBit_load s _ (Nat.mod_lt n hw), Nat.mul_add, Nat.add_assoc, Nat.div_add_mod]

@[simp] theorem length_loads (w c : Nat) (s : Bytes) (k : Nat) : (loads w c s k).length = c := by
  simp [loads]

theorem bits_flatMap_leBytes {w n : Nat} {ws : List Nat} (h : n < 8 * w * ws.length) :
    bits (ws.flatMap (leBytes w)) n = wordsBit w ws n := by
  induction ws generalizing n with
  | nil => simp at h
  | cons v ws ih =>
      have hw : 0 < 8 * w := Nat.pos_of_ne_zero fun h0 => by simp [h0] at h
      rw [List.flatMap_cons, bits_append, length_leBytes]
      split_ifs with hn
      · rw [bits_leBytes hn, wordsBit, Nat.div_eq_of_lt hn, Nat.mod_eq_of_lt hn]
        rfl
      · have hle : 8 * w ≤ n := Nat.not_lt.mp hn
        rw [ih (by rw [List.length_cons, Nat.mul_succ] at h; omega), wordsBit, wordsBit, Nat.div_eq_sub_div hw hle,
          Nat.mod_eq_sub_mod hle]
        rfl

theorem length_flatMap_leBytes (w : Nat) (ws : List Nat) : (ws.flatMap (leBytes w)).length = w * ws.length := by
  induction ws with
  | nil => simp
  | cons v ws ih =>
      rw [List.flatMap_cons, List.length_append, length_leBytes, ih, List.length_cons, Nat.mul_succ, Nat.add_comm]

theorem length_stores {w k : Nat} {s : Bytes} {ws : List Nat} (h : w * k + w * ws.length ≤ s.length) :
    (stores w s k ws).length = s.length := by
  rw [stores, List.length_append, List.length_append, List.length_take, length_flatMap_leBytes, List.length_drop]
  omega

/-- Writing words changes their bits. -/
theorem bits_stores {w k : Nat} {s : Bytes} {ws : List Nat} (h : w * k + w * ws.length ≤ s.length) (n : Nat) :
    bits (stores w s k ws) n =
      if 8 * w * k ≤ n ∧ n < 8 * w * k + 8 * w * ws.length then wordsBit w ws (n - 8 * w * k) else bits s n := by
  have hk : 8 * (s.take (w * k)).length = 8 * w * k := by
    rw [List.length_take, Nat.min_eq_left (by omega), Nat.mul_assoc]
  have hws : 8 * (ws.flatMap (leBytes w)).length = 8 * w * ws.length := by
    rw [length_flatMap_leBytes, Nat.mul_assoc]
  rw [stores, bits_append, bits_append, List.length_append, Nat.mul_add, hk, hws]
  by_cases hlow : n < 8 * w * k
  · rw [if_pos (by omega), if_pos hlow, if_neg (by omega), bits_take (by rw [← Nat.mul_assoc]; exact hlow)]
  · by_cases hhigh : n < 8 * w * k + 8 * w * ws.length
    · rw [if_pos hhigh, if_neg hlow, if_pos ⟨Nat.not_lt.mp hlow, hhigh⟩, bits_flatMap_leBytes (by omega)]
    · rw [if_neg hhigh, if_neg fun h' => hhigh h'.2, bits_drop]
      congr 1
      rw [Nat.mul_add, ← Nat.mul_assoc, ← Nat.mul_assoc]
      omega

/-! ## Operations on words -/

/-- An operation on words that works on the bits one by one. -/
def Bitwise (w : Nat) (f : Nat → Nat → Nat) (g : Bool → Bool → Bool) : Prop :=
  ∀ x y n, n < 8 * w → (f x y).testBit n = g (x.testBit n) (y.testBit n)

/-- `~`. -/
def complement (w x : Nat) : Nat := x ^^^ (2 ^ (8 * w) - 1)

theorem testBit_complement {w n : Nat} (x : Nat) (h : n < 8 * w) : (complement w x).testBit n = !x.testBit n := by
  rw [complement, Nat.testBit_xor, Nat.testBit_two_pow_sub_one, decide_eq_true h, Bool.xor_true]

theorem bitwise_and (w : Nat) : Bitwise w (· &&& ·) (· && ·) := fun x y n _ => Nat.testBit_and x y n

theorem bitwise_or (w : Nat) : Bitwise w (· ||| ·) (· || ·) := fun x y n _ => Nat.testBit_or x y n

theorem bitwise_xor (w : Nat) : Bitwise w (· ^^^ ·) xor := fun x y n _ => Nat.testBit_xor x y n

theorem wordsBit_zipWith {w c n : Nat} {f : Nat → Nat → Nat} {g : Bool → Bool → Bool} (hf : Bitwise w f g)
    {xs ys : List Nat} (hx : xs.length = c) (hy : ys.length = c) (h : n < 8 * w * c) :
    wordsBit w (List.zipWith f xs ys) n = g (wordsBit w xs n) (wordsBit w ys n) := by
  have hw : 0 < 8 * w := Nat.pos_of_ne_zero fun h0 => by simp [h0] at h
  have hq : n / (8 * w) < c := Nat.div_lt_of_lt_mul h
  have hxs : n / (8 * w) < xs.length := hx.symm ▸ hq
  have hys : n / (8 * w) < ys.length := hy.symm ▸ hq
  simp only [wordsBit, List.getD_eq_getElem?_getD, List.getElem?_zipWith, List.getElem?_eq_getElem hxs,
    List.getElem?_eq_getElem hys, Option.getD_some]
  exact hf _ _ _ (Nat.mod_lt n hw)

theorem wordsBit_map_complement {w c n : Nat} {xs : List Nat} (hx : xs.length = c) (h : n < 8 * w * c) :
    wordsBit w (xs.map (complement w)) n = !wordsBit w xs n := by
  have hw : 0 < 8 * w := Nat.pos_of_ne_zero fun h0 => by simp [h0] at h
  have hxs : n / (8 * w) < xs.length := hx.symm ▸ Nat.div_lt_of_lt_mul h
  simp only [wordsBit, List.getD_eq_getElem?_getD, List.getElem?_map, List.getElem?_eq_getElem hxs,
    Option.map_some, Option.getD_some]
  exact testBit_complement _ (Nat.mod_lt n hw)

/-- One list of words after the other. -/
theorem wordsBit_foldl_zipWith {w c : Nat} {f : Nat → Nat → Nat} {g : Bool → Bool → Bool} (hf : Bitwise w f g)
    {lp : List (List Nat)} (hlp : ∀ ws ∈ lp, ws.length = c) {xs : List Nat} (hx : xs.length = c) :
    (lp.foldl (List.zipWith f) xs).length = c ∧ ∀ n, n < 8 * w * c →
      wordsBit w (lp.foldl (List.zipWith f) xs) n =
        (lp.map fun ws => wordsBit w ws n).foldl g (wordsBit w xs n) := by
  induction lp generalizing xs with
  | nil => exact ⟨hx, fun n _ => rfl⟩
  | cons ws lp ih =>
      have hws := hlp ws List.mem_cons_self
      have hzip : (List.zipWith f xs ws).length = c := by rw [List.length_zipWith, hx, hws, Nat.min_self]
      obtain ⟨hlen, hbits⟩ := ih (fun ws' h => hlp ws' (List.mem_cons_of_mem ws h)) hzip
      refine ⟨hlen, fun n hn => ?_⟩
      rw [List.foldl_cons, hbits n hn, wordsBit_zipWith hf hx hws hn, List.map_cons, List.foldl_cons]

/-- Read `c` words, work on them and write them, block after block. -/
def wordLoop (w c : Nat) (body : Nat → List Nat → List Nat) (blocks : Nat) (s : Bytes) : Bytes :=
  (List.range blocks).foldl (fun s b => stores w s (c * b) (body (c * b) (loads w c s (c * b)))) s

/-- What a loop leaves: its blocks done, the rest as it was. -/
structure LoopSpec (w c : Nat) (h : Nat → Bool → Bool) (blocks : Nat) (s s' : Bytes) : Prop where
  length : s'.length = s.length
  bits : ∀ n, bits s' n = if n < 8 * w * c * blocks then h n (bits s n) else bits s n

/-- **A loop over words** works on the bits one by one, if its body does. -/
theorem wordLoop_spec {w c : Nat} {body : Nat → List Nat → List Nat} {h : Nat → Bool → Bool}
    (hlen : ∀ k ws, ws.length = c → (body k ws).length = c)
    (hbody : ∀ k ws n, ws.length = c → n < 8 * w * c →
      wordsBit w (body k ws) n = h (8 * w * k + n) (wordsBit w ws n))
    {s : Bytes} (blocks : Nat) (hfit : w * c * blocks ≤ s.length) :
    LoopSpec w c h blocks s (wordLoop w c body blocks s) := by
  induction blocks with
  | zero => exact ⟨rfl, fun n => by simp [wordLoop]⟩
  | succ b ih =>
      have hprev := ih (Nat.le_trans (Nat.mul_le_mul_left _ (Nat.le_succ b)) hfit)
      have hloop : wordLoop w c body (b + 1) s =
          stores w (wordLoop w c body b s) (c * b) (body (c * b) (loads w c (wordLoop w c body b s) (c * b))) := by
        rw [wordLoop, List.range_succ, List.foldl_append]
        rfl
      have hws := hlen (c * b) _ (length_loads w c (wordLoop w c body b s) (c * b))
      have hroom : w * (c * b) + w * (body (c * b) (loads w c (wordLoop w c body b s) (c * b))).length ≤
          (wordLoop w c body b s).length := by
        rw [hws, hprev.length]
        calc w * (c * b) + w * c = w * c * (b + 1) := by ring
          _ ≤ s.length := hfit
      rw [hloop]
      refine ⟨(length_stores hroom).trans hprev.length, fun n => ?_⟩
      have hstart : 8 * w * (c * b) = 8 * w * c * b := by ring
      rw [bits_stores hroom, hws, hstart, Nat.mul_succ]
      by_cases hlow : 8 * w * c * b ≤ n
      · by_cases hhigh : n < 8 * w * c * b + 8 * w * c
        · have hn : n - 8 * w * c * b < 8 * w * c := by omega
          rw [if_pos ⟨hlow, hhigh⟩, if_pos hhigh, hbody _ _ _ (length_loads _ _ _ _) hn, wordsBit_loads _ _ hn,
            hstart, Nat.add_sub_cancel' hlow, hprev.bits, if_neg (Nat.not_lt.mpr hlow)]
        · rw [if_neg fun h' => hhigh h'.2, if_neg hhigh, hprev.bits, if_neg (Nat.not_lt.mpr hlow)]
      · rw [if_neg fun h' => hlow h'.1, if_pos (by omega), hprev.bits, if_pos (Nat.not_le.mp hlow)]

end Words

end SkynetJit
