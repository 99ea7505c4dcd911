import Mathlib.Order.Bounds.Basic
import SkynetJit.Lib.Words
import SkynetJit.Redis.Bitmap.Bitfield

/-!
# SkynetJit.Redis.Bitmap.Bitpos

GETBIT and BITPOS (`facade/bitmap.c`, `kernel/bitops.c`).

`redisBitpos` goes over words that do not have the bit and then looks into one
word; a range of bits is a first byte, whole bytes and a last byte, with what is
outside of the range masked.  `bitpos_least` says that all of it is the least
position whose GETBIT is the bit asked for.
-/

namespace SkynetJit.Redis

open Raise Words BitArray

variable {ν : Type}

/-! ## `redisBitpos` -/

/-- Go over bytes up to an aligned one.  The flag is set where a byte has the
bit. -/
def skipBytes (w : Nat) (skipval : UInt8) : Nat → Bytes → Nat → Bool × Bytes × Nat
  | _, [], pos => (false, [], pos)
  | addr, c :: rest, pos =>
      if addr &&& (w - 1) = 0 then (false, c :: rest, pos)
      else if c ≠ skipval then (true, c :: rest, pos)
      else skipBytes w skipval (addr + 1) rest (pos + 8)

/-- Go over words, of which so many are whole. -/
def skipWords (w skipval : Nat) : Nat → Bytes → Nat → Bytes × Nat
  | 0, l, pos => (l, pos)
  | words + 1, l, pos =>
      if load w l 0 ≠ skipval then (l, pos) else skipWords w skipval words (l.drop w) (pos + w * 8)

/-- A word with the first byte as the most significant one, zero where the
bytes have ended. -/
def loadWord (c : Bytes) : Nat → Nat
  | 0 => 0
  | j + 1 => loadWord c j <<< 8 ||| (c.getD j 0).toNat

/-- Go over the bits of a word; there is no result if none of them is the one. -/
def scanWord (word : Nat) (bit : Bool) : Nat → Nat → Option Nat
  | 0, _ => none
  | n + 1, pos => if decide ((1 <<< n) &&& word ≠ 0) = bit then some pos else scanWord word bit n (pos + 1)

/-- `skipval` of a byte. -/
def skipvalByte (bit : Bool) : UInt8 := if bit then 0 else 0xff

/-- `skipval` of a word. -/
def skipvalWord (w : Nat) (bit : Bool) : Nat := if bit then 0 else 2 ^ (8 * w) - 1

/-- `redisBitpos` on the bytes at an address; no result is the panic at its end. -/
def redisBitpos (w addr : Nat) (s : Bytes) (bit : Bool) : Option Int :=
  let r := skipBytes w (skipvalByte bit) addr s 0
  let l := if r.1 then r.2 else skipWords w (skipvalWord w bit) (r.2.1.length / w) r.2.1 r.2.2
  let word := loadWord l.1 w
  if bit = true ∧ word = 0 then some (-1) else (scanWord word bit (8 * w) l.2).map Int.ofNat

/-! ## The commands -/

/-- The bit at an offset, as GETBIT has it. -/
def getbit (p : Bytes) (bitoffset : Nat) : Int :=
  let byte := bitoffset >>> 3
  let bitval := if byte < p.length then (p.getD byte 0).toNat &&& 1 <<< (7 - (bitoffset &&& 7)) else 0
  if bitval ≠ 0 then 1 else 0

/-- What BITPOS is told of the range: nothing, where it starts, or all of it. -/
inductive BitposRange where
  | whole
  | tail (start : Int)
  | within (start stop : Int) (isbit : Bool)
deriving DecidableEq, Repr

/-- `end_given`. -/
def BitposRange.endGiven : BitposRange → Bool
  | .within _ _ _ => true
  | _ => false

/-- `start`, `end` and the two masks. -/
structure BitposBounds where
  start : Int
  stop : Int
  first : UInt8 := 0
  last : UInt8 := 0

/-- `first_byte_neg_mask`. -/
def firstByteNegMask (start : Int) : UInt8 := ~~~(UInt8.ofNat (1 <<< (8 - (start % 8).toNat) - 1))

/-- `last_byte_neg_mask`. -/
def lastByteNegMask (stop : Int) : UInt8 := UInt8.ofNat (1 <<< (7 - (stop % 8).toNat) - 1)

/-- The range of bytes that is asked for, a negative index counted from the end. -/
def bitposClamp (start stop : Int) (isbit : Bool) (strlen : Int) : BitposBounds :=
  let totlen := if isbit then strlen <<< (3 : Nat) else strlen
  let start := if start < 0 then totlen + start else start
  let stop := if stop < 0 then totlen + stop else stop
  let start := if start < 0 then 0 else start
  let stop := if stop < 0 then 0 else stop
  let stop := if stop ≥ totlen then totlen - 1 else stop
  if isbit ∧ start ≤ stop then
    { start := start >>> (3 : Nat), stop := stop >>> (3 : Nat),
      first := firstByteNegMask start, last := lastByteNegMask stop }
  else { start, stop }

/-- The range of bytes. -/
def bitposBounds (strlen : Int) : BitposRange → BitposBounds
  | .whole => { start := 0, stop := strlen - 1 }
  | .tail start => bitposClamp start (-1) false strlen
  | .within start stop isbit => bitposClamp start stop isbit strlen

/-- What is masked does not have the bit. -/
def maskByte (bit : Bool) (b mask : UInt8) : UInt8 := if bit then b &&& ~~~mask else b ||| mask

/-- `result:`. -/
def bitposResult (endGiven bit : Bool) (start bytes : Nat) (pos : Int) : Int :=
  if endGiven = true ∧ bit = false ∧ pos = bytes <<< 3 then -1
  else if pos ≠ -1 then pos + start <<< 3 else pos

/-- Where the string is, and where `tmpchar` is. -/
structure BitposMemory where
  addr : Nat
  tmp : Nat

/-- The last byte. -/
def bitposLast (w : Nat) (mem : BitposMemory) (endGiven bit : Bool) (p : Bytes) (start stop bytes : Nat)
    (last : UInt8) : Option Int :=
  (redisBitpos w mem.tmp [maskByte bit (p.getD stop 0) last] bit).map (bitposResult endGiven bit start bytes)

/-- The whole bytes. -/
def bitposMiddle (w : Nat) (mem : BitposMemory) (endGiven bit : Bool) (p : Bytes) (start stop bytes : Nat)
    (last : UInt8) : Option Int :=
  let curbytes := bytes - if last ≠ 0 then 1 else 0
  if curbytes > 0 then do
    let pos ← redisBitpos w (mem.addr + start) ((p.drop start).take curbytes) bit
    if bytes = curbytes ∨ pos ≠ -1 ∧ pos ≠ curbytes <<< 3 then
      return bitposResult endGiven bit start bytes pos
    else bitposLast w mem endGiven bit p (start + curbytes) stop (bytes - curbytes) last
  else bitposLast w mem endGiven bit p start stop bytes last

/-- `tmpchar` at the first byte. -/
def bitposFirstByte (bit : Bool) (p : Bytes) (start bytes : Nat) (first last : UInt8) : UInt8 :=
  let tmpchar := maskByte bit (p.getD start 0) first
  if last ≠ 0 ∧ bytes = 1 then maskByte bit tmpchar last else tmpchar

/-- The scans. -/
def bitposScan (w : Nat) (mem : BitposMemory) (endGiven bit : Bool) (p : Bytes) (start stop : Nat)
    (first last : UInt8) : Option Int :=
  let bytes := stop - start + 1
  if first ≠ 0 then do
    let pos ← redisBitpos w mem.tmp [bitposFirstByte bit p start bytes first last] bit
    if bytes = 1 ∨ pos ≠ -1 ∧ pos ≠ 8 then return bitposResult endGiven bit start bytes pos
    else bitposMiddle w mem endGiven bit p (start + 1) stop (bytes - 1) last
  else bitposMiddle w mem endGiven bit p start stop bytes last

/-- What BITPOS answers for a string. -/
def bitpos (w : Nat) (mem : BitposMemory) (bit : Bool) (range : BitposRange) (p : Bytes) : Option Int :=
  let b := bitposBounds p.length range
  if p.length = 0 then some (if bit then -1 else 0)
  else if b.start > b.stop then some (-1)
  else bitposScan w mem range.endGiven bit p b.start.toNat b.stop.toNat b.first b.last

section Command

variable [LuaCoercion ν]

/-- `rl_unit_arg`. -/
def rlUnitArg (v : LuaValue ν) : Except LuaError Bool :=
  match toBytes? v with
  | some u =>
      if eqIgnoreCase u "bit" then .ok true
      else if eqIgnoreCase u "byte" then .ok false
      else .error syntaxErr
  | none => .error syntaxErr

/-- The arguments of BITPOS behind the bit. -/
def bitposRange : List (LuaValue ν) → Except LuaError BitposRange
  | [] => return .whole
  | [start] => do
      let start ← rlChecklonglong start "value is not an integer or out of range"
      return .tail start
  | start :: stop :: rest => do
      let start ← rlChecklonglong start "value is not an integer or out of range"
      let stop ← rlChecklonglong stop "value is not an integer or out of range"
      -- a unit that something follows is not read
      let isbit ← match rest with
        | [unit] => rlUnitArg unit
        | _ => .ok false
      return .within start stop isbit

/-- The arguments of BITPOS: the handle, the bit and the range. -/
def bitposArgs (args : List (LuaValue ν)) : Except LuaError (Nat × Bool × BitposRange) := do
  let id ← rlCheck args 1 .bitmap
  let bit ← rlChecklonglong ((luaArg args 2).getD .nil) "bit is not an integer or out of range"
  if bit.val ≠ 0 ∧ bit.val ≠ 1 then .error (rlError (ascii "bit is not an integer or out of range"))
  else
    let range ← bitposRange (args.drop 2)
    return (id, decide (bit.val = 1), range)

/-- `lbitmap_getbit`. -/
def lbitmapGetbit (args : List (LuaValue ν)) : Command (Handles Bytes) (Reply ν) := do
  let id ← check (rlCheck args 1 .bitmap)
  let bitoffset ← check (rlBitoffset ((luaArg args 2).getD .nil) false 0)
  let s ← get
  return .int (getbit (s id) bitoffset)

/-- `lbitmap_bitpos`; no reply is the panic in `redisBitpos`. -/
def lbitmapBitpos (w : Nat) (mem : BitposMemory) (args : List (LuaValue ν)) :
    Command (Handles Bytes) (Option (Reply ν)) := do
  let (id, bit, range) ← check (bitposArgs args)
  let s ← get
  return (bitpos w mem bit range (s id)).map .int

end Command

/-! ## What the kernel finds -/

/-- All bits, in either order. -/
theorem forall_bits_iff {s : Bytes} {w : Nat} {b : Bool} :
    (∀ n, n < 8 * w → bits s n = b) ↔ ∀ i, i < 8 * w → bitAt s i = b := by
  constructor
  · intro h i hi
    rw [bitAt_eq_bits]
    exact h _ (by omega)
  · intro h n hn
    have hback := bitAt_eq_bits s (8 * (n / 8) + (7 - n % 8))
    rw [h _ (by omega)] at hback
    rw [hback]
    congr 1
    omega

/-- A word that is gone over does not have the bit. -/
theorem load_eq_skipval_iff (w : Nat) (s : Bytes) (bit : Bool) :
    load w s 0 = skipvalWord w bit ↔ scan (bitAt s) bit 0 (8 * w) = none := by
  have hskip : ∀ n, (skipvalWord w bit).testBit n = (!bit && decide (n < 8 * w)) := by
    intro n
    cases bit with
    | true => exact Nat.zero_testBit n
    | false => exact Nat.testBit_two_pow_sub_one _ _
  have hload : ∀ n, n < 8 * w → (load w s 0).testBit n = bits s n := by
    intro n hn
    rw [testBit_load s 0 hn, Nat.mul_zero, Nat.zero_add]
  have hall : scan (bitAt s) bit 0 (8 * w) = none ↔ ∀ n, n < 8 * w → bits s n = !bit := by
    rw [forall_bits_iff, scan_eq_none]
    simp
  rw [hall]
  constructor
  · intro h n hn
    rw [← hload n hn, h, hskip, decide_eq_true hn, Bool.and_true]
  · intro h
    refine Nat.eq_of_testBit_eq fun n => ?_
    rw [hskip]
    by_cases hn : n < 8 * w
    · rw [hload n hn, h n hn, decide_eq_true hn, Bool.and_true]
    · rw [decide_eq_false hn, Bool.and_false, load, testBit_leNat, bits_take_of_le (Nat.not_lt.mp hn)]

/-- The same for a byte. -/
theorem byte_eq_skipval_iff (c : UInt8) (rest : Bytes) (bit : Bool) :
    c = skipvalByte bit ↔ scan (bitAt (c :: rest)) bit 0 8 = none := by
  rw [← load_eq_skipval_iff 1 (c :: rest) bit, ← UInt8.toNat_inj]
  cases bit <;> simp [load, leNat, skipvalByte, skipvalWord]

/-- Some bytes gone over, none of which has the bit. -/
structure Skips (bit : Bool) (s : Bytes) (pos k : Nat) (r : Bytes × Nat) : Prop where
  rest : r.1 = s.drop k
  pos : r.2 = pos + 8 * k
  le : k ≤ s.length
  none : scan (bitAt s) bit 0 (8 * k) = .none

theorem skips_zero (bit : Bool) (s : Bytes) (pos : Nat) : Skips bit s pos 0 (s, pos) :=
  ⟨rfl, rfl, Nat.zero_le _, rfl⟩

/-- The scan of a tail. -/
theorem scan_drop (s : Bytes) (bit : Bool) (k n : Nat) :
    (scan (bitAt (s.drop k)) bit 0 n).map (8 * k + ·) = scan (bitAt s) bit (8 * k) n := by
  have hshift := scan_shift (bitAt s) bit (8 * k) 0 n
  rw [Nat.add_zero] at hshift
  rw [← hshift]
  congr 2
  funext i
  rw [bitAt_drop, Nat.add_comm]

theorem Skips.trans {bit : Bool} {s : Bytes} {pos k m : Nat} {r r' : Bytes × Nat} (h : Skips bit s pos k r)
    (h' : Skips bit r.1 r.2 m r') : Skips bit s pos (k + m) r' := by
  have hle := h'.le
  rw [h.rest, List.length_drop] at hle
  have hk := h.le
  refine ⟨by rw [h'.rest, h.rest, List.drop_drop], by rw [h'.pos, h.pos]; omega, by omega, ?_⟩
  have htail := scan_drop s bit k (8 * m)
  rw [← h.rest, h'.none] at htail
  rw [Nat.mul_add, scan_add, h.none, Nat.zero_add, ← htail]
  rfl

/-- The loop over the first bytes. -/
theorem skipBytes_skips (w : Nat) (bit : Bool) (s : Bytes) (addr pos : Nat) :
    let r := skipBytes w (skipvalByte bit) addr s pos
    (∃ k, Skips bit s pos k r.2) ∧ (r.1 = true → r.2.1 ≠ [] ∧ scan (bitAt r.2.1) bit 0 8 ≠ none) := by
  induction s generalizing addr pos with
  | nil => exact ⟨⟨0, skips_zero _ _ _⟩, nofun⟩
  | cons c rest ih =>
      dsimp only
      rw [skipBytes]
      split_ifs with haligned hc
      · exact ⟨⟨0, skips_zero _ _ _⟩, nofun⟩
      · exact ⟨⟨0, skips_zero _ _ _⟩, fun _ => ⟨nofun, mt (byte_eq_skipval_iff c rest bit).mpr hc⟩⟩
      · obtain ⟨⟨k, hk⟩, hfound⟩ := ih (addr + 1) (pos + 8)
        have hfirst : Skips bit (c :: rest) pos 1 (rest, pos + 8) :=
          ⟨rfl, rfl, Nat.succ_pos _, (byte_eq_skipval_iff c rest bit).mp (not_not.mp hc)⟩
        exact ⟨⟨1 + k, hfirst.trans hk⟩, hfound⟩

/-- The loop over the words. -/
theorem skipWords_skips {w : Nat} (hw : 0 < w) (bit : Bool) (words : Nat) (s : Bytes)
    (hwords : words = s.length / w) (pos : Nat) :
    let r := skipWords w (skipvalWord w bit) words s pos
    (∃ k, Skips bit s pos k r) ∧ (r.1.length < w ∨ scan (bitAt r.1) bit 0 (8 * w) ≠ none) := by
  induction words generalizing s pos with
  | zero => exact ⟨⟨0, skips_zero _ _ _⟩, .inl ((Nat.div_eq_zero_iff_lt hw).mp hwords.symm)⟩
  | succ words ih =>
      have hlen : w ≤ s.length := by
        by_contra hlt
        rw [Nat.div_eq_of_lt (Nat.not_le.mp hlt)] at hwords
        contradiction
      dsimp only
      rw [skipWords]
      split_ifs with hload
      · exact ⟨⟨0, skips_zero _ _ _⟩, .inr (mt (load_eq_skipval_iff w s bit).mpr hload)⟩
      · have hleft : words = (s.drop w).length / w := by
          rw [Nat.div_eq_sub_div hw hlen] at hwords
          rw [List.length_drop]
          exact Nat.succ.inj hwords
        obtain ⟨⟨k, hk⟩, hstop⟩ := ih (s.drop w) hleft (pos + w * 8)
        have hfirst : Skips bit s pos w (s.drop w, pos + w * 8) :=
          ⟨rfl, by rw [Nat.mul_comm], hlen, (load_eq_skipval_iff w s bit).mp (not_not.mp hload)⟩
        exact ⟨⟨w + k, hfirst.trans hk⟩, hstop⟩

/-- The word that is looked into, its top bit first. -/
theorem testBit_loadWord (c : Bytes) {w n : Nat} (h : n < 8 * w) :
    (loadWord c w).testBit (8 * w - 1 - n) = bitAt c n := by
  induction w with
  | zero => simp at h
  | succ w ih =>
      have hbyte := (c.getD w 0).toNat_lt
      rw [loadWord, Nat.testBit_or, Nat.testBit_shiftLeft]
      by_cases hn : n < 8 * w
      · have hhigh : (c.getD w 0).toNat.testBit (8 * (w + 1) - 1 - n) = false :=
          Nat.testBit_lt_two_pow (Nat.lt_of_lt_of_le hbyte (Nat.pow_le_pow_right (by decide) (by omega)))
        rw [hhigh, Bool.or_false, decide_eq_true (by omega), Bool.true_and, ← ih hn]
        congr 1
        omega
      · rw [decide_eq_false (by omega), Bool.false_and, Bool.false_or, bitAt, show n / 8 = w by omega]
        congr 1
        omega

/-- The loop over the bits of a word. -/
theorem scanWord_eq (word : Nat) (bit : Bool) (n pos : Nat) :
    scanWord word bit n pos = (scan (fun i => word.testBit (n - 1 - i)) bit 0 n).map (pos + ·) := by
  induction n generalizing pos with
  | zero => rfl
  | succ n ih =>
      have htest : decide (1 <<< n &&& word ≠ 0) = word.testBit n := by
        rw [Nat.one_shiftLeft, Nat.two_pow_and]
        cases word.testBit n <;> simp
      have htail := scan_shift (fun i => word.testBit (n - i)) bit 1 0 n
      simp only [← Nat.sub_sub] at htail
      rw [scanWord, htest, Nat.add_sub_cancel, Nat.add_comm n 1, scan_add, Nat.zero_add]
      split_ifs with hbit
      · have hhead : scan (fun i => word.testBit (n - i)) bit 0 1 = some 0 :=
          scan_eq_some.mpr ⟨⟨Nat.le_refl 0, Nat.one_pos, hbit⟩, nofun⟩
        rw [hhead]
        rfl
      · have hhead : scan (fun i => word.testBit (n - i)) bit 0 1 = none := by
          refine scan_eq_none.mpr fun i _ hi => ?_
          obtain rfl : i = 0 := by omega
          exact Bool.eq_not.mpr hbit
        rw [hhead, Option.none_or, ← htail, ih, Option.map_map]
        congr 1
        funext i
        exact (Nat.add_assoc pos 1 i)

theorem loadWord_lt (c : Bytes) (w : Nat) : loadWord c w < 2 ^ (8 * w) := by
  induction w with
  | zero => exact Nat.one_pos
  | succ w ih =>
      have hbyte := (c.getD w 0).toNat_lt
      rw [loadWord, Nat.mul_succ]
      refine Nat.or_lt_two_pow ?_ (Nat.lt_of_lt_of_le hbyte (Nat.pow_le_pow_right (by decide) (by omega)))
      rw [Nat.shiftLeft_eq, Nat.pow_add]
      exact Nat.mul_lt_mul_of_pos_right ih (by decide)

/-- The word is zero if it has no one. -/
theorem loadWord_eq_zero_iff (c : Bytes) (w : Nat) :
    loadWord c w = 0 ↔ scan (bitAt c) true 0 (8 * w) = none := by
  rw [scan_eq_none]
  constructor
  · intro h i _ hi
    have hlt : i < 8 * w := by omega
    rw [← testBit_loadWord c hlt, h, Nat.zero_testBit]
    rfl
  · intro h
    refine Nat.eq_of_testBit_eq fun n => ?_
    rw [Nat.zero_testBit]
    by_cases hn : n < 8 * w
    · rw [show n = 8 * w - 1 - (8 * w - 1 - n) by omega, testBit_loadWord c (by omega)]
      exact h _ (Nat.zero_le _) (by omega)
    · exact Nat.testBit_lt_two_pow (Nat.lt_of_lt_of_le (loadWord_lt c w)
        (Nat.pow_le_pow_right (by decide) (Nat.not_lt.mp hn)))

/-- What the kernel answers for so many bytes. -/
def scanReply (bit : Bool) (count : Nat) : Option Nat → Int
  | some n => n
  | none => if bit then -1 else 8 * count

/-- What is left when the loops are over: no byte that was gone over has the bit,
and the word has it, if it is whole. -/
theorem exists_skips {w : Nat} (hw : 0 < w) (addr : Nat) (s : Bytes) (bit : Bool) :
    let r := skipBytes w (skipvalByte bit) addr s 0
    let l := if r.1 then r.2 else skipWords w (skipvalWord w bit) (r.2.1.length / w) r.2.1 r.2.2
    (∃ k, Skips bit s 0 k l) ∧ (l.1.length < w ∨ scan (bitAt l.1) bit 0 (8 * w) ≠ none) := by
  obtain ⟨⟨k, hk⟩, hfound⟩ := skipBytes_skips w bit s addr 0
  dsimp only
  split_ifs with h
  · obtain ⟨-, hscan⟩ := hfound h
    obtain ⟨i, hi⟩ := Option.ne_none_iff_exists'.mp hscan
    have hlt := (scan_eq_some.mp hi).1.2.1
    refine ⟨⟨k, hk⟩, .inr ?_⟩
    rw [scan_of_lt hi (show i < 0 + 8 * w by omega)]
    nofun
  · obtain ⟨⟨m, hm⟩, hstop⟩ := skipWords_skips hw bit _ _ rfl (skipBytes w (skipvalByte bit) addr s 0).2.2
    exact ⟨⟨k + m, hk.trans hm⟩, hstop⟩

/-- **`redisBitpos`** finds the first position that has the bit, and does not
panic. -/
theorem redisBitpos_eq {w : Nat} (hw : 0 < w) (addr : Nat) (s : Bytes) (bit : Bool) :
    redisBitpos w addr s bit = some (scanReply bit s.length (scan (bitAt s) bit 0 (8 * s.length))) := by
  obtain ⟨⟨k, hk⟩, hstop⟩ := exists_skips hw addr s bit
  rw [redisBitpos]
  generalize (if (skipBytes w (skipvalByte bit) addr s 0).1 = true then (skipBytes w (skipvalByte bit) addr s 0).2
    else skipWords w (skipvalWord w bit) ((skipBytes w (skipvalByte bit) addr s 0).2.1.length / w)
      (skipBytes w (skipvalByte bit) addr s 0).2.1 (skipBytes w (skipvalByte bit) addr s 0).2.2) = l at hk hstop
  obtain ⟨rest, pos⟩ := l
  obtain ⟨rfl, rfl, hle, hnone⟩ := hk
  simp only at hstop ⊢
  have hwhole : scan (bitAt s) bit 0 (8 * s.length) =
      (scan (bitAt (s.drop k)) bit 0 (8 * (s.drop k).length)).map (8 * k + ·) := by
    rw [scan_drop, List.length_drop, show 8 * s.length = 8 * k + 8 * (s.length - k) by omega, scan_add, hnone,
      Nat.zero_add, Option.none_or]
  have hlen : (s.drop k).length = s.length - k := List.length_drop
  have hword : scanWord (loadWord (s.drop k) w) bit (8 * w) (0 + 8 * k) =
      (scan (bitAt (s.drop k)) bit 0 (8 * w)).map (8 * k + ·) := by
    rw [scanWord_eq, Nat.zero_add]
    congr 1
    exact scan_congr fun i _ hi => testBit_loadWord (s.drop k) (show i < 8 * w by omega)
  have hpast : bitAt (s.drop k) (8 * (s.drop k).length) = false := bitAt_eq_false (by omega)
  rw [hword, hwhole]
  cases hscan : scan (bitAt (s.drop k)) bit 0 (8 * w) with
  | none =>
      have hshort : (s.drop k).length < w := hstop.resolve_right (not_not.mpr hscan)
      rw [scan_eq_none] at hscan
      cases bit with
      | false => exact absurd (hscan (8 * (s.drop k).length) (Nat.zero_le _) (by omega)) (by rw [hpast]; decide)
      | true =>
          have hzero := (loadWord_eq_zero_iff (s.drop k) w).mpr (scan_eq_none.mpr hscan)
          have hrest : scan (bitAt (s.drop k)) true 0 (8 * (s.drop k).length) = none :=
            scan_eq_none.mpr fun i hi hi' => hscan i hi (by omega)
          rw [if_pos ⟨rfl, hzero⟩, hrest]
          rfl
  | some i =>
      have hne : ¬ (bit = true ∧ loadWord (s.drop k) w = 0) := by
        rintro ⟨rfl, hzero⟩
        rw [(loadWord_eq_zero_iff _ w).mp hzero] at hscan
        contradiction
      rw [if_neg hne]
      by_cases hi : i < 8 * (s.drop k).length
      · rw [scan_of_lt hscan (show i < 0 + 8 * (s.drop k).length by omega)]
        rfl
      · obtain ⟨⟨-, -, hbit⟩, hbefore⟩ := scan_eq_some.mp hscan
        have hbeyond : (s.drop k).length ≤ i / 8 := by omega
        rw [bitAt_eq_false hbeyond] at hbit
        subst hbit
        -- the zero that is found is the one behind the last byte
        have hend : i = 8 * (s.drop k).length := by
          by_contra hne
          exact absurd (hbefore (8 * (s.drop k).length) (Nat.zero_le _) (by omega)) (by rw [hpast]; decide)
        have hrest : scan (bitAt (s.drop k)) false 0 (8 * (s.drop k).length) = none :=
          scan_eq_none.mpr fun j hj hj' => hbefore j hj (by omega)
        rw [hrest, hend, hlen]
        refine congrArg some (show ((8 * k + 8 * (s.length - k) : Nat) : Int) = 8 * (s.length : Int) from ?_)
        omega

/-! ## What the scans find -/

/-- The bits of a string, with what is outside of a range masked. -/
def masked (p : Bytes) (bit : Bool) (S E : Nat) : BitArray := fun i => if S ≤ i ∧ i ≤ E then bitAt p i else !bit

theorem testBit_maskByte (bit : Bool) (b mask : UInt8) {t : Nat} (ht : t < 8) :
    (maskByte bit b mask).toNat.testBit t = if mask.toNat.testBit t then !bit else b.toNat.testBit t := by
  cases bit with
  | true =>
      rw [maskByte, if_pos rfl, testBit_and_byte, testBit_not_byte _ ht]
      cases mask.toNat.testBit t <;> simp
  | false =>
      rw [maskByte, if_neg Bool.false_ne_true, testBit_or_byte]
      cases mask.toNat.testBit t <;> simp

/-- The masks, by the bits they leave. -/
theorem mask_bits : ∀ r < 8,
    (∀ j < 8, (~~~(UInt8.ofNat (1 <<< (8 - r) - 1))).toNat.testBit (7 - j) = decide (j < r)) ∧
    (∀ j < 8, (UInt8.ofNat (1 <<< (7 - r) - 1)).toNat.testBit (7 - j) = decide (r < j)) ∧
    (~~~(UInt8.ofNat (1 <<< (8 - r) - 1)) = 0 ↔ r = 0) ∧ (UInt8.ofNat (1 <<< (7 - r) - 1) = 0 ↔ r = 7) := by
  decide

theorem testBit_firstByteNegMask (S : Nat) {j : Nat} (hj : j < 8) :
    (firstByteNegMask S).toNat.testBit (7 - j) = decide (j < S % 8) :=
  (mask_bits (S % 8) (Nat.mod_lt S (by decide))).1 j hj

theorem testBit_lastByteNegMask (E : Nat) {j : Nat} (hj : j < 8) :
    (lastByteNegMask E).toNat.testBit (7 - j) = decide (E % 8 < j) :=
  (mask_bits (E % 8) (Nat.mod_lt E (by decide))).2.1 j hj

theorem firstByteNegMask_eq_zero_iff (S : Nat) : firstByteNegMask S = 0 ↔ S % 8 = 0 :=
  (mask_bits (S % 8) (Nat.mod_lt S (by decide))).2.2.1

theorem lastByteNegMask_eq_zero_iff (E : Nat) : lastByteNegMask E = 0 ↔ E % 8 = 7 :=
  (mask_bits (E % 8) (Nat.mod_lt E (by decide))).2.2.2

/-- The bits of one byte. -/
theorem bitAt_singleton (b : UInt8) {j : Nat} (hj : j < 8) : bitAt [b] j = b.toNat.testBit (7 - j) := by
  rw [bitAt, Nat.div_eq_of_lt hj, Nat.mod_eq_of_lt hj]
  rfl

theorem testBit_getD (p : Bytes) (k : Nat) {j : Nat} (hj : j < 8) :
    (p.getD k 0).toNat.testBit (7 - j) = bitAt p (8 * k + j) := by
  rw [bitAt, show (8 * k + j) / 8 = k by omega, show (8 * k + j) % 8 = j by omega]

/-- What BITPOS answers for a range that ends with the byte `stop`. -/
def rangeReply (endGiven bit : Bool) (stop : Nat) : Option Nat → Int
  | some n => n
  | none => if bit || endGiven then -1 else 8 * (stop + 1)

/-- What the kernel answers for so many bytes from the byte `start` on. -/
def partReply (bit : Bool) (start bytes : Nat) : Option Nat → Int
  | some n => (n : Int) - 8 * start
  | none => if bit then -1 else 8 * bytes

section Scan

variable {w : Nat} (mem : BitposMemory) (endGiven bit : Bool) {p : Bytes} {S E : Nat}

/-- What the kernel answers for some bytes of a bit array. -/
theorem redisBitpos_of_bits (hw : 0 < w) (addr : Nat) {s : Bytes} {f : BitArray} {start : Nat}
    (hbits : ∀ j, j < 8 * s.length → bitAt s j = f (8 * start + j)) :
    redisBitpos w addr s bit = some (partReply bit start s.length (scan f bit (8 * start) (8 * s.length))) := by
  have hshift := scan_shift f bit (8 * start) 0 (8 * s.length)
  rw [Nat.add_zero] at hshift
  have hcongr : scan (bitAt s) bit 0 (8 * s.length) = scan (fun i => f (8 * start + i)) bit 0 (8 * s.length) :=
    scan_congr fun j _ hj => hbits j (by omega)
  rw [redisBitpos_eq hw, hcongr, ← hshift]
  cases scan (fun i => f (8 * start + i)) bit 0 (8 * s.length) with
  | none => rfl
  | some i =>
      refine congrArg some (show (i : Int) = ((8 * start + i : Nat) : Int) - 8 * start from ?_)
      omega

theorem bitposResult_found {start bytes n : Nat} (hlo : 8 * start ≤ n) (hhi : n < 8 * (start + bytes)) :
    bitposResult endGiven bit start bytes ((n : Int) - 8 * start) = n := by
  have hbytes : ((bytes <<< 3 : Nat) : Int) = 8 * bytes := by rw [Nat.shiftLeft_eq]; omega
  have hstart : ((start <<< 3 : Nat) : Int) = 8 * start := by rw [Nat.shiftLeft_eq]; omega
  rw [bitposResult, hbytes, hstart, if_neg (by omega), if_pos (by omega)]
  omega

theorem bitposResult_missed (start bytes : Nat) :
    bitposResult endGiven bit start bytes (if bit then -1 else 8 * bytes) =
      if bit || endGiven then -1 else 8 * ((start + bytes : Nat) : Int) := by
  have hbytes : ((bytes <<< 3 : Nat) : Int) = 8 * bytes := by rw [Nat.shiftLeft_eq]; omega
  have hstart : ((start <<< 3 : Nat) : Int) = 8 * start := by rw [Nat.shiftLeft_eq]; omega
  cases bit with
  | true => simp [bitposResult]
  | false =>
      cases endGiven with
      | true => exact if_pos ⟨rfl, rfl, hbytes.symm⟩
      | false =>
          have hne : (8 * bytes : Int) ≠ -1 := by omega
          rw [bitposResult, if_neg nofun, if_neg Bool.false_ne_true, if_pos hne, hstart]
          simp only [Bool.or_self, Bool.false_eq_true, if_false]
          omega

theorem bitAt_bitposFirstByte (hSE : S ≤ E) {j : Nat} (hj : j < 8) :
    bitAt [bitposFirstByte bit p (S / 8) (E / 8 - S / 8 + 1) (firstByteNegMask S) (lastByteNegMask E)] j =
      masked p bit S E (8 * (S / 8) + j) := by
  have ht : 7 - j < 8 := by omega
  rw [bitAt_singleton _ hj, bitposFirstByte]
  split_ifs with hlast
  · rw [testBit_maskByte _ _ _ ht, testBit_maskByte _ _ _ ht, testBit_firstByteNegMask S hj,
      testBit_lastByteNegMask E hj, testBit_getD p _ hj, masked]
    simp only [decide_eq_true_eq]
    split_ifs <;> first | rfl | omega
  · have hafter : E / 8 = S / 8 → E % 8 = 7 := by
      rw [← lastByteNegMask_eq_zero_iff]
      exact fun h => not_not.mp fun hne => hlast ⟨hne, by omega⟩
    rw [testBit_maskByte _ _ _ ht, testBit_firstByteNegMask S hj, testBit_getD p _ hj, masked]
    simp only [decide_eq_true_eq]
    split_ifs <;> first | rfl | omega

theorem bitAt_lastByte (hSE : S ≤ 8 * (E / 8)) {j : Nat} (hj : j < 8) :
    bitAt [maskByte bit (p.getD (E / 8) 0) (lastByteNegMask E)] j = masked p bit S E (8 * (E / 8) + j) := by
  rw [bitAt_singleton _ hj, testBit_maskByte _ _ _ (by omega), testBit_lastByteNegMask E hj, testBit_getD p _ hj,
    masked]
  simp only [decide_eq_true_eq]
  split_ifs <;> first | rfl | omega

/-- Whole bytes of the range. -/
theorem bitAt_wholeBytes {start curbytes j : Nat} (hS : S ≤ 8 * start) (hE : 8 * (start + curbytes) ≤ E + 1)
    (hj : j < 8 * curbytes) :
    bitAt ((p.drop start).take curbytes) j = masked p bit S E (8 * start + j) := by
  rw [bitAt_take (by omega), bitAt_drop, Nat.add_comm, masked, if_pos (by omega)]

/-- One scan and what comes after it, if it did not find the bit. -/
theorem scan_step {f : BitArray} {start bytes curbytes stop : Nat} (hstop : start + bytes = stop + 1)
    (hle : curbytes ≤ bytes) {k : Option Int}
    (hk : curbytes < bytes → k = some (rangeReply endGiven bit stop
      (scan f bit (8 * (start + curbytes)) (8 * (bytes - curbytes)))))
    {pos : Int} (hpos : pos = partReply bit start curbytes (scan f bit (8 * start) (8 * curbytes))) :
    (if bytes = curbytes ∨ pos ≠ -1 ∧ pos ≠ (curbytes <<< 3 : Nat) then
      some (bitposResult endGiven bit start bytes pos) else k) =
      some (rangeReply endGiven bit stop (scan f bit (8 * start) (8 * bytes))) := by
  have hshift : ((curbytes <<< 3 : Nat) : Int) = 8 * curbytes := by rw [Nat.shiftLeft_eq]; omega
  rw [hshift]
  cases hscan : scan f bit (8 * start) (8 * curbytes) with
  | some n =>
      rw [hscan] at hpos
      have hpos' : pos = (n : Int) - 8 * start := hpos
      obtain ⟨⟨hlo, hhi, -⟩, -⟩ := scan_eq_some.mp hscan
      rw [if_pos (.inr (by omega)), hpos', bitposResult_found endGiven bit hlo (by omega),
        scan_of_lt hscan (show n < 8 * start + 8 * bytes by omega)]
      rfl
  | none =>
      rw [hscan] at hpos
      have hpos' : pos = if bit then (-1 : Int) else 8 * curbytes := hpos
      by_cases hall : bytes = curbytes
      · subst hall
        rw [if_pos (.inl rfl), hpos', bitposResult_missed, hscan, hstop]
        rfl
      · have hmiss : ¬ (bytes = curbytes ∨ pos ≠ -1 ∧ pos ≠ 8 * curbytes) := by
          cases bit <;> simp_all
        rw [if_neg hmiss, hk (by omega), show 8 * bytes = 8 * curbytes + 8 * (bytes - curbytes) by omega, scan_add,
          hscan, Option.none_or, Nat.mul_add]

theorem bitposLast_eq (hw : 0 < w) {start : Nat} (hstart : start = E / 8) (hS : S ≤ 8 * (E / 8)) :
    bitposLast w mem endGiven bit p start (E / 8) 1 (lastByteNegMask E) =
      some (rangeReply endGiven bit (E / 8) (scan (masked p bit S E) bit (8 * start) (8 * 1))) := by
  subst hstart
  have hpos := redisBitpos_of_bits bit hw mem.tmp (s := [maskByte bit (p.getD (E / 8) 0) (lastByteNegMask E)])
    fun j hj => bitAt_lastByte bit (p := p) hS hj
  rw [bitposLast, hpos]
  have hmore : ¬ 1 < 1 := Nat.lt_irrefl 1
  exact (if_pos (.inl rfl)).symm.trans
    (scan_step endGiven bit rfl (Nat.le_refl 1) (k := none) (fun h => absurd h hmore) rfl)

theorem bitposMiddle_eq (hw : 0 < w) {start bytes : Nat} (hS : S ≤ 8 * start) (hE : E < 8 * p.length)
    (hbytes : 1 ≤ bytes) (hstop : start + bytes = E / 8 + 1) :
    bitposMiddle w mem endGiven bit p start (E / 8) bytes (lastByteNegMask E) =
      some (rangeReply endGiven bit (E / 8) (scan (masked p bit S E) bit (8 * start) (8 * bytes))) := by
  have hlast := lastByteNegMask_eq_zero_iff E
  rw [bitposMiddle]
  generalize hcur : bytes - (if lastByteNegMask E ≠ 0 then 1 else 0) = curbytes
  have hle : curbytes ≤ bytes := hcur ▸ Nat.sub_le _ _
  have hwhole : 8 * (start + curbytes) ≤ E + 1 := by
    split_ifs at hcur with hmask
    · omega
    · have := hlast.mp (not_not.mp hmask)
      omega
  have hleft : curbytes < bytes → curbytes = bytes - 1 := by
    intro hlt
    split_ifs at hcur
    · exact hcur.symm
    · omega
  have hrest : curbytes < bytes → bitposLast w mem endGiven bit p (start + curbytes) (E / 8) (bytes - curbytes)
      (lastByteNegMask E) = some (rangeReply endGiven bit (E / 8)
        (scan (masked p bit S E) bit (8 * (start + curbytes)) (8 * (bytes - curbytes)))) := by
    intro hlt
    have hone : bytes - curbytes = 1 := by omega
    rw [hone]
    exact bitposLast_eq mem endGiven bit hw (by omega) (by omega)
  split_ifs with hpos
  · have hlen : ((p.drop start).take curbytes).length = curbytes := by
      rw [List.length_take, List.length_drop]
      omega
    have hscan := redisBitpos_of_bits (s := (p.drop start).take curbytes) bit hw (mem.addr + start) fun j hj =>
      bitAt_wholeBytes bit (p := p) hS hwhole (hlen ▸ hj)
    rw [hlen] at hscan
    rw [hscan]
    exact scan_step endGiven bit hstop hle hrest rfl
  · have hzero : curbytes = 0 := by omega
    subst hzero
    exact hrest (by omega)

/-- **The three scans** find what is in the range. -/
theorem bitposScan_eq (hw : 0 < w) (hSE : S ≤ E) (hE : E < 8 * p.length) :
    bitposScan w mem endGiven bit p (S / 8) (E / 8) (firstByteNegMask S) (lastByteNegMask E) =
      some (rangeReply endGiven bit (E / 8)
        (scan (masked p bit S E) bit (8 * (S / 8)) (8 * (E / 8 - S / 8 + 1)))) := by
  have hfirst := firstByteNegMask_eq_zero_iff S
  rw [bitposScan]
  split_ifs with hmask
  · have hscan := redisBitpos_of_bits bit hw mem.tmp fun j hj => bitAt_bitposFirstByte bit (p := p) hSE hj
    rw [hscan]
    refine scan_step endGiven bit (by omega) (Nat.le_add_left 1 _) (fun hlt => ?_) rfl
    exact bitposMiddle_eq mem endGiven bit hw (by omega) hE (by omega) (by omega)
  · have hS := hfirst.mp (not_not.mp hmask)
    exact bitposMiddle_eq mem endGiven bit hw (by omega) hE (by omega) (by omega)

end Scan

/-! ## What BITPOS is for -/

/-- GETBIT reads the bit array. -/
theorem getbit_eq (p : Bytes) (i : Nat) : getbit p i = (bitAt p i).toNat := by
  have hbit : ∀ (b k : Nat), (if b &&& 1 <<< k ≠ 0 then 1 else 0 : Int) = (b.testBit k).toNat := by
    intro b k
    rw [Nat.one_shiftLeft, Nat.and_two_pow]
    cases b.testBit k <;> simp
  rw [getbit, shiftRight_three, and_seven]
  by_cases h : i / 8 < p.length
  · rw [if_pos h]
    exact hbit _ _
  · rw [if_neg h, bitAt_eq_false (Nat.not_lt.mp h)]
    rfl

/-- An index, a negative one counted from the end. -/
def clampIndex (len i : Int) : Int := if i < 0 then max 0 (len + i) else i

/-- The positions a range selects in a string of so many bytes. -/
def BitposRange.positions (len : Nat) : BitposRange → Set Nat
  | .whole => {i | i < 8 * len}
  | .tail start => {i | clampIndex len start ≤ (i / 8 : Nat) ∧ i < 8 * len}
  | .within start stop false =>
      {i | clampIndex len start ≤ (i / 8 : Nat) ∧ (i / 8 : Nat) ≤ clampIndex len stop ∧ i < 8 * len}
  | .within start stop true =>
      {i | clampIndex (8 * len) start ≤ i ∧ i ≤ clampIndex (8 * len) stop ∧ i < 8 * len}

/-- **What BITPOS is to answer**: the least position that has the bit, and where
there is none, -1; but a zero is looked for behind the string too, if no end was
given. -/
structure IsBitpos (bit : Bool) (range : BitposRange) (p : Bytes) (pos : Int) : Prop where
  empty : range.positions p.length = ∅ → pos = -1
  found : ∀ n, IsLeast {i ∈ range.positions p.length | getbit p i = bit.toNat} n → pos = n
  absent : (range.positions p.length).Nonempty → (∀ i ∈ range.positions p.length, getbit p i ≠ bit.toNat) →
    pos = if bit = false ∧ range.endGiven = false then 8 * (p.length : Int) else -1
  padded : (range.positions p.length).Nonempty → bit = false → range.endGiven = false →
    ∃ n : Nat, pos = n ∧ IsLeast {i | (∃ j ∈ range.positions p.length, j ≤ i) ∧ getbit p i = 0} n

/-- The bytes and the masks of a range that is not empty. -/
structure Selects (range : BitposRange) (len S E : Nat) (b : BitposBounds) : Prop where
  le : S ≤ E
  lt : E < 8 * len
  positions : range.positions len = {i | S ≤ i ∧ i ≤ E}
  start : b.start = (S / 8 : Nat)
  stop : b.stop = (E / 8 : Nat)
  first : b.first = firstByteNegMask S
  last : b.last = lastByteNegMask E
  toEnd : range.endGiven = false → E + 1 = 8 * len

/-- The clamped range. -/
theorem bitposClamp_eq (start stop : Int) (isbit : Bool) (strlen : Int) :
    let totlen := if isbit then 8 * strlen else strlen
    let lo := clampIndex totlen start
    let hi := min (clampIndex totlen stop) (totlen - 1)
    bitposClamp start stop isbit strlen =
      if isbit ∧ lo ≤ hi then
        { start := lo / 8, stop := hi / 8, first := firstByteNegMask lo, last := lastByteNegMask hi }
      else { start := lo, stop := hi } := by
  have hshift : ∀ x : Int, x >>> (3 : Nat) = x / 8 := fun x => Int.shiftRight_eq_div_pow x 3
  have htotlen : strlen <<< (3 : Nat) = 8 * strlen := by
    rw [Int.shiftLeft_eq]
    omega
  have hlo : ∀ totlen i : Int,
      (if (if i < 0 then totlen + i else i) < 0 then 0 else if i < 0 then totlen + i else i) =
        clampIndex totlen i := by
    intro totlen i
    rw [clampIndex]
    split_ifs <;> omega
  have hhi : ∀ x totlen : Int, (if x ≥ totlen then totlen - 1 else x) = min x (totlen - 1) := by
    intro x totlen
    split_ifs <;> omega
  simp only [bitposClamp, htotlen, hlo, hhi, hshift]

theorem clampIndex_nonneg (len i : Int) : 0 ≤ clampIndex len i := by
  rw [clampIndex]
  split_ifs <;> omega

/-- A range of bytes. -/
theorem selects_bytes {range : BitposRange} {len : Nat} {lo hi : Int} (hlo : 0 ≤ lo) (hhi : hi ≤ len - 1)
    (hpositions : range.positions len = {i | lo ≤ (i / 8 : Nat) ∧ (i / 8 : Nat) ≤ hi})
    (hend : range.endGiven = false → hi = len - 1) :
    (hi < lo ∧ range.positions len = ∅) ∨ ∃ S E, Selects range len S E { start := lo, stop := hi } := by
  by_cases hlt : hi < lo
  · refine .inl ⟨hlt, ?_⟩
    rw [hpositions]
    exact Set.eq_empty_iff_forall_notMem.mpr fun i hi => by have := hi.1; have := hi.2; omega
  · refine .inr ⟨8 * lo.toNat, 8 * hi.toNat + 7, by omega, by omega, ?_, ?_, ?_, ?_, ?_, ?_⟩
    · rw [hpositions]
      ext i
      simp only [Set.mem_ofPred_eq]
      omega
    · show lo = _
      omega
    · show hi = _
      omega
    · exact ((firstByteNegMask_eq_zero_iff _).mpr (by omega)).symm
    · exact ((lastByteNegMask_eq_zero_iff _).mpr (by omega)).symm
    · intro h
      have := hend h
      omega

/-- The range that is scanned is the one that is asked for. -/
theorem bitposBounds_selects {len : Nat} (hlen : 0 < len) (range : BitposRange) :
    ((bitposBounds len range).stop < (bitposBounds len range).start ∧ range.positions len = ∅) ∨
      ∃ S E, Selects range len S E (bitposBounds len range) := by
  cases range with
  | whole =>
      rw [bitposBounds]
      refine selects_bytes (Int.le_refl 0) (Int.le_refl _) ?_ fun _ => rfl
      ext i
      simp only [BitposRange.positions, Set.mem_ofPred_eq]
      omega
  | tail start =>
      have hnonneg := clampIndex_nonneg len start
      have hstop : min (clampIndex len (-1)) (len - 1) = (len : Int) - 1 := by
        rw [clampIndex]
        split_ifs <;> omega
      have hclamp := bitposClamp_eq start (-1) false len
      simp only [Bool.false_eq_true, if_false, false_and, hstop] at hclamp
      rw [bitposBounds, hclamp]
      refine selects_bytes hnonneg (Int.le_refl _) ?_ fun _ => rfl
      ext i
      simp only [BitposRange.positions, Set.mem_ofPred_eq]
      omega
  | within start stop isbit =>
      have hclamp := bitposClamp_eq start stop isbit len
      cases isbit with
      | false =>
          have hnonneg := clampIndex_nonneg len start
          simp only [Bool.false_eq_true, if_false, false_and] at hclamp
          rw [bitposBounds, hclamp]
          refine selects_bytes hnonneg (Int.min_le_right _ _) ?_ nofun
          ext i
          simp only [BitposRange.positions, Set.mem_ofPred_eq]
          omega
      | true =>
          have hnonneg := clampIndex_nonneg (8 * len) start
          have hnonneg' := clampIndex_nonneg (8 * len) stop
          simp only [if_true, true_and] at hclamp
          rw [bitposBounds, hclamp]
          have hle : min (clampIndex (8 * len) stop) (8 * (len : Int) - 1) ≤ 8 * (len : Int) - 1 :=
            Int.min_le_right _ _
          have hpositions : (BitposRange.within start stop true).positions len = {i : Nat |
              clampIndex (8 * len) start ≤ (i : Int) ∧
                (i : Int) ≤ min (clampIndex (8 * len) stop) (8 * (len : Int) - 1)} := by
            ext i
            simp only [BitposRange.positions, Set.mem_ofPred_eq]
            omega
          have hhi : 0 ≤ min (clampIndex (8 * len) stop) (8 * (len : Int) - 1) := by omega
          generalize clampIndex (8 * len) start = lo at *
          generalize min (clampIndex (8 * len) stop) (8 * (len : Int) - 1) = hi at *
          split_ifs with hlt
          · have hlo' : (lo.toNat : Int) = lo := Int.toNat_of_nonneg hnonneg
            have hhi' : (hi.toNat : Int) = hi := Int.toNat_of_nonneg hhi
            refine .inr ⟨lo.toNat, hi.toNat, by omega, by omega, ?_, ?_, ?_, ?_, ?_, nofun⟩
            · rw [hpositions]
              ext i
              simp only [Set.mem_ofPred_eq]
              omega
            · show lo / 8 = _
              omega
            · show hi / 8 = _
              omega
            · show firstByteNegMask lo = _
              rw [hlo']
            · show lastByteNegMask hi = _
              rw [hhi']
          · refine .inl ⟨Int.not_le.mp hlt, ?_⟩
            rw [hpositions]
            exact Set.eq_empty_iff_forall_notMem.mpr fun i hi => by have := hi.1; have := hi.2; omega

/-- What is masked is not found. -/
theorem scan_masked (p : Bytes) (bit : Bool) {S E : Nat} (hSE : S ≤ E) :
    scan (masked p bit S E) bit (8 * (S / 8)) (8 * (E / 8 - S / 8 + 1)) = scan (bitAt p) bit S (E - S + 1) := by
  have hbefore : scan (masked p bit S E) bit (8 * (S / 8)) (S % 8) = none :=
    scan_eq_none.mpr fun i _ hi => if_neg (by omega)
  have hinside : scan (masked p bit S E) bit S (E - S + 1) = scan (bitAt p) bit S (E - S + 1) :=
    scan_congr fun i hi hi' => if_pos (by omega)
  have hafter : scan (masked p bit S E) bit (S + (E - S + 1)) (7 - E % 8) = none :=
    scan_eq_none.mpr fun i hi _ => if_neg (by omega)
  have hsplit : 8 * (E / 8 - S / 8 + 1) = S % 8 + (E - S + 1 + (7 - E % 8)) := by omega
  rw [hsplit, scan_add, hbefore, Option.none_or, show 8 * (S / 8) + S % 8 = S by omega, scan_add, hafter, hinside,
    Option.or_none]

theorem getbit_eq_toNat_iff {p : Bytes} {i : Nat} {bit : Bool} : getbit p i = bit.toNat ↔ bitAt p i = bit := by
  rw [getbit_eq]
  cases bitAt p i <;> cases bit <;> decide

theorem isBitpos_of_selects {range : BitposRange} {p : Bytes} {S E : Nat} {b : BitposBounds}
    (h : Selects range p.length S E b) (bit : Bool) :
    IsBitpos bit range p (rangeReply range.endGiven bit (E / 8) (scan (bitAt p) bit S (E - S + 1))) := by
  have hle := h.le
  have hmem : ∀ i, i ∈ range.positions p.length ↔ S ≤ i ∧ i ≤ E := by
    intro i
    rw [h.positions]
    rfl
  constructor
  case empty =>
    intro hempty
    have hS := (hmem S).mpr ⟨Nat.le_refl S, hle⟩
    rw [hempty] at hS
    exact absurd hS (Set.notMem_empty S)
  case found =>
    rintro n ⟨⟨hn, hbit⟩, hleast⟩
    obtain ⟨hlo, hhi⟩ := (hmem n).mp hn
    have hscan : scan (bitAt p) bit S (E - S + 1) = some n := by
      refine scan_eq_some.mpr ⟨⟨hlo, by omega, getbit_eq_toNat_iff.mp hbit⟩, fun j hj hj' => ?_⟩
      by_contra hne
      have hfound : getbit p j = bit.toNat := getbit_eq_toNat_iff.mpr (Bool.not_eq_not.mp hne)
      exact absurd (hleast ⟨(hmem j).mpr ⟨hj, by omega⟩, hfound⟩) (Nat.not_le.mpr hj')
    rw [hscan]
    rfl
  case absent =>
    intro _ hnone
    have hscan : scan (bitAt p) bit S (E - S + 1) = none := by
      refine scan_eq_none.mpr fun i hi hi' => ?_
      have hne := mt getbit_eq_toNat_iff.mpr (hnone i ((hmem i).mpr ⟨hi, by omega⟩))
      exact Bool.eq_not.mpr hne
    rw [hscan]
    cases bit with
    | true => rfl
    | false =>
        cases hend : range.endGiven with
        | true => rfl
        | false =>
            have := h.toEnd hend
            show (8 * ((E / 8 : Nat) + 1) : Int) = 8 * (p.length : Int)
            omega
  case padded =>
    rintro _ rfl hend
    have htoEnd := h.toEnd hend
    have hzero : ∀ {i}, getbit p i = (false.toNat : Nat) ↔ bitAt p i = false := getbit_eq_toNat_iff
    cases hscan : scan (bitAt p) false S (E - S + 1) with
    | some n =>
        obtain ⟨⟨hlo, hhi, hbit⟩, hbefore⟩ := scan_eq_some.mp hscan
        refine ⟨n, rfl, ⟨⟨n, (hmem n).mpr ⟨hlo, by omega⟩, Nat.le_refl n⟩, hzero.mpr hbit⟩, ?_⟩
        rintro m ⟨⟨j, hj, hjm⟩, hm⟩
        by_contra hlt
        have hones := hbefore m (Nat.le_trans ((hmem j).mp hj).1 hjm) (Nat.not_le.mp hlt)
        rw [hzero.mp hm] at hones
        contradiction
    | none =>
        have hpast : getbit p (E + 1) = 0 := hzero.mpr (bitAt_eq_false (by omega))
        rw [hend]
        refine ⟨E + 1, ?_, ⟨⟨E, (hmem E).mpr ⟨hle, Nat.le_refl E⟩, Nat.le_succ E⟩, hpast⟩, ?_⟩
        · show (8 * ((E / 8 : Nat) + 1) : Int) = ((E + 1 : Nat) : Int)
          omega
        · rintro m ⟨⟨j, hj, hjm⟩, hm⟩
          by_contra hlt
          have hones := scan_eq_none.mp hscan m (Nat.le_trans ((hmem j).mp hj).1 hjm) (by omega)
          rw [hzero.mp hm] at hones
          contradiction

/-- BITPOS of a string that is not empty. -/
theorem bitpos_spec {w : Nat} (hw : 0 < w) (mem : BitposMemory) (bit : Bool) (range : BitposRange) {p : Bytes}
    (hp : p ≠ []) : ∃ pos, bitpos w mem bit range p = some pos ∧ IsBitpos bit range p pos := by
  have hlen : 0 < p.length := List.length_pos_iff.mpr hp
  rw [bitpos, if_neg (Nat.pos_iff_ne_zero.mp hlen)]
  rcases bitposBounds_selects hlen range with ⟨hlt, hempty⟩ | ⟨S, E, h⟩
  · refine ⟨-1, if_pos hlt, fun _ => rfl, ?_, ?_, ?_⟩
    · rintro n ⟨⟨hn, -⟩, -⟩
      rw [hempty] at hn
      exact absurd hn (Set.notMem_empty n)
    · intro hne
      exact absurd hempty hne.ne_empty
    · intro hne
      exact absurd hempty hne.ne_empty
  · have hle := h.le
    refine ⟨_, ?_, isBitpos_of_selects h bit⟩
    rw [h.start, h.stop, h.first, h.last, if_neg (by omega), Int.toNat_natCast, Int.toNat_natCast,
      bitposScan_eq mem range.endGiven bit hw h.le h.lt, scan_masked p bit h.le]

section Command

variable [LuaCoercion ν]

/-- **BITPOS** answers with the least position in the range whose GETBIT is the
bit, whatever the word size and wherever the bytes are. -/
theorem bitpos_least {w : Nat} (hw : 0 < w) (mem : BitposMemory) {args : List (LuaValue ν)} {id : Nat} {bit : Bool}
    {range : BitposRange} (hargs : bitposArgs args = .ok (id, bit, range)) {s : Handles Bytes} (hs : s id ≠ []) :
    ∃ pos : Int, exec (lbitmapBitpos w mem args) s = (.ok (some (.int pos)), s) ∧
      IsBitpos bit range (s id) pos := by
  obtain ⟨pos, hpos, hspec⟩ := bitpos_spec hw mem bit range hs
  refine ⟨pos, ?_, hspec⟩
  rw [lbitmapBitpos, exec_check_bind, hargs]
  show (Except.ok ((bitpos w mem bit range (s id)).map Reply.int), s) = _
  rw [hpos]
  rfl

end Command

/-- A zero among the bits of a string, from a byte on. -/
def bitposTailArgs : List (LuaValue IntegralDouble) :=
  [.handle .bitmap 0, .number (.fin 0), .number (.fin 1)]

theorem bitpos_least_sample : ∃ pos : Int,
    exec (lbitmapBitpos 8 ⟨0, 3⟩ bitposTailArgs) (fun _ => [255, 255]) =
      (.ok (some (.int pos)), fun _ => [255, 255]) ∧ IsBitpos false (.tail 1) [255, 255] pos :=
  bitpos_least (by decide) ⟨0, 3⟩ (show bitposArgs bitposTailArgs = .ok (0, false, .tail 1) from rfl)
    (List.cons_ne_nil 255 [255])

end SkynetJit.Redis
