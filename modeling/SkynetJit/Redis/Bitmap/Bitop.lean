import SkynetJit.Lib.Raise
import SkynetJit.Lib.Words
import SkynetJit.Redis.Lua
import SkynetJit.Redis.Number

/-!
# SkynetJit.Redis.Bitmap.Bitop

BITOP (`facade/bitmap.c`).

Where all sources reach, four words are done at a time; the rest is done byte by
byte, and a loop over the sources is left as soon as they can change nothing.
`bitop_per_bit` says that every bit of the result is the operation on the bits of
the sources at its place, wherever the words end and the bytes begin.
-/

namespace SkynetJit.Redis

open Raise Words

variable {ν : Type}

/-- The `BITOP_*` operations. -/
inductive BitopOp where
  | and | or | xor | not | diff | diff1 | andor | one
deriving DecidableEq, Repr

/-- The operations that put a disjunction together first. -/
def BitopOp.disjoins (op : BitopOp) : Bool := op = .diff || op = .diff1 || op = .andor

/-! ## The code -/

/-- `maxlen`. -/
def maxlen (srcs : List Bytes) : Nat := srcs.foldl (fun n src => max n src.length) 0

/-- `minlen`. -/
def minlen : List Bytes → Nat
  | [] => 0
  | src :: srcs => srcs.foldl (fun n src => min n src.length) src.length

/-- The loops over the words: what four words of the result become. -/
def bitopBody (w : Nat) (op : BitopOp) (srcs : List Bytes) (k : Nat) (lres : List Nat) : List Nat :=
  let lp := (srcs.drop 1).map fun src => loads w 4 src k
  match op with
  | .and => lp.foldl (List.zipWith (· &&& ·)) lres
  | .or => lp.foldl (List.zipWith (· ||| ·)) lres
  | .xor => lp.foldl (List.zipWith (· ^^^ ·)) lres
  | .not => lres.map (complement w)
  | .diff => lp.foldl (List.zipWith (· ||| ·)) lres
  | .diff1 => lp.foldl (List.zipWith (· ||| ·)) lres
  | .andor => lp.foldl (List.zipWith (· ||| ·)) lres
  | .one =>
      let r := lp.foldl (fun r ws =>
        (List.zipWith (· ^^^ ·) r.1 ws, List.zipWith (· ||| ·) r.2 (List.zipWith (· &&& ·) r.1 ws)))
        (lres, [0, 0, 0, 0])
      List.zipWith (· &&& ·) r.1 (r.2.map (complement w))

/-- The second pass of the operations that put a disjunction together. -/
def bitopFinish (w : Nat) (op : BitopOp) (first : Bytes) (k : Nat) (ap : List Nat) : List Nat :=
  let firstKey := loads w 4 first k
  match op with
  | .diff => List.zipWith (· &&& ·) firstKey (ap.map (complement w))
  | .diff1 => List.zipWith (· &&& ·) (firstKey.map (complement w)) ap
  | _ => List.zipWith (· &&& ·) firstKey ap

/-- Blocks of four words, into a result of zeros. -/
def bitopWords (w : Nat) (op : BitopOp) (srcs : List Bytes) (blocks : Nat) (res : Bytes) : Bytes :=
  let first := srcs.getD 0 []
  if op.disjoins then
    wordLoop w 4 (bitopFinish w op first) blocks (wordLoop w 4 (bitopBody w op srcs) blocks res)
  else wordLoop w 4 (bitopBody w op srcs) blocks (first.take (minlen srcs) ++ res.drop (minlen srcs))

/-- `output`, `disjunction` and `common_bits`. -/
structure BitopByte where
  output : UInt8
  disjunction : UInt8 := 0
  common : UInt8 := 0

/-- One source, and whether the others are skipped. -/
def bitopByteStep (op : BitopOp) (st : BitopByte) (byteb : UInt8) : BitopByte × Bool :=
  match op with
  | .and => ({ st with output := st.output &&& byteb }, st.output &&& byteb == 0)
  | .or => ({ st with output := st.output ||| byteb }, st.output ||| byteb == 0xff)
  | .xor => ({ st with output := st.output ^^^ byteb }, false)
  | .not => (st, false)
  | .diff => ({ st with disjunction := st.disjunction ||| byteb }, st.disjunction ||| byteb == 0xff)
  | .diff1 => ({ st with disjunction := st.disjunction ||| byteb }, st.disjunction ||| byteb == 0xff)
  | .andor => ({ st with disjunction := st.disjunction ||| byteb }, st.disjunction ||| byteb == 0xff)
  | .one =>
      let common := st.common ||| (st.output &&& byteb)
      ({ st with common, output := (st.output ^^^ byteb) &&& ~~~common }, common == 0xff)

/-- The loop over the sources. -/
def bitopByteLoop (op : BitopOp) : List UInt8 → BitopByte → BitopByte
  | [], st => st
  | byteb :: rest, st =>
      let r := bitopByteStep op st byteb
      if r.2 then r.1 else bitopByteLoop op rest r.1

/-- The byte that comes of the accumulators. -/
def BitopByte.result (op : BitopOp) (st : BitopByte) : UInt8 :=
  match op with
  | .diff => st.output &&& ~~~st.disjunction
  | .diff1 => ~~~st.output &&& st.disjunction
  | .andor => st.output &&& st.disjunction
  | _ => st.output

/-- One byte of the result. -/
def bitopByte (op : BitopOp) (srcs : List Bytes) (j : Nat) : UInt8 :=
  let output := (srcs.getD 0 []).getD j 0
  let output := if op = .not then ~~~output else output
  (bitopByteLoop op ((srcs.drop 1).map fun src => src.getD j 0) { output }).result op

/-- The bytes from `j` on. -/
def bitopBytes (op : BitopOp) (srcs : List Bytes) (j : Nat) (res : Bytes) : Bytes :=
  res.mapIdx fun i b => if j ≤ i then bitopByte op srcs i else b

/-- Blocks of four words, and bytes behind them. -/
def bitopSplit (w : Nat) (op : BitopOp) (srcs : List Bytes) (blocks : Nat) : Bytes :=
  bitopBytes op srcs (w * 4 * blocks) (bitopWords w op srcs blocks (List.replicate (maxlen srcs) 0))

/-- `res`, as many words as the sources have together. -/
def bitopResult (w : Nat) (op : BitopOp) (srcs : List Bytes) : Bytes :=
  if maxlen srcs = 0 then []
  else if minlen srcs ≥ w * 4 then bitopSplit w op srcs (minlen srcs / (w * 4))
  else bitopBytes op srcs 0 (List.replicate (maxlen srcs) 0)

/-- The names of the operations. -/
def bitopOp (opname : Bytes) : Option BitopOp :=
  if eqIgnoreCase opname "and" then some .and
  else if eqIgnoreCase opname "or" then some .or
  else if eqIgnoreCase opname "xor" then some .xor
  else if eqIgnoreCase opname "not" then some .not
  else if eqIgnoreCase opname "diff" then some .diff
  else if eqIgnoreCase opname "diff1" then some .diff1
  else if eqIgnoreCase opname "andor" then some .andor
  else if eqIgnoreCase opname "one" then some .one
  else none

/-- ASCII upper case of one byte, as `sdstoupper` has it. -/
def upperByte (b : UInt8) : UInt8 := if 97 ≤ b ∧ b ≤ 122 then b - 32 else b

section Command

variable [LuaNumber ν]

/-- The arguments of BITOP: the operation, and the handles of the sources. -/
def bitopArgs (args : List (LuaValue ν)) : Except LuaError (BitopOp × List Nat) := do
  let opname ← rlArgstring args 1 "bitop"
  match bitopOp opname with
  | none => .error syntaxErr
  | some op =>
      let keys ← rlChecklist args 2 "bitop"
      if op = .not ∧ keys.length ≠ 1 then
        .error (rlError (ascii "BITOP NOT must be called with a single source key."))
      else if op.disjoins ∧ keys.length < 2 then
        .error (rlError (ascii "BITOP " ++ opname.map upperByte ++
          ascii " must be called with at least two source keys."))
      else if keys.length = 0 then .error (rlError (ascii "wrong number of arguments"))
      else
        let ids ← keys.mapM fun v => rlCheckValue .bitmap (some v)
        return (op, ids)

/-- `lbitmap_bitop`; the new object takes the handle `id`. -/
def lbitmapBitop (w id : Nat) (args : List (LuaValue ν)) : Command (Handles Bytes) (Reply ν) := do
  let (op, ids) ← check (bitopArgs args)
  let s ← get
  set (s.put id (bitopResult w op (ids.map s)))
  return .object .bitmap id

end Command

/-! ## The operations -/

/-- How many of the bits are set. -/
def setCount (bits : List Bool) : Nat := bits.count true

/-- **The operations** on the bits of the sources at one place. -/
def BitopOp.bit (op : BitopOp) (bits : List Bool) : Bool :=
  let x := bits.headD false
  let ys := bits.drop 1
  match op with
  | .and => bits.all id
  | .or => bits.any id
  | .xor => setCount bits % 2 = 1
  | .not => !x
  | .diff => x && !ys.any id
  | .diff1 => !x && ys.any id
  | .andor => x && ys.any id
  | .one => setCount bits = 1

/-- How many sources an operation takes. -/
def BitopOp.Legal (op : BitopOp) (n : Nat) : Prop :=
  0 < n ∧ (op = .not → n = 1) ∧ (op.disjoins = true → 2 ≤ n)

/-! ## The words -/

/-- What a loop over the words does to one bit. -/
def BitopOp.bodyBit (op : BitopOp) (x : Bool) (ys : List Bool) : Bool :=
  match op with
  | .and => ys.foldl (· && ·) x
  | .or => ys.foldl (· || ·) x
  | .xor => ys.foldl Bool.xor x
  | .not => !x
  | .diff => ys.foldl (· || ·) x
  | .diff1 => ys.foldl (· || ·) x
  | .andor => ys.foldl (· || ·) x
  | .one =>
      let r := ys.foldl (fun r y => (Bool.xor r.1 y, r.2 || (r.1 && y))) (x, false)
      r.1 && !r.2

/-- What the second pass does to one bit. -/
def BitopOp.finishBit (op : BitopOp) (x d : Bool) : Bool :=
  match op with
  | .diff => x && !d
  | .diff1 => !x && d
  | _ => x && d

/-- The two accumulators of ONE, bit by bit. -/
theorem wordsBit_one {w : Nat} {lp : List (List Nat)} (hlp : ∀ ws ∈ lp, ws.length = 4) {xs cs : List Nat}
    (hx : xs.length = 4) (hc : cs.length = 4) :
    let r := lp.foldl (fun r ws =>
      (List.zipWith (· ^^^ ·) r.1 ws, List.zipWith (· ||| ·) r.2 (List.zipWith (· &&& ·) r.1 ws))) (xs, cs)
    r.1.length = 4 ∧ r.2.length = 4 ∧ ∀ n, n < 8 * w * 4 → (wordsBit w r.1 n, wordsBit w r.2 n) =
      (lp.map fun ws => wordsBit w ws n).foldl (fun r y => (Bool.xor r.1 y, r.2 || (r.1 && y)))
        (wordsBit w xs n, wordsBit w cs n) := by
  induction lp generalizing xs cs with
  | nil => exact ⟨hx, hc, fun n _ => rfl⟩
  | cons ws lp ih =>
      have hws := hlp ws List.mem_cons_self
      have hxor : (List.zipWith (· ^^^ ·) xs ws).length = 4 := by rw [List.length_zipWith, hx, hws, Nat.min_self]
      have hand : (List.zipWith (· &&& ·) xs ws).length = 4 := by rw [List.length_zipWith, hx, hws, Nat.min_self]
      have hor : (List.zipWith (· ||| ·) cs (List.zipWith (· &&& ·) xs ws)).length = 4 := by
        rw [List.length_zipWith, hc, hand, Nat.min_self]
      obtain ⟨hlen, hlen', hbits⟩ := ih (fun ws' h => hlp ws' (List.mem_cons_of_mem ws h)) hxor hor
      refine ⟨hlen, hlen', fun n hn => ?_⟩
      rw [List.foldl_cons, List.map_cons, List.foldl_cons]
      refine (hbits n hn).trans ?_
      rw [wordsBit_zipWith (bitwise_xor w) hx hws hn, wordsBit_zipWith (bitwise_or w) hc hand hn,
        wordsBit_zipWith (bitwise_and w) hx hws hn]

/-- The bits of the other sources. -/
theorem map_wordsBit_loads {w n : Nat} (srcs : List Bytes) (k : Nat) (hn : n < 8 * w * 4) :
    ((srcs.map fun src => loads w 4 src k).map fun ws => wordsBit w ws n) =
      srcs.map fun src => bits src (8 * w * k + n) := by
  rw [List.map_map]
  exact List.map_congr_left fun src _ => wordsBit_loads src k hn

/-- **A loop over the words**, bit by bit. -/
theorem bitopBody_bits (w : Nat) (op : BitopOp) (srcs : List Bytes) (k : Nat) {lres : List Nat}
    (hlres : lres.length = 4) :
    (bitopBody w op srcs k lres).length = 4 ∧ ∀ n, n < 8 * w * 4 →
      wordsBit w (bitopBody w op srcs k lres) n =
        op.bodyBit (wordsBit w lres n) ((srcs.drop 1).map fun src => bits src (8 * w * k + n)) := by
  have hlp : ∀ ws ∈ (srcs.drop 1).map fun src => loads w 4 src k, ws.length = 4 := by
    intro ws hws
    obtain ⟨src, -, rfl⟩ := List.mem_map.mp hws
    exact length_loads w 4 src k
  have hfold : ∀ {f : Nat → Nat → Nat} {g : Bool → Bool → Bool}, Bitwise w f g →
      (((srcs.drop 1).map fun src => loads w 4 src k).foldl (List.zipWith f) lres).length = 4 ∧
        ∀ n, n < 8 * w * 4 →
          wordsBit w (((srcs.drop 1).map fun src => loads w 4 src k).foldl (List.zipWith f) lres) n =
            ((srcs.drop 1).map fun src => bits src (8 * w * k + n)).foldl g (wordsBit w lres n) := by
    intro f g hf
    obtain ⟨hlen, hbits⟩ := wordsBit_foldl_zipWith hf hlp hlres
    refine ⟨hlen, fun n hn => ?_⟩
    rw [hbits n hn, map_wordsBit_loads _ k hn]
  cases op with
  | and => exact hfold (bitwise_and w)
  | or => exact hfold (bitwise_or w)
  | xor => exact hfold (bitwise_xor w)
  | diff => exact hfold (bitwise_or w)
  | diff1 => exact hfold (bitwise_or w)
  | andor => exact hfold (bitwise_or w)
  | not => exact ⟨(List.length_map _).trans hlres, fun n hn => wordsBit_map_complement hlres hn⟩
  | one =>
      have hzeros : ([0, 0, 0, 0] : List Nat).length = 4 := rfl
      obtain ⟨hlen, hlen', hbits⟩ := wordsBit_one (w := w) hlp hlres hzeros
      have hcomplement := (List.length_map (complement w)).trans hlen'
      refine ⟨by rw [bitopBody, List.length_zipWith, hlen, hcomplement, Nat.min_self], fun n hn => ?_⟩
      have hzero : wordsBit w [0, 0, 0, 0] n = false := by
        rw [wordsBit, show ([0, 0, 0, 0] : List Nat) = List.replicate 4 0 from rfl, List.getD_eq_getElem?_getD,
          List.getElem?_replicate]
        split_ifs <;> exact Nat.zero_testBit _
      have hpair := hbits n hn
      rw [map_wordsBit_loads _ k hn, hzero] at hpair
      rw [bitopBody, wordsBit_zipWith (bitwise_and w) hlen hcomplement hn, wordsBit_map_complement hlen' hn,
        BitopOp.bodyBit, ← hpair]

/-- **The second pass**, bit by bit. -/
theorem bitopFinish_bits (w : Nat) {op : BitopOp} (hop : op.disjoins = true) (first : Bytes) (k : Nat)
    {ap : List Nat} (hap : ap.length = 4) :
    (bitopFinish w op first k ap).length = 4 ∧ ∀ n, n < 8 * w * 4 →
      wordsBit w (bitopFinish w op first k ap) n =
        op.finishBit (bits first (8 * w * k + n)) (wordsBit w ap n) := by
  have hkey := length_loads w 4 first k
  have hap' := (List.length_map (complement w)).trans hap
  have hkey' := (List.length_map (complement w)).trans hkey
  have hload : ∀ n, n < 8 * w * 4 → wordsBit w (loads w 4 first k) n = bits first (8 * w * k + n) := fun n hn =>
    wordsBit_loads first k hn
  cases op with
  | diff =>
      refine ⟨by rw [bitopFinish, List.length_zipWith, hkey, hap', Nat.min_self], fun n hn => ?_⟩
      rw [bitopFinish, wordsBit_zipWith (bitwise_and w) hkey hap' hn, wordsBit_map_complement hap hn, hload n hn,
        BitopOp.finishBit]
  | diff1 =>
      refine ⟨by rw [bitopFinish, List.length_zipWith, hkey', hap, Nat.min_self], fun n hn => ?_⟩
      rw [bitopFinish, wordsBit_zipWith (bitwise_and w) hkey' hap hn, wordsBit_map_complement hkey hn, hload n hn,
        BitopOp.finishBit]
  | andor =>
      have hwords : bitopFinish w .andor first k ap = List.zipWith (· &&& ·) (loads w 4 first k) ap := rfl
      refine ⟨by rw [hwords, List.length_zipWith, hkey, hap, Nat.min_self], fun n hn => ?_⟩
      rw [hwords, wordsBit_zipWith (bitwise_and w) hkey hap hn, hload n hn]
      rfl
  | _ => contradiction

/-! ## The operations, source after source -/

theorem foldl_and (ys : List Bool) (x : Bool) : ys.foldl (· && ·) x = (x && ys.all id) := by
  induction ys generalizing x with
  | nil => simp
  | cons y ys ih => simp [ih, Bool.and_assoc]

theorem foldl_or (ys : List Bool) (x : Bool) : ys.foldl (· || ·) x = (x || ys.any id) := by
  induction ys generalizing x with
  | nil => simp
  | cons y ys ih => simp [ih, Bool.or_assoc]

theorem setCount_cons (x : Bool) (ys : List Bool) : setCount (x :: ys) = x.toNat + setCount ys := by
  cases x <;> simp [setCount, Nat.add_comm]

theorem foldl_xor (ys : List Bool) (x : Bool) : ys.foldl Bool.xor x = decide (setCount (x :: ys) % 2 = 1) := by
  induction ys generalizing x with
  | nil => cases x <;> rfl
  | cons y ys ih =>
      rw [List.foldl_cons, ih, decide_eq_decide, setCount_cons, setCount_cons, setCount_cons]
      cases x <;> cases y <;> simp
      all_goals omega

/-- The parity, and whether two bits were set. -/
theorem foldl_one (ys : List Bool) (x c : Bool) :
    (let r := ys.foldl (fun r y => (Bool.xor r.1 y, r.2 || (r.1 && y))) (x, c)
    r.1 && !r.2) = (!c && decide (setCount (x :: ys) = 1)) := by
  induction ys generalizing x c with
  | nil => cases x <;> cases c <;> rfl
  | cons y ys ih =>
      simp only [List.foldl_cons] at ih ⊢
      rw [ih, setCount_cons, setCount_cons, setCount_cons]
      cases x <;> cases y <;> cases c <;> simp

/-- **The words**: one loop for most operations, two for the rest. -/
theorem bodyBit_eq (op : BitopOp) {x : Bool} {ys : List Bool} (hlegal : op.Legal (ys.length + 1)) :
    (if op.disjoins then op.finishBit x (op.bodyBit false ys) else op.bodyBit x ys) = op.bit (x :: ys) := by
  cases op with
  | and => simp [BitopOp.disjoins, BitopOp.bodyBit, foldl_and, BitopOp.bit]
  | or => simp [BitopOp.disjoins, BitopOp.bodyBit, foldl_or, BitopOp.bit]
  | xor => simp [BitopOp.disjoins, BitopOp.bodyBit, foldl_xor, BitopOp.bit]
  | not => rfl
  | diff => simp [BitopOp.disjoins, BitopOp.bodyBit, BitopOp.finishBit, foldl_or, BitopOp.bit]
  | diff1 => simp [BitopOp.disjoins, BitopOp.bodyBit, BitopOp.finishBit, foldl_or, BitopOp.bit]
  | andor => simp [BitopOp.disjoins, BitopOp.bodyBit, BitopOp.finishBit, foldl_or, BitopOp.bit]
  | one => simp [BitopOp.disjoins, BitopOp.bodyBit, foldl_one, BitopOp.bit]

/-! ## The bytes -/

/-- What the accumulators hold at one place, after the sources with the bits
`ys`. -/
def BitopOp.accumulated (op : BitopOp) (x : Bool) (ys : List Bool) : Bool × Bool × Bool :=
  match op with
  | .and => (x && ys.all id, false, false)
  | .or => (x || ys.any id, false, false)
  | .xor => (decide (setCount (x :: ys) % 2 = 1), false, false)
  | .not => (x, false, false)
  | .one => (decide (setCount (x :: ys) = 1), false, decide (2 ≤ setCount (x :: ys)))
  | _ => (x, ys.any id, false)

/-- The bit that comes of the accumulators. -/
def BitopOp.resultBit (op : BitopOp) (r : Bool × Bool × Bool) : Bool :=
  if op.disjoins then op.finishBit r.1 r.2.1 else r.1

/-- The accumulators at one place. -/
def BitopByte.bit (st : BitopByte) (t : Nat) : Bool × Bool × Bool :=
  (st.output.toNat.testBit t, st.disjunction.toNat.testBit t, st.common.toNat.testBit t)

theorem setCount_append_singleton (x : Bool) (ys : List Bool) (y : Bool) :
    setCount (x :: (ys ++ [y])) = setCount (x :: ys) + y.toNat := by
  rw [← List.cons_append, setCount, List.count_append, ← setCount]
  cases y <;> rfl

/-- **One source.** -/
theorem bitopByteStep_bit {op : BitopOp} {st : BitopByte} {x : Bool} {ys : List Bool} {t : Nat} (ht : t < 8)
    (h : st.bit t = op.accumulated x ys) (hnot : op ≠ .not) (b : UInt8) :
    (bitopByteStep op st b).1.bit t = op.accumulated x (ys ++ [b.toNat.testBit t]) := by
  obtain ⟨hx, hd, hc⟩ : st.output.toNat.testBit t = (op.accumulated x ys).1 ∧
      st.disjunction.toNat.testBit t = (op.accumulated x ys).2.1 ∧
      st.common.toNat.testBit t = (op.accumulated x ys).2.2 := by simp [← h, BitopByte.bit]
  cases op with
  | not => contradiction
  | one =>
      simp only [bitopByteStep, BitopByte.bit, BitopOp.accumulated, testBit_and_byte, testBit_or_byte,
        testBit_xor_byte, testBit_not_byte _ ht, hx, hd, hc, setCount_append_singleton]
      rcases setCount (x :: ys) with _ | _ | m <;> cases b.toNat.testBit t <;> simp
  | xor =>
      simp only [bitopByteStep, BitopByte.bit, BitopOp.accumulated, testBit_xor_byte, hx, hd, hc,
        setCount_append_singleton]
      rcases Nat.mod_two_eq_zero_or_one (setCount (x :: ys)) with hm | hm <;> cases b.toNat.testBit t <;>
        simp [hm, Nat.add_mod]
  | and => simp [bitopByteStep, BitopByte.bit, BitopOp.accumulated, hx, hd, hc, Bool.and_assoc]
  | or => simp [bitopByteStep, BitopByte.bit, BitopOp.accumulated, hx, hd, hc, Bool.or_assoc]
  | diff => simp [bitopByteStep, BitopByte.bit, BitopOp.accumulated, hx, hd, hc]
  | diff1 => simp [bitopByteStep, BitopByte.bit, BitopOp.accumulated, hx, hd, hc]
  | andor => simp [bitopByteStep, BitopByte.bit, BitopOp.accumulated, hx, hd, hc]

/-- Where the other sources are skipped, they change nothing. -/
theorem resultBit_of_skip {op : BitopOp} {st : BitopByte} {b : UInt8} {t : Nat} (ht : t < 8)
    (hskip : (bitopByteStep op st b).2 = true) {x : Bool} {ys : List Bool}
    (h : (bitopByteStep op st b).1.bit t = op.accumulated x ys) (zs : List Bool) :
    op.resultBit (op.accumulated x (ys ++ zs)) = op.resultBit (op.accumulated x ys) := by
  have hdisjoins : ∀ {d : UInt8}, (d == 0xff) = true → d.toNat.testBit t = ys.any id →
      (ys ++ zs).any id = ys.any id := by
    intro d hd hbit
    rw [beq_iff_eq.mp hd, testBit_ones_byte ht] at hbit
    rw [List.any_append, ← hbit, Bool.true_or]
  cases op with
  | xor => contradiction
  | not => contradiction
  | and =>
      have hzero : (st.output &&& b).toNat.testBit t = (x && ys.all id) := congrArg Prod.fst h
      have hout : st.output &&& b = 0 := beq_iff_eq.mp hskip
      rw [hout, testBit_zero_byte] at hzero
      show (x && (ys ++ zs).all id) = (x && ys.all id)
      rw [List.all_append, ← Bool.and_assoc, ← hzero, Bool.false_and]
  | or =>
      have hones : (st.output ||| b).toNat.testBit t = (x || ys.any id) := congrArg Prod.fst h
      have hout : st.output ||| b = 0xff := beq_iff_eq.mp hskip
      rw [hout, testBit_ones_byte ht] at hones
      show (x || (ys ++ zs).any id) = (x || ys.any id)
      rw [List.any_append, ← Bool.or_assoc, ← hones, Bool.true_or]
  | diff => exact congrArg (fun d => BitopOp.diff.finishBit x d) (hdisjoins hskip (congrArg (fun r => r.2.1) h))
  | diff1 => exact congrArg (fun d => BitopOp.diff1.finishBit x d) (hdisjoins hskip (congrArg (fun r => r.2.1) h))
  | andor => exact congrArg (fun d => BitopOp.andor.finishBit x d) (hdisjoins hskip (congrArg (fun r => r.2.1) h))
  | one =>
      have htwo : (bitopByteStep .one st b).1.common.toNat.testBit t = decide (2 ≤ setCount (x :: ys)) :=
        congrArg (fun r => r.2.2) h
      have hcommon : (bitopByteStep .one st b).1.common = 0xff := beq_iff_eq.mp hskip
      rw [hcommon, testBit_ones_byte ht] at htwo
      have hle : 2 ≤ setCount (x :: ys) := of_decide_eq_true htwo.symm
      have hmore : setCount (x :: (ys ++ zs)) = setCount (x :: ys) + setCount zs := by
        rw [← List.cons_append, setCount, List.count_append]
        rfl
      show decide (setCount (x :: (ys ++ zs)) = 1) = decide (setCount (x :: ys) = 1)
      rw [decide_eq_decide, hmore]
      omega

/-- **The loop over the sources**, left early or not. -/
theorem bitopByteLoop_bit {op : BitopOp} (hnot : op ≠ .not) {t : Nat} (ht : t < 8) {x : Bool} (bytes : List UInt8)
    {ys : List Bool} {st : BitopByte} (h : st.bit t = op.accumulated x ys) :
    op.resultBit ((bitopByteLoop op bytes st).bit t) =
      op.resultBit (op.accumulated x (ys ++ bytes.map fun b => b.toNat.testBit t)) := by
  induction bytes generalizing ys st with
  | nil => rw [bitopByteLoop, h, List.map_nil, List.append_nil]
  | cons b bytes ih =>
      have hstep := bitopByteStep_bit ht h hnot b
      rw [bitopByteLoop, List.map_cons, List.append_cons]
      cases hskip : (bitopByteStep op st b).2 with
      | true => rw [if_pos rfl, hstep, resultBit_of_skip ht hskip hstep]
      | false => rw [if_neg Bool.false_ne_true, ih hstep]

theorem resultBit_accumulated (op : BitopOp) (hnot : op ≠ .not) (x : Bool) (ys : List Bool) :
    op.resultBit (op.accumulated x ys) = op.bit (x :: ys) := by
  cases op with
  | not => contradiction
  | and => simp [BitopOp.resultBit, BitopOp.accumulated, BitopOp.disjoins, BitopOp.bit]
  | or => simp [BitopOp.resultBit, BitopOp.accumulated, BitopOp.disjoins, BitopOp.bit]
  | xor => rfl
  | diff => rfl
  | diff1 => rfl
  | andor => rfl
  | one => rfl

theorem accumulated_nil (op : BitopOp) (x : Bool) : op.accumulated x [] = (x, false, false) := by
  cases op <;> cases x <;> rfl

theorem testBit_result (op : BitopOp) (st : BitopByte) {t : Nat} (ht : t < 8) :
    (st.result op).toNat.testBit t = op.resultBit (st.bit t) := by
  cases op with
  | diff => exact (testBit_and_byte _ _ t).trans (congrArg _ (testBit_not_byte _ ht))
  | diff1 => exact (testBit_and_byte _ _ t).trans (congrArg (· && _) (testBit_not_byte _ ht))
  | andor => exact testBit_and_byte _ _ t
  | _ => rfl

/-- **One byte** of the result, bit by bit. -/
theorem bitopByte_bit {op : BitopOp} {first : Bytes} {rest : List Bytes} (hlegal : op.Legal (rest.length + 1))
    (j : Nat) {t : Nat} (ht : t < 8) :
    (bitopByte op (first :: rest) j).toNat.testBit t =
      op.bit ((first :: rest).map fun src => (src.getD j 0).toNat.testBit t) := by
  by_cases hnot : op = .not
  · subst hnot
    have hrest : rest = [] := List.length_eq_zero_iff.mp (Nat.succ.inj (hlegal.2.1 rfl))
    subst hrest
    exact testBit_not_byte _ ht
  · have hstart : BitopByte.bit { output := first.getD j 0 } t =
        op.accumulated ((first.getD j 0).toNat.testBit t) [] := by
      rw [accumulated_nil, BitopByte.bit, testBit_zero_byte]
    have hloop := bitopByteLoop_bit hnot ht (rest.map fun src => src.getD j 0) hstart
    rw [List.nil_append, List.map_map, resultBit_accumulated op hnot, ← testBit_result op _ ht] at hloop
    rw [bitopByte, if_neg hnot]
    exact hloop

/-! ## The result -/

/-- No source is longer. -/
theorem length_le_maxlen {srcs : List Bytes} {src : Bytes} (h : src ∈ srcs) : src.length ≤ maxlen srcs := by
  have hfold : ∀ (l : List Bytes) (n : Nat), n ≤ l.foldl (fun n src => max n src.length) n ∧
      (src ∈ l → src.length ≤ l.foldl (fun n src => max n src.length) n) := by
    intro l
    induction l with
    | nil => exact fun n => ⟨Nat.le_refl n, nofun⟩
    | cons a l ih =>
        intro n
        obtain ⟨hle, hmem⟩ := ih (max n a.length)
        refine ⟨Nat.le_trans (Nat.le_max_left _ _) hle, fun h => ?_⟩
        rcases List.mem_cons.mp h with rfl | h
        · exact Nat.le_trans (Nat.le_max_right _ _) hle
        · exact hmem h
  exact (hfold srcs 0).2 h

/-- The first source has the shared part. -/
theorem minlen_le_first (first : Bytes) (rest : List Bytes) : minlen (first :: rest) ≤ first.length := by
  have hfold : ∀ (l : List Bytes) (n : Nat), l.foldl (fun n src => min n src.length) n ≤ n := by
    intro l
    induction l with
    | nil => exact fun n => Nat.le_refl n
    | cons a l ih => exact fun n => Nat.le_trans (ih _) (Nat.min_le_left _ _)
  exact hfold rest first.length

/-- **The words** of the result, as many blocks of them as all sources have. -/
theorem bitopWords_bits (w : Nat) {op : BitopOp} {first : Bytes} {rest : List Bytes}
    (hlegal : op.Legal (rest.length + 1)) {blocks : Nat} (hblocks : w * 4 * blocks ≤ minlen (first :: rest))
    {len : Nat} (hlen : minlen (first :: rest) ≤ len) :
    (bitopWords w op (first :: rest) blocks (List.replicate len 0)).length = len ∧ ∀ n, n < 8 * w * 4 * blocks →
      bits (bitopWords w op (first :: rest) blocks (List.replicate len 0)) n =
        op.bit ((first :: rest).map fun src => bits src n) := by
  have hbody : ∀ s : Bytes, s.length = len →
      LoopSpec w 4 (fun n x => op.bodyBit x (rest.map fun src => bits src n)) blocks s
        (wordLoop w 4 (bitopBody w op (first :: rest)) blocks s) := by
    intro s hs
    refine wordLoop_spec (fun k ws hws => (bitopBody_bits w op (first :: rest) k hws).1)
      (fun k ws n hws hn => (bitopBody_bits w op (first :: rest) k hws).2 n hn) blocks ?_
    exact hs ▸ Nat.le_trans hblocks hlen
  have hbit : ∀ n, (if op.disjoins then
        op.finishBit (bits first n) (op.bodyBit false (rest.map fun src => bits src n))
      else op.bodyBit (bits first n) (rest.map fun src => bits src n)) =
      op.bit ((first :: rest).map fun src => bits src n) := by
    intro n
    refine bodyBit_eq op ?_
    rwa [List.length_map]
  rw [bitopWords]
  cases hdisjoins : op.disjoins with
  | true =>
      have hzeros := hbody _ (List.length_replicate (a := (0 : UInt8)) (n := len))
      have hfinish : LoopSpec w 4 (fun n d => op.finishBit (bits first n) d) blocks _ _ :=
        wordLoop_spec (fun k ws hws => (bitopFinish_bits w hdisjoins first k hws).1)
          (fun k ws n hws hn => (bitopFinish_bits w hdisjoins first k hws).2 n hn) blocks
          (hzeros.length.symm ▸ (List.length_replicate (a := (0 : UInt8)) (n := len)).symm ▸
            Nat.le_trans hblocks hlen)
      refine ⟨hfinish.length.trans (hzeros.length.trans List.length_replicate), fun n hn => ?_⟩
      have hzero : bits (List.replicate len 0) n = false := by
        rw [bits, List.getD_eq_getElem?_getD, List.getElem?_replicate]
        split_ifs <;> exact Nat.zero_testBit _
      rw [if_pos rfl]
      refine (hfinish.bits n).trans ?_
      rw [if_pos hn, hzeros.bits n, if_pos hn, hzero, ← hbit n, if_pos hdisjoins]
  | false =>
      have htake : ((first.take (minlen (first :: rest)) ++
          (List.replicate len (0 : UInt8)).drop (minlen (first :: rest)))).length = len := by
        have hle := minlen_le_first first rest
        simp only [List.length_append, List.length_take, List.length_drop, List.length_replicate]
        omega
      have hcopy := hbody _ htake
      rw [if_neg Bool.false_ne_true]
      refine ⟨hcopy.length.trans htake, fun n hn => ?_⟩
      have hfirst : bits (first.take (minlen (first :: rest)) ++
          (List.replicate len (0 : UInt8)).drop (minlen (first :: rest))) n = bits first n := by
        have hle := minlen_le_first first rest
        have hn' : n < 8 * minlen (first :: rest) := by
          calc n < 8 * w * 4 * blocks := hn
            _ = 8 * (w * 4 * blocks) := by ring
            _ ≤ 8 * minlen (first :: rest) := Nat.mul_le_mul_left 8 hblocks
        rw [bits_append, List.length_take, Nat.min_eq_left hle, if_pos hn', bits_take hn']
      refine (hcopy.bits n).trans ?_
      rw [if_pos hn, hfirst, ← hbit n, if_neg (by simp [hdisjoins])]

/-- The bytes behind the words. -/
theorem bitopBytes_bits {op : BitopOp} {first : Bytes} {rest : List Bytes} (hlegal : op.Legal (rest.length + 1))
    {j : Nat} (res : Bytes)
    (hwords : ∀ n, n < 8 * j → bits res n = op.bit ((first :: rest).map fun src => bits src n)) :
    (bitopBytes op (first :: rest) j res).length = res.length ∧ ∀ n, n < 8 * res.length →
      bits (bitopBytes op (first :: rest) j res) n = op.bit ((first :: rest).map fun src => bits src n) := by
  refine ⟨List.length_mapIdx, fun n hn => ?_⟩
  have hlt : n / 8 < res.length := by omega
  have hmod : n % 8 < 8 := Nat.mod_lt n (by decide)
  rw [bits, bitopBytes, List.getD_eq_getElem?_getD, List.getElem?_mapIdx, List.getElem?_eq_getElem hlt,
    Option.map_some, Option.getD_some]
  split_ifs with hj
  · exact bitopByte_bit hlegal (n / 8) hmod
  · rw [← hwords n (by omega), bits, List.getD_eq_getElem?_getD, List.getElem?_eq_getElem hlt, Option.getD_some]

/-- What the result is to be: as long as the longest source, and the operation
at every place. -/
structure IsBitop (op : BitopOp) (srcs : List Bytes) (res : Bytes) : Prop where
  length : res.length = maxlen srcs
  bits : ∀ i, i < 8 * res.length → bitAt res i = op.bit (srcs.map fun src => bitAt src i)

/-- There is one such result. -/
theorem IsBitop.unique {op : BitopOp} {srcs : List Bytes} {res res' : Bytes} (h : IsBitop op srcs res)
    (h' : IsBitop op srcs res') : res = res' := by
  have hlen := h.length.trans h'.length.symm
  refine ext_bits hlen fun n hn => ?_
  -- the place of a bit in the one order is its place in the other
  have hn' : n = 8 * ((8 * (n / 8) + (7 - n % 8)) / 8) + (7 - (8 * (n / 8) + (7 - n % 8)) % 8) := by omega
  rw [hn', ← bitAt_eq_bits, ← bitAt_eq_bits, h.bits _ (by omega), h'.bits _ (by omega)]

theorem isBitop_of_bits {op : BitopOp} {srcs : List Bytes} {res : Bytes} (hlen : res.length = maxlen srcs)
    (hbits : ∀ n, n < 8 * res.length → bits res n = op.bit (srcs.map fun src => bits src n)) :
    IsBitop op srcs res := by
  refine ⟨hlen, fun i hi => ?_⟩
  rw [bitAt_eq_bits, hbits _ (by omega)]
  simp only [bitAt_eq_bits]

/-- **Any number of words**, and bytes behind them. -/
theorem bitopSplit_spec (w : Nat) {op : BitopOp} {srcs : List Bytes} (hlegal : op.Legal srcs.length) {blocks : Nat}
    (hblocks : w * 4 * blocks ≤ minlen srcs) : IsBitop op srcs (bitopSplit w op srcs blocks) := by
  cases srcs with
  | nil => exact absurd hlegal.1 (Nat.lt_irrefl 0)
  | cons first rest =>
      have hle : minlen (first :: rest) ≤ maxlen (first :: rest) :=
        Nat.le_trans (minlen_le_first first rest) (length_le_maxlen List.mem_cons_self)
      obtain ⟨hlen, hwords⟩ := bitopWords_bits w hlegal hblocks hle
      obtain ⟨hlen', hbits⟩ := bitopBytes_bits hlegal (j := w * 4 * blocks) _ fun n hn => hwords n (by
        calc n < 8 * (w * 4 * blocks) := hn
          _ = 8 * w * 4 * blocks := by ring)
      refine isBitop_of_bits (hlen'.trans hlen) fun n hn => hbits n ?_
      rwa [← hlen']

/-- **The result.** -/
theorem bitopResult_spec (w : Nat) {op : BitopOp} {srcs : List Bytes} (hlegal : op.Legal srcs.length) :
    IsBitop op srcs (bitopResult w op srcs) := by
  rw [bitopResult]
  split_ifs with hmax hmin
  · exact ⟨hmax.symm, nofun⟩
  · exact bitopSplit_spec w hlegal (Nat.mul_div_le (minlen srcs) (w * 4))
  · cases srcs with
    | nil => exact absurd hlegal.1 (Nat.lt_irrefl 0)
    | cons first rest =>
        obtain ⟨hlen, hbits⟩ := bitopBytes_bits hlegal (j := 0)
          (List.replicate (maxlen (first :: rest)) 0) nofun
        rw [List.length_replicate] at hlen hbits
        exact isBitop_of_bits hlen fun n hn => hbits n (hlen ▸ hn)

section Command

variable [LuaNumber ν]

/-- Arguments that are accepted: a number of sources that the operation takes. -/
theorem legal_of_bitopArgs {args : List (LuaValue ν)} {op : BitopOp} {ids : List Nat}
    (h : bitopArgs args = .ok (op, ids)) : op.Legal ids.length := by
  obtain ⟨opname, -, h⟩ := except_bind_eq_ok.mp h
  cases hop : bitopOp opname with
  | none =>
      rw [hop] at h
      contradiction
  | some op' =>
      rw [hop] at h
      obtain ⟨keys, -, h⟩ := except_bind_eq_ok.mp h
      split_ifs at h with hnot hdisjoins hzero
      obtain ⟨ids', hids, hok⟩ := except_bind_eq_ok.mp h
      obtain ⟨rfl, rfl⟩ := Prod.mk.inj (Except.ok.inj hok)
      rw [mapM_rlCheckValue_length hids]
      exact ⟨Nat.pos_of_ne_zero hzero, fun hop => not_not.mp fun hne => hnot ⟨hop, hne⟩,
        fun hd => Nat.not_lt.mp fun hlt => hdisjoins ⟨hd, hlt⟩⟩

/-- **BITOP** is its operation, bit by bit: for every number of sources that
is accepted, whatever their lengths, and wherever the words end. -/
theorem bitop_per_bit (w id : Nat) {args : List (LuaValue ν)} {op : BitopOp} {ids : List Nat}
    (hargs : bitopArgs args = .ok (op, ids)) (s : Handles Bytes) :
    ∃ res, exec (lbitmapBitop w id args) s = (.ok (.object .bitmap id), s.put id res) ∧
      IsBitop op (ids.map s) res ∧
      ∀ blocks, w * 4 * blocks ≤ minlen (ids.map s) → bitopSplit w op (ids.map s) blocks = res := by
  have hlegal : op.Legal (ids.map s).length := by
    rw [List.length_map]
    exact legal_of_bitopArgs hargs
  refine ⟨bitopResult w op (ids.map s), ?_, bitopResult_spec w hlegal, fun blocks hblocks => ?_⟩
  · rw [lbitmapBitop, exec_check_bind, hargs]
    rfl
  · exact (bitopSplit_spec w hlegal hblocks).unique (bitopResult_spec w hlegal)

end Command

/-- DIFF of two bitmaps. -/
def diffArgs : List (LuaValue IntegralDouble) :=
  [.string (ascii "diff"), .table [.handle .bitmap 0, .handle .bitmap 1]]

/-- The two bitmaps, of different lengths. -/
def diffBitmaps : Handles Bytes := fun id => if id = 0 then [0xf0, 0xff] else [0x30]

theorem bitop_per_bit_sample : ∃ res,
    exec (lbitmapBitop 8 2 diffArgs) diffBitmaps = (.ok (.object .bitmap 2), diffBitmaps.put 2 res) ∧
      IsBitop .diff [diffBitmaps 0, diffBitmaps 1] res ∧
      ∀ blocks, 8 * 4 * blocks ≤ minlen [diffBitmaps 0, diffBitmaps 1] →
        bitopSplit 8 .diff [diffBitmaps 0, diffBitmaps 1] blocks = res :=
  bitop_per_bit 8 2 (show bitopArgs diffArgs = .ok (.diff, [0, 1]) from rfl) diffBitmaps

end SkynetJit.Redis
