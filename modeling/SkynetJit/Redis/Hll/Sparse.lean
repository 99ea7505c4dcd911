import Mathlib.Data.List.Basic
import SkynetJit.Redis.Hll.Dense

/-!
# SkynetJit.Redis.Hll.Sparse

The sparse representation of a HyperLogLog and its update, `hllSparseSet`
(`kernel/hyperloglog.c`).  The bytes after the header are run-length opcodes:

* `ZERO`  `00xxxxxx` — 1 to 64 registers at zero;
* `XZERO` `01xxxxxx yyyyyyyy` — 1 to 16384 registers at zero;
* `VAL`   `1vvvvvxx` — 1 to 4 registers at a value from 1 to 32.

A value that was loaded may hold anything, so the definitions work on bytes:
an `XZERO` cut off by the end of the string takes its second byte from the
slot behind it, which `Hll.term` keeps.
-/

namespace SkynetJit.Redis.HyperLogLog

/-- `HLL_DENSE` and `HLL_SPARSE`. -/
inductive Encoding where
  | dense | sparse
deriving DecidableEq, Repr

/-- An HLL string: the header without its magic, the bytes after it, and the
two things an `sds` keeps around them — the byte behind the string and the
capacity. -/
structure Hll where
  encoding : Encoding
  notused : Bytes
  card : UInt64
  registers : Bytes
  term : UInt8
  alloc : Nat
deriving DecidableEq

/-- `sizeof(struct hllhdr)`. -/
def hllHdrSize : Nat := 16

/-- `sdslen`. -/
def Hll.len (o : Hll) : Nat := hllHdrSize + o.registers.length

/-- The most significant bit of the cached cardinality. -/
def cacheBit : UInt64 := 0x8000000000000000

/-- `HLL_VALID_CACHE`. -/
def Hll.validCache (o : Hll) : Bool := o.card &&& cacheBit == 0

/-- `HLL_INVALIDATE_CACHE`. -/
def Hll.invalidateCache (o : Hll) : Hll := { o with card := o.card ||| cacheBit }

@[simp] theorem Hll.validCache_invalidateCache (o : Hll) :
    o.invalidateCache.validCache = false := by
  have hbit : (o.card ||| cacheBit) &&& cacheBit = cacheBit := by
    apply UInt64.toBitVec_inj.mp
    rw [UInt64.toBitVec_and, UInt64.toBitVec_or]
    ext i hi
    simp only [BitVec.getElem_and, BitVec.getElem_or]
    cases cacheBit.toBitVec[i] <;> simp
  simp only [Hll.validCache, Hll.invalidateCache, hbit]
  decide

/-! ## Opcodes -/

/-- A run of registers. -/
inductive SparseOp where
  | zero (len : Nat)
  | xzero (len : Nat)
  | val (value len : Nat)
deriving DecidableEq, Repr

/-- The number of registers an opcode covers. -/
def SparseOp.span : SparseOp → Nat
  | .zero len => len
  | .xzero len => len
  | .val _ len => len

/-- The number of bytes an opcode takes. -/
def SparseOp.size : SparseOp → Nat
  | .xzero _ => 2
  | _ => 1

/-- The value of the registers it covers. -/
def SparseOp.value : SparseOp → Nat
  | .zero _ => 0
  | .xzero _ => 0
  | .val value _ => value

/-- `HLL_SPARSE_IS_ZERO`. -/
def isZero (b : UInt8) : Bool := b &&& 0xc0 == 0

/-- `HLL_SPARSE_IS_XZERO`. -/
def isXzero (b : UInt8) : Bool := b &&& 0xc0 == 0x40

/-- `HLL_SPARSE_IS_VAL`. -/
def isVal (b : UInt8) : Bool := b &&& 0x80 != 0

/-- `HLL_SPARSE_ZERO_LEN`. -/
def zeroLen (b : UInt8) : Nat := (b &&& 0x3f).toNat + 1

/-- `HLL_SPARSE_XZERO_LEN`. -/
def xzeroLen (b c : UInt8) : Nat := ((b &&& 0x3f).toNat <<< 8 ||| c.toNat) + 1

/-- `HLL_SPARSE_VAL_VALUE`. -/
def valValue (b : UInt8) : Nat := (b >>> 2 &&& 0x1f).toNat + 1

/-- `HLL_SPARSE_VAL_LEN`. -/
def valLen (b : UInt8) : Nat := (b &&& 0x3).toNat + 1

/-- `HLL_SPARSE_VAL_SET`. -/
def valSet (value len : Nat) : UInt8 := UInt8.ofNat ((value - 1) <<< 2 ||| (len - 1) ||| 0x80)

/-- `HLL_SPARSE_ZERO_SET`. -/
def zeroSet (len : Nat) : UInt8 := UInt8.ofNat (len - 1)

/-- `HLL_SPARSE_XZERO_SET`. -/
def xzeroSet (len : Nat) : Bytes :=
  [UInt8.ofNat ((len - 1) >>> 8 ||| 0x40), UInt8.ofNat ((len - 1) &&& 0xff)]

/-- `HLL_SPARSE_VAL_MAX_VALUE`. -/
def sparseValMaxValue : Nat := 32

/-- `HLL_SPARSE_VAL_MAX_LEN`. -/
def sparseValMaxLen : Nat := 4

/-- `HLL_SPARSE_ZERO_MAX_LEN`. -/
def sparseZeroMaxLen : Nat := 64

/-- `server.hll_sparse_max_bytes`. -/
def hllSparseMaxBytes : Nat := 3000

/-- An opcode as it is read, with the bytes of the string it was read from. -/
structure Cell where
  op : SparseOp
  raw : Bytes
deriving DecidableEq

/-- The opcodes of a sparse string.  `term` is the byte behind it. -/
def sparseCells (term : UInt8) : Bytes → List Cell
  | [] => []
  | b :: rest =>
      if isZero b then ⟨.zero (zeroLen b), [b]⟩ :: sparseCells term rest
      else if isVal b then ⟨.val (valValue b) (valLen b), [b]⟩ :: sparseCells term rest
      else match rest with
        | [] => [⟨.xzero (xzeroLen b term), [b]⟩]
        | c :: rest => ⟨.xzero (xzeroLen b c), [b, c]⟩ :: sparseCells term rest

/-- The opcodes of an HLL. -/
def Hll.cells (o : Hll) : List Cell := sparseCells o.term o.registers

/-! ## From sparse to dense -/

/-- The loop that sets `runlen` registers. -/
def fillRegisters (value : Nat) : Nat → Nat → Bytes → Bytes
  | 0, _, dense => dense
  | runlen + 1, idx, dense =>
      fillRegisters value runlen (idx + 1) (hllDenseSetRegister dense idx value)

/-- The registers an opcode sets: none for a run of zeros. -/
def SparseOp.fill (op : SparseOp) (idx : Nat) (dense : Bytes) : Bytes :=
  match op with
  | .val value len => fillRegisters value len idx dense
  | _ => dense

/-- The walk of `hllSparseToDense`; `none` on an overflow. -/
def sparseToDense : List Cell → Nat → Bytes → Option (Nat × Bytes)
  | [], idx, dense => some (idx, dense)
  | c :: cells, idx, dense =>
      if c.op.span + idx > hllRegisters then none
      else sparseToDense cells (idx + c.op.span) (c.op.fill idx dense)

/-- `hllSparseToDense`; `none` is `C_ERR`.  The header is copied, the cached
cardinality with it. -/
def hllSparseToDense (o : Hll) : Option Hll :=
  match o.encoding with
  | .dense => some o
  | .sparse =>
      match sparseToDense o.cells 0 (List.replicate hllDenseBytes 0) with
      | none => none
      | some (idx, dense) =>
          if idx = hllRegisters then
            some { o with
              encoding := .dense
              registers := dense
              term := 0
              alloc := hllHdrSize + hllDenseBytes }
          else none

/-! ## Setting a register -/

/-- What setting a register returns: -1, 0 or 1. -/
inductive SetResult where
  | corrupt | same | raised
deriving DecidableEq, Repr

/-- The enlargement before an update (`sdsResize`).  It writes the terminator
again. -/
def Hll.reserve (o : Hll) : Hll :=
  if o.alloc < hllSparseMaxBytes ∧ o.alloc - o.len < 3 then
    let newlen := o.len + 3
    { o with alloc := min (newlen + min newlen 300) hllSparseMaxBytes, term := 0 }
  else o

/-- Where a register was found: the opcodes before, its own, those after, and
the first register of its own. -/
structure Located where
  before : List Cell
  cell : Cell
  after : List Cell
  first : Nat

/-- Step 1 of `hllSparseSet`: the opcode that covers `index`. -/
def locate (index : Nat) : Nat → List Cell → Option Located
  | _, [] => none
  | first, c :: cells =>
      if index < first + c.op.span then some ⟨[], c, cells, first⟩
      else (locate index (first + c.op.span) cells).map fun l => { l with before := c :: l.before }

/-- A run of zeros in the shorter form that holds it. -/
def zeroRun (len : Nat) : Bytes := if len > sparseZeroMaxLen then xzeroSet len else [zeroSet len]

/-- The general case of step 2: the opcode split around the register. -/
def splitSeq (op : SparseOp) (first index count : Nat) : Bytes :=
  let last := first + op.span - 1
  match op with
  | .val curval _ =>
      (if index ≠ first then [valSet curval (index - first)] else []) ++ [valSet count 1]
        ++ (if index ≠ last then [valSet curval (last - index)] else [])
  | _ =>
      (if index ≠ first then zeroRun (index - first) else []) ++ [valSet count 1]
        ++ (if index ≠ last then zeroRun (last - index) else [])

/-- Step 4: merge neighbouring `VAL`s, looking at up to `scanlen` opcodes. -/
def mergeVals : Nat → Bytes → Bytes
  | 0, bytes => bytes
  | _ + 1, [] => []
  | scanlen + 1, b :: rest =>
      if isXzero b then b :: rest.take 1 ++ mergeVals scanlen (rest.drop 1)
      else if isZero b then b :: mergeVals scanlen rest
      else match rest with
        | [] => [b]
        | c :: rest' =>
            if isVal c ∧ valValue b = valValue c ∧ valLen b + valLen c ≤ sparseValMaxLen then
              -- the merged opcode is tried again with its right neighbour
              mergeVals scanlen (valSet (valValue b) (valLen b + valLen c) :: rest')
            else b :: mergeVals scanlen (c :: rest')

/-- The bytes of some opcodes. -/
def rawBytes (cells : List Cell) : Bytes := cells.flatMap Cell.raw

/-- Steps 3 and 4: put `seq` in the place of the opcode that was found, merge
from the opcode before it on, invalidate the cache.  `oldlen` is the length
the opcode is taken to have; where the string ends inside it, the last byte
of `seq` lands in the terminator's slot. -/
def Hll.substitute (o : Hll) (l : Located) (seq : Bytes) (oldlen : Nat) (term : UInt8) : Hll :=
  let kept := l.cell.raw.length + seq.length - oldlen
  let suffix := rawBytes (l.before.drop (l.before.length - 1)) ++ seq.take kept ++ rawBytes l.after
  let merged := mergeVals 5 suffix
  let term := if merged.length < suffix.length then 0 else (seq.drop kept).headD term
  Hll.invalidateCache { o with
    registers := rawBytes (l.before.take (l.before.length - 1)) ++ merged
    term := term }

/-- `hllDenseSet` on the registers of a dense value. -/
def Hll.denseSet (o : Hll) (index count : Nat) : SetResult × Hll :=
  let set := hllDenseSet o.registers index count
  (if set.1 then .raised else .same, { o with registers := set.2 })

/-- The `promote` exit of `hllSparseSet`. -/
def promote (o : Hll) (index count : Nat) : SetResult × Hll :=
  match hllSparseToDense o with
  | none => (.corrupt, o)
  | some d => d.denseSet index count

/-- The general case does not fit a sparse string any more. -/
def splitOverflows (o : Hll) (seqlen oldlen : Nat) : Bool :=
  decide (oldlen < seqlen ∧ hllSparseMaxBytes < o.len + (seqlen - oldlen))

/-- The general case from step 2 on. -/
def hllSparseSplit (o : Hll) (l : Located) (index count : Nat) : SetResult × Hll :=
  let seq := splitSeq l.cell.op l.first index count
  if splitOverflows o seq.length l.cell.op.size then promote o index count
  else (.raised, o.substitute l seq l.cell.op.size 0)

/-- `hllSparseSet`. -/
def hllSparseSet (o : Hll) (index count : Nat) : SetResult × Hll :=
  if count > sparseValMaxValue then promote o index count
  else
    let o := o.reserve
    match locate index 0 o.cells with
    | none => (.corrupt, o)
    | some l =>
        match l.cell.op with
        | .val oldcount runlen =>
            if oldcount ≥ count then (.same, o)
            else if runlen = 1 then (.raised, o.substitute l [valSet count 1] 1 o.term)
            else hllSparseSplit o l index count
        | .zero runlen =>
            if runlen = 1 then (.raised, o.substitute l [valSet count 1] 1 o.term)
            else hllSparseSplit o l index count
        | .xzero _ => hllSparseSplit o l index count

/-- The cases B and C of step 2, where one byte is overwritten. -/
def SparseOp.single : SparseOp → Bool
  | .zero len => len == 1
  | .xzero _ => false
  | .val _ len => len == 1

/-- Raising the register goes through the `promote` exit. -/
def promotes (o : Hll) (index count : Nat) : Bool :=
  decide (count > sparseValMaxValue) ||
    match locate index 0 o.cells with
    | none => false
    | some l =>
        !l.cell.op.single &&
          splitOverflows o (splitSeq l.cell.op l.first index count).length l.cell.op.size

end SkynetJit.Redis.HyperLogLog
