import SkynetJit.Redis.Lua
import SkynetJit.Redis.Hll.Kernel

/-!
# SkynetJit.Redis.Hll.Facade

The HyperLogLog commands (`facade/hll.c`) over handles.  A command changes
the objects behind its handles and replies or raises; what it wrote before it
raised stays written.  PFSELFTEST works on values of its own and is left out,
and so is `free`.
-/

namespace SkynetJit.Redis.HyperLogLog

open Raise

variable {ν : Type}

/-- `invalid_hll_err`. -/
def invalidHllErr : LuaError := rlError (ascii "-INVALIDOBJ Corrupted HLL object detected")

/-- `not_hll_err`. -/
def notHllErr : LuaError :=
  rlError (ascii "-WRONGTYPE Key is not a valid HyperLogLog string value.")

/-- `rl_checkhll`.  The magic, the encoding and the size of the header are in
the type `Hll`; what is left is the size of a dense value. -/
def rlCheckhll (o : Hll) : Except LuaError Unit :=
  if o.encoding = .dense ∧ o.len ≠ hllHdrSize + hllDenseBytes then .error notHllErr else .ok ()

/-- The operands of `rl_hll_next`: every argument is a handle or a table of
handles. -/
def hllOperands (args : List (LuaValue ν)) : List (LuaValue ν) :=
  args.flatMap fun
    | .table elements => elements
    | v => [v]

/-! ## PFADD -/

section Pfadd

variable [LuaNumber ν]

/-- The loop of `lhll_pfadd` over the elements; `updated` says whether one of
them changed a register. -/
def pfaddElements : List (LuaValue ν) → Bool → Command Hll Bool
  | [], updated => pure updated
  | v :: vs, updated => do
      let ele ← check (rlMemberValue (some v))
      let o ← get
      set (hllAdd o ele).2
      match (hllAdd o ele).1 with
      | .raised => pfaddElements vs true
      | .same => pfaddElements vs updated
      | .corrupt => throw invalidHllErr

/-- `lhll_pfadd` on the receiver: the cache is invalidated behind the loop. -/
def pfaddObject (vs : List (LuaValue ν)) : Command Hll (Reply ν) := do
  let o ← get
  check (rlCheckhll o)
  let updated ← pfaddElements vs false
  modify fun o => if updated then o.invalidateCache else o
  return .int (if updated then 1 else 0)

/-- `lhll_pfadd`. -/
def lhllPfadd (args : List (LuaValue ν)) : Command (Handles Hll) (Reply ν) := do
  let id ← check (rlCheck args 1 .hll)
  onHandle id (pfaddObject (args.drop 1))

end Pfadd

/-! ## PFCOUNT and PFMERGE -/

/-- The loop over the operands that PFCOUNT and PFMERGE share: whether one of
them is dense, and the merged registers. -/
def mergeOperands : List (LuaValue ν) → Bool → List Nat → Command (Handles Hll) (Bool × List Nat)
  | [], useDense, max => pure (useDense, max)
  | v :: vs, useDense, max => do
      let id ← check (rlCheckValue .hll (some v))
      let s ← get
      check (rlCheckhll (s id))
      match hllMerge max (s id) with
      | none => throw invalidHllErr
      | some max => mergeOperands vs (useDense || (s id).encoding == .dense) max

/-- The single-value path of `lhll_pfcount`: the cache is read, or computed
and written. -/
def pfcountObject (E : Estimator) : Command Hll (Reply ν) := do
  let o ← get
  check (rlCheckhll o)
  if o.validCache then
    return .int (longLong o.card)
  else
    match hllCount E o with
    | (_, true) => throw invalidHllErr
    | (card, false) =>
        set { o with card := card }
        return .int (longLong card)

/-- Sixteen thousand registers at zero. -/
def zeroRegisters : List Nat := List.replicate hllRegisters 0

/-- `lhll_pfcount`. -/
def lhllPfcount (E : Estimator) (args : List (LuaValue ν)) : Command (Handles Hll) (Reply ν) :=
  match hllOperands args with
  | [] => throw (arityErr "pfcount")
  | [v] => do
      let id ← check (rlCheckValue .hll (some v))
      onHandle id (pfcountObject E)
  | operands => do
      let merged ← mergeOperands operands false zeroRegisters
      return .int (longLong (hllCountRaw E merged.2))

/-- What `lhll_pfmerge` writes to the destination. -/
def pfmergeStore (useDense : Bool) (max : List Nat) : Command Hll (Reply ν) := do
  let o ← get
  if useDense then
    match hllSparseToDense o with
    | none => throw invalidHllErr
    | some d =>
        set (Hll.invalidateCache { d with registers := hllDenseCompress max 0 d.registers })
        return .text (ascii "OK")
  else
    set (mergeInto max 0 o).invalidateCache
    return .text (ascii "OK")

/-- `lhll_pfmerge`.  The operands start at the destination itself. -/
def lhllPfmerge (args : List (LuaValue ν)) : Command (Handles Hll) (Reply ν) := do
  let dest ← check (rlCheck args 1 .hll)
  let merged ← mergeOperands (hllOperands args) false zeroRegisters
  onHandle dest (pfmergeStore merged.1 merged.2)

/-! ## PFDEBUG -/

/-- The text of one opcode in PFDEBUG DECODE. -/
def SparseOp.text : SparseOp → Bytes
  | .zero len => ascii "z:" ++ natDec len ++ ascii " "
  | .xzero len => ascii "Z:" ++ natDec len ++ ascii " "
  | .val value len => ascii "v:" ++ natDec value ++ ascii "," ++ natDec len ++ ascii " "

/-- `sdstrim` of spaces. -/
def trimSpaces (s : Bytes) : Bytes :=
  ((s.dropWhile (· = 32)).reverse.dropWhile (· = 32)).reverse

/-- The conversion GETREG and TODENSE force: whether there was one. -/
def forceDense : Command Hll Bool := do
  let o ← get
  match o.encoding with
  | .dense => return false
  | .sparse =>
      match hllSparseToDense o with
      | none => throw invalidHllErr
      | some d =>
          set d
          return true

/-- The subcommands of PFDEBUG that look at the value. -/
inductive DebugSub where
  | getreg | decode | encoding | todense
deriving DecidableEq, Repr

/-- The `strcasecmp` chain of `lhll_pfdebug`. -/
def debugSub (cmd : Bytes) : Option DebugSub :=
  if eqIgnoreCase cmd "getreg" then some .getreg
  else if eqIgnoreCase cmd "decode" then some .decode
  else if eqIgnoreCase cmd "encoding" then some .encoding
  else if eqIgnoreCase cmd "todense" then some .todense
  else none

/-- One subcommand of PFDEBUG on the value. -/
def pfdebugObject (sub : DebugSub) : Command Hll (Reply ν) :=
  match sub with
  | .getreg => do
      let _ ← forceDense
      let o ← get
      return .array ((denseRegisters o.registers).map fun v => .int v)
  | .decode => do
      let o ← get
      match o.encoding with
      | .dense => throw (rlError (ascii "HLL encoding is not sparse"))
      | .sparse => return .text (trimSpaces (o.cells.flatMap fun c => c.op.text))
  | .encoding => do
      let o ← get
      match o.encoding with
      | .dense => return .text (ascii "dense")
      | .sparse => return .text (ascii "sparse")
  | .todense => do
      let conv ← forceDense
      return .int (if conv then 1 else 0)

/-- The arity text of the PFDEBUG subcommands. -/
def subcommandErr (cmd : Bytes) : LuaError :=
  rlError (ascii "Wrong number of arguments for the '" ++ cmd ++ ascii "' subcommand")

section Pfdebug

variable [LuaNumber ν]

/-- PFDEBUG SIMD: no vector code is compiled in. -/
def pfdebugSimd (args : List (LuaValue ν)) (cmd : Bytes) : Except LuaError (Reply ν) := do
  if args.length ≠ 3 then .error (subcommandErr cmd)
  else
    let sw ← rlArgstring args 3 "pfdebug"
    if eqIgnoreCase sw "on" || eqIgnoreCase sw "off" then .ok (.text (ascii "disabled"))
    else .error (rlError (ascii "Argument must be ON or OFF"))

/-- `lhll_pfdebug`. -/
def lhllPfdebug (args : List (LuaValue ν)) : Command (Handles Hll) (Reply ν) := do
  let id ← check (rlCheck args 1 .hll)
  let cmd ← check (rlArgstring args 2 "pfdebug")
  if eqIgnoreCase cmd "simd" then check (pfdebugSimd args cmd)
  else
    let s ← get
    check (rlCheckhll (s id))
    match debugSub cmd with
    | none =>
        throw (rlError (ascii "Unknown PFDEBUG subcommand '" ++ cmd ++ ascii "'"))
    | some sub =>
        if args.length ≠ 2 then throw (subcommandErr cmd)
        else onHandle id (pfdebugObject sub)

end Pfdebug

/-! ## The system -/

/-- The commands that look at or change an HLL. -/
inductive HllCommand where
  | pfadd | pfcount | pfmerge | pfdebug
deriving DecidableEq, Repr

variable [LuaNumber ν]

/-- One call of a command. -/
def hllCommand (E : Estimator) (cmd : HllCommand) (args : List (LuaValue ν)) :
    Command (Handles Hll) (Reply ν) :=
  match cmd with
  | .pfadd => lhllPfadd args
  | .pfcount => lhllPfcount E args
  | .pfmerge => lhllPfmerge args
  | .pfdebug => lhllPfdebug args

/-- A call as a step: what the handles hold afterwards, also when it
raised. -/
def hllStep (E : Estimator) (s : Handles Hll) (call : HllCommand × List (LuaValue ν)) :
    Option (Handles Hll) :=
  some (exec (hllCommand E call.1 call.2) s).2

/-- Every handle as `hll.new` makes it. -/
def newHandles : Handles Hll := fun _ => createHLLObject

end SkynetJit.Redis.HyperLogLog
