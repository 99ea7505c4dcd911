import SkynetJit.Redis.Lua
import SkynetJit.Redis.Set.Kernel

/-!
# SkynetJit.Redis.Set.Facade

The set commands (`facade/set.c`) over handles.  A handle without a payload
is an empty set; a payload that empties is released.  The random numbers a
command draws are an input of the call.
-/

namespace SkynetJit.Redis

open Raise

/-- The set objects by handle; no payload is an empty set. -/
abbrev Sets := Handles (Option SetObj)

variable {ν : Type}

/-- `rl_setneed`. -/
def rlSetneed (args : List (LuaValue ν)) (idx : Nat) (cmdname : String) : Except LuaError Unit :=
  if args.length < idx then .error (arityErr cmdname) else .ok ()

/-- `rl_setarity`. -/
def rlSetarity (args : List (LuaValue ν)) (want : Nat) (cmdname : String) : Except LuaError Unit :=
  if args.length ≠ want then .error (arityErr cmdname) else .ok ()

/-- A payload that is kept if something is left in it (`rl_set_reset`). -/
def keepNonempty (o : SetObj) : Option SetObj := if setTypeSize o = 0 then none else some o

/-- The reply to a list of members. -/
def pushMembers (members : List Bytes) : Reply ν := .array (members.map .text)

section Commands

variable [LuaNumber ν]

/-! ## SADD and SREM -/

/-- The checks of SADD and SREM, all made before anything is written: a handle
and at least one member. -/
def memberArgs (cmdname : String) (args : List (LuaValue ν)) :
    Except LuaError (Nat × List Bytes) := do
  let id ← rlCheck args 1 .set
  rlSetneed args 2 cmdname
  let eles ← rlMembers (args.drop 1)
  return (id, eles)

/-- The loop of `lsadd`: how many of the members were new. -/
def saddElements (n : Nat) : List Bytes → Option SetObj → Nat → Nat × Option SetObj
  | [], o, added => (added, o)
  | ele :: eles, o, added =>
      let r := setTypeAdd (o.getD (setTypeCreate ele n)) ele
      saddElements n eles (some r.2) (added + r.1.toNat)

/-- `lsadd`. -/
def lsadd (args : List (LuaValue ν)) : Command Sets (Reply ν) := do
  let (id, eles) ← check (memberArgs "sadd" args)
  let s ← get
  let n := eles.length
  let r := saddElements n eles ((s id).map (setTypeMaybeConvert · n)) 0
  set (s.put id r.2)
  return .int r.1

/-- The loop of `lsrem`: how many of the members were there.  It stops when
nothing is left. -/
def sremElements : List Bytes → SetObj → Nat → Nat × SetObj
  | [], o, deleted => (deleted, o)
  | ele :: eles, o, deleted =>
      let r := setTypeRemove o ele
      if setTypeSize r.2 = 0 then (deleted + r.1.toNat, r.2)
      else sremElements eles r.2 (deleted + r.1.toNat)

/-- `lsrem`. -/
def lsrem (args : List (LuaValue ν)) : Command Sets (Reply ν) := do
  let (id, eles) ← check (memberArgs "srem" args)
  let s ← get
  match s id with
  | none => return .int 0
  | some o =>
      let r := sremElements eles o 0
      set (s.put id (keepNonempty r.2))
      return .int r.1

/-! ## SCARD, SMEMBERS, SISMEMBER and SMISMEMBER -/

/-- `lscard`. -/
def lscard (args : List (LuaValue ν)) : Command Sets (Reply ν) := do
  check (rlSetarity args 1 "scard")
  let id ← check (rlCheck args 1 .set)
  let s ← get
  return .int (match s id with
    | none => 0
    | some o => setTypeSize o)

/-- `lsmembers`. -/
def lsmembers (args : List (LuaValue ν)) : Command Sets (Reply ν) := do
  check (rlSetarity args 1 "smembers")
  let id ← check (rlCheck args 1 .set)
  let s ← get
  return pushMembers (match s id with
    | none => []
    | some o => o.members)

/-- Membership in a payload that may be missing. -/
def isMember (o : Option SetObj) (ele : Bytes) : Bool :=
  match o with
  | none => false
  | some o => setTypeIsMember o ele

/-- `lsismember`. -/
def lsismember (args : List (LuaValue ν)) : Command Sets (Reply ν) := do
  check (rlSetarity args 2 "sismember")
  let id ← check (rlCheck args 1 .set)
  let ele ← check (rlMember args 2)
  let s ← get
  return .int (isMember (s id) ele).toNat

/-- `lsmismember`. -/
def lsmismember (args : List (LuaValue ν)) : Command Sets (Reply ν) := do
  check (rlSetneed args 2 "smismember")
  let id ← check (rlCheck args 1 .set)
  let eles ← check (rlMembers (args.drop 1))
  let s ← get
  return .array (eles.map fun ele => .int (isMember (s id) ele).toNat)

/-! ## SMOVE -/

/-- The first checks of SMOVE: the arity and the source. -/
def moveSource (args : List (LuaValue ν)) : Except LuaError Nat := do
  rlSetarity args 3 "smove"
  rlCheck args 1 .set

/-- The later checks of SMOVE: the destination and the member. -/
def moveTarget (args : List (LuaValue ν)) : Except LuaError (Nat × Bytes) := do
  let dst ← rlCheck args 2 .set
  let ele ← rlMember args 3
  return (dst, ele)

/-- `lsmove`.  An empty source is answered before the destination is looked
at.  Two handles share a payload only if they are one. -/
def lsmove (args : List (LuaValue ν)) : Command Sets (Reply ν) := do
  let src ← check (moveSource args)
  let s ← get
  match s src with
  | none => return .int 0
  | some o =>
      if setTypeSize o = 0 then return .int 0
      else
        let (dst, ele) ← check (moveTarget args)
        if src = dst then return .int (setTypeIsMember o ele).toNat
        else
          let r := setTypeRemove o ele
          if r.1 then
            set (s.put src (keepNonempty r.2))
            modify fun s => s.put dst (some (setTypeAdd ((s dst).getD (setTypeCreate ele 1)) ele).2)
            return .int 1
          else
            set (s.put src (some r.2))
            return .int 0

/-! ## SPOP -/

/-- `rl_poslong_msg` with the message of SPOP. -/
def rlPoslongMsg (args : List (LuaValue ν)) (idx : Nat) (msg : String) : Except LuaError Nat :=
  match rlTolong (luaArg args idx) with
  | none => .error (rlError (ascii msg))
  | some v => if v < 0 ∨ v > 2 ^ 63 - 1 then .error (rlError (ascii msg)) else .ok v.toNat

/-- `RL_SPOP_MOVE_STRATEGY_MUL`. -/
def spopMoveStrategyMul : Nat := 5

/-- Take out random elements one at a time, from draw `i` on. -/
def popElements (draws : Nat → Nat) : Nat → Nat → SetObj → List Bytes × SetObj
  | 0, _, o => ([], o)
  | count + 1, i, o =>
      match setTypeRandomElement o (draws i) with
      | none => ([], o)
      | some e =>
          let r := popElements draws count (i + 1) (setTypeRemoveAux o e).2
          (e.toBytes :: r.1, r.2)

/-- The payload a first element that stays gets. -/
def stayingPayload : Entry → SetObj
  | .str _ => .listpack []
  | .int _ => .intset intsetNew

/-- Move the elements that stay to a new payload: what is left of the old
one, and the new one. -/
def stayElements (draws : Nat → Nat) : Nat → Nat → SetObj → Option SetObj → SetObj × Option SetObj
  | 0, _, o, newset => (o, newset)
  | left + 1, i, o, newset =>
      match setTypeRandomElement o (draws i) with
      | none => (o, newset)
      | some e =>
          stayElements draws left (i + 1) (setTypeRemoveAux o e).2
            (some (setTypeAddAux (newset.getD (stayingPayload e)) e).2)

/-- The three cases of SPOP with a count: the members that go, and the payload
that stays. -/
def spopCount (draws : Nat → Nat) (count : Nat) (o : SetObj) : List Bytes × Option SetObj :=
  let size := setTypeSize o
  if count ≥ size then (o.members, none)
  else if (size - count) * spopMoveStrategyMul > count then
    let r := popElements draws count 0 o
    (r.1, some r.2)
  else
    let r := stayElements draws (size - count) 0 o none
    (r.1.members, r.2)

/-- The checks of SPOP: a handle, and perhaps a count. -/
def popArgs (args : List (LuaValue ν)) : Except LuaError (Nat × Option Nat) := do
  let id ← rlCheck args 1 .set
  if args.length > 2 then .error (rlError (ascii "-ERR syntax error"))
  else if args.length = 1 then return (id, none)
  else
    let count ← rlPoslongMsg args 2 "value is out of range, must be positive"
    return (id, some count)

/-- `lspop`.  A payload is never empty, so there is an element to draw. -/
def lspop (draws : Nat → Nat) (args : List (LuaValue ν)) : Command Sets (Reply ν) := do
  let (id, count?) ← check (popArgs args)
  let s ← get
  match s id, count? with
  | none, none => return .nilReply
  | some o, none =>
      match setTypeRandomElement o (draws 0) with
      | none => return .nilReply
      | some e =>
          set (s.put id (keepNonempty (setTypeRemoveAux o e).2))
          return .text e.toBytes
  | none, some _ => return pushMembers []
  | some o, some count =>
      if count = 0 then return pushMembers []
      else
        let r := spopCount draws count o
        set (s.put id r.2)
        return pushMembers r.1

/-! ## The system -/

/-- A call of a command that changes sets. -/
inductive SetCall (ν : Type) where
  | sadd (args : List (LuaValue ν))
  | srem (args : List (LuaValue ν))
  | smove (args : List (LuaValue ν))
  | spop (draws : Nat → Nat) (args : List (LuaValue ν))

/-- The command behind a call. -/
def setCommand : SetCall ν → Command Sets (Reply ν)
  | .sadd args => lsadd args
  | .srem args => lsrem args
  | .smove args => lsmove args
  | .spop draws args => lspop draws args

end Commands

/-- Every handle as `set.new` makes it. -/
def newSets : Sets := fun _ => none

end SkynetJit.Redis
