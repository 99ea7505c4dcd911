import SkynetJit.Redis.Zset.Range
import SkynetJit.Redis.Zset.SetOp

/-!
# SkynetJit.Redis.Zset.Facade

The sorted set commands (`facade/sortedset.c`), set operations apart.

A command that changes one sorted set checks its arguments and then works on
the object behind its handle; `onZset` is that shape.  Whatever such a command
does before it raises stays done.
-/

namespace SkynetJit.Redis

open Raise Scored
open LuaNumber (isNaN)

variable {ν : Type} [Score ν]

/-- Check the arguments, then work on the object behind a handle. -/
def onZset {α : Type} (kind : Kind) (args : Except LuaError (Nat × α))
    (f : α → ZsetObj ν → Except LuaError (Reply ν) × ZsetObj ν) : Command (Zsets ν) (Reply ν) := do
  let (id, a) ← check args
  let s ← get
  let r := f a (s kind id)
  modify fun s => s.put kind id r.2
  check r.1

/-- Check the arguments, then read the object behind a handle. -/
def readZset {α : Type} (kind : Kind) (args : Except LuaError (Nat × α))
    (f : α → ZsetObj ν → Reply ν) : Command (Zsets ν) (Reply ν) := do
  let (id, a) ← check args
  let s ← get
  return f a (s kind id)

/-! ## ZADD and ZINCRBY -/

/-- The flags and the CH option. -/
structure ZaddOptions where
  flags : ZaddFlags := {}
  ch : Bool := false
deriving DecidableEq, Repr

/-- One option word. -/
def zaddOption (o : ZaddOptions) (opt : Bytes) : Option ZaddOptions :=
  if eqIgnoreCase opt "nx" then some { o with flags := { o.flags with nx := true } }
  else if eqIgnoreCase opt "xx" then some { o with flags := { o.flags with xx := true } }
  else if eqIgnoreCase opt "ch" then some { o with ch := true }
  else if eqIgnoreCase opt "incr" then some { o with flags := { o.flags with incr := true } }
  else if eqIgnoreCase opt "gt" then some { o with flags := { o.flags with gt := true } }
  else if eqIgnoreCase opt "lt" then some { o with flags := { o.flags with lt := true } }
  else none

/-- The option loop: the options, and the arguments behind them.  A number is
never an option word. -/
def zaddOptions (o : ZaddOptions) : List (LuaValue ν) → ZaddOptions × List (LuaValue ν)
  | .string opt :: rest =>
      match zaddOption o opt with
      | some o => zaddOptions o rest
      | none => (o, .string opt :: rest)
  | rest => (o, rest)

/-- The pass over the scores and the elements before anything is added. -/
def zaddPairs : List (LuaValue ν) → Except LuaError (List (Scored ν))
  | score :: member :: rest =>
      match rlTodouble (some score) with
      | none => .error (rlError (ascii "value is not a valid float"))
      | some x => do
          let ele ← rlMemberValue (some member)
          let pairs ← zaddPairs rest
          return ⟨ele, x⟩ :: pairs
  | _ => .ok []

/-- The arguments of ZADD and ZINCRBY. -/
def zaddArgs (flags : ZaddFlags) (args : List (LuaValue ν)) :
    Except LuaError (Nat × ZaddOptions × List (Scored ν)) := do
  let id ← rlCheck args 1 .zset
  let (o, rest) := zaddOptions { flags } (args.drop 1)
  if rest.length % 2 ≠ 0 ∨ rest.length = 0 then .error syntaxErr
  else if o.flags.nx ∧ o.flags.xx then
    .error (rlError (ascii "XX and NX options at the same time are not compatible"))
  else if o.flags.gt ∧ o.flags.nx ∨ o.flags.lt ∧ o.flags.nx ∨ o.flags.gt ∧ o.flags.lt then
    .error (rlError (ascii "GT, LT, and/or NX options at the same time are not compatible"))
  else if o.flags.incr ∧ rest.length / 2 > 1 then
    .error (rlError (ascii "INCR option supports a single increment-element pair"))
  else
    let pairs ← zaddPairs rest
    return (id, o, pairs)

/-- What the loop counts, and the score it left last. -/
structure ZaddTotals (ν : Type) where
  added : Nat := 0
  updated : Nat := 0
  processed : Nat := 0
  score : Option ν := none

/-- One more reply of `zsetAdd`. -/
def ZaddTotals.count (t : ZaddTotals ν) (out : ZaddOut ν) : ZaddTotals ν where
  added := if out.added then t.added + 1 else t.added
  updated := if out.updated then t.updated + 1 else t.updated
  processed := if out.nop then t.processed else t.processed + 1
  score := out.newscore

/-- `nanerr`. -/
def nanErr : LuaError := rlError (ascii "resulting score is not a number (NaN)")

/-- The loop over the pairs; what is added before an error stays. -/
def zaddElements (rand : Draws) (flags : ZaddFlags) :
    List (Scored ν) → ZaddTotals ν → ZsetObj ν → Except LuaError (ZaddTotals ν) × ZsetObj ν
  | [], t, zobj => (.ok t, zobj)
  | a :: rest, t, zobj =>
      let r := zsetAdd rand zobj a flags
      if r.1.ok then zaddElements rand flags rest (t.count r.1) r.2 else (.error nanErr, r.2)

/-- The reply.  A single pair that was processed has left its score. -/
def zaddReply (o : ZaddOptions) (t : ZaddTotals ν) : Reply ν :=
  if o.flags.incr then
    if t.processed ≠ 0 then (t.score.map .double).getD .nilReply else .nilReply
  else .int (if o.ch then t.added + t.updated else t.added)

/-- `lzadd_generic`. -/
def lzaddGeneric (rand : Draws) (flags : ZaddFlags) (args : List (LuaValue ν)) :
    Command (Zsets ν) (Reply ν) :=
  onZset .zset (zaddArgs flags args) fun (o, pairs) zobj =>
    let r := zaddElements rand o.flags pairs {} (zsetTypeMaybeConvert rand zobj pairs.length)
    (r.1.map (zaddReply o), r.2)

/-- `lzadd`. -/
def lzadd (rand : Draws) (args : List (LuaValue ν)) : Command (Zsets ν) (Reply ν) :=
  lzaddGeneric rand {} args

/-- `lzincrby`. -/
def lzincrby (rand : Draws) (args : List (LuaValue ν)) : Command (Zsets ν) (Reply ν) :=
  lzaddGeneric rand { incr := true } args

/-! ## ZREM -/

/-- The deleting loop.  An element is checked when its turn comes, so one that
is refused leaves the deletions before it. -/
def zremElements : List (LuaValue ν) → Nat → ZsetObj ν → Except LuaError Nat × ZsetObj ν
  | [], deleted, zobj => (.ok deleted, zobj)
  | v :: rest, deleted, zobj =>
      match rlMemberValue (some v) with
      | .error e => (.error e, zobj)
      | .ok ele =>
          let r := zsetDel zobj ele
          let deleted := if r.1 then deleted + 1 else deleted
          if zsetLength r.2 = 0 then (.ok deleted, r.2) else zremElements rest deleted r.2

/-- `lzrem`. -/
def lzrem (args : List (LuaValue ν)) : Command (Zsets ν) (Reply ν) :=
  onZset .zset ((rlCheck args 1 .zset).map fun id => (id, args.drop 1)) fun rest zobj =>
    let r := zremElements rest 0 zobj
    (r.1.map fun deleted => .int deleted, r.2)

/-! ## Ranges -/

/-- `rl_range_type`. -/
inductive RangeType where
  | auto | rank | score | lex
deriving DecidableEq, Repr

/-- A range of one of the types, parsed. -/
inductive Zrange (ν : Type) where
  | rank (start stop : Int)
  | score (spec : Zrangespec ν)
  | lex (spec : Zlexrangespec)

/-- Parse the bounds of a range. -/
def rlCheckrange (rangetype : RangeType) (args : List (LuaValue ν)) (imin imax : Nat) :
    Except LuaError (Zrange ν) :=
  match rangetype with
  | .score => (rlCheckrangespec args imin imax).map .score
  | .lex => (rlChecklexrange args imin imax).map .lex
  | _ => do
      let start ← rlChecklong args imin
      let stop ← rlChecklong args imax
      return .rank start stop

/-- `rl_collect_range`, behind the checks on the ranks. -/
def rlCollectRange (zobj : ZsetObj ν) : Zrange ν → List Bytes
  | .rank start stop =>
      match sanitizeRank (zsetLength zobj) start stop with
      | none => []
      | some (start, stop) => collectRank zobj start stop
  | .score spec => spec.tests.collectRange zobj
  | .lex spec => spec.tests.collectRange zobj

/-- Delete elements one after the other. -/
def zsetDelAll (zobj : ZsetObj ν) (members : List Bytes) : ZsetObj ν :=
  members.foldl (fun zobj ele => (zsetDel zobj ele).2) zobj

/-- `lzremrange_generic`. -/
def lzremrangeGeneric (rangetype : RangeType) (args : List (LuaValue ν)) :
    Command (Zsets ν) (Reply ν) :=
  onZset .zset (do
    let id ← rlCheck args 1 .zset
    let range ← rlCheckrange rangetype args 2 3
    return (id, range)) fun range zobj =>
      let members := rlCollectRange zobj range
      (.ok (.int members.length), zsetDelAll zobj members)

/-- `lzremrangebyrank`. -/
def lzremrangebyrank (args : List (LuaValue ν)) : Command (Zsets ν) (Reply ν) :=
  lzremrangeGeneric .rank args

/-- `lzremrangebyscore`. -/
def lzremrangebyscore (args : List (LuaValue ν)) : Command (Zsets ν) (Reply ν) :=
  lzremrangeGeneric .score args

/-- `lzremrangebylex`. -/
def lzremrangebylex (args : List (LuaValue ν)) : Command (Zsets ν) (Reply ν) :=
  lzremrangeGeneric .lex args

/-- `rl_range_direction`. -/
inductive RangeDirection where
  | auto | forward | reverse
deriving DecidableEq, Repr

/-- What the options of the ZRANGE family set. -/
structure ZrangeOptions where
  rangetype : RangeType
  direction : RangeDirection
  offset : Int := 0
  limit : Int := -1
  withscores : Bool := false
deriving DecidableEq, Repr

/-- The option loop. -/
def zrangeOptions (store : Bool) : List (LuaValue ν) → ZrangeOptions → Except LuaError ZrangeOptions
  | [], o => .ok o
  | .string opt :: rest, o =>
      if store = false ∧ eqIgnoreCase opt "withscores" = true then
        zrangeOptions store rest { o with withscores := true }
      else if eqIgnoreCase opt "limit" = true ∧ rest.length ≥ 2 then
        match rest with
        | v :: w :: rest => do
            let offset ← rlChecklong [v, w] 1
            let limit ← rlChecklong [v, w] 2
            zrangeOptions store rest { o with offset, limit }
        | _ => .error syntaxErr
      else if o.direction = .auto ∧ eqIgnoreCase opt "rev" = true then
        zrangeOptions store rest { o with direction := .reverse }
      else if o.rangetype = .auto ∧ eqIgnoreCase opt "bylex" = true then
        zrangeOptions store rest { o with rangetype := .lex }
      else if o.rangetype = .auto ∧ eqIgnoreCase opt "byscore" = true then
        zrangeOptions store rest { o with rangetype := .score }
      else .error syntaxErr
  | _ :: _, _ => .error syntaxErr

/-- The arguments of the ZRANGE family, with the source at `keyidx`: the
source, the range and the options. -/
def zrangeArgs (store : Bool) (rangetype : RangeType) (direction : RangeDirection)
    (args : List (LuaValue ν)) : Except LuaError (Nat × Zrange ν × ZrangeOptions) := do
  let keyidx := if store then 2 else 1
  let id ← rlCheck args keyidx .zset
  let o ← zrangeOptions store (args.drop (keyidx + 2)) { rangetype, direction }
  if o.limit ≠ -1 ∧ (o.rangetype = .rank ∨ o.rangetype = .auto) then
    .error (rlError (ascii "syntax error, LIMIT is only supported in combination with either BYSCORE or BYLEX"))
  else if o.withscores ∧ o.rangetype = .lex then
    .error (rlError (ascii "syntax error, WITHSCORES not supported in combination with BYLEX"))
  else
    let swapped := o.direction = .reverse ∧ (o.rangetype = .score ∨ o.rangetype = .lex)
    let range ← rlCheckrange o.rangetype args (if swapped then keyidx + 2 else keyidx + 1)
      (if swapped then keyidx + 1 else keyidx + 2)
    return (id, range, o)

/-- `rl_zrange_byrank`, `rl_zrange_byscore` and `rl_zrange_bylex`: what they
emit. -/
def zrangeItems (zobj : ZsetObj ν) (range : Zrange ν) (o : ZrangeOptions) : List (Scored ν) :=
  match range with
  | .rank start stop => rankItems zobj (o.direction == .reverse) start stop
  | .score spec => spec.tests.rangeItems zobj (o.direction == .reverse) o.offset o.limit
  | .lex spec => spec.tests.rangeItems zobj (o.direction == .reverse) o.offset o.limit

/-- The reply of the forms that do not store. -/
def zrangeReply (o : ZrangeOptions) (items : List (Scored ν)) : Reply ν := flatReply o.withscores items

/-- `rl_zrange_generic`, the forms that reply with the range. -/
def zrangeRead (rangetype : RangeType) (direction : RangeDirection) (args : List (LuaValue ν)) :
    Command (Zsets ν) (Reply ν) :=
  readZset .zset (zrangeArgs false rangetype direction args) fun (range, o) zobj =>
    zrangeReply o (zrangeItems zobj range o)

/-- `lzrange`. -/
def lzrange (args : List (LuaValue ν)) : Command (Zsets ν) (Reply ν) := zrangeRead .auto .auto args

/-- `lzrevrange`. -/
def lzrevrange (args : List (LuaValue ν)) : Command (Zsets ν) (Reply ν) := zrangeRead .rank .reverse args

/-- `lzrangebyscore`. -/
def lzrangebyscore (args : List (LuaValue ν)) : Command (Zsets ν) (Reply ν) :=
  zrangeRead .score .forward args

/-- `lzrevrangebyscore`. -/
def lzrevrangebyscore (args : List (LuaValue ν)) : Command (Zsets ν) (Reply ν) :=
  zrangeRead .score .reverse args

/-- `lzrangebylex`. -/
def lzrangebylex (args : List (LuaValue ν)) : Command (Zsets ν) (Reply ν) :=
  zrangeRead .lex .forward args

/-- `lzrevrangebylex`. -/
def lzrevrangebylex (args : List (LuaValue ν)) : Command (Zsets ν) (Reply ν) :=
  zrangeRead .lex .reverse args

/-- Add elements one after the other, as `rl_zrange_emit` does.  It asserts
that `zsetAdd` returns; `zsetAdd_ok` says that it does. -/
def zsetAddAll (rand : Draws) (zobj : ZsetObj ν) (items : List (Scored ν)) : ZsetObj ν :=
  items.foldl (fun zobj a => (zsetAdd rand zobj a {}).2) zobj

/-- The length that `rl_zrange_begin` is told, which is known for a range by
rank. -/
def zrangeLength (emitted : Nat) : Zrange ν → Nat
  | .rank _ _ => emitted
  | .score _ => 0
  | .lex _ => 0

/-- What `rl_zrange_finalize` stores: the object that `rl_zrange_begin` made,
or a new one if nothing was emitted. -/
def zrangeStored (rand : Draws) (range : Zrange ν) (items : List (Scored ν)) : ZsetObj ν :=
  if items.length = 0 then zsetTypeCreate 0 0
  else zsetAddAll rand (zsetTypeCreate (zrangeLength items.length range) 0) items

/-- `lzrangestore`. -/
def lzrangestore (rand : Draws) (args : List (LuaValue ν)) : Command (Zsets ν) (Reply ν) := do
  if args.length < 2 then throw (arityErr "zrangestore")
  else
    let dst ← check (rlCheck args 1 .zset)
    let (src, range, o) ← check (zrangeArgs true .auto .auto args)
    let s ← get
    let items := zrangeItems (s .zset src) range o
    modify fun s => s.put .zset dst (zrangeStored rand range items)
    return .int items.length

/-! ## Reads -/

/-- `lzcard`. -/
def lzcard (args : List (LuaValue ν)) : Command (Zsets ν) (Reply ν) :=
  readZset .zset ((rlCheck args 1 .zset).map fun id => (id, ())) fun _ zobj => .int (zsetLength zobj)

/-- The reply with a score that may be missing. -/
def scoreReply (score : Option ν) : Reply ν := (score.map .double).getD .nilReply

/-- `lzscore`. -/
def lzscore (args : List (LuaValue ν)) : Command (Zsets ν) (Reply ν) :=
  readZset .zset (do
    let id ← rlCheck args 1 .zset
    let ele ← rlMember args 2
    return (id, ele)) fun ele zobj => scoreReply (zsetScore zobj ele)

/-- `lzmscore`. -/
def lzmscore (args : List (LuaValue ν)) : Command (Zsets ν) (Reply ν) :=
  readZset .zset (do
    let id ← rlCheck args 1 .zset
    let eles ← rlMembers (args.drop 1)
    return (id, eles)) fun eles zobj => .array (eles.map fun ele => scoreReply (zsetScore zobj ele))

/-- The arguments of ZRANK and ZREVRANK. -/
def rankArgs (cmdname : String) (args : List (LuaValue ν)) : Except LuaError (Nat × Bytes × Bool) := do
  let id ← rlCheck args 1 .zset
  if args.length > 3 then .error (arityErr cmdname)
  else if args.length = 3 then
    let word ← rlArgstring args 3 cmdname
    if eqIgnoreCase word "withscore" then
      let ele ← rlMember args 2
      return (id, ele, true)
    else .error syntaxErr
  else
    let ele ← rlMember args 2
    return (id, ele, false)

/-- `lrank_generic`. -/
def lrankGeneric (reverse : Bool) (cmdname : String) (args : List (LuaValue ν)) :
    Command (Zsets ν) (Reply ν) :=
  readZset .zset (rankArgs cmdname args) fun (ele, withscore) zobj =>
    if zsetLength zobj = 0 then .nilReply
    else match zsetRank zobj ele reverse with
      | none => .nilReply
      | some (rank, score) => if withscore then .array [.int rank, .double score] else .int rank

/-- `lzrank`. -/
def lzrank (args : List (LuaValue ν)) : Command (Zsets ν) (Reply ν) := lrankGeneric false "zrank" args

/-- `lzrevrank`. -/
def lzrevrank (args : List (LuaValue ν)) : Command (Zsets ν) (Reply ν) :=
  lrankGeneric true "zrevrank" args

/-- `lzcount`. -/
def lzcount (args : List (LuaValue ν)) : Command (Zsets ν) (Reply ν) :=
  readZset .zset (do
    let id ← rlCheck args 1 .zset
    let spec ← rlCheckrangespec args 2 3
    return (id, spec)) fun spec zobj => .int (spec.tests.countRange zobj)

/-- `lzlexcount`. -/
def lzlexcount (args : List (LuaValue ν)) : Command (Zsets ν) (Reply ν) :=
  readZset .zset (do
    let id ← rlCheck args 1 .zset
    let spec ← rlChecklexrange args 2 3
    return (id, spec)) fun spec zobj => .int (spec.tests.countRange zobj)

/-! ## Pops -/

/-- `RL_ZSET_MIN` and `RL_ZSET_MAX`. -/
inductive PopEnd where
  | min | max
deriving DecidableEq, Repr

/-- The first or the last element. -/
def popEdge (side : PopEnd) : ZsetObj ν → Option (Scored ν)
  | .listpack zl => (if side = .max then zl.getLast? else zl.head?).map zzlItem
  | .skiplist zs => (if side = .max then zs.zsl.tail else (zs.zsl.header 0).forward).map zs.item

/-- The popping loop. -/
def popLoop (side : PopEnd) : Nat → ZsetObj ν → List (Scored ν) × ZsetObj ν
  | 0, zobj => ([], zobj)
  | n + 1, zobj =>
      match popEdge side zobj with
      | none => ([], zobj)
      | some a =>
          let r := popLoop side n (zsetDel zobj a.ele).2
          (a :: r.1, r.2)

/-- `rl_pop_collect`. -/
def rlPopCollect (side : PopEnd) (count : Int) (zobj : ZsetObj ν) : List (Scored ν) × ZsetObj ν :=
  popLoop side (if count > zsetLength zobj then zsetLength zobj else count.toNat) zobj

/-- The arguments of ZPOPMIN and ZPOPMAX. -/
def zpopArgs (args : List (LuaValue ν)) : Except LuaError (Nat × Int) := do
  let id ← rlCheck args 1 .zset
  if args.length > 2 then .error syntaxErr
  else if args.length = 2 then
    match rlTolong (luaArg args 2) with
    | some v =>
        if v < 0 then .error (rlError (ascii "value is out of range, must be positive"))
        else return (id, v)
    | none => .error (rlError (ascii "value is out of range, must be positive"))
  else return (id, 1)

/-- `lzpop_generic`. -/
def lzpopGeneric (side : PopEnd) (args : List (LuaValue ν)) : Command (Zsets ν) (Reply ν) :=
  onZset .zset (zpopArgs args) fun count zobj =>
    let r := rlPopCollect side count zobj
    (.ok (flatReply true r.1), r.2)

/-- `lzpopmin`. -/
def lzpopmin (args : List (LuaValue ν)) : Command (Zsets ν) (Reply ν) := lzpopGeneric .min args

/-- `lzpopmax`. -/
def lzpopmax (args : List (LuaValue ν)) : Command (Zsets ν) (Reply ν) := lzpopGeneric .max args

/-- The arguments of ZMPOP. -/
def zmpopArgs (args : List (LuaValue ν)) : Except LuaError (List (LuaValue ν) × PopEnd × Int) := do
  let keys ← rlChecklist args 1 "zmpop"
  if keys.length = 0 then .error (rlError (ascii "numkeys should be greater than 0"))
  else
    let side ← match luaArg args 2 with
      | some (.string word) =>
          if eqIgnoreCase word "min" then .ok PopEnd.min
          else if eqIgnoreCase word "max" then .ok PopEnd.max
          else .error syntaxErr
      | _ => .error syntaxErr
    if args.length = 4 then
      match luaArg args 3 with
      | some (.string word) =>
          if eqIgnoreCase word "count" = false then .error syntaxErr
          else match rlTolong (luaArg args 4) with
            | some v =>
                if v < 1 then .error (rlError (ascii "count should be greater than 0"))
                else return (keys, side, v)
            | none => .error (rlError (ascii "count should be greater than 0"))
      | _ => .error syntaxErr
    else if args.length ≠ 2 then .error syntaxErr
    else return (keys, side, 1)

/-- The loop over the operands: the first one that is not empty.  The operands
behind it are not looked at. -/
def zmpopPick (s : Zsets ν) : List (LuaValue ν) → Except LuaError (Option Nat)
  | [] => .ok none
  | v :: rest => do
      let id ← rlCheckValue .zset (some v)
      if zsetLength (s .zset id) = 0 then zmpopPick s rest else return some id

/-- `lzmpop`. -/
def lzmpop (args : List (LuaValue ν)) : Command (Zsets ν) (Reply ν) := do
  let (keys, side, count) ← check (zmpopArgs args)
  let s ← get
  let picked ← check (zmpopPick s keys)
  match picked with
  | none => return .nilReply
  | some id =>
      let r := rlPopCollect side count (s .zset id)
      modify fun s => s.put .zset id r.2
      return .array [.object .zset id, .array (r.1.map fun a => .array [.text a.ele, .double a.score])]

/-! ## What the commands leave -/

/-- Every sorted set is well formed. -/
def AllWf (s : Zsets ν) : Prop := ∀ kind id, (s kind id).Wf

theorem AllWf.put {s : Zsets ν} (h : AllWf s) (kind : Kind) (id : Nat) {o : ZsetObj ν} (ho : o.Wf) :
    AllWf (s.put kind id o) := by
  intro k i
  rw [Zsets.put]
  split_ifs with hk
  · rw [Handles.put]
    split_ifs
    · exact ho
    · exact h k i
  · exact h k i

omit [Score ν] in
theorem exec_onZset {α : Type} (kind : Kind) (args : Except LuaError (Nat × α))
    (f : α → ZsetObj ν → Except LuaError (Reply ν) × ZsetObj ν) (s : Zsets ν) :
    exec (onZset kind args f) s = match args with
      | .error e => (.error e, s)
      | .ok (id, a) => ((f a (s kind id)).1, s.put kind id (f a (s kind id)).2) := by
  rw [onZset, exec_check_bind]
  cases args with
  | error e => rfl
  | ok r => rfl

omit [Score ν] in
theorem exec_readZset {α : Type} (kind : Kind) (args : Except LuaError (Nat × α))
    (f : α → ZsetObj ν → Reply ν) (s : Zsets ν) :
    exec (readZset kind args f) s = (args.map fun (id, a) => f a (s kind id), s) := by
  rw [readZset, exec_check_bind]
  cases args with
  | error e => rfl
  | ok r => rfl

/-- What the arguments of the ZRANGE family are, when they are accepted. -/
theorem zrangeArgs_eq_ok_iff {store : Bool} {rangetype : RangeType} {direction : RangeDirection}
    {args : List (LuaValue ν)} {id : Nat} {range : Zrange ν} {o : ZrangeOptions} :
    zrangeArgs store rangetype direction args = .ok (id, range, o) ↔
      let keyidx := if store then 2 else 1
      let swapped := o.direction = .reverse ∧ (o.rangetype = .score ∨ o.rangetype = .lex)
      rlCheck args keyidx .zset = .ok id ∧
        zrangeOptions store (args.drop (keyidx + 2)) { rangetype, direction } = .ok o ∧
        ¬ (o.limit ≠ -1 ∧ (o.rangetype = .rank ∨ o.rangetype = .auto)) ∧
        ¬ (o.withscores = true ∧ o.rangetype = .lex) ∧
        rlCheckrange o.rangetype args (if swapped then keyidx + 2 else keyidx + 1)
          (if swapped then keyidx + 1 else keyidx + 2) = .ok range := by
  rw [zrangeArgs]
  simp only [except_bind_eq_ok]
  constructor
  · rintro ⟨id, hid, o, ho, h⟩
    split at h
    · contradiction
    split at h
    · contradiction
    case isFalse.isFalse hlimit hwith =>
      obtain ⟨range, hrange, h⟩ := except_bind_eq_ok.mp h
      obtain ⟨rfl, heq⟩ := Prod.mk.inj (Except.ok.inj h)
      obtain ⟨rfl, rfl⟩ := Prod.mk.inj heq
      exact ⟨hid, ho, hlimit, hwith, hrange⟩
  · rintro ⟨hid, ho, hlimit, hwith, hrange⟩
    refine ⟨id, hid, o, ho, ?_⟩
    rw [if_neg hlimit, if_neg hwith, hrange]
    rfl

/-- A command on one sorted set keeps all well formed if the work on it does. -/
theorem keeps_onZset {α : Type} (kind : Kind) (args : Except LuaError (Nat × α))
    {f : α → ZsetObj ν → Except LuaError (Reply ν) × ZsetObj ν}
    (hf : ∀ a zobj, zobj.Wf → (f a zobj).2.Wf) : Keeps AllWf (onZset kind args f) := by
  intro s hs
  rw [exec_onZset]
  cases args with
  | error e => exact hs
  | ok r => exact hs.put kind r.1 (hf r.2 _ (hs kind r.1))

section Lawful

variable [LawfulScore ν]

theorem wf_zsetAdd {zobj : ZsetObj ν} (h : zobj.Wf) (rand : Draws) (a : Scored ν) (flags : ZaddFlags) :
    (zsetAdd rand zobj a flags).2.Wf := by
  cases hnan : isNaN a.score with
  | false => exact (zsetAdd_spec h rand hnan flags).wf
  | true =>
      rw [zsetAdd.eq_def, if_pos hnan]
      exact h

/-- Conversion ahead of additions keeps the elements. -/
theorem wf_zsetTypeMaybeConvert {zobj : ZsetObj ν} (h : zobj.Wf) (rand : Draws) (sizeHint : Nat) :
    (zsetTypeMaybeConvert rand zobj sizeHint).Wf ∧
      (zsetTypeMaybeConvert rand zobj sizeHint).items = zobj.items := by
  cases zobj with
  | skiplist zs => exact ⟨h, rfl⟩
  | listpack zl =>
      rw [zsetTypeMaybeConvert]
      split_ifs
      · obtain ⟨L, hL, hitems⟩ := holds_zsetConvertToSkiplist h.2 rand
        exact ⟨⟨L, hL⟩, hitems⟩
      · exact ⟨h, rfl⟩

theorem wf_zaddElements (rand : Draws) (flags : ZaddFlags) (pairs : List (Scored ν)) (t : ZaddTotals ν)
    {zobj : ZsetObj ν} (h : zobj.Wf) : (zaddElements rand flags pairs t zobj).2.Wf := by
  induction pairs generalizing t zobj with
  | nil => exact h
  | cons a pairs ih =>
      have hadd := wf_zsetAdd h rand a flags
      rw [zaddElements]
      split_ifs
      · exact ih _ hadd
      · exact hadd

theorem wf_zremElements (vs : List (LuaValue ν)) (deleted : Nat) {zobj : ZsetObj ν} (h : zobj.Wf) :
    (zremElements vs deleted zobj).2.Wf := by
  induction vs generalizing deleted zobj with
  | nil => exact h
  | cons v vs ih =>
      rw [zremElements]
      cases rlMemberValue (some v) with
      | error e => exact h
      | ok ele =>
          have hdel := (zsetDel_spec h ele).wf
          simp only
          split_ifs
          · exact hdel
          · exact hdel
          · exact ih _ hdel
          · exact ih _ hdel

theorem wf_zsetDelAll (members : List Bytes) {zobj : ZsetObj ν} (h : zobj.Wf) :
    (zsetDelAll zobj members).Wf := by
  induction members generalizing zobj with
  | nil => exact h
  | cons ele members ih => exact ih (zsetDel_spec h ele).wf

/-- Elements added one after the other: the last one of a name counts. -/
theorem zsetAddAll_spec (rand : Draws) {items : List (Scored ν)} (hnumber : ∀ a ∈ items, a.IsNumber)
    {zobj : ZsetObj ν} (h : zobj.Wf) : (zsetAddAll rand zobj items).Wf ∧
      SameScores (zsetAddAll rand zobj items).items (items.reverse ++ zobj.items) := by
  induction items generalizing zobj with
  | nil => exact ⟨h, h.sound.scoreOf_refl⟩
  | cons a items ih =>
      have hrest : ∀ b ∈ items, b.IsNumber := fun b hb => hnumber b (List.mem_cons_of_mem a hb)
      obtain ⟨hwf, hsame⟩ := zsetAdd_sameScores h rand (hnumber a List.mem_cons_self)
      obtain ⟨hwf', hsame'⟩ := ih hrest hwf
      refine ⟨hwf', hsame'.trans ?_⟩
      rw [List.reverse_cons, List.append_assoc, List.singleton_append]
      exact hsame.append_left fun b hb => hrest b (List.mem_reverse.mp hb)

theorem wf_popLoop (side : PopEnd) (n : Nat) {zobj : ZsetObj ν} (h : zobj.Wf) :
    (popLoop side n zobj).2.Wf := by
  induction n generalizing zobj with
  | zero => exact h
  | succ n ih =>
      rw [popLoop]
      cases popEdge side zobj with
      | none => exact h
      | some a => exact ih (zsetDel_spec h a.ele).wf

theorem keeps_lzaddGeneric (rand : Draws) (flags : ZaddFlags) (args : List (LuaValue ν)) :
    Keeps AllWf (lzaddGeneric rand flags args) :=
  keeps_onZset .zset _ fun (o, pairs) _ hwf =>
    wf_zaddElements rand o.flags pairs {} (wf_zsetTypeMaybeConvert hwf rand pairs.length).1

theorem keeps_lzrem (args : List (LuaValue ν)) : Keeps AllWf (lzrem args) :=
  keeps_onZset .zset _ fun rest _ hwf => wf_zremElements rest 0 hwf

theorem keeps_lzremrangeGeneric (rangetype : RangeType) (args : List (LuaValue ν)) :
    Keeps AllWf (lzremrangeGeneric rangetype args) :=
  keeps_onZset .zset _ fun _ _ hwf => wf_zsetDelAll _ hwf

theorem keeps_lzpopGeneric (side : PopEnd) (args : List (LuaValue ν)) :
    Keeps AllWf (lzpopGeneric side args) :=
  keeps_onZset .zset _ fun _ _ hwf => wf_popLoop side _ hwf

omit [LawfulScore ν] in
/-- What a range emits is there, in the order of the walk. -/
theorem zrangeItems_sublist {zobj : ZsetObj ν} (h : zobj.Wf) (range : Zrange ν) (o : ZrangeOptions) :
    (zrangeItems zobj range o).Sublist
      (if o.direction == .reverse then zobj.items.reverse else zobj.items) := by
  cases range with
  | rank start stop => exact rankItems_sublist h _ start stop
  | score spec => exact RangeTests.rangeItems_sublist _ h _ _ _
  | lex spec => exact RangeTests.rangeItems_sublist _ h _ _ _

omit [LawfulScore ν] in
theorem mem_of_mem_zrangeItems {zobj : ZsetObj ν} (h : zobj.Wf) {range : Zrange ν} {o : ZrangeOptions}
    {a : Scored ν} (ha : a ∈ zrangeItems zobj range o) : a ∈ zobj.items := by
  have hin := (zrangeItems_sublist h range o).subset ha
  split_ifs at hin
  · exact List.mem_reverse.mp hin
  · exact hin

/-- What ZRANGESTORE stores: the elements, each with its score. -/
theorem zrangeStored_spec (rand : Draws) (range : Zrange ν) {items : List (Scored ν)}
    (hnumber : ∀ a ∈ items, a.IsNumber) : (zrangeStored rand range items).Wf ∧
      SameScores (zrangeStored rand range items).items items.reverse := by
  rw [zrangeStored]
  split_ifs with hlen
  · rw [List.length_eq_zero_iff.mp hlen, items_zsetTypeCreate]
    exact ⟨wf_zsetTypeCreate 0 0, Sound.nil.scoreOf_refl⟩
  · have hadd := zsetAddAll_spec rand hnumber (wf_zsetTypeCreate (zrangeLength items.length range) 0)
    rwa [items_zsetTypeCreate, List.append_nil] at hadd

theorem keeps_lzrangestore (rand : Draws) (args : List (LuaValue ν)) :
    Keeps AllWf (lzrangestore rand args) := by
  rw [lzrangestore]
  split_ifs
  · exact keeps_throw _
  refine (keeps_check _).bind fun dst => (keeps_check _).bind fun r => ?_
  intro s hs
  refine hs.put .zset dst (zrangeStored_spec rand r.2.1 fun a ha => ?_).1
  exact (hs .zset r.1).sound.number a (mem_of_mem_zrangeItems (hs .zset r.1) ha)

theorem keeps_setopStore (qsort : CardinalitySort ν) (rand : Draws) (op : SetOp) (cmdname : String)
    (args : List (LuaValue ν)) : Keeps AllWf (setopStore qsort rand op cmdname args) := by
  rw [setopStore]
  split_ifs
  · exact keeps_throw _
  refine (keeps_check _).bind fun dst => (keeps_check _).bind fun r => ?_
  intro s hs
  exact hs.put .zset dst ((setopMembers_fit qsort op r.2.aggregate
    (wf_setopSources (hs .zset) r.1 r.2.weights)
    (sameObject_setopSources s r.1 r.2.weights)).stored rand).1

theorem keeps_lzmpop (args : List (LuaValue ν)) : Keeps AllWf (lzmpop args) := by
  intro s hs
  rw [lzmpop, exec_check_bind]
  cases zmpopArgs args with
  | error e => exact hs
  | ok r =>
      simp only [exec_get_bind, exec_check_bind]
      cases zmpopPick s r.1 with
      | error e => exact hs
      | ok picked =>
          cases picked with
          | none => exact hs
          | some id => exact hs.put .zset id (wf_popLoop r.2.1 _ (hs .zset id))

end Lawful

end SkynetJit.Redis
