import SkynetJit.Lib.Transition
import SkynetJit.Redis.Zset.Blob
import SkynetJit.Redis.Zset.Facade

/-!
# SkynetJit.Redis.Zset.System

Everything that changes a sorted set or a geo set, as one system.  A geo set
is a sorted set whose scores are geohashes (`facade/geo.c`); of its commands
the ones that write are here, with the geohash code a parameter, and what a
search found a part of the action.  `allWf_of_run` is the invariant over whole
runs.
-/

namespace SkynetJit.Redis

open Raise Scored Transition
open LuaNumber (isNaN)

/-! ## Geo sets -/

/-- The geohash code, as GEOADD uses it. -/
structure GeoCode (ν : Type) where
  longMin : ν
  longMax : ν
  latMin : ν
  latMax : ν
  /-- `geohashEncodeWGS84` and `geohashAlign52Bits`. -/
  align52 : ν → ν → Nat
  /-- The pair as `%f,%f` prints it. -/
  pairText : ν → ν → Bytes

section Geo

variable {ν : Type} [Score ν]

/-- `rl_geoLongLatArg`. -/
def rlGeoLongLatArg (geo : GeoCode ν) (x y : LuaValue ν) : Except LuaError (ν × ν) :=
  match rlTodouble (some x), rlTodouble (some y) with
  | some long, some lat =>
      if Score.lt long geo.longMin || Score.lt geo.longMax long || Score.lt lat geo.latMin ||
          Score.lt geo.latMax lat then
        .error (rlError (ascii "invalid longitude,latitude pair " ++ geo.pairText long lat))
      else .ok (long, lat)
  | _, _ => .error (rlError (ascii "value is not a valid float"))

/-- `rl_geoencode`. -/
def rlGeoencode (geo : GeoCode ν) (long lat : ν) : ν := Score.ofLong (geo.align52 long lat)

/-- One option word of GEOADD. -/
def geoaddOption (o : ZaddOptions) (opt : Bytes) : Option ZaddOptions :=
  if eqIgnoreCase opt "nx" then some { o with flags := { o.flags with nx := true } }
  else if eqIgnoreCase opt "xx" then some { o with flags := { o.flags with xx := true } }
  else if eqIgnoreCase opt "ch" then some { o with ch := true }
  else none

/-- The option loop of GEOADD. -/
def geoaddOptions (o : ZaddOptions) : List (LuaValue ν) → ZaddOptions × List (LuaValue ν)
  | .string opt :: rest =>
      match geoaddOption o opt with
      | some o => geoaddOptions o rest
      | none => (o, .string opt :: rest)
  | rest => (o, rest)

/-- The pass over the coordinates and the names before anything is added. -/
def geoaddTriples (geo : GeoCode ν) : List (LuaValue ν) → Except LuaError (List (Scored ν))
  | x :: y :: member :: rest => do
      let (long, lat) ← rlGeoLongLatArg geo x y
      let ele ← rlMemberValue (some member)
      let points ← geoaddTriples geo rest
      return ⟨ele, rlGeoencode geo long lat⟩ :: points
  | _ => .ok []

/-- The arguments of GEOADD. -/
def geoaddArgs (geo : GeoCode ν) (args : List (LuaValue ν)) :
    Except LuaError (Nat × ZaddOptions × List (Scored ν)) := do
  let id ← rlCheck args 1 .geo
  let (o, rest) := geoaddOptions {} (args.drop 1)
  if rest.length % 3 ≠ 0 ∨ o.flags.xx ∧ o.flags.nx then .error syntaxErr
  else
    let points ← geoaddTriples geo rest
    return (id, o, points)

/-- `lgeoadd`. -/
def lgeoadd (geo : GeoCode ν) (rand : Draws) (args : List (LuaValue ν)) : Command (Zsets ν) (Reply ν) :=
  onZset .geo (geoaddArgs geo args) fun (o, points) zobj =>
    let r := zaddElements rand o.flags points {} (zsetTypeMaybeConvert rand zobj points.length)
    (r.1.map (zaddReply o), r.2)

/-- The store branch of `rl_geosearch_generic`, given the points that it
returns with the scores they get.  `zslInsert` asserts that a score is a
number, and the branch that a name is new. -/
def geoStored (rand : Draws) (points : List (Scored ν)) : Option (ZsetObj ν) :=
  if (∀ a ∈ points, isNaN a.score = false) ∧ (points.map Scored.ele).Nodup then
    if points ≠ [] then
      some (zsetConvertToListpackIfNeeded (.skiplist (Zset.create.addAll rand points))
        (maxelelen points) (totelelen points))
    else some (zsetTypeCreate 0 0)
  else none

end Geo

/-! ## The system -/

/-- A call of a command that changes sorted sets. -/
inductive ZsetCall (ν : Type) [Score ν] where
  | zadd (rand : Draws) (args : List (LuaValue ν))
  | zincrby (rand : Draws) (args : List (LuaValue ν))
  | zrem (args : List (LuaValue ν))
  | zremrangebyrank (args : List (LuaValue ν))
  | zremrangebyscore (args : List (LuaValue ν))
  | zremrangebylex (args : List (LuaValue ν))
  | zpopmin (args : List (LuaValue ν))
  | zpopmax (args : List (LuaValue ν))
  | zmpop (args : List (LuaValue ν))
  | zrangestore (rand : Draws) (args : List (LuaValue ν))
  | zunionstore (qsort : CardinalitySort ν) (rand : Draws) (args : List (LuaValue ν))
  | zinterstore (qsort : CardinalitySort ν) (rand : Draws) (args : List (LuaValue ν))
  | zdiffstore (qsort : CardinalitySort ν) (rand : Draws) (args : List (LuaValue ν))
  | geoadd (geo : GeoCode ν) (rand : Draws) (args : List (LuaValue ν))

section Calls

variable {ν : Type} [Score ν]

/-- The command behind a call. -/
def zsetCommand : ZsetCall ν → Command (Zsets ν) (Reply ν)
  | .zadd rand args => lzadd rand args
  | .zincrby rand args => lzincrby rand args
  | .zrem args => lzrem args
  | .zremrangebyrank args => lzremrangebyrank args
  | .zremrangebyscore args => lzremrangebyscore args
  | .zremrangebylex args => lzremrangebylex args
  | .zpopmin args => lzpopmin args
  | .zpopmax args => lzpopmax args
  | .zmpop args => lzmpop args
  | .zrangestore rand args => lzrangestore rand args
  | .zunionstore qsort rand args => lzunionstore qsort rand args
  | .zinterstore qsort rand args => lzinterstore qsort rand args
  | .zdiffstore qsort rand args => lzdiffstore qsort rand args
  | .geoadd geo rand args => lgeoadd geo rand args

theorem keeps_lgeoadd [LawfulScore ν] (geo : GeoCode ν) (rand : Draws) (args : List (LuaValue ν)) :
    Keeps AllWf (lgeoadd geo rand args) :=
  keeps_onZset .geo _ fun (o, points) _ hwf =>
    wf_zaddElements rand o.flags points {} (wf_zsetTypeMaybeConvert hwf rand points.length).1

/-- **Every command** keeps the sorted sets well formed, whether it returns or
raises. -/
theorem keeps_zsetCommand [LawfulScore ν] (call : ZsetCall ν) : Keeps AllWf (zsetCommand call) := by
  cases call with
  | zadd rand args => exact keeps_lzaddGeneric rand _ args
  | zincrby rand args => exact keeps_lzaddGeneric rand _ args
  | zrem args => exact keeps_lzrem args
  | zremrangebyrank args => exact keeps_lzremrangeGeneric .rank args
  | zremrangebyscore args => exact keeps_lzremrangeGeneric .score args
  | zremrangebylex args => exact keeps_lzremrangeGeneric .lex args
  | zpopmin args => exact keeps_lzpopGeneric .min args
  | zpopmax args => exact keeps_lzpopGeneric .max args
  | zmpop args => exact keeps_lzmpop args
  | zrangestore rand args => exact keeps_lzrangestore rand args
  | zunionstore qsort rand args => exact keeps_setopStore qsort rand .union _ args
  | zinterstore qsort rand args => exact keeps_setopStore qsort rand .inter _ args
  | zdiffstore qsort rand args => exact keeps_setopStore qsort rand .diff _ args
  | geoadd geo rand args => exact keeps_lgeoadd geo rand args

/-- What the store branch of a geo search stores. -/
theorem wf_geoStored [LawfulScore ν] {rand : Draws} {points : List (Scored ν)} {o : ZsetObj ν}
    (h : geoStored rand points = some o) : o.Wf := by
  rw [geoStored] at h
  split_ifs at h with hfit hne
  · obtain ⟨L, hL, -⟩ := (Fit.mk hfit.1 hfit.2).build rand
    rw [← Option.some.inj h]
    exact (wf_zsetConvertToListpackIfNeeded hL _ _).1
  · rw [← Option.some.inj h]
    exact wf_zsetTypeCreate 0 0

end Calls

section System

variable {ν : Type} [ScoreBits ν]

/-- What can happen to the sorted sets and the geo sets. -/
inductive ZsetAction (ν : Type) [ScoreBits ν] where
  | call (call : ZsetCall ν)
  /-- `sortedset.load` and `geo.load`; the new object takes the handle `id`. -/
  | load (kind : Kind) (rand : Draws) (id : Nat) (args : List (LuaValue ν))
  /-- GEOSEARCHSTORE, or GEORADIUS or GEORADIUSBYMEMBER with STORE or
  STOREDIST, that found these points. -/
  | geostore (kind : Kind) (rand : Draws) (id : Nat) (points : List (Scored ν))

/-- One action; an assertion that fails is the end of the process. -/
def zsetActionStep (s : Zsets ν) : ZsetAction ν → Option (Zsets ν)
  | .call call => some (exec (zsetCommand call) s).2
  | .load kind rand id args => some (exec (zsetLoad kind rand id args) s).2
  | .geostore kind rand id points => (geoStored rand points).map (s.put kind id)

/-- Every handle as `sortedset.new` and `geo.new` make it. -/
def newZsets : Zsets ν := fun _ _ => zsetTypeCreate 0 0

variable [LawfulScoreBits ν]

theorem keeps_zsetLoad (kind : Kind) (rand : Draws) (id : Nat) (args : List (LuaValue ν)) :
    Keeps AllWf (zsetLoad kind rand id args) := by
  intro s hs
  rw [exec_zsetLoad]
  cases rlCheckblob args 1 with
  | error e => exact hs
  | ok buf =>
      simp only
      cases hload : (exec (rlLoadZset rand buf) [] : Except LuaError (ZsetObj ν) × List Access).1 with
      | error e => exact hs
      | ok zobj =>
          obtain ⟨records, hfit, -, rfl⟩ := rlLoadZset_sound hload
          exact hs.put kind id (sameScores_loaded rand hfit records.length).1

theorem allWf_step {s s' : Zsets ν} {a : ZsetAction ν} (hs : AllWf s) (h : zsetActionStep s a = some s') :
    AllWf s' := by
  cases a with
  | call call =>
      obtain rfl := Option.some.inj h
      exact keeps_zsetCommand call s hs
  | load kind rand id args =>
      obtain rfl := Option.some.inj h
      exact keeps_zsetLoad kind rand id args s hs
  | geostore kind rand id points =>
      obtain ⟨o, ho, rfl⟩ := Option.map_eq_some_iff.mp h
      exact hs.put kind id (wf_geoStored ho)

/-- **Every reachable sorted set is well formed**: its elements are distinct
and in order, no score is NaN, and in the skiplist encoding the dict and the
skiplist have the same nodes. -/
theorem allWf_of_run {actions : List (ZsetAction ν)} {s : Zsets ν}
    (h : run zsetActionStep newZsets actions = some s) : AllWf s :=
  run_invariant (fun _ _ _ hs hstep => allWf_step hs hstep) (fun _ _ => wf_zsetTypeCreate 0 0) h

end System

end SkynetJit.Redis
