import SkynetJit.Redis.Geo.Search
import SkynetJit.Redis.Zset.System

/-!
# SkynetJit.Redis.Geo.Command

The search commands (`rl_geosearch_generic` in `facade/geo.c`): the options, the
traps, the search, and the two things that can be done with what it found.

The arithmetic on positions is a parameter (`GeoSearch`): decoding a score, the
area that a shape covers, the test of the shape with the distance, and the
sorting of points.  A command ends with a reply, with an error, or in one of the
two assertions of the store branch (`GeoFault`).
-/

namespace SkynetJit.Redis

open Raise Scored
open LuaNumber (isNaN)

/-- The units of `rl_geoUnitArg`. -/
inductive GeoUnit where
  | m | km | ft | mi
deriving DecidableEq, Repr

/-- The extent of a shape, with the unit that it was given in. -/
inductive GeoBounds (ν : Type) where
  | radius (radius : ν) (unit : GeoUnit)
  | box (width height : ν) (unit : GeoUnit)

/-- `GeoShape`. -/
structure GeoShape (ν : Type) where
  xy : ν × ν
  bounds : GeoBounds ν

/-- Whether to sort, and how (`RL_SORT_*`). -/
inductive GeoSort where
  | unsorted | asc | desc
deriving DecidableEq, Repr

/-- The geohash code and the arithmetic on positions, as the search uses them. -/
structure GeoSearch (ν : Type) extends GeoCode ν where
  /-- 0.3048 and 1609.34. -/
  foot : ν
  mile : ν
  /-- `/`. -/
  div : ν → ν → ν
  /-- The cast to `long long`. -/
  truncate : ν → Int
  /-- `rl_geoDecodeGeohash`. -/
  decode : ν → Option (ν × ν)
  /-- What `geohashCalculateAreasByShapeWGS84` finds out about a shape. -/
  area : GeoShape ν → GeoArea
  /-- `rl_geoWithinShape`. -/
  within : GeoShape ν → WithinShape ν
  /-- `rl_geoReplyDistance`. -/
  replyDistance : ν → ν
  /-- `rl_geoSortResult`, descending or not, with so many items returned. -/
  sortResult : Bool → Nat → List (GeoPoint ν) → List (GeoPoint ν)
  sortResult_perm : ∀ descending returned ga, (sortResult descending returned ga).Perm ga

/-- The forms of the command: the flags `RL_RADIUS_COORDS`, `RL_RADIUS_MEMBER`,
with and without `RL_RADIUS_NOSTORE`, `RL_GEOSEARCH` and `RL_GEOSEARCHSTORE`. -/
inductive GeoForm where
  | radiusCoords (nostore : Bool)
  | radiusMember (nostore : Bool)
  | search
  | searchStore
deriving DecidableEq, Repr

namespace GeoForm

def cmdname : GeoForm → String
  | .searchStore => "geosearchstore"
  | .search => "geosearch"
  | .radiusMember true => "georadiusbymember_ro"
  | .radiusMember false => "georadiusbymember"
  | .radiusCoords true => "georadius_ro"
  | .radiusCoords false => "georadius"

/-- Where the source is. -/
def srcidx : GeoForm → Nat
  | .searchStore => 2
  | _ => 1

/-- The fewest arguments. -/
def minArgs : GeoForm → Nat
  | .radiusCoords _ => 5
  | .radiusMember _ => 4
  | form => form.srcidx

/-- The flag `RL_GEOSEARCH`, which GEOSEARCHSTORE has too. -/
def isSearch : GeoForm → Bool
  | .search | .searchStore => true
  | _ => false

/-- Whether the options STORE and STOREDIST with a handle are accepted. -/
def takesStore : GeoForm → Bool
  | .radiusCoords nostore | .radiusMember nostore => !nostore
  | _ => false

end GeoForm

/-! ## Arguments -/

section Arguments

variable {ν : Type} [Score ν]

/-- A unit in metres. -/
def GeoSearch.conversion (env : GeoSearch ν) : GeoUnit → ν
  | .m => Score.ofLong 1
  | .km => Score.ofLong 1000
  | .ft => env.foot
  | .mi => env.mile

/-- `rl_geo_store_target`. -/
def rlGeoStoreTarget : Option (LuaValue ν) → Except LuaError (Kind × Nat)
  | some (.handle kind id) => if kind = .geo ∨ kind = .zset then .ok (kind, id) else .error wrongTypeErr
  | _ => .error wrongTypeErr

/-- `rl_geoLongLatArg` at an index. -/
def rlGeoLongLatAt (env : GeoSearch ν) (args : List (LuaValue ν)) (idx : Nat) : Except LuaError (ν × ν) :=
  match luaArg args idx, luaArg args (idx + 1) with
  | some x, some y => rlGeoLongLatArg env.toGeoCode x y
  | _, _ => .error (rlError (ascii "value is not a valid float"))

/-- The text of `rl_geoUnitArg`. -/
def unitErr : LuaError := rlError (ascii "unsupported unit provided. please use M, KM, FT, MI")

/-- `rl_geoUnitArg`. -/
def rlGeoUnitArg (args : List (LuaValue ν)) (idx : Nat) : Except LuaError GeoUnit :=
  match (luaArg args idx).bind toBytes? with
  | none => .error unitErr
  | some u =>
      if eqIgnoreCase u "m" then .ok .m
      else if eqIgnoreCase u "km" then .ok .km
      else if eqIgnoreCase u "ft" then .ok .ft
      else if eqIgnoreCase u "mi" then .ok .mi
      else .error unitErr

/-- A number argument with its own error text. -/
def numericArg (args : List (LuaValue ν)) (idx : Nat) (name : String) : Except LuaError ν :=
  match rlTodouble (luaArg args idx) with
  | some x => .ok x
  | none => .error (rlError (ascii "need numeric " ++ ascii name))

/-- `rl_geoDistanceArg`. -/
def rlGeoDistanceArg (args : List (LuaValue ν)) (idx : Nat) : Except LuaError (GeoBounds ν) := do
  let distance ← numericArg args idx "radius"
  if Score.lt distance (Score.ofLong 0) then .error (rlError (ascii "radius cannot be negative"))
  else
    let unit ← rlGeoUnitArg args (idx + 1)
    return .radius distance unit

/-- `rl_geoBoxArg`. -/
def rlGeoBoxArg (args : List (LuaValue ν)) (idx : Nat) : Except LuaError (GeoBounds ν) := do
  let w ← numericArg args idx "width"
  let h ← numericArg args (idx + 1) "height"
  if Score.lt h (Score.ofLong 0) || Score.lt w (Score.ofLong 0) then
    .error (rlError (ascii "height or width cannot be negative"))
  else
    let unit ← rlGeoUnitArg args (idx + 2)
    return .box w h unit

/-- Where the centre of a search comes from; a member of an empty source has no
position (`no_source`). -/
inductive GeoCentre (ν : Type) where
  | member (xy : Option (ν × ν))
  | lonlat (xy : ν × ν)

/-- The position, if there is a source. -/
def GeoCentre.position : GeoCentre ν → Option (ν × ν)
  | .member xy => xy
  | .lonlat xy => some xy

/-- `rl_geoLongLatFromMember`. -/
def rlGeoLongLatFromMember (env : GeoSearch ν) (zobj : ZsetObj ν) (member : Bytes) : Option (ν × ν) :=
  (zsetScore zobj member).bind env.decode

/-- `rl_geo_member_or_empty`. -/
def rlGeoMemberOrEmpty (env : GeoSearch ν) (zobj : ZsetObj ν) (member : Bytes) : Except LuaError (GeoCentre ν) :=
  match rlGeoLongLatFromMember env zobj member with
  | some xy => .ok (.member (some xy))
  | none =>
      if zsetLength zobj = 0 then .ok (.member none)
      else .error (rlError (ascii "could not decode requested zset member"))

/-! ## Options -/

/-- The option words, in the order in which they are tried. -/
inductive GeoWord where
  | withdist | withhash | withcoord | any | asc | desc | count | store | storedist
  | frommember | fromlonlat | byradius | bybox
deriving DecidableEq, Repr

def GeoWord.text : GeoWord → String
  | .withdist => "withdist"
  | .withhash => "withhash"
  | .withcoord => "withcoord"
  | .any => "any"
  | .asc => "asc"
  | .desc => "desc"
  | .count => "count"
  | .store => "store"
  | .storedist => "storedist"
  | .frommember => "frommember"
  | .fromlonlat => "fromlonlat"
  | .byradius => "byradius"
  | .bybox => "bybox"

/-- The word that an argument spells. -/
def geoWord (arg : Bytes) : Option GeoWord :=
  [GeoWord.withdist, .withhash, .withcoord, .any, .asc, .desc, .count, .store, .storedist, .frommember,
    .fromlonlat, .byradius, .bybox].find? fun word => eqIgnoreCase arg word.text

/-- What the options set.  `frommember` and `fromloc` exclude each other, as do
`byradius` and `bybox`, and they are the cases of `centre` and `bounds`. -/
structure GeoOptions (ν : Type) where
  withdist : Bool := false
  withhash : Bool := false
  withcoords : Bool := false
  any : Bool := false
  sort : GeoSort := .unsorted
  count : Int := 0
  storekey : Option (Kind × Nat) := none
  storedist : Bool := false
  centre : Option (GeoCentre ν) := none
  bounds : Option (GeoBounds ν) := none

namespace GeoOptions

def frommember (o : GeoOptions ν) : Bool := match o.centre with
  | some (.member _) => true
  | _ => false

def fromloc (o : GeoOptions ν) : Bool := match o.centre with
  | some (.lonlat _) => true
  | _ => false

def byradius (o : GeoOptions ν) : Bool := match o.bounds with
  | some (.radius _ _) => true
  | _ => false

def bybox (o : GeoOptions ν) : Bool := match o.bounds with
  | some (.box _ _ _) => true
  | _ => false

end GeoOptions

/-- How many arguments a word takes, where it is accepted. -/
def GeoWord.width (form : GeoForm) (o : GeoOptions ν) : GeoWord → Option Nat
  | .withdist | .withhash | .withcoord | .any | .asc | .desc => some 0
  | .count => some 1
  | .store => if form.takesStore then some 1 else none
  | .storedist => if form.takesStore then some 1 else if form = .searchStore then some 0 else none
  | .frommember => if form.isSearch && !o.fromloc then some 1 else none
  | .fromlonlat => if form.isSearch && !o.frommember then some 2 else none
  | .byradius => if form.isSearch && !o.bybox then some 2 else none
  | .bybox => if form.isSearch && !o.byradius then some 3 else none

/-- The count of the option COUNT. -/
def geoCount (v : Option (LuaValue ν)) : Except LuaError Int :=
  match rlTolong v with
  | none => .error (rlError (ascii "value is not an integer or out of range"))
  | some count => if count ≤ 0 then .error (rlError (ascii "COUNT must be > 0")) else .ok count

/-- What a word does with its arguments. -/
def GeoWord.apply (env : GeoSearch ν) (form : GeoForm) (zobj : ZsetObj ν) (o : GeoOptions ν)
    (args : List (LuaValue ν)) : GeoWord → Except LuaError (GeoOptions ν)
  | .withdist => .ok { o with withdist := true }
  | .withhash => .ok { o with withhash := true }
  | .withcoord => .ok { o with withcoords := true }
  | .any => .ok { o with any := true }
  | .asc => .ok { o with sort := .asc }
  | .desc => .ok { o with sort := .desc }
  | .count => (geoCount (luaArg args 1)).map fun count => { o with count := count }
  | .store => (rlGeoStoreTarget (luaArg args 1)).map fun key => { o with storekey := some key, storedist := false }
  | .storedist =>
      if form = .searchStore then .ok { o with storedist := true }
      else (rlGeoStoreTarget (luaArg args 1)).map fun key => { o with storekey := some key, storedist := true }
  | .frommember =>
      ((rlMember args 1).bind (rlGeoMemberOrEmpty env zobj)).map fun centre => { o with centre := some centre }
  | .fromlonlat => (rlGeoLongLatAt env args 1).map fun xy => { o with centre := some (.lonlat xy) }
  | .byradius => (rlGeoDistanceArg args 1).map fun bounds => { o with bounds := some bounds }
  | .bybox => (rlGeoBoxArg args 1).map fun bounds => { o with bounds := some bounds }

/-- One round of the option loop: the options, and how many arguments to skip. -/
def geoOption (env : GeoSearch ν) (form : GeoForm) (zobj : ZsetObj ν) (o : GeoOptions ν) (arg : LuaValue ν)
    (rest : List (LuaValue ν)) : Except LuaError (GeoOptions ν × Nat) :=
  match arg with
  | .string s =>
      match geoWord s with
      | some word =>
          match word.width form o with
          | some n =>
              if n ≤ rest.length then (word.apply env form zobj o (rest.take n)).map fun o => (o, n)
              else .error syntaxErr
          | none => .error syntaxErr
      | none => .error syntaxErr
  | _ => .error syntaxErr

/-- The option loop, with so many arguments to skip first. -/
def geoOptions (env : GeoSearch ν) (form : GeoForm) (zobj : ZsetObj ν) :
    Nat → GeoOptions ν → List (LuaValue ν) → Except LuaError (GeoOptions ν)
  | _, o, [] => .ok o
  | skip + 1, o, _ :: rest => geoOptions env form zobj skip o rest
  | 0, o, arg :: rest =>
      match geoOption env form zobj o arg rest with
      | .ok (o, skip) => geoOptions env form zobj skip o rest
      | .error e => .error e

/-- Everything before the option loop: the source, what is set so far, and the
arguments that are left. -/
def geoStart (env : GeoSearch ν) (form : GeoForm) (s : Zsets ν) (args : List (LuaValue ν)) :
    Except LuaError (Nat × GeoOptions ν × List (LuaValue ν)) :=
  if args.length < form.minArgs then .error (arityErr form.cmdname)
  else do
    let src ← rlCheck args form.srcidx .geo
    match form with
    | .radiusCoords _ => do
        let xy ← rlGeoLongLatAt env args 2
        let bounds ← rlGeoDistanceArg args 4
        return (src, { centre := some (.lonlat xy), bounds := some bounds }, args.drop 5)
    | .radiusMember _ => do
        let member ← rlMember args 2
        let centre ← rlGeoMemberOrEmpty env (s .geo src) member
        let bounds ← rlGeoDistanceArg args 3
        return (src, { centre := some centre, bounds := some bounds }, args.drop 4)
    | .search => return (src, {}, args.drop 1)
    | .searchStore => do
        let key ← rlGeoStoreTarget (luaArg args 1)
        return (src, { storekey := some key }, args.drop 2)

/-- The arguments of the family, before the traps. -/
def geoArgs (env : GeoSearch ν) (form : GeoForm) (s : Zsets ν) (args : List (LuaValue ν)) :
    Except LuaError (Nat × GeoOptions ν) := do
  let (src, o, rest) ← geoStart env form s args
  let o ← geoOptions env form (s .geo src) 0 o rest
  return (src, o)

/-! ## The search -/

/-- A search that may start. -/
structure GeoQuery (ν : Type) where
  source : Nat
  centre : GeoCentre ν
  bounds : GeoBounds ν
  options : GeoOptions ν

/-- The text of the trap for options that a search needs one of. -/
def exactlyOneErr (form : GeoForm) (what : String) : LuaError :=
  rlError (ascii "exactly one of " ++ ascii what ++ ascii " can be specified for " ++ ascii form.cmdname)

/-- The text of the trap for options that do not go with a destination. -/
def notCompatibleErr (form : GeoForm) : LuaError :=
  rlError (ascii (if form = .searchStore then "GEOSEARCHSTORE" else "STORE option in GEORADIUS") ++
    ascii " is not compatible with WITHDIST, WITHHASH and WITHCOORD options")

/-- The traps, and the order that COUNT asks for. -/
def geoTraps (form : GeoForm) (src : Nat) (o : GeoOptions ν) : Except LuaError (GeoQuery ν) :=
  if o.storekey.isSome && (o.withdist || o.withhash || o.withcoords) then .error (notCompatibleErr form)
  else match o.centre with
    | none => .error (exactlyOneErr form "FROMMEMBER or FROMLONLAT")
    | some centre =>
        match o.bounds with
        | none => .error (exactlyOneErr form "BYRADIUS and BYBOX")
        | some bounds =>
            if o.any && decide (o.count = 0) then
              .error (rlError (ascii "the ANY argument requires COUNT argument"))
            else
              let sort := if o.count ≠ 0 ∧ o.sort = .unsorted ∧ o.any = false then .asc else o.sort
              .ok ⟨src, centre, bounds, { o with sort := sort }⟩

/-- A call up to the search. -/
def geoQuery (env : GeoSearch ν) (form : GeoForm) (s : Zsets ν) (args : List (LuaValue ν)) :
    Except LuaError (GeoQuery ν) := do
  let (src, o) ← geoArgs env form s args
  geoTraps form src o

/-- The number of items that COUNT lets through. -/
def returnedItems (count : Int) (resultLength : Nat) : Nat :=
  if count = 0 ∨ (resultLength : Int) < count then resultLength else count.toNat

/-- What the search collects. -/
def geoCollect (env : GeoSearch ν) (q : GeoQuery ν) (xy : ν × ν) (zobj : ZsetObj ν) : List (GeoPoint ν) :=
  let shape : GeoShape ν := ⟨xy, q.bounds⟩
  rlGeoMembersOfAllNeighbors (env.within shape) zobj (if q.options.any then q.options.count.toNat else 0)
    (geohashCalculateAreas (env.area shape))

/-- The order of what is collected. -/
def geoSorted (env : GeoSearch ν) (o : GeoOptions ν) (ga : List (GeoPoint ν)) : List (GeoPoint ν) :=
  if o.sort = .unsorted then ga
  else env.sortResult (o.sort == .desc) (returnedItems o.count ga.length) ga

/-- `shape.conversion`. -/
def GeoSearch.shapeConversion (env : GeoSearch ν) : GeoBounds ν → ν
  | .radius _ unit => env.conversion unit
  | .box _ _ unit => env.conversion unit

/-- The items that are returned, with the distances in the unit. -/
def geoReturned (env : GeoSearch ν) (q : GeoQuery ν) (ga : List (GeoPoint ν)) : List (GeoPoint ν) :=
  ((geoSorted env q.options ga).take (returnedItems q.options.count ga.length)).map fun gp =>
    { gp with dist := env.div gp.dist (env.shapeConversion q.bounds) }

/-- The reply for one item. -/
def geoReply (env : GeoSearch ν) (o : GeoOptions ν) (gp : GeoPoint ν) : Reply ν :=
  if o.withdist || o.withhash || o.withcoords then
    .array ([.text gp.member] ++
      (if o.withdist then [.double (env.replyDistance gp.dist)] else []) ++
      (if o.withhash then [.int (env.truncate gp.score)] else []) ++
      (if o.withcoords then [.array [.double gp.longitude, .double gp.latitude]] else []))
  else .text gp.member

/-! ## The store branch -/

/-- How a command ends that does not reply: with an error, or in an assertion of
the store branch. -/
inductive GeoFault where
  | raised (e : LuaError)
  /-- `zslInsert` asserts that the score is a number. -/
  | scoreNaN
  /-- The branch asserts that `dictAdd` succeeds. -/
  | duplicate
deriving DecidableEq

/-- The score that an item is stored with. -/
def storedScore (storedist : Bool) (gp : GeoPoint ν) : Scored ν :=
  ⟨gp.member, if storedist then gp.dist else gp.score⟩

/-- The loop of the store branch. -/
def geoStoreLoop (rand : Draws) : Zset ν → List (Scored ν) → Except GeoFault (Zset ν)
  | zs, [] => .ok zs
  | zs, a :: rest =>
      if isNaN a.score then .error .scoreNaN
      else if (zs.dictFind a.ele).isSome then .error .duplicate
      else geoStoreLoop rand (zs.add rand a) rest

/-- The store branch: the object that replaces the destination's. -/
def geoStoreResult (rand : Draws) (items : List (Scored ν)) : Except GeoFault (ZsetObj ν) :=
  if items = [] then .ok (zsetTypeCreate 0 0)
  else (geoStoreLoop rand Zset.create items).map fun zs =>
    zsetConvertToListpackIfNeeded (.skiplist zs) (maxelelen items) (totelelen items)

/-! ## The commands -/

/-- `rl_geosearch_generic`, after the traps. -/
def geoFinish (env : GeoSearch ν) (rand : Draws) (q : GeoQuery ν) (s : Zsets ν) :
    Except GeoFault (Reply ν) × Zsets ν :=
  match q.centre.position with
  | none =>
      match q.options.storekey with
      | some (kind, id) => (.ok (.int 0), s.put kind id (zsetTypeCreate 0 0))
      | none => (.ok (.array []), s)
  | some xy =>
      let items := geoReturned env q (geoCollect env q xy (s .geo q.source))
      match q.options.storekey with
      | none => (.ok (.array (items.map (geoReply env q.options))), s)
      | some (kind, id) =>
          match geoStoreResult rand (items.map (storedScore q.options.storedist)) with
          | .ok result => (.ok (.int items.length), s.put kind id result)
          | .error fault => (.error fault, s)

/-- `rl_geosearch_generic`. -/
def rlGeosearchGeneric (env : GeoSearch ν) (rand : Draws) (form : GeoForm) (args : List (LuaValue ν)) :
    Raise GeoFault (Zsets ν) (Reply ν) := do
  let s ← get
  let q ← check ((geoQuery env form s args).mapError .raised)
  let (reply, s) := geoFinish env rand q s
  set s
  check reply

/-- `lgeoradius`. -/
def lgeoradius (env : GeoSearch ν) (rand : Draws) (args : List (LuaValue ν)) :
    Raise GeoFault (Zsets ν) (Reply ν) :=
  rlGeosearchGeneric env rand (.radiusCoords false) args

/-- `lgeoradius_ro`. -/
def lgeoradiusRo (env : GeoSearch ν) (rand : Draws) (args : List (LuaValue ν)) :
    Raise GeoFault (Zsets ν) (Reply ν) :=
  rlGeosearchGeneric env rand (.radiusCoords true) args

/-- `lgeoradiusbymember`. -/
def lgeoradiusbymember (env : GeoSearch ν) (rand : Draws) (args : List (LuaValue ν)) :
    Raise GeoFault (Zsets ν) (Reply ν) :=
  rlGeosearchGeneric env rand (.radiusMember false) args

/-- `lgeoradiusbymember_ro`. -/
def lgeoradiusbymemberRo (env : GeoSearch ν) (rand : Draws) (args : List (LuaValue ν)) :
    Raise GeoFault (Zsets ν) (Reply ν) :=
  rlGeosearchGeneric env rand (.radiusMember true) args

/-- `lgeosearch`. -/
def lgeosearch (env : GeoSearch ν) (rand : Draws) (args : List (LuaValue ν)) :
    Raise GeoFault (Zsets ν) (Reply ν) :=
  rlGeosearchGeneric env rand .search args

/-- `lgeosearchstore`. -/
def lgeosearchstore (env : GeoSearch ν) (rand : Draws) (args : List (LuaValue ν)) :
    Raise GeoFault (Zsets ν) (Reply ν) :=
  rlGeosearchGeneric env rand .searchStore args

end Arguments

end SkynetJit.Redis
