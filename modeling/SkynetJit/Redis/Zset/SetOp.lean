import Mathlib.Data.List.Sort
import SkynetJit.Redis.Zset.Kernel

/-!
# SkynetJit.Redis.Zset.SetOp

ZUNION, ZINTER, ZDIFF and their STORE and CARD forms (`rl_setop_generic` of
`facade/sortedset.c`).

The operands of a union or an intersection are sorted by their sizes, and each
operand brings its weight along.  `scoreOf_zunionMembers`,
`scoreOf_zinterMembers` and `scoreOf_zdiffMembers` say which elements a result
has and how its scores are folded from the weighted scores of the operands;
`setopMembers_fit` that the result can be stored.
-/

namespace SkynetJit.Redis

open Raise Scored
open LuaNumber (isNaN)

/-- `REDIS_AGGR_*`. -/
inductive Aggregate where
  | sum | min | max | count
deriving DecidableEq, Repr

/-- `RL_SET_OP_*`. -/
inductive SetOp where
  | union | diff | inter
deriving DecidableEq, Repr

/-- `zsetopsrc`: the object behind a handle, and its weight. -/
structure Zsetopsrc (ν : Type) where
  subject : Nat
  zobj : ZsetObj ν
  weight : ν

section Definitions

variable {ν : Type} [Score ν]

/-- `zuiWeightedScore`. -/
def zuiWeightedScore (score weight : ν) : Aggregate → ν
  | .count => weight
  | _ => Score.mul weight score

/-- `if (isnan(x)) x = 0`. -/
def nanToZero (x : ν) : ν := if isNaN x then Score.ofLong 0 else x

/-- `zunionInterAggregate`. -/
def zunionInterAggregate (aggregate : Aggregate) (target val : ν) : ν :=
  match aggregate with
  | .sum => nanToZero (Score.add target val)
  | .count => nanToZero (Score.add target val)
  | .min => if Score.lt val target then val else target
  | .max => if Score.lt target val then val else target

/-- `zuiLength`. -/
def zuiLength (src : Zsetopsrc ν) : Nat := zsetLength src.zobj

/-- `zuiInitIterator` and `zuiNext`: from the last element to the first. -/
def zuiWalk (src : Zsetopsrc ν) : List (Scored ν) :=
  match src.zobj with
  | .listpack zl => zl.reverse.map zzlItem
  | .skiplist zs => (zs.zsl.chainBack (zs.zsl.length + 1) zs.zsl.tail).map zs.item

/-- `zuiFind`. -/
def zuiFind (src : Zsetopsrc ν) (ele : Bytes) : Option ν := zsetScore src.zobj ele

/-! ## Intersection -/

/-- The loop over the other operands for one element of the smallest: the
score, if the element is in all of them.  An operand that is the smallest one
again is not searched. -/
def zinterScore (aggregate : Aggregate) (first : Zsetopsrc ν) (zval : Scored ν) :
    List (Zsetopsrc ν) → ν → Option ν
  | [], score => some score
  | src :: rest, score =>
      match if src.subject = first.subject then some zval.score else zuiFind src zval.ele with
      | some value =>
          zinterScore aggregate first zval rest
            (zunionInterAggregate aggregate score (zuiWeightedScore value src.weight aggregate))
      | none => none

/-- The loop over the smallest operand: an element and its score in the
result. -/
def zinterEntry (aggregate : Aggregate) (first : Zsetopsrc ν) (rest : List (Zsetopsrc ν))
    (zval : Scored ν) : Option (Scored ν) :=
  (zinterScore aggregate first zval rest
    (nanToZero (zuiWeightedScore zval.score first.weight aggregate))).map fun score => ⟨zval.ele, score⟩

/-- What ZINTER inserts, in order. -/
def zinterMembers (aggregate : Aggregate) : List (Zsetopsrc ν) → List (Scored ν)
  | [] => []
  | first :: rest =>
      if zuiLength first > 0 then (zuiWalk first).filterMap (zinterEntry aggregate first rest) else []

/-- The loop of ZINTERCARD, which stops at the limit. -/
def countPresent (present : Scored ν → Bool) (limit : Nat) : List (Scored ν) → Nat → Nat
  | [], cardinality => cardinality
  | zval :: walk, cardinality =>
      if present zval then
        if limit ≠ 0 ∧ limit ≤ cardinality + 1 then cardinality + 1
        else countPresent present limit walk (cardinality + 1)
      else countPresent present limit walk cardinality

/-- What ZINTERCARD counts. -/
def zinterCard (aggregate : Aggregate) (limit : Nat) : List (Zsetopsrc ν) → Nat
  | [] => 0
  | first :: rest =>
      if zuiLength first > 0 then
        countPresent (fun zval => (zinterEntry aggregate first rest zval).isSome) limit (zuiWalk first) 0
      else 0

/-! ## Union -/

/-- One element into the staging dict: aggregate, or add. -/
def aggPut (aggregate : Aggregate) (agg : List (Scored ν)) (a : Scored ν) : List (Scored ν) :=
  match scoreOf agg a.ele with
  | none => agg ++ [a]
  | some cur =>
      agg.map fun b =>
        if b.ele = a.ele then ⟨b.ele, zunionInterAggregate aggregate cur a.score⟩ else b

/-- The loop over one operand. -/
def aggSource (aggregate : Aggregate) (agg : List (Scored ν)) (src : Zsetopsrc ν) : List (Scored ν) :=
  if zuiLength src = 0 then agg
  else (zuiWalk src).foldl (fun agg zval => aggPut aggregate agg
    ⟨zval.ele, nanToZero (zuiWeightedScore zval.score src.weight aggregate)⟩) agg

/-- What ZUNION inserts.  A dict is walked in an order of its own; the sorted
set it is walked into is in order either way. -/
def zunionMembers (aggregate : Aggregate) (srcs : List (Zsetopsrc ν)) : List (Scored ν) :=
  srcs.foldl (aggSource aggregate) []

/-! ## Difference -/

/-- Delete the elements of one operand from the staging dict. -/
def leftWithout (left : List (Scored ν)) (src : Zsetopsrc ν) : List (Scored ν) :=
  if left = [] ∨ zuiLength src = 0 then left
  else (zuiWalk src).foldl (fun left zval => left.filter fun a => a.ele ≠ zval.ele) left

/-- What ZDIFF inserts. -/
def zdiffMembers : List (Zsetopsrc ν) → List (Scored ν)
  | [] => []
  | first :: rest => rest.foldl leftWithout (if zuiLength first > 0 then zuiWalk first else [])

/-! ## The command -/

/-- `qsort` by `zuiCompareByCardinality`; operands of one size come in any
order. -/
structure CardinalitySort (ν : Type) [Score ν] where
  sort : List (Zsetopsrc ν) → List (Zsetopsrc ν)
  perm : ∀ srcs, (sort srcs).Perm srcs
  sorted : ∀ srcs, (sort srcs).Pairwise fun a b => zuiLength a ≤ zuiLength b

/-- Sorting by insertion is one way to sort the operands. -/
def insertionCardinalitySort : CardinalitySort ν where
  sort := List.insertionSort fun a b => zuiLength a ≤ zuiLength b
  perm srcs := List.perm_insertionSort _ srcs
  sorted srcs :=
    haveI : IsTrans (Zsetopsrc ν) fun a b => zuiLength a ≤ zuiLength b := ⟨fun _ _ _ => Nat.le_trans⟩
    haveI : Std.Total fun a b : Zsetopsrc ν => zuiLength a ≤ zuiLength b := ⟨fun _ _ => Nat.le_total _ _⟩
    List.pairwise_insertionSort _ srcs

/-- The elements of the result, as they are inserted. -/
def setopMembers (qsort : CardinalitySort ν) (op : SetOp) (aggregate : Aggregate)
    (srcs : List (Zsetopsrc ν)) : List (Scored ν) :=
  match op with
  | .union => zunionMembers aggregate (qsort.sort srcs)
  | .inter => zinterMembers aggregate (qsort.sort srcs)
  | .diff => zdiffMembers srcs

/-- What the options set. -/
structure SetopOptions (ν : Type) where
  weights : List ν
  aggregate : Aggregate := .sum
  withscores : Bool := false
  limit : Int := 0

/-- The names of the aggregates. -/
def aggregateOf (name : Bytes) : Option Aggregate :=
  if eqIgnoreCase name "sum" then some .sum
  else if eqIgnoreCase name "min" then some .min
  else if eqIgnoreCase name "max" then some .max
  else if eqIgnoreCase name "count" then some .count
  else none

/-- The option loop. -/
def setopOptions (op : SetOp) (store cardinalityOnly : Bool) (setnum : Nat) :
    List (LuaValue ν) → SetopOptions ν → Except LuaError (SetopOptions ν)
  | [], o => .ok o
  | .string opt :: rest, o =>
      if op ≠ .diff ∧ cardinalityOnly = false ∧ rest ≠ [] ∧ eqIgnoreCase opt "weights" = true then
        match rest with
        | .table ws :: rest =>
            if ws.length ≠ setnum then .error syntaxErr
            else match ws.mapM fun w => rlTodouble (some w) with
              | some weights => setopOptions op store cardinalityOnly setnum rest { o with weights }
              | none => .error (rlError (ascii "weight value is not a float"))
        | _ => .error syntaxErr
      else if op ≠ .diff ∧ cardinalityOnly = false ∧ rest ≠ [] ∧ eqIgnoreCase opt "aggregate" = true then
        match rest with
        | .string name :: rest =>
            match aggregateOf name with
            | some aggregate => setopOptions op store cardinalityOnly setnum rest { o with aggregate }
            | none => .error syntaxErr
        | _ => .error syntaxErr
      else if store = false ∧ cardinalityOnly = false ∧ eqIgnoreCase opt "withscores" = true then
        setopOptions op store cardinalityOnly setnum rest { o with withscores := true }
      else if cardinalityOnly = true ∧ eqIgnoreCase opt "limit" = true then
        match rest with
        | v :: rest =>
            match rlTolong (some v) with
            | some limit =>
                if limit < 0 then .error (rlError (ascii "LIMIT can't be negative"))
                else setopOptions op store cardinalityOnly setnum rest { o with limit }
            | none => .error (rlError (ascii "LIMIT can't be negative"))
        | [] => .error (rlError (ascii "LIMIT can't be negative"))
      else .error syntaxErr
  | _ :: _, _ => .error syntaxErr

/-- The operands and the options of a call; `keyidx` is where the table of
operands is. -/
def setopArgs (keyidx : Nat) (op : SetOp) (cardinalityOnly : Bool) (cmdname : String)
    (args : List (LuaValue ν)) : Except LuaError (List Nat × SetopOptions ν) := do
  let keys ← rlChecklist args keyidx cmdname
  if keys.length < 1 then
    .error (rlError (ascii "at least 1 input key is needed for '" ++ ascii cmdname ++
      ascii "' command"))
  else
    let ids ← keys.mapM fun v => rlCheckValue .zset (some v)
    let o ← setopOptions op (keyidx == 2) cardinalityOnly keys.length (args.drop keyidx)
      { weights := List.replicate keys.length (Score.ofLong 1) }
    return (ids, o)

/-- The operands with their objects and weights. -/
def setopSources (s : Zsets ν) (ids : List Nat) (weights : List ν) : List (Zsetopsrc ν) :=
  List.zipWith (fun id weight => ⟨id, s .zset id, weight⟩) ids weights

/-- Elements one after the other, with their scores between them if asked
for. -/
def flatReply (withscores : Bool) (items : List (Scored ν)) : Reply ν :=
  .array (items.flatMap fun a =>
    if withscores then [.text a.ele, .double a.score] else [.text a.ele])

/-- The length of the longest element. -/
def maxelelen (items : List (Scored ν)) : Nat := items.foldl (fun n a => max n a.ele.length) 0

/-- The length of all elements. -/
def totelelen (items : List (Scored ν)) : Nat := (items.map fun a => a.ele.length).sum

/-- `dstobj` as it is stored: converted if it is small, or a new object if it
is empty. -/
def setopStored (rand : Draws) (members : List (Scored ν)) : ZsetObj ν :=
  let dstzset := Zset.create.addAll rand members
  if dstzset.zsl.length ≠ 0 then
    zsetConvertToListpackIfNeeded (.skiplist dstzset) (maxelelen members) (totelelen members)
  else zsetTypeCreate 0 0

/-- `rl_setop_generic`, the forms that reply with the result. -/
def setopRead (qsort : CardinalitySort ν) (rand : Draws) (op : SetOp) (cmdname : String)
    (args : List (LuaValue ν)) : Command (Zsets ν) (Reply ν) := do
  let (ids, o) ← check (setopArgs 1 op false cmdname args)
  let s ← get
  let members := setopMembers qsort op o.aggregate (setopSources s ids o.weights)
  return flatReply o.withscores (Zset.create.addAll rand members).items

/-- `rl_setop_generic`, the forms that store the result. -/
def setopStore (qsort : CardinalitySort ν) (rand : Draws) (op : SetOp) (cmdname : String)
    (args : List (LuaValue ν)) : Command (Zsets ν) (Reply ν) := do
  if args.length < 2 then throw (arityErr cmdname)
  else
    let dst ← check (rlCheck args 1 .zset)
    let (ids, o) ← check (setopArgs 2 op false cmdname args)
    let s ← get
    let dstobj := setopStored rand (setopMembers qsort op o.aggregate (setopSources s ids o.weights))
    modify fun s => s.put .zset dst dstobj
    return .int (zsetLength dstobj)

/-- `rl_setop_generic`, the form that counts. -/
def setopCard (qsort : CardinalitySort ν) (cmdname : String) (args : List (LuaValue ν)) :
    Command (Zsets ν) (Reply ν) := do
  let (ids, o) ← check (setopArgs 1 .inter true cmdname args)
  let s ← get
  return .int (zinterCard o.aggregate o.limit.toNat (qsort.sort (setopSources s ids o.weights)))

variable (qsort : CardinalitySort ν) (rand : Draws) (args : List (LuaValue ν))

/-- `lzunion`. -/
def lzunion : Command (Zsets ν) (Reply ν) := setopRead qsort rand .union "zunion" args

/-- `lzinter`. -/
def lzinter : Command (Zsets ν) (Reply ν) := setopRead qsort rand .inter "zinter" args

/-- `lzdiff`. -/
def lzdiff : Command (Zsets ν) (Reply ν) := setopRead qsort rand .diff "zdiff" args

/-- `lzintercard`. -/
def lzintercard : Command (Zsets ν) (Reply ν) := setopCard qsort "zintercard" args

/-- `lzunionstore`. -/
def lzunionstore : Command (Zsets ν) (Reply ν) := setopStore qsort rand .union "zunionstore" args

/-- `lzinterstore`. -/
def lzinterstore : Command (Zsets ν) (Reply ν) := setopStore qsort rand .inter "zinterstore" args

/-- `lzdiffstore`. -/
def lzdiffstore : Command (Zsets ν) (Reply ν) := setopStore qsort rand .diff "zdiffstore" args

end Definitions

/-! ## Walks -/

section Specifications

variable {ν : Type} [Score ν]

/-- The walk is the list of elements, backwards. -/
theorem zuiWalk_eq {src : Zsetopsrc ν} (h : src.zobj.Wf) : zuiWalk src = src.zobj.items.reverse := by
  rw [zuiWalk.eq_def]
  cases hz : src.zobj with
  | listpack zl =>
      rw [hz] at h
      exact List.map_reverse
  | skiplist zs =>
      rw [hz] at h
      obtain ⟨L, hL⟩ := h
      simp only
      rw [hL.rep.tail, Skiplist.chainBack_spec hL.rep (List.append_nil L).symm (by rw [hL.rep.length]; omega),
        List.map_reverse, ZsetObj.items, hL.items_eq]

theorem zuiLength_eq {src : Zsetopsrc ν} (h : src.zobj.Wf) :
    zuiLength src = src.zobj.items.length := zsetLength_eq h

/-- Whether an element is in an operand. -/
def Zsetopsrc.Has (src : Zsetopsrc ν) (e : Bytes) : Prop := e ∈ src.zobj.items.map Scored.ele

instance (src : Zsetopsrc ν) (e : Bytes) : Decidable (src.Has e) :=
  inferInstanceAs (Decidable (_ ∈ _))

theorem scoreOf_walk {src : Zsetopsrc ν} (h : src.zobj.Wf) (e : Bytes) :
    scoreOf (zuiWalk src) e = scoreOf src.zobj.items e := by
  rw [zuiWalk_eq h]
  exact (scoreOf_perm h.sound.nodup (List.reverse_perm _).symm e).symm

theorem nodup_walk {src : Zsetopsrc ν} (h : src.zobj.Wf) : ((zuiWalk src).map Scored.ele).Nodup := by
  rw [zuiWalk_eq h, List.map_reverse, List.nodup_reverse]
  exact h.sound.nodup

theorem zuiWalk_eq_nil {src : Zsetopsrc ν} (h : src.zobj.Wf) (hlen : zuiLength src = 0) :
    zuiWalk src = [] := by
  rw [zuiWalk_eq h, List.reverse_eq_nil_iff, ← List.length_eq_zero_iff, ← zuiLength_eq h, hlen]

/-! ## Weighted scores -/

/-- What an operand adds for an element. -/
def contribution (aggregate : Aggregate) (e : Bytes) (src : Zsetopsrc ν) : Option ν :=
  (scoreOf src.zobj.items e).map fun x => zuiWeightedScore x src.weight aggregate

/-- What the operands add for an element, in their order. -/
def products (aggregate : Aggregate) (srcs : List (Zsetopsrc ν)) (e : Bytes) : List ν :=
  srcs.filterMap (contribution aggregate e)

theorem contribution_eq_none_iff {aggregate : Aggregate} {e : Bytes} {src : Zsetopsrc ν} :
    contribution aggregate e src = none ↔ ¬ src.Has e := by
  rw [contribution, Option.map_eq_none_iff, scoreOf_eq_none_iff, Zsetopsrc.Has]

theorem products_cons (aggregate : Aggregate) (src : Zsetopsrc ν) (srcs : List (Zsetopsrc ν))
    (e : Bytes) : products aggregate (src :: srcs) e = match contribution aggregate e src with
      | none => products aggregate srcs e
      | some x => x :: products aggregate srcs e := List.filterMap_cons

/-! ## Numbers -/

section Numbers

variable [LawfulScore ν]

theorem number_nanToZero (x : ν) : isNaN (nanToZero x) = false := by
  rw [nanToZero]
  split_ifs with h
  · exact LawfulScore.number_ofLong 0
  · exact Bool.not_eq_true _ ▸ h

/-- What is aggregated into a number is a number. -/
theorem number_aggregate (aggregate : Aggregate) {target : ν} (h : isNaN target = false) (val : ν) :
    isNaN (zunionInterAggregate aggregate target val) = false := by
  cases aggregate with
  | sum => exact number_nanToZero _
  | count => exact number_nanToZero _
  | min =>
      rw [zunionInterAggregate]
      split_ifs with hlt
      · exact (LawfulScore.number_of_lt hlt).1
      · exact h
  | max =>
      rw [zunionInterAggregate]
      split_ifs with hlt
      · exact (LawfulScore.number_of_lt hlt).2
      · exact h

end Numbers

/-! ## Union -/

/-- Aggregate into what is there, or be the first. -/
def aggOption (aggregate : Aggregate) (cur : Option ν) (x : ν) : ν :=
  match cur with
  | none => x
  | some cur => zunionInterAggregate aggregate cur x

theorem scoreOf_aggPut (aggregate : Aggregate) (agg : List (Scored ν)) (a : Scored ν) (e : Bytes) :
    scoreOf (aggPut aggregate agg a) e =
      if a.ele = e then some (aggOption aggregate (scoreOf agg e) a.score) else scoreOf agg e := by
  rw [aggPut]
  cases hcur : scoreOf agg a.ele with
  | none =>
      simp only
      rw [scoreOf_append_singleton]
      split_ifs with he
      · rw [← he, hcur]
        rfl
      · exact Option.or_none
  | some cur =>
      simp only
      rw [scoreOf_map_replace]
      split_ifs with he
      · rw [← he, hcur]
        rfl
      · exact Option.map_id'

theorem map_ele_aggPut (aggregate : Aggregate) (agg : List (Scored ν)) (a : Scored ν) :
    (aggPut aggregate agg a).map Scored.ele =
      if a.ele ∈ agg.map Scored.ele then agg.map Scored.ele else agg.map Scored.ele ++ [a.ele] := by
  rw [aggPut]
  cases hcur : scoreOf agg a.ele with
  | none =>
      rw [if_neg (scoreOf_eq_none_iff.mp hcur)]
      simp
  | some cur =>
      have hin : a.ele ∈ agg.map Scored.ele := by
        by_contra hout
        rw [scoreOf_eq_none_iff.mpr hout] at hcur
        contradiction
      rw [if_pos hin, List.map_map]
      refine List.map_congr_left fun b _ => ?_
      simp only [Function.comp_apply]
      split_ifs <;> rfl

theorem nodup_aggPut (aggregate : Aggregate) {agg : List (Scored ν)} (h : (agg.map Scored.ele).Nodup)
    (a : Scored ν) : ((aggPut aggregate agg a).map Scored.ele).Nodup := by
  rw [map_ele_aggPut]
  split_ifs with hin
  · exact h
  · exact List.nodup_append.mpr ⟨h, List.nodup_singleton _, fun x hx y hy => by
      rw [List.mem_singleton.mp hy]
      exact fun heq => hin (heq ▸ hx)⟩

/-- The elements of one operand, one after the other. -/
theorem scoreOf_foldl_aggPut (aggregate : Aggregate) {xs : List (Scored ν)}
    (hnd : (xs.map Scored.ele).Nodup) (agg : List (Scored ν)) (e : Bytes) :
    scoreOf (xs.foldl (aggPut aggregate) agg) e = match scoreOf xs e with
      | none => scoreOf agg e
      | some x => some (aggOption aggregate (scoreOf agg e) x) := by
  induction xs generalizing agg with
  | nil => rfl
  | cons a xs ih =>
      rw [List.map_cons, List.nodup_cons] at hnd
      rw [List.foldl_cons, ih hnd.2, scoreOf_aggPut]
      by_cases he : a.ele = e
      · subst he
        rw [scoreOf_cons_self, scoreOf_eq_none_iff.mpr hnd.1, if_pos rfl]
      · rw [scoreOf_cons_of_ne he, if_neg he]

/-- The elements of an operand with their weighted scores. -/
def weighted (aggregate : Aggregate) (src : Zsetopsrc ν) : List (Scored ν) :=
  (zuiWalk src).map fun zval => ⟨zval.ele, nanToZero (zuiWeightedScore zval.score src.weight aggregate)⟩

theorem aggSource_eq (aggregate : Aggregate) {src : Zsetopsrc ν} (h : src.zobj.Wf)
    (agg : List (Scored ν)) :
    aggSource aggregate agg src = (weighted aggregate src).foldl (aggPut aggregate) agg := by
  rw [aggSource, weighted, List.foldl_map]
  split_ifs with hlen
  · rw [zuiWalk_eq_nil h hlen]
    rfl
  · rfl

theorem scoreOf_aggSource (aggregate : Aggregate) {src : Zsetopsrc ν} (h : src.zobj.Wf)
    (agg : List (Scored ν)) (e : Bytes) :
    scoreOf (aggSource aggregate agg src) e = match contribution aggregate e src with
      | none => scoreOf agg e
      | some x => some (aggOption aggregate (scoreOf agg e) (nanToZero x)) := by
  have hnd : ((weighted aggregate src).map Scored.ele).Nodup := by
    rw [weighted, List.map_map]
    exact nodup_walk h
  rw [aggSource_eq aggregate h, scoreOf_foldl_aggPut aggregate hnd, weighted,
    scoreOf_map_score fun x => nanToZero (zuiWeightedScore x src.weight aggregate), scoreOf_walk h,
    contribution]
  cases scoreOf src.zobj.items e with
  | none => rfl
  | some x => rfl

/-- The fold of ZUNION, for one element. -/
def unionFold (aggregate : Aggregate) : List ν → Option ν
  | [] => none
  | x :: xs => some (xs.foldl (zunionInterAggregate aggregate) x)

/-- **ZUNION**: an element is in the result if it is in some operand, and its
score aggregates what the operands add, with zero for NaN. -/
theorem scoreOf_zunionMembers (aggregate : Aggregate) {srcs : List (Zsetopsrc ν)}
    (h : ∀ src ∈ srcs, src.zobj.Wf) (e : Bytes) : scoreOf (zunionMembers aggregate srcs) e =
      unionFold aggregate ((products aggregate srcs e).map nanToZero) := by
  have hfold : ∀ (srcs : List (Zsetopsrc ν)) (agg : List (Scored ν)), (∀ src ∈ srcs, src.zobj.Wf) →
      scoreOf (srcs.foldl (aggSource aggregate) agg) e = ((products aggregate srcs e).map nanToZero).foldl
        (fun cur x => some (aggOption aggregate cur x)) (scoreOf agg e) := by
    intro srcs
    induction srcs with
    | nil => intro agg _; rfl
    | cons src srcs ih =>
        intro agg hwf
        rw [List.foldl_cons, ih _ fun s hs => hwf s (List.mem_cons_of_mem src hs),
          scoreOf_aggSource aggregate (hwf src List.mem_cons_self), products_cons]
        cases contribution aggregate e src with
        | none => rfl
        | some x => rfl
  have hsome : ∀ (xs : List ν) (x : ν), xs.foldl (fun cur x => some (aggOption aggregate cur x)) (some x) =
      some (xs.foldl (zunionInterAggregate aggregate) x) := by
    intro xs
    induction xs with
    | nil => intro x; rfl
    | cons y xs ih => intro x; exact ih _
  rw [zunionMembers, hfold srcs [] h]
  cases (products aggregate srcs e).map nanToZero with
  | nil => rfl
  | cons x xs => exact hsome xs x

theorem nodup_zunionMembers (aggregate : Aggregate) {srcs : List (Zsetopsrc ν)}
    (h : ∀ src ∈ srcs, src.zobj.Wf) : ((zunionMembers aggregate srcs).map Scored.ele).Nodup := by
  have hput : ∀ (xs agg : List (Scored ν)), (agg.map Scored.ele).Nodup →
      ((xs.foldl (aggPut aggregate) agg).map Scored.ele).Nodup := by
    intro xs
    induction xs with
    | nil => intro agg hnd; exact hnd
    | cons a xs ih => intro agg hnd; exact ih _ (nodup_aggPut aggregate hnd a)
  have hfold : ∀ (srcs : List (Zsetopsrc ν)) (agg : List (Scored ν)), (∀ src ∈ srcs, src.zobj.Wf) →
      (agg.map Scored.ele).Nodup → ((srcs.foldl (aggSource aggregate) agg).map Scored.ele).Nodup := by
    intro srcs
    induction srcs with
    | nil => intro agg _ hnd; exact hnd
    | cons src srcs ih =>
        intro agg hwf hnd
        refine ih _ (fun s hs => hwf s (List.mem_cons_of_mem src hs)) ?_
        rw [aggSource_eq aggregate (hwf src List.mem_cons_self)]
        exact hput _ _ hnd
  exact hfold srcs [] h List.nodup_nil

/-! ## Intersection -/

/-- Operands with one subject are one object. -/
def SameObject (a b : Zsetopsrc ν) : Prop := a.subject = b.subject → a.zobj = b.zobj

/-- The loop over the other operands. -/
theorem zinterScore_eq (aggregate : Aggregate) {first : Zsetopsrc ν} {zval : Scored ν}
    (hfirst : scoreOf first.zobj.items zval.ele = some zval.score) {rest : List (Zsetopsrc ν)}
    (hwf : ∀ src ∈ rest, src.zobj.Wf) (hsame : ∀ src ∈ rest, SameObject src first) (score : ν) :
    zinterScore aggregate first zval rest score =
      if ∀ src ∈ rest, src.Has zval.ele then
        some ((products aggregate rest zval.ele).foldl (zunionInterAggregate aggregate) score)
      else none := by
  induction rest generalizing score with
  | nil => simp [zinterScore, products]
  | cons src rest ih =>
      have hvalue : (if src.subject = first.subject then some zval.score else zuiFind src zval.ele) =
          scoreOf src.zobj.items zval.ele := by
        split_ifs with hsub
        · rw [hsame src List.mem_cons_self hsub, hfirst]
        · exact zsetScore_eq (hwf src List.mem_cons_self) zval.ele
      have hhas : contribution aggregate zval.ele src = none ↔ ¬ src.Has zval.ele := contribution_eq_none_iff
      rw [zinterScore, hvalue, products_cons]
      rw [contribution] at hhas ⊢
      cases hscore : scoreOf src.zobj.items zval.ele with
      | none =>
          rw [hscore] at hhas
          have hnot : ¬ ∀ s ∈ src :: rest, s.Has zval.ele := fun hall =>
            hhas.mp rfl (hall src List.mem_cons_self)
          rw [if_neg hnot]
      | some x =>
          rw [hscore] at hhas
          have hin : src.Has zval.ele := by
            by_contra hout
            exact absurd (hhas.mpr hout) (by simp)
          simp only [Option.map_some, List.forall_mem_cons, hin, true_and]
          exact ih (fun s hs => hwf s (List.mem_cons_of_mem src hs))
            (fun s hs => hsame s (List.mem_cons_of_mem src hs)) _

theorem ele_zinterEntry {aggregate : Aggregate} {first : Zsetopsrc ν} {rest : List (Zsetopsrc ν)}
    {a b : Scored ν} (h : zinterEntry aggregate first rest a = some b) : b.ele = a.ele := by
  obtain ⟨x, -, rfl⟩ := Option.map_eq_some_iff.mp h
  rfl

theorem zinterMembers_eq (aggregate : Aggregate) {first : Zsetopsrc ν} (h : first.zobj.Wf)
    (rest : List (Zsetopsrc ν)) : zinterMembers aggregate (first :: rest) =
      (zuiWalk first).filterMap (zinterEntry aggregate first rest) := by
  rw [zinterMembers]
  split_ifs with hlen
  · rfl
  · rw [zuiWalk_eq_nil h (by omega)]
    rfl

/-- The fold of ZINTER, for one element that is in every operand. -/
def interFold (aggregate : Aggregate) : List ν → Option ν
  | [] => none
  | x :: xs => some (xs.foldl (zunionInterAggregate aggregate) (nanToZero x))

/-- **ZINTER**: an element is in the result if it is in every operand, and its
score aggregates what the operands add, with zero for the first if it is
NaN. -/
theorem scoreOf_zinterMembers (aggregate : Aggregate) {srcs : List (Zsetopsrc ν)}
    (hwf : ∀ src ∈ srcs, src.zobj.Wf) (hsame : ∀ a ∈ srcs, ∀ b ∈ srcs, SameObject a b) (e : Bytes) :
    scoreOf (zinterMembers aggregate srcs) e =
      if ∀ src ∈ srcs, src.Has e then interFold aggregate (products aggregate srcs e) else none := by
  cases srcs with
  | nil => simp [zinterMembers, products, interFold, scoreOf]
  | cons first rest =>
      have hfirst := hwf first List.mem_cons_self
      have hrest : ∀ src ∈ rest, src.zobj.Wf := fun src hsrc => hwf src (List.mem_cons_of_mem first hsrc)
      rw [zinterMembers_eq aggregate hfirst, scoreOf_filterMap (nodup_walk hfirst)
        (fun a b => ele_zinterEntry), scoreOf_walk hfirst, products_cons, contribution]
      cases hscore : scoreOf first.zobj.items e with
      | none =>
          have hnot : ¬ ∀ src ∈ first :: rest, src.Has e := fun hall =>
            scoreOf_eq_none_iff.mp hscore (hall first List.mem_cons_self)
          rw [if_neg hnot]
          rfl
      | some x =>
          have hin : first.Has e := by
            by_contra hout
            rw [scoreOf_eq_none_iff.mpr hout] at hscore
            contradiction
          have hentry := fun first' => @zinterScore_eq ν _ aggregate first' ⟨e, x⟩
          rw [Option.bind_some, zinterEntry, hentry first hscore hrest
            fun src hsrc => hsame src (List.mem_cons_of_mem first hsrc) first List.mem_cons_self]
          simp only [Option.map_some, interFold, List.forall_mem_cons, hin, true_and]
          split_ifs
          · rfl
          · rfl

/-! ## Difference -/

omit [Score ν] in
theorem foldl_filter_ne (walk left : List (Scored ν)) :
    walk.foldl (fun left zval => left.filter fun a => a.ele ≠ zval.ele) left =
      left.filter fun a => a.ele ∉ walk.map Scored.ele := by
  induction walk generalizing left with
  | nil => simp
  | cons zval walk ih =>
      rw [List.foldl_cons, ih, List.filter_filter]
      refine List.filter_congr fun a _ => ?_
      rw [Bool.eq_iff_iff, List.map_cons]
      simp [and_comm]

theorem leftWithout_eq {src : Zsetopsrc ν} (h : src.zobj.Wf) (left : List (Scored ν)) :
    leftWithout left src = left.filter fun a => ¬ src.Has a.ele := by
  have hwalk : ∀ e, e ∈ (zuiWalk src).map Scored.ele ↔ src.Has e := by
    intro e
    rw [zuiWalk_eq h, List.map_reverse, List.mem_reverse, Zsetopsrc.Has]
  rw [leftWithout]
  split_ifs with hskip
  · rcases hskip with rfl | hlen
    · rfl
    · refine (List.filter_eq_self.mpr fun a _ => ?_).symm
      rw [decide_eq_true_eq, ← hwalk, zuiWalk_eq_nil h hlen]
      exact List.not_mem_nil
  · rw [foldl_filter_ne]
    refine List.filter_congr fun a _ => ?_
    rw [decide_eq_decide, hwalk]

theorem zdiffMembers_eq {first : Zsetopsrc ν} {rest : List (Zsetopsrc ν)} (hfirst : first.zobj.Wf)
    (hrest : ∀ src ∈ rest, src.zobj.Wf) : zdiffMembers (first :: rest) =
      (zuiWalk first).filter fun a => ∀ src ∈ rest, ¬ src.Has a.ele := by
  have hfold : ∀ (rest : List (Zsetopsrc ν)) (left : List (Scored ν)), (∀ src ∈ rest, src.zobj.Wf) →
      rest.foldl leftWithout left = left.filter fun a => ∀ src ∈ rest, ¬ src.Has a.ele := by
    intro rest
    induction rest with
    | nil => intro left _; simp
    | cons src rest ih =>
        intro left hwf
        rw [List.foldl_cons, ih _ fun s hs => hwf s (List.mem_cons_of_mem src hs),
          leftWithout_eq (hwf src List.mem_cons_self), List.filter_filter]
        refine List.filter_congr fun a _ => ?_
        rw [Bool.eq_iff_iff]
        simp [and_comm]
  rw [zdiffMembers, hfold rest _ hrest]
  congr 1
  split_ifs with hlen
  · rfl
  · exact (zuiWalk_eq_nil hfirst (by omega)).symm

/-- **ZDIFF**: the elements of the first operand that are in no other, with
their scores. -/
theorem scoreOf_zdiffMembers {first : Zsetopsrc ν} {rest : List (Zsetopsrc ν)} (hfirst : first.zobj.Wf)
    (hrest : ∀ src ∈ rest, src.zobj.Wf) (e : Bytes) : scoreOf (zdiffMembers (first :: rest)) e =
      if ∀ src ∈ rest, ¬ src.Has e then scoreOf first.zobj.items e else none := by
  rw [zdiffMembers_eq hfirst hrest,
    scoreOf_filter (fun e => decide (∀ src ∈ rest, ¬ src.Has e)), scoreOf_walk hfirst]
  simp only [decide_eq_true_eq]

end Specifications

/-! ## Arguments -/

section Arguments

variable {ν : Type} [Score ν]

/-- What the option loop keeps: a weight for each operand, none of them NaN,
and a limit that is not negative. -/
structure SetopOptions.Fits (o : SetopOptions ν) (setnum : Nat) : Prop where
  weights : o.weights.length = setnum
  number : ∀ w ∈ o.weights, isNaN w = false
  limit : 0 ≤ o.limit

theorem number_rlTodouble {v : Option (LuaValue ν)} {x : ν} (h : rlTodouble v = some x) :
    isNaN x = false := by
  rw [rlTodouble.eq_def] at h
  split at h
  · split_ifs at h with hnan
    rw [← Option.some.inj h]
    exact Bool.not_eq_true _ ▸ hnan
  · split at h
    · split_ifs at h with hnan
      rw [← Option.some.inj h]
      exact Bool.not_eq_true _ ▸ hnan
    · contradiction
  · contradiction

theorem mapM_rlTodouble {vs : List (LuaValue ν)} {ws : List ν}
    (h : (vs.mapM fun w => rlTodouble (some w)) = some ws) :
    ws.length = vs.length ∧ ∀ w ∈ ws, isNaN w = false := by
  induction vs generalizing ws with
  | nil =>
      obtain rfl := Option.some.inj h
      exact ⟨rfl, nofun⟩
  | cons v vs ih =>
      rw [List.mapM_cons] at h
      obtain ⟨w, hw, h⟩ := Option.bind_eq_some_iff.mp h
      obtain ⟨ws', hws', h⟩ := Option.bind_eq_some_iff.mp h
      obtain rfl := Option.some.inj h
      obtain ⟨hlen, hnumber⟩ := ih hws'
      refine ⟨by rw [List.length_cons, List.length_cons, hlen], fun x hx => ?_⟩
      rcases List.mem_cons.mp hx with rfl | hx
      · exact number_rlTodouble hw
      · exact hnumber x hx

theorem fits_setopOptions {op : SetOp} {store cardinalityOnly : Bool} {setnum : Nat}
    {args : List (LuaValue ν)} {o o' : SetopOptions ν} (ho : o.Fits setnum)
    (h : setopOptions op store cardinalityOnly setnum args o = .ok o') : o'.Fits setnum := by
  fun_induction setopOptions op store cardinalityOnly setnum args o
  case case1 => exact Except.ok.inj h ▸ ho
  case case3 hlen ws hws _ ih =>
    obtain ⟨hlen', hnumber⟩ := mapM_rlTodouble hws
    exact ih ⟨hlen'.trans (not_not.mp hlen), hnumber, ho.limit⟩ h
  case case6 ih => exact ih ⟨ho.weights, ho.number, ho.limit⟩ h
  case case9 ih => exact ih ⟨ho.weights, ho.number, ho.limit⟩ h
  case case11 hlimit _ _ ih => exact ih ⟨ho.weights, ho.number, Int.not_lt.mp hlimit⟩ h
  all_goals contradiction

/-- ZUNION and ZINTER have the same options, and what a STORE form accepts its
read form accepts too. -/
theorem setopOptions_mono {op op' : SetOp} (hop : op = .diff ↔ op' = .diff) {store store' : Bool}
    (hstore : store = false → store' = false) {cardinalityOnly : Bool} {setnum : Nat}
    {args : List (LuaValue ν)} {o o' : SetopOptions ν}
    (h : setopOptions op store cardinalityOnly setnum args o = .ok o') :
    setopOptions op' store' cardinalityOnly setnum args o = .ok o' := by
  fun_induction setopOptions op store cardinalityOnly setnum args o
  case case1 => exact h
  case case3 hlen ws hws hopt ih =>
    rw [setopOptions.eq_def]
    simp only
    rw [if_pos ⟨mt hop.mpr hopt.1, hopt.2⟩, if_neg hlen, hws]
    exact ih h
  case case6 hagg hnot hopt ih =>
    rw [setopOptions.eq_def]
    simp only
    rw [if_neg fun hw => hnot ⟨mt hop.mp hw.1, hw.2⟩, if_pos ⟨mt hop.mpr hopt.1, hopt.2⟩, hagg]
    exact ih h
  case case9 hnot hnot' hopt ih =>
    rw [setopOptions.eq_def]
    simp only
    rw [if_neg fun hw => hnot ⟨mt hop.mp hw.1, hw.2⟩, if_neg fun hw => hnot' ⟨mt hop.mp hw.1, hw.2⟩,
      if_pos ⟨hstore hopt.1, hopt.2⟩]
    exact ih h
  case case11 hopt _ _ _ hlong hlimit hnot hnot' ih =>
    rw [setopOptions.eq_def]
    simp only
    rw [if_neg fun hw => hnot ⟨mt hop.mp hw.1, hw.2⟩, if_neg fun hw => hnot' ⟨mt hop.mp hw.1, hw.2⟩,
      if_neg fun hw => by rw [hopt.1] at hw; exact Bool.false_ne_true hw.2.1.symm, if_pos hopt, hlong]
    simp only
    rw [if_neg hlimit]
    exact ih h
  all_goals contradiction

/-- What a call's arguments are, when they are accepted. -/
theorem setopArgs_eq_ok_iff {keyidx : Nat} {op : SetOp} {cardinalityOnly : Bool} {cmdname : String}
    {args : List (LuaValue ν)} {ids : List Nat} {o : SetopOptions ν} :
    setopArgs keyidx op cardinalityOnly cmdname args = .ok (ids, o) ↔
      ∃ keys, rlChecklist args keyidx cmdname = .ok keys ∧ keys ≠ [] ∧
        (keys.mapM fun v => rlCheckValue .zset (some v)) = .ok ids ∧
        setopOptions op (keyidx == 2) cardinalityOnly keys.length (args.drop keyidx)
          { weights := List.replicate keys.length (Score.ofLong 1) } = .ok o := by
  rw [setopArgs, except_bind_eq_ok]
  refine exists_congr fun keys => and_congr_right fun _ => ?_
  by_cases hkeys : keys = []
  · rw [hkeys]
    exact iff_of_false nofun fun h => h.1 rfl
  · have hpos : ¬ keys.length < 1 := by
      rw [Nat.lt_one_iff, List.length_eq_zero_iff]
      exact hkeys
    rw [if_neg hpos, except_bind_eq_ok]
    simp only [except_bind_eq_ok]
    constructor
    · rintro ⟨ids', hids, o', ho, heq⟩
      obtain ⟨rfl, rfl⟩ := Prod.mk.inj (Except.ok.inj heq)
      exact ⟨hkeys, hids, ho⟩
    · rintro ⟨-, hids, ho⟩
      exact ⟨ids, hids, o, ho, rfl⟩

omit [Score ν] in
theorem rlChecklist_eq_ok_iff {args : List (LuaValue ν)} {idx : Nat} {cmdname : String}
    {keys : List (LuaValue ν)} :
    rlChecklist args idx cmdname = .ok keys ↔ ¬ args.length < idx ∧ luaArg args idx = some (.table keys) := by
  rw [rlChecklist]
  split_ifs with hlen
  · exact iff_of_false (fun h => by contradiction) fun h => h.1 hlen
  · rw [and_iff_right hlen]
    split
    case h_1 elements heq => rw [heq, Except.ok.injEq, Option.some_inj, LuaValue.table.injEq]
    case h_2 hne => exact iff_of_false (fun h => by contradiction) (hne keys)

/-- What ZUNION accepts ZINTER accepts, and the other way around. -/
theorem setopArgs_mono {op op' : SetOp} (hop : op = .diff ↔ op' = .diff) {cardinalityOnly : Bool}
    {cmdname cmdname' : String} {args : List (LuaValue ν)} {ids : List Nat} {o : SetopOptions ν}
    (h : setopArgs 1 op cardinalityOnly cmdname args = .ok (ids, o)) :
    setopArgs 1 op' cardinalityOnly cmdname' args = .ok (ids, o) := by
  obtain ⟨keys, hlist, hkeys, hids, ho⟩ := setopArgs_eq_ok_iff.mp h
  exact setopArgs_eq_ok_iff.mpr ⟨keys, rlChecklist_eq_ok_iff.mpr (rlChecklist_eq_ok_iff.mp hlist), hkeys,
    hids, setopOptions_mono hop id ho⟩

/-- What a STORE form accepts its read form accepts, without the
destination. -/
theorem setopArgs_of_store {op : SetOp} {cardinalityOnly : Bool} {cmdname cmdname' : String}
    {v : LuaValue ν} {args : List (LuaValue ν)} {ids : List Nat} {o : SetopOptions ν}
    (h : setopArgs 2 op cardinalityOnly cmdname (v :: args) = .ok (ids, o)) :
    setopArgs 1 op cardinalityOnly cmdname' args = .ok (ids, o) := by
  obtain ⟨keys, hlist, hkeys, hids, ho⟩ := setopArgs_eq_ok_iff.mp h
  obtain ⟨hlen, harg⟩ := rlChecklist_eq_ok_iff.mp hlist
  refine setopArgs_eq_ok_iff.mpr ⟨keys, rlChecklist_eq_ok_iff.mpr ⟨?_, harg⟩, hkeys, hids,
    setopOptions_mono Iff.rfl (fun _ => rfl) ho⟩
  exact fun hlt => hlen (Nat.succ_lt_succ hlt)

/-- The operands and options of an accepted call. -/
theorem fits_setopArgs [LawfulScore ν] {keyidx : Nat} {op : SetOp} {cardinalityOnly : Bool}
    {cmdname : String} {args : List (LuaValue ν)} {ids : List Nat} {o : SetopOptions ν}
    (h : setopArgs keyidx op cardinalityOnly cmdname args = .ok (ids, o)) :
    ids ≠ [] ∧ o.Fits ids.length := by
  obtain ⟨keys, -, hkeys, hids, ho⟩ := setopArgs_eq_ok_iff.mp h
  have hlen := mapM_rlCheckValue_length hids
  constructor
  · rintro rfl
    exact hkeys (List.length_eq_zero_iff.mp hlen.symm)
  · rw [hlen]
    refine fits_setopOptions ⟨List.length_replicate, fun w hw => ?_, Int.le_refl 0⟩ ho
    rw [List.eq_of_mem_replicate hw]
    exact LawfulScore.number_ofLong 1

end Arguments

/-! ## Results -/

section Results

variable {ν : Type} [Score ν]

/-- Elements that make a sorted set: their scores are numbers and their names
differ. -/
structure Fit (members : List (Scored ν)) : Prop where
  number : ∀ a ∈ members, a.IsNumber
  nodup : (members.map Scored.ele).Nodup

theorem Fit.of_scoreOf {members : List (Scored ν)} (hnd : (members.map Scored.ele).Nodup)
    (hnumber : ∀ e x, scoreOf members e = some x → isNaN x = false) : Fit members :=
  ⟨fun a ha => hnumber a.ele a.score ((scoreOf_eq_some_iff hnd).mpr ha), hnd⟩

variable [LawfulScore ν]

theorem number_foldl_aggregate (aggregate : Aggregate) (xs : List ν) {x : ν} (h : isNaN x = false) :
    isNaN (xs.foldl (zunionInterAggregate aggregate) x) = false := by
  induction xs generalizing x with
  | nil => exact h
  | cons y xs ih => exact ih (number_aggregate aggregate h y)

theorem fit_zunionMembers (aggregate : Aggregate) {srcs : List (Zsetopsrc ν)}
    (h : ∀ src ∈ srcs, src.zobj.Wf) : Fit (zunionMembers aggregate srcs) := by
  refine Fit.of_scoreOf (nodup_zunionMembers aggregate h) fun e x hx => ?_
  rw [scoreOf_zunionMembers aggregate h] at hx
  cases hp : products aggregate srcs e with
  | nil =>
      rw [hp] at hx
      contradiction
  | cons y ys =>
      rw [hp] at hx
      obtain rfl := Option.some.inj hx
      exact number_foldl_aggregate aggregate _ (number_nanToZero y)

omit [LawfulScore ν] in
theorem nodup_zinterMembers (aggregate : Aggregate) {srcs : List (Zsetopsrc ν)}
    (h : ∀ src ∈ srcs, src.zobj.Wf) : ((zinterMembers aggregate srcs).map Scored.ele).Nodup := by
  cases srcs with
  | nil => exact List.nodup_nil
  | cons first rest =>
      have hfirst := h first List.mem_cons_self
      have hsub : ∀ l : List (Scored ν),
          ((l.filterMap (zinterEntry aggregate first rest)).map Scored.ele).Sublist (l.map Scored.ele) := by
        intro l
        induction l with
        | nil => exact List.Sublist.refl _
        | cons a l ih =>
            rw [List.filterMap_cons, List.map_cons]
            cases hentry : zinterEntry aggregate first rest a with
            | none => exact ih.cons _
            | some b =>
                rw [← ele_zinterEntry hentry]
                exact ih.cons_cons _
      rw [zinterMembers_eq aggregate hfirst]
      exact (nodup_walk hfirst).sublist (hsub _)

theorem fit_zinterMembers (aggregate : Aggregate) {srcs : List (Zsetopsrc ν)}
    (h : ∀ src ∈ srcs, src.zobj.Wf) (hsame : ∀ a ∈ srcs, ∀ b ∈ srcs, SameObject a b) :
    Fit (zinterMembers aggregate srcs) := by
  refine Fit.of_scoreOf (nodup_zinterMembers aggregate h) fun e x hx => ?_
  rw [scoreOf_zinterMembers aggregate h hsame] at hx
  split_ifs at hx
  cases hp : products aggregate srcs e with
  | nil =>
      rw [hp] at hx
      contradiction
  | cons y ys =>
      rw [hp] at hx
      obtain rfl := Option.some.inj hx
      exact number_foldl_aggregate aggregate _ (number_nanToZero y)

omit [LawfulScore ν] in
theorem fit_zdiffMembers {srcs : List (Zsetopsrc ν)} (h : ∀ src ∈ srcs, src.zobj.Wf) :
    Fit (zdiffMembers srcs) := by
  cases srcs with
  | nil => exact ⟨nofun, List.nodup_nil⟩
  | cons first rest =>
      have hfirst := h first List.mem_cons_self
      rw [zdiffMembers_eq hfirst fun src hsrc => h src (List.mem_cons_of_mem first hsrc)]
      refine ⟨fun a ha => ?_, (nodup_walk hfirst).sublist (List.filter_sublist.map _)⟩
      have hin := List.mem_of_mem_filter ha
      rw [zuiWalk_eq hfirst, List.mem_reverse] at hin
      exact hfirst.sound.number a hin

/-- **The result of every set operation** can be stored: no score is NaN, and
no element comes twice. -/
theorem setopMembers_fit (qsort : CardinalitySort ν) (op : SetOp) (aggregate : Aggregate)
    {srcs : List (Zsetopsrc ν)} (h : ∀ src ∈ srcs, src.zobj.Wf)
    (hsame : ∀ a ∈ srcs, ∀ b ∈ srcs, SameObject a b) : Fit (setopMembers qsort op aggregate srcs) := by
  have hmem : ∀ src, src ∈ qsort.sort srcs ↔ src ∈ srcs := fun src => (qsort.perm srcs).mem_iff
  cases op with
  | union => exact fit_zunionMembers aggregate fun src hsrc => h src ((hmem src).mp hsrc)
  | inter =>
      exact fit_zinterMembers aggregate (fun src hsrc => h src ((hmem src).mp hsrc))
        fun a ha b hb => hsame a ((hmem a).mp ha) b ((hmem b).mp hb)
  | diff => exact fit_zdiffMembers h

/-- The sorted set the result is built in. -/
theorem Fit.build {members : List (Scored ν)} (h : Fit members) (rand : Draws) :
    ∃ L, (Zset.create.addAll rand members).Holds L ∧
      (Zset.create.addAll rand members).items.Perm members := by
  obtain ⟨L, hL, hperm⟩ := Zset.holds_create.addAll rand h.number (by
    rw [Zset.holds_create.items_eq]
    simpa using h.nodup)
  rw [Zset.holds_create.items_eq, List.map_nil, List.append_nil] at hperm
  exact ⟨L, hL, hperm⟩

/-- The elements a result is replied with. -/
theorem Fit.sound_build {members : List (Scored ν)} (h : Fit members) (rand : Draws) :
    Sound (Zset.create.addAll rand members).items ∧
      ∀ e, scoreOf (Zset.create.addAll rand members).items e = scoreOf members e := by
  obtain ⟨L, hL, hperm⟩ := h.build rand
  exact ⟨hL.sound_items, fun e => scoreOf_perm hL.sound_items.nodup hperm e⟩

/-- A skiplist, converted or not. -/
theorem wf_zsetConvertToListpackIfNeeded {zs : Zset ν} {L : List Nat} (h : zs.Holds L) (maxlen totlen : Nat) :
    (zsetConvertToListpackIfNeeded (.skiplist zs) maxlen totlen).Wf ∧ List.Forall₂ Near zs.items
      (zsetConvertToListpackIfNeeded (.skiplist zs) maxlen totlen).items := by
  rw [zsetConvertToListpackIfNeeded]
  split_ifs
  · obtain ⟨hvalid, hnear⟩ := near_zsetConvertToListpack h
    exact ⟨⟨hvalid, h.sound_items.of_near hnear⟩, hnear⟩
  · exact ⟨⟨L, h⟩, List.forall₂_same.mpr fun a ha => Near.refl (h.sound_items.number a ha)⟩

/-- **Storing** a result. -/
theorem Fit.stored {members : List (Scored ν)} (h : Fit members) (rand : Draws) :
    (setopStored rand members).Wf ∧
      List.Forall₂ Near (Zset.create.addAll rand members).items (setopStored rand members).items := by
  obtain ⟨L, hL, hperm⟩ := h.build rand
  rw [setopStored]
  split_ifs with hlen
  · exact wf_zsetConvertToListpackIfNeeded hL _ _
  · have hnil : (Zset.create.addAll rand members).items = [] := by
      rw [← List.length_eq_zero_iff, ← hL.length_eq]
      exact not_not.mp hlen
    refine ⟨wf_zsetTypeCreate 0 0, ?_⟩
    rw [items_zsetTypeCreate, hnil]
    exact .nil

omit [Score ν] [LawfulScore ν] in
/-- The operands of a call are the objects behind its handles. -/
theorem sameObject_setopSources (s : Zsets ν) (ids : List Nat) (weights : List ν) :
    ∀ a ∈ setopSources s ids weights, ∀ b ∈ setopSources s ids weights, SameObject a b := by
  have hobj : ∀ src ∈ setopSources s ids weights, src.zobj = s .zset src.subject := by
    intro src hsrc
    rw [setopSources, ← List.map_uncurry_zip_eq_zipWith] at hsrc
    obtain ⟨p, -, rfl⟩ := List.mem_map.mp hsrc
    rfl
  intro a ha b hb hsub
  rw [hobj a ha, hobj b hb, hsub]

omit [LawfulScore ν] in
theorem wf_setopSources {s : Zsets ν} (h : ∀ id, (s .zset id).Wf) (ids : List Nat) (weights : List ν) :
    ∀ src ∈ setopSources s ids weights, src.zobj.Wf := by
  intro src hsrc
  rw [setopSources, ← List.map_uncurry_zip_eq_zipWith] at hsrc
  obtain ⟨p, -, rfl⟩ := List.mem_map.mp hsrc
  exact h p.1

/-! ## Calls -/

omit [LawfulScore ν] in
theorem exec_setopRead (qsort : CardinalitySort ν) (rand : Draws) (op : SetOp) (cmdname : String)
    (args : List (LuaValue ν)) (s : Zsets ν) : exec (setopRead qsort rand op cmdname args) s =
      match setopArgs 1 op false cmdname args with
      | .error e => (.error e, s)
      | .ok (ids, o) => (.ok (flatReply o.withscores (Zset.create.addAll rand
          (setopMembers qsort op o.aggregate (setopSources s ids o.weights))).items), s) := by
  rw [setopRead, exec_check_bind]
  cases setopArgs 1 op false cmdname args with
  | error e => rfl
  | ok r => rfl

/-- **The forms that reply** with the result: its elements in order, with the
scores that the operation gives them. -/
theorem setopRead_spec {s : Zsets ν} (h : ∀ id, (s .zset id).Wf) (qsort : CardinalitySort ν) (rand : Draws)
    {op : SetOp} {cmdname : String} {args : List (LuaValue ν)} {ids : List Nat} {o : SetopOptions ν}
    (hargs : setopArgs 1 op false cmdname args = .ok (ids, o)) :
    ∃ items, exec (setopRead qsort rand op cmdname args) s = (.ok (flatReply o.withscores items), s) ∧
      Sound items ∧ ∀ e, scoreOf items e =
        scoreOf (setopMembers qsort op o.aggregate (setopSources s ids o.weights)) e := by
  have hfit := setopMembers_fit qsort op o.aggregate (wf_setopSources h ids o.weights)
    (sameObject_setopSources s ids o.weights)
  obtain ⟨hsound, hscore⟩ := hfit.sound_build rand
  refine ⟨_, ?_, hsound, hscore⟩
  rw [exec_setopRead, hargs]

omit [LawfulScore ν] in
theorem exec_setopCard (qsort : CardinalitySort ν) (cmdname : String) (args : List (LuaValue ν))
    (s : Zsets ν) : exec (setopCard qsort cmdname args) s = match setopArgs 1 .inter true cmdname args with
      | .error e => (.error e, s)
      | .ok (ids, o) => (.ok (.int (zinterCard o.aggregate o.limit.toNat
          (qsort.sort (setopSources s ids o.weights)))), s) := by
  rw [setopCard, exec_check_bind]
  cases setopArgs 1 .inter true cmdname args with
  | error e => rfl
  | ok r => rfl

omit [Score ν] [LawfulScore ν] in
/-- What a loop counts that stops at a limit. -/
theorem countPresent_eq (present : Scored ν → Bool) (limit : Nat) (walk : List (Scored ν)) {n : Nat}
    (hn : limit = 0 ∨ n < limit) : countPresent present limit walk n =
      if limit = 0 then n + (walk.filter present).length
      else min limit (n + (walk.filter present).length) := by
  induction walk generalizing n with
  | nil =>
      rw [countPresent]
      simp only [List.filter_nil, List.length_nil]
      split_ifs with hlimit
      · rfl
      · omega
  | cons zval walk ih =>
      rw [countPresent, List.filter_cons]
      by_cases hpresent : present zval = true
      · rw [if_pos hpresent, if_pos hpresent, List.length_cons]
        by_cases hstop : limit ≠ 0 ∧ limit ≤ n + 1
        · rw [if_pos hstop, if_neg hstop.1]
          omega
        · rw [if_neg hstop, ih (by omega)]
          split_ifs
          · omega
          · omega
      · rw [if_neg hpresent, if_neg hpresent, ih hn]

omit [LawfulScore ν] in
/-- **ZINTERCARD** counts what ZINTER inserts, up to the limit. -/
theorem zinterCard_eq (aggregate : Aggregate) (limit : Nat) {srcs : List (Zsetopsrc ν)}
    (h : ∀ src ∈ srcs, src.zobj.Wf) : zinterCard aggregate limit srcs =
      if limit = 0 then (zinterMembers aggregate srcs).length
      else min limit (zinterMembers aggregate srcs).length := by
  cases srcs with
  | nil => simp [zinterCard, zinterMembers]
  | cons first rest =>
      have hlength : ((zuiWalk first).filter fun zval => (zinterEntry aggregate first rest zval).isSome).length =
          (zinterMembers aggregate (first :: rest)).length := by
        rw [zinterMembers_eq aggregate (h first List.mem_cons_self), List.length_filterMap_eq_countP,
          List.countP_eq_length_filter]
      rw [zinterCard]
      split_ifs with hlen hlimit hlimit
      · rw [countPresent_eq _ _ _ (.inl hlimit), if_pos hlimit, hlength, Nat.zero_add]
      · rw [countPresent_eq _ _ _ (.inr (Nat.pos_of_ne_zero hlimit)), if_neg hlimit, hlength, Nat.zero_add]
      · rw [← hlength, zuiWalk_eq_nil (h first List.mem_cons_self) (by omega)]
        rfl
      · rw [← hlength, zuiWalk_eq_nil (h first List.mem_cons_self) (by omega)]
        simp

end Results

end SkynetJit.Redis
