import Mathlib.Logic.Function.Basic
import SkynetJit.Lib.Raise
import SkynetJit.Zset.Skiplist

/-!
# SkynetJit.Zset.Object

The Lua sorted set: the module `skiplist.c` (`luaclib-src/zset/lua-skiplist.c`)
and the object over it (`luaclib-src/lua/zset.lua`).

The object keeps every member twice, in a table by name with the score as it
was given, and in a skiplist by the number that the score stands for.

Ranks and counts are integers here: a Lua number of that size is exact.  The
hint that `lua_createtable` is given is left out; it refuses more than 2^27
slots.
-/

namespace SkynetJit.Luaclib

open Skiplist Raise
open Redis (Score LawfulScore Scored Sound LuaValue LuaTonumber scoreOf)
open Redis.LuaNumber (isNaN)

/-- What ends a call early: a bad argument, or a read through a null
pointer. -/
inductive Fault where
  | badArgument (index : Nat) (expected : String)
  | segfault
deriving DecidableEq, Repr

section Commands

variable {ν : Type} [Score ν] [LuaTonumber ν]

/-- The number a value is or is the text of. -/
def numberOf : LuaValue ν → Option ν
  | .number x => some x
  | .string s => LuaTonumber.tonumber s
  | _ => none

/-- `luaL_checknumber`. -/
def checknumber (idx : Nat) (v : LuaValue ν) : Except Fault ν :=
  match numberOf v with
  | some x => .ok x
  | none => .error (.badArgument idx "number")

/-- `luaL_checktype` for a string, and `lua_tolstring`. -/
def checkstring (idx : Nat) : LuaValue ν → Except Fault Bytes
  | .string s => .ok s
  | _ => .error (.badArgument idx "string")

/-- `luaL_checkunsigned` of an integer. -/
def unsigned (n : Int) : Nat := (n % 2 ^ 32).toNat

/-- The cast to `int`. -/
def cint (n : Int) : Int := if n % 2 ^ 32 < 2 ^ 31 then n % 2 ^ 32 else n % 2 ^ 32 - 2 ^ 32

/-! ## lua-skiplist.c -/

/-- `node->backward` or `node->level[0].forward`. -/
def slNext (z : Skiplist (Scored ν)) (reverse : Bool) (id : Nat) : Option Nat :=
  if reverse then (z.node id).backward else (z.link (some id) 0).forward

/-- The loop of `_get_rank_range`, at most so many times. -/
def rankRangeLoop (z : Skiplist (Scored ν)) (reverse : Bool) : Nat → Option Nat → List Bytes
  | 0, _ => []
  | _ + 1, none => []
  | n + 1, some id => (z.node id).val.ele :: rankRangeLoop z reverse n (slNext z reverse id)

/-- The loop of `_get_score_range`. -/
def scoreRangeLoop (z : Skiplist (Scored ν)) (reverse : Bool) (s2 : ν) : Nat → Option Nat → List Bytes
  | 0, _ => []
  | _ + 1, none => []
  | n + 1, some id =>
      let score := (z.node id).val.score
      if (if reverse then Score.lt score s2 else Score.lt s2 score) then []
      else (z.node id).val.ele :: scoreRangeLoop z reverse s2 n (slNext z reverse id)

/-- `_get_rank_range`. -/
def slGetRankRange (z : Skiplist (Scored ν)) (r1 r2 : Int) : List Bytes :=
  let a := unsigned r1
  let b := unsigned r2
  let reverse := !decide (a ≤ b)
  let rangelen := cint (if reverse then (a : Int) - b + 1 else (b : Int) - a + 1)
  rankRangeLoop z reverse rangelen.toNat (slGetNodeByRank z a)

/-- `_get_score_range`.  The header's score is 0, and it has no object. -/
def slGetScoreRange (z : Skiplist (Scored ν)) (s1 s2 : ν) : Except Fault (List Bytes) :=
  if Score.le s1 s2 then .ok (scoreRangeLoop z false s2 (z.length + 1) (slFirstInRange z s1 s2))
  else
    match slLastInRange z s2 s1 with
    | none => .ok []
    | some none => if Score.lt (Score.ofLong 0) s2 then .ok [] else .error .segfault
    | some (some id) => .ok (scoreRangeLoop z true s2 (z.length + 1) (some id))

/-! ## zset.lua -/

/-- The object: `sl` and `tbl`. -/
structure Zset (ν : Type) where
  sl : Skiplist (Scored ν)
  tbl : Bytes → Option (LuaValue ν)

/-- A command of the object. -/
abbrev Method (ν : Type) := Raise Fault (Zset ν)

namespace Zset

/-- How many draws stay below the threshold, for each node in turn. -/
abbrev Draws := Nat → Nat

variable (rand : Draws)

/-- `M.new`. -/
def new : Zset ν := ⟨slCreate, fun _ => none⟩

/-- `self.tbl[member]`; the keys are all strings. -/
def find (s : Zset ν) : LuaValue ν → Option (LuaValue ν)
  | .string m => s.tbl m
  | _ => none

/-- `==` on what a score can be. -/
def luaEq : LuaValue ν → LuaValue ν → Bool
  | .number x, .number y => Score.eq x y
  | .string s, .string t => s == t
  | _, _ => false

/-- `self.sl:insert(score, member)`. -/
def slInsert (score member : LuaValue ν) : Method ν Unit := do
  let x ← check (checknumber 2 score)
  let m ← check (checkstring 3 member)
  modify fun s => { s with sl := Luaclib.slInsert (rand s.sl.fresh) s.sl ⟨m, x⟩ }

/-- `self.sl:delete(score, member)`. -/
def slDelete (score member : LuaValue ν) : Method ν Bool := do
  let x ← check (checknumber 2 score)
  let m ← check (checkstring 3 member)
  let s ← get
  let r := Luaclib.slDelete s.sl ⟨m, x⟩
  set { s with sl := r.2 }
  return r.1

/-- `self.tbl[member] = v`. -/
def assign (member : LuaValue ν) (v : Option (LuaValue ν)) : Method ν Unit :=
  match member with
  | .string m => modify fun s => { s with tbl := Function.update s.tbl m v }
  | _ => pure ()

/-- `self.sl:delete_by_rank(start, end, forget)`, where `forget` takes a member
out of the table. -/
def deleteByRank (start stop : Int) : Method ν Nat := do
  let s ← get
  let a := unsigned start
  let b := unsigned stop
  let r := slDeleteByRank s.sl (if a > b then b else a) (if a > b then a else b)
  set (⟨r.2, r.1.foldl (fun tbl n => Function.update tbl n.ele none) s.tbl⟩ : Zset ν)
  return r.1.length

/-- `mt:add`. -/
def add (score member : LuaValue ν) : Method ν Unit := do
  match (← get).find member with
  | some old =>
      if luaEq old score then return
      let _ ← slDelete old member
  | none => pure ()
  slInsert rand score member
  assign member (some score)

/-- `mt:rem`. -/
def rem (member : LuaValue ν) : Method ν Unit := do
  match (← get).find member with
  | some score =>
      let _ ← slDelete score member
      assign member none
  | none => pure ()

/-- `mt:count`. -/
def count : Method ν Nat := return (← get).sl.length

/-- `mt:_reverse_rank`. -/
def reverseRank (r : Int) : Method ν Int := return (← count) - r + 1

/-- `mt:limit`. -/
def limit (n : Int) : Method ν Nat := do
  let total ← count
  if (total : Int) ≤ n then return 0
  deleteByRank (n + 1) total

/-- `mt:rev_limit`. -/
def revLimit (n : Int) : Method ν Nat := do
  let total ← count
  if (total : Int) ≤ n then return 0
  let start ← reverseRank (n + 1)
  let stop ← reverseRank total
  deleteByRank start stop

/-- `mt:range`. -/
def range (r1 r2 : Int) : Method ν (List Bytes) :=
  return slGetRankRange (← get).sl (if r1 < 1 then 1 else r1) (if r2 < 1 then 1 else r2)

/-- `mt:rev_range`. -/
def revRange (r1 r2 : Int) : Method ν (List Bytes) := do
  let r1 ← reverseRank r1
  let r2 ← reverseRank r2
  range r1 r2

/-- `mt:rank`; the call of `get_rank` has no result for an element that is not
found. -/
def rank (member : LuaValue ν) : Method ν (Option Nat) := do
  let s ← get
  match s.find member with
  | none => return none
  | some score =>
      let x ← check (checknumber 2 score)
      let m ← check (checkstring 3 member)
      let r := slGetRank s.sl ⟨m, x⟩
      return if r = 0 then none else some r

/-- `mt:rev_rank`. -/
def revRank (member : LuaValue ν) : Method ν (Option Int) := do
  match ← rank member with
  | some r => return some (← reverseRank r)
  | none => return none

/-- `mt:range_by_score`. -/
def rangeByScore (s1 s2 : LuaValue ν) : Method ν (List Bytes) := do
  let x ← check (checknumber 2 s1)
  let y ← check (checknumber 3 s2)
  check (slGetScoreRange (← get).sl x y)

/-- `mt:score`. -/
def score (member : LuaValue ν) : Method ν (Option (LuaValue ν)) := return (← get).find member

end Zset

end Commands

/-! ## The loops over a list -/

section Loops

variable {ν : Type} {z : Skiplist (Scored ν)} {reverse : Bool}

/-- The nodes `M` are what a walk in one direction has ahead of it. -/
def Ahead (z : Skiplist (Scored ν)) (reverse : Bool) : List Nat → Option Nat → Prop
  | [], x => x = none
  | id :: M, x => x = some id ∧ Ahead z reverse M (slNext z reverse id)

theorem ahead_forward {A B : List Nat} (h : Rep z (A ++ B)) : Ahead z false B B.head? := by
  induction B generalizing A with
  | nil => rfl
  | cons id B ih =>
      have hcut : Rep z ((A ++ [id]) ++ B) := by simpa using h
      have hnext := hcut.next_eq
      rw [List.getLast?_concat] at hnext
      refine ⟨rfl, ?_⟩
      rw [slNext, if_neg Bool.false_ne_true, hnext]
      exact ih hcut

theorem ahead_backward {A B : List Nat} (h : Rep z (A ++ B)) : Ahead z true A.reverse A.getLast? := by
  induction A using List.reverseRecOn generalizing B with
  | nil => rfl
  | append_singleton A id ih =>
      have hcut : Rep z (A ++ id :: B) := by simpa using h
      rw [List.reverse_concat, List.getLast?_concat]
      refine ⟨rfl, ?_⟩
      rw [slNext, if_pos rfl, h.backward A id B (by simp)]
      exact ih hcut

theorem rankRangeLoop_eq {M : List Nat} {x : Option Nat} (h : Ahead z reverse M x) (n : Nat) :
    rankRangeLoop z reverse n x = (M.take n).map fun id => (z.node id).val.ele := by
  induction n generalizing M x with
  | zero => rw [List.take_zero]; rfl
  | succ n ih =>
      cases M with
      | nil => rw [show x = none from h]; rfl
      | cons id M =>
          obtain ⟨rfl, hrest⟩ := h
          rw [rankRangeLoop, ih hrest, List.take_succ_cons, List.map_cons]

variable [Score ν]

/-- The loop over scores ends at the first one past the range. -/
theorem scoreRangeLoop_eq {M : List Nat} {x : Option Nat} (h : Ahead z reverse M x) {n : Nat}
    (hn : M.length < n) (s2 : ν) : scoreRangeLoop z reverse s2 n x =
      ((M.map fun id => (z.node id).val).takeWhile fun a =>
        if reverse then notBelow s2 a else notAbove s2 a).map Scored.ele := by
  induction n generalizing M x with
  | zero => omega
  | succ n ih =>
      cases M with
      | nil => rw [show x = none from h]; rfl
      | cons id M =>
          obtain ⟨rfl, hrest⟩ := h
          rw [scoreRangeLoop, ih hrest (Nat.lt_of_succ_lt_succ hn), List.map_cons, List.takeWhile_cons]
          cases reverse with
          | true => cases hlt : Score.lt (z.node id).val.score s2 <;> simp [notBelow, hlt]
          | false => cases hlt : Score.lt s2 (z.node id).val.score <;> simp [notAbove, hlt]

end Loops

/-! ## Ranges -/

section Windows

variable {ν : Type} [Score ν] {z : Skiplist (Scored ν)} {items : List (Scored ν)}

/-- What is between two ranks, counted from 1; from the higher rank down when
that comes first, if there is such a rank. -/
def window {α : Type} (items : List α) (r1 r2 : Int) : List α :=
  let a := (max r1 1).toNat
  let b := (max r2 1).toNat
  if a ≤ b then (items.drop (a - 1)).take (b - a + 1)
  else if a ≤ items.length then ((items.take a).drop (b - 1)).reverse
  else []

theorem unsigned_of_lt {n : Int} (h0 : 0 ≤ n) (h : n < 2 ^ 32) : unsigned n = n.toNat := by
  rw [unsigned, Int.emod_eq_of_lt h0 h]

theorem cint_of_lt {n : Int} (h0 : 0 ≤ n) (h : n < 2 ^ 31) : cint n = n := by
  rw [cint, Int.emod_eq_of_lt h0 (by omega), if_pos h]

omit [Score ν] in
/-- **A range of ranks**, as far as its length is an `int`. -/
theorem slGetRankRange_spec (h : Lists z items) {r1 r2 : Int} (h1 : r1 < 2 ^ 31) (h2 : r2 < 2 ^ 31) :
    slGetRankRange z (if r1 < 1 then 1 else r1) (if r2 < 1 then 1 else r2) =
      (window items r1 r2).map Scored.ele := by
  obtain ⟨L, hL, rfl⟩ := h
  have hmax : ∀ r : Int, (if r < 1 then 1 else r) = max r 1 := fun r => by omega
  rw [hmax, hmax, slGetRankRange, unsigned_of_lt (by omega) (by omega), unsigned_of_lt (by omega) (by omega), window]
  obtain ⟨a, ha⟩ : ∃ a : Nat, max r1 1 = a := ⟨(max r1 1).toNat, by omega⟩
  obtain ⟨b, hb⟩ : ∃ b : Nat, max r2 1 = b := ⟨(max r2 1).toNat, by omega⟩
  have hnode : slGetNodeByRank z a = L[a - 1]? := by rw [slGetNodeByRank_spec hL, if_neg (by omega)]
  rw [ha, hb, Int.toNat_natCast, Int.toNat_natCast, hnode]
  by_cases hab : a ≤ b
  · have hrange : cint ((b : Int) - a + 1) = (b - a + 1 : Nat) := by
      rw [cint_of_lt (by omega) (by omega)]
      omega
    have hahead : Ahead z false (L.drop (a - 1)) L[a - 1]? := by
      rw [← List.head?_drop]
      refine ahead_forward (A := L.take (a - 1)) ?_
      rw [List.take_append_drop]
      exact hL.rep
    rw [decide_eq_true hab, if_pos hab, Bool.not_true, if_neg Bool.false_ne_true, hrange, Int.toNat_natCast,
      rankRangeLoop_eq hahead]
    simp only [List.map_take, List.map_drop, List.map_map, Function.comp_def]
  · have hrange : cint ((a : Int) - b + 1) = (a - b + 1 : Nat) := by
      rw [cint_of_lt (by omega) (by omega)]
      omega
    rw [decide_eq_false hab, if_neg hab, Bool.not_false, if_pos rfl, hrange, Int.toNat_natCast, List.length_map]
    by_cases hlong : a ≤ L.length
    · have hahead : Ahead z true (L.take a).reverse L[a - 1]? := by
        have hlast : (L.take a).getLast? = L[a - 1]? := by
          rw [List.getLast?_take, if_neg (by omega), List.getElem?_eq_getElem (by omega), Option.some_or]
        rw [← hlast]
        refine ahead_backward (B := L.drop a) ?_
        rw [List.take_append_drop]
        exact hL.rep
      rw [if_pos hlong, rankRangeLoop_eq hahead, List.reverse_drop]
      simp only [List.map_take, List.map_reverse, List.map_map, Function.comp_def, List.length_take, List.length_map]
      rw [show min a L.length - (b - 1) = a - b + 1 by omega]
    · rw [if_neg hlong, List.getElem?_eq_none (by omega)]
      cases a - b + 1 <;> rfl

/-- What is between two scores; from the higher score down when that comes
first. -/
def between (items : List (Scored ν)) (s1 s2 : ν) : List (Scored ν) :=
  if Score.le s1 s2 then items.filter fun a => notBelow s1 a && notAbove s2 a
  else (items.filter fun a => notBelow s2 a && notAbove s1 a).reverse

variable [LawfulScore ν]

/-- **A range of scores**, upwards. -/
theorem slGetScoreRange_up (h : Lists z items) (hsound : Sound items) {s1 s2 : ν} (hle : Score.le s1 s2 = true) :
    slGetScoreRange z s1 s2 = .ok ((between items s1 s2).map Scored.ele) := by
  obtain ⟨A, M, B, hcut, hfrom⟩ := (ascends_of_sound hsound s1 s2).exists_cut
  obtain ⟨A', C', hC', hvals, hfirst⟩ := slFirstInRange_spec s2 h hcut.eq hcut.before fun a ha =>
    (List.mem_append.mp ha).elim (fun ha => (hcut.inside a ha).1) (hfrom a)
  rw [slGetScoreRange, if_pos hle, hfirst, between, if_pos hle, hcut.filter_eq]
  congr 1
  cases hin : slIsInRange z s1 s2 with
  | false => rw [nil_of_not_slIsInRange h hsound hcut hin]; rfl
  | true =>
      have hlen : C'.length < z.length + 1 := by
        rw [hC'.rep.length, List.length_append]
        omega
      rw [if_pos rfl, scoreRangeLoop_eq (ahead_forward hC'.rep) hlen, hvals]
      simp only [Bool.false_eq_true, if_false]
      rw [ListInterval.takeWhile_append (fun a ha => (hcut.inside a ha).2) hcut.after]

/-- **A range of scores**, downwards from a number. -/
theorem slGetScoreRange_down (h : Lists z items) (hsound : Sound items) {s1 s2 : ν} (hs1 : isNaN s1 = false)
    (hle : Score.le s1 s2 = false) :
    slGetScoreRange z s1 s2 = .ok ((between items s1 s2).map Scored.ele) := by
  obtain ⟨A, M, B, hcut, -⟩ := (ascends_of_sound hsound s2 s1).exists_cut
  have hdown : ¬ Score.le s1 s2 = true := by rw [hle]; exact Bool.false_ne_true
  rw [slGetScoreRange, if_neg hdown, between, if_neg hdown, hcut.filter_eq]
  cases hin : slIsInRange z s2 s1 with
  | false =>
      rw [slLastInRange, hin, if_neg Bool.false_ne_true, nil_of_not_slIsInRange h hsound hcut hin]
      rfl
  | true =>
      have hrange := hin
      rw [slIsInRange_eq h, Bool.and_eq_true, Bool.and_eq_true, Bool.not_eq_true'] at hrange
      have hnumber : ∀ a ∈ items, isNaN a.score = false := hsound.number
      have hitems : ∀ a ∈ A ++ M, a ∈ items := fun a ha => by
        rw [hcut.eq, ← List.append_assoc]
        exact List.mem_append_left B ha
      -- what is below the range is not above it
      have hfront : ∀ a ∈ A ++ M, notAbove s1 a = true := by
        intro a ha
        rcases List.mem_append.mp ha with hA | hM
        · have hbelow : Score.lt a.score s2 = true := by simpa [notBelow] using hcut.before a hA
          rw [notAbove, Bool.not_eq_true']
          exact Score.lt_asymm ((LawfulScore.lt_or_lt hs1 hbelow).resolve_right (by simp [hrange.1.1]))
        · exact (hcut.inside a hM).2
      have hle' : ∀ a ∈ items, Score.le a.score s1 = notAbove s1 a := fun a ha =>
        Redis.le_eq_not_lt (hnumber a ha) hs1
      obtain ⟨F', B', hF', hvals, hlast⟩ := slLastInRange_spec s2 h
        (hcut.eq.trans (List.append_assoc A M B).symm) (fun a ha => by rw [hle' a (hitems a ha), hfront a ha])
        fun a ha => by rw [hle' a (by rw [hcut.eq]; simp [ha]), hcut.after a ha]
      have hne : F' ≠ [] := by
        rintro rfl
        obtain ⟨hA, hM⟩ := List.append_eq_nil_iff.mp (show A ++ M = [] from hvals.symm)
        have hhead := hrange.2
        rw [hcut.eq, hA, hM, List.nil_append, List.nil_append] at hhead
        cases B with
        | nil => cases hhead
        | cons b B =>
            rw [List.head?_cons, Option.any_some, hcut.after b List.mem_cons_self] at hhead
            contradiction
      obtain ⟨F, id, rfl⟩ := (List.eq_nil_or_concat' F').resolve_left hne
      have hahead := ahead_backward hF'.rep
      rw [List.getLast?_concat] at hahead hlast
      have hlen : (F ++ [id]).reverse.length < z.length + 1 := by
        have htotal : (F ++ [id] ++ B').length = (F ++ [id]).length + B'.length := List.length_append
        rw [List.length_reverse, hF'.rep.length]
        omega
      rw [hlast, hin, if_pos rfl]
      dsimp only
      rw [scoreRangeLoop_eq hahead hlen, List.map_reverse, hvals, List.reverse_append]
      simp only [if_true]
      rw [ListInterval.takeWhile_append (fun a ha => (hcut.inside a (List.mem_reverse.mp ha)).1)
        fun a ha => hcut.before a (List.mem_reverse.mp ha)]

/-- **From a score that is not a number** the walk downwards starts at the
header, which has no object. -/
theorem slGetScoreRange_nan (h : Lists z items) {s1 s2 : ν} (hs1 : isNaN s1 = true) :
    slGetScoreRange z s1 s2 =
      if items.getLast?.any (notBelow s2) && !Score.lt (Score.ofLong 0) s2 then .error .segfault else .ok [] := by
  have hlt : ∀ x : ν, Score.lt s1 x = false := fun x => by
    rw [Bool.eq_false_iff]
    intro hx
    rw [(LawfulScore.number_of_lt hx).1] at hs1
    contradiction
  have hle : ∀ x : ν, Score.le x s1 = false := fun x => by
    rw [Bool.eq_false_iff]
    intro hx
    rw [(Score.number_of_le hx).2] at hs1
    contradiction
  have hdown : ¬ Score.le s1 s2 = true := fun hx => by
    rw [(Score.number_of_le hx).1] at hs1
    contradiction
  have hin : slIsInRange z s2 s1 = items.getLast?.any (notBelow s2) := by
    rw [slIsInRange_eq h, hlt, Bool.not_false, Bool.true_and]
    cases items with
    | nil => rfl
    | cons a items =>
        rw [List.head?_cons, Option.any_some, notAbove, hlt, Bool.not_false, Bool.and_true]
  obtain ⟨F', B', hF', hvals, hlast⟩ := slLastInRange_spec s2 (F := []) h rfl (by simp)
    fun a _ => hle a.score
  rw [List.map_eq_nil_iff.mp hvals] at hlast
  rw [slGetScoreRange, if_neg hdown, hlast, hin]
  cases items.getLast?.any (notBelow s2) with
  | false => rfl
  | true =>
      rw [if_pos rfl, Bool.true_and]
      cases Score.lt (Score.ofLong 0) s2 <;> rfl

end Windows

end SkynetJit.Luaclib
