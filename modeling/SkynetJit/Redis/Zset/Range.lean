import Mathlib.Order.WithBot
import SkynetJit.Lib.Interval
import SkynetJit.Redis.Zset.Kernel

/-!
# SkynetJit.Redis.Zset.Range

Ranges of a sorted set, by rank, by score and by name (`kernel/t_zset.c` and
the walks of `facade/sortedset.c`).

A range by score and a range by name are searched by the same lines, with
other tests; `RangeTests` are the tests.  A listpack is scanned from an end; a
skiplist is descended, and a large offset is jumped over by spans.  The results
`rangeItems_eq` and `rankItems_eq` say that both meet the slice of the elements
that the range describes, as long as the tests ascend along the elements.
-/

namespace SkynetJit.Redis

open Scored
open ListInterval (scanFrom keepWhile limited Cut Ascends)
open LuaNumber (isNaN)

/-! ## Bounds -/

section Bounds

variable {ν : Type} [Score ν]

/-- `zrangespec`. -/
structure Zrangespec (ν : Type) where
  min : ν
  max : ν
  minex : Bool
  maxex : Bool

/-- `zslValueGteMin`. -/
def zslValueGteMin (value : ν) (spec : Zrangespec ν) : Bool :=
  if spec.minex then Score.lt spec.min value else Score.le spec.min value

/-- `zslValueLteMax`. -/
def zslValueLteMax (value : ν) (spec : Zrangespec ν) : Bool :=
  if spec.maxex then Score.lt value spec.max else Score.le value spec.max

/-- `rl_rangebound`: a number, or its text behind a mark that excludes it. -/
def rlRangebound : Option (LuaValue ν) → Option (ν × Bool)
  | some (.number x) => if isNaN x then none else some (x, false)
  | some (.string s) =>
      let excluded := s.head? == some (charByte '(')
      match Score.strtodAll (if excluded then s.tail else s) with
      | some x => if isNaN x then none else some (x, excluded)
      | none => none
  | _ => none

/-- `rl_checkrangespec`. -/
def rlCheckrangespec (args : List (LuaValue ν)) (imin imax : Nat) : Except LuaError (Zrangespec ν) :=
  match rlRangebound (luaArg args imin), rlRangebound (luaArg args imax) with
  | some (min, minex), some (max, maxex) => .ok ⟨min, max, minex, maxex⟩
  | _, _ => .error (rlError (ascii "min or max is not a float"))

/-- A bound of a range by name; two strings are shared objects that stand for
the ends of the order. -/
inductive LexBound where
  | minstring | maxstring
  | str (s : Bytes)
deriving DecidableEq, Repr

/-- `zlexrangespec`. -/
structure Zlexrangespec where
  min : LexBound
  max : LexBound
  minex : Bool
  maxex : Bool
deriving DecidableEq, Repr

/-- `zslParseLexRangeItem`. -/
def zslParseLexRangeItem : Bytes → Option (LexBound × Bool)
  | [] => none
  | c :: rest =>
      if c = charByte '+' then
        if rest.headD 0 ≠ 0 then none else some (.maxstring, true)
      else if c = charByte '-' then
        if rest.headD 0 ≠ 0 then none else some (.minstring, true)
      else if c = charByte '(' then some (.str rest, true)
      else if c = charByte '[' then some (.str rest, false)
      else none

/-- `zslParseLexRange`. -/
def zslParseLexRange (min max : Bytes) : Option Zlexrangespec :=
  match zslParseLexRangeItem min, zslParseLexRangeItem max with
  | some (min, minex), some (max, maxex) => some ⟨min, max, minex, maxex⟩
  | _, _ => none

/-- The two bounds of a range by name among the arguments. -/
def rlChecklexrange (args : List (LuaValue ν)) (imin imax : Nat) : Except LuaError Zlexrangespec := do
  let min ← rlMember args imin
  let max ← rlMember args imax
  match zslParseLexRange min max with
  | some spec => return spec
  | none => .error (rlError (ascii "min or max not valid string range item"))

/-- `sdscmplex`. -/
def sdscmplex : LexBound → LexBound → Ordering
  | .minstring, .minstring => .eq
  | .maxstring, .maxstring => .eq
  | .minstring, _ => .lt
  | _, .maxstring => .lt
  | .maxstring, _ => .gt
  | _, .minstring => .gt
  | .str a, .str b => sdscmp a b

/-- `zslLexValueGteMin`. -/
def zslLexValueGteMin (value : Bytes) (spec : Zlexrangespec) : Bool :=
  if spec.minex then sdscmplex (.str value) spec.min == .gt else sdscmplex (.str value) spec.min != .lt

/-- `zslLexValueLteMax`. -/
def zslLexValueLteMax (value : Bytes) (spec : Zlexrangespec) : Bool :=
  if spec.maxex then sdscmplex (.str value) spec.max == .lt else sdscmplex (.str value) spec.max != .gt

/-- The tests of a range: whether it is empty whatever there is, and the two
bounds. -/
structure RangeTests (ν : Type) where
  void : Bool
  gteMin : Scored ν → Bool
  lteMax : Scored ν → Bool

/-- The tests of a range by score. -/
def Zrangespec.tests (spec : Zrangespec ν) : RangeTests ν where
  void := Score.lt spec.max spec.min || Score.eq spec.min spec.max && (spec.minex || spec.maxex)
  gteMin a := zslValueGteMin a.score spec
  lteMax a := zslValueLteMax a.score spec

/-- The tests of a range by name. -/
def Zlexrangespec.tests (spec : Zlexrangespec) : RangeTests ν where
  void :=
    let cmp := sdscmplex spec.min spec.max
    cmp == .gt || cmp == .eq && (spec.minex || spec.maxex)
  gteMin a := zslLexValueGteMin a.ele spec
  lteMax a := zslLexValueLteMax a.ele spec

end Bounds

/-! ## Walks -/

section Walks

variable {ν : Type} [Score ν]

namespace RangeTests

variable (t : RangeTests ν)

/-- `zzlIsInRange` and `zzlIsInLexRange`. -/
def zzlIsInRange (items : List (Scored ν)) : Bool :=
  !t.void && items.getLast?.any t.gteMin && items.head?.any t.lteMax

/-- `zzlFirstInRange` and `zzlFirstInLexRange`: the elements from there on. -/
def zzlFirstInRange (items : List (Scored ν)) : List (Scored ν) :=
  if t.zzlIsInRange items then scanFrom t.gteMin t.lteMax items else []

/-- `zzlLastInRange` and `zzlLastInLexRange`: the elements from there back. -/
def zzlLastInRange (items : List (Scored ν)) : List (Scored ν) :=
  if t.zzlIsInRange items then scanFrom t.lteMax t.gteMin items.reverse else []

/-- `zslIsInRange` and `zslIsInLexRange`. -/
def zslIsInRange (zsl : Zskiplist ν) : Bool :=
  !t.void && (zsl.tail.any fun id => t.gteMin (zsl.node id).val) &&
    (zsl.header 0).forward.any fun id => t.lteMax (zsl.node id).val

/-- `ZSKIPLIST_MAX_SEARCH`. -/
def zskiplistMaxSearch : Int := 10

/-- The jump of the next function over a large offset, to a rank counted from
the last node of the highest level.  For a rank before that node the difference
wraps around, and no node has it. -/
def zslJump (zsl : Zskiplist ν) (top : Cursor × Nat) (rank : Int) : Option Nat :=
  if rank < top.2 then none
  else (zsl.elementByRankFrom zsl.level (top.1, 0) (rank - top.2).toNat).bind id

/-- `zslNthInRange` and `zslNthInLexRange`: a node and its rank. -/
def zslNthInRange (zsl : Zskiplist ν) (n : Int) : Option (Nat × Nat) :=
  if !t.zslIsInRange zsl then none
  else
    let outside : Nat → Scored ν → Bool := fun _ a => !t.gteMin a
    let inside : Nat → Scored ν → Bool := fun _ a => t.lteMax a
    let top := zsl.walkLevel outside (zsl.level - 1) zsl.length (none, 0)
    if 0 ≤ n then
      let edge := zsl.descend outside (zsl.level - 1) top 0
      if zsl.length ≤ edge.2 + n.toNat then none
      else
        let x :=
          if n < zskiplistMaxSearch then zsl.stepForward n.toNat (zsl.link edge.1 0).forward
          else zslJump zsl top (edge.2 + 1 + n)
        x.bind fun id =>
          if t.lteMax (zsl.node id).val then some (id, edge.2 + n.toNat + 1) else none
    else
      let edge := zsl.descend inside zsl.level top 0
      if (edge.2 : Int) < -n then none
      else
        let x :=
          if n + 1 > -zskiplistMaxSearch then zsl.stepBackward (-n - 1).toNat edge.1
          else zslJump zsl top (edge.2 + 1 + n)
        x.bind fun id =>
          if t.gteMin (zsl.node id).val then some (id, ((edge.2 : Int) + n + 1).toNat) else none

/-- The nodes from the one found on, along the links of the walk. -/
def zslWalk (zsl : Zskiplist ν) (reverse : Bool) (x : Option Nat) : List (Scored ν) :=
  (if reverse then zsl.chainBack (zsl.length + 1) x else zsl.chain (zsl.length + 1) x).map
    fun id => (zsl.node id).val

/-- `rl_zrange_byscore` and `rl_zrange_bylex`: what is emitted. -/
def rangeItems (zobj : ZsetObj ν) (reverse : Bool) (offset limit : Int) : List (Scored ν) :=
  if offset < 0 ∨ 0 < offset ∧ (zsetLength zobj : Int) ≤ offset then []
  else match zobj with
    | .listpack zl =>
        let found := if reverse then t.zzlLastInRange (zzlItems zl) else t.zzlFirstInRange (zzlItems zl)
        keepWhile (if reverse then t.gteMin else t.lteMax) limit (found.drop offset.toNat)
    | .skiplist zs =>
        let ln := t.zslNthInRange zs.zsl (if reverse then -offset - 1 else offset)
        keepWhile (if reverse then t.gteMin else t.lteMax) limit
          (zslWalk zs.zsl reverse (ln.map Prod.fst))

/-- The score and the lex branch of `rl_collect_range`. -/
def collectRange (zobj : ZsetObj ν) : List Bytes :=
  (match zobj with
    | .listpack zl => (t.zzlFirstInRange (zzlItems zl)).takeWhile t.lteMax
    | .skiplist zs =>
        (zslWalk zs.zsl false ((t.zslNthInRange zs.zsl 0).map Prod.fst)).takeWhile t.lteMax).map
    Scored.ele

/-- `lzcount` and `lzlexcount` after their bounds are read. -/
def countRange (zobj : ZsetObj ν) : Nat :=
  match zobj with
  | .listpack zl => ((t.zzlFirstInRange (zzlItems zl)).takeWhile t.lteMax).length
  | .skiplist zs =>
      match t.zslNthInRange zs.zsl 0 with
      | none => 0
      | some (_, first) =>
          let count := zs.zsl.length - (first - 1)
          match t.zslNthInRange zs.zsl (-1) with
          | none => count
          | some (_, last) => count - (zs.zsl.length - last)

end RangeTests

/-- `zslGetElementByRank`. -/
def zslGetElementByRank (zsl : Zskiplist ν) (rank : Nat) : Option Nat :=
  (zsl.elementByRankFrom zsl.level (none, 0) rank).bind id

/-- The rank bounds after `Sanitize indexes`, if there is anything between
them. -/
def sanitizeRank (llen : Nat) (start stop : Int) : Option (Nat × Nat) :=
  let start := if start < 0 then llen + start else start
  let stop := if stop < 0 then llen + stop else stop
  let start := if start < 0 then 0 else start
  if start > stop ∨ start ≥ llen then none
  else some (start.toNat, (if stop ≥ llen then (llen : Int) - 1 else stop).toNat)

/-- The elements from a rank on, in the direction of the walk. -/
def fromRank (zobj : ZsetObj ν) (reverse : Bool) (start : Nat) : List (Scored ν) :=
  match zobj with
  | .listpack zl => if reverse then (zzlItems zl).reverse.drop start else (zzlItems zl).drop start
  | .skiplist zs =>
      let zsl := zs.zsl
      if reverse then
        RangeTests.zslWalk zsl true
          (if start > 0 then zslGetElementByRank zsl (zsl.length - start) else zsl.tail)
      else
        RangeTests.zslWalk zsl false
          (if start > 0 then zslGetElementByRank zsl (start + 1) else (zsl.header 0).forward)

/-- `rl_zrange_byrank`: what is emitted. -/
def rankItems (zobj : ZsetObj ν) (reverse : Bool) (start stop : Int) : List (Scored ν) :=
  match sanitizeRank (zsetLength zobj) start stop with
  | none => []
  | some (start, stop) => (fromRank zobj reverse start).take (stop - start + 1)

/-- The rank branch of `rl_collect_range`. -/
def collectRank (zobj : ZsetObj ν) (start stop : Nat) : List Bytes :=
  (match zobj with
    | .listpack zl => ((zzlItems zl).drop start).take (stop - start + 1)
    | .skiplist zs =>
        (RangeTests.zslWalk zs.zsl false (zslGetElementByRank zs.zsl (start + 1))).take
          (stop - start + 1)).map Scored.ele

/-- `zsetRank`, counted from 0, and the score. -/
def zsetRank (zobj : ZsetObj ν) (ele : Bytes) (reverse : Bool) : Option (Nat × ν) :=
  match zobj with
  | .listpack zl =>
      (zzlFind zl ele).map fun (eptr, score) =>
        (if reverse then zzlLength zl - (eptr + 1) else eptr, score)
  | .skiplist zs =>
      (zs.dictFind ele).map fun id =>
        let rank := zs.zsl.rankByNode id
        (if reverse then zs.zsl.length - rank else rank - 1, (zs.item id).score)

end Walks

/-! ## The elements of a range -/

section Specifications

variable {ν : Type}

namespace RangeTests

/-- The elements a range describes. -/
def select (t : RangeTests ν) (items : List (Scored ν)) : List (Scored ν) :=
  items.filter fun a => t.gteMin a && t.lteMax a

/-- The tests ascend along the elements, nothing is in a range that is void,
and nothing is on both sides of one that is not. -/
structure Fits (t : RangeTests ν) (items : List (Scored ν)) : Prop where
  ascends : Ascends t.gteMin t.lteMax items
  void : t.void = true → ∀ a ∈ items, t.gteMin a = true → t.lteMax a = false
  cover : t.void = false → ∀ a ∈ items, t.gteMin a = false → t.lteMax a = true

/-- The elements before, in and after a range. -/
structure Slices (t : RangeTests ν) (items A M B : List (Scored ν)) : Prop where
  cut : Cut t.gteMin t.lteMax items A M B
  void : t.void = true → M = []
  rising : ∀ b ∈ B, t.gteMin b = true
  low : t.void = false → ∀ a ∈ A, t.lteMax a = true

variable {t : RangeTests ν} {items A M B : List (Scored ν)}

theorem Fits.slices (h : t.Fits items) : ∃ A M B, t.Slices items A M B := by
  obtain ⟨A, M, B, hcut, hrising⟩ := h.ascends.exists_cut
  refine ⟨A, M, B, hcut, fun hvoid => ?_, hrising, fun hvoid a ha => ?_⟩
  · cases M with
    | nil => rfl
    | cons a M =>
        obtain ⟨hgte, hlte⟩ := hcut.inside a List.mem_cons_self
        rw [h.void hvoid a (by rw [hcut.eq]; simp) hgte] at hlte
        contradiction
  · exact h.cover hvoid a (by rw [hcut.eq]; simp [ha]) (hcut.before a ha)

theorem Slices.select_eq (h : t.Slices items A M B) : t.select items = M := h.cut.filter_eq

/-- Where there is something in the range, the early test lets it pass. -/
theorem Slices.isIn (h : t.Slices items A M B) (hM : M ≠ []) : t.zzlIsInRange items = true := by
  have hvoid : t.void = false := by
    cases hv : t.void with
    | false => rfl
    | true => exact absurd (h.void hv) hM
  have hlast : items.getLast?.any t.gteMin = true := by
    rw [h.cut.eq]
    rcases List.eq_nil_or_concat' B with rfl | ⟨B', b, rfl⟩
    · rcases List.eq_nil_or_concat' M with rfl | ⟨M', m, rfl⟩
      · contradiction
      · have hm := (h.cut.inside m (by simp)).1
        simp [hm]
    · have hb := h.rising b (by simp)
      simp [hb]
  have hfirst : items.head?.any t.lteMax = true := by
    rw [h.cut.eq]
    cases A with
    | nil =>
        cases M with
        | nil => contradiction
        | cons m M => simp [(h.cut.inside m (by simp)).2]
    | cons a A => simp [h.low hvoid a (by simp)]
  rw [zzlIsInRange, hvoid, hlast, hfirst]
  rfl

/-- **A listpack walk** meets the elements in the range. -/
theorem Slices.keepWhile_first (h : t.Slices items A M B) (limit : Int) (n : Nat) :
    keepWhile t.lteMax limit ((t.zzlFirstInRange items).drop n) = limited limit (M.drop n) := by
  rw [zzlFirstInRange]
  split_ifs with hin
  · exact h.cut.keepWhile_scanFrom limit n
  · have hM : M = [] := not_not.mp (mt h.isIn hin)
    rw [hM, List.drop_nil, ListInterval.limited_nil]
    rfl

theorem Slices.keepWhile_last (h : t.Slices items A M B) (limit : Int) (n : Nat) :
    keepWhile t.gteMin limit ((t.zzlLastInRange items).drop n) = limited limit (M.reverse.drop n) := by
  rw [zzlLastInRange]
  split_ifs with hin
  · exact h.cut.reverse.keepWhile_scanFrom limit n
  · have hM : M = [] := not_not.mp (mt h.isIn hin)
    rw [hM, List.reverse_nil, List.drop_nil, ListInterval.limited_nil]
    rfl

/-! ## The skiplist -/

section Skiplists

variable {zsl : Zskiplist ν} {LA LM LB : List Nat}

/-- The nodes before, in and after a range. -/
structure NodeSlices (t : RangeTests ν) (zsl : Zskiplist ν) (LA LM LB : List Nat) : Prop where
  rep : zsl.Rep (LA ++ (LM ++ LB))
  slices : t.Slices ((LA ++ (LM ++ LB)).map fun id => (zsl.node id).val)
    (LA.map fun id => (zsl.node id).val) (LM.map fun id => (zsl.node id).val)
    (LB.map fun id => (zsl.node id).val)

theorem Slices.nodes {L : List Nat} (hrep : zsl.Rep L)
    (h : t.Slices (L.map fun id => (zsl.node id).val) A M B) :
    ∃ LA LM LB, L = LA ++ (LM ++ LB) ∧ M = (LM.map fun id => (zsl.node id).val) ∧
      t.NodeSlices zsl LA LM LB := by
  obtain ⟨LA, LR, hL, hA, hR⟩ := List.map_eq_append_iff.mp h.cut.eq
  obtain ⟨LM, LB, rfl, hM, hB⟩ := List.map_eq_append_iff.mp hR
  subst hL hA hM hB
  exact ⟨LA, LM, LB, rfl, rfl, hrep, h⟩

theorem zslIsInRange_eq {L : List Nat} (hrep : zsl.Rep L) :
    t.zslIsInRange zsl = t.zzlIsInRange (L.map fun id => (zsl.node id).val) := by
  have hhead : (zsl.header 0).forward = L.head? := hrep.next_eq (A := [])
  rw [zslIsInRange, zzlIsInRange, hrep.tail, hhead, List.getLast?_map, List.head?_map]
  simp [Option.any_map]

/-- The tests along the nodes. -/
theorem NodeSlices.outside (h : t.NodeSlices zsl LA LM LB) :
    (∀ id ∈ LA, (!t.gteMin (zsl.node id).val) = true) ∧
      ∀ id ∈ LM ++ LB, (!t.gteMin (zsl.node id).val) = false := by
  constructor
  · intro id hid
    rw [h.slices.cut.before _ (List.mem_map_of_mem hid)]
    rfl
  · intro id hid
    rw [Bool.not_eq_false']
    rcases List.mem_append.mp hid with hin | hin
    · exact (h.slices.cut.inside _ (List.mem_map_of_mem hin)).1
    · exact h.slices.rising _ (List.mem_map_of_mem hin)

theorem NodeSlices.inside (h : t.NodeSlices zsl LA LM LB) (hvoid : t.void = false) :
    (∀ id ∈ LA ++ LM, t.lteMax (zsl.node id).val = true) ∧
      ∀ id ∈ LB, t.lteMax (zsl.node id).val = false := by
  constructor
  · intro id hid
    rcases List.mem_append.mp hid with hin | hin
    · exact h.slices.low hvoid _ (List.mem_map_of_mem hin)
    · exact (h.slices.cut.inside _ (List.mem_map_of_mem hin)).2
  · intro id hid
    exact h.slices.cut.after _ (List.mem_map_of_mem hid)

theorem getLast?_append_take (xs ys : List Nat) {n : Nat} (h : n < ys.length) :
    (xs ++ ys.take (n + 1)).getLast? = ys[n]? := by
  rw [List.take_succ_eq_append_getElem h, ← List.append_assoc, List.getLast?_concat,
    List.getElem?_eq_getElem h]

/-- The node a number of ranks behind the edge, by steps or by a jump. -/
theorem NodeSlices.forward_node (h : t.NodeSlices zsl LA LM LB) {Q : List Nat} (hQ : Q <+: LA)
    (hhigh : ∀ id ∈ Q.getLast?, zsl.level ≤ zsl.height id) {n : Nat} (hn : n < (LM ++ LB).length) :
    (if (n : Int) < zskiplistMaxSearch then zsl.stepForward n (zsl.link LA.getLast? 0).forward
      else zslJump zsl (Q.getLast?, Q.length) (LA.length + 1 + n)) = (LM ++ LB)[n]? := by
  split_ifs
  · rw [h.rep.next_eq, Skiplist.stepForward_spec h.rep n rfl, List.head?_drop]
  · obtain ⟨mid, rfl⟩ := hQ
    have hcut : (Q ++ mid) ++ (LM ++ LB) =
        (Q ++ (mid ++ (LM ++ LB).take (n + 1))) ++ (LM ++ LB).drop (n + 1) := by
      simp only [List.append_assoc]
      rw [List.take_append_drop]
    have hrank : ((Q ++ mid).length + 1 + n - Q.length : Int).toNat =
        (mid ++ (LM ++ LB).take (n + 1)).length := by
      rw [List.length_append, List.length_append, List.length_take]
      omega
    have hfound := Skiplist.elementByRankFrom_spec (hcut ▸ h.rep) rfl (Nat.le_refl _) h.rep.level_pos hhigh
    rw [zslJump, if_neg (by rw [List.length_append]; omega)]
    dsimp only
    rw [hrank, hfound, Option.bind_some, id, ← List.append_assoc, getLast?_append_take _ _ hn]

/-- **The `n`-th node in a range.** -/
theorem NodeSlices.nth (h : t.NodeSlices zsl LA LM LB) (n : Nat) :
    t.zslNthInRange zsl n = LM[n]?.map fun id => (id, LA.length + n + 1) := by
  rw [zslNthInRange, zslIsInRange_eq h.rep]
  cases hin : t.zzlIsInRange ((LA ++ (LM ++ LB)).map fun id => (zsl.node id).val) with
  | false =>
      have hM : LM.map (fun id => (zsl.node id).val) = [] :=
        not_not.mp (mt h.slices.isIn (by rw [hin]; exact Bool.false_ne_true))
      rw [List.map_eq_nil_iff.mp hM]
      rfl
  | true =>
      obtain ⟨hA, hB⟩ := h.outside
      obtain ⟨Q, hQ, hhigh, htop, hedge⟩ :=
        @Skiplist.descend_from_top _ _ _ _ h.rep (fun a => !t.gteMin a) hA hB
      simp only [Bool.not_true, Bool.false_eq_true, if_false, htop, hedge, Int.natCast_nonneg, if_true,
        Int.toNat_natCast]
      have hlen : zsl.length = LA.length + (LM ++ LB).length := by
        rw [h.rep.length, List.length_append]
      by_cases hpast : zsl.length ≤ LA.length + n
      · rw [if_pos hpast, List.getElem?_eq_none (by rw [List.length_append] at hlen; omega)]
        rfl
      · rw [if_neg hpast, h.forward_node hQ hhigh (by omega)]
        rcases Nat.lt_or_ge n LM.length with hn | hn
        · have hlte := (h.slices.cut.inside _ (List.mem_map_of_mem (List.getElem_mem hn))).2
          rw [List.getElem?_append_left hn, List.getElem?_eq_getElem hn, Option.bind_some, if_pos hlte]
          rfl
        · have hn' : n - LM.length < LB.length := by
            rw [List.length_append] at hlen
            omega
          have hlte := h.slices.cut.after _ (List.mem_map_of_mem (List.getElem_mem hn'))
          rw [List.getElem?_append_right hn, List.getElem?_eq_getElem hn', Option.bind_some, hlte,
            if_neg Bool.false_ne_true, List.getElem?_eq_none hn]
          rfl

/-- The node a number of ranks before the edge, by steps or by a jump; a jump
to a node before the range may miss it. -/
theorem NodeSlices.backward_node (h : t.NodeSlices zsl LA LM LB) {Q : List Nat} (hQ : Q <+: LA)
    (hhigh : ∀ id ∈ Q.getLast?, zsl.level ≤ zsl.height id) {k : Nat} (hk : k < (LA ++ LM).length) :
    ∃ x, (if -((k : Int) + 1) + 1 > -zskiplistMaxSearch then zsl.stepBackward k (LA ++ LM).getLast?
      else zslJump zsl (Q.getLast?, Q.length) ((LA ++ LM).length + 1 + -((k : Int) + 1))) = x ∧
        (x = (LA ++ LM)[(LA ++ LM).length - k - 1]? ∨ x = none ∧ LM.length ≤ k) := by
  have hcut : LA ++ (LM ++ LB) = (LA ++ LM) ++ LB := (List.append_assoc LA LM LB).symm
  have hlast : ((LA ++ LM).take ((LA ++ LM).length - k)).getLast? =
      (LA ++ LM)[(LA ++ LM).length - k - 1]? := by
    have := getLast?_append_take [] (LA ++ LM) (n := (LA ++ LM).length - k - 1) (by omega)
    rwa [List.nil_append, show (LA ++ LM).length - k - 1 + 1 = (LA ++ LM).length - k by omega] at this
  refine ⟨_, rfl, ?_⟩
  split_ifs
  · left
    rw [Skiplist.stepBackward_spec h.rep k hcut, hlast]
  · obtain ⟨mid, rfl⟩ := hQ
    rw [zslJump]
    split_ifs with hwrap
    · refine .inr ⟨rfl, ?_⟩
      simp only [List.length_append] at hwrap hk ⊢
      omega
    · left
      -- the rank is behind the last node of the highest level
      have hge : Q.length ≤ ((Q ++ mid) ++ LM).length - k := by
        dsimp only at hwrap
        omega
      have hsplit : ((Q ++ mid) ++ LM).take (((Q ++ mid) ++ LM).length - k) =
          Q ++ (mid ++ LM).take (((Q ++ mid) ++ LM).length - k - Q.length) := by
        rw [List.append_assoc, List.take_append, List.take_of_length_le (by rw [← List.append_assoc]; exact hge)]
      have hall : (Q ++ mid) ++ (LM ++ LB) =
          (Q ++ (mid ++ LM).take (((Q ++ mid) ++ LM).length - k - Q.length)) ++
            (((Q ++ mid) ++ LM).drop (((Q ++ mid) ++ LM).length - k) ++ LB) := by
        rw [← hsplit, hcut, ← List.append_assoc (List.take _ _), List.take_append_drop]
      have hrank : (((Q ++ mid) ++ LM).length + 1 + -((k : Int) + 1) - Q.length : Int).toNat =
          ((mid ++ LM).take (((Q ++ mid) ++ LM).length - k - Q.length)).length := by
        rw [List.length_take]
        simp only [List.length_append] at hk hge ⊢
        omega
      have hfound := Skiplist.elementByRankFrom_spec (hall ▸ h.rep) rfl (Nat.le_refl _) h.rep.level_pos
        hhigh
      dsimp only
      rw [hrank, hfound, Option.bind_some, id, ← hsplit, hlast]

/-- **The `k`-th node of a range from its end.** -/
theorem NodeSlices.nth_back (h : t.NodeSlices zsl LA LM LB) (k : Nat) :
    t.zslNthInRange zsl (-((k : Int) + 1)) =
      LM.reverse[k]?.map fun id => (id, LA.length + LM.length - k) := by
  rw [zslNthInRange, zslIsInRange_eq h.rep]
  cases hin : t.zzlIsInRange ((LA ++ (LM ++ LB)).map fun id => (zsl.node id).val) with
  | false =>
      have hM : LM.map (fun id => (zsl.node id).val) = [] :=
        not_not.mp (mt h.slices.isIn (by rw [hin]; exact Bool.false_ne_true))
      rw [List.map_eq_nil_iff.mp hM]
      rfl
  | true =>
      have hvoid : t.void = false := by
        rw [zzlIsInRange, Bool.and_eq_true, Bool.and_eq_true, Bool.not_eq_true'] at hin
        exact hin.1.1
      obtain ⟨hA, hB⟩ := h.outside
      obtain ⟨hA', hB'⟩ := h.inside hvoid
      obtain ⟨Q, hQ, hhigh, htop, -⟩ :=
        @Skiplist.descend_from_top _ _ _ _ h.rep (fun a => !t.gteMin a) hA hB
      have hrep : zsl.Rep ((LA ++ LM) ++ LB) := List.append_assoc LA LM LB ▸ h.rep
      have hedge := @Skiplist.descend_from_high _ _ _ _ _ hrep t.lteMax hA' hB'
        (hQ.trans (List.prefix_append LA LM)) hhigh
      have hlen : ((LA ++ LM).length : Int) = LA.length + LM.length := by simp
      have hneg : ¬ 0 ≤ -((k : Int) + 1) := by omega
      have hsteps : (-(-((k : Int) + 1)) - 1).toNat = k := by omega
      simp only [Bool.not_true, Bool.false_eq_true, if_false, htop, hedge, if_neg hneg, hsteps]
      by_cases hpast : ((LA ++ LM).length : Int) < -(-((k : Int) + 1))
      · rw [if_pos hpast, List.getElem?_eq_none (by rw [List.length_reverse]; omega)]
        rfl
      · obtain ⟨x, hx, hcases⟩ := h.backward_node hQ hhigh (k := k) (by omega)
        rw [if_neg hpast, hx]
        rcases hcases with rfl | ⟨rfl, hk⟩
        · rcases Nat.lt_or_ge k LM.length with hk | hk
          · -- in the range
            have hidx : LM.length - 1 - k < LM.length := by omega
            have hgte := (h.slices.cut.inside _ (List.mem_map_of_mem (List.getElem_mem hidx))).1
            rw [List.getElem?_append_right (by rw [List.length_append]; omega),
              show (LA ++ LM).length - k - 1 - LA.length = LM.length - 1 - k by
                rw [List.length_append]; omega,
              List.getElem?_reverse hk, List.getElem?_eq_getElem hidx, Option.bind_some, if_pos hgte,
              Option.map_some]
            congr 2
            omega
          · -- before it
            have hidx : (LA ++ LM).length - k - 1 < LA.length := by
              rw [List.length_append] at hpast ⊢
              omega
            have hgte := h.slices.cut.before _ (List.mem_map_of_mem (List.getElem_mem hidx))
            rw [List.getElem?_append_left hidx, List.getElem?_eq_getElem hidx, Option.bind_some, hgte,
              if_neg Bool.false_ne_true, List.getElem?_eq_none (by rw [List.length_reverse]; exact hk)]
            rfl
        · rw [List.getElem?_eq_none (by rw [List.length_reverse]; exact hk)]
          rfl

/-- The walk forward from a node. -/
theorem zslWalk_forward {pre post : List Nat} (h : zsl.Rep (pre ++ post)) :
    zslWalk zsl false post.head? = post.map fun id => (zsl.node id).val := by
  rw [zslWalk, if_neg Bool.false_ne_true, Skiplist.chain_spec h rfl]
  rw [h.length, List.length_append]
  omega

/-- The walk back from a node. -/
theorem zslWalk_backward {pre post : List Nat} (h : zsl.Rep (pre ++ post)) :
    zslWalk zsl true pre.getLast? = pre.reverse.map fun id => (zsl.node id).val := by
  rw [zslWalk, if_pos rfl, Skiplist.chainBack_spec h rfl]
  rw [h.length, List.length_append]
  omega

theorem zslWalk_none (zsl : Zskiplist ν) (reverse : Bool) : zslWalk zsl reverse none = [] := by
  cases reverse <;> rfl

/-- **A skiplist walk** meets the elements in the range. -/
theorem NodeSlices.keepWhile_forward (h : t.NodeSlices zsl LA LM LB) (limit : Int) (n : Nat) :
    keepWhile t.lteMax limit (zslWalk zsl false ((t.zslNthInRange zsl n).map Prod.fst)) =
      limited limit ((LM.map fun id => (zsl.node id).val).drop n) := by
  rw [h.nth, Option.map_map]
  rcases Nat.lt_or_ge n LM.length with hn | hn
  · have hpost : LM[n]?.map (Prod.fst ∘ fun id => (id, LA.length + n + 1)) =
        ((LM ++ LB).drop n).head? := by
      rw [List.head?_drop, List.getElem?_append_left hn]
      cases LM[n]? <;> rfl
    have hrep : zsl.Rep ((LA ++ (LM ++ LB).take n) ++ (LM ++ LB).drop n) := by
      rw [List.append_assoc, List.take_append_drop]
      exact h.rep
    rw [hpost, zslWalk_forward hrep, List.map_drop, List.map_append]
    exact ListInterval.keepWhile_drop (fun a ha => (h.slices.cut.inside a ha).2) h.slices.cut.after limit n
  · rw [List.getElem?_eq_none hn, Option.map_none, zslWalk_none,
      List.drop_eq_nil_of_le (by rw [List.length_map]; exact hn), ListInterval.limited_nil]
    rfl

theorem NodeSlices.keepWhile_backward (h : t.NodeSlices zsl LA LM LB) (limit : Int) (k : Nat) :
    keepWhile t.gteMin limit
        (zslWalk zsl true ((t.zslNthInRange zsl (-((k : Int) + 1))).map Prod.fst)) =
      limited limit ((LM.map fun id => (zsl.node id).val).reverse.drop k) := by
  rw [h.nth_back, Option.map_map]
  rcases Nat.lt_or_ge k LM.length with hk | hk
  · have hpre : LM.reverse[k]?.map (Prod.fst ∘ fun id => (id, LA.length + LM.length - k)) =
        (LA ++ LM.take (LM.length - k)).getLast? := by
      have hlast := getLast?_append_take LA LM (n := LM.length - 1 - k) (by omega)
      rw [show LM.length - 1 - k + 1 = LM.length - k by omega] at hlast
      rw [List.getElem?_reverse hk, hlast]
      cases LM[LM.length - 1 - k]? <;> rfl
    have hrep : zsl.Rep ((LA ++ LM.take (LM.length - k)) ++ (LM.drop (LM.length - k) ++ LB)) := by
      rw [List.append_assoc, ← List.append_assoc (List.take _ _), List.take_append_drop]
      exact h.rep
    have hrev : (LA ++ LM.take (LM.length - k)).reverse = LM.reverse.drop k ++ LA.reverse := by
      rw [List.reverse_append, List.drop_reverse]
    rw [hpre, zslWalk_backward hrep, hrev, List.map_append, List.map_drop, List.map_reverse]
    refine ListInterval.keepWhile_append (fun a ha => ?_) (fun a ha => ?_) limit
    · exact (h.slices.cut.inside a (List.mem_reverse.mp (List.mem_of_mem_drop ha))).1
    · rw [List.map_reverse, List.mem_reverse] at ha
      exact h.slices.cut.before a ha
  · rw [List.getElem?_eq_none (by rw [List.length_reverse]; exact hk), Option.map_none, zslWalk_none,
      List.drop_eq_nil_of_le (by rw [List.length_reverse, List.length_map]; exact hk),
      ListInterval.limited_nil]
    rfl

end Skiplists

variable [Score ν]

/-- **Ranges by score and by name**: both encodings meet the slice that the
range, the direction, the offset and the limit describe. -/
theorem rangeItems_eq {zobj : ZsetObj ν} (h : zobj.Wf) (hfits : t.Fits zobj.items) (reverse : Bool)
    (offset limit : Int) : t.rangeItems zobj reverse offset limit =
      if offset < 0 then []
      else limited limit
        ((if reverse then (t.select zobj.items).reverse else t.select zobj.items).drop offset.toNat) := by
  obtain ⟨A, M, B, hslices⟩ := hfits.slices
  have hlen : (t.select zobj.items).length ≤ zsetLength zobj := by
    rw [zsetLength_eq h]
    exact List.length_filter_le _ _
  rw [rangeItems.eq_def]
  by_cases hneg : offset < 0
  · rw [if_pos (.inl hneg), if_pos hneg]
  rw [if_neg hneg]
  by_cases hpast : 0 < offset ∧ (zsetLength zobj : Int) ≤ offset
  · rw [if_pos (.inr hpast), List.drop_eq_nil_of_le, ListInterval.limited_nil]
    split_ifs
    · rw [List.length_reverse]
      omega
    · omega
  rw [if_neg (not_or.mpr ⟨hneg, hpast⟩), hslices.select_eq]
  cases zobj with
  | listpack zl =>
      cases reverse with
      | false => exact hslices.keepWhile_first limit offset.toNat
      | true => exact hslices.keepWhile_last limit offset.toNat
  | skiplist zs =>
      obtain ⟨L, hL⟩ := h
      have hitems : (ZsetObj.skiplist zs).items = L.map fun id => (zs.zsl.node id).val := hL.items_eq
      rw [hitems] at hslices
      obtain ⟨LA, LM, LB, rfl, rfl, hnodes⟩ := hslices.nodes hL.rep
      obtain ⟨n, rfl⟩ : ∃ n : Nat, offset = n := ⟨offset.toNat, by omega⟩
      cases reverse with
      | false => exact hnodes.keepWhile_forward limit n
      | true =>
          have hidx : -(n : Int) - 1 = -((n : Int) + 1) := by omega
          simp only [if_true, hidx]
          exact hnodes.keepWhile_backward limit n

omit [Score ν] in
/-- Whatever the tests are, a walk starts in the list. -/
theorem zslNthInRange_mem (t : RangeTests ν) {zsl : Zskiplist ν} {L : List Nat} (h : zsl.Rep L) (n : Int)
    {id rank : Nat} (hfound : t.zslNthInRange zsl n = some (id, rank)) : id ∈ L := by
  rw [zslNthInRange] at hfound
  dsimp only at hfound
  split at hfound
  · contradiction
  generalize htop : zsl.walkLevel (fun _ a => !t.gteMin a) (zsl.level - 1) zsl.length (none, 0) = top at hfound
  have hpos := h.level_pos
  have hhigh : ∀ id ∈ top.1, id ∈ L ∧ zsl.level ≤ zsl.height id := by
    intro id hid
    rw [← htop] at hid
    obtain ⟨hid, hheight⟩ := Skiplist.walkLevel_mem h _ _ (c := (none, 0)) nofun id hid
    exact ⟨hid, by omega⟩
  have hjump : ∀ rank, ∀ id ∈ zslJump zsl top rank, id ∈ L := by
    intro rank id hid
    rw [zslJump] at hid
    split at hid
    · contradiction
    obtain ⟨x, hx, hid⟩ := Option.bind_eq_some_iff.mp hid
    exact Skiplist.elementByRankFrom_mem h (c := (top.1, 0)) hhigh _ hx id hid
  have hfirst : ∀ id ∈ (zsl.descend (fun _ a => !t.gteMin a) (zsl.level - 1) top 0).1, id ∈ L :=
    Skiplist.descend_mem h _ (fun id hid => ⟨(hhigh id hid).1, (Nat.sub_le _ 1).trans (hhigh id hid).2⟩) 0
  have hlast : ∀ id ∈ (zsl.descend (fun _ a => t.lteMax a) zsl.level top 0).1, id ∈ L :=
    Skiplist.descend_mem h _ hhigh 0
  -- the node is a few steps from the edge, or the jump's; then it is tested
  split at hfound
  · split at hfound
    · contradiction
    obtain ⟨id', hid', hfound⟩ := Option.bind_eq_some_iff.mp hfound
    split at hfound
    · obtain ⟨rfl, -⟩ := Prod.mk.inj (Option.some.inj hfound)
      split at hid'
      · exact Skiplist.stepForward_mem h _ (h.next_mem hfirst) _ hid'
      · exact hjump _ _ hid'
    · contradiction
  · split at hfound
    · contradiction
    obtain ⟨id', hid', hfound⟩ := Option.bind_eq_some_iff.mp hfound
    split at hfound
    · obtain ⟨rfl, -⟩ := Prod.mk.inj (Option.some.inj hfound)
      split at hid'
      · exact Skiplist.stepBackward_mem h _ hlast _ hid'
      · exact hjump _ _ hid'
    · contradiction

omit [Score ν] in
/-- A walk from a node of the list meets a part of it. -/
theorem zslWalk_sublist {zsl : Zskiplist ν} {L : List Nat} (h : zsl.Rep L) (reverse : Bool) {x : Option Nat}
    (hx : ∀ id ∈ x, id ∈ L) : (zslWalk zsl reverse x).Sublist
      ((if reverse then L.reverse else L).map fun id => (zsl.node id).val) := by
  cases x with
  | none =>
      rw [zslWalk_none]
      exact List.nil_sublist _
  | some id =>
      obtain ⟨pre, post, rfl⟩ := List.append_of_mem (hx id rfl)
      cases reverse with
      | false =>
          have hwalk := zslWalk_forward h
          rw [List.head?_cons] at hwalk
          rw [hwalk, if_neg Bool.false_ne_true]
          exact (List.sublist_append_right pre (id :: post)).map _
      | true =>
          rw [List.append_cons] at h ⊢
          have hwalk := zslWalk_backward h
          rw [List.getLast?_append, List.getLast?_singleton, Option.some_or] at hwalk
          rw [hwalk, if_pos rfl, @List.reverse_append _ (pre ++ [id])]
          exact (List.sublist_append_right post.reverse _).map _

/-- Whatever the tests are, what is emitted is there, and in order. -/
theorem rangeItems_sublist (t : RangeTests ν) {zobj : ZsetObj ν} (h : zobj.Wf) (reverse : Bool)
    (offset limit : Int) : (t.rangeItems zobj reverse offset limit).Sublist
      (if reverse then zobj.items.reverse else zobj.items) := by
  rw [rangeItems.eq_def]
  by_cases hoffset : offset < 0 ∨ 0 < offset ∧ (zsetLength zobj : Int) ≤ offset
  · rw [if_pos hoffset]
    exact List.nil_sublist _
  rw [if_neg hoffset]
  cases zobj with
  | listpack zl =>
      refine (ListInterval.keepWhile_sublist _ _ _).trans ((List.drop_sublist _ _).trans ?_)
      cases reverse with
      | false =>
          rw [if_neg Bool.false_ne_true, if_neg Bool.false_ne_true, zzlFirstInRange]
          split_ifs
          · exact ListInterval.scanFrom_sublist _ _ _
          · exact List.nil_sublist _
      | true =>
          rw [if_pos rfl, if_pos rfl, zzlLastInRange]
          split_ifs
          · exact ListInterval.scanFrom_sublist _ _ _
          · exact List.nil_sublist _
  | skiplist zs =>
      obtain ⟨L, hL⟩ := h
      have hstart : ∀ n, ∀ id ∈ (t.zslNthInRange zs.zsl n).map Prod.fst, id ∈ L := by
        intro n id hid
        obtain ⟨r, hr, rfl⟩ := Option.map_eq_some_iff.mp hid
        exact zslNthInRange_mem t hL.rep _ hr
      have hwalk := zslWalk_sublist hL.rep reverse (hstart (if reverse then -offset - 1 else offset))
      rw [ZsetObj.items, hL.items_eq]
      refine (ListInterval.keepWhile_sublist _ _ _).trans (hwalk.trans ?_)
      split_ifs
      · rw [List.map_reverse]
        exact List.Sublist.refl _
      · exact List.Sublist.refl _

/-- The elements to be deleted. -/
theorem collectRange_eq {zobj : ZsetObj ν} (h : zobj.Wf) (hfits : t.Fits zobj.items) :
    t.collectRange zobj = (t.select zobj.items).map Scored.ele := by
  have hwalk := rangeItems_eq h hfits false 0 (-1)
  rw [if_neg (by omega), limited, if_pos (by omega), if_neg Bool.false_ne_true, Int.toNat_zero,
    List.drop_zero] at hwalk
  rw [← hwalk, rangeItems.eq_def, collectRange.eq_def, if_neg (by omega)]
  cases zobj with
  | listpack zl => exact congrArg (List.map Scored.ele) (ListInterval.keepWhile_neg (by omega) _).symm
  | skiplist zs => exact congrArg (List.map Scored.ele) (ListInterval.keepWhile_neg (by omega) _).symm

/-- **Counting** a range: both encodings, the skiplist from two ranks. -/
theorem countRange_eq {zobj : ZsetObj ν} (h : zobj.Wf) (hfits : t.Fits zobj.items) :
    t.countRange zobj = (t.select zobj.items).length := by
  cases zobj with
  | listpack zl =>
      have hcollect := congrArg List.length (collectRange_eq h hfits)
      rwa [List.length_map, collectRange, List.length_map] at hcollect
  | skiplist zs =>
      obtain ⟨L, hL⟩ := h
      have hitems : (ZsetObj.skiplist zs).items = L.map fun id => (zs.zsl.node id).val := hL.items_eq
      obtain ⟨A, M, B, hslices⟩ := hfits.slices
      rw [hslices.select_eq]
      rw [hitems] at hslices
      obtain ⟨LA, LM, LB, rfl, rfl, hnodes⟩ := hslices.nodes hL.rep
      have hfirst : t.zslNthInRange zs.zsl 0 = _ := hnodes.nth 0
      have hlast : t.zslNthInRange zs.zsl (-1) = _ := hnodes.nth_back 0
      have hlen : zs.zsl.length = LA.length + (LM.length + LB.length) := by
        rw [hL.rep.length, List.length_append, List.length_append]
      rw [countRange, hfirst, hlast, List.length_map]
      rcases Nat.eq_zero_or_pos LM.length with hzero | hpos
      · rw [List.getElem?_eq_none (Nat.le_of_eq hzero), hzero]
        rfl
      · have hpos' : 0 < LM.reverse.length := by rwa [List.length_reverse]
        rw [List.getElem?_eq_getElem hpos, List.getElem?_eq_getElem hpos']
        simp only [Option.map_some]
        omega

end RangeTests

/-! ## Ranks -/

/-- The node at a rank. -/
theorem zslGetElementByRank_eq {zsl : Zskiplist ν} {L : List Nat} (h : zsl.Rep L) {n : Nat}
    (hn : n < L.length) : zslGetElementByRank zsl (n + 1) = L[n]? := by
  have hcut : L = ([] ++ L.take (n + 1)) ++ L.drop (n + 1) := (List.take_append_drop (n + 1) L).symm
  have hfound := Skiplist.elementByRankFrom_spec h hcut (Nat.le_refl _) h.level_pos nofun
  rw [List.length_take, Nat.min_eq_left hn, List.nil_append] at hfound
  have hlast := RangeTests.getLast?_append_take [] L hn
  rw [List.nil_append] at hlast
  rw [zslGetElementByRank]
  exact (congrArg (Option.bind · id) hfound).trans hlast

theorem zslWalk_fromRank {zsl : Zskiplist ν} {L : List Nat} (h : zsl.Rep L) {start : Nat}
    (hstart : start < L.length) :
    RangeTests.zslWalk zsl false (zslGetElementByRank zsl (start + 1)) =
      (L.map fun id => (zsl.node id).val).drop start := by
  have hrep : zsl.Rep (L.take start ++ L.drop start) := by rwa [List.take_append_drop]
  rw [zslGetElementByRank_eq h hstart, ← List.head?_drop, RangeTests.zslWalk_forward hrep, List.map_drop]

variable [Score ν]

/-- The elements from a rank on. -/
theorem fromRank_eq {zobj : ZsetObj ν} (h : zobj.Wf) (reverse : Bool) {start : Nat}
    (hstart : start < zobj.items.length) : fromRank zobj reverse start =
      (if reverse then zobj.items.reverse else zobj.items).drop start := by
  cases zobj with
  | listpack zl => cases reverse <;> rfl
  | skiplist zs =>
      obtain ⟨L, hL⟩ := h
      have hitems : (ZsetObj.skiplist zs).items = L.map fun id => (zs.zsl.node id).val := hL.items_eq
      rw [hitems, List.length_map] at hstart
      have hlen := hL.rep.length
      rw [fromRank, hitems]
      cases reverse with
      | false =>
          simp only [Bool.false_eq_true, if_false]
          split_ifs with hpos
          · exact zslWalk_fromRank hL.rep hstart
          · have hhead : (zs.zsl.header 0).forward = L.head? := hL.rep.next_eq (A := [])
            rw [hhead, @RangeTests.zslWalk_forward _ _ [] L hL.rep, show start = 0 by omega,
              List.drop_zero]
      | true =>
          simp only [if_true]
          split_ifs with hpos
          · have hrep : zs.zsl.Rep (L.take (L.length - start) ++ L.drop (L.length - start)) := by
              rw [List.take_append_drop]
              exact hL.rep
            have hlast := RangeTests.getLast?_append_take [] L (n := L.length - start - 1) (by omega)
            have hfound := zslGetElementByRank_eq hL.rep (n := L.length - start - 1) (by omega)
            rw [show L.length - start - 1 + 1 = L.length - start by omega] at hlast hfound
            rw [hlen, hfound, ← hlast, List.nil_append, RangeTests.zslWalk_backward hrep, ← List.map_reverse,
              ← List.map_drop, List.drop_reverse]
          · rw [hL.rep.tail, RangeTests.zslWalk_backward ((List.append_nil L).symm ▸ hL.rep),
              show start = 0 by omega, List.drop_zero, List.map_reverse]

theorem sanitizeRank_lt {llen start stop : Nat} {i j : Int} (h : sanitizeRank llen i j = some (start, stop)) :
    start < llen ∧ start ≤ stop ∧ stop < llen := by
  rw [sanitizeRank] at h
  split_ifs at h <;> simp only [Option.some.injEq, Prod.mk.injEq] at h <;> omega

/-- **Ranges by rank**: both encodings meet the slice between the bounds. -/
theorem rankItems_eq {zobj : ZsetObj ν} (h : zobj.Wf) (reverse : Bool) (start stop : Int) :
    rankItems zobj reverse start stop = match sanitizeRank zobj.items.length start stop with
      | none => []
      | some (start, stop) =>
          ((if reverse then zobj.items.reverse else zobj.items).drop start).take (stop - start + 1) := by
  rw [rankItems, zsetLength_eq h]
  cases hrank : sanitizeRank zobj.items.length start stop with
  | none => rfl
  | some bounds =>
      obtain ⟨i, j⟩ := bounds
      simp only
      rw [fromRank_eq h reverse (sanitizeRank_lt hrank).1]

theorem rankItems_sublist {zobj : ZsetObj ν} (h : zobj.Wf) (reverse : Bool) (start stop : Int) :
    (rankItems zobj reverse start stop).Sublist (if reverse then zobj.items.reverse else zobj.items) := by
  rw [rankItems_eq h]
  split
  · exact List.nil_sublist _
  · exact (List.take_sublist _ _).trans (List.drop_sublist _ _)

theorem collectRank_eq {zobj : ZsetObj ν} (h : zobj.Wf) {start : Nat} (hstart : start < zobj.items.length)
    (stop : Nat) : collectRank zobj start stop =
      ((zobj.items.drop start).take (stop - start + 1)).map Scored.ele := by
  cases zobj with
  | listpack zl => rfl
  | skiplist zs =>
      obtain ⟨L, hL⟩ := h
      have hitems : (ZsetObj.skiplist zs).items = L.map fun id => (zs.zsl.node id).val := hL.items_eq
      rw [hitems, List.length_map] at hstart
      rw [collectRank, hitems, zslWalk_fromRank hL.rep hstart]

omit [Score ν] in
theorem findIdx?_congr {α : Type} {p q : α → Bool} {l : List α} (h : ∀ a ∈ l, p a = q a) :
    l.findIdx? p = l.findIdx? q := by
  induction l with
  | nil => rfl
  | cons a l ih =>
      rw [List.findIdx?_cons, List.findIdx?_cons, h a List.mem_cons_self,
        ih fun b hb => h b (List.mem_cons_of_mem a hb)]

omit [Score ν] in
/-- The index of an element of a list whose elements have distinct names. -/
theorem findIdx?_ele {A B : List (Scored ν)} {a : Scored ν} (hnd : ((A ++ a :: B).map Scored.ele).Nodup) :
    ((A ++ a :: B).findIdx? fun b => b.ele = a.ele) = some A.length := by
  rw [List.map_append, List.map_cons, List.nodup_middle, List.nodup_cons, List.mem_append, not_or] at hnd
  have hA : (A.findIdx? fun b => b.ele = a.ele) = none := by
    rw [List.findIdx?_eq_none_iff]
    intro b hb
    rw [decide_eq_false_iff_not]
    exact fun heq => hnd.1.1 (heq ▸ List.mem_map_of_mem hb)
  rw [List.findIdx?_append, hA, List.findIdx?_cons]
  simp

/-- **The rank** of an element. -/
theorem zsetRank_eq {zobj : ZsetObj ν} (h : zobj.Wf) (ele : Bytes) (reverse : Bool) :
    zsetRank zobj ele reverse = (zobj.items.findIdx? fun a => a.ele = ele).bind fun i =>
      zobj.items[i]?.map fun a => (if reverse then zobj.items.length - (i + 1) else i, a.score) := by
  cases zobj with
  | listpack zl =>
      have hidx : (zl.findIdx? fun p => lpFindCmp ele p.1) =
          (zzlItems zl : List (Scored ν)).findIdx? fun a => a.ele = ele := by
        rw [zzlItems, List.findIdx?_map, findIdx?_congr fun p hp => ?_]
        rw [Bool.eq_iff_iff, lpFindCmp_iff (h.1 p hp) ele, Function.comp_apply, decide_eq_true_eq]
        rfl
      rw [zsetRank, zzlFind, hidx, ZsetObj.items, zzlLength_eq, zzlItems, List.length_map]
      cases (zl.map zzlItem : List (Scored ν)).findIdx? fun a => a.ele = ele with
      | none => rfl
      | some i =>
          rw [Option.bind_some, Option.bind_some, List.getElem?_map]
          cases zl[i]? <;> rfl
  | skiplist zs =>
      obtain ⟨L, hL⟩ := h
      have hitems : (ZsetObj.skiplist zs).items = L.map zs.item := hL.items_eq
      rw [zsetRank]
      cases hfind : zs.dictFind ele with
      | none =>
          have hnone : ((ZsetObj.skiplist zs).items.findIdx? fun a => a.ele = ele) = none := by
            rw [List.findIdx?_eq_none_iff]
            intro a ha
            rw [decide_eq_false_iff_not]
            exact fun heq => hL.dictFind_eq_none hfind (heq ▸ List.mem_map_of_mem ha)
          rw [hnone]
          rfl
      | some id =>
          obtain ⟨hid, rfl⟩ := hL.dictFind_eq_some hfind
          obtain ⟨pre, post, rfl⟩ := List.append_of_mem hid
          have hnd := hL.sound.nodup
          rw [List.map_append, List.map_cons] at hnd hitems
          have hrank := Skiplist.rankByNode_spec hL.rep rfl
          rw [hitems, findIdx?_ele hnd, Option.bind_some, List.length_map,
            List.getElem?_append_right (by rw [List.length_map]), List.length_map, Nat.sub_self,
            Option.map_some, hrank, hL.rep.length]
          simp

end Specifications

/-! ## The tests ascend -/

section Ascending

variable {ν : Type} [Score ν] [LawfulScore ν]

/-- **A range by score** fits every sorted set. -/
theorem Zrangespec.fits {spec : Zrangespec ν} (hmin : isNaN spec.min = false) (hmax : isNaN spec.max = false)
    {items : List (Scored ν)} (h : Sound items) : spec.tests.Fits items where
  ascends := by
    have hle : items.Pairwise fun a b => Score.le a.score b.score = true :=
      h.sorted.imp_of_mem fun ha hb => Scored.le_of_lt (h.number _ ha) (h.number _ hb)
    constructor
    · refine hle.imp fun {a b} hab => ?_
      simp only [tests, zslValueGteMin]
      split_ifs
      · exact fun hgt => Score.lt_of_lt_of_le hgt hab
      · exact fun hge => Score.le_trans hge hab
    · refine hle.imp fun {a b} hab => ?_
      simp only [tests, zslValueLteMax]
      split_ifs
      · exact fun hlt => Score.lt_of_le_of_lt hab hlt
      · exact fun hle => Score.le_trans hab hle
  void := by
    intro hvoid a _ hgte
    have hnot : ∀ {x y : ν}, Score.le x y = true → Score.lt y x = true → False := fun hle hlt => by
      rw [Score.not_lt_of_le hle] at hlt
      contradiction
    rw [Bool.eq_false_iff]
    intro hlte
    simp only [tests, zslValueGteMin] at hgte
    simp only [tests, zslValueLteMax] at hlte
    simp only [tests, Bool.or_eq_true, Bool.and_eq_true] at hvoid
    have hle : Score.le spec.min a.score = true := by
      split_ifs at hgte
      · exact Score.le_of_lt hgte
      · exact hgte
    have hle' : Score.le a.score spec.max = true := by
      split_ifs at hlte
      · exact Score.le_of_lt hlte
      · exact hlte
    rcases hvoid with hvoid | ⟨heq, hex | hex⟩
    · exact hnot (Score.le_trans hle hle') hvoid
    · rw [if_pos hex] at hgte
      exact hnot hle' (Score.lt_of_eq_of_lt (Score.eq_symm heq) hgte)
    · rw [if_pos hex] at hlte
      exact hnot hle (Score.lt_of_lt_of_eq hlte (Score.eq_symm heq))
  cover := by
    intro hvoid a ha hgte
    have ha := h.number a ha
    simp only [tests, Bool.or_eq_false_iff, Bool.and_eq_false_iff] at hvoid
    simp only [tests, zslValueGteMin] at hgte
    have hlt : Score.lt a.score spec.max = true := by
      split_ifs at hgte with hex
      · -- the lower bound is excluded, so it is below the upper one
        have hle := (Score.lt_or_le hmin ha).resolve_left (by rw [hgte]; exact Bool.false_ne_true)
        rcases hvoid.2 with hne | ⟨hnot, -⟩
        · rcases Score.lt_or_le hmax hmin with hlt | hle'
          · rw [hvoid.1] at hlt
            contradiction
          · rw [Score.le, hne, Bool.or_false] at hle'
            exact Score.lt_of_le_of_lt hle hle'
        · rw [hex] at hnot
          contradiction
      · rcases Score.lt_or_le ha hmin with hlt | hle
        · rcases Score.lt_or_le hmax hmin with hlt' | hle'
          · rw [hvoid.1] at hlt'
            contradiction
          · exact Score.lt_of_lt_of_le hlt hle'
        · rw [hgte] at hle
          contradiction
    simp only [tests, zslValueLteMax]
    split_ifs
    · exact hlt
    · exact Score.le_of_lt hlt

end Ascending

/-! ## Ranges by name -/

/-- The order of byte strings is that of the numbers in them. -/
theorem map_toNat_lt_iff {a b : Bytes} : a.map UInt8.toNat < b.map UInt8.toNat ↔ a < b := by
  induction a generalizing b with
  | nil => cases b <;> simp
  | cons x a ih =>
      cases b with
      | nil => simp
      | cons y b =>
          rw [List.map_cons, List.map_cons, List.cons_lt_cons_iff, List.cons_lt_cons_iff, ih,
            UInt8.toNat_inj, UInt8.lt_iff_toNat_lt]

/-- Where a bound is among the elements. -/
def LexBound.place : LexBound → WithBot (WithTop (List Nat))
  | .minstring => ⊥
  | .maxstring => (⊤ : WithTop (List Nat))
  | .str s => (s.map UInt8.toNat : WithTop (List Nat))

theorem sdscmplex_eq_lt_iff {a b : LexBound} : sdscmplex a b = .lt ↔ a.place < b.place := by
  cases a <;> cases b
  case str.maxstring s => exact iff_of_true rfl (WithBot.coe_lt_coe.mpr (WithTop.coe_lt_top _))
  all_goals simp [sdscmplex, LexBound.place, sdscmp_eq_lt_iff, map_toNat_lt_iff, WithBot.coe_lt_coe]

theorem sdscmplex_eq_gt_iff {a b : LexBound} : sdscmplex a b = .gt ↔ b.place < a.place := by
  cases a <;> cases b
  case maxstring.str s => exact iff_of_true rfl (WithBot.coe_lt_coe.mpr (WithTop.coe_lt_top _))
  all_goals simp [sdscmplex, LexBound.place, sdscmp_eq_gt_iff, map_toNat_lt_iff, WithBot.coe_lt_coe]

theorem sdscmplex_eq_eq_iff {a b : LexBound} : sdscmplex a b = .eq ↔ a.place = b.place := by
  have hlt := sdscmplex_eq_lt_iff (a := a) (b := b)
  have hgt := sdscmplex_eq_gt_iff (a := a) (b := b)
  rcases lt_trichotomy a.place b.place with h | h | h
  · simp [hlt.mpr h, h.ne]
  · rw [h, lt_self_iff_false, iff_false] at hlt hgt
    cases hcmp : sdscmplex a b with
    | eq => simp [h]
    | lt => exact absurd hcmp hlt
    | gt => exact absurd hcmp hgt
  · simp [hgt.mpr h, h.ne']

theorem zslLexValueGteMin_iff {value : Bytes} {spec : Zlexrangespec} :
    zslLexValueGteMin value spec = true ↔
      if spec.minex then spec.min.place < (LexBound.str value).place
      else spec.min.place ≤ (LexBound.str value).place := by
  rw [zslLexValueGteMin]
  split_ifs
  · rw [beq_iff_eq, sdscmplex_eq_gt_iff]
  · rw [bne_iff_ne, ne_eq, sdscmplex_eq_lt_iff, not_lt]

theorem zslLexValueLteMax_iff {value : Bytes} {spec : Zlexrangespec} :
    zslLexValueLteMax value spec = true ↔
      if spec.maxex then (LexBound.str value).place < spec.max.place
      else (LexBound.str value).place ≤ spec.max.place := by
  rw [zslLexValueLteMax]
  split_ifs
  · rw [beq_iff_eq, sdscmplex_eq_lt_iff]
  · rw [bne_iff_ne, ne_eq, sdscmplex_eq_gt_iff, not_lt]

section Lex

variable {ν : Type} [Score ν]

/-- What a range by name asks of a sorted set: all scores are equal. -/
def EqualScores (items : List (Scored ν)) : Prop :=
  ∀ a ∈ items, ∀ b ∈ items, Score.eq a.score b.score = true

instance (items : List (Scored ν)) : Decidable (EqualScores items) :=
  inferInstanceAs (Decidable (∀ a ∈ items, ∀ b ∈ items, _))

/-- Among equal scores the order is the order of the names. -/
theorem EqualScores.pairwise_place {items : List (Scored ν)} (heq : EqualScores items) (h : Sound items) :
    items.Pairwise fun a b => (LexBound.str a.ele).place < (LexBound.str b.ele).place := by
  refine h.sorted.imp_of_mem fun {a b} ha hb hlt => ?_
  rcases (lt_iff (h.number a ha) (h.number b hb)).mp hlt with hscore | ⟨-, hele⟩
  · rw [(Score.eq_iff.mp (heq a ha b hb)).2.2.1] at hscore
    contradiction
  · exact sdscmplex_eq_lt_iff.mp (sdscmp_eq_lt_iff.mpr hele)

/-- **A range by name** fits a sorted set whose scores are equal. -/
theorem Zlexrangespec.fits (spec : Zlexrangespec) {items : List (Scored ν)} (h : Sound items)
    (heq : EqualScores items) : (spec.tests : RangeTests ν).Fits items where
  ascends := by
    have hlt := heq.pairwise_place h
    constructor
    · refine hlt.imp fun {a b} hab => ?_
      simp only [tests, zslLexValueGteMin_iff]
      split_ifs
      · exact fun hgt => hgt.trans hab
      · exact fun hge => hge.trans hab.le
    · refine hlt.imp fun {a b} hab => ?_
      simp only [tests, zslLexValueLteMax_iff]
      split_ifs
      · exact fun hlt => hab.trans hlt
      · exact fun hle => hab.le.trans hle
  void := by
    intro hvoid a _ hgte
    rw [Bool.eq_false_iff]
    intro hlte
    simp only [tests, zslLexValueGteMin_iff] at hgte
    simp only [tests, zslLexValueLteMax_iff] at hlte
    simp only [tests, Bool.or_eq_true, Bool.and_eq_true, beq_iff_eq, sdscmplex_eq_gt_iff,
      sdscmplex_eq_eq_iff] at hvoid
    have hle : spec.min.place ≤ (LexBound.str a.ele).place := by
      split_ifs at hgte
      · exact hgte.le
      · exact hgte
    have hle' : (LexBound.str a.ele).place ≤ spec.max.place := by
      split_ifs at hlte
      · exact hlte.le
      · exact hlte
    rcases hvoid with hvoid | ⟨hends, hex | hex⟩
    · exact absurd hvoid (hle.trans hle').not_gt
    · rw [if_pos hex, hends] at hgte
      exact absurd hgte hle'.not_gt
    · rw [if_pos hex, ← hends] at hlte
      exact absurd hlte hle.not_gt
  cover := by
    intro hvoid a _ hgte
    rw [Bool.eq_false_iff, ne_eq] at hgte
    simp only [tests, zslLexValueGteMin_iff] at hgte
    rw [Bool.eq_false_iff, ne_eq] at hvoid
    simp only [tests, Bool.or_eq_true, Bool.and_eq_true, beq_iff_eq, sdscmplex_eq_gt_iff,
      sdscmplex_eq_eq_iff, not_or, not_and, not_lt] at hvoid
    have hlt : (LexBound.str a.ele).place < spec.max.place := by
      split_ifs at hgte with hex
      · exact (not_lt.mp hgte).trans_lt (lt_of_le_of_ne hvoid.1 fun hends => (hvoid.2 hends).1 hex)
      · exact (not_le.mp hgte).trans_le hvoid.1
    simp only [tests, zslLexValueLteMax_iff]
    split_ifs
    · exact hlt
    · exact hlt.le

end Lex

end SkynetJit.Redis
