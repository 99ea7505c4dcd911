import SkynetJit.Lib.Interval
import SkynetJit.Lib.Skiplist
import SkynetJit.Redis.Zset.Score

/-!
# SkynetJit.Zset.Skiplist

The skiplist of the module `skiplist.c` (`luaclib-src/zset/skiplist.c`).

It is an older one than that of the sorted sets.  The span of a link of level 0
is stored and read like any other, and a level that is given up keeps the span
that the header has there.  `Holds z L` says that the nodes `L` are the list
that `z` stands for, and that the spans of level 0 are right; with it every walk
here is one of `SkynetJit.Lib.Skiplist`.

A list has less than 2^32 nodes, so no span and no rank wraps around.
-/

namespace SkynetJit.Luaclib

open Skiplist
open Redis (Score LawfulScore Scored Sound)
open Redis.Scored (Lt)
open Redis.LuaNumber (isNaN)

/-! ## Operations -/

section Operations

variable {α : Type}

/-- Walk along one level while the test holds for the next node; the test is
given the node's rank too. -/
def slWalk (z : Skiplist α) (adv : Nat → α → Bool) (i : Nat) : Nat → Cursor × Nat → Cursor × Nat
  | 0, c => c
  | fuel + 1, (x, rank) =>
      match (z.link x i).forward with
      | none => (x, rank)
      | some y =>
          if adv (rank + (z.link x i).span) (z.node y).val then
            slWalk z adv i fuel (some y, rank + (z.link x i).span)
          else (x, rank)

/-- The loop over the levels, from the highest one down to level `i`. -/
def slDescend (z : Skiplist α) (adv : Nat → α → Bool) : Nat → Cursor × Nat → Nat → Cursor × Nat
  | 0, c, _ => c
  | l + 1, c, i =>
      let c' := slWalk z adv l z.length c
      if l ≤ i then c' else slDescend z adv l c' i

/-- `update[i]` and `rank[i]`. -/
def slSearch (z : Skiplist α) (adv : Nat → α → Bool) (i : Nat) : Cursor × Nat :=
  slDescend z adv z.level (none, 0) i

/-- `slInsert` of a node that is on the heap. -/
def slInsertNode (z : Skiplist α) (id : Nat) (test : α → Bool) : Skiplist α :=
  let levels := (z.node id).levels
  let upd := fun i => if i < z.level then (slSearch z (fun _ => test) i).1 else none
  let rank := fun i => if i < z.level then (slSearch z (fun _ => test) i).2 else 0
  let z' := z.withLinks (z.insertLinks id levels upd rank)
  let next := (z.link (upd 0) 0).forward
  { z' with
    node := fun m =>
      if m = id then { z'.node m with backward := upd 0 }
      else if some m = next then { z'.node m with backward := some id }
      else z'.node m
    tail := if next.isSome then z.tail else some id
    level := max levels z.level
    length := z.length + 1 }

/-- `slDeleteNode`. -/
def slDeleteNode (z : Skiplist α) (id : Nat) (upd : Nat → Cursor) : Skiplist α :=
  let links := z.unlinkLinks id upd
  let z' := z.withLinks links
  let next := (z.link (some id) 0).forward
  { z' with
    node := fun m =>
      if some m = next then { z'.node m with backward := (z.node id).backward } else z'.node m
    tail := if next.isSome then z.tail else (z.node id).backward
    level := shrunkLevel (links none) z.level
    length := z.length - 1 }

/-- The loop of `slDeleteByRank`: what the callback is given, and what is
left. -/
def slDeleteNodes (upd : Nat → Cursor) : Nat → Option Nat → Skiplist α → List α × Skiplist α
  | 0, _, z => ([], z)
  | _ + 1, none, z => ([], z)
  | n + 1, some id, z =>
      let r := slDeleteNodes upd n (z.link (some id) 0).forward (slDeleteNode z id upd)
      ((z.node id).val :: r.1, r.2)

/-- `slDeleteByRank`; ranks are counted from 1. -/
def slDeleteByRank (z : Skiplist α) (start stop : Nat) : List α × Skiplist α :=
  let c := slSearch z (fun rank _ => decide (rank < start))
  slDeleteNodes (fun i => (c i).1) (stop - (c 0).2) (z.link (c 0).1 0).forward z

/-- The loop of `slGetRank` over the levels. -/
def slRankFrom (z : Skiplist α) (adv same : α → Bool) : Nat → Cursor × Nat → Nat
  | 0, _ => 0
  | l + 1, c =>
      let c' := slWalk z (fun _ => adv) l z.length c
      if c'.1.any fun id => same (z.node id).val then c'.2 else slRankFrom z adv same l c'

/-- The loop of `slGetNodeByRank` over the levels. -/
def slNodeByRankFrom (z : Skiplist α) (rank : Nat) : Nat → Cursor × Nat → Cursor
  | 0, _ => none
  | l + 1, c =>
      let c' := slWalk z (fun r _ => decide (r ≤ rank)) l z.length c
      if c'.2 = rank then c'.1 else slNodeByRankFrom z rank l c'

/-- `slGetNodeByRank`. -/
def slGetNodeByRank (z : Skiplist α) (rank : Nat) : Option Nat :=
  if rank = 0 ∨ rank > z.length then none else slNodeByRankFrom z rank z.level (none, 0)

end Operations

section Scores

variable {ν : Type} [Score ν]

/-- The test of the search loops: the next node is before the element. -/
def slSmaller (a n : Scored ν) : Bool :=
  Score.lt n.score a.score || (Score.eq n.score a.score && sdscmp n.ele a.ele == .lt)

/-- The test of `slGetRank`. -/
def slNotGreater (a n : Scored ν) : Bool :=
  Score.lt n.score a.score || (Score.eq n.score a.score && sdscmp n.ele a.ele != .gt)

/-- `slRandomLevel`, given how many draws stay below the threshold. -/
def slRandomLevel (draws : Nat) : Nat := if draws + 1 < 32 then draws + 1 else 32

/-- `slCreate`. -/
def slCreate : Skiplist (Scored ν) := Skiplist.create

/-- `slInsert`. -/
def slInsert (draws : Nat) (z : Skiplist (Scored ν)) (a : Scored ν) : Skiplist (Scored ν) :=
  slInsertNode (z.allocNode (slRandomLevel draws) a) z.fresh (slSmaller a)

/-- `slDelete`. -/
def slDelete (z : Skiplist (Scored ν)) (a : Scored ν) : Bool × Skiplist (Scored ν) :=
  let c := slSearch z fun _ => slSmaller a
  match (z.link (c 0).1 0).forward with
  | none => (false, z)
  | some id =>
      if Score.eq a.score (z.node id).val.score && sdscmp (z.node id).val.ele a.ele == .eq then
        (true, slDeleteNode z id fun i => (c i).1)
      else (false, z)

/-- `slGetRank`; 0 is for an element that is not found. -/
def slGetRank (z : Skiplist (Scored ν)) (a : Scored ν) : Nat :=
  slRankFrom z (slNotGreater a) (fun n => sdscmp n.ele a.ele == .eq) z.level (none, 0)

/-- `slIsInRange`. -/
def slIsInRange (z : Skiplist (Scored ν)) (min max : ν) : Bool :=
  !Score.lt max min && (z.tail.any fun id => !Score.lt (z.node id).val.score min) &&
    (z.header 0).forward.any fun id => !Score.lt max (z.node id).val.score

/-- `slFirstInRange`. -/
def slFirstInRange (z : Skiplist (Scored ν)) (min max : ν) : Option Nat :=
  if slIsInRange z min max then
    (z.link (slSearch z (fun _ n => Score.lt n.score min) 0).1 0).forward
  else none

/-- `slLastInRange`; a place in a list that is in range, or nothing. -/
def slLastInRange (z : Skiplist (Scored ν)) (min max : ν) : Option Cursor :=
  if slIsInRange z min max then some (slSearch z (fun _ n => Score.le n.score max) 0).1 else none

end Scores

/-! ## What a skiplist stands for -/

section Walks

variable {α : Type} {z : Skiplist α} {L : List Nat}

/-- The nodes `L` are the list that `z` stands for, and the spans of level 0 are
stored. -/
structure Holds (z : Skiplist α) (L : List Nat) : Prop where
  rep : Rep z L
  stored : ∀ x : Cursor, (∀ id ∈ x, id ∈ L) → (z.link x 0).span = z.spanAt x 0

theorem Holds.span_eq (h : Holds z L) {x : Cursor} (hx : ∀ id ∈ x, id ∈ L) (i : Nat) :
    (z.link x i).span = z.spanAt x i := by
  cases i with
  | zero => exact h.stored x hx
  | succ i => rw [spanAt, if_pos (Nat.succ_pos i)]

theorem slWalk_eq (h : Holds z L) (adv : Nat → α → Bool) {i : Nat} (fuel : Nat) {c : Cursor × Nat}
    (hc : ∀ id ∈ c.1, id ∈ L ∧ i < z.height id) : slWalk z adv i fuel c = z.walkLevel adv i fuel c := by
  induction fuel generalizing c with
  | zero => rfl
  | succ fuel ih =>
      have hspan := h.span_eq (fun id hid => (hc id hid).1) i
      have hnext := h.rep.forward_mem hc
      rw [slWalk, walkLevel, hspan]
      cases hy : (z.link c.1 i).forward with
      | none => rfl
      | some y =>
          dsimp only
          rw [ih (c := (some y, c.2 + z.spanAt c.1 i)) fun id hid => hnext id (hy ▸ hid)]

theorem slDescend_eq (h : Holds z L) (adv : Nat → α → Bool) {lvl : Nat} {c : Cursor × Nat}
    (hc : ∀ id ∈ c.1, id ∈ L ∧ lvl ≤ z.height id) (i : Nat) : slDescend z adv lvl c i = z.descend adv lvl c i := by
  induction lvl generalizing c with
  | zero => rfl
  | succ l ih =>
      have hwalk := walkLevel_mem h.rep adv (i := l) z.length hc
      rw [slDescend, descend, slWalk_eq h adv z.length hc,
        ih fun id hid => ⟨(hwalk id hid).1, Nat.le_of_lt (hwalk id hid).2⟩]

/-- **The search** is that of the library. -/
theorem slSearch_eq (h : Holds z L) (adv : Nat → α → Bool) (i : Nat) :
    slSearch z adv i = z.descend adv z.level (none, 0) i :=
  slDescend_eq h adv (c := (none, 0)) (by simp) i

end Walks

/-! ## Inserting -/

section Insert

variable {α : Type} {z : Skiplist α} {L : List Nat}

theorem holds_create [Inhabited α] : Holds (create : Skiplist α) [] := by
  refine ⟨rep_create, fun x hx => ?_⟩
  cases x with
  | none => rfl
  | some id => exact absurd (hx id rfl) List.not_mem_nil

theorem Holds.allocNode (h : Holds z L) (levels : Nat) (val : α) : Holds (z.allocNode levels val) L := by
  refine ⟨rep_allocNode h.rep levels val, fun x hx => ?_⟩
  have hlink : (z.allocNode levels val).link x 0 = z.link x 0 := by
    cases x with
    | none => rfl
    | some id => rw [link, link, node_allocNode_of_ne (Nat.ne_of_lt (h.rep.fresh id (hx id rfl)))]
  have hstored := h.stored x hx
  rw [spanAt] at hstored ⊢
  rw [hlink]
  exact hstored

/-- Inserting is that of the library. -/
theorem slInsertNode_eq (h : Holds z L) (id : Nat) (test : α → Bool) :
    slInsertNode z id test = z.insertNode id test := by
  have hsearch : slSearch z (fun _ => test) = z.search test := funext (slSearch_eq h fun _ => test)
  rw [slInsertNode, insertNode, hsearch]

theorem Holds.insertNode {A B : List Nat} (h : Holds z (A ++ B)) {id : Nat} (hid : id ∉ A ++ B)
    (hpos : 1 ≤ z.height id) (hfresh : id < z.fresh) {test : α → Bool}
    (hA : ∀ a ∈ A, test (z.node a).val = true) (hB : ∀ b ∈ B, test (z.node b).val = false) :
    Holds (slInsertNode z id test) (A ++ id :: B) := by
  rw [slInsertNode_eq h]
  refine ⟨rep_insertNode h.rep hid hpos hfresh hA hB, fun x hx => ?_⟩
  have hp := places_search h.rep hA hB
  have hplace : ∀ a ∈ A.getLast?, a ∈ A ++ B := fun a ha => List.mem_append_left B (List.mem_of_getLast? ha)
  have hold := h.stored A.getLast? hplace
  have hlevel := h.rep.level_pos
  rw [spanAt, if_neg (Nat.lt_irrefl 0)] at hold ⊢
  rw [link_insertNode, insertLinks, hp.upd_zero, hp.rank_zero]
  by_cases hself : x = some id
  · rw [if_pos ⟨hself, hpos⟩, if_neg (Nat.not_le_of_lt hlevel), Nat.sub_self]
    exact hold
  · rw [if_neg fun hc => hself hc.1]
    by_cases hlast : x = A.getLast?
    · rw [if_pos ⟨hlast, hpos⟩, Nat.sub_self]
      rfl
    · rw [if_neg fun hc => hlast hc.1, if_neg fun hc => hlast hc.1]
      have hin : ∀ m ∈ x, m ∈ A ++ B := by
        intro m hm
        have hmem := hx m hm
        have hne : m ≠ id := fun heq => hself (by rw [← heq]; exact hm)
        simp only [List.mem_append, List.mem_cons] at hmem ⊢
        tauto
      have hstored := h.stored x hin
      rwa [spanAt, if_neg (Nat.lt_irrefl 0)] at hstored

end Insert

/-! ## Deleting -/

section Delete

variable {α : Type} {z : Skiplist α} {L : List Nat}

/-- Spans above the level of a skiplist do not matter. -/
theorem rep_of_links {z' : Skiplist α} (h : Rep z L) (htail : z'.tail = z.tail) (hlength : z'.length = z.length)
    (hlevel : z'.level = z.level) (hfresh : z'.fresh = z.fresh)
    (hnode : ∀ id, (z'.node id).levels = (z.node id).levels ∧ (z'.node id).backward = (z.node id).backward)
    (hforward : ∀ x i, (z'.link x i).forward = (z.link x i).forward)
    (hspan : ∀ x i, i < z.level → (z'.link x i).span = (z.link x i).span) : Rep z' L := by
  have hheight : z'.height = z.height := funext fun id => (hnode id).1
  refine ⟨h.nodup, hlength.trans h.length, hlevel ▸ h.level_pos, hheight ▸ h.height_pos, ?_, ⟨?_, ?_⟩, ?_, ?_, ?_⟩
  · rw [hheight, hlevel]
    exact h.height_le
  · intro pre post i hL hr
    rw [Reaches, hheight] at hr
    rw [hforward, hheight]
    exact h.linked.forward pre post i hL hr
  · intro pre post i hL hr hpos hi
    rw [Reaches, hheight] at hr
    rw [hlevel] at hi
    rw [hspan _ i hi, hheight]
    exact h.linked.span pre post i hL hr hpos hi
  · intro pre id post hL
    rw [(hnode id).2]
    exact h.backward pre id post hL
  · rw [htail, h.tail]
  · rw [hfresh]
    exact h.fresh

@[simp] theorem link_slDeleteNode (z : Skiplist α) (id : Nat) (upd : Nat → Cursor) (x : Cursor) (i : Nat) :
    (slDeleteNode z id upd).link x i = z.unlinkLinks id upd x i := by
  cases x with
  | none => rfl
  | some m =>
      simp only [link, slDeleteNode]
      split_ifs <;> simp_all [withLinks]

@[simp] theorem height_slDeleteNode (z : Skiplist α) (id : Nat) (upd : Nat → Cursor) (m : Nat) :
    (slDeleteNode z id upd).height m = z.height m := by
  simp only [height, slDeleteNode]
  split_ifs <;> rfl

@[simp] theorem val_slDeleteNode (z : Skiplist α) (id : Nat) (upd : Nat → Cursor) (m : Nat) :
    ((slDeleteNode z id upd).node m).val = (z.node m).val := by
  simp only [slDeleteNode]
  split_ifs <;> rfl

theorem level_slDeleteNode_le (z : Skiplist α) (id : Nat) (upd : Nat → Cursor) (h : 1 ≤ z.level) :
    (slDeleteNode z id upd).level ≤ z.level := (shrunkLevel_spec _ h).2.1

/-- **Unlinking** a node, given the places before it. -/
theorem Holds.deleteNode {A B : List Nat} {id : Nat} (h : Holds z (A ++ id :: B)) {upd : Nat → Cursor}
    (hp : ∀ i < z.level, ∃ Q, FrontAt z A i Q ∧ upd i = Q.getLast?) : Holds (slDeleteNode z id upd) (A ++ B) := by
  have hlib : ∀ m, ((slDeleteNode z id upd).node m).levels = ((z.unlinkNode id upd).node m).levels ∧
      ((slDeleteNode z id upd).node m).backward = ((z.unlinkNode id upd).node m).backward := by
    intro m
    simp only [slDeleteNode, unlinkNode, withLinks]
    split_ifs <;> exact ⟨rfl, rfl⟩
  constructor
  case rep =>
    refine rep_of_links (rep_unlinkNode h.rep hp) rfl rfl rfl rfl hlib (fun x i => ?_) fun x i hi => ?_
    · rw [link_slDeleteNode, (z.link_unlinkNode id upd x i).1]
    · rw [link_slDeleteNode, (z.link_unlinkNode id upd x i).2 hi]
  case stored =>
    intro x hx
    have hzero : upd 0 = A.getLast? := by
      obtain ⟨Q, hQ, hupd⟩ := hp 0 h.rep.level_pos
      rw [hupd, frontAt_zero h.rep (fun a ha => List.mem_append_left _ ha) hQ]
    have hin : ∀ m ∈ x, m ∈ A ++ id :: B := by
      intro m hm
      have hmem := hx m hm
      simp only [List.mem_append, List.mem_cons] at hmem ⊢
      tauto
    have hstored := h.stored x hin
    rw [spanAt, if_neg (Nat.lt_irrefl 0)] at hstored ⊢
    rw [link_slDeleteNode, unlinkLinks, hzero]
    by_cases hlast : x = A.getLast?
    · -- the span of the node that goes is added
      have hnext : (z.link x 0).forward = some id := by rw [hlast, h.rep.next_eq]; rfl
      have hgoes := h.stored (some id) (by simp)
      rw [spanAt, if_neg (Nat.lt_irrefl 0)] at hgoes
      rw [if_pos ⟨hlast, h.rep.level_pos⟩, if_pos hnext, hstored, hnext, hgoes]
      simp
    · rw [if_neg fun hc => hlast hc.1]
      exact hstored

/-- **Deleting** nodes one after the other behind the same places. -/
theorem slDeleteNodes_spec {upd : Nat → Cursor} (n : Nat) {z : Skiplist α} {A B : List Nat} (h : Holds z (A ++ B))
    (hp : ∀ i < z.level, ∃ Q, FrontAt z A i Q ∧ upd i = Q.getLast?) :
    (slDeleteNodes upd n B.head? z).1 = (B.take n).map (fun id => (z.node id).val) ∧
      Holds (slDeleteNodes upd n B.head? z).2 (A ++ B.drop n) ∧
      ∀ m, ((slDeleteNodes upd n B.head? z).2.node m).val = (z.node m).val := by
  induction n generalizing z B with
  | zero => exact ⟨rfl, h, fun m => rfl⟩
  | succ n ih =>
      cases B with
      | nil => exact ⟨rfl, h, fun m => rfl⟩
      | cons id B =>
          have hnext : (z.link (some id) 0).forward = B.head? := by
            have heq := (show Rep z ((A ++ [id]) ++ B) by simpa using h.rep).next_eq
            simpa using heq
          have hfront : ∀ i < (slDeleteNode z id upd).level, ∃ Q,
              FrontAt (slDeleteNode z id upd) A i Q ∧ upd i = Q.getLast? := by
            intro i hi
            obtain ⟨Q, hQ, hupd⟩ := hp i (Nat.lt_of_lt_of_le hi (level_slDeleteNode_le z id upd h.rep.level_pos))
            exact ⟨Q, by simpa only [FrontAt, Reaches, height_slDeleteNode] using hQ, hupd⟩
          obtain ⟨hvals, hholds, hval⟩ := ih (h.deleteNode hp) hfront
          rw [List.head?_cons, slDeleteNodes, hnext]
          refine ⟨?_, hholds, fun m => ?_⟩
          · rw [hvals]
            simp only [val_slDeleteNode, List.take_succ_cons, List.map_cons]
          · rw [hval, val_slDeleteNode]

end Delete

/-! ## Searching -/

section Search

variable {α : Type} {z : Skiplist α} {L : List Nat}

/-- The places for a front part of the list. -/
theorem slSearch_spec {A B : List Nat} (h : Holds z (A ++ B)) {adv : Nat → α → Bool}
    (hadv : HoldsFor z (A ++ B) A 0 adv) {i : Nat} (hi : i < z.level) :
    ∃ Q, FrontAt z A i Q ∧ slSearch z adv i = (Q.getLast?, Q.length) := by
  rw [slSearch_eq h]
  obtain ⟨Q, hQ, -, hsearch⟩ := descend_spec h.rep rfl hadv (Nat.le_refl _) (List.nil_append A).symm (Nat.zero_le _)
    (by simp) hi
  exact ⟨Q, hQ, hsearch⟩

theorem slSearch_zero {A B : List Nat} (h : Holds z (A ++ B)) {adv : Nat → α → Bool}
    (hadv : HoldsFor z (A ++ B) A 0 adv) : slSearch z adv 0 = (A.getLast?, A.length) := by
  obtain ⟨Q, hQ, hsearch⟩ := slSearch_spec h hadv h.rep.level_pos
  rw [hsearch, frontAt_zero h.rep (fun id hid => List.mem_append_left B hid) hQ]

/-- **Deleting by rank**: what is behind the first ones, up to a rank. -/
theorem slDeleteByRank_spec (h : Holds z L) (start stop : Nat) :
    (slDeleteByRank z start stop).1 =
        ((L.drop (start - 1)).take (stop - (start - 1))).map (fun id => (z.node id).val) ∧
      Holds (slDeleteByRank z start stop).2 (L.take (start - 1) ++ L.drop (max (start - 1) stop)) ∧
      ∀ m, ((slDeleteByRank z start stop).2.node m).val = (z.node m).val := by
  have hcut : Holds z (L.take (start - 1) ++ L.drop (start - 1)) := by rwa [List.take_append_drop]
  have hadv : HoldsFor z (L.take (start - 1) ++ L.drop (start - 1)) (L.take (start - 1)) 0
      fun rank _ => decide (rank < start) := by
    intro pre y post hL _
    rw [List.take_append_drop] at hL
    have hlen : L.length = pre.length + (post.length + 1) := by rw [hL]; simp
    rw [decide_eq_true_eq, List.length_take]
    omega
  have hzero := slSearch_zero hcut hadv
  have hnext : (z.link (L.take (start - 1)).getLast? 0).forward = (L.drop (start - 1)).head? := hcut.rep.next_eq
  have hplaces : ∀ i < z.level, ∃ Q, FrontAt z (L.take (start - 1)) i Q ∧
      (slSearch z (fun rank _ => decide (rank < start)) i).1 = Q.getLast? := fun i hi => by
    obtain ⟨Q, hQ, hsearch⟩ := slSearch_spec hcut hadv hi
    exact ⟨Q, hQ, by rw [hsearch]⟩
  obtain ⟨hvals, hholds, hval⟩ := slDeleteNodes_spec (stop - (L.take (start - 1)).length) hcut hplaces
  have hcount : ∀ M : List Nat, M = L.drop (start - 1) →
      M.take (stop - (L.take (start - 1)).length) = M.take (stop - (start - 1)) ∧
        M.drop (stop - (L.take (start - 1)).length) = L.drop (max (start - 1) stop) := by
    rintro M rfl
    rw [List.length_take, List.drop_drop]
    by_cases hle : start - 1 ≤ L.length
    · rw [Nat.min_eq_left hle]
      exact ⟨rfl, by congr 1; omega⟩
    · rw [List.drop_eq_nil_of_le (by omega), List.drop_eq_nil_of_le (by omega), List.drop_eq_nil_of_le (by omega)]
      simp
  rw [slDeleteByRank, hzero]
  dsimp only
  rw [hnext]
  rw [(hcount _ rfl).1] at hvals
  rw [(hcount _ rfl).2] at hholds
  exact ⟨hvals, hholds, hval⟩

/-- **The node at a rank**, counted from 1. -/
theorem slGetNodeByRank_spec (h : Holds z L) (rank : Nat) :
    slGetNodeByRank z rank = if rank = 0 then none else L[rank - 1]? := by
  rw [slGetNodeByRank, h.rep.length]
  by_cases hzero : rank = 0
  · rw [if_pos (.inl hzero), if_pos hzero]
  · rw [if_neg hzero]
    by_cases hlong : rank > L.length
    · rw [if_pos (.inr hlong), List.getElem?_eq_none (by omega)]
    · rw [if_neg (by omega)]
      have hcut : L = [] ++ L.take rank ++ L.drop rank := by rw [List.nil_append, List.take_append_drop]
      have hspec := elementByRankFrom_spec h.rep hcut (Nat.le_refl _) h.rep.level_pos (by simp)
      have hlib : ∀ {lvl : Nat} {c : Cursor × Nat}, (∀ id ∈ c.1, id ∈ L ∧ lvl ≤ z.height id) →
          slNodeByRankFrom z rank lvl c = (z.elementByRankFrom lvl c rank).getD none := by
        intro lvl
        induction lvl with
        | zero => exact fun _ => rfl
        | succ l ih =>
            intro c hc
            have hwalk := walkLevel_mem h.rep (fun r _ => decide (r ≤ rank)) (i := l) z.length hc
            rw [slNodeByRankFrom, elementByRankFrom, slWalk_eq h _ z.length hc]
            split_ifs
            · rfl
            · exact ih fun id hid => ⟨(hwalk id hid).1, Nat.le_of_lt (hwalk id hid).2⟩
      rw [List.length_take, Nat.min_eq_left (by omega)] at hspec
      rw [hlib (c := (none, 0)) (by simp)]
      rw [show (([] : List Nat).getLast?, 0) = ((none, 0) : Cursor × Nat) from rfl] at hspec
      rw [hspec, Option.getD_some, List.nil_append, List.getLast?_take, if_neg hzero]
      rw [List.getElem?_eq_getElem (by omega), Option.some_or]

/-- **The rank of a node**: the walk passes it, and no other node has its
name. -/
theorem slRankFrom_spec {A B : List Nat} {id : Nat} (h : Holds z (A ++ id :: B)) {adv same : α → Bool}
    (hadv : HoldsFor z (A ++ id :: B) (A ++ [id]) 0 fun _ => adv)
    (hsame : ∀ m ∈ A ++ id :: B, same (z.node m).val = true ↔ m = id) :
    slRankFrom z adv same z.level (none, 0) = A.length + 1 := by
  have hcut : A ++ id :: B = (A ++ [id]) ++ B := by simp
  have hall : ∀ m ∈ A ++ [id], m ∈ A ++ id :: B := fun m hm => by
    rw [hcut]
    exact List.mem_append_left B hm
  -- the levels below `l`, from a place of the front part
  have key : ∀ l ≤ z.level, 0 < l → ∀ pre mid, A ++ [id] = pre ++ mid → (∀ m ∈ pre.getLast?, l ≤ z.height m) →
      slRankFrom z adv same l (pre.getLast?, pre.length) = A.length + 1 := by
    intro l
    induction l with
    | zero => omega
    | succ l ih =>
        intro hl _ pre mid hA hreach
        have hmem : ∀ m ∈ pre.getLast?, m ∈ A ++ id :: B ∧ l < z.height m := fun m hm =>
          ⟨hall m (by rw [hA]; exact List.mem_append_left mid (List.mem_of_getLast? hm)), hreach m hm⟩
        have hfuel : mid.length ≤ z.length := by
          have hlen := congrArg List.length hA
          rw [List.length_append, List.length_append, List.length_singleton] at hlen
          rw [h.rep.length, List.length_append, List.length_cons]
          omega
        obtain ⟨Q, hQ, -, hwalk⟩ := walkLevel_spec h.rep hcut hadv (i := l) (by omega) hA (Nat.zero_le _)
          (fun m hm => hreach m hm) hfuel
        rw [Nat.sub_zero, Nat.sub_zero] at hwalk
        rw [slRankFrom, slWalk_eq h _ z.length hmem, hwalk]
        dsimp only
        obtain ⟨short, hAQ, hshort, hrQ⟩ := hQ
        split_ifs with hhit
        · obtain ⟨m, hm, hsm⟩ : ∃ m, Q.getLast? = some m ∧ same (z.node m).val = true := by
            cases hm : Q.getLast? with
            | none => rw [hm] at hhit; contradiction
            | some m => exact ⟨m, rfl, by rwa [hm, Option.any_some] at hhit⟩
          have hmQ : m ∈ Q := List.mem_of_getLast? hm
          obtain rfl := (hsame m (hall m (by rw [hAQ]; exact List.mem_append_left short hmQ))).mp hsm
          have hQA : Q = A ++ [m] := by
            refine prefix_eq_of_getLast? h.rep.nodup ⟨short ++ B, ?_⟩ ⟨B, hcut.symm⟩ (by rw [hm]; simp)
            rw [← List.append_assoc, ← hAQ, hcut]
          rw [hQA]
          simp
        · cases l with
          | zero =>
              have hQA := frontAt_zero h.rep hall ⟨short, hAQ, hshort, hrQ⟩
              rw [hQA, List.getLast?_concat, Option.any_some] at hhit
              exact absurd ((hsame id (by simp)).mpr rfl) hhit
          | succ l => exact ih (by omega) (by omega) Q short hAQ fun m hm => Nat.le_of_lt (hrQ m hm)
  exact key z.level (Nat.le_refl _) h.rep.level_pos [] (A ++ [id]) rfl (by simp)

end Search

/-! ## Elements in order -/

section Order

variable {ν : Type} [Score ν] {z : Skiplist (Scored ν)}

/-- The elements that a skiplist lists, in order. -/
def Lists (z : Skiplist (Scored ν)) (items : List (Scored ν)) : Prop :=
  ∃ L, Holds z L ∧ (L.map fun id => (z.node id).val) = items

theorem lists_slCreate : Lists (slCreate : Skiplist (Scored ν)) [] := ⟨[], holds_create, rfl⟩

omit [Score ν] in
theorem Lists.length_eq {items : List (Scored ν)} (h : Lists z items) : z.length = items.length := by
  obtain ⟨L, hL, rfl⟩ := h
  rw [hL.rep.length, List.length_map]

omit [Score ν] in
theorem Lists.vals_eq {items : List (Scored ν)} (h : Lists z items) : z.vals = items := by
  obtain ⟨L, hL, rfl⟩ := h
  rw [vals, ids_eq hL.rep]

theorem slRandomLevel_pos (draws : Nat) : 1 ≤ slRandomLevel draws := by
  rw [slRandomLevel]
  split_ifs <;> omega

omit [Score ν] in
/-- **Deleting by rank** takes a part out. -/
theorem Lists.deleteByRank {items : List (Scored ν)} (h : Lists z items) (start stop : Nat) :
    (slDeleteByRank z start stop).1 = (items.drop (start - 1)).take (stop - (start - 1)) ∧
      Lists (slDeleteByRank z start stop).2 (items.take (start - 1) ++ items.drop (max (start - 1) stop)) := by
  obtain ⟨L, hL, rfl⟩ := h
  obtain ⟨hremoved, hholds, hval⟩ := slDeleteByRank_spec hL start stop
  refine ⟨?_, _, hholds, ?_⟩
  · rw [hremoved, List.map_take, List.map_drop]
  · rw [List.map_append, List.map_take, List.map_drop]
    simp only [hval]

variable [LawfulScore ν] {A B : List (Scored ν)} {a : Scored ν}

omit [LawfulScore ν] in
theorem slSmaller_iff {n : Scored ν} (ha : a.IsNumber) (hn : n.IsNumber) : slSmaller a n = true ↔ Lt n a := by
  rw [slSmaller, Scored.lt_iff hn ha, Bool.or_eq_true, Bool.and_eq_true, beq_iff_eq, sdscmp_eq_lt_iff]

theorem slSmaller_of_lt {n : Scored ν} (ha : a.IsNumber) (hn : n.IsNumber) (h : Lt a n) :
    slSmaller a n = false := by
  rw [Bool.eq_false_iff, ne_eq, slSmaller_iff ha hn]
  exact h.asymm

theorem slNotGreater_iff {n : Scored ν} (ha : a.IsNumber) (hn : n.IsNumber) :
    slNotGreater a n = true ↔ ¬ Lt a n := by
  have hcmp : (sdscmp n.ele a.ele != .gt) = true ↔ ¬ a.ele < n.ele := by
    rw [bne_iff_ne, ne_eq, sdscmp_eq_gt_iff]
  rw [slNotGreater, Scored.lt_iff ha hn, Bool.or_eq_true, Bool.and_eq_true, hcmp]
  cases hna : Score.lt n.score a.score with
  | true =>
      have han := Score.lt_asymm hna
      simp [Score.eq, hna, han]
  | false =>
      cases han : Score.lt a.score n.score with
      | true => simp [Score.eq, han]
      | false => simp [Score.eq, hna, han, show isNaN a.score = false from ha, show isNaN n.score = false from hn]

omit [LawfulScore ν] in
/-- **Inserting** an element where the test ends. -/
theorem Lists.insert (h : Lists z (A ++ B)) (draws : Nat) (hA : ∀ n ∈ A, slSmaller a n = true)
    (hB : ∀ n ∈ B, slSmaller a n = false) : Lists (slInsert draws z a) (A ++ a :: B) := by
  obtain ⟨L, hL, hmap⟩ := h
  obtain ⟨A', B', rfl, rfl, rfl⟩ := List.map_eq_append_iff.mp hmap
  have hold : ∀ id ∈ A' ++ B', ((z.allocNode (slRandomLevel draws) a).node id).val = (z.node id).val :=
    fun id hid => by rw [node_allocNode_of_ne (Nat.ne_of_lt (hL.rep.fresh id hid))]
  have hval : ∀ m, ((slInsert draws z a).node m).val = ((z.allocNode (slRandomLevel draws) a).node m).val := by
    intro m
    rw [slInsert, slInsertNode]
    dsimp only
    split_ifs <;> rfl
  refine ⟨A' ++ z.fresh :: B', ?_, ?_⟩
  · refine (hL.allocNode _ a).insertNode (fun hin => Nat.lt_irrefl _ (hL.rep.fresh z.fresh hin)) ?_ ?_
      (fun id hid => ?_) fun id hid => ?_
    · rw [height, Skiplist.allocNode]
      simpa using slRandomLevel_pos draws
    · exact Nat.lt_succ_self _
    · rw [hold id (List.mem_append_left B' hid)]
      exact hA _ (List.mem_map_of_mem hid)
    · rw [hold id (List.mem_append_right A' hid)]
      exact hB _ (List.mem_map_of_mem hid)
  · have hfresh : ((z.allocNode (slRandomLevel draws) a).node z.fresh).val = a := by
      rw [Skiplist.allocNode]
      simp
    rw [List.map_append, List.map_cons, hval, hfresh]
    congr 1
    · exact List.map_congr_left fun id hid => by rw [hval, hold id (List.mem_append_left B' hid)]
    · congr 1
      exact List.map_congr_left fun id hid => by rw [hval, hold id (List.mem_append_right A' hid)]

/-- **A new element** goes to its place. -/
theorem Lists.insert_new {items : List (Scored ν)} (h : Lists z items) (hsound : Sound items) (draws : Nat)
    (ha : a.IsNumber) (hnew : a.ele ∉ items.map Scored.ele) :
    ∃ A B, items = A ++ B ∧ Sound (A ++ a :: B) ∧ Lists (slInsert draws z a) (A ++ a :: B) := by
  obtain ⟨A, B, rfl, hA, hB⟩ := hsound.split ha hnew
  have hnumber := hsound.number
  refine ⟨A, B, rfl, hsound.insert ha hnew hA hB, h.insert draws (fun n hn => ?_) fun n hn => ?_⟩
  · exact (slSmaller_iff ha (hnumber n (List.mem_append_left B hn))).mpr (hA n hn)
  · exact slSmaller_of_lt ha (hnumber n (List.mem_append_right A hn)) (hB n hn)

/-- The nodes behind the elements before and after one, and what the search for
it meets. -/
theorem Lists.cut (h : Lists z (A ++ a :: B)) (hsound : Sound (A ++ a :: B)) :
    ∃ A' id B', Holds z (A' ++ id :: B') ∧ A'.map (fun m => (z.node m).val) = A ∧ (z.node id).val = a ∧
      B'.map (fun m => (z.node m).val) = B ∧ (∀ m ∈ A', slSmaller a (z.node m).val = true) ∧
      (∀ m ∈ id :: B', slSmaller a (z.node m).val = false) ∧
      ∀ m ∈ A' ++ id :: B', (z.node m).val.ele = a.ele → m = id := by
  obtain ⟨L, hL, hmap⟩ := h
  obtain ⟨A', M', rfl, hA, hM⟩ := List.map_eq_append_iff.mp hmap
  obtain ⟨id, B', rfl, hid, hB⟩ := List.map_eq_cons_iff.mp hM
  have hsorted := List.pairwise_append.mp hsound.sorted
  have hnumber := hsound.number
  have ha : a.IsNumber := hnumber a (by simp)
  refine ⟨A', id, B', hL, hA, hid, hB, fun m hm => ?_, fun m hm => ?_, fun m hm heq => ?_⟩
  · have hin : (z.node m).val ∈ A := hA ▸ List.mem_map_of_mem hm
    exact (slSmaller_iff ha (hnumber _ (by simp [hin]))).mpr (hsorted.2.2 _ hin a List.mem_cons_self)
  · rcases List.mem_cons.mp hm with rfl | hm
    · rw [Bool.eq_false_iff, ne_eq, hid, slSmaller_iff ha ha]
      exact Lt.irrefl a
    · have hin : (z.node m).val ∈ B := hB ▸ List.mem_map_of_mem hm
      exact slSmaller_of_lt ha (hnumber _ (by simp [hin])) ((List.pairwise_cons.mp hsorted.2.1).1 _ hin)
  · have hnd := hsound.nodup
    rw [← hmap, List.map_map] at hnd
    refine (List.inj_on_of_nodup_map hnd) hm (by simp) ?_
    simp only [Function.comp, heq, hid]

/-- **Deleting** an element. -/
theorem Lists.delete (h : Lists z (A ++ a :: B)) (hsound : Sound (A ++ a :: B)) :
    (slDelete z a).1 = true ∧ Lists (slDelete z a).2 (A ++ B) := by
  obtain ⟨A', id, B', hL, rfl, hid, rfl, hfront, hback, -⟩ := h.cut hsound
  have hadv := holdsFor_of_split hfront hback
  have hnext : (z.link (slSearch z (fun _ => slSmaller a) 0).1 0).forward = some id := by
    rw [slSearch_zero hL hadv]
    exact hL.rep.next_eq
  have hhit : (Score.eq a.score (z.node id).val.score && sdscmp (z.node id).val.ele a.ele == .eq) = true := by
    rw [hid, Score.eq_refl (hsound.number a (by simp)), Bool.true_and, beq_iff_eq, sdscmp_eq_iff]
  rw [slDelete]
  simp only [hnext, hhit, if_true, true_and]
  refine ⟨A' ++ B', hL.deleteNode fun i hi => ?_, ?_⟩
  · obtain ⟨Q, hQ, hsearch⟩ := slSearch_spec hL hadv hi
    exact ⟨Q, hQ, by rw [hsearch]⟩
  · simp only [val_slDeleteNode, List.map_append]

/-- **The rank** of an element is how many are not after it. -/
theorem Lists.getRank (h : Lists z (A ++ a :: B)) (hsound : Sound (A ++ a :: B)) :
    slGetRank z a = A.length + 1 := by
  obtain ⟨A', id, B', hL, rfl, hid, rfl, -, -, hname⟩ := h.cut hsound
  have ha := hsound.number a (by simp)
  have hsorted := List.pairwise_append.mp hsound.sorted
  rw [List.length_map]
  refine slRankFrom_spec hL ?_ fun m hm => ?_
  · rw [show A' ++ id :: B' = (A' ++ [id]) ++ B' by simp]
    refine holdsFor_of_split (fun m hm => ?_) fun m hm => ?_
    · rcases List.mem_append.mp hm with hm | hm
      · have hin := List.mem_map_of_mem (f := fun m => (z.node m).val) hm
        rw [slNotGreater_iff ha (hsound.number _ (by simp [hin]))]
        exact (hsorted.2.2 _ hin a List.mem_cons_self).asymm
      · rw [List.mem_singleton.mp hm, hid, slNotGreater_iff ha ha]
        exact Lt.irrefl a
    · have hin := List.mem_map_of_mem (f := fun m => (z.node m).val) hm
      rw [Bool.eq_false_iff, ne_eq, slNotGreater_iff ha (hsound.number _ (by simp [hin])), not_not]
      exact (List.pairwise_cons.mp hsorted.2.1).1 _ hin
  · rw [beq_iff_eq, sdscmp_eq_iff]
    refine ⟨hname m hm, ?_⟩
    rintro rfl
    rw [hid]

end Order

/-! ## Ranges of scores -/

section Ranges

variable {ν : Type} [Score ν] {z : Skiplist (Scored ν)} {items A M B : List (Scored ν)} {min max : ν}

/-- Not below a range. -/
def notBelow (min : ν) (a : Scored ν) : Bool := !Score.lt a.score min

/-- Not above a range. -/
def notAbove (max : ν) (a : Scored ν) : Bool := !Score.lt max a.score

theorem slIsInRange_eq (h : Lists z items) : slIsInRange z min max =
    (!Score.lt max min && items.getLast?.any (notBelow min) && items.head?.any (notAbove max)) := by
  obtain ⟨L, hL, rfl⟩ := h
  have hhead : (z.header 0).forward = L.head? := hL.rep.next_eq (A := [])
  rw [slIsInRange, hL.rep.tail, hhead, List.getLast?_map, List.head?_map, Option.any_map, Option.any_map]
  rfl

variable [LawfulScore ν]

/-- Along the elements the scores do not fall. -/
theorem ascends_of_sound (h : Sound items) (min max : ν) :
    ListInterval.Ascends (notBelow min) (notAbove max) items := by
  have hle : items.Pairwise fun a b => Score.le a.score b.score = true :=
    h.sorted.imp_of_mem fun ha hb hlt => Scored.le_of_lt (h.number _ ha) (h.number _ hb) hlt
  constructor
  · refine hle.imp fun {a b} hab ha => ?_
    rw [notBelow, Bool.not_eq_true'] at ha ⊢
    rw [Bool.eq_false_iff]
    exact fun hb => Bool.eq_false_iff.mp ha (Score.lt_of_le_of_lt hab hb)
  · refine hle.imp fun {a b} hab hb => ?_
    rw [notAbove, Bool.not_eq_true'] at hb ⊢
    rw [Bool.eq_false_iff]
    exact fun ha => Bool.eq_false_iff.mp hb (Score.lt_of_lt_of_le ha hab)

/-- Out of range there is nothing. -/
theorem nil_of_not_slIsInRange (h : Lists z items) (hsound : Sound items)
    (hcut : ListInterval.Cut (notBelow min) (notAbove max) items A M B)
    (hout : slIsInRange z min max = false) : M = [] := by
  rw [List.eq_nil_iff_forall_not_mem]
  intro a ha
  obtain ⟨hlow, hhigh⟩ := hcut.inside a ha
  have hin : a ∈ items := by
    rw [hcut.eq]
    simp [ha]
  have hasc := ascends_of_sound hsound min max
  rw [slIsInRange_eq h, Bool.eq_false_iff] at hout
  refine hout ?_
  rw [Bool.and_eq_true, Bool.and_eq_true, Bool.not_eq_true', Bool.eq_false_iff]
  refine ⟨⟨fun hlt => ?_, ?_⟩, ?_⟩
  · -- a number between them
    rw [notBelow, Bool.not_eq_true', Bool.eq_false_iff] at hlow
    rw [notAbove, Bool.not_eq_true', Bool.eq_false_iff] at hhigh
    exact (LawfulScore.lt_or_lt (hsound.number a hin) hlt).elim hhigh hlow
  · obtain ⟨front, b, rfl⟩ := List.eq_nil_or_concat' items |>.resolve_left (List.ne_nil_of_mem hin)
    rw [List.getLast?_concat, Option.any_some]
    rcases List.mem_append.mp hin with hfront | hlast
    · exact (List.pairwise_append.mp hasc.lower).2.2 a hfront b List.mem_cons_self hlow
    · rwa [← List.mem_singleton.mp hlast]
  · obtain ⟨b, rest, rfl⟩ := List.exists_cons_of_ne_nil (List.ne_nil_of_mem hin)
    rw [List.head?_cons, Option.any_some]
    rcases List.mem_cons.mp hin with rfl | hrest
    · exact hhigh
    · exact (List.pairwise_cons.mp hasc.upper).1 a hrest hhigh

omit [LawfulScore ν] in
/-- **The first node in range**: the first that is not below. -/
theorem slFirstInRange_spec (max : ν) (h : Lists z items) {C : List (Scored ν)} (hC : items = A ++ C)
    (hA : ∀ a ∈ A, notBelow min a = false) (hfrom : ∀ a ∈ C, notBelow min a = true) :
    ∃ A' C', Holds z (A' ++ C') ∧ C'.map (fun id => (z.node id).val) = C ∧
      slFirstInRange z min max = if slIsInRange z min max then C'.head? else none := by
  obtain ⟨L, hL, rfl⟩ := h
  obtain ⟨A', C', rfl, rfl, rfl⟩ := List.map_eq_append_iff.mp hC
  refine ⟨A', C', hL, rfl, ?_⟩
  have hadv : HoldsFor z (A' ++ C') A' 0 fun _ n => Score.lt n.score min := holdsFor_of_split
    (fun id hid => by simpa [notBelow] using hA _ (List.mem_map_of_mem hid))
    (fun id hid => by simpa [notBelow] using hfrom _ (List.mem_map_of_mem hid))
  rw [slFirstInRange, slSearch_zero hL hadv]
  dsimp only
  rw [hL.rep.next_eq]

omit [LawfulScore ν] in
/-- **The last node in range**: the last that is not above. -/
theorem slLastInRange_spec (min : ν) (h : Lists z items) {F : List (Scored ν)} (hF : items = F ++ B)
    (hfront : ∀ a ∈ F, Score.le a.score max = true) (hB : ∀ a ∈ B, Score.le a.score max = false) :
    ∃ F' B', Holds z (F' ++ B') ∧ F'.map (fun id => (z.node id).val) = F ∧
      slLastInRange z min max = if slIsInRange z min max then some F'.getLast? else none := by
  obtain ⟨L, hL, rfl⟩ := h
  obtain ⟨F', B', rfl, rfl, rfl⟩ := List.map_eq_append_iff.mp hF
  refine ⟨F', B', hL, rfl, ?_⟩
  have hadv : HoldsFor z (F' ++ B') F' 0 fun _ n => Score.le n.score max := holdsFor_of_split
    (fun id hid => hfront _ (List.mem_map_of_mem hid)) fun id hid => hB _ (List.mem_map_of_mem hid)
  rw [slLastInRange, slSearch_zero hL hadv]

end Ranges

end SkynetJit.Luaclib
