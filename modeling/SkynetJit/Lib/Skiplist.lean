import Mathlib.Data.List.DropRight
import Mathlib.Data.List.Nodup
import Mathlib.Tactic.SplitIfs

/-!
# SkynetJit.Lib.Skiplist

Skiplists with spans on a heap of nodes.  A node has a number of levels, and
for each of them a forward link with the number of nodes it skips; at level 0
the span is not stored, it is one as long as there is a next node.  The header
has links at every level and no value.

`Rep z L` says that the nodes `L` are the list `z` stands for: every link of
every node is what the list and the heights of its nodes make it.  The
operations are specified by what they do to `L`:

* `descend_spec` — the search from the top level down finds the place where a
  test that holds for a front part of the list stops holding;
* `rep_insertNode`, `rep_unlinkNode` — inserting and unlinking a node;
* `rankByNode_spec`, `elementByRankFrom_spec` — ranks from spans.

Nothing here depends on the values in the nodes.
-/

namespace SkynetJit

/-- What a node holds for one level. -/
structure Link where
  forward : Option Nat
  span : Nat

/-- A node on the heap. -/
structure SkipNode (α : Type) where
  val : α
  backward : Option Nat
  levels : Nat
  level : Nat → Link

/-- A skiplist: the heap by address, the header apart; `fresh` is an address
that was not given out yet. -/
structure Skiplist (α : Type) where
  header : Nat → Link
  node : Nat → SkipNode α
  tail : Option Nat
  length : Nat
  level : Nat
  fresh : Nat

/-- A place to stand while walking: a node, or the header. -/
abbrev Cursor := Option Nat

namespace Skiplist

variable {α : Type}

/-! ## Operations -/

/-- The link of a node or the header at a level. -/
def link (z : Skiplist α) (x : Cursor) (i : Nat) : Link :=
  match x with
  | none => z.header i
  | some id => (z.node id).level i

/-- Replace all links. -/
def withLinks (z : Skiplist α) (f : Cursor → Nat → Link) : Skiplist α :=
  { z with
    header := f none
    node := fun id => { z.node id with level := f (some id) } }

/-- The span of a link; at level 0 it follows from the link. -/
def spanAt (z : Skiplist α) (x : Cursor) (i : Nat) : Nat :=
  if 0 < i then (z.link x i).span
  else if (z.link x 0).forward.isSome then 1 else 0

/-- An empty skiplist; the heap holds nothing that is looked at. -/
def create [Inhabited α] : Skiplist α where
  header _ := ⟨none, 0⟩
  node _ := ⟨default, none, 0, fun _ => ⟨none, 0⟩⟩
  tail := none
  length := 0
  level := 1
  fresh := 0

/-- Walk along one level while the test holds for the next node; the test is
given the node's rank too.  The second component counts the ranks passed. -/
def walkLevel (z : Skiplist α) (adv : Nat → α → Bool) (i : Nat) :
    Nat → Cursor × Nat → Cursor × Nat
  | 0, c => c
  | fuel + 1, (x, rank) =>
      match (z.link x i).forward with
      | none => (x, rank)
      | some y =>
          if adv (rank + z.spanAt x i) (z.node y).val then
            walkLevel z adv i fuel (some y, rank + z.spanAt x i)
          else (x, rank)

/-- Walk along the levels below `lvl`, the highest one first, down to level
`i`: where the walk along level `i` ends. -/
def descend (z : Skiplist α) (adv : Nat → α → Bool) : Nat → Cursor × Nat → Nat → Cursor × Nat
  | 0, c, _ => c
  | l + 1, c, i =>
      let c' := walkLevel z adv l z.length c
      if l ≤ i then c' else descend z adv l c' i

/-- The search for the places before which something is to be changed. -/
def search (z : Skiplist α) (test : α → Bool) (i : Nat) : Cursor × Nat :=
  descend z (fun _ => test) z.level (none, 0) i

/-- The links after a node is inserted behind the places `upd`, with the ranks
of these places.  The loops over the levels touch one level at a time, so they
are functions of the level; at a new level the header spans the whole list
before.  What is written to a span of level 0 is never read. -/
def insertLinks (z : Skiplist α) (id levels : Nat) (upd : Nat → Cursor) (rank : Nat → Nat) :
    Cursor → Nat → Link := fun x i =>
  if x = some id ∧ i < levels then
    { forward := (z.link (upd i) i).forward
      span := (if z.level ≤ i then z.length else (z.link (upd i) i).span) - (rank 0 - rank i) }
  else if x = upd i ∧ i < levels then { forward := some id, span := rank 0 - rank i + 1 }
  else if x = upd i ∧ i < z.level then { z.link x i with span := (z.link x i).span + 1 }
  else z.link x i

/-- Insert a node that is on the heap. -/
def insertNode (z : Skiplist α) (id : Nat) (test : α → Bool) : Skiplist α :=
  let levels := (z.node id).levels
  let upd := fun i => if i < z.level then (z.search test i).1 else none
  let rank := fun i => if i < z.level then (z.search test i).2 else 0
  let z' := z.withLinks (z.insertLinks id levels upd rank)
  let next := (z.link (upd 0) 0).forward
  { z' with
    node := fun m =>
      if m = id then { z'.node m with backward := upd 0 }
      else if some m = next then { z'.node m with backward := some id }
      else z'.node m
    tail := if next.isSome then z.tail else some id
    level := max levels z.level
    length := z.length + 1 }

/-- Put a new node on the heap. -/
def allocNode (z : Skiplist α) (levels : Nat) (val : α) : Skiplist α :=
  { z with
    node := fun m => if m = z.fresh then ⟨val, none, levels, fun _ => ⟨none, 0⟩⟩ else z.node m
    fresh := z.fresh + 1 }

/-- Allocate and insert; the address is the one that was fresh. -/
def insert (z : Skiplist α) (levels : Nat) (val : α) (test : α → Bool) : Skiplist α :=
  (z.allocNode levels val).insertNode z.fresh test

/-- The links after a node is unlinked. -/
def unlinkLinks (z : Skiplist α) (id : Nat) (upd : Nat → Cursor) : Cursor → Nat → Link := fun x i =>
  if x = upd i ∧ i < z.level then
    if (z.link x i).forward = some id then
      { forward := (z.link (some id) i).forward
        span := (z.link x i).span + (z.link (some id) i).span - 1 }
    else { z.link x i with span := (z.link x i).span - 1 }
  else z.link x i

/-- The level once the top levels that are empty are dropped. -/
def shrunkLevel (header : Nat → Link) : Nat → Nat
  | 0 => 0
  | 1 => 1
  | l + 2 => if (header (l + 1)).forward = none then shrunkLevel header (l + 1) else l + 2

/-- Unlink a node, given the places before it. -/
def unlinkNode (z : Skiplist α) (id : Nat) (upd : Nat → Cursor) : Skiplist α :=
  let links := z.unlinkLinks id upd
  let level := shrunkLevel (links none) z.level
  let z' := z.withLinks fun x i =>
    if x = none ∧ level ≤ i ∧ i < z.level then { links x i with span := 0 } else links x i
  let next := (z.link (some id) 0).forward
  { z' with
    node := fun m =>
      if some m = next then { z'.node m with backward := (z.node id).backward } else z'.node m
    tail := if next.isSome then z.tail else (z.node id).backward
    level := level
    length := z.length - 1 }

/-- Search for a node and unlink it. -/
def delete (z : Skiplist α) (id : Nat) (test : α → Bool) : Skiplist α :=
  z.unlinkNode id fun i => (z.search test i).1

/-- Change the value of a node in place. -/
def setVal (z : Skiplist α) (id : Nat) (val : α) : Skiplist α :=
  { z with node := fun m => if m = id then { z.node m with val := val } else z.node m }

/-- The distance from a node to the end, along the highest links. -/
def distanceToEnd (z : Skiplist α) : Nat → Option Nat → Nat
  | 0, _ => 0
  | _ + 1, none => 0
  | fuel + 1, some x =>
      let i := (z.node x).levels - 1
      z.spanAt (some x) i + distanceToEnd z fuel (z.link (some x) i).forward

/-- The rank of a node, counted from 1. -/
def rankByNode (z : Skiplist α) (x : Nat) : Nat := z.length - z.distanceToEnd (z.length + 1) (some x)

/-- The node a number of ranks behind a place: on each level from `lvl - 1`
down, forward as far as the rank allows. -/
def elementByRankFrom (z : Skiplist α) : Nat → Cursor × Nat → Nat → Option Cursor
  | 0, _, _ => none
  | l + 1, c, rank =>
      let c' := walkLevel z (fun r _ => decide (r ≤ rank)) l z.length c
      if c'.2 = rank then some c'.1 else elementByRankFrom z l c' rank

/-- A number of steps along level 0. -/
def stepForward (z : Skiplist α) : Nat → Option Nat → Option Nat
  | 0, x => x
  | n + 1, x => stepForward z n (x.bind fun id => (z.link (some id) 0).forward)

/-- A number of steps back. -/
def stepBackward (z : Skiplist α) : Nat → Option Nat → Option Nat
  | 0, x => x
  | n + 1, x => stepBackward z n (x.bind fun id => (z.node id).backward)

/-- The nodes along level 0. -/
def chain (z : Skiplist α) : Nat → Option Nat → List Nat
  | 0, _ => []
  | _ + 1, none => []
  | fuel + 1, some x => x :: chain z fuel (z.link (some x) 0).forward

/-- The nodes along the links back. -/
def chainBack (z : Skiplist α) : Nat → Option Nat → List Nat
  | 0, _ => []
  | _ + 1, none => []
  | fuel + 1, some x => x :: chainBack z fuel (z.node x).backward

/-- The nodes of the list, in order. -/
def ids (z : Skiplist α) : List Nat := z.chain (z.length + 1) (z.header 0).forward

/-- The values of the list, in order. -/
def vals (z : Skiplist α) : List α := z.ids.map fun id => (z.node id).val

/-! ## What a skiplist stands for -/

/-- The next node with a link at level `i`. -/
def nextIn (ht : Nat → Nat) (i : Nat) (xs : List Nat) : Option Nat := xs.find? fun id => i < ht id

/-- How many nodes a link at level `i` skips: up to the next node with a link
at that level, or to the end. -/
def spanIn (ht : Nat → Nat) (i : Nat) (xs : List Nat) : Nat :=
  min (xs.findIdx (fun id => decide (i < ht id)) + 1) xs.length

/-- The number of levels of a node. -/
def height (z : Skiplist α) (id : Nat) : Nat := (z.node id).levels

/-- Whether there is a link at level `i` at a place. -/
def Reaches (z : Skiplist α) (x : Cursor) (i : Nat) : Prop := ∀ id ∈ x, i < z.height id

/-- The links are those of the list.  A place in the list is a way to cut it
in two: the place is the last node of the front part, or the header. -/
structure Linked (z : Skiplist α) (L : List Nat) : Prop where
  forward : ∀ pre post i, L = pre ++ post → z.Reaches pre.getLast? i →
    (z.link pre.getLast? i).forward = nextIn z.height i post
  span : ∀ pre post i, L = pre ++ post → z.Reaches pre.getLast? i → 0 < i → i < z.level →
    (z.link pre.getLast? i).span = spanIn z.height i post

/-- The nodes `L` are the list that `z` stands for. -/
structure Rep (z : Skiplist α) (L : List Nat) : Prop where
  nodup : L.Nodup
  length : z.length = L.length
  level_pos : 1 ≤ z.level
  height_pos : ∀ id ∈ L, 1 ≤ z.height id
  height_le : ∀ id ∈ L, z.height id ≤ z.level
  linked : z.Linked L
  backward : ∀ pre id post, L = pre ++ id :: post → (z.node id).backward = pre.getLast?
  tail : z.tail = L.getLast?
  fresh : ∀ id ∈ L, id < z.fresh

/-! ## Next nodes and spans -/

section Next

variable {ht : Nat → Nat} {i : Nat}

theorem nextIn_append_short {xs ys : List Nat} (h : ∀ id ∈ xs, ht id ≤ i) :
    nextIn ht i (xs ++ ys) = nextIn ht i ys := by
  rw [nextIn, nextIn, List.find?_append, List.find?_eq_none.mpr, Option.none_or]
  intro id hid
  simpa using h id hid

theorem nextIn_eq_none {xs : List Nat} : nextIn ht i xs = none ↔ ∀ id ∈ xs, ht id ≤ i := by
  simp [nextIn]

theorem nextIn_cons_tall {y : Nat} {ys : List Nat} (h : i < ht y) :
    nextIn ht i (y :: ys) = some y := by
  simp [nextIn, h]

/-- The front part up to the next tall node, that node, and the rest. -/
theorem exists_of_nextIn {xs : List Nat} {y : Nat} (h : nextIn ht i xs = some y) :
    ∃ ms ys, xs = ms ++ y :: ys ∧ (∀ id ∈ ms, ht id ≤ i) ∧ i < ht y := by
  obtain ⟨hy, ms, ys, hxs, hms⟩ := List.find?_eq_some_iff_append.mp h
  refine ⟨ms, ys, hxs, fun id hid => ?_, by simpa using hy⟩
  simpa using hms id hid

theorem spanIn_short {xs : List Nat} (h : ∀ id ∈ xs, ht id ≤ i) : spanIn ht i xs = xs.length := by
  rw [spanIn, List.findIdx_eq_length_of_false]
  · omega
  · intro id hid
    simpa using h id hid

theorem spanIn_tall {ms ys : List Nat} {y : Nat} (h : ∀ id ∈ ms, ht id ≤ i) (hy : i < ht y) :
    spanIn ht i (ms ++ y :: ys) = ms.length + 1 := by
  have hidx : (ms ++ y :: ys).findIdx (fun id => decide (i < ht id)) = ms.length := by
    rw [List.findIdx_append, List.findIdx_eq_length_of_false, if_neg (Nat.lt_irrefl _),
      List.findIdx_cons]
    · simp [hy]
    · intro id hid
      simpa using h id hid
  rw [spanIn, hidx, List.length_append, List.length_cons]
  omega

/-- A part without tall nodes adds its length to the span. -/
theorem spanIn_append_short {xs ys : List Nat} (h : ∀ id ∈ xs, ht id ≤ i) :
    spanIn ht i (xs ++ ys) = xs.length + spanIn ht i ys := by
  cases hn : nextIn ht i ys with
  | none =>
      have hys := nextIn_eq_none.mp hn
      rw [spanIn_short hys, spanIn_short, List.length_append]
      intro id hid
      exact (List.mem_append.mp hid).elim (h id) (hys id)
  | some y =>
      obtain ⟨ms, zs, rfl, hms, hy⟩ := exists_of_nextIn hn
      rw [spanIn_tall hms hy, ← List.append_assoc, spanIn_tall _ hy, List.length_append]
      · omega
      · intro id hid
        exact (List.mem_append.mp hid).elim (h id) (hms id)

end Next

/-! ## Walking -/

section Walk

variable {z : Skiplist α} {L : List Nat}

theorem Rep.spanAt_eq (h : Rep z L) {pre post : List Nat} {i : Nat} (hL : L = pre ++ post)
    (hr : z.Reaches pre.getLast? i) (hi : i < z.level) :
    z.spanAt pre.getLast? i = spanIn z.height i post := by
  rw [spanAt]
  split_ifs with hpos hsome
  · exact h.linked.span pre post i hL hr hpos hi
  all_goals
    obtain rfl : i = 0 := by omega
    have hpost : ∀ id ∈ post, 0 < z.height id := fun id hid =>
      h.height_pos id (hL ▸ List.mem_append_right pre hid)
    rw [h.linked.forward pre post 0 hL hr] at hsome
    cases post with
    | nil => simp [nextIn, spanIn] at hsome ⊢
    | cons y ys =>
        have hy := hpost y List.mem_cons_self
        rw [nextIn_cons_tall hy] at hsome
        have hone : spanIn z.height 0 ([] ++ y :: ys) = ([] : List Nat).length + 1 :=
          spanIn_tall (by simp) hy
        simp_all

/-- A test that holds for the nodes of the front part `A` and for no others;
ranks are counted from `base` on. -/
def HoldsFor (z : Skiplist α) (L A : List Nat) (base : Nat) (adv : Nat → α → Bool) : Prop :=
  ∀ pre y post, L = pre ++ y :: post → base ≤ pre.length →
    (adv (pre.length + 1 - base) (z.node y).val = true ↔ pre.length < A.length)

/-- The front part of `A` that ends with its last node of more than `i`
levels. -/
def FrontAt (z : Skiplist α) (A : List Nat) (i : Nat) (Q : List Nat) : Prop :=
  ∃ short, A = Q ++ short ∧ (∀ id ∈ short, z.height id ≤ i) ∧ z.Reaches Q.getLast? i

/-- The walk along one level ends at the last node of that level that is not
past the front part. -/
theorem walkLevel_spec (h : Rep z L) {A B : List Nat} (hL : L = A ++ B) {base : Nat}
    {adv : Nat → α → Bool} (hadv : HoldsFor z L A base adv) {i : Nat} (hi : i < z.level)
    {pre mid : List Nat} (hA : A = pre ++ mid) (hbase : base ≤ pre.length)
    (hr : z.Reaches pre.getLast? i) {fuel : Nat} (hfuel : mid.length ≤ fuel) :
    ∃ Q, FrontAt z A i Q ∧ pre <+: Q ∧
      walkLevel z adv i fuel (pre.getLast?, pre.length - base) = (Q.getLast?, Q.length - base) := by
  induction fuel generalizing pre mid with
  | zero =>
      obtain rfl : mid = [] := List.length_eq_zero_iff.mp (by omega)
      exact ⟨pre, ⟨[], hA, nofun, hr⟩, List.prefix_refl pre, rfl⟩
  | succ fuel ih =>
      have hcut : L = pre ++ (mid ++ B) := by rw [hL, hA, List.append_assoc]
      have hforward := h.linked.forward pre (mid ++ B) i hcut hr
      have hspan := h.spanAt_eq hcut hr hi
      rw [walkLevel]
      cases hnext : nextIn z.height i (mid ++ B) with
      | none =>
          rw [hforward, hnext]
          have hshort := nextIn_eq_none.mp hnext
          exact ⟨pre, ⟨mid, hA, fun id hid => hshort id (List.mem_append_left B hid), hr⟩,
            List.prefix_refl pre, rfl⟩
      | some y =>
          obtain ⟨ms, ys, hsplit, hms, hy⟩ := exists_of_nextIn hnext
          have hat : L = (pre ++ ms) ++ y :: ys := by rw [hcut, hsplit, List.append_assoc]
          have hrank : pre.length - base + z.spanAt pre.getLast? i =
              (pre ++ ms).length + 1 - base := by
            rw [hspan, hsplit, spanIn_tall hms hy, List.length_append]
            omega
          have hin : adv ((pre ++ ms).length + 1 - base) (z.node y).val = true ↔
              ms.length < mid.length := by
            rw [hadv (pre ++ ms) y ys hat (by rw [List.length_append]; omega), hA,
              List.length_append, List.length_append, Nat.add_lt_add_iff_left]
          rw [hforward, hnext]
          dsimp only
          rw [hrank]
          have hstop : (∀ id ∈ mid, z.height id ≤ i) → ¬ ms.length < mid.length →
              ∃ Q, FrontAt z A i Q ∧ pre <+: Q ∧
                (if adv ((pre ++ ms).length + 1 - base) (z.node y).val = true then
                  walkLevel z adv i fuel (some y, (pre ++ ms).length + 1 - base)
                else (pre.getLast?, pre.length - base)) = (Q.getLast?, Q.length - base) := by
            intro hmid hlen
            rw [if_neg (mt hin.mp hlen)]
            exact ⟨pre, ⟨mid, hA, hmid, hr⟩, List.prefix_refl pre, rfl⟩
          rcases List.append_eq_append_iff.mp hsplit with ⟨cs, rfl, -⟩ | ⟨cs, rfl, hcs⟩
          · -- the next node is past the front part
            exact hstop (fun id hid => hms id (List.mem_append_left cs hid)) (by simp)
          · cases cs with
            | nil => exact hstop (by simpa using hms) (by simp)
            | cons c cs =>
                -- the next node is in the front part: go on from it
                obtain ⟨rfl, -⟩ := List.cons.inj hcs
                rw [if_pos (hin.mpr (by simp))]
                have hlast : (pre ++ ms ++ [y]).getLast? = some y := by simp
                obtain ⟨Q, hQ, hpre, hwalk⟩ := ih
                  (show A = (pre ++ ms ++ [y]) ++ cs by rw [hA]; simp) (by simp; omega)
                  (by rw [hlast]; rintro id ⟨⟩; exact hy) (by simp at hfuel; omega)
                refine ⟨Q, hQ, ?_, ?_⟩
                · rw [List.append_assoc] at hpre
                  exact (List.prefix_append pre _).trans hpre
                · rw [← hwalk, hlast, @List.length_append _ (pre ++ ms), List.length_singleton]

/-- **The search** from level `lvl - 1` down. -/
theorem descend_spec (h : Rep z L) {A B : List Nat} (hL : L = A ++ B) {base : Nat}
    {adv : Nat → α → Bool} (hadv : HoldsFor z L A base adv) {lvl : Nat} (hlvl : lvl ≤ z.level)
    {pre mid : List Nat} (hA : A = pre ++ mid) (hbase : base ≤ pre.length)
    (hr : ∀ id ∈ pre.getLast?, lvl ≤ z.height id) {i : Nat} (hi : i < lvl) :
    ∃ Q, FrontAt z A i Q ∧ pre <+: Q ∧
      descend z adv lvl (pre.getLast?, pre.length - base) i = (Q.getLast?, Q.length - base) := by
  induction lvl generalizing pre mid with
  | zero => omega
  | succ l ih =>
      have hfuel : mid.length ≤ z.length := by
        rw [h.length, hL, hA, List.length_append, List.length_append]
        omega
      obtain ⟨Q, hQ, hpre, hwalk⟩ := walkLevel_spec h hL hadv (by omega) hA hbase
        (i := l) (fun id hid => hr id hid) hfuel
      rw [descend, hwalk]
      split_ifs with hli
      · obtain rfl : i = l := by omega
        exact ⟨Q, hQ, hpre, rfl⟩
      · obtain ⟨short, hAQ, -, hrQ⟩ := hQ
        obtain ⟨Q', hQ', hpre', hrest⟩ := ih (by omega) hAQ (hbase.trans hpre.length_le)
          (fun id hid => Nat.le_of_lt (hrQ id hid)) (by omega)
        exact ⟨Q', hQ', hpre.trans hpre', hrest⟩

/-- A test on values that holds in the front part only. -/
theorem holdsFor_of_split {A B : List Nat} {test : α → Bool}
    (hA : ∀ id ∈ A, test (z.node id).val = true) (hB : ∀ id ∈ B, test (z.node id).val = false) :
    HoldsFor z (A ++ B) A 0 fun _ => test := by
  intro pre y post hL _
  have hy : (A ++ B)[pre.length]? = some y := by rw [hL]; simp
  rw [List.getElem?_append] at hy
  split_ifs at hy with hin
  · exact iff_of_true (hA y (List.mem_of_getElem? hy)) hin
  · exact iff_of_false (by simp [hB y (List.mem_of_getElem? hy)]) hin

theorem frontAt_zero (h : Rep z L) {A Q : List Nat} (hA : ∀ id ∈ A, id ∈ L) (hQ : FrontAt z A 0 Q) :
    Q = A := by
  obtain ⟨short, rfl, hshort, -⟩ := hQ
  cases short with
  | nil => exact (List.append_nil Q).symm
  | cons y ys =>
      have hy := h.height_pos y (hA y (by simp))
      have hy' := hshort y List.mem_cons_self
      omega

/-- The places found at the levels of the list. -/
theorem search_spec {A B : List Nat} (h : Rep z (A ++ B)) {test : α → Bool}
    (hA : ∀ id ∈ A, test (z.node id).val = true) (hB : ∀ id ∈ B, test (z.node id).val = false)
    {i : Nat} (hi : i < z.level) :
    ∃ Q, FrontAt z A i Q ∧ z.search test i = (Q.getLast?, Q.length) := by
  obtain ⟨Q, hQ, -, hsearch⟩ := descend_spec h rfl (holdsFor_of_split hA hB) (Nat.le_refl _)
    (List.nil_append A).symm (Nat.zero_le _) nofun hi
  exact ⟨Q, hQ, hsearch⟩

/-- The search, from the place where the walk along the highest level
ended. -/
theorem descend_from_top {A B : List Nat} (h : Rep z (A ++ B)) {test : α → Bool}
    (hA : ∀ id ∈ A, test (z.node id).val = true) (hB : ∀ id ∈ B, test (z.node id).val = false) :
    ∃ Q, Q <+: A ∧ (∀ id ∈ Q.getLast?, z.level ≤ z.height id) ∧
      z.walkLevel (fun _ => test) (z.level - 1) z.length (none, 0) = (Q.getLast?, Q.length) ∧
      z.descend (fun _ => test) (z.level - 1) (Q.getLast?, Q.length) 0 = (A.getLast?, A.length) := by
  have hpos := h.level_pos
  have hholds := holdsFor_of_split hA hB
  have hfuel : A.length ≤ z.length := by
    rw [h.length]
    simp
  obtain ⟨Q, hQ, -, hwalk⟩ := walkLevel_spec h rfl hholds (i := z.level - 1) (by omega)
    (List.nil_append A).symm (Nat.zero_le _) nofun hfuel
  obtain ⟨short, hAQ, hshort, hreach⟩ := hQ
  have hhigh : ∀ id ∈ Q.getLast?, z.level ≤ z.height id := fun id hid => by
    have := hreach id hid
    omega
  refine ⟨Q, ⟨short, hAQ.symm⟩, hhigh, hwalk, ?_⟩
  have hall : ∀ id ∈ A, id ∈ A ++ B := fun id hid => List.mem_append_left B hid
  cases hlevel : z.level - 1 with
  | zero =>
      rw [hlevel] at hshort
      obtain rfl := frontAt_zero h hall ⟨short, hAQ, hshort, fun id hid => hlevel ▸ hreach id hid⟩
      rfl
  | succ l =>
      have hle : l + 1 ≤ z.level := by omega
      obtain ⟨Q', hQ', -, hdescend⟩ := descend_spec h rfl hholds hle hAQ
        (Nat.zero_le _) (fun id hid => hle.trans (hhigh id hid))
        (Nat.succ_pos l)
      obtain rfl := frontAt_zero h hall hQ'
      exact hdescend

/-- The search from a place that has links at every level. -/
theorem descend_from_high {A B Q : List Nat} (h : Rep z (A ++ B)) {test : α → Bool}
    (hA : ∀ id ∈ A, test (z.node id).val = true) (hB : ∀ id ∈ B, test (z.node id).val = false)
    (hQ : Q <+: A) (hhigh : ∀ id ∈ Q.getLast?, z.level ≤ z.height id) :
    z.descend (fun _ => test) z.level (Q.getLast?, Q.length) 0 = (A.getLast?, A.length) := by
  obtain ⟨mid, hmid⟩ := hQ
  obtain ⟨Q', hQ', -, hdescend⟩ := descend_spec h rfl (holdsFor_of_split hA hB) (Nat.le_refl _) hmid.symm
    (Nat.zero_le _) hhigh h.level_pos
  obtain rfl := frontAt_zero h (fun id hid => List.mem_append_left B hid) hQ'
  exact hdescend

end Walk

/-! ## Places -/

section Places

variable {z : Skiplist α}

/-- Places in a list without repetitions are told apart by their nodes. -/
theorem prefix_eq_of_getLast? {L P Q : List Nat} (hL : L.Nodup) (hP : P <+: L) (hQ : Q <+: L)
    (h : P.getLast? = Q.getLast?) : P = Q := by
  obtain ⟨P', rfl⟩ := hP
  rcases List.eq_nil_or_concat' P with rfl | ⟨P₀, p, rfl⟩
  · rcases List.eq_nil_or_concat' Q with rfl | ⟨Q₀, q, rfl⟩
    · rfl
    · simp at h
  · rcases List.eq_nil_or_concat' Q with rfl | ⟨Q₀, q, rfl⟩
    · simp at h
    · obtain rfl : p = q := by simpa using h
      obtain ⟨Q', hQ'⟩ := hQ
      have hidx : ∀ {R S : List Nat}, (P₀ ++ [p] ++ P') = R ++ [p] ++ S →
          (P₀ ++ [p] ++ P').idxOf p = R.length := by
        intro R S heq
        rw [heq] at hL ⊢
        have hnot : p ∉ R := by
          rw [List.append_assoc, List.nodup_append] at hL
          exact fun hp => hL.2.2 p hp p (by simp) rfl
        rw [List.append_assoc, List.idxOf_append_of_notMem hnot]
        simp
      have hlen : P₀.length = Q₀.length := (hidx rfl).symm.trans (hidx hQ'.symm)
      rw [List.append_assoc, List.append_assoc] at hQ'
      have := (List.append_inj hQ' hlen.symm).1
      rw [this]

theorem FrontAt.isFront {A Q : List Nat} {i : Nat} (h : FrontAt z A i Q) : Q <+: A := by
  obtain ⟨short, rfl, -⟩ := h
  exact List.prefix_append Q short

/-- The place for a level is the only one. -/
theorem FrontAt.unique {A P Q : List Nat} {i : Nat} (hP : FrontAt z A i P) (hQ : FrontAt z A i Q) :
    P = Q := by
  obtain ⟨ps, hAP, hps, hrP⟩ := hP
  obtain ⟨qs, hAQ, hqs, hrQ⟩ := hQ
  -- the longer of the two ends with a tall node among the short ones of the other
  have hcase : ∀ {P Q ps qs cs : List Nat}, Q = P ++ cs → ps = cs ++ qs →
      (∀ id ∈ ps, z.height id ≤ i) → z.Reaches Q.getLast? i → P = Q := by
    intro P Q ps qs cs hQ hps hshort hreach
    rcases List.eq_nil_or_concat' cs with rfl | ⟨cs', c, rfl⟩
    · rw [hQ, List.append_nil]
    · have htall : i < z.height c := hreach c (by rw [hQ]; simp)
      have := hshort c (by rw [hps]; simp)
      omega
  rcases List.append_eq_append_iff.mp (hAP.symm.trans hAQ) with ⟨cs, hQ, hps'⟩ | ⟨cs, hP, hqs'⟩
  · exact hcase hQ hps' hps hrQ
  · exact (hcase hP hqs' hqs hrP).symm

end Places

/-! ## Inserting -/

section Insert

variable {z : Skiplist α}

@[simp] theorem link_withLinks (z : Skiplist α) (f : Cursor → Nat → Link) (x : Cursor) (i : Nat) :
    (z.withLinks f).link x i = f x i := by
  cases x <;> rfl

/-- The places and ranks that inserting works with, at every level. -/
structure Places (z : Skiplist α) (A : List Nat) (upd : Nat → Cursor) (rank : Nat → Nat) : Prop where
  at_level : ∀ i, ∃ Q, FrontAt z A i Q ∧ upd i = Q.getLast? ∧ rank i = Q.length
  rank_zero : rank 0 = A.length
  upd_zero : upd 0 = A.getLast?

theorem places_search {A B : List Nat} (h : Rep z (A ++ B)) {test : α → Bool}
    (hA : ∀ id ∈ A, test (z.node id).val = true) (hB : ∀ id ∈ B, test (z.node id).val = false) :
    Places z A (fun i => if i < z.level then (z.search test i).1 else none)
      (fun i => if i < z.level then (z.search test i).2 else 0) := by
  have hzero : ∃ Q, FrontAt z A 0 Q ∧ z.search test 0 = (Q.getLast?, Q.length) :=
    search_spec h hA hB h.level_pos
  obtain ⟨Q, hQ, hsearch⟩ := hzero
  obtain rfl := frontAt_zero h (fun id hid => List.mem_append_left B hid) hQ
  refine ⟨fun i => ?_, ?_, ?_⟩
  · by_cases hi : i < z.level
    · obtain ⟨Q, hQ, hsearch⟩ := search_spec h hA hB hi
      exact ⟨Q, hQ, by simp [hi, hsearch], by simp [hi, hsearch]⟩
    · refine ⟨[], ⟨_, (List.nil_append _).symm, fun id hid => ?_, nofun⟩, by simp [hi], by simp [hi]⟩
      have := h.height_le id (List.mem_append_left B hid)
      omega
  · simp [hsearch, Nat.lt_of_lt_of_le Nat.zero_lt_one h.level_pos]
  · simp [hsearch, Nat.lt_of_lt_of_le Nat.zero_lt_one h.level_pos]

/-- What a list part looks like from a level if a node in it has a link
there. -/
theorem nextIn_spanIn_append {ht : Nat → Nat} {i : Nat} {xs : List Nat}
    (h : ¬ ∀ id ∈ xs, ht id ≤ i) (ys ys' : List Nat) :
    nextIn ht i (xs ++ ys) = nextIn ht i (xs ++ ys') ∧
      spanIn ht i (xs ++ ys) = spanIn ht i (xs ++ ys') := by
  cases hn : nextIn ht i xs with
  | none => exact absurd (nextIn_eq_none.mp hn) h
  | some y =>
      obtain ⟨ms, zs, rfl, hms, hy⟩ := exists_of_nextIn hn
      simp only [List.append_assoc, List.cons_append, nextIn_append_short hms, nextIn_cons_tall hy,
        spanIn_tall hms hy, and_self]

/-- The links that inserting makes, at a place in the front part. -/
theorem insertLinks_front {A B pre m : List Nat} (h : Rep z (A ++ B)) {id : Nat}
    (hid : id ∉ A ++ B) {upd : Nat → Cursor} {rank : Nat → Nat} (hp : Places z A upd rank)
    (hA : A = pre ++ m) {i : Nat} (hr : z.Reaches pre.getLast? i) :
    (z.insertLinks id (z.height id) upd rank pre.getLast? i).forward =
        nextIn z.height i (m ++ id :: B) ∧
      (0 < i → i < max (z.height id) z.level →
        (z.insertLinks id (z.height id) upd rank pre.getLast? i).span =
          spanIn z.height i (m ++ id :: B)) := by
  obtain ⟨Q, hQ, hupd, hrank⟩ := hp.at_level i
  have hcut : A ++ B = pre ++ (m ++ B) := by rw [hA, List.append_assoc]
  have hforward := h.linked.forward pre (m ++ B) i hcut hr
  have hspan := h.linked.span pre (m ++ B) i hcut hr
  have hne : ¬ (pre.getLast? = some id ∧ i < z.height id) := by
    rintro ⟨heq, -⟩
    exact hid (by rw [hcut]; exact List.mem_append_left _ (List.mem_of_getLast? heq))
  rw [insertLinks, if_neg hne]
  by_cases hshort : ∀ x ∈ m, z.height x ≤ i
  · -- the place is the one behind which the node goes at this level
    obtain rfl := FrontAt.unique ⟨m, hA, hshort, hr⟩ hQ
    have hdiff : rank 0 - rank i = m.length := by
      rw [hp.rank_zero, hrank, hA, List.length_append]
      omega
    by_cases hi : i < z.height id
    · rw [if_pos ⟨hupd.symm, hi⟩, nextIn_append_short hshort, nextIn_cons_tall hi,
        spanIn_tall hshort hi, hdiff]
      exact ⟨rfl, fun _ _ => rfl⟩
    · have hid' : ∀ x ∈ [id], z.height x ≤ i := by simpa using hi
      have hnext : nextIn z.height i (m ++ id :: B) = nextIn z.height i (m ++ B) := by
        rw [nextIn_append_short hshort, nextIn_append_short hshort, ← List.singleton_append,
          nextIn_append_short hid']
      have hlonger : spanIn z.height i (m ++ id :: B) = spanIn z.height i (m ++ B) + 1 := by
        rw [spanIn_append_short hshort, spanIn_append_short hshort, ← List.singleton_append,
          spanIn_append_short hid', List.length_singleton]
        omega
      rw [if_neg fun hc => hi hc.2, hnext, hlonger]
      by_cases hlv : i < z.level
      · rw [if_pos ⟨hupd.symm, hlv⟩]
        exact ⟨hforward, fun hpos _ => by rw [hspan hpos hlv]⟩
      · rw [if_neg fun hc => hlv hc.2]
        exact ⟨hforward, fun _ hmax => by omega⟩
  · -- a node of the front part is before it
    have hother : pre.getLast? ≠ upd i := by
      intro heq
      have hprefix : pre <+: A := ⟨m, hA.symm⟩
      obtain rfl := prefix_eq_of_getLast? (List.Nodup.of_append_left h.nodup) hprefix hQ.isFront
        (heq.trans hupd)
      obtain ⟨short, hAQ, hs, -⟩ := hQ
      obtain rfl : m = short := List.append_cancel_left (hA.symm.trans hAQ)
      exact hshort hs
    obtain ⟨y, hy, htall⟩ : ∃ y ∈ m, i < z.height y := by simpa using hshort
    have hlv : i < z.level := by
      have := h.height_le y (by rw [hA]; simp [hy])
      omega
    obtain ⟨hnext, hsp⟩ := nextIn_spanIn_append hshort B (id :: B)
    rw [if_neg fun hc => hother hc.1, if_neg fun hc => hother hc.1, ← hnext, ← hsp]
    exact ⟨hforward, fun hpos _ => hspan hpos hlv⟩

/-- The links of the node that was inserted. -/
theorem insertLinks_self {A B : List Nat} (h : Rep z (A ++ B)) {id : Nat} {upd : Nat → Cursor}
    {rank : Nat → Nat} (hp : Places z A upd rank) {i : Nat} (hi : i < z.height id) :
    (z.insertLinks id (z.height id) upd rank (some id) i).forward = nextIn z.height i B ∧
      (0 < i → (z.insertLinks id (z.height id) upd rank (some id) i).span = spanIn z.height i B) := by
  obtain ⟨Q, hQ, hupd, hrank⟩ := hp.at_level i
  obtain ⟨short, hA, hshort, hr⟩ := hQ
  have hcut : A ++ B = Q ++ (short ++ B) := by rw [hA, List.append_assoc]
  have hdiff : rank 0 - rank i = short.length := by
    rw [hp.rank_zero, hrank, hA, List.length_append]
    omega
  rw [insertLinks, if_pos ⟨rfl, hi⟩, hupd, h.linked.forward Q (short ++ B) i hcut hr,
    nextIn_append_short hshort, hdiff]
  refine ⟨rfl, fun hpos => ?_⟩
  dsimp only
  split_ifs with hlv
  · -- a new level: nothing of the list has a link there
    have hAshort : ∀ x ∈ A, z.height x ≤ i := fun x hx =>
      (h.height_le x (List.mem_append_left B hx)).trans hlv
    have hB : ∀ x ∈ B, z.height x ≤ i := fun x hx =>
      (h.height_le x (List.mem_append_right A hx)).trans hlv
    obtain rfl : Q = [] := by
      refine FrontAt.unique ⟨short, hA, hshort, hr⟩ ⟨A, rfl, hAshort, nofun⟩
    rw [List.nil_append] at hA
    rw [h.length, spanIn_short hB, ← hA, List.length_append]
    omega
  · rw [h.linked.span Q (short ++ B) i hcut hr hpos (by omega), spanIn_append_short hshort]
    omega

/-- The links behind the node that was inserted. -/
theorem insertLinks_back {A B pre post : List Nat} (h : Rep z (A ++ B)) {id : Nat}
    (hid : id ∉ A ++ B) {upd : Nat → Cursor} {rank : Nat → Nat} (hp : Places z A upd rank)
    (hB : B = pre ++ post) (hne : pre ≠ []) {i : Nat} (hr : z.Reaches pre.getLast? i) :
    (z.insertLinks id (z.height id) upd rank pre.getLast? i).forward = nextIn z.height i post ∧
      (0 < i → (z.insertLinks id (z.height id) upd rank pre.getLast? i).span =
        spanIn z.height i post) := by
  obtain ⟨Q, hQ, hupd, hrank⟩ := hp.at_level i
  obtain ⟨x, hx⟩ : ∃ x, pre.getLast? = some x := ⟨_, List.getLast?_eq_some_getLast hne⟩
  have hxB : x ∈ B := by rw [hB]; exact List.mem_append_left post (List.mem_of_getLast? hx)
  have hcut : A ++ B = (A ++ pre) ++ post := by rw [hB, List.append_assoc]
  have hlast : (A ++ pre).getLast? = pre.getLast? := by rw [List.getLast?_append, hx]; rfl
  have hforward := h.linked.forward (A ++ pre) post i hcut (by rwa [hlast])
  have hspan := h.linked.span (A ++ pre) post i hcut (by rwa [hlast])
  rw [hlast] at hforward hspan
  have hself : ¬ (pre.getLast? = some id ∧ i < z.height id) := by
    rintro ⟨heq, -⟩
    obtain rfl := Option.some.inj (hx.symm.trans heq)
    exact hid (List.mem_append_right A hxB)
  have hother : pre.getLast? ≠ upd i := by
    intro heq
    have hxA : x ∈ A := by
      refine hQ.isFront.subset (List.mem_of_getLast? ?_)
      rw [← hupd, ← heq, hx]
    exact (List.nodup_append.mp h.nodup).2.2 x hxA x hxB rfl
  have hlv : i < z.level :=
    Nat.lt_of_lt_of_le (hr x hx) (h.height_le x (List.mem_append_right A hxB))
  rw [insertLinks, if_neg hself, if_neg fun hc => hother hc.1, if_neg fun hc => hother hc.1]
  exact ⟨hforward, fun hpos => hspan hpos hlv⟩

theorem link_insertNode (z : Skiplist α) (id : Nat) (test : α → Bool) (x : Cursor) (i : Nat) :
    (z.insertNode id test).link x i = z.insertLinks id (z.height id)
      (fun i => if i < z.level then (z.search test i).1 else none)
      (fun i => if i < z.level then (z.search test i).2 else 0) x i := by
  cases x with
  | none => rfl
  | some m =>
      simp only [link, insertNode]
      split_ifs <;> rfl

@[simp] theorem height_insertNode (z : Skiplist α) (id : Nat) (test : α → Bool) (m : Nat) :
    (z.insertNode id test).height m = z.height m := by
  simp only [height, insertNode]
  split_ifs <;> rfl

@[simp] theorem val_insertNode (z : Skiplist α) (id : Nat) (test : α → Bool) (m : Nat) :
    ((z.insertNode id test).node m).val = (z.node m).val := by
  simp only [insertNode]
  split_ifs <;> rfl

/-- Ways to cut a list with a node in the middle. -/
theorem cut_middle {A B pre post : List Nat} {id : Nat} (h : A ++ id :: B = pre ++ post) :
    (∃ m, A = pre ++ m ∧ post = m ++ id :: B) ∨ ∃ cs, pre = A ++ id :: cs ∧ B = cs ++ post := by
  rcases List.append_eq_append_iff.mp h with ⟨cs, hpre, hcs⟩ | ⟨cs, hA, hpost⟩
  · cases cs with
    | nil =>
        rw [List.append_nil] at hpre
        exact .inl ⟨[], by rw [hpre, List.append_nil], hcs.symm⟩
    | cons c cs =>
        obtain ⟨rfl, hB⟩ := List.cons.inj hcs
        exact .inr ⟨cs, hpre, hB⟩
  · exact .inl ⟨cs, hA, hpost⟩

theorem getLast?_append_cons (A cs : List Nat) (id : Nat) :
    (A ++ id :: cs).getLast? = some (cs.getLast?.getD id) := by
  rw [List.getLast?_append]
  cases cs <;> simp [List.getLast?_cons]

/-- The links that inserting makes are those of the longer list. -/
theorem insertLinks_spec {A B : List Nat} (h : Rep z (A ++ B)) {id : Nat} (hid : id ∉ A ++ B)
    {upd : Nat → Cursor} {rank : Nat → Nat} (hp : Places z A upd rank) {pre post : List Nat}
    {i : Nat} (hcut : A ++ id :: B = pre ++ post) (hr : z.Reaches pre.getLast? i) :
    (z.insertLinks id (z.height id) upd rank pre.getLast? i).forward = nextIn z.height i post ∧
      (0 < i → i < max (z.height id) z.level →
        (z.insertLinks id (z.height id) upd rank pre.getLast? i).span = spanIn z.height i post) := by
  rcases cut_middle hcut with ⟨m, hA, rfl⟩ | ⟨cs, rfl, hB⟩
  · exact insertLinks_front h hid hp hA hr
  · rw [getLast?_append_cons] at hr ⊢
    rcases List.eq_nil_or_concat' cs with rfl | ⟨cs', c, rfl⟩
    · rw [List.nil_append] at hB
      obtain ⟨hf, hs⟩ := insertLinks_self h hp (hr id rfl)
      rw [← hB]
      exact ⟨hf, fun hpos _ => hs hpos⟩
    · have hlast : (cs' ++ [c]).getLast? = some ((cs' ++ [c]).getLast?.getD id) := by simp
      rw [← hlast] at hr ⊢
      obtain ⟨hf, hs⟩ := insertLinks_back h hid hp hB (by simp) hr
      exact ⟨hf, fun hpos _ => hs hpos⟩

/-- The node behind a place, at level 0. -/
theorem Rep.next_eq {A B : List Nat} (h : Rep z (A ++ B)) :
    (z.link A.getLast? 0).forward = B.head? := by
  rw [h.linked.forward A B 0 rfl fun a ha =>
    h.height_pos a (List.mem_append_left B (List.mem_of_getLast? ha))]
  cases B with
  | nil => rfl
  | cons b bs => exact nextIn_cons_tall (h.height_pos b (by simp))

/-- **Inserting** a node puts it where the test stops holding. -/
theorem rep_insertNode {A B : List Nat} (h : Rep z (A ++ B)) {id : Nat} (hid : id ∉ A ++ B)
    (hpos : 1 ≤ z.height id) (hfresh : id < z.fresh) {test : α → Bool}
    (hA : ∀ a ∈ A, test (z.node a).val = true) (hB : ∀ b ∈ B, test (z.node b).val = false) :
    Rep (z.insertNode id test) (A ++ id :: B) := by
  have hp := places_search h hA hB
  have hheight : (z.insertNode id test).height = z.height := funext (z.height_insertNode id test)
  have hlevel : (z.insertNode id test).level = max (z.height id) z.level := rfl
  have hmem : ∀ m ∈ A ++ id :: B, m = id ∨ m ∈ A ++ B := by
    intro m hm
    simp only [List.mem_append, List.mem_cons] at hm ⊢
    tauto
  have hupd : (if 0 < z.level then (z.search test 0).1 else none) = A.getLast? := hp.upd_zero
  have hback : ∀ m, ((z.insertNode id test).node m).backward =
      if m = id then A.getLast? else if some m = B.head? then some id else (z.node m).backward := by
    intro m
    simp only [insertNode, hupd, h.next_eq]
    split_ifs <;> rfl
  have hnodup : (A ++ id :: B).Nodup := List.nodup_middle.mpr (List.nodup_cons.mpr ⟨hid, h.nodup⟩)
  refine ⟨hnodup, ?_, ?_, ?_, ?_, ⟨?_, ?_⟩, ?_, ?_, ?_⟩
  · change z.length + 1 = _
    rw [h.length, List.length_append, List.length_append, List.length_cons]
    omega
  · rw [hlevel]
    omega
  · intro m hm
    rw [height_insertNode]
    rcases hmem m hm with rfl | hm'
    · exact hpos
    · exact h.height_pos m hm'
  · intro m hm
    rw [height_insertNode, hlevel]
    rcases hmem m hm with rfl | hm'
    · omega
    · have := h.height_le m hm'
      omega
  · intro pre post i hcut hr
    rw [Reaches, hheight] at hr
    rw [link_insertNode, hheight]
    exact (insertLinks_spec h hid hp hcut hr).1
  · intro pre post i hcut hr hpos' hi
    rw [Reaches, hheight] at hr
    rw [link_insertNode, hheight]
    exact (insertLinks_spec h hid hp hcut hr).2 hpos' hi
  · intro pre m post hcut
    rw [hback]
    rcases cut_middle hcut with ⟨ms, hAcut, hpost⟩ | ⟨cs, rfl, hBcut⟩
    · cases ms with
      | nil =>
          obtain ⟨rfl, -⟩ := List.cons.inj hpost
          rw [if_pos rfl, hAcut, List.append_nil]
      | cons c ms =>
          -- a node of the front part keeps its predecessor
          obtain ⟨rfl, -⟩ := List.cons.inj hpost
          have hmA : m ∈ A := by rw [hAcut]; simp
          have hmB : m ∉ B := fun hmB => (List.nodup_append.mp h.nodup).2.2 m hmA m hmB rfl
          have hne : m ≠ id := fun heq => hid (heq ▸ List.mem_append_left B hmA)
          rw [if_neg hne, if_neg fun heq => hmB (List.mem_of_head? heq.symm)]
          exact h.backward pre m (ms ++ B) (by rw [hAcut]; simp)
    · have hmB : m ∈ B := by rw [hBcut]; simp
      have hne : m ≠ id := fun heq => hid (heq ▸ List.mem_append_right A hmB)
      rw [if_neg hne]
      cases cs with
      | nil =>
          rw [hBcut, List.nil_append, List.head?_cons, if_pos rfl]
          simp
      | cons c cs =>
          have hhead : some m ≠ B.head? := by
            rw [hBcut, List.cons_append, List.head?_cons]
            intro heq
            obtain rfl := Option.some.inj heq
            have hnd := (List.nodup_append.mp h.nodup).2.1
            rw [hBcut] at hnd
            exact (List.nodup_cons.mp hnd).1 (by simp)
          rw [if_neg hhead, h.backward (A ++ c :: cs) m post (by rw [hBcut]; simp)]
          simp [List.getLast?_append, List.getLast?_cons]
  · have htail : (z.insertNode id test).tail =
        if B.head?.isSome then (A ++ B).getLast? else some id := by
      simp only [insertNode, hupd, h.next_eq, h.tail]
    rw [htail]
    cases B with
    | nil => simp
    | cons b bs => simp [List.getLast?_append, List.getLast?_cons]
  · intro m hm
    rcases hmem m hm with rfl | hm'
    · exact hfresh
    · exact h.fresh m hm'

end Insert

/-! ## Changes beside the links -/

section Frame

variable {z z' : Skiplist α} {L : List Nat}

theorem nextIn_congr {ht ht' : Nat → Nat} {i : Nat} {xs : List Nat} (h : ∀ id ∈ xs, ht id = ht' id) :
    nextIn ht i xs = nextIn ht' i xs := by
  induction xs with
  | nil => rfl
  | cons x xs ih =>
      have hxs := ih fun id hid => h id (List.mem_cons_of_mem x hid)
      simp only [nextIn] at hxs ⊢
      rw [List.find?_cons, List.find?_cons, h x List.mem_cons_self, hxs]

theorem spanIn_congr {ht ht' : Nat → Nat} {i : Nat} {xs : List Nat} (h : ∀ id ∈ xs, ht id = ht' id) :
    spanIn ht i xs = spanIn ht' i xs := by
  have hidx : xs.findIdx (fun id => decide (i < ht id)) = xs.findIdx fun id => decide (i < ht' id) := by
    induction xs with
    | nil => rfl
    | cons x xs ih =>
        rw [List.findIdx_cons, List.findIdx_cons, h x List.mem_cons_self,
          ih fun id hid => h id (List.mem_cons_of_mem x hid)]
  rw [spanIn, spanIn, hidx]

/-- What is not a link of the list may change. -/
theorem Rep.congr (h : Rep z L) (hheader : z'.header = z.header) (htail : z'.tail = z.tail)
    (hlength : z'.length = z.length) (hlevel : z'.level = z.level) (hfresh : z.fresh ≤ z'.fresh)
    (hnode : ∀ id ∈ L, (z'.node id).levels = (z.node id).levels ∧
      (z'.node id).level = (z.node id).level ∧ (z'.node id).backward = (z.node id).backward) :
    Rep z' L := by
  have hheight : ∀ id ∈ L, z'.height id = z.height id := fun id hid => (hnode id hid).1
  have hlink : ∀ pre post i, L = pre ++ post → z'.link pre.getLast? i = z.link pre.getLast? i := by
    intro pre post i hL
    cases hx : pre.getLast? with
    | none => rw [link, link, hheader]
    | some x =>
        have hxL : x ∈ L := by rw [hL]; exact List.mem_append_left post (List.mem_of_getLast? hx)
        rw [link, link, (hnode x hxL).2.1]
  have hreach : ∀ pre post i, L = pre ++ post → z'.Reaches pre.getLast? i →
      z.Reaches pre.getLast? i := by
    intro pre post i hL hr id hid
    have hidL : id ∈ L := by rw [hL]; exact List.mem_append_left post (List.mem_of_getLast? hid)
    rw [← hheight id hidL]
    exact hr id hid
  have hpost : ∀ pre post : List Nat, L = pre ++ post → ∀ id ∈ post, z'.height id = z.height id :=
    fun pre post hL id hid => hheight id (hL ▸ List.mem_append_right pre hid)
  refine ⟨h.nodup, hlength.trans h.length, hlevel ▸ h.level_pos, ?_, ?_, ⟨?_, ?_⟩, ?_, ?_, ?_⟩
  · intro id hid
    rw [hheight id hid]
    exact h.height_pos id hid
  · intro id hid
    rw [hheight id hid, hlevel]
    exact h.height_le id hid
  · intro pre post i hL hr
    rw [hlink pre post i hL, nextIn_congr (hpost pre post hL)]
    exact h.linked.forward pre post i hL (hreach pre post i hL hr)
  · intro pre post i hL hr hpos hi
    rw [hlink pre post i hL, spanIn_congr (hpost pre post hL)]
    exact h.linked.span pre post i hL (hreach pre post i hL hr) hpos (hlevel ▸ hi)
  · intro pre id post hL
    rw [(hnode id (by rw [hL]; simp)).2.2]
    exact h.backward pre id post hL
  · rw [htail, h.tail]
  · intro id hid
    exact Nat.lt_of_lt_of_le (h.fresh id hid) hfresh

theorem rep_create [Inhabited α] : Rep (create : Skiplist α) [] where
  nodup := List.nodup_nil
  length := rfl
  level_pos := Nat.le_refl 1
  height_pos := nofun
  height_le := nofun
  linked := by
    constructor
    · intro pre post i hL _
      obtain ⟨rfl, rfl⟩ := List.append_eq_nil_iff.mp hL.symm
      rfl
    · intro pre post i _ _ hpos hi
      have : i < 1 := hi
      omega
  backward pre id post hL := by simp at hL
  tail := rfl
  fresh := nofun

theorem rep_allocNode (h : Rep z L) (levels : Nat) (val : α) : Rep (z.allocNode levels val) L := by
  refine h.congr rfl rfl rfl rfl (Nat.le_succ _) fun id hid => ?_
  have hne : id ≠ z.fresh := Nat.ne_of_lt (h.fresh id hid)
  simp [allocNode, hne]

theorem node_allocNode_of_ne {id : Nat} (h : id ≠ z.fresh) (levels : Nat) (val : α) :
    (z.allocNode levels val).node id = z.node id := if_neg h

@[simp] theorem node_allocNode_fresh (levels : Nat) (val : α) :
    (z.allocNode levels val).node z.fresh = ⟨val, none, levels, fun _ => ⟨none, 0⟩⟩ := if_pos rfl

/-- **Allocating and inserting.** -/
theorem rep_insert {A B : List Nat} (h : Rep z (A ++ B)) {levels : Nat} (hpos : 1 ≤ levels) (val : α)
    {test : α → Bool} (hA : ∀ a ∈ A, test (z.node a).val = true)
    (hB : ∀ b ∈ B, test (z.node b).val = false) :
    Rep (z.insert levels val test) (A ++ z.fresh :: B) := by
  have hne : ∀ id ∈ A ++ B, id ≠ z.fresh := fun id hid => Nat.ne_of_lt (h.fresh id hid)
  refine rep_insertNode (rep_allocNode h levels val) (fun hin => hne z.fresh hin rfl) ?_
    (Nat.lt_succ_self z.fresh) ?_ ?_
  · rw [height, node_allocNode_fresh]
    exact hpos
  · intro a ha
    rw [node_allocNode_of_ne (hne a (List.mem_append_left B ha))]
    exact hA a ha
  · intro b hb
    rw [node_allocNode_of_ne (hne b (List.mem_append_right A hb))]
    exact hB b hb

theorem val_insert_fresh (z : Skiplist α) (levels : Nat) (val : α) (test : α → Bool) :
    ((z.insert levels val test).node z.fresh).val = val := by
  rw [insert, val_insertNode, node_allocNode_fresh]

theorem val_insert_of_ne {id : Nat} (h : id ≠ z.fresh) (levels : Nat) (val : α) (test : α → Bool) :
    ((z.insert levels val test).node id).val = (z.node id).val := by
  rw [insert, val_insertNode, node_allocNode_of_ne h]

@[simp] theorem height_setVal (z : Skiplist α) (id : Nat) (val : α) (m : Nat) :
    (z.setVal id val).height m = z.height m := by
  simp only [height, setVal]
  split_ifs <;> rfl

@[simp] theorem val_setVal_self (z : Skiplist α) (id : Nat) (val : α) :
    ((z.setVal id val).node id).val = val := by
  simp [setVal]

theorem val_setVal_of_ne {id m : Nat} (h : m ≠ id) (val : α) :
    ((z.setVal id val).node m).val = (z.node m).val := by
  simp [setVal, h]

theorem rep_setVal (h : Rep z L) (id : Nat) (val : α) : Rep (z.setVal id val) L := by
  refine h.congr rfl rfl rfl rfl (Nat.le_refl _) fun m _ => ?_
  simp only [setVal]
  split_ifs <;> exact ⟨rfl, rfl, rfl⟩

end Frame

/-! ## Unlinking -/

section Unlink

variable {z : Skiplist α}

/-- The links that unlinking leaves, at a place in the front part. -/
theorem unlinkLinks_front {A B pre m : List Nat} {id : Nat} (h : Rep z (A ++ id :: B))
    {upd : Nat → Cursor} (hp : ∀ i < z.level, ∃ Q, FrontAt z A i Q ∧ upd i = Q.getLast?)
    (hA : A = pre ++ m) {i : Nat} (hr : z.Reaches pre.getLast? i) :
    (z.unlinkLinks id upd pre.getLast? i).forward = nextIn z.height i (m ++ B) ∧
      (0 < i → i < z.level →
        (z.unlinkLinks id upd pre.getLast? i).span = spanIn z.height i (m ++ B)) := by
  have hcut : A ++ id :: B = pre ++ (m ++ id :: B) := by rw [hA, List.append_assoc]
  have hcut' : A ++ id :: B = (A ++ [id]) ++ B := by simp
  have hforward := h.linked.forward pre (m ++ id :: B) i hcut hr
  have hspan := h.linked.span pre (m ++ id :: B) i hcut hr
  have hid : id ∉ m ++ B := by
    have hnd := h.nodup
    rw [hcut, ← List.append_assoc] at hnd
    have := (List.nodup_cons.mp (List.nodup_middle.mp hnd)).1
    intro hin
    rcases List.mem_append.mp hin with hin | hin
    · exact this (by simp [hin])
    · exact this (by simp [hin])
  rw [unlinkLinks]
  by_cases hshort : ∀ x ∈ m, z.height x ≤ i
  · by_cases hlv : i < z.level
    · obtain ⟨Q, hQ, hupd⟩ := hp i hlv
      obtain rfl := FrontAt.unique ⟨m, hA, hshort, hr⟩ hQ
      rw [if_pos ⟨hupd.symm, hlv⟩, hforward, nextIn_append_short hshort]
      by_cases hi : i < z.height id
      · -- the link to the node is taken over from it
        have hlast : (A ++ [id]).getLast? = some id := by simp
        have hreach : z.Reaches (A ++ [id]).getLast? i := by
          rw [hlast]
          rintro x ⟨⟩
          exact hi
        have hself := h.linked.forward (A ++ [id]) B i hcut' hreach
        have hselfspan := h.linked.span (A ++ [id]) B i hcut' hreach
        rw [hlast] at hself hselfspan
        rw [if_pos (nextIn_cons_tall hi), hself, nextIn_append_short hshort]
        refine ⟨rfl, fun hpos _ => ?_⟩
        dsimp only
        rw [hspan hpos hlv, hselfspan hpos hlv, spanIn_tall hshort hi, spanIn_append_short hshort]
        omega
      · -- the link passes over the node
        have hid' : ∀ x ∈ [id], z.height x ≤ i := by simpa using hi
        have hnext : nextIn z.height i (id :: B) = nextIn z.height i B := by
          rw [← List.singleton_append, nextIn_append_short hid']
        have hother : nextIn z.height i (id :: B) ≠ some id := by
          rw [hnext]
          intro heq
          exact hid (List.mem_append_right m (List.mem_of_find?_eq_some heq))
        rw [if_neg hother, nextIn_append_short hshort, hforward, nextIn_append_short hshort, hnext]
        refine ⟨rfl, fun hpos _ => ?_⟩
        dsimp only
        rw [hspan hpos hlv, spanIn_append_short hshort, spanIn_append_short hshort,
          ← List.singleton_append, spanIn_append_short hid', List.length_singleton]
        omega
    · rw [if_neg fun hc => hlv hc.2, hforward]
      have hall : ∀ x ∈ m ++ id :: B, z.height x ≤ i := fun x hx =>
        (h.height_le x (hcut ▸ List.mem_append_right pre hx)).trans (Nat.le_of_not_lt hlv)
      have hall' : ∀ x ∈ m ++ B, z.height x ≤ i := fun x hx => hall x (by
        rcases List.mem_append.mp hx with hin | hin <;> simp [hin])
      rw [nextIn_eq_none.mpr hall, nextIn_eq_none.mpr hall']
      exact ⟨rfl, fun _ hlv' => absurd hlv' hlv⟩
  · obtain ⟨y, hy, htall⟩ : ∃ y ∈ m, i < z.height y := by simpa using hshort
    have hlv : i < z.level := by
      have := h.height_le y (by rw [hA]; simp [hy])
      omega
    obtain ⟨Q, hQ, hupd⟩ := hp i hlv
    have hother : pre.getLast? ≠ upd i := by
      intro heq
      have hprefix : pre <+: A := ⟨m, hA.symm⟩
      obtain rfl := prefix_eq_of_getLast? (List.Nodup.of_append_left h.nodup) hprefix hQ.isFront
        (heq.trans hupd)
      obtain ⟨short, hAQ, hs, -⟩ := hQ
      obtain rfl : m = short := List.append_cancel_left (hA.symm.trans hAQ)
      exact hshort hs
    obtain ⟨hnext, hsp⟩ := nextIn_spanIn_append hshort (id :: B) B
    rw [if_neg fun hc => hother hc.1, ← hnext, ← hsp]
    exact ⟨hforward, fun hpos hlv' => hspan hpos hlv'⟩

/-- The links behind the node that is unlinked. -/
theorem unlinkLinks_back {A B pre post : List Nat} {id : Nat} (h : Rep z (A ++ id :: B))
    {upd : Nat → Cursor} (hp : ∀ i < z.level, ∃ Q, FrontAt z A i Q ∧ upd i = Q.getLast?)
    (hB : B = pre ++ post) (hne : pre ≠ []) {i : Nat} (hr : z.Reaches pre.getLast? i) :
    (z.unlinkLinks id upd pre.getLast? i).forward = nextIn z.height i post ∧
      (0 < i → i < z.level →
        (z.unlinkLinks id upd pre.getLast? i).span = spanIn z.height i post) := by
  obtain ⟨x, hx⟩ : ∃ x, pre.getLast? = some x := ⟨_, List.getLast?_eq_some_getLast hne⟩
  have hxB : x ∈ B := by rw [hB]; exact List.mem_append_left post (List.mem_of_getLast? hx)
  have hcut : A ++ id :: B = (A ++ id :: pre) ++ post := by rw [hB]; simp
  have hlast : (A ++ id :: pre).getLast? = pre.getLast? := by
    rw [getLast?_append_cons, hx]
    rfl
  have hforward := h.linked.forward _ post i hcut (by rwa [hlast])
  have hspan := h.linked.span _ post i hcut (by rwa [hlast])
  rw [hlast] at hforward hspan
  have hlv : i < z.level := Nat.lt_of_lt_of_le (hr x hx) (h.height_le x (by simp [hxB]))
  obtain ⟨Q, hQ, hupd⟩ := hp i hlv
  have hother : pre.getLast? ≠ upd i := by
    intro heq
    have hxA : x ∈ A := by
      refine hQ.isFront.subset (List.mem_of_getLast? ?_)
      rw [← hupd, ← heq, hx]
    exact (List.nodup_append.mp h.nodup).2.2 x hxA x (List.mem_cons_of_mem id hxB) rfl
  rw [unlinkLinks, if_neg fun hc => hother hc.1]
  exact ⟨hforward, hspan⟩

theorem unlinkLinks_spec {A B : List Nat} {id : Nat} (h : Rep z (A ++ id :: B))
    {upd : Nat → Cursor} (hp : ∀ i < z.level, ∃ Q, FrontAt z A i Q ∧ upd i = Q.getLast?)
    {pre post : List Nat} {i : Nat} (hcut : A ++ B = pre ++ post) (hr : z.Reaches pre.getLast? i) :
    (z.unlinkLinks id upd pre.getLast? i).forward = nextIn z.height i post ∧
      (0 < i → i < z.level →
        (z.unlinkLinks id upd pre.getLast? i).span = spanIn z.height i post) := by
  rcases List.append_eq_append_iff.mp hcut with ⟨cs, rfl, hB⟩ | ⟨m, hA, rfl⟩
  · rcases List.eq_nil_or_concat' cs with rfl | ⟨cs', c, rfl⟩
    · rw [List.append_nil] at hr ⊢
      rw [List.nil_append] at hB
      rw [← hB]
      exact unlinkLinks_front h hp (List.append_nil A).symm hr
    · have hlast : (A ++ (cs' ++ [c])).getLast? = (cs' ++ [c]).getLast? := by simp
      rw [hlast] at hr ⊢
      exact unlinkLinks_back h hp hB (by simp) hr
  · exact unlinkLinks_front h hp hA hr

theorem shrunkLevel_spec (header : Nat → Link) {l : Nat} (hl : 1 ≤ l) :
    1 ≤ shrunkLevel header l ∧ shrunkLevel header l ≤ l ∧
      (shrunkLevel header l < l → (header (shrunkLevel header l)).forward = none) := by
  induction l with
  | zero => omega
  | succ l ih =>
      cases l with
      | zero => simp [shrunkLevel]
      | succ l =>
          rw [shrunkLevel]
          split_ifs with htop
          · obtain ⟨hpos, hle, hnone⟩ := ih (by omega)
            refine ⟨hpos, by omega, fun hlt => ?_⟩
            by_cases hlt' : shrunkLevel header (l + 1) < l + 1
            · exact hnone hlt'
            · rw [show shrunkLevel header (l + 1) = l + 1 by omega]
              exact htop
          · exact ⟨by omega, Nat.le_refl _, fun hlt => absurd hlt (Nat.lt_irrefl _)⟩

/-- The level that unlinking leaves. -/
def levelAfter (z : Skiplist α) (id : Nat) (upd : Nat → Cursor) : Nat :=
  shrunkLevel (z.unlinkLinks id upd none) z.level

theorem link_unlinkNode (z : Skiplist α) (id : Nat) (upd : Nat → Cursor) (x : Cursor) (i : Nat) :
    ((z.unlinkNode id upd).link x i).forward = (z.unlinkLinks id upd x i).forward ∧
      (i < z.levelAfter id upd →
        ((z.unlinkNode id upd).link x i).span = (z.unlinkLinks id upd x i).span) := by
  have hlink : (z.unlinkNode id upd).link x i =
      if x = none ∧ z.levelAfter id upd ≤ i ∧ i < z.level then
        { z.unlinkLinks id upd x i with span := 0 } else z.unlinkLinks id upd x i := by
    cases x with
    | none => rfl
    | some m =>
        simp only [link, unlinkNode]
        split_ifs <;> simp_all [withLinks]
  rw [hlink]
  refine ⟨?_, fun hi => ?_⟩
  · split_ifs <;> rfl
  · rw [if_neg fun hc => by omega]

@[simp] theorem height_unlinkNode (z : Skiplist α) (id : Nat) (upd : Nat → Cursor) (m : Nat) :
    (z.unlinkNode id upd).height m = z.height m := by
  simp only [height, unlinkNode]
  split_ifs <;> rfl

@[simp] theorem val_unlinkNode (z : Skiplist α) (id : Nat) (upd : Nat → Cursor) (m : Nat) :
    ((z.unlinkNode id upd).node m).val = (z.node m).val := by
  simp only [unlinkNode]
  split_ifs <;> rfl

/-- **Unlinking** a node takes it out of the list. -/
theorem rep_unlinkNode {A B : List Nat} {id : Nat} (h : Rep z (A ++ id :: B)) {upd : Nat → Cursor}
    (hp : ∀ i < z.level, ∃ Q, FrontAt z A i Q ∧ upd i = Q.getLast?) :
    Rep (z.unlinkNode id upd) (A ++ B) := by
  have hheight : (z.unlinkNode id upd).height = z.height := funext (z.height_unlinkNode id upd)
  have hlevel : (z.unlinkNode id upd).level = z.levelAfter id upd := rfl
  obtain ⟨hlpos, hlle, hltop⟩ := shrunkLevel_spec (z.unlinkLinks id upd none) h.level_pos
  change 1 ≤ z.levelAfter id upd at hlpos
  change z.levelAfter id upd ≤ z.level at hlle
  have hmem : ∀ m ∈ A ++ B, m ∈ A ++ id :: B := by
    intro m hm
    simp only [List.mem_append, List.mem_cons] at hm ⊢
    tauto
  have hnodup : (A ++ B).Nodup := (List.nodup_cons.mp (List.nodup_middle.mp h.nodup)).2
  have hnext : (z.link (some id) 0).forward = B.head? := by
    have heq := (show Rep z ((A ++ [id]) ++ B) by simpa using h).next_eq
    simpa using heq
  have hbackid : (z.node id).backward = A.getLast? := h.backward A id B rfl
  have hback : ∀ m, ((z.unlinkNode id upd).node m).backward =
      if some m = B.head? then A.getLast? else (z.node m).backward := by
    intro m
    simp only [unlinkNode, hnext, hbackid]
    split_ifs <;> rfl
  refine ⟨hnodup, ?_, ?_, ?_, ?_, ⟨?_, ?_⟩, ?_, ?_, ?_⟩
  · change z.length - 1 = _
    rw [h.length, List.length_append, List.length_append, List.length_cons]
    omega
  · exact hlpos
  · intro m hm
    rw [height_unlinkNode]
    exact h.height_pos m (hmem m hm)
  · intro m hm
    rw [height_unlinkNode, hlevel]
    by_cases hlt : z.levelAfter id upd < z.level
    · -- the header has no link at the first level that was dropped
      have hnone := hltop hlt
      have hhead : (z.unlinkLinks id upd none (z.levelAfter id upd)).forward
          = nextIn z.height (z.levelAfter id upd) (A ++ B) :=
        (unlinkLinks_spec h hp (List.nil_append (A ++ B)).symm fun k hk => nomatch hk).1
      exact nextIn_eq_none.mp (hhead.symm.trans hnone) m hm
    · have := h.height_le m (hmem m hm)
      omega
  · intro pre post i hcut hr
    rw [Reaches, hheight] at hr
    rw [(z.link_unlinkNode id upd _ i).1, hheight]
    exact (unlinkLinks_spec h hp hcut hr).1
  · intro pre post i hcut hr hpos hi
    rw [Reaches, hheight] at hr
    rw [(z.link_unlinkNode id upd _ i).2 hi, hheight]
    exact (unlinkLinks_spec h hp hcut hr).2 hpos (Nat.lt_of_lt_of_le hi hlle)
  · intro pre m post hcut
    rw [hback]
    rcases List.append_eq_append_iff.mp hcut with ⟨cs, rfl, hB⟩ | ⟨ms, hA, hpost⟩
    · cases cs with
      | nil =>
          rw [hB, List.nil_append, List.head?_cons, if_pos rfl, List.append_nil]
      | cons c cs =>
          have hhead : some m ≠ B.head? := by
            rw [hB, List.cons_append, List.head?_cons]
            intro heq
            obtain rfl := Option.some.inj heq
            have hnd := (List.nodup_append.mp hnodup).2.1
            rw [hB] at hnd
            exact (List.nodup_cons.mp hnd).1 (by simp)
          rw [if_neg hhead, h.backward (A ++ id :: c :: cs) m post (by rw [hB]; simp)]
          simp [List.getLast?_append, List.getLast?_cons]
    · cases ms with
      | nil =>
          rw [List.nil_append] at hpost
          rw [← hpost, List.head?_cons, if_pos rfl, hA, List.append_nil]
      | cons c ms =>
          obtain ⟨rfl, -⟩ := List.cons.inj hpost
          have hmA : m ∈ A := by rw [hA]; simp
          have hmB : m ∉ B := fun hmB => (List.nodup_append.mp hnodup).2.2 m hmA m hmB rfl
          rw [if_neg fun heq => hmB (List.mem_of_head? heq.symm)]
          exact h.backward pre m (ms ++ id :: B) (by rw [hA]; simp)
  · have htail : (z.unlinkNode id upd).tail =
        if B.head?.isSome then (A ++ id :: B).getLast? else A.getLast? := by
      simp only [unlinkNode, hnext, h.tail, hbackid]
    rw [htail]
    cases B with
    | nil => simp
    | cons b bs => simp [List.getLast?_append, List.getLast?_cons]
  · intro m hm
    exact h.fresh m (hmem m hm)

/-- **Searching for a node and unlinking it.** -/
theorem rep_delete {A B : List Nat} {id : Nat} (h : Rep z (A ++ id :: B)) {test : α → Bool}
    (hA : ∀ a ∈ A, test (z.node a).val = true)
    (hB : ∀ b ∈ id :: B, test (z.node b).val = false) : Rep (z.delete id test) (A ++ B) := by
  refine rep_unlinkNode h fun i hi => ?_
  obtain ⟨Q, hQ, hsearch⟩ := search_spec h hA hB hi
  exact ⟨Q, hQ, by rw [hsearch]⟩

@[simp] theorem height_delete (z : Skiplist α) (id : Nat) (test : α → Bool) (m : Nat) :
    (z.delete id test).height m = z.height m := height_unlinkNode z id _ m

@[simp] theorem val_delete (z : Skiplist α) (id : Nat) (test : α → Bool) (m : Nat) :
    ((z.delete id test).node m).val = (z.node m).val := val_unlinkNode z id _ m

end Unlink

/-! ## Ranks and steps -/

section Ranks

variable {z : Skiplist α} {L : List Nat}

theorem Rep.reaches_top (h : Rep z L) {id : Nat} (hid : id ∈ L) :
    z.Reaches (some id) (z.height id - 1) := by
  rintro x ⟨⟩
  have := h.height_pos id hid
  omega

theorem distanceToEnd_eq (h : Rep z L) {pre post : List Nat} {id : Nat} (hL : L = pre ++ id :: post)
    {fuel : Nat} (hfuel : post.length < fuel) : z.distanceToEnd fuel (some id) = post.length := by
  induction fuel generalizing pre id post with
  | zero => omega
  | succ fuel ih =>
      have hmem : id ∈ L := by rw [hL]; simp
      have hcut : L = (pre ++ [id]) ++ post := by rw [hL]; simp
      have hlast : (pre ++ [id]).getLast? = some id := by simp
      have hr := h.reaches_top hmem
      rw [← hlast] at hr
      have hlv : z.height id - 1 < z.level := by
        have := h.height_le id hmem
        have := h.height_pos id hmem
        omega
      have hspan := h.spanAt_eq hcut hr hlv
      have hforward := h.linked.forward _ post _ hcut hr
      rw [hlast] at hspan hforward
      rw [distanceToEnd]
      change z.spanAt (some id) (z.height id - 1) +
        z.distanceToEnd fuel (z.link (some id) (z.height id - 1)).forward = _
      rw [hspan, hforward]
      cases hnext : nextIn z.height (z.height id - 1) post with
      | none =>
          rw [spanIn_short (nextIn_eq_none.mp hnext)]
          cases fuel <;> rfl
      | some y =>
          obtain ⟨ms, ys, rfl, hms, hy⟩ := exists_of_nextIn hnext
          rw [spanIn_tall hms hy, ih
            (show L = (pre ++ id :: ms) ++ y :: ys by rw [hL]; simp) (by simp at hfuel; omega)]
          simp
          omega

/-- **The rank of a node** from the spans behind it. -/
theorem rankByNode_spec (h : Rep z L) {pre post : List Nat} {id : Nat} (hL : L = pre ++ id :: post) :
    z.rankByNode id = pre.length + 1 := by
  have hlen : z.length = pre.length + (post.length + 1) := by rw [h.length, hL]; simp
  rw [rankByNode, distanceToEnd_eq h hL (by omega)]
  omega

/-- **The node at a rank**, counted from a place that has a link at the level
the search starts at. -/
theorem elementByRankFrom_spec (h : Rep z L) {start mid rest : List Nat}
    (hL : L = (start ++ mid) ++ rest) {lvl : Nat} (hlvl : lvl ≤ z.level) (hpos : 0 < lvl)
    (hr : ∀ id ∈ start.getLast?, lvl ≤ z.height id) :
    z.elementByRankFrom lvl (start.getLast?, 0) mid.length = some (start ++ mid).getLast? := by
  have hadv : HoldsFor z L (start ++ mid) start.length fun r _ => decide (r ≤ mid.length) := by
    intro pre y post _ hbase
    rw [decide_eq_true_eq, List.length_append]
    omega
  -- stop as soon as the rank is reached, which is at level 0 at the latest
  have key : ∀ l ≤ z.level, 0 < l → ∀ pre m, start ++ mid = pre ++ m → start.length ≤ pre.length →
      (∀ id ∈ pre.getLast?, l ≤ z.height id) →
      z.elementByRankFrom l (pre.getLast?, pre.length - start.length) mid.length =
        some (start ++ mid).getLast? := by
    intro l
    induction l with
    | zero => omega
    | succ l ih =>
        intro hl _ pre m hA hbase hreach
        have hfuel : m.length ≤ z.length := by
          rw [h.length, hL, hA, List.length_append, List.length_append]
          omega
        obtain ⟨Q, hQ, hpre, hwalk⟩ := walkLevel_spec h hL hadv (i := l) (by omega) hA hbase
          (fun id hid => hreach id hid) hfuel
        rw [elementByRankFrom, hwalk]
        dsimp only
        split_ifs with hrank
        · have hlen : Q.length = (start ++ mid).length := by
            have := hpre.length_le
            rw [List.length_append]
            omega
          rw [hQ.isFront.eq_of_length hlen]
        · cases l with
          | zero =>
              have hall : ∀ id ∈ start ++ mid, id ∈ L := fun id hid => by
                rw [hL]
                exact List.mem_append_left rest hid
              obtain rfl := frontAt_zero h hall hQ
              exact absurd (by rw [List.length_append]; omega) hrank
          | succ l =>
              obtain ⟨short, hAQ, -, hrQ⟩ := hQ
              exact ih (by omega) (by omega) Q short hAQ (hbase.trans hpre.length_le)
                fun id hid => Nat.le_of_lt (hrQ id hid)
  have := key lvl hlvl hpos start mid rfl (Nat.le_refl _) hr
  rwa [Nat.sub_self] at this

/-- Steps along level 0. -/
theorem stepForward_spec (h : Rep z L) (n : Nat) {pre post : List Nat} (hL : L = pre ++ post) :
    z.stepForward n post.head? = (post.drop n).head? := by
  induction n generalizing pre post with
  | zero => rfl
  | succ n ih =>
      rw [stepForward]
      cases post with
      | nil =>
          have hnil := ih hL
          rw [List.drop_nil] at hnil ⊢
          exact hnil
      | cons y ys =>
          have hcut : L = (pre ++ [y]) ++ ys := by rw [hL]; simp
          have hnext := (show Rep z ((pre ++ [y]) ++ ys) by rwa [← hcut]).next_eq
          rw [show (pre ++ [y]).getLast? = some y by simp] at hnext
          rw [List.head?_cons, Option.bind_some, hnext, ih hcut]
          rfl

/-- Steps back. -/
theorem stepBackward_spec (h : Rep z L) (n : Nat) {pre post : List Nat} (hL : L = pre ++ post) :
    z.stepBackward n pre.getLast? = (pre.take (pre.length - n)).getLast? := by
  induction n generalizing pre post with
  | zero => rw [stepBackward, Nat.sub_zero, List.take_length]
  | succ n ih =>
      rw [stepBackward]
      rcases List.eq_nil_or_concat' pre with rfl | ⟨pre', x, rfl⟩
      · simpa using ih (show L = [] ++ post from hL)
      · have hcut : L = pre' ++ (x :: post) := by rw [hL]; simp
        rw [show (pre' ++ [x]).getLast? = some x by simp, Option.bind_some,
          h.backward pre' x post hcut, ih hcut, List.length_append, List.length_singleton,
          Nat.add_sub_add_right, List.take_append_of_le_length (by omega)]

theorem chain_spec (h : Rep z L) {pre post : List Nat} (hL : L = pre ++ post) {fuel : Nat}
    (hfuel : post.length < fuel) : z.chain fuel post.head? = post := by
  induction fuel generalizing pre post with
  | zero => omega
  | succ fuel ih =>
      cases post with
      | nil => rfl
      | cons y ys =>
          have hcut : L = (pre ++ [y]) ++ ys := by rw [hL]; simp
          have hnext := (show Rep z ((pre ++ [y]) ++ ys) by rwa [← hcut]).next_eq
          rw [show (pre ++ [y]).getLast? = some y by simp] at hnext
          rw [List.head?_cons, chain, hnext, ih hcut (by simp at hfuel; omega)]

theorem chainBack_spec (h : Rep z L) {pre post : List Nat} (hL : L = pre ++ post) {fuel : Nat}
    (hfuel : pre.length < fuel) : z.chainBack fuel pre.getLast? = pre.reverse := by
  induction fuel generalizing pre post with
  | zero => omega
  | succ fuel ih =>
      rcases List.eq_nil_or_concat' pre with rfl | ⟨pre', x, rfl⟩
      · rfl
      · have hcut : L = pre' ++ (x :: post) := by rw [hL]; simp
        rw [List.getLast?_concat, chainBack, h.backward pre' x post hcut,
          ih hcut (by simp at hfuel; omega), List.reverse_concat]

/-- The walk along level 0 gives the list. -/
theorem ids_eq (h : Rep z L) : z.ids = L := by
  have hhead : (z.header 0).forward = L.head? := h.next_eq (A := [])
  rw [ids, hhead]
  exact chain_spec h (List.nil_append L).symm (by rw [h.length]; omega)

end Ranks

/-! ## Walks stay in the list

Whatever the tests are, a walk that starts in the list meets nothing else. -/

section Inside

variable {z : Skiplist α} {L : List Nat}

theorem Rep.forward_mem (h : Rep z L) {x : Cursor} {i : Nat} (hx : ∀ id ∈ x, id ∈ L ∧ i < z.height id) :
    ∀ y ∈ (z.link x i).forward, y ∈ L ∧ i < z.height y := by
  obtain ⟨pre, post, hL, rfl⟩ : ∃ pre post, L = pre ++ post ∧ x = pre.getLast? := by
    cases x with
    | none => exact ⟨[], L, rfl, rfl⟩
    | some id =>
        obtain ⟨A, B, rfl⟩ := List.append_of_mem (hx id rfl).1
        exact ⟨A ++ [id], B, by simp, by simp⟩
  rw [h.linked.forward pre post i hL fun id hid => (hx id hid).2]
  intro y hy
  obtain ⟨ms, ys, rfl, -, hheight⟩ := exists_of_nextIn hy
  exact ⟨by rw [hL]; simp, hheight⟩

theorem Rep.next_mem (h : Rep z L) {x : Cursor} (hx : ∀ id ∈ x, id ∈ L) :
    ∀ y ∈ (z.link x 0).forward, y ∈ L := fun y hy =>
  (h.forward_mem (fun id hid => ⟨hx id hid, h.height_pos id (hx id hid)⟩) y hy).1

theorem Rep.backward_mem (h : Rep z L) {id : Nat} (hid : id ∈ L) :
    ∀ y ∈ (z.node id).backward, y ∈ L := by
  obtain ⟨A, B, rfl⟩ := List.append_of_mem hid
  rw [h.backward A id B rfl]
  exact fun y hy => List.mem_append_left _ (List.mem_of_getLast? hy)

theorem walkLevel_mem (h : Rep z L) (adv : Nat → α → Bool) {i : Nat} (fuel : Nat) {c : Cursor × Nat}
    (hc : ∀ id ∈ c.1, id ∈ L ∧ i < z.height id) :
    ∀ id ∈ (z.walkLevel adv i fuel c).1, id ∈ L ∧ i < z.height id := by
  induction fuel generalizing c with
  | zero => exact hc
  | succ fuel ih =>
      have hnext := h.forward_mem hc
      rw [walkLevel]
      cases hy : (z.link c.1 i).forward with
      | none => exact hc
      | some y =>
          simp only
          split_ifs
          · exact ih (c := (some y, _)) fun id hid => hnext id (hy ▸ hid)
          · exact hc

theorem descend_mem (h : Rep z L) (adv : Nat → α → Bool) {lvl : Nat} {c : Cursor × Nat}
    (hc : ∀ id ∈ c.1, id ∈ L ∧ lvl ≤ z.height id) (i : Nat) : ∀ id ∈ (z.descend adv lvl c i).1, id ∈ L := by
  induction lvl generalizing c with
  | zero => exact fun id hid => (hc id hid).1
  | succ l ih =>
      have hwalk := walkLevel_mem h adv (i := l) z.length hc
      rw [descend]
      split_ifs
      · exact fun id hid => (hwalk id hid).1
      · exact ih fun id hid => ⟨(hwalk id hid).1, Nat.le_of_lt (hwalk id hid).2⟩

theorem elementByRankFrom_mem (h : Rep z L) {lvl : Nat} {c : Cursor × Nat}
    (hc : ∀ id ∈ c.1, id ∈ L ∧ lvl ≤ z.height id) (rank : Nat) {x : Cursor}
    (hx : z.elementByRankFrom lvl c rank = some x) : ∀ id ∈ x, id ∈ L := by
  induction lvl generalizing c with
  | zero => contradiction
  | succ l ih =>
      have hwalk := walkLevel_mem h (fun r _ => decide (r ≤ rank)) (i := l) z.length hc
      rw [elementByRankFrom] at hx
      split_ifs at hx
      · rw [← Option.some.inj hx]
        exact fun id hid => (hwalk id hid).1
      · exact ih (fun id hid => ⟨(hwalk id hid).1, Nat.le_of_lt (hwalk id hid).2⟩) hx

theorem stepForward_mem (h : Rep z L) (n : Nat) {x : Option Nat} (hx : ∀ id ∈ x, id ∈ L) :
    ∀ id ∈ z.stepForward n x, id ∈ L := by
  induction n generalizing x with
  | zero => exact hx
  | succ n ih =>
      refine ih fun y hy => ?_
      obtain ⟨id, hid, hy⟩ := Option.bind_eq_some_iff.mp hy
      exact h.next_mem (x := some id) (fun _ hid' => hx _ (hid.trans hid')) y hy

theorem stepBackward_mem (h : Rep z L) (n : Nat) {x : Option Nat} (hx : ∀ id ∈ x, id ∈ L) :
    ∀ id ∈ z.stepBackward n x, id ∈ L := by
  induction n generalizing x with
  | zero => exact hx
  | succ n ih =>
      refine ih fun y hy => ?_
      obtain ⟨id, hid, hy⟩ := Option.bind_eq_some_iff.mp hy
      exact h.backward_mem (hx id hid) y hy

end Inside

end Skiplist

end SkynetJit
