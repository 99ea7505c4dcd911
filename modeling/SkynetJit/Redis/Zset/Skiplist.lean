import SkynetJit.Lib.Skiplist
import SkynetJit.Redis.Zset.Score

/-!
# SkynetJit.Redis.Zset.Skiplist

The skiplist encoding of a sorted set (`kernel/t_zset.c`): a skiplist of
elements with scores, and a dict that finds the node of an element.

`Zset.Holds zs L` ties the parts together: the nodes `L` are the skiplist's,
the dict has the same nodes, and along `L` the elements are in order.  Every
operation is specified by the nodes it leaves and the elements they hold.
-/

namespace SkynetJit.Redis

open Scored
open LuaNumber (isNaN)

variable {ν : Type} [Score ν]

/-- `zskiplist`. -/
abbrev Zskiplist (ν : Type) := Skiplist (Scored ν)

/-- `zslCompareWithNode`; no node at all comes after every other. -/
def zslCompareWithNode (a : Scored ν) : Option (Scored ν) → Ordering
  | none => .lt
  | some n => a.compare n

/-- The test of the search loops: go on while the next node is smaller. -/
def zslSmaller (a n : Scored ν) : Bool := zslCompareWithNode a (some n) == .gt

/-- `ZSKIPLIST_MAXLEVEL`. -/
def zskiplistMaxlevel : Nat := 32

/-- `zslRandomLevel`, given how many draws stay below the threshold. -/
def zslRandomLevel (draws : Nat) : Nat :=
  if draws + 1 < zskiplistMaxlevel then draws + 1 else zskiplistMaxlevel

/-- The random draws of a command, by the node they are made for. -/
abbrev Draws := Nat → Nat

/-- `zslInsert`; the node is the one at the fresh address. -/
def zslInsert (rand : Draws) (zsl : Zskiplist ν) (a : Scored ν) : Zskiplist ν :=
  zsl.insert (zslRandomLevel (rand zsl.fresh)) a (zslSmaller a)

/-- `zslDelete`. -/
def zslDelete (zsl : Zskiplist ν) (id : Nat) : Zskiplist ν :=
  zsl.delete id (zslSmaller (zsl.node id).val)

/-- Whether the node stays where it is with a new score: the neighbours'
scores are on either side of it. -/
def zslStays (zsl : Zskiplist ν) (id : Nat) (newscore : ν) : Bool :=
  ((zsl.node id).backward.all fun p => Score.lt (zsl.node p).val.score newscore) &&
    ((zsl.link (some id) 0).forward.all fun n => Score.lt newscore (zsl.node n).val.score)

/-- `zslUpdateScore`: in place, or unlink the node and insert it again. -/
def zslUpdateScore (zsl : Zskiplist ν) (id : Nat) (newscore : ν) : Zskiplist ν :=
  let a : Scored ν := { (zsl.node id).val with score := newscore }
  if zslStays zsl id newscore then zsl.setVal id a
  else ((zslDelete zsl id).setVal id a).insertNode id (zslSmaller a)

/-- `zset`: the skiplist, and the nodes of the dict. -/
structure Zset (ν : Type) where
  zsl : Zskiplist ν
  dict : List Nat

namespace Zset

/-- `createZsetObject`. -/
def create : Zset ν := ⟨Skiplist.create, []⟩

/-- The element of a node. -/
def item (zs : Zset ν) (id : Nat) : Scored ν := (zs.zsl.node id).val

/-- `dictFind`: the node of an element. -/
def dictFind (zs : Zset ν) (ele : Bytes) : Option Nat := zs.dict.find? fun id => (zs.item id).ele = ele

/-- `zslInsert` and `dictAdd`. -/
def add (rand : Draws) (zs : Zset ν) (a : Scored ν) : Zset ν :=
  ⟨zslInsert rand zs.zsl a, zs.zsl.fresh :: zs.dict⟩

/-- `zslInsert` and `dictAdd`, one element after the other. -/
def addAll (rand : Draws) (zs : Zset ν) (xs : List (Scored ν)) : Zset ν := xs.foldl (add rand) zs

/-- `dictUnlink` and `zslDelete`. -/
def remove (zs : Zset ν) (id : Nat) : Zset ν := ⟨zslDelete zs.zsl id, zs.dict.erase id⟩

/-- `zslUpdateScore`; the dict does not change. -/
def update (zs : Zset ν) (id : Nat) (newscore : ν) : Zset ν :=
  ⟨zslUpdateScore zs.zsl id newscore, zs.dict⟩

/-- The elements along level 0. -/
def items (zs : Zset ν) : List (Scored ν) := zs.zsl.vals

/-- The nodes `L` are those of the skiplist and of the dict, in order. -/
structure Holds (zs : Zset ν) (L : List Nat) : Prop where
  rep : zs.zsl.Rep L
  dict : zs.dict.Perm L
  sound : Sound (L.map zs.item)

variable {zs : Zset ν} {L : List Nat}

theorem Holds.items_eq (h : Holds zs L) : zs.items = L.map zs.item := by
  rw [items, Skiplist.vals, Skiplist.ids_eq h.rep]
  rfl

theorem Holds.sound_items (h : Holds zs L) : Sound zs.items := h.items_eq ▸ h.sound

theorem Holds.length_eq (h : Holds zs L) : zs.zsl.length = zs.items.length := by
  rw [h.items_eq, List.length_map, h.rep.length]

theorem holds_create : Holds (create : Zset ν) [] := ⟨Skiplist.rep_create, .nil, Sound.nil⟩

/-- Two nodes with one element are one node. -/
theorem Holds.eq_of_ele_eq (h : Holds zs L) {m n : Nat} (hm : m ∈ L) (hn : n ∈ L)
    (hele : (zs.item m).ele = (zs.item n).ele) : m = n := by
  have hnd := h.sound.nodup
  rw [List.map_map] at hnd
  exact List.inj_on_of_nodup_map hnd hm hn hele

theorem Holds.dictFind_eq_some (h : Holds zs L) {ele : Bytes} {id : Nat} (hfind : zs.dictFind ele = some id) :
    id ∈ L ∧ (zs.item id).ele = ele :=
  ⟨h.dict.mem_iff.mp (List.mem_of_find?_eq_some hfind), by simpa using List.find?_some hfind⟩

theorem Holds.dictFind_eq_none (h : Holds zs L) {ele : Bytes} (hfind : zs.dictFind ele = none) :
    ele ∉ zs.items.map Scored.ele := by
  rw [h.items_eq, List.map_map, List.mem_map]
  rintro ⟨id, hid, rfl⟩
  exact List.find?_eq_none.mp hfind id (h.dict.mem_iff.mpr hid) (by simp)

/-- **Finding** an element in the dict reads its score. -/
theorem Holds.scoreOf_items (h : Holds zs L) (ele : Bytes) :
    scoreOf zs.items ele = (zs.dictFind ele).map fun id => (zs.item id).score := by
  cases hfind : zs.dictFind ele with
  | none => exact scoreOf_eq_none_iff.mpr (h.dictFind_eq_none hfind)
  | some id =>
      obtain ⟨hid, rfl⟩ := h.dictFind_eq_some hfind
      rw [h.items_eq]
      exact (scoreOf_eq_some_iff h.sound.nodup).mpr (List.mem_map_of_mem hid)

section Operations

variable [LawfulScore ν]

theorem zslSmaller_iff {a n : Scored ν} : zslSmaller a n = true ↔ Lt n a := by
  rw [zslSmaller, zslCompareWithNode, beq_iff_eq, compare_eq_gt_iff]

theorem zslSmaller_eq_false {a n : Scored ν} (h : Lt a n) : zslSmaller a n = false := by
  rw [Bool.eq_false_iff, ne_eq, zslSmaller_iff]
  exact h.asymm

theorem zslRandomLevel_pos (draws : Nat) : 1 ≤ zslRandomLevel draws := by
  rw [zslRandomLevel]
  split_ifs
  · omega
  · decide

/-- **Adding** a new element. -/
theorem Holds.add (h : Holds zs L) (rand : Draws) {a : Scored ν} (ha : a.IsNumber)
    (hnew : a.ele ∉ zs.items.map Scored.ele) :
    ∃ L', Holds (zs.add rand a) L' ∧ (zs.add rand a).items.Perm (a :: zs.items) := by
  rw [h.items_eq] at hnew
  obtain ⟨A', B', hsplit, hA', hB'⟩ := h.sound.split ha hnew
  obtain ⟨A, B, rfl, rfl, rfl⟩ := List.map_eq_append_iff.mp hsplit
  have hne : ∀ id ∈ A ++ B, id ≠ zs.zsl.fresh := fun id hid => Nat.ne_of_lt (h.rep.fresh id hid)
  have hrep : (zs.add rand a).zsl.Rep (A ++ zs.zsl.fresh :: B) :=
    Skiplist.rep_insert h.rep (zslRandomLevel_pos _) a
      (fun id hid => zslSmaller_iff.mpr (hA' _ (List.mem_map_of_mem hid)))
      fun id hid => zslSmaller_eq_false (hB' _ (List.mem_map_of_mem hid))
  have hfresh : (zs.add rand a).item zs.zsl.fresh = a := Skiplist.val_insert_fresh _ _ _ _
  have hold : ∀ {M : List Nat}, (∀ id ∈ M, id ∈ A ++ B) → M.map (zs.add rand a).item = M.map zs.item :=
    fun hM => List.map_congr_left fun id hid => Skiplist.val_insert_of_ne (hne id (hM id hid)) _ _ _
  have hmap : (A ++ zs.zsl.fresh :: B).map (zs.add rand a).item =
      A.map zs.item ++ a :: B.map zs.item := by
    rw [List.map_append, List.map_cons, hfresh, hold fun id hid => List.mem_append_left B hid,
      hold fun id hid => List.mem_append_right A hid]
  have hholds : Holds (zs.add rand a) (A ++ zs.zsl.fresh :: B) := by
    refine ⟨hrep, ?_, ?_⟩
    · exact (h.dict.cons _).trans List.perm_middle.symm
    · rw [hmap]
      rw [hsplit] at hnew
      exact Sound.insert (hsplit ▸ h.sound) ha hnew hA' hB'
  refine ⟨_, hholds, ?_⟩
  rw [hholds.items_eq, hmap, h.items_eq, hsplit]
  exact List.perm_middle

/-- **Adding** elements one after the other. -/
theorem Holds.addAll (h : Holds zs L) (rand : Draws) {xs : List (Scored ν)}
    (hnumber : ∀ a ∈ xs, a.IsNumber) (hnd : ((xs ++ zs.items).map Scored.ele).Nodup) :
    ∃ L', Holds (zs.addAll rand xs) L' ∧ (zs.addAll rand xs).items.Perm (xs ++ zs.items) := by
  induction xs generalizing zs L with
  | nil => exact ⟨L, h, List.Perm.refl _⟩
  | cons a xs ih =>
      rw [List.cons_append, List.map_cons, List.nodup_cons, List.map_append, List.mem_append, not_or]
        at hnd
      obtain ⟨L₁, h₁, hperm₁⟩ := h.add rand (hnumber a List.mem_cons_self) hnd.1.2
      have hperm : (xs ++ (zs.add rand a).items).Perm (a :: (xs ++ zs.items)) :=
        (hperm₁.append_left xs).trans List.perm_middle
      have hnd' : ((xs ++ (zs.add rand a).items).map Scored.ele).Nodup := by
        rw [(hperm.map Scored.ele).nodup_iff, List.map_cons, List.nodup_cons, List.map_append,
          List.mem_append, not_or]
        exact hnd
      obtain ⟨L', h', hperm'⟩ := ih h₁ (fun b hb => hnumber b (List.mem_cons_of_mem a hb)) hnd'
      exact ⟨L', h', hperm'.trans hperm⟩

theorem Holds.rep_delete {A B : List Nat} {id : Nat} (h : Holds zs (A ++ id :: B)) :
    (zslDelete zs.zsl id).Rep (A ++ B) := by
  have hsound := h.sound
  rw [List.map_append, List.map_cons] at hsound
  have hsorted := List.pairwise_append.mp hsound.sorted
  refine Skiplist.rep_delete h.rep (fun a ha => ?_) fun b hb => ?_
  · exact zslSmaller_iff.mpr (hsorted.2.2 _ (List.mem_map_of_mem ha) _ List.mem_cons_self)
  · rcases List.mem_cons.mp hb with rfl | hb'
    · rw [Bool.eq_false_iff, ne_eq, zslSmaller_iff]
      exact Lt.irrefl _
    · exact zslSmaller_eq_false ((List.pairwise_cons.mp hsorted.2.1).1 _ (List.mem_map_of_mem hb'))

/-- **Removing** a node. -/
theorem Holds.remove (h : Holds zs L) {id : Nat} (hid : id ∈ L) :
    ∃ L', Holds (zs.remove id) L' ∧ zs.items.Perm (zs.item id :: (zs.remove id).items) ∧
      (zs.remove id).items.Sublist zs.items := by
  obtain ⟨A, B, rfl⟩ := List.append_of_mem hid
  have hitem : (zs.remove id).item = zs.item := funext fun m => Skiplist.val_delete _ _ _ m
  have hsub : (A ++ B).Sublist (A ++ id :: B) :=
    (List.Sublist.refl A).append (List.sublist_cons_self id B)
  have hholds : Holds (zs.remove id) (A ++ B) := by
    refine ⟨h.rep_delete, ?_, ?_⟩
    · have herase := (h.dict.erase id).trans (List.perm_middle.erase id)
      rwa [List.erase_cons_head] at herase
    · rw [hitem]
      exact h.sound.sublist (hsub.map _)
  refine ⟨_, hholds, ?_, ?_⟩
  · rw [hholds.items_eq, h.items_eq, hitem, ← List.map_cons]
    exact List.perm_middle.map _
  · rw [hholds.items_eq, h.items_eq, hitem]
    exact hsub.map _

/-- With a new score a node may stay between its neighbours. -/
theorem Holds.lt_of_stays {A B : List Nat} {id : Nat} (h : Holds zs (A ++ id :: B)) {newscore : ν}
    (hnew : isNaN newscore = false) (hstays : zslStays zs.zsl id newscore = true) :
    (∀ a ∈ A.map zs.item, Lt a ⟨(zs.item id).ele, newscore⟩) ∧
      ∀ b ∈ B.map zs.item, Lt ⟨(zs.item id).ele, newscore⟩ b := by
  have hsound := h.sound
  rw [List.map_append, List.map_cons] at hsound
  have hsorted := List.pairwise_append.mp hsound.sorted
  have hcut : zs.zsl.Rep ((A ++ [id]) ++ B) := by simpa using h.rep
  have hforward := hcut.next_eq
  rw [List.getLast?_concat] at hforward
  rw [zslStays, h.rep.backward A id B rfl, hforward, Bool.and_eq_true] at hstays
  have hnumber : ∀ m ∈ A ++ id :: B, (zs.item m).IsNumber := fun m hm =>
    h.sound.number _ (List.mem_map_of_mem hm)
  constructor
  · intro a ha
    rcases List.eq_nil_or_concat' A with rfl | ⟨A₀, p, rfl⟩
    · exact absurd ha List.not_mem_nil
    · rw [List.getLast?_concat, Option.all_some] at hstays
      have hp : Lt (zs.item p) ⟨(zs.item id).ele, newscore⟩ := lt_of_score hstays.1
      rw [List.map_append, List.mem_append] at ha
      rcases ha with ha | ha
      · have hap := (List.pairwise_append.mp (by simpa using hsorted.1)).2.2 a ha _ List.mem_cons_self
        exact hap.trans (hsound.number a (by simp [ha])) (hnumber p (by simp)) hnew hp
      · rw [List.map_singleton, List.mem_singleton] at ha
        exact ha ▸ hp
  · intro b hb
    cases B with
    | nil => exact absurd hb List.not_mem_nil
    | cons n B₀ =>
        rw [List.head?_cons, Option.all_some] at hstays
        have hn : Lt ⟨(zs.item id).ele, newscore⟩ (zs.item n) := lt_of_score hstays.2
        rw [List.map_cons, List.mem_cons] at hb
        rcases hb with rfl | hb
        · exact hn
        · have hnb := (List.pairwise_cons.mp (List.pairwise_cons.mp hsorted.2.1).2).1 b hb
          exact hn.trans hnew (hnumber n (by simp)) (hsound.number b (by simp [hb])) hnb

omit [LawfulScore ν] in
/-- The node with a new score, in its place among the others. -/
theorem Holds.moved {A B C D : List Nat} {id : Nat} (h : Holds zs (A ++ id :: B)) {zs' : Zset ν}
    {a : Scored ν} (hperm : (A ++ B).Perm (C ++ D)) (hdict : zs'.dict = zs.dict)
    (hrep : zs'.zsl.Rep (C ++ id :: D)) (hself : zs'.item id = a)
    (hother : ∀ m ≠ id, zs'.item m = zs.item m)
    (hsound : Sound (C.map zs.item ++ a :: D.map zs.item)) :
    ∃ L' rest, Holds zs' L' ∧ zs.items.Perm (zs.item id :: rest) ∧ zs'.items.Perm (a :: rest) := by
  have hnd := hrep.nodup
  rw [List.nodup_middle, List.nodup_cons] at hnd
  have hold : ∀ {M : List Nat}, (∀ m ∈ M, m ∈ C ++ D) → M.map zs'.item = M.map zs.item := fun hM =>
    List.map_congr_left fun m hm => hother m fun heq => hnd.1 (heq ▸ hM m hm)
  have hmap : (C ++ id :: D).map zs'.item = C.map zs.item ++ a :: D.map zs.item := by
    rw [List.map_append, List.map_cons, hself, hold fun m hm => List.mem_append_left D hm,
      hold fun m hm => List.mem_append_right C hm]
  have hholds : Holds zs' (C ++ id :: D) := by
    refine ⟨hrep, ?_, hmap ▸ hsound⟩
    rw [hdict]
    exact h.dict.trans (List.perm_middle.trans ((hperm.cons id).trans List.perm_middle.symm))
  refine ⟨_, (C ++ D).map zs.item, hholds, ?_, ?_⟩
  · rw [h.items_eq, ← List.map_cons]
    exact (List.perm_middle.trans (hperm.cons id)).map _
  · rw [hholds.items_eq, hmap, List.map_append]
    exact List.perm_middle

/-- **Updating** the score of a node. -/
theorem Holds.update (h : Holds zs L) {id : Nat} (hid : id ∈ L) {newscore : ν}
    (hnew : isNaN newscore = false) :
    ∃ L' rest, Holds (zs.update id newscore) L' ∧ zs.items.Perm (zs.item id :: rest) ∧
      (zs.update id newscore).items.Perm (⟨(zs.item id).ele, newscore⟩ :: rest) := by
  obtain ⟨A, B, rfl⟩ := List.append_of_mem hid
  generalize ha : (⟨(zs.item id).ele, newscore⟩ : Scored ν) = a
  have hnumber : a.IsNumber := ha ▸ hnew
  have hsound := h.sound
  rw [List.map_append, List.map_cons] at hsound
  have hrest : Sound (A.map zs.item ++ B.map zs.item) :=
    hsound.sublist ((List.Sublist.refl _).append (List.sublist_cons_self _ _))
  have hfree : a.ele ∉ (A.map zs.item ++ B.map zs.item).map Scored.ele := by
    have hnd := hsound.nodup
    rw [List.map_append, List.map_cons, List.nodup_middle, List.nodup_cons, ← List.map_append] at hnd
    exact ha ▸ hnd.1
  by_cases hstays : zslStays zs.zsl id newscore = true
  · -- in place
    have hzsl : (zs.update id newscore).zsl = zs.zsl.setVal id a := ha ▸ if_pos hstays
    obtain ⟨hA, hB⟩ := h.lt_of_stays hnew hstays
    rw [ha] at hA hB
    refine h.moved (List.Perm.refl _) rfl ?_ ?_ (fun m hm => ?_) (hrest.insert hnumber hfree hA hB)
    · rw [hzsl]
      exact Skiplist.rep_setVal h.rep id a
    · rw [item, hzsl, Skiplist.val_setVal_self]
    · rw [item, hzsl, Skiplist.val_setVal_of_ne hm]
      rfl
  · -- unlinked, changed and inserted again
    have hzsl : (zs.update id newscore).zsl =
        ((zslDelete zs.zsl id).setVal id a).insertNode id (zslSmaller a) := ha ▸ if_neg hstays
    obtain ⟨C', D', hsplit, hC, hD⟩ := hrest.split hnumber hfree
    rw [← List.map_append] at hsplit
    obtain ⟨C, D, hCD, rfl, rfl⟩ := List.map_eq_append_iff.mp hsplit
    have hnd := h.rep.nodup
    rw [List.nodup_middle, List.nodup_cons, hCD] at hnd
    have hrep : ((zslDelete zs.zsl id).setVal id a).Rep (C ++ D) :=
      Skiplist.rep_setVal (hCD ▸ h.rep_delete) id a
    have hval : ∀ m ≠ id, (((zslDelete zs.zsl id).setVal id a).node m).val = zs.item m := by
      intro m hm
      rw [Skiplist.val_setVal_of_ne hm, zslDelete, Skiplist.val_delete]
      rfl
    have hval' : ∀ m ∈ C ++ D, (((zslDelete zs.zsl id).setVal id a).node m).val = zs.item m :=
      fun m hm => hval m fun heq => hnd.1 (heq ▸ hm)
    refine h.moved (hCD ▸ List.Perm.refl _) rfl ?_ ?_ (fun m hm => ?_)
      ((hsplit ▸ List.map_append ▸ hrest).insert hnumber ?_ hC hD)
    · rw [hzsl]
      refine Skiplist.rep_insertNode hrep hnd.1 ?_ ?_ (fun m hm => ?_) fun m hm => ?_
      · rw [Skiplist.height_setVal, zslDelete, Skiplist.height_delete]
        exact h.rep.height_pos id hid
      · exact h.rep.fresh id hid
      · rw [hval' m (List.mem_append_left D hm)]
        exact zslSmaller_iff.mpr (hC _ (List.mem_map_of_mem hm))
      · rw [hval' m (List.mem_append_right C hm)]
        exact zslSmaller_eq_false (hD _ (List.mem_map_of_mem hm))
    · rw [item, hzsl, Skiplist.val_insertNode, Skiplist.val_setVal_self]
    · rw [item, hzsl, Skiplist.val_insertNode, hval m hm]
    · rwa [← hsplit, List.map_append]

end Operations

end Zset

end SkynetJit.Redis
