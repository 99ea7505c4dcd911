import SkynetJit.Redis.Zset.Listpack
import SkynetJit.Redis.Zset.Skiplist

/-!
# SkynetJit.Redis.Zset.Kernel

Sorted sets in either encoding (`kernel/t_zset.c`).

`ZsetObj.items` are the elements as a walk meets them, in both encodings; the
invariant `ZsetObj.Wf` makes them a sound list.  `zsetAdd_spec`,
`zsetDel_spec` and `zsetScore_eq` say what the operations do to them: the
reply depends on the current score only, and the elements change at one name.
-/

namespace SkynetJit.Redis

open Scored
open LuaNumber (isNaN)

/-- A sorted set object. -/
inductive ZsetObj (ν : Type) where
  | listpack (zl : ZListpack)
  | skiplist (zs : Zset ν)

/-- `zset_max_listpack_entries`. -/
def zsetMaxListpackEntries : Nat := 128

/-- `zset_max_listpack_value`. -/
def zsetMaxListpackValue : Nat := 64

variable {ν : Type} [Score ν]

/-- The elements in order. -/
def ZsetObj.items : ZsetObj ν → List (Scored ν)
  | .listpack zl => zzlItems zl
  | .skiplist zs => zs.items

/-- `zsetLength`. -/
def zsetLength : ZsetObj ν → Nat
  | .listpack zl => zzlLength zl
  | .skiplist zs => zs.zsl.length

/-- `zsetTypeCreate`; a dict that is expanded holds nothing more. -/
def zsetTypeCreate (sizeHint valLenHint : Nat) : ZsetObj ν :=
  if sizeHint ≤ zsetMaxListpackEntries ∧ valLenHint ≤ zsetMaxListpackValue then .listpack []
  else .skiplist Zset.create

/-- `zsetConvertAndExpand` of a listpack: its elements one after the other. -/
def zsetConvertToSkiplist (rand : Draws) (zl : ZListpack) : Zset ν :=
  Zset.create.addAll rand (zzlItems zl)

/-- `zsetConvertAndExpand` of a skiplist. -/
def zsetConvertToListpack (zs : Zset ν) : ZListpack := zs.items.foldl zzlAppend []

/-- `zsetTypeMaybeConvert`. -/
def zsetTypeMaybeConvert (rand : Draws) (zobj : ZsetObj ν) (sizeHint : Nat) : ZsetObj ν :=
  match zobj with
  | .listpack zl =>
      if sizeHint > zsetMaxListpackEntries then .skiplist (zsetConvertToSkiplist rand zl) else zobj
  | .skiplist _ => zobj

/-- `zsetConvertToListpackIfNeeded`. -/
def zsetConvertToListpackIfNeeded (zobj : ZsetObj ν) (maxelelen totelelen : Nat) : ZsetObj ν :=
  match zobj with
  | .listpack _ => zobj
  | .skiplist zs =>
      if zs.zsl.length ≤ zsetMaxListpackEntries ∧ maxelelen ≤ zsetMaxListpackValue ∧
          lpSafeToAdd none totelelen = true then .listpack (zsetConvertToListpack zs)
      else zobj

/-- `zsetScore`. -/
def zsetScore (zobj : ZsetObj ν) (member : Bytes) : Option ν :=
  match zobj with
  | .listpack zl => (zzlFind zl member).map Prod.snd
  | .skiplist zs => (zs.dictFind member).map fun id => (zs.item id).score

/-! ## Adding -/

/-- The `ZADD_IN_*` flags. -/
structure ZaddFlags where
  incr : Bool := false
  nx : Bool := false
  xx : Bool := false
  gt : Bool := false
  lt : Bool := false
deriving DecidableEq, Repr

/-- The value `zsetAdd` returns, its `ZADD_OUT_*` flags and `*newscore`. -/
structure ZaddOut (ν : Type) where
  ok : Bool := true
  nan : Bool := false
  nop : Bool := false
  added : Bool := false
  updated : Bool := false
  newscore : Option ν := none

/-- What `zsetAdd` decides for an element that is there; both encodings have
these lines. -/
def zaddExisting (flags : ZaddFlags) (curscore score : ν) : ZaddOut ν :=
  if flags.nx then { nop := true }
  else
    let score := if flags.incr then Score.add score curscore else score
    if flags.incr && isNaN score then { ok := false, nan := true }
    else if flags.lt && Score.le curscore score || flags.gt && Score.le score curscore then
      { nop := true }
    else { newscore := some score, updated := !Score.eq score curscore }

/-- The skiplist half of `zsetAdd`. -/
def zsetAddSkiplist (rand : Draws) (zs : Zset ν) (a : Scored ν) (flags : ZaddFlags) :
    ZaddOut ν × ZsetObj ν :=
  match zs.dictFind a.ele with
  | some id =>
      let out := zaddExisting flags (zs.item id).score a.score
      match out.updated, out.newscore with
      | true, some score => (out, .skiplist (zs.update id score))
      | _, _ => (out, .skiplist zs)
  | none =>
      if flags.xx then ({ nop := true }, .skiplist zs)
      else ({ added := true, newscore := some a.score }, .skiplist (zs.add rand a))

/-- `zsetAdd`. -/
def zsetAdd (rand : Draws) (zobj : ZsetObj ν) (a : Scored ν) (flags : ZaddFlags) :
    ZaddOut ν × ZsetObj ν :=
  if isNaN a.score then ({ ok := false, nan := true }, zobj)
  else match zobj with
    | .listpack zl =>
        match zzlFind zl a.ele with
        | some (eptr, curscore) =>
            let out := zaddExisting flags curscore a.score
            match out.updated, out.newscore with
            | true, some score => (out, .listpack (zzlInsert (zzlDelete zl eptr) ⟨a.ele, score⟩))
            | _, _ => (out, zobj)
        | none =>
            if flags.xx then ({ nop := true }, zobj)
            else if zzlLength zl + 1 > zsetMaxListpackEntries ∨ a.ele.length > zsetMaxListpackValue ∨
                lpSafeToAdd (some zl.flat) a.ele.length = false then
              zsetAddSkiplist rand (zsetConvertToSkiplist rand zl) a flags
            else ({ added := true, newscore := some a.score }, .listpack (zzlInsert zl a))
    | .skiplist zs => zsetAddSkiplist rand zs a flags

/-- `zsetDel`. -/
def zsetDel (zobj : ZsetObj ν) (ele : Bytes) : Bool × ZsetObj ν :=
  match zobj with
  | .listpack zl =>
      match (zzlFind zl ele : Option (Nat × ν)) with
      | some (eptr, _) => (true, .listpack (zzlDelete zl eptr))
      | none => (false, zobj)
  | .skiplist zs =>
      match zs.dictFind ele with
      | some id => (true, .skiplist (zs.remove id))
      | none => (false, zobj)

/-! ## Specifications -/

/-- What `zsetAdd` replies, from the current score. -/
def zaddOut (flags : ZaddFlags) (curscore : Option ν) (score : ν) : ZaddOut ν :=
  if isNaN score then { ok := false, nan := true }
  else match curscore with
    | some curscore => zaddExisting flags curscore score
    | none => if flags.xx then { nop := true } else { added := true, newscore := some score }

/-- Whether the sorted set changed. -/
def ZaddOut.writes (out : ZaddOut ν) : Bool := out.added || out.updated

/-- The invariant of a sorted set object. -/
def ZsetObj.Wf : ZsetObj ν → Prop
  | .listpack zl => zl.Valid ∧ Sound (zzlItems zl : List (Scored ν))
  | .skiplist zs => ∃ L, zs.Holds L

theorem ZsetObj.Wf.sound {zobj : ZsetObj ν} (h : zobj.Wf) : Sound zobj.items := by
  cases zobj with
  | listpack zl => exact h.2
  | skiplist zs =>
      obtain ⟨L, hL⟩ := h
      exact hL.sound_items

theorem zsetLength_eq {zobj : ZsetObj ν} (h : zobj.Wf) : zsetLength zobj = zobj.items.length := by
  cases zobj with
  | listpack zl => rw [zsetLength, zzlLength_eq, ZsetObj.items, zzlItems, List.length_map]
  | skiplist zs =>
      obtain ⟨L, hL⟩ := h
      exact hL.length_eq

/-- **The score** of an element. -/
theorem zsetScore_eq {zobj : ZsetObj ν} (h : zobj.Wf) (ele : Bytes) :
    zsetScore zobj ele = scoreOf zobj.items ele := by
  cases zobj with
  | skiplist zs =>
      obtain ⟨L, hL⟩ := h
      exact (hL.scoreOf_items ele).symm
  | listpack zl =>
      rw [zsetScore, ZsetObj.items]
      cases hfind : (zzlFind zl ele : Option (Nat × ν)) with
      | none => exact (scoreOf_eq_none_iff.mpr (zzlFind_eq_none h.1 hfind)).symm
      | some found =>
          obtain ⟨p, hp, hperm⟩ := zzlFind_eq_some h.1 hfind
          refine ((scoreOf_eq_some_iff h.2.nodup).mpr ?_).symm
          rw [← hp]
          exact List.mem_map_of_mem (hperm.mem_iff.mpr List.mem_cons_self)

section Lawful

variable [LawfulScore ν]

/-- One element is put in, all others stay. -/
theorem sameScores_of_perm {l l' rest : List (Scored ν)} {a : Scored ν} {x : ν} (h : Sound l)
    (h' : Sound l') (hperm : l'.Perm (a :: rest)) (hx : Score.eq a.score x = true)
    (hrest : ∀ e ≠ a.ele, scoreOf rest e = scoreOf l e) : SameScores l' (⟨a.ele, x⟩ :: l) := by
  intro e
  rw [scoreOf_perm h'.nodup hperm]
  by_cases he : a.ele = e
  · subst he
    rw [scoreOf_cons_self, scoreOf_cons_self ⟨a.ele, x⟩ l]
    exact .some hx
  · rw [scoreOf_cons_of_ne he, hrest e (Ne.symm he),
      scoreOf_cons_of_ne (show (⟨a.ele, x⟩ : Scored ν).ele ≠ e from he)]
    exact h.scoreOf_refl e

omit [LawfulScore ν] in
/-- All others are what is left when an element is taken out. -/
theorem scoreOf_rest {l rest : List (Scored ν)} {b : Scored ν} (h : Sound l)
    (hperm : l.Perm (b :: rest)) {e : Bytes} (he : e ≠ b.ele) : scoreOf rest e = scoreOf l e := by
  rw [scoreOf_perm h.nodup hperm, scoreOf_cons_of_ne (Ne.symm he)]

/-- **Conversion** to a skiplist keeps the elements. -/
theorem holds_zsetConvertToSkiplist {zl : ZListpack} (h : Sound (zzlItems zl : List (Scored ν)))
    (rand : Draws) :
    ∃ L, (zsetConvertToSkiplist rand zl : Zset ν).Holds L ∧
      (zsetConvertToSkiplist rand zl : Zset ν).items = zzlItems zl := by
  obtain ⟨L, hL, hperm⟩ := Zset.holds_create.addAll rand h.number (by
    rw [Zset.holds_create.items_eq]
    simpa using h.nodup)
  refine ⟨L, hL, hL.sound_items.eq_of_perm h ?_⟩
  rwa [Zset.holds_create.items_eq, List.map_nil, List.append_nil] at hperm

omit [LawfulScore ν] in
theorem zsetConvertToListpack_eq (zs : Zset ν) :
    zsetConvertToListpack zs = zs.items.map zzlEntries := by
  have hfold : ∀ (xs : List (Scored ν)) (zl : ZListpack),
      xs.foldl zzlAppend zl = zl ++ xs.map zzlEntries := by
    intro xs
    induction xs with
    | nil => intro zl; simp
    | cons a xs ih => intro zl; rw [List.foldl_cons, ih, zzlAppend]; simp
  rw [zsetConvertToListpack, hfold, List.nil_append]

/-- **Conversion** to a listpack keeps the elements, with numerically equal
scores. -/
theorem near_zsetConvertToListpack {zs : Zset ν} {L : List Nat} (h : zs.Holds L) :
    (zsetConvertToListpack zs).Valid ∧
      List.Forall₂ Near zs.items (zzlItems (zsetConvertToListpack zs)) := by
  rw [zsetConvertToListpack_eq]
  constructor
  · intro p hp
    obtain ⟨a, -, rfl⟩ := List.mem_map.mp hp
    exact zzlEntries_valid a
  · rw [zzlItems, List.map_map, List.forall₂_map_right_iff, List.forall₂_same]
    exact fun a ha => (near_zzlEntries (h.sound_items.number a ha)).symm

omit [LawfulScore ν] in
/-- What is written is a number. -/
theorem zaddExisting_writes {flags : ZaddFlags} {curscore score : ν} (hscore : isNaN score = false)
    (h : (zaddExisting flags curscore score).writes = true) :
    (zaddExisting flags curscore score).updated = true ∧
      ∃ x, (zaddExisting flags curscore score).newscore = some x ∧ isNaN x = false := by
  unfold zaddExisting at h ⊢
  split at h
  · exact absurd h Bool.false_ne_true
  next hnx =>
    rw [if_neg hnx]
    have hnan : flags.incr = false →
        isNaN (if flags.incr then Score.add score curscore else score) = false := fun hincr => by
      rwa [hincr, if_neg Bool.false_ne_true]
    simp only at h ⊢
    generalize (if flags.incr then Score.add score curscore else score) = newscore at h hnan ⊢
    split at h
    · exact absurd h Bool.false_ne_true
    next hok =>
      rw [if_neg hok]
      split at h
      · exact absurd h Bool.false_ne_true
      next hcmp =>
        rw [if_neg hcmp]
        refine ⟨by simpa [ZaddOut.writes] using h, newscore, rfl, ?_⟩
        cases hincr : flags.incr with
        | false => exact hnan hincr
        | true => simpa [hincr] using hok

/-- What an addition does: the reply, the invariant, and the elements. -/
structure AddSpec (flags : ZaddFlags) (a : Scored ν) (zobj : ZsetObj ν) (r : ZaddOut ν × ZsetObj ν) :
    Prop where
  out : r.1 = zaddOut flags (scoreOf zobj.items a.ele) a.score
  wf : r.2.Wf
  writes : r.1.writes = true → ∃ x, r.1.newscore = some x ∧ isNaN x = false ∧
    SameScores r.2.items (⟨a.ele, x⟩ :: zobj.items)
  keeps : r.1.writes = false → r.2 = zobj

omit [LawfulScore ν] in
/-- The lines for an element that is there. -/
theorem addSpec_existing {flags : ZaddFlags} {a : Scored ν} {zobj : ZsetObj ν} {curscore : ν}
    (ha : a.IsNumber) (h : zobj.Wf) (hcur : scoreOf zobj.items a.ele = some curscore)
    {u : ν → ZsetObj ν} (hu : ∀ x, isNaN x = false →
      (u x).Wf ∧ SameScores (u x).items (⟨a.ele, x⟩ :: zobj.items)) :
    AddSpec flags a zobj
      (match (zaddExisting flags curscore a.score).updated,
          (zaddExisting flags curscore a.score).newscore with
        | true, some x => (zaddExisting flags curscore a.score, u x)
        | _, _ => (zaddExisting flags curscore a.score, zobj)) := by
  have hout : zaddExisting flags curscore a.score =
      zaddOut flags (scoreOf zobj.items a.ele) a.score := by
    rw [hcur, zaddOut.eq_def, show isNaN a.score = false from ha, if_neg Bool.false_ne_true]
  generalize hgen : zaddExisting flags curscore a.score = out at hout ⊢
  cases hw : out.writes with
  | false =>
      have hnot : out.updated = false := by
        simp only [ZaddOut.writes, Bool.or_eq_false_iff] at hw
        exact hw.2
      rw [hnot]
      refine ⟨hout, h, fun h' => ?_, fun _ => rfl⟩
      exact absurd (hw.symm.trans h') Bool.false_ne_true
  | true =>
      subst hgen
      obtain ⟨hupd, x, hx, hnum⟩ := zaddExisting_writes ha hw
      rw [hupd, hx]
      obtain ⟨hwf, hsame⟩ := hu x hnum
      refine ⟨hout, hwf, fun _ => ⟨x, hx, hnum, hsame⟩, fun h' => ?_⟩
      exact absurd (h'.symm.trans hw) Bool.false_ne_true

omit [LawfulScore ν] in
/-- The lines for a new element. -/
theorem addSpec_new {flags : ZaddFlags} {a : Scored ν} {zobj zobj' : ZsetObj ν} (ha : a.IsNumber)
    (hcur : scoreOf zobj.items a.ele = none) (hxx : ¬ flags.xx = true) (hwf : zobj'.Wf)
    (hsame : SameScores zobj'.items (a :: zobj.items)) :
    AddSpec flags a zobj ({ added := true, newscore := some a.score }, zobj') := by
  refine ⟨?_, hwf, fun _ => ⟨a.score, rfl, ha, hsame⟩, nofun⟩
  rw [hcur, zaddOut.eq_def, show isNaN a.score = false from ha, if_neg Bool.false_ne_true]
  exact (if_neg hxx).symm

omit [LawfulScore ν] in
theorem addSpec_nop {flags : ZaddFlags} {a : Scored ν} {zobj : ZsetObj ν} (ha : a.IsNumber)
    (h : zobj.Wf) (hcur : scoreOf zobj.items a.ele = none) (hxx : flags.xx = true) :
    AddSpec flags a zobj ({ nop := true }, zobj) := by
  refine ⟨?_, h, nofun, fun _ => rfl⟩
  rw [hcur, zaddOut.eq_def, show isNaN a.score = false from ha, if_neg Bool.false_ne_true]
  exact (if_pos hxx).symm

theorem zsetAddSkiplist_spec {zs : Zset ν} {L : List Nat} (h : zs.Holds L) (rand : Draws)
    {a : Scored ν} (ha : a.IsNumber) (flags : ZaddFlags) :
    AddSpec flags a (.skiplist zs) (zsetAddSkiplist rand zs a flags) := by
  have hscore : scoreOf (ZsetObj.skiplist zs).items a.ele = _ := h.scoreOf_items a.ele
  rw [zsetAddSkiplist]
  cases hfind : zs.dictFind a.ele with
  | none =>
      rw [hfind, Option.map_none] at hscore
      simp only
      split_ifs with hxx
      · exact addSpec_nop ha ⟨L, h⟩ hscore hxx
      · obtain ⟨L', hL', hperm⟩ := h.add rand ha (h.dictFind_eq_none hfind)
        exact addSpec_new ha hscore hxx ⟨L', hL'⟩ (sameScores_of_perm h.sound_items hL'.sound_items hperm
          (Score.eq_refl ha) fun _ _ => rfl)
  | some id =>
      rw [hfind, Option.map_some] at hscore
      obtain ⟨hid, hele⟩ := h.dictFind_eq_some hfind
      have hwf : (ZsetObj.skiplist zs).Wf := ⟨L, h⟩
      refine addSpec_existing (u := fun x => .skiplist (zs.update id x)) ha hwf hscore fun x hx => ?_
      obtain ⟨L', rest, hL', hperm, hperm'⟩ := h.update hid hx
      rw [hele] at hperm'
      refine ⟨⟨L', hL'⟩, ?_⟩
      exact sameScores_of_perm (a := ⟨a.ele, x⟩) h.sound_items hL'.sound_items hperm' (Score.eq_refl hx)
        fun e he => scoreOf_rest h.sound_items hperm (hele ▸ he)

/-- Deleting from a listpack and inserting again. -/
theorem sameScores_zzlInsert_zzlDelete {zl : ZListpack} (hvalid : zl.Valid)
    (h : Sound (zzlItems zl : List (Scored ν))) {ele : Bytes} {eptr : Nat} {curscore x : ν}
    (hfind : zzlFind zl ele = some (eptr, curscore)) (hx : isNaN x = false) :
    ((.listpack (zzlInsert (zzlDelete zl eptr) ⟨ele, x⟩) : ZsetObj ν)).Wf ∧
      SameScores (zzlItems (zzlInsert (zzlDelete zl eptr) ⟨ele, x⟩)) (⟨ele, x⟩ :: zzlItems zl) := by
  obtain ⟨p, hp, hperm⟩ := zzlFind_eq_some hvalid hfind
  have hsub : (zzlDelete zl eptr).Sublist zl := List.eraseIdx_sublist zl eptr
  have hitems : (zzlItems zl : List (Scored ν)).Perm (⟨ele, curscore⟩ :: zzlItems (zzlDelete zl eptr)) := by
    rw [← hp]
    exact hperm.map zzlItem
  have hrest : Sound (zzlItems (zzlDelete zl eptr) : List (Scored ν)) := h.sublist (hsub.map zzlItem)
  have hfree : ele ∉ (zzlItems (zzlDelete zl eptr) : List (Scored ν)).map Scored.ele := by
    have hnd := (hitems.map Scored.ele).nodup_iff.mp h.nodup
    exact (List.nodup_cons.mp hnd).1
  have hnear := near_zzlEntries (a := ⟨ele, x⟩) hx
  obtain ⟨hvalid', hsound', hperm'⟩ := sound_zzlInsert (a := ⟨ele, x⟩)
    (fun q hq => hvalid q (hsub.subset hq)) hrest hx hfree
  refine ⟨⟨hvalid', hsound'⟩, ?_⟩
  have hsame := sameScores_of_perm h hsound' hperm' hnear.2 fun e he =>
    scoreOf_rest h hitems (hnear.1 ▸ he)
  rwa [hnear.1] at hsame

/-- **Adding** an element. -/
theorem zsetAdd_spec {zobj : ZsetObj ν} (h : zobj.Wf) (rand : Draws) {a : Scored ν} (ha : a.IsNumber)
    (flags : ZaddFlags) : AddSpec flags a zobj (zsetAdd rand zobj a flags) := by
  rw [zsetAdd.eq_def, show isNaN a.score = false from ha, if_neg Bool.false_ne_true]
  cases zobj with
  | skiplist zs =>
      obtain ⟨L, hL⟩ := h
      exact zsetAddSkiplist_spec hL rand ha flags
  | listpack zl =>
      have hscore := (zsetScore_eq h a.ele).symm
      rw [zsetScore] at hscore
      simp only
      cases hfind : (zzlFind zl a.ele : Option (Nat × ν)) with
      | some found =>
          rw [hfind] at hscore
          exact addSpec_existing
            (u := fun x => .listpack (zzlInsert (zzlDelete zl found.1) ⟨a.ele, x⟩)) ha h hscore
            fun x hx => sameScores_zzlInsert_zzlDelete h.1 h.2 hfind hx
      | none =>
          rw [hfind] at hscore
          have hfree := zzlFind_eq_none h.1 hfind
          simp only
          split_ifs with hxx hbig
          · exact addSpec_nop ha h hscore hxx
          · -- too large for a listpack: the element goes to the skiplist
            obtain ⟨L, hL, hitems⟩ := holds_zsetConvertToSkiplist h.2 rand
            have hspec := zsetAddSkiplist_spec hL rand ha flags
            have hsame : (ZsetObj.skiplist (zsetConvertToSkiplist rand zl)).items =
                (ZsetObj.listpack zl : ZsetObj ν).items := hitems
            have hout := hspec.out
            rw [hsame] at hout
            have hwrites := hspec.writes
            rw [hsame] at hwrites
            refine ⟨hout, hspec.wf, hwrites, fun h' => ?_⟩
            rw [hout, hscore, zaddOut.eq_def, show isNaN a.score = false from ha] at h'
            simp only [Option.map_none, Bool.false_eq_true, if_false, if_neg hxx] at h'
            exact absurd h'.symm Bool.false_ne_true
          · obtain ⟨hvalid', hsound', hperm'⟩ := sound_zzlInsert h.1 h.2 ha hfree
            have hnear := near_zzlEntries ha
            refine addSpec_new ha hscore hxx ⟨hvalid', hsound'⟩ ?_
            have hsame := sameScores_of_perm h.2 hsound' hperm' hnear.2 fun _ _ => rfl
            rwa [hnear.1] at hsame

/-- Added without flags, an element ends up with the score given. -/
theorem zsetAdd_sameScores {zobj : ZsetObj ν} (h : zobj.Wf) (rand : Draws) {a : Scored ν}
    (ha : a.IsNumber) : (zsetAdd rand zobj a {}).2.Wf ∧
      SameScores (zsetAdd rand zobj a {}).2.items (a :: zobj.items) := by
  have hspec := zsetAdd_spec h rand ha {}
  refine ⟨hspec.wf, ?_⟩
  have hout := hspec.out
  rw [zaddOut.eq_def, show isNaN a.score = false from ha, if_neg Bool.false_ne_true] at hout
  cases hw : (zsetAdd rand zobj a {}).1.writes with
  | true =>
      obtain ⟨x, hx, -, hsame⟩ := hspec.writes hw
      have hxa : x = a.score := by
        cases hcur : scoreOf zobj.items a.ele with
        | none =>
            rw [hcur] at hout
            rw [hout] at hx
            exact (Option.some.inj hx).symm
        | some c =>
            rw [hcur] at hout
            rw [hout] at hx
            exact (Option.some.inj hx).symm
      rwa [hxa] at hsame
  | false =>
      -- nothing is written when the score is numerically the one that is there
      rw [hspec.keeps hw]
      cases hcur : scoreOf zobj.items a.ele with
      | none =>
          rw [hcur] at hout
          rw [hout] at hw
          exact absurd hw.symm Bool.false_ne_true
      | some c =>
          rw [hcur] at hout
          rw [hout] at hw
          have heq : Score.eq a.score c = true := by
            simpa [zaddExisting, ZaddOut.writes] using hw
          intro e
          by_cases he : a.ele = e
          · subst he
            rw [scoreOf_cons_self, hcur]
            exact .some (Score.eq_symm heq)
          · rw [scoreOf_cons_of_ne he]
            exact h.sound.scoreOf_refl e

omit [LawfulScore ν] in
/-- Without flags, only NaN is refused. -/
theorem zsetAdd_ok (rand : Draws) (zobj : ZsetObj ν) (a : Scored ν) :
    (zsetAdd rand zobj a {}).1.ok = !isNaN a.score := by
  have hexisting : ∀ c : ν, (zaddExisting {} c a.score).ok = true := by
    intro c
    simp [zaddExisting]
  have hskiplist : ∀ zs : Zset ν, (zsetAddSkiplist rand zs a {}).1.ok = true := by
    intro zs
    rw [zsetAddSkiplist]
    cases zs.dictFind a.ele with
    | none => rfl
    | some id =>
        simp only
        split
        · exact hexisting _
        · exact hexisting _
  rw [zsetAdd.eq_def]
  cases hnan : isNaN a.score with
  | true => rfl
  | false =>
      rw [if_neg Bool.false_ne_true]
      cases zobj with
      | skiplist zs => exact hskiplist zs
      | listpack zl =>
          simp only
          cases (zzlFind zl a.ele : Option (Nat × ν)) with
          | some found =>
              simp only
              split
              · exact hexisting _
              · exact hexisting _
          | none =>
              simp only [Bool.false_eq_true, if_false]
              split_ifs
              · exact hskiplist _
              · rfl

/-- **Deleting** an element: the reply, the invariant, and the elements. -/
structure DelSpec (ele : Bytes) (zobj : ZsetObj ν) (r : Bool × ZsetObj ν) : Prop where
  found : r.1 = (scoreOf zobj.items ele).isSome
  wf : r.2.Wf
  perm : ∀ x, scoreOf zobj.items ele = some x → zobj.items.Perm (⟨ele, x⟩ :: r.2.items)
  sublist : r.2.items.Sublist zobj.items
  keeps : r.1 = false → r.2 = zobj

theorem zsetDel_spec {zobj : ZsetObj ν} (h : zobj.Wf) (ele : Bytes) :
    DelSpec ele zobj (zsetDel zobj ele) := by
  have hscore := (zsetScore_eq h ele).symm
  cases zobj with
  | listpack zl =>
      rw [zsetScore] at hscore
      rw [zsetDel]
      cases hfind : (zzlFind zl ele : Option (Nat × ν)) with
      | none =>
          rw [hfind, Option.map_none] at hscore
          refine ⟨by rw [hscore]; rfl, h, fun x hx => ?_, List.Sublist.refl _, fun _ => rfl⟩
          rw [hscore] at hx
          exact absurd hx (by simp)
      | some found =>
          rw [hfind, Option.map_some] at hscore
          obtain ⟨p, hp, hperm⟩ := zzlFind_eq_some h.1 hfind
          have hsub : (zzlDelete zl found.1).Sublist zl := List.eraseIdx_sublist zl found.1
          refine ⟨by rw [hscore]; rfl, ⟨fun q hq => h.1 q (hsub.subset hq),
            h.2.sublist (hsub.map zzlItem)⟩, fun x hx => ?_, hsub.map zzlItem, nofun⟩
          rw [hscore, Option.some.injEq] at hx
          rw [← hx, ← hp]
          exact hperm.map zzlItem
  | skiplist zs =>
      obtain ⟨L, hL⟩ := h
      rw [zsetScore] at hscore
      rw [zsetDel]
      cases hfind : zs.dictFind ele with
      | none =>
          rw [hfind, Option.map_none] at hscore
          refine ⟨by rw [hscore]; rfl, ⟨L, hL⟩, fun x hx => ?_, List.Sublist.refl _, fun _ => rfl⟩
          rw [hscore] at hx
          exact absurd hx (by simp)
      | some id =>
          rw [hfind, Option.map_some] at hscore
          obtain ⟨hid, rfl⟩ := hL.dictFind_eq_some hfind
          obtain ⟨L', hL', hperm, hsub⟩ := hL.remove hid
          refine ⟨by rw [hscore]; rfl, ⟨L', hL'⟩, fun x hx => ?_, hsub, nofun⟩
          rw [hscore, Option.some.injEq] at hx
          exact hx ▸ hperm

end Lawful

theorem wf_zsetTypeCreate (sizeHint valLenHint : Nat) :
    (zsetTypeCreate sizeHint valLenHint : ZsetObj ν).Wf := by
  rw [zsetTypeCreate]
  split_ifs
  · exact ⟨nofun, Sound.nil⟩
  · exact ⟨[], Zset.holds_create⟩

theorem items_zsetTypeCreate (sizeHint valLenHint : Nat) :
    (zsetTypeCreate sizeHint valLenHint : ZsetObj ν).items = [] := by
  rw [zsetTypeCreate]
  split_ifs
  · rfl
  · exact Zset.holds_create.items_eq

/-! ## Handles -/

/-- The sorted sets and the geo sets, by handle. -/
abbrev Zsets (ν : Type) := Kind → Handles (ZsetObj ν)

/-- Replace the object behind a handle. -/
def Zsets.put {ν : Type} (s : Zsets ν) (kind : Kind) (id : Nat) (o : ZsetObj ν) : Zsets ν := fun k =>
  if k = kind then (s k).put id o else s k

@[simp] theorem Zsets.put_self {ν : Type} (s : Zsets ν) (kind : Kind) (id : Nat) (o : ZsetObj ν) :
    s.put kind id o kind id = o := by
  simp [Zsets.put]

end SkynetJit.Redis
