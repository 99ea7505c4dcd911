import Mathlib.Data.List.Perm.Basic
import SkynetJit.Redis.Listpack
import SkynetJit.Redis.Zset.Score

/-!
# SkynetJit.Redis.Zset.Listpack

The listpack encoding of a sorted set (`kernel/t_zset.c`): element and score
entries in turn, so the model has a list of pairs and a place in it is the
index of a pair.  A score that is an integer is kept as an integer entry,
every other one as its text; either way it reads back as a numerically equal
score, which is all the order looks at.
-/

namespace SkynetJit.Redis

open Scored
open LuaNumber (isNaN)

/-- A listpack of element and score entries. -/
abbrev ZListpack := List (Entry × Entry)

/-- The listpack as the allocator sees it. -/
def ZListpack.flat (zl : ZListpack) : Listpack := zl.flatMap fun p => [p.1, p.2]

section Definitions

variable {ν : Type} [Score ν]

/-- `zzlGetScore`. -/
def zzlGetScore : Entry → ν
  | .int n => Score.ofLong n
  | .str s => Score.strtod s

/-- What the two entries of an element hold. -/
def zzlItem (p : Entry × Entry) : Scored ν := ⟨p.1.toBytes, zzlGetScore p.2⟩

/-- `zzlCompareElements`. -/
def zzlCompareElements (e : Entry) (s : Bytes) : Ordering := sdscmp e.toBytes s

/-- `zzlLength`. -/
def zzlLength (zl : ZListpack) : Nat := zl.flat.length / 2

/-- `zzlFind`: where an element is, and its score. -/
def zzlFind (zl : ZListpack) (ele : Bytes) : Option (Nat × ν) :=
  (zl.findIdx? fun p => lpFindCmp ele p.1).bind fun eptr =>
    zl[eptr]?.map fun p => (eptr, zzlGetScore p.2)

/-- `zzlDelete`. -/
def zzlDelete (zl : ZListpack) (eptr : Nat) : ZListpack := zl.eraseIdx eptr

/-- The two entries that `zzlInsertAt` writes. -/
def zzlEntries (a : Scored ν) : Entry × Entry :=
  (lpEntry a.ele,
    match Score.double2ll a.score with
    | some lscore => .int lscore
    | none => lpEntry (Score.d2string a.score))

/-- `zzlInsertAt` at the end. -/
def zzlAppend (zl : ZListpack) (a : Scored ν) : ZListpack := zl ++ [zzlEntries a]

/-- The test of `zzlInsert`'s loop: the element goes before this one. -/
def zzlGoesBefore (a : Scored ν) (p : Entry × Entry) : Bool :=
  let s : ν := zzlGetScore p.2
  Score.lt a.score s || Score.eq s a.score && zzlCompareElements p.1 a.ele == .gt

/-- `zzlInsert`. -/
def zzlInsert (zl : ZListpack) (a : Scored ν) : ZListpack :=
  match zl with
  | [] => [zzlEntries a]
  | p :: rest => if zzlGoesBefore a p then zzlEntries a :: p :: rest else p :: zzlInsert rest a

/-- The elements of the listpack. -/
def zzlItems (zl : ZListpack) : List (Scored ν) := zl.map zzlItem

end Definitions

/-- Integer entries of elements are machine integers. -/
def ZListpack.Valid (zl : ZListpack) : Prop := ∀ p ∈ zl, p.1.Valid

theorem length_flat (zl : ZListpack) : zl.flat.length = 2 * zl.length := by
  induction zl with
  | nil => rfl
  | cons p zl ih =>
      rw [ZListpack.flat, List.flatMap_cons, List.length_append, ← ZListpack.flat, ih, List.length_cons,
        List.length_cons]
      simp
      omega

@[simp] theorem zzlLength_eq (zl : ZListpack) : zzlLength zl = zl.length := by
  rw [zzlLength, length_flat]
  omega

section Specifications

variable {ν : Type} [Score ν]

/-- **Finding** an element; deleting it leaves the others. -/
theorem zzlFind_eq_some {zl : ZListpack} (hvalid : zl.Valid) {ele : Bytes} {eptr : Nat} {x : ν}
    (h : zzlFind zl ele = some (eptr, x)) :
    ∃ p, zzlItem p = ⟨ele, x⟩ ∧ zl.Perm (p :: zzlDelete zl eptr) := by
  obtain ⟨i, hi, hp⟩ := Option.bind_eq_some_iff.mp h
  obtain ⟨hlt, hcmp, -⟩ := List.findIdx?_eq_some_iff_getElem.mp hi
  rw [List.getElem?_eq_getElem hlt, Option.map_some, Option.some.injEq, Prod.mk.injEq] at hp
  obtain ⟨rfl, rfl⟩ := hp
  refine ⟨zl[i], ?_, (List.getElem_cons_eraseIdx_perm hlt).symm⟩
  rw [zzlItem, (lpFindCmp_iff (hvalid _ (List.getElem_mem hlt)) ele).mp hcmp]

theorem zzlFind_eq_none {zl : ZListpack} (hvalid : zl.Valid) {ele : Bytes}
    (h : (zzlFind zl ele : Option (Nat × ν)) = none) :
    ele ∉ (zzlItems zl : List (Scored ν)).map Scored.ele := by
  have hnone : (zl.findIdx? fun p => lpFindCmp ele p.1) = none := by
    cases hi : zl.findIdx? fun p => lpFindCmp ele p.1 with
    | none => rfl
    | some i =>
        obtain ⟨hlt, -⟩ := List.findIdx?_eq_some_iff_getElem.mp hi
        rw [zzlFind, hi, Option.bind_some, List.getElem?_eq_getElem hlt] at h
        exact absurd h (by simp)
  rw [zzlItems, List.map_map, List.mem_map]
  rintro ⟨p, hp, rfl⟩
  have hfalse := List.findIdx?_eq_none_iff.mp hnone p hp
  rw [Bool.eq_false_iff] at hfalse
  exact hfalse ((lpFindCmp_iff (hvalid p hp) _).mpr rfl)

variable [LawfulScore ν]

/-- **A score cell** reads back as a numerically equal score. -/
theorem near_zzlEntries {a : Scored ν} (ha : a.IsNumber) : Near (zzlItem (zzlEntries a)) a := by
  refine ⟨lpEntry_toBytes a.ele, ?_⟩
  cases h : Score.double2ll a.score with
  | some n =>
      simp only [zzlEntries, zzlItem, h]
      exact (Score.double2ll_eq h).2
  | none =>
      simp only [zzlEntries, zzlItem, h]
      have htext := LawfulScore.strtod_d2string ha h
      rw [lpEntry]
      cases hint : lpStringToInt64 (Score.d2string a.score) with
      | none =>
          rw [zzlGetScore, htext]
          exact Score.eq_refl ha
      | some n =>
          -- a text that is an integer is kept as one
          obtain ⟨hn, heq⟩ := string2ll_sound hint
          have hround := LawfulScore.strtod_ll2string (ν := ν) hn
          rw [heq, htext] at hround
          exact Score.eq_symm hround

omit [LawfulScore ν] in
theorem zzlEntries_valid (a : Scored ν) : (zzlEntries a).1.Valid := lpEntry_valid a.ele

omit [LawfulScore ν] in
/-- The loop stops at the first element that is greater. -/
theorem zzlGoesBefore_iff {a : Scored ν} (ha : a.IsNumber) {p : Entry × Entry}
    (hp : (zzlItem p : Scored ν).IsNumber) : zzlGoesBefore a p = true ↔ Lt a (zzlItem p) := by
  rw [lt_iff ha hp, zzlGoesBefore, Bool.or_eq_true, Bool.and_eq_true, beq_iff_eq, zzlCompareElements,
    sdscmp_eq_gt_iff]
  refine or_congr_right (and_congr_left fun _ => ?_)
  exact ⟨Score.eq_symm, Score.eq_symm⟩

/-- **Inserting** a new element. -/
theorem zzlInsert_spec {zl : ZListpack} (h : Sound (zzlItems zl : List (Scored ν))) {a : Scored ν}
    (ha : a.IsNumber) (hnew : a.ele ∉ (zzlItems zl : List (Scored ν)).map Scored.ele) :
    ∃ A B, zl = A ++ B ∧ zzlInsert zl a = A ++ zzlEntries a :: B ∧
      (∀ p ∈ A, Lt (zzlItem p) a) ∧ ∀ p ∈ B, Lt a (zzlItem p) := by
  induction zl with
  | nil => exact ⟨[], [], rfl, rfl, by simp, by simp⟩
  | cons p zl ih =>
      have hp : (zzlItem p : Scored ν).IsNumber := h.number _ (by simp [zzlItems])
      simp only [zzlItems, List.map_cons, List.mem_cons, not_or] at hnew
      rw [zzlInsert]
      by_cases hbefore : zzlGoesBefore a p = true
      · rw [if_pos hbefore]
        have hlt := (zzlGoesBefore_iff ha hp).mp hbefore
        refine ⟨[], p :: zl, rfl, rfl, by simp, fun q hq => ?_⟩
        rcases List.mem_cons.mp hq with rfl | hq'
        · exact hlt
        · have hq'' : (zzlItem q : Scored ν) ∈ zzlItems zl := List.mem_map_of_mem hq'
          exact hlt.trans ha hp (h.number _ (List.mem_cons_of_mem _ hq''))
            ((List.pairwise_cons.mp h.sorted).1 _ hq'')
      · rw [if_neg hbefore]
        obtain ⟨A, B, hzl, hins, hA, hB⟩ := ih h.tail hnew.2
        refine ⟨p :: A, B, by rw [hzl]; rfl, by rw [hins]; rfl, fun q hq => ?_, hB⟩
        rcases List.mem_cons.mp hq with rfl | hq'
        · exact (lt_or_lt hnew.1).resolve_left (mt (zzlGoesBefore_iff ha hp).mpr hbefore)
        · exact hA q hq'

/-- The listpack after an insertion: the elements are in order again. -/
theorem sound_zzlInsert {zl : ZListpack} (hvalid : zl.Valid) (h : Sound (zzlItems zl : List (Scored ν)))
    {a : Scored ν} (ha : a.IsNumber) (hnew : a.ele ∉ (zzlItems zl : List (Scored ν)).map Scored.ele) :
    (zzlInsert zl a).Valid ∧ Sound (zzlItems (zzlInsert zl a) : List (Scored ν)) ∧
      (zzlItems (zzlInsert zl a) : List (Scored ν)).Perm (zzlItem (zzlEntries a) :: zzlItems zl) := by
  obtain ⟨A, B, rfl, hins, hA, hB⟩ := zzlInsert_spec h ha hnew
  have hnear := near_zzlEntries ha
  rw [hins]
  refine ⟨?_, ?_, ?_⟩
  · intro p hp
    rw [List.mem_append, List.mem_cons] at hp
    rcases hp with hp | rfl | hp
    · exact hvalid p (List.mem_append_left B hp)
    · exact zzlEntries_valid a
    · exact hvalid p (List.mem_append_right A hp)
  · rw [zzlItems, List.map_append] at h hnew
    rw [zzlItems, List.map_append, List.map_cons]
    refine h.insert hnear.number_left (hnear.1 ▸ hnew) ?_ ?_
    · intro b hb
      obtain ⟨p, hp, rfl⟩ := List.mem_map.mp hb
      exact (Lt.congr (Near.refl (h.number _ (List.mem_append_left _ hb))) hnear.symm).mp (hA p hp)
    · intro b hb
      obtain ⟨p, hp, rfl⟩ := List.mem_map.mp hb
      exact (Lt.congr hnear.symm (Near.refl (h.number _ (List.mem_append_right _ hb)))).mp (hB p hp)
  · rw [zzlItems, zzlItems, ← List.map_cons]
    exact List.perm_middle.map _

end Specifications

end SkynetJit.Redis
