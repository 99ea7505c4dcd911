import Mathlib.Data.List.Lex
import Mathlib.Order.Basic
import SkynetJit.Redis.Number

/-!
# SkynetJit.Redis.Zset.Score

Scores and the order of a sorted set.

A score is a double.  What the sorted sets do with one is a class, `Score`;
that its comparisons order the numbers and that a listpack cell reads back as
the number written is `LawfulScore`.  The order of a sorted set, by score and
then by the bytes of the element, is total on elements with distinct names,
and it does not tell numerically equal scores apart.
-/

namespace SkynetJit.Redis

/-- The doubles as the sorted sets use them. -/
class Score (ν : Type) extends LuaNumber ν where
  /-- `<`. -/
  lt : ν → ν → Bool
  /-- `+`. -/
  add : ν → ν → ν
  /-- `*`. -/
  mul : ν → ν → ν
  /-- The conversion of a `long long`. -/
  ofLong : Int → ν
  /-- `d2string`, the text of a score cell. -/
  d2string : ν → Bytes
  /-- `fast_float_strtod` over a whole text. -/
  strtod : Bytes → ν
  /-- `fast_float_strtod`, if it stops at the end of the C string. -/
  strtodAll : Bytes → Option ν

namespace Score

open LuaNumber (isNaN)

variable {ν : Type} [Score ν]

/-- `==`: neither is NaN and neither is smaller. -/
def eq (x y : ν) : Bool := !isNaN x && !isNaN y && !lt x y && !lt y x

/-- `<=`. -/
def le (x y : ν) : Bool := lt x y || eq x y

/-- `double2ll`: the integer a double is, within half the range of a
`long long`. -/
def double2ll (x : ν) : Option Int :=
  match LuaNumber.toLong x with
  | some n => if -2 ^ 62 ≤ n ∧ n ≤ 2 ^ 62 then some n else none
  | none => none

end Score

open LuaNumber (isNaN)

/-- What is relied on of doubles: `<` orders what is not NaN, the conversions
are exact where they succeed, and a text reads back as the number written. -/
class LawfulScore (ν : Type) [Score ν] : Prop where
  lt_irrefl : ∀ x : ν, Score.lt x x = false
  lt_trans : ∀ {x y z : ν}, Score.lt x y = true → Score.lt y z = true → Score.lt x z = true
  number_of_lt : ∀ {x y : ν}, Score.lt x y = true → isNaN x = false ∧ isNaN y = false
  lt_or_lt : ∀ {x y z : ν}, isNaN y = false → Score.lt x z = true →
    Score.lt x y = true ∨ Score.lt y z = true
  number_ofLong : ∀ n : Int, isNaN (Score.ofLong n : ν) = false
  toLong_eq : ∀ {x : ν} {n : Int}, LuaNumber.toLong x = some n →
    IsInt64 n ∧ Score.eq (Score.ofLong n) x = true
  strtod_d2string : ∀ {x : ν}, isNaN x = false → Score.double2ll x = none →
    Score.strtod (Score.d2string x) = x
  strtod_ll2string : ∀ {n : Int}, IsInt64 n →
    Score.eq (Score.strtod (ll2string n) : ν) (Score.ofLong n) = true

namespace Score

variable {ν : Type} [Score ν]

theorem eq_iff {x y : ν} : eq x y = true ↔
    isNaN x = false ∧ isNaN y = false ∧ lt x y = false ∧ lt y x = false := by
  simp only [eq, Bool.and_eq_true, Bool.not_eq_true']
  tauto

theorem eq_symm {x y : ν} (h : eq x y = true) : eq y x = true := by
  rw [eq_iff] at h ⊢
  exact ⟨h.2.1, h.1, h.2.2.2, h.2.2.1⟩

variable [LawfulScore ν]

theorem eq_refl {x : ν} (h : isNaN x = false) : eq x x = true := by
  rw [eq_iff]
  exact ⟨h, h, LawfulScore.lt_irrefl x, LawfulScore.lt_irrefl x⟩

theorem lt_asymm {x y : ν} (h : lt x y = true) : lt y x = false := by
  cases hyx : lt y x with
  | false => rfl
  | true =>
      have hxx := LawfulScore.lt_trans h hyx
      rwa [LawfulScore.lt_irrefl, eq_comm] at hxx

/-- Numbers that are equal are on the same side of every other number. -/
theorem lt_of_lt_of_eq {x y z : ν} (h : lt x y = true) (hyz : eq y z = true) : lt x z = true := by
  rw [eq_iff] at hyz
  rcases LawfulScore.lt_or_lt hyz.2.1 h with hxz | hzy
  · exact hxz
  · rw [hyz.2.2.2] at hzy
    exact absurd hzy Bool.false_ne_true

theorem lt_of_eq_of_lt {x y z : ν} (hxy : eq x y = true) (h : lt y z = true) : lt x z = true := by
  rw [eq_iff] at hxy
  rcases LawfulScore.lt_or_lt hxy.1 h with hyx | hxz
  · rw [hxy.2.2.2] at hyx
    exact absurd hyx Bool.false_ne_true
  · exact hxz

theorem lt_congr {x x' y y' : ν} (hx : eq x x' = true) (hy : eq y y' = true) :
    lt x y = lt x' y' := by
  rw [Bool.eq_iff_iff]
  exact ⟨fun h => lt_of_lt_of_eq (lt_of_eq_of_lt (eq_symm hx) h) hy,
    fun h => lt_of_lt_of_eq (lt_of_eq_of_lt hx h) (eq_symm hy)⟩

theorem eq_trans {x y z : ν} (hxy : eq x y = true) (hyz : eq y z = true) : eq x z = true := by
  have hx := eq_iff.mp hxy
  have hz := eq_iff.mp hyz
  rw [eq_iff, ← lt_congr (eq_refl hx.1) hyz, ← lt_congr hyz (eq_refl hx.1)]
  exact ⟨hx.1, hz.2.1, hx.2.2.1, hx.2.2.2⟩

omit [LawfulScore ν] in
theorem le_of_lt {x y : ν} (h : lt x y = true) : le x y = true := by
  rw [le, h, Bool.true_or]

theorem number_of_le {x y : ν} (h : le x y = true) : isNaN x = false ∧ isNaN y = false := by
  rw [le, Bool.or_eq_true, eq_iff] at h
  exact h.elim LawfulScore.number_of_lt fun h => ⟨h.1, h.2.1⟩

theorem le_refl {x : ν} (h : isNaN x = false) : le x x = true := by
  rw [le, eq_refl h, Bool.or_true]

theorem lt_of_lt_of_le {x y z : ν} (h : lt x y = true) (h' : le y z = true) : lt x z = true := by
  rw [le, Bool.or_eq_true] at h'
  exact h'.elim (LawfulScore.lt_trans h) (lt_of_lt_of_eq h)

theorem lt_of_le_of_lt {x y z : ν} (h : le x y = true) (h' : lt y z = true) : lt x z = true := by
  rw [le, Bool.or_eq_true] at h
  exact h.elim (fun h => LawfulScore.lt_trans h h') fun h => lt_of_eq_of_lt h h'

theorem le_trans {x y z : ν} (h : le x y = true) (h' : le y z = true) : le x z = true := by
  rw [le, Bool.or_eq_true] at h'
  rcases h' with h' | h'
  · rw [le, lt_of_le_of_lt h h', Bool.true_or]
  · rw [le, Bool.or_eq_true] at h ⊢
    exact h.imp (fun h => lt_of_lt_of_eq h h') fun h => eq_trans h h'

omit [LawfulScore ν] in
/-- Numbers are comparable. -/
theorem lt_or_le {x y : ν} (hx : isNaN x = false) (hy : isNaN y = false) :
    lt x y = true ∨ le y x = true := by
  rw [le, Bool.or_eq_true, eq_iff]
  cases hxy : lt x y with
  | true => exact .inl rfl
  | false =>
      cases hyx : lt y x with
      | true => exact .inr (.inl rfl)
      | false => exact .inr (.inr ⟨hy, hx, rfl, rfl⟩)

theorem not_lt_of_le {x y : ν} (h : le x y = true) : lt y x = false := by
  cases hyx : lt y x with
  | false => rfl
  | true =>
      have hyy := lt_of_lt_of_le hyx h
      rwa [LawfulScore.lt_irrefl, eq_comm] at hyy

theorem double2ll_eq {x : ν} {n : Int} (h : double2ll x = some n) :
    IsInt64 n ∧ eq (ofLong n) x = true := by
  rw [double2ll] at h
  split at h
  · next m hm =>
      split at h
      · exact Option.some.inj h ▸ LawfulScore.toLong_eq hm
      · exact absurd h (by simp)
  · exact absurd h (by simp)

end Score

theorem le_eq_not_lt {ν : Type} [Score ν] [LawfulScore ν] {x y : ν} (hx : isNaN x = false)
    (hy : isNaN y = false) : Score.le x y = !Score.lt y x := by
  cases hlt : Score.lt y x with
  | true =>
      cases hle : Score.le x y with
      | true => exact absurd (hlt.symm.trans (Score.not_lt_of_le hle)) nofun
      | false => rfl
  | false =>
      rcases Score.lt_or_le hy hx with h | h
      · exact absurd (hlt.symm.trans h) nofun
      · exact h

/-! ## Elements with scores -/

/-- An element of a sorted set with its score. -/
@[ext] structure Scored (ν : Type) where
  ele : Bytes
  score : ν
deriving DecidableEq, Repr

namespace Scored

variable {ν : Type} [Score ν]

/-- A heap cell that was never used holds nothing of interest. -/
instance : Inhabited (Scored ν) := ⟨⟨[], Score.ofLong 0⟩⟩

/-- By score, then by the bytes of the element. -/
def compare (a b : Scored ν) : Ordering :=
  if Score.lt a.score b.score then .lt
  else if Score.lt b.score a.score then .gt
  else sdscmp a.ele b.ele

/-- The order of a sorted set. -/
def Lt (a b : Scored ν) : Prop := compare a b = .lt

instance (a b : Scored ν) : Decidable (Lt a b) := inferInstanceAs (Decidable (_ = _))

/-- A score that is a number. -/
def IsNumber (a : Scored ν) : Prop := isNaN a.score = false

/-- The same element with numerically equal scores. -/
def Near (a b : Scored ν) : Prop := a.ele = b.ele ∧ Score.eq a.score b.score = true

variable {a b c : Scored ν}

theorem Near.symm (h : Near a b) : Near b a := ⟨h.1.symm, Score.eq_symm h.2⟩

theorem Near.number_left (h : Near a b) : a.IsNumber := (Score.eq_iff.mp h.2).1

theorem Near.number_right (h : Near a b) : b.IsNumber := (Score.eq_iff.mp h.2).2.1

theorem lt_of_score (h : Score.lt a.score b.score = true) : Lt a b := by
  rw [Lt, compare, if_pos h]

/-- Compared the other way round. -/
theorem compare_swap (h : Score.lt a.score b.score = true → Score.lt b.score a.score = false) :
    (compare a b).swap = compare b a := by
  rw [compare, compare]
  split_ifs with hab hba
  · rw [h hab] at hba
    exact absurd hba Bool.false_ne_true
  · rfl
  · rfl
  · exact sdscmp_swap a.ele b.ele

variable [LawfulScore ν]

theorem Near.refl (h : a.IsNumber) : Near a a := ⟨rfl, Score.eq_refl h⟩

theorem Near.trans (h : Near a b) (h' : Near b c) : Near a c :=
  ⟨h.1.trans h'.1, Score.eq_trans h.2 h'.2⟩

/-- Numerically equal scores compare alike. -/
theorem compare_congr {a' b' : Scored ν} (ha : Near a a') (hb : Near b b') :
    compare a b = compare a' b' := by
  rw [compare, compare, Score.lt_congr ha.2 hb.2, Score.lt_congr hb.2 ha.2, ha.1, hb.1]

theorem compare_eq_gt_iff : compare a b = .gt ↔ Lt b a := by
  rw [Lt, ← compare_swap Score.lt_asymm]
  cases compare b a <;> simp

theorem Lt.congr {a' b' : Scored ν} (ha : Near a a') (hb : Near b b') : Lt a b ↔ Lt a' b' := by
  rw [Lt, Lt, compare_congr ha hb]

omit [LawfulScore ν] in
theorem lt_iff (ha : a.IsNumber) (hb : b.IsNumber) :
    Lt a b ↔ Score.lt a.score b.score = true ∨ Score.eq a.score b.score = true ∧ a.ele < b.ele := by
  rw [Lt, compare, Score.eq_iff]
  split_ifs with hab hba
  · simp [hab]
  · simpa [hba] using hab
  · rw [sdscmp_eq_lt_iff]
    simp [hab, hba, show isNaN a.score = false from ha, show isNaN b.score = false from hb]

omit [LawfulScore ν] in
/-- Along the order the scores do not fall. -/
theorem le_of_lt {a b : Scored ν} (ha : a.IsNumber) (hb : b.IsNumber) (h : Lt a b) :
    Score.le a.score b.score = true := by
  rw [Score.le, Bool.or_eq_true]
  exact ((lt_iff ha hb).mp h).imp id And.left

theorem Lt.irrefl (a : Scored ν) : ¬ Lt a a := by
  rw [Lt, compare, LawfulScore.lt_irrefl]
  simp [sdscmp_eq_lt_iff]

theorem Lt.asymm (h : Lt a b) : ¬ Lt b a := by
  rw [Lt, ← compare_swap Score.lt_asymm, show compare a b = .lt from h]
  simp

theorem Lt.trans (ha : a.IsNumber) (hb : b.IsNumber) (hc : c.IsNumber) (h : Lt a b) (h' : Lt b c) :
    Lt a c := by
  rw [lt_iff ha hb] at h
  rw [lt_iff hb hc] at h'
  rw [lt_iff ha hc]
  rcases h with h | ⟨h, hele⟩ <;> rcases h' with h' | ⟨h', hele'⟩
  · exact .inl (LawfulScore.lt_trans h h')
  · exact .inl (Score.lt_of_lt_of_eq h h')
  · exact .inl (Score.lt_of_eq_of_lt h h')
  · exact .inr ⟨Score.eq_trans h h', List.lt_trans hele hele'⟩

/-- Distinct elements are comparable. -/
theorem lt_or_lt (hne : a.ele ≠ b.ele) : Lt a b ∨ Lt b a := by
  rw [← compare_eq_gt_iff (a := a), Lt]
  cases h : compare a b with
  | lt => exact .inl rfl
  | gt => exact .inr rfl
  | eq =>
      rw [compare] at h
      split_ifs at h
      exact absurd (sdscmp_eq_iff.mp h) hne

end Scored

/-! ## The elements in order -/

open Scored

/-- The score of an element. -/
def scoreOf {ν : Type} (l : List (Scored ν)) (ele : Bytes) : Option ν :=
  (l.find? fun a => a.ele = ele).map Scored.score

/-- The elements of a sorted set, as a walk meets them. -/
structure Sound {ν : Type} [Score ν] (l : List (Scored ν)) : Prop where
  number : ∀ a ∈ l, a.IsNumber
  nodup : (l.map ele).Nodup
  sorted : l.Pairwise Lt

/-- Two lists with the same elements, each with numerically equal scores. -/
def SameScores {ν : Type} [Score ν] (l l' : List (Scored ν)) : Prop :=
  ∀ e, Option.Rel (fun x y => Score.eq x y = true) (scoreOf l e) (scoreOf l' e)

section Items

variable {ν : Type}

theorem scoreOf_cons_self (a : Scored ν) (l : List (Scored ν)) :
    scoreOf (a :: l) a.ele = some a.score := by
  simp [scoreOf]

theorem scoreOf_cons_of_ne {a : Scored ν} {e : Bytes} (h : a.ele ≠ e) (l : List (Scored ν)) :
    scoreOf (a :: l) e = scoreOf l e := by
  simp [scoreOf, h]

theorem scoreOf_eq_none_iff {l : List (Scored ν)} {e : Bytes} :
    scoreOf l e = none ↔ e ∉ l.map ele := by
  simp [scoreOf, List.find?_eq_none]

theorem scoreOf_eq_some_iff {l : List (Scored ν)} (hnd : (l.map ele).Nodup) {e : Bytes} {x : ν} :
    scoreOf l e = some x ↔ ⟨e, x⟩ ∈ l := by
  induction l with
  | nil => simp [scoreOf]
  | cons a l ih =>
      rw [List.map_cons, List.nodup_cons] at hnd
      by_cases h : a.ele = e
      · subst h
        rw [scoreOf_cons_self, Option.some.injEq, List.mem_cons, Scored.ext_iff]
        refine ⟨fun hx => .inl ⟨rfl, hx.symm⟩, ?_⟩
        rintro (hx | hx)
        · exact hx.2.symm
        · exact absurd (List.mem_map_of_mem hx) hnd.1
      · rw [scoreOf_cons_of_ne h, ih hnd.2, List.mem_cons, Scored.ext_iff]
        simp [Ne.symm h]

theorem scoreOf_append_singleton {l : List (Scored ν)} {a : Scored ν} {e : Bytes} :
    scoreOf (l ++ [a]) e = (scoreOf l e).or (if a.ele = e then some a.score else none) := by
  rw [scoreOf, List.find?_append, Option.map_or, ← scoreOf]
  congr 1
  by_cases h : a.ele = e
  · simp [h]
  · simp [h]

/-- One score of many is replaced. -/
theorem scoreOf_map_replace {l : List (Scored ν)} {n e : Bytes} {x : ν} :
    scoreOf (l.map fun b => if b.ele = n then ⟨b.ele, x⟩ else b) e =
      (scoreOf l e).map fun y => if n = e then x else y := by
  induction l with
  | nil => rfl
  | cons b l ih =>
      rw [List.map_cons]
      by_cases hb : b.ele = n
      · rw [if_pos hb]
        by_cases he : b.ele = e
        · subst he
          rw [scoreOf_cons_self ⟨b.ele, x⟩, scoreOf_cons_self, Option.map_some, if_pos hb.symm]
        · rw [scoreOf_cons_of_ne (a := ⟨b.ele, x⟩) he, scoreOf_cons_of_ne he, ih]
      · rw [if_neg hb]
        by_cases he : b.ele = e
        · subst he
          rw [scoreOf_cons_self, scoreOf_cons_self, Option.map_some, if_neg (Ne.symm hb)]
        · rw [scoreOf_cons_of_ne he, scoreOf_cons_of_ne he, ih]

theorem scoreOf_map_score {l : List (Scored ν)} (f : ν → ν) (e : Bytes) :
    scoreOf (l.map fun a => ⟨a.ele, f a.score⟩) e = (scoreOf l e).map f := by
  induction l with
  | nil => rfl
  | cons a l ih =>
      rw [List.map_cons]
      by_cases he : a.ele = e
      · subst he
        rw [scoreOf_cons_self ⟨a.ele, f a.score⟩, scoreOf_cons_self, Option.map_some]
      · rw [scoreOf_cons_of_ne (a := ⟨a.ele, f a.score⟩) he, scoreOf_cons_of_ne he, ih]

/-- Keeping some elements and changing their scores. -/
theorem scoreOf_filterMap {l : List (Scored ν)} (hnd : (l.map Scored.ele).Nodup)
    {f : Scored ν → Option (Scored ν)} (hf : ∀ a b, f a = some b → b.ele = a.ele) (e : Bytes) :
    scoreOf (l.filterMap f) e = (scoreOf l e).bind fun x => (f ⟨e, x⟩).map Scored.score := by
  induction l with
  | nil => rfl
  | cons a l ih =>
      rw [List.map_cons, List.nodup_cons] at hnd
      rw [List.filterMap_cons]
      by_cases he : a.ele = e
      · subst he
        rw [scoreOf_cons_self, Option.bind_some, show (⟨a.ele, a.score⟩ : Scored ν) = a from rfl]
        have hrest : scoreOf (l.filterMap f) a.ele = none := by
          rw [ih hnd.2, scoreOf_eq_none_iff.mpr hnd.1]
          rfl
        cases hfa : f a with
        | none => exact hrest
        | some b =>
            simp only
            rw [← hf a b hfa, scoreOf_cons_self, Option.map_some]
      · rw [scoreOf_cons_of_ne he, ← ih hnd.2]
        cases hfa : f a with
        | none => rfl
        | some b =>
            simp only
            exact scoreOf_cons_of_ne (hf a b hfa ▸ he) _

/-- Keeping elements by their names. -/
theorem scoreOf_filter {l : List (Scored ν)} (p : Bytes → Bool) (e : Bytes) :
    scoreOf (l.filter fun a => p a.ele) e = if p e then scoreOf l e else none := by
  induction l with
  | nil => simp [scoreOf]
  | cons a l ih =>
      rw [List.filter_cons]
      by_cases he : a.ele = e
      · subst he
        split_ifs with hp
        · rw [scoreOf_cons_self, scoreOf_cons_self]
        · rw [ih, if_neg hp]
      · rw [scoreOf_cons_of_ne he, ← ih]
        split_ifs with hp
        · exact scoreOf_cons_of_ne he _
        · rfl

/-- The scores of a list without duplicates do not depend on its order. -/
theorem scoreOf_perm {l l' : List (Scored ν)} (hnd : (l.map ele).Nodup) (h : l.Perm l') (e : Bytes) :
    scoreOf l e = scoreOf l' e := by
  refine Option.ext fun x => ?_
  rw [scoreOf_eq_some_iff hnd, scoreOf_eq_some_iff ((h.map ele).nodup_iff.mp hnd), h.mem_iff]

variable [Score ν]

theorem Sound.nil : Sound ([] : List (Scored ν)) := ⟨by simp, by simp, by simp⟩

theorem Sound.sublist {l l' : List (Scored ν)} (h : Sound l) (hs : l'.Sublist l) : Sound l' :=
  ⟨fun a ha => h.number a (hs.subset ha), h.nodup.sublist (hs.map ele), h.sorted.sublist hs⟩

theorem Sound.tail {a : Scored ν} {l : List (Scored ν)} (h : Sound (a :: l)) : Sound l :=
  h.sublist (List.sublist_cons_self a l)

theorem SameScores.symm {l l' : List (Scored ν)} (h : SameScores l l') : SameScores l' l := by
  intro e
  have := h e
  cases hx : scoreOf l e <;> cases hy : scoreOf l' e <;> rw [hx, hy] at this
  · exact .none
  · cases this
  · cases this
  · cases this with
    | some hxy => exact .some (Score.eq_symm hxy)

theorem SameScores.mem_iff {l l' : List (Scored ν)} (h : SameScores l l') (e : Bytes) :
    e ∈ l.map ele ↔ e ∈ l'.map ele := by
  have hrel := h e
  rw [← not_iff_not, ← scoreOf_eq_none_iff, ← scoreOf_eq_none_iff]
  generalize scoreOf l e = x at hrel ⊢
  generalize scoreOf l' e = y at hrel ⊢
  cases hrel <;> simp

variable [LawfulScore ν]

theorem SameScores.cons {l l' : List (Scored ν)} (h : SameScores l l') {a : Scored ν}
    (ha : a.IsNumber) : SameScores (a :: l) (a :: l') := by
  intro e
  by_cases he : a.ele = e
  · subst he
    rw [scoreOf_cons_self, scoreOf_cons_self]
    exact .some (Score.eq_refl ha)
  · rw [scoreOf_cons_of_ne he, scoreOf_cons_of_ne he]
    exact h e

theorem SameScores.append_left {l l' m : List (Scored ν)} (h : SameScores l l')
    (hm : ∀ a ∈ m, a.IsNumber) : SameScores (m ++ l) (m ++ l') := by
  induction m with
  | nil => exact h
  | cons a m ih =>
      exact (ih fun b hb => hm b (List.mem_cons_of_mem a hb)).cons (hm a List.mem_cons_self)

theorem Sound.scoreOf_refl {l : List (Scored ν)} (h : Sound l) (e : Bytes) :
    Option.Rel (fun x y => Score.eq x y = true) (scoreOf l e) (scoreOf l e) := by
  cases hx : scoreOf l e with
  | none => exact .none
  | some x => exact .some (Score.eq_refl (h.number _ ((scoreOf_eq_some_iff h.nodup).mp hx)))

theorem SameScores.trans {l l' l'' : List (Scored ν)} (h : SameScores l l') (h' : SameScores l' l'') :
    SameScores l l'' := by
  intro e
  have hx := h e
  have hy := h' e
  generalize scoreOf l e = x at hx ⊢
  generalize scoreOf l' e = y at hx hy
  generalize scoreOf l'' e = z at hy ⊢
  cases hx with
  | none => exact hy
  | some hxy =>
      cases hy with
      | some hyz => exact .some (Score.eq_trans hxy hyz)

/-- The elements decide the list. -/
theorem Sound.eq_of_perm {l l' : List (Scored ν)} (h : Sound l) (h' : Sound l') (hperm : l.Perm l') :
    l = l' :=
  hperm.eq_of_pairwise (fun _ _ _ _ hab hba => absurd hba hab.asymm) h.sorted h'.sorted

/-- The scores decide the list. -/
theorem Sound.eq_of_scoreOf {l l' : List (Scored ν)} (h : Sound l) (h' : Sound l')
    (hscore : ∀ e, scoreOf l e = scoreOf l' e) : l = l' := by
  refine h.eq_of_perm h' ((List.perm_ext_iff_of_nodup h.nodup.of_map h'.nodup.of_map).mpr fun a => ?_)
  rw [show a = ⟨a.ele, a.score⟩ from rfl, ← scoreOf_eq_some_iff h.nodup, hscore,
    scoreOf_eq_some_iff h'.nodup]

/-- A new element has one place. -/
theorem Sound.split {l : List (Scored ν)} (h : Sound l) {x : Scored ν} (hx : x.IsNumber)
    (hnew : x.ele ∉ l.map ele) :
    ∃ A B, l = A ++ B ∧ (∀ a ∈ A, Lt a x) ∧ ∀ b ∈ B, Lt x b := by
  induction l with
  | nil => exact ⟨[], [], rfl, by simp, by simp⟩
  | cons a l ih =>
      rw [List.map_cons, List.mem_cons, not_or] at hnew
      have hsorted := List.pairwise_cons.mp h.sorted
      rcases lt_or_lt hnew.1 with hlt | hlt
      · refine ⟨[], a :: l, rfl, by simp, fun b hb => ?_⟩
        rcases List.mem_cons.mp hb with rfl | hb'
        · exact hlt
        · exact hlt.trans hx (h.number a (by simp)) (h.number b hb) (hsorted.1 b hb')
      · obtain ⟨A, B, rfl, hA, hB⟩ := ih h.tail hnew.2
        refine ⟨a :: A, B, rfl, fun c hc => ?_, hB⟩
        rcases List.mem_cons.mp hc with rfl | hc'
        · exact hlt
        · exact hA c hc'

omit [LawfulScore ν] in
/-- Put in its place, a new element keeps the order. -/
theorem Sound.insert {A B : List (Scored ν)} (h : Sound (A ++ B)) {x : Scored ν} (hx : x.IsNumber)
    (hnew : x.ele ∉ (A ++ B).map ele) (hA : ∀ a ∈ A, Lt a x) (hB : ∀ b ∈ B, Lt x b) :
    Sound (A ++ x :: B) where
  number a ha := by
    rw [List.mem_append, List.mem_cons] at ha
    rcases ha with ha | rfl | ha
    · exact h.number a (by simp [ha])
    · exact hx
    · exact h.number a (by simp [ha])
  nodup := by
    rw [List.map_append, List.map_cons, List.nodup_middle, ← List.map_append, List.nodup_cons]
    exact ⟨hnew, h.nodup⟩
  sorted := by
    have hs := List.pairwise_append.mp h.sorted
    rw [List.pairwise_append, List.pairwise_cons]
    refine ⟨hs.1, ⟨hB, hs.2.1⟩, fun a ha b hb => ?_⟩
    rcases List.mem_cons.mp hb with rfl | hb'
    · exact hA a ha
    · exact hs.2.2 a ha b hb'

omit [LawfulScore ν] in
/-- An element of one list has its counterpart in the other. -/
theorem SameScores.exists_near {l l' : List (Scored ν)} (h : Sound l) (h' : Sound l')
    (hsame : SameScores l l') {a : Scored ν} (ha : a ∈ l) : ∃ b ∈ l', Near a b := by
  have hrel := hsame a.ele
  rw [(scoreOf_eq_some_iff h.nodup).mpr ha] at hrel
  generalize hb : scoreOf l' a.ele = y at hrel
  cases hrel with
  | some heq => exact ⟨_, (scoreOf_eq_some_iff h'.nodup).mp hb, rfl, heq⟩

omit [LawfulScore ν] in
theorem SameScores.of_cons {a b : Scored ν} {l l' : List (Scored ν)} (h : Sound (a :: l))
    (h' : Sound (b :: l')) (hele : a.ele = b.ele) (hsame : SameScores (a :: l) (b :: l')) :
    SameScores l l' := by
  intro e
  have hrel := hsame e
  by_cases he : a.ele = e
  · subst he
    rw [scoreOf_eq_none_iff.mpr (List.nodup_cons.mp h.nodup).1,
      scoreOf_eq_none_iff.mpr (hele ▸ (List.nodup_cons.mp h'.nodup).1)]
    exact .none
  · rwa [scoreOf_cons_of_ne he, scoreOf_cons_of_ne (hele ▸ he)] at hrel

/-- The order of a sorted set follows from its elements and scores. -/
theorem Sound.near_of_sameScores {l l' : List (Scored ν)} (h : Sound l) (h' : Sound l')
    (hsame : SameScores l l') : List.Forall₂ Near l l' := by
  induction l generalizing l' with
  | nil =>
      cases l' with
      | nil => exact .nil
      | cons b l' =>
          obtain ⟨c, hc, -⟩ := hsame.symm.exists_near h' h List.mem_cons_self
          exact absurd hc List.not_mem_nil
  | cons a l ih =>
      obtain ⟨b', hb', hab'⟩ := hsame.exists_near h h' List.mem_cons_self
      cases l' with
      | nil => exact absurd hb' List.not_mem_nil
      | cons b l' =>
          -- the smallest elements of the two lists are counterparts
          have hele : a.ele = b.ele := by
            by_contra hne
            obtain ⟨a', ha', hba'⟩ := hsame.symm.exists_near h' h List.mem_cons_self
            have hlt : Lt b b' := (List.pairwise_cons.mp h'.sorted).1 b'
              ((List.mem_cons.mp hb').resolve_left fun heq => hne (heq ▸ hab'.1))
            have hlt' : Lt a a' := (List.pairwise_cons.mp h.sorted).1 a'
              ((List.mem_cons.mp ha').resolve_left fun heq => hne (heq ▸ hba'.1.symm))
            have ha := h.number a List.mem_cons_self
            have hb := h'.number b List.mem_cons_self
            exact ((Lt.congr (Near.refl hb) hab'.symm).mp hlt).asymm
              ((Lt.congr (Near.refl ha) hba'.symm).mp hlt')
          have hb : b = b' := by
            rcases List.mem_cons.mp hb' with heq | hin
            · exact heq.symm
            · refine absurd ?_ (List.nodup_cons.mp h'.nodup).1
              rw [← hele, hab'.1]
              exact List.mem_map_of_mem hin
          exact .cons (hb ▸ hab') (ih h.tail h'.tail (hsame.of_cons h h' hele))

omit [LawfulScore ν] in
theorem sameScores_of_near {l l' : List (Scored ν)} (h : List.Forall₂ Near l l') : SameScores l l' := by
  intro e
  induction h with
  | nil => exact .none
  | @cons a b l l' hab _ ih =>
      by_cases he : a.ele = e
      · subst he
        rw [scoreOf_cons_self]
        rw [hab.1, scoreOf_cons_self]
        exact .some hab.2
      · rwa [scoreOf_cons_of_ne he, scoreOf_cons_of_ne (hab.1 ▸ he)]

omit [LawfulScore ν] in
theorem map_ele_of_near {l l' : List (Scored ν)} (h : List.Forall₂ Near l l') :
    l.map ele = l'.map ele := by
  induction h with
  | nil => rfl
  | cons hab _ ih => rw [List.map_cons, List.map_cons, hab.1, ih]

omit [LawfulScore ν] in
theorem exists_near_of_mem {l l' : List (Scored ν)} (h : List.Forall₂ Near l l') {b : Scored ν}
    (hb : b ∈ l') : ∃ a ∈ l, Near a b := by
  induction h with
  | nil => exact absurd hb List.not_mem_nil
  | @cons a c l l' hac _ ih =>
      rcases List.mem_cons.mp hb with rfl | hb'
      · exact ⟨a, List.mem_cons_self, hac⟩
      · obtain ⟨a', ha', hnear⟩ := ih hb'
        exact ⟨a', List.mem_cons_of_mem a ha', hnear⟩

/-- Numerically equal scores keep the order. -/
theorem Sound.of_near {l l' : List (Scored ν)} (h : Sound l) (hnear : List.Forall₂ Near l l') :
    Sound l' where
  number b hb := by
    obtain ⟨a, -, hab⟩ := exists_near_of_mem hnear hb
    exact hab.number_right
  nodup := map_ele_of_near hnear ▸ h.nodup
  sorted := by
    induction hnear with
    | nil => exact .nil
    | @cons a b l l' hab hnear ih =>
        refine List.pairwise_cons.mpr ⟨fun c hc => ?_, ih h.tail⟩
        obtain ⟨c', hc', hnear'⟩ := exists_near_of_mem hnear hc
        exact (Lt.congr hab hnear').mp ((List.pairwise_cons.mp h.sorted).1 c' hc')

end Items

end SkynetJit.Redis
