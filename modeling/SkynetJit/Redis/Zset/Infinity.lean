import SkynetJit.Redis.Zset.Exact
import SkynetJit.Redis.Zset.Facade

/-!
# SkynetJit.Redis.Zset.Infinity

ZINTER and ZUNION on infinite scores.

Zero times infinity is NaN.  ZUNION takes zero for it, whatever the operand;
ZINTER does so for the first operand only, and a NaN from a later one reaches
the aggregate: it is no minimum and no maximum, and a sum that it enters is
zero again, whatever was added before.  `zinter_agrees_iff` says for which
weighted scores of an element the two commands still agree.
-/

namespace SkynetJit.Redis

open Raise Scored
open LuaNumber (isNaN)

/-! ## Minimum and maximum -/

section Extremes

variable {ν : Type} [Score ν] [LawfulScore ν]

theorem le_min_iff {t x c : ν} (ht : isNaN t = false) :
    Score.le (zunionInterAggregate .min t x) c = true ↔ Score.le t c = true ∨ Score.le x c = true := by
  rw [zunionInterAggregate]
  split_ifs with hlt
  · exact ⟨.inr, fun h => h.elim (Score.le_trans (Score.le_of_lt hlt)) id⟩
  · refine ⟨.inl, fun h => h.elim id fun hx => ?_⟩
    exact Score.le_trans ((Score.lt_or_le (Score.number_of_le hx).1 ht).resolve_left hlt) hx

theorem max_le_iff {t x c : ν} (ht : isNaN t = false) :
    Score.le c (zunionInterAggregate .max t x) = true ↔ Score.le c t = true ∨ Score.le c x = true := by
  rw [zunionInterAggregate]
  split_ifs with hlt
  · exact ⟨.inr, fun h => h.elim (fun h => Score.le_trans h (Score.le_of_lt hlt)) id⟩
  · refine ⟨.inl, fun h => h.elim id fun hx => ?_⟩
    exact Score.le_trans hx ((Score.lt_or_le ht (Score.number_of_le hx).2).resolve_left hlt)

/-- What a minimum is at most. -/
theorem foldl_min_iff {t c : ν} (ht : isNaN t = false) (xs : List ν) :
    Score.le (xs.foldl (zunionInterAggregate .min) t) c = true ↔
      Score.le t c = true ∨ ∃ x ∈ xs, Score.le x c = true := by
  induction xs generalizing t with
  | nil => simp
  | cons x xs ih =>
      rw [List.foldl_cons, ih (number_aggregate .min ht x), le_min_iff ht]
      simp [or_assoc]

/-- What a maximum is at least. -/
theorem foldl_max_iff {t c : ν} (ht : isNaN t = false) (xs : List ν) :
    Score.le c (xs.foldl (zunionInterAggregate .max) t) = true ↔
      Score.le c t = true ∨ ∃ x ∈ xs, Score.le c x = true := by
  induction xs generalizing t with
  | nil => simp
  | cons x xs ih =>
      rw [List.foldl_cons, ih (number_aggregate .max ht x), max_le_iff ht]
      simp [or_assoc]

end Extremes

namespace ExtRat

/-- Zero. -/
def zero : ExtRat := .fin 0

theorem le_antisymm {x y : ExtRat} (h : Score.le x y = true) (h' : Score.le y x = true) : x = y := by
  rw [Score.le, Bool.or_eq_true] at h
  rcases h with h | h
  · rw [Score.not_lt_of_le h'] at h
    contradiction
  · exact (eq_iff.mp h).2

theorem nanToZero_eq (x : ExtRat) : nanToZero x = if x = .nan then zero else x := by
  rw [nanToZero]
  exact if_congr isNaN_iff rfl rfl

theorem le_nan (c : ExtRat) : Score.le .nan c = false ∧ Score.le c .nan = false := by
  constructor
  · rw [Bool.eq_false_iff]
    exact fun h => absurd (Score.number_of_le h).1 (by decide)
  · rw [Bool.eq_false_iff]
    exact fun h => absurd (Score.number_of_le h).2 (by decide)

/-- With zero for NaN, a test holds of what it held of, and of the zeros. -/
theorem exists_map_nanToZero {P : ExtRat → Prop} (hnan : ¬ P .nan) (xs : List ExtRat) :
    (∃ x ∈ xs.map nanToZero, P x) ↔ (∃ x ∈ xs, P x) ∨ .nan ∈ xs ∧ P zero := by
  induction xs with
  | nil => simp
  | cons x xs ih =>
      rw [List.map_cons, List.exists_mem_cons_iff, ih, nanToZero_eq, List.exists_mem_cons_iff, List.mem_cons]
      by_cases hx : x = .nan
      · subst hx
        rw [if_pos rfl]
        simp only [hnan, true_or, true_and, false_or]
        exact ⟨fun h => h.elim .inr fun h => h.imp_right And.right, fun h => h.elim (fun h => .inr (.inl h)) .inl⟩
      · rw [if_neg hx]
        simp only [Ne.symm hx, false_or]
        exact or_assoc.symm

/-- The minimum with zero for NaN is the minimum without it if that is not
above zero. -/
theorem min_agree_iff {t : ExtRat} (ht : isNaN t = false) (xs : List ExtRat) :
    xs.foldl (zunionInterAggregate .min) t = (xs.map nanToZero).foldl (zunionInterAggregate .min) t ↔
      (.nan ∈ xs → Score.le t zero = true ∨ ∃ x ∈ xs, Score.le x zero = true) := by
  have hfold := fun ys => number_foldl_aggregate .min ys ht
  have hnan : ∀ c : ExtRat, ¬ Score.le .nan c = true := fun c => by rw [(le_nan c).1]; exact Bool.false_ne_true
  have hzeros : ∀ c, Score.le ((xs.map nanToZero).foldl (zunionInterAggregate .min) t) c = true ↔
      Score.le (xs.foldl (zunionInterAggregate .min) t) c = true ∨ .nan ∈ xs ∧ Score.le zero c = true := by
    intro c
    rw [foldl_min_iff ht, foldl_min_iff ht, exists_map_nanToZero (hnan c), or_assoc]
  rw [← foldl_min_iff ht]
  constructor
  · intro heq hin
    rw [heq]
    exact (hzeros zero).mpr (.inr ⟨hin, Score.le_refl (LawfulScore.number_ofLong 0)⟩)
  · intro hle
    refine le_antisymm ?_ ((hzeros _).mpr (.inl (Score.le_refl (hfold _))))
    rcases (hzeros _).mp (Score.le_refl (hfold (xs.map nanToZero))) with h | ⟨hin, h⟩
    · exact h
    · exact Score.le_trans (hle hin) h

/-- The maximum, likewise. -/
theorem max_agree_iff {t : ExtRat} (ht : isNaN t = false) (xs : List ExtRat) :
    xs.foldl (zunionInterAggregate .max) t = (xs.map nanToZero).foldl (zunionInterAggregate .max) t ↔
      (.nan ∈ xs → Score.le zero t = true ∨ ∃ x ∈ xs, Score.le zero x = true) := by
  have hfold := fun ys => number_foldl_aggregate .max ys ht
  have hnan : ∀ c : ExtRat, ¬ Score.le c .nan = true := fun c => by rw [(le_nan c).2]; exact Bool.false_ne_true
  have hzeros : ∀ c, Score.le c ((xs.map nanToZero).foldl (zunionInterAggregate .max) t) = true ↔
      Score.le c (xs.foldl (zunionInterAggregate .max) t) = true ∨ .nan ∈ xs ∧ Score.le c zero = true := by
    intro c
    rw [foldl_max_iff ht, foldl_max_iff ht, exists_map_nanToZero (hnan c), or_assoc]
  rw [← foldl_max_iff ht]
  constructor
  · intro heq hin
    rw [heq]
    exact (hzeros zero).mpr (.inr ⟨hin, Score.le_refl (LawfulScore.number_ofLong 0)⟩)
  · intro hle
    refine le_antisymm ((hzeros _).mpr (.inl (Score.le_refl (hfold _)))) ?_
    rcases (hzeros _).mp (Score.le_refl (hfold (xs.map nanToZero))) with h | ⟨hin, h⟩
    · exact h
    · exact Score.le_trans h (hle hin)

/-! ## Sums -/

/-- The sum of the code: zero for infinity minus infinity. -/
def plus (x y : ExtRat) : ExtRat := nanToZero (x.add y)

/-- A sum, from the left. -/
def sum (t : ExtRat) (xs : List ExtRat) : ExtRat := xs.foldl plus t

/-- An infinity. -/
def isInf : ExtRat → Bool
  | .posInf | .negInf => true
  | _ => false

/-- The infinities after one have its sign and the other in turn. -/
def Alternates (a : ExtRat) (xs : List ExtRat) : Prop :=
  List.IsChain (fun x y => y = x.neg) (a :: xs.filter isInf)

/-- What may be lost before more is added: zero; a finite number that an
infinity follows; and an infinity that the later ones neither leave alone nor
cancel in turn to the end. -/
def Absorbs (a : ExtRat) (after : List ExtRat) : Prop :=
  match a with
  | .nan => True
  | .fin q => q = 0 ∨ ∃ x ∈ after, isInf x = true
  | .posInf | .negInf => ¬ Alternates a after

@[simp] theorem plus_fin (q r : ℚ) : plus (.fin q) (.fin r) = .fin (q + r) := rfl

theorem plus_nan (a : ExtRat) : plus a .nan = zero := by cases a <;> rfl

theorem plus_zero {a : ExtRat} (h : a ≠ .nan) : plus a zero = a := by
  cases a with
  | nan => contradiction
  | fin q => exact congrArg fin (add_zero q)
  | posInf | negInf => rfl

theorem nanToZero_ne_nan (x : ExtRat) : nanToZero x ≠ .nan := isNaN_eq_false_iff.mp (number_nanToZero x)

theorem sum_ne_nan {t : ExtRat} (h : t ≠ .nan) (xs : List ExtRat) : sum t xs ≠ .nan :=
  isNaN_eq_false_iff.mp (number_foldl_aggregate .sum xs (isNaN_eq_false_iff.mpr h))

theorem map_nanToZero {xs : List ExtRat} (h : .nan ∉ xs) : xs.map nanToZero = xs := by
  rw [List.map_congr_left (g := id), List.map_id]
  intro x hx
  have hne : x ≠ .nan := fun heq => h (heq ▸ hx)
  rw [nanToZero_eq, if_neg hne, id_eq]

/-- Two finite beginnings of a sum. -/
theorem sum_fin_eq_iff {xs : List ExtRat} (hnan : .nan ∉ xs) (q r : ℚ) :
    sum (.fin q) xs = sum (.fin r) xs ↔ q = r ∨ ∃ x ∈ xs, isInf x = true := by
  induction xs generalizing q r with
  | nil => simp [sum]
  | cons x xs ih =>
      rw [List.mem_cons, not_or] at hnan
      rw [List.exists_mem_cons_iff]
      cases x with
      | nan => exact absurd rfl hnan.1
      | fin p =>
          have hstep := ih hnan.2 (q + p) (r + p)
          rw [add_left_inj] at hstep
          exact hstep.trans (or_congr_right (by simp [isInf]))
      | posInf | negInf => exact iff_of_true rfl (.inr (.inl rfl))

/-- An infinite beginning of a sum, and a finite one. -/
theorem sum_inf_eq_iff {xs : List ExtRat} (hnan : .nan ∉ xs) {a : ExtRat} (ha : isInf a = true) (r : ℚ) :
    sum a xs = sum (.fin r) xs ↔ ¬ Alternates a xs := by
  induction xs generalizing a r with
  | nil =>
      refine iff_of_false (fun h => ?_) (not_not_intro (.singleton a))
      rw [show a = .fin r from h] at ha
      contradiction
  | cons x xs ih =>
      rw [List.mem_cons, not_or] at hnan
      cases x with
      | nan => exact absurd rfl hnan.1
      | fin p =>
          have hplus : plus a (.fin p) = a := by
            cases a with
            | posInf | negInf => rfl
            | nan | fin q => contradiction
          rw [sum, List.foldl_cons, hplus]
          exact ih hnan.2 ha (r + p)
      | posInf =>
          -- an infinity of the same sign hides what came before, one of the other sign swaps the two sums
          cases a with
          | posInf => exact iff_of_true rfl fun h => absurd (List.isChain_cons_cons.mp h).1 nofun
          | negInf =>
              rw [eq_comm, Alternates, List.filter_cons_of_pos rfl, List.isChain_cons_cons,
                and_iff_right (by rfl)]
              exact ih hnan.2 rfl 0
          | nan | fin q => contradiction
      | negInf =>
          cases a with
          | posInf =>
              rw [eq_comm, Alternates, List.filter_cons_of_pos rfl, List.isChain_cons_cons,
                and_iff_right (by rfl)]
              exact ih hnan.2 rfl 0
          | negInf => exact iff_of_true rfl fun h => absurd (List.isChain_cons_cons.mp h).1 nofun
          | nan | fin q => contradiction

/-- A sum that starts again from zero. -/
theorem sum_zero_eq_iff {a : ExtRat} (ha : a ≠ .nan) {after : List ExtRat} (hnan : .nan ∉ after) :
    sum zero after = sum a after ↔ Absorbs a after := by
  rw [eq_comm]
  cases a with
  | nan => contradiction
  | fin q => exact sum_fin_eq_iff hnan q 0
  | posInf | negInf => exact sum_inf_eq_iff hnan rfl 0

/-- The last NaN of a sum. -/
theorem sum_split_iff {t : ExtRat} (ht : t ≠ .nan) (before : List ExtRat) {after : List ExtRat}
    (hnan : .nan ∉ after) :
    sum t (before ++ .nan :: after) = sum t ((before ++ .nan :: after).map nanToZero) ↔
      Absorbs (sum t (before.map nanToZero)) after := by
  have hne := sum_ne_nan ht (before.map nanToZero)
  have hleft : sum t (before ++ .nan :: after) = sum zero after := by
    rw [sum, List.foldl_append, List.foldl_cons, plus_nan, sum]
  have hright : sum t ((before ++ .nan :: after).map nanToZero) =
      sum (sum t (before.map nanToZero)) after := by
    rw [List.map_append, List.map_cons, map_nanToZero hnan, nanToZero_eq, if_pos rfl, sum,
      List.foldl_append, List.foldl_cons]
    exact congrArg (fun a => sum a after) (plus_zero hne)
  rw [hleft, hright, sum_zero_eq_iff hne hnan]

theorem sum_agree_iff {t : ExtRat} (ht : t ≠ .nan) (xs : List ExtRat) :
    sum t xs = sum t (xs.map nanToZero) ↔ ∀ before after, xs = before ++ .nan :: after → .nan ∉ after →
      Absorbs (sum t (before.map nanToZero)) after := by
  constructor
  · rintro heq before after rfl hnan
    exact (sum_split_iff ht before hnan).mp heq
  · intro habsorbs
    by_cases hin : .nan ∈ xs
    · -- the last NaN is the first one from behind
      obtain ⟨rest, front, hrev, hnan⟩ := List.eq_append_cons_of_mem (List.mem_reverse.mpr hin)
      have hxs : xs = front.reverse ++ .nan :: rest.reverse := by
        rw [← List.reverse_reverse xs, hrev]
        simp
      have hnan' : .nan ∉ rest.reverse := mt List.mem_reverse.mp hnan
      have heq := (sum_split_iff ht front.reverse hnan').mpr (habsorbs _ _ hxs hnan')
      rwa [← hxs] at heq
    · rw [map_nanToZero hin]

/-! ## The two folds -/

/-- When the NaNs among the weighted scores of an element do no harm, the
scores in the order of the operands. -/
def ProductsAgree (aggregate : Aggregate) : List ExtRat → Prop
  | [] => True
  | p :: ps => match aggregate with
    | .sum | .count => ∀ before after, ps = before ++ .nan :: after → .nan ∉ after →
        Absorbs (sum (nanToZero p) (before.map nanToZero)) after
    | .min => .nan ∈ ps → Score.le (nanToZero p) zero = true ∨ ∃ x ∈ ps, Score.le x zero = true
    | .max => .nan ∈ ps → Score.le zero (nanToZero p) = true ∨ ∃ x ∈ ps, Score.le zero x = true

theorem folds_agree_iff (aggregate : Aggregate) (ps : List ExtRat) :
    interFold aggregate ps = unionFold aggregate (ps.map nanToZero) ↔ ProductsAgree aggregate ps := by
  cases ps with
  | nil => exact iff_of_true rfl trivial
  | cons p ps =>
      have hp := number_nanToZero p
      rw [List.map_cons, interFold, unionFold, Option.some_inj]
      cases aggregate with
      | sum => exact sum_agree_iff (nanToZero_ne_nan p) ps
      | count => exact sum_agree_iff (nanToZero_ne_nan p) ps
      | min => exact min_agree_iff hp ps
      | max => exact max_agree_iff hp ps

end ExtRat

/-! ## The two commands -/

open ExtRat

/-- An element of all operands has a weighted score. -/
theorem products_ne_nil (aggregate : Aggregate) {srcs : List (Zsetopsrc ExtRat)} {e : Bytes} (hne : srcs ≠ [])
    (hall : ∀ src ∈ srcs, src.Has e) : products aggregate srcs e ≠ [] := by
  obtain ⟨src, hsrc⟩ := List.exists_mem_of_ne_nil srcs hne
  intro hnil
  exact contribution_eq_none_iff.mp (List.filterMap_eq_nil_iff.mp hnil src hsrc) (hall src hsrc)

/-- With COUNT what is added are the weights, and no weight is NaN. -/
theorem productsAgree_count {srcs : List (Zsetopsrc ExtRat)} (h : ∀ src ∈ srcs, src.weight ≠ .nan) (e : Bytes) :
    ProductsAgree .count (products .count srcs e) := by
  have hnan : .nan ∉ products .count srcs e := by
    intro hin
    obtain ⟨src, hsrc, hx⟩ := List.mem_filterMap.mp hin
    obtain ⟨x, -, hweight⟩ := Option.map_eq_some_iff.mp hx
    exact h src hsrc hweight
  cases hps : products .count srcs e with
  | nil => exact trivial
  | cons p ps =>
      rintro before after rfl -
      rw [hps] at hnan
      exact absurd (by simp) hnan

theorem weight_mem_of_mem_setopSources {s : Zsets ExtRat} {ids : List Nat} {weights : List ExtRat}
    {src : Zsetopsrc ExtRat} (h : src ∈ setopSources s ids weights) :
    src.weight ∈ weights ∧ src.subject ∈ ids ∧ src.zobj = s .zset src.subject := by
  rw [setopSources, ← List.map_uncurry_zip_eq_zipWith] at h
  obtain ⟨⟨id, weight⟩, hzip, rfl⟩ := List.mem_map.mp h
  exact ⟨(List.of_mem_zip hzip).2, (List.of_mem_zip hzip).1, rfl⟩

/-- **ZINTER and ZUNION on an element of all operands.**  Both commands accept
the same calls, and reply with a score for the element; the scores are equal if
the NaNs among its weighted scores, taken in the order of the operands, do no
harm.  With COUNT they never do. -/
theorem zinter_agrees_iff {s : Zsets ExtRat} (hs : AllWf s) (qsort : CardinalitySort ExtRat) (rand : Draws)
    {args : List (LuaValue ExtRat)} {ids : List Nat} {o : SetopOptions ExtRat}
    (hargs : setopArgs 1 .union false "zunion" args = .ok (ids, o)) :
    ∃ inUnion inInter, exec (lzunion qsort rand args) s = (.ok (flatReply o.withscores inUnion), s) ∧
      exec (lzinter qsort rand args) s = (.ok (flatReply o.withscores inInter), s) ∧
      Sound inUnion ∧ Sound inInter ∧
      ∀ e, (∀ id ∈ ids, (scoreOf (s .zset id).items e).isSome) →
        ∃ x y, scoreOf inUnion e = some x ∧ scoreOf inInter e = some y ∧
          (y = x ↔ ProductsAgree o.aggregate
            (products o.aggregate (qsort.sort (setopSources s ids o.weights)) e)) ∧
          (o.aggregate = .count → y = x) := by
  obtain ⟨inUnion, hunion, hsound, hscore⟩ := setopRead_spec (hs .zset) qsort rand hargs
  have hargs' : setopArgs 1 .inter false "zinter" args = .ok (ids, o) := setopArgs_mono (by decide) hargs
  obtain ⟨inInter, hinter, hsound', hscore'⟩ := setopRead_spec (hs .zset) qsort rand hargs'
  refine ⟨inUnion, inInter, hunion, hinter, hsound, hsound', fun e he => ?_⟩
  obtain ⟨hids, hfits⟩ := fits_setopArgs hargs
  have hperm := qsort.perm (setopSources s ids o.weights)
  have hwf : ∀ src ∈ qsort.sort (setopSources s ids o.weights), src.zobj.Wf := fun src hsrc =>
    wf_setopSources (hs .zset) ids o.weights src (hperm.mem_iff.mp hsrc)
  have hsame : ∀ a ∈ qsort.sort (setopSources s ids o.weights),
      ∀ b ∈ qsort.sort (setopSources s ids o.weights), SameObject a b := fun a ha b hb =>
    sameObject_setopSources s ids o.weights a (hperm.mem_iff.mp ha) b (hperm.mem_iff.mp hb)
  have hall : ∀ src ∈ qsort.sort (setopSources s ids o.weights), src.Has e := by
    intro src hsrc
    obtain ⟨-, hid, hobj⟩ := weight_mem_of_mem_setopSources (hperm.mem_iff.mp hsrc)
    rw [Zsetopsrc.Has, hobj]
    by_contra hout
    have hsome := he src.subject hid
    rw [scoreOf_eq_none_iff.mpr hout] at hsome
    contradiction
  have hne : qsort.sort (setopSources s ids o.weights) ≠ [] := by
    rw [ne_eq, ← List.length_eq_zero_iff, hperm.length_eq, setopSources, List.length_zipWith, hfits.weights,
      Nat.min_self, List.length_eq_zero_iff]
    exact hids
  have hfold := folds_agree_iff o.aggregate (products o.aggregate (qsort.sort (setopSources s ids o.weights)) e)
  rw [hscore, hscore', setopMembers, setopMembers, scoreOf_zunionMembers o.aggregate hwf,
    scoreOf_zinterMembers o.aggregate hwf hsame, if_pos hall]
  obtain ⟨p, ps, hps⟩ := List.exists_cons_of_ne_nil (products_ne_nil o.aggregate hne hall)
  rw [hps, List.map_cons, interFold, unionFold, Option.some_inj] at hfold
  rw [hps, List.map_cons, interFold, unionFold]
  refine ⟨_, _, rfl, rfl, hfold, fun hcount => hfold.mpr ?_⟩
  have hweight : ∀ src ∈ qsort.sort (setopSources s ids o.weights), src.weight ≠ .nan := fun src hsrc =>
    isNaN_eq_false_iff.mp (hfits.number _ (weight_mem_of_mem_setopSources (hperm.mem_iff.mp hsrc)).1)
  have hagree := productsAgree_count hweight e
  rw [hcount] at hps
  rwa [hcount, ← hps]

/-- A finite score and an infinite one. -/
def infinitePair : Zsets ExtRat :=
  let s := (exec (lzadd (fun _ => 0) [.handle .zset 0, .number (.fin 5), .string (ascii "m")])
    fun _ _ => zsetTypeCreate 0 0).2
  (exec (lzadd (fun _ => 0) [.handle .zset 1, .number .posInf, .string (ascii "m"), .number (.fin 1),
    .string (ascii "n")]) s).2

/-- The infinite one has the weight zero. -/
def infiniteArgs (weight : ExtRat) : List (LuaValue ExtRat) :=
  [.table [.handle .zset 0, .handle .zset 1], .string (ascii "weights"), .table [.number (.fin 1), .number weight],
    .string (ascii "withscores")]

theorem zinter_agrees_iff_sample : AllWf infinitePair ∧ ∃ inUnion inInter,
    exec (lzunion insertionCardinalitySort (fun _ => 0) (infiniteArgs (.fin 2))) infinitePair =
      (.ok (flatReply true inUnion), infinitePair) ∧
    exec (lzinter insertionCardinalitySort (fun _ => 0) (infiniteArgs (.fin 2))) infinitePair =
      (.ok (flatReply true inInter), infinitePair) ∧
    ∃ x, scoreOf inUnion (ascii "m") = some x ∧ scoreOf inInter (ascii "m") = some x := by
  have hwf : AllWf infinitePair := keeps_lzaddGeneric _ _ _ _
    (keeps_lzaddGeneric _ _ _ _ fun _ _ => wf_zsetTypeCreate 0 0)
  have hargs : setopArgs 1 .union false "zunion" (infiniteArgs (.fin 2)) =
      .ok ([0, 1], { weights := [.fin 1, .fin 2], withscores := true }) := rfl
  obtain ⟨inUnion, inInter, hunion, hinter, -, -, hscores⟩ :=
    zinter_agrees_iff hwf insertionCardinalitySort (fun _ => 0) hargs
  obtain ⟨x, y, hx, hy, hiff, -⟩ := hscores (ascii "m") (by decide +kernel)
  have hps : products .sum (insertionCardinalitySort.sort (setopSources infinitePair [0, 1] [.fin 1, .fin 2]))
      (ascii "m") = [.fin 5, .posInf] := by decide +kernel
  rw [hps] at hiff
  have heq : y = x := by
    refine hiff.mpr fun before after hsplit _ => absurd ?_ (show ExtRat.nan ∉ [ExtRat.posInf] by decide)
    rw [hsplit]
    simp
  exact ⟨hwf, inUnion, inInter, hunion, hinter, x, hx, heq ▸ hy⟩

/-- Five, and zero times infinity: ZUNION replies 5, ZINTER replies 0. -/
theorem zinter_drops_the_sum :
    (exec (lzunion insertionCardinalitySort (fun _ => 0) (infiniteArgs (.fin 0))) infinitePair).1 =
      .ok (flatReply true [⟨ascii "n", .fin 0⟩, ⟨ascii "m", .fin 5⟩]) ∧
    (exec (lzinter insertionCardinalitySort (fun _ => 0) (infiniteArgs (.fin 0))) infinitePair).1 =
      .ok (flatReply true [⟨ascii "m", .fin 0⟩]) := by
  have hargs : setopArgs 1 .union false "zunion" (infiniteArgs (.fin 0)) =
      .ok ([0, 1], { weights := [.fin 1, .fin 0], withscores := true }) := rfl
  have hargs' : setopArgs 1 .inter false "zinter" (infiniteArgs (.fin 0)) =
      .ok ([0, 1], { weights := [.fin 1, .fin 0], withscores := true }) := rfl
  let srcs := setopSources infinitePair [0, 1] [.fin 1, .fin 0]
  have hunion : (Zset.create.addAll (fun _ => 0) (setopMembers insertionCardinalitySort .union .sum srcs)).items =
      [⟨ascii "n", .fin 0⟩, ⟨ascii "m", .fin 5⟩] := by decide +kernel
  have hinter : (Zset.create.addAll (fun _ => 0) (setopMembers insertionCardinalitySort .inter .sum srcs)).items =
      [⟨ascii "m", .fin 0⟩] := by decide +kernel
  rw [lzunion, lzinter, exec_setopRead, exec_setopRead, hargs, hargs']
  exact ⟨congrArg (Except.ok ∘ flatReply true) hunion, congrArg (Except.ok ∘ flatReply true) hinter⟩

end SkynetJit.Redis
