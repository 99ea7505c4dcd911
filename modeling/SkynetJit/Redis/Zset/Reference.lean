import Mathlib.Algebra.BigOperators.Group.List.Basic
import Mathlib.Data.Finset.Card
import SkynetJit.Redis.Zset.Exact
import SkynetJit.Redis.Zset.Facade

/-!
# SkynetJit.Redis.Zset.Reference

What ZUNION, ZINTER and ZDIFF are for, on exact scores.

An operand is a finite map from elements to scores, with a weight; the
reference operations say for each element which score it has in the result.
They know no encodings and no order of the operands, and `setops_reference`
says that the commands reply what they say.
-/

namespace SkynetJit.Redis

open Raise Scored ExactScore

/-! ## The reference operations -/

/-- A position of the operand list: the scores, and the weight. -/
structure Operand where
  scores : Bytes → Option ℚ
  weight : ℚ

/-- What a position adds for an element with this score. -/
def Aggregate.term (aggregate : Aggregate) (weight score : ℚ) : ℚ :=
  if aggregate = .count then weight else weight * score

/-- The sum, the minimum or the maximum of what the positions add. -/
def Aggregate.total (aggregate : Aggregate) (terms : List ℚ) : Option ℚ :=
  if terms = [] then none
  else match aggregate with
    | .sum => some terms.sum
    | .min => terms.min?
    | .max => terms.max?
    | .count => some terms.sum

namespace Operand

/-- What the positions that have an element add for it. -/
def terms (aggregate : Aggregate) (ops : List Operand) (e : Bytes) : List ℚ :=
  ops.filterMap fun p => (p.scores e).map (aggregate.term p.weight)

/-- The union. -/
def union (aggregate : Aggregate) (ops : List Operand) (e : Bytes) : Option ℚ :=
  aggregate.total (terms aggregate ops e)

/-- The intersection. -/
def inter (aggregate : Aggregate) (ops : List Operand) (e : Bytes) : Option ℚ :=
  if ∀ p ∈ ops, (p.scores e).isSome then aggregate.total (terms aggregate ops e) else none

/-- The first operand without the others. -/
def diff : List Operand → Bytes → Option ℚ
  | [], _ => none
  | first :: rest, e => if ∀ p ∈ rest, (p.scores e).isSome = false then first.scores e else none

/-- What an operation says. -/
def result (op : SetOp) (aggregate : Aggregate) (ops : List Operand) (e : Bytes) : Option ℚ :=
  match op with
  | .union => union aggregate ops e
  | .inter => inter aggregate ops e
  | .diff => diff ops e

theorem total_perm (aggregate : Aggregate) {terms terms' : List ℚ} (h : terms.Perm terms') :
    aggregate.total terms = aggregate.total terms' := by
  have hnil : terms = [] ↔ terms' = [] := by
    rw [← List.length_eq_zero_iff, ← List.length_eq_zero_iff, h.length_eq]
  rw [Aggregate.total.eq_def, Aggregate.total.eq_def]
  by_cases hterms : terms = []
  · rw [if_pos hterms, if_pos (hnil.mp hterms)]
  · rw [if_neg hterms, if_neg (mt hnil.mpr hterms)]
    cases aggregate with
    | sum => exact congrArg some h.sum_eq
    | count => exact congrArg some h.sum_eq
    | min =>
        refine Option.ext fun x => ?_
        simp only [List.min?_eq_some_iff, h.mem_iff]
    | max =>
        refine Option.ext fun x => ?_
        simp only [List.max?_eq_some_iff, h.mem_iff]

theorem total_eq_none_iff {aggregate : Aggregate} {terms : List ℚ} :
    aggregate.total terms = none ↔ terms = [] := by
  rw [Aggregate.total.eq_def]
  split_ifs with h
  · exact iff_of_true rfl h
  · cases aggregate <;> simp [h]

/-- An element of the intersection is in every operand. -/
theorem inter_ne_none_iff {aggregate : Aggregate} {ops : List Operand} (hops : ops ≠ []) {e : Bytes} :
    inter aggregate ops e ≠ none ↔ ∀ p ∈ ops, (p.scores e).isSome := by
  rw [inter]
  split_ifs with hall
  · refine iff_of_true (fun hnone => ?_) hall
    obtain ⟨p, hp⟩ := List.exists_mem_of_ne_nil ops hops
    obtain ⟨x, hx⟩ := Option.isSome_iff_exists.mp (hall p hp)
    have hin : aggregate.term p.weight x ∈ terms aggregate ops e :=
      List.mem_filterMap.mpr ⟨p, hp, by rw [hx, Option.map_some]⟩
    rw [total_eq_none_iff.mp hnone] at hin
    exact List.not_mem_nil hin
  · exact iff_of_false (fun h => h rfl) hall

/-- The order of the operands does not matter. -/
theorem union_perm (aggregate : Aggregate) {ops ops' : List Operand} (h : ops.Perm ops') (e : Bytes) :
    union aggregate ops e = union aggregate ops' e := total_perm aggregate (h.filterMap _)

theorem inter_perm (aggregate : Aggregate) {ops ops' : List Operand} (h : ops.Perm ops') (e : Bytes) :
    inter aggregate ops e = inter aggregate ops' e := by
  have hall : (∀ p ∈ ops, (p.scores e).isSome) ↔ ∀ p ∈ ops', (p.scores e).isSome :=
    forall_congr' fun p => imp_congr_left h.mem_iff
  rw [inter, inter, terms, total_perm aggregate (h.filterMap _)]
  exact if_congr hall rfl rfl

theorem result_perm {op : SetOp} (hop : op ≠ .diff) (aggregate : Aggregate) {ops ops' : List Operand}
    (h : ops.Perm ops') (e : Bytes) : result op aggregate ops e = result op aggregate ops' e := by
  cases op with
  | union => exact union_perm aggregate h e
  | inter => exact inter_perm aggregate h e
  | diff => contradiction

end Operand

/-! ## The operands of a call -/

/-- The object behind a handle, as an operand. -/
def Zsetopsrc.operand (src : Zsetopsrc ℚ) : Operand := ⟨scoreOf src.zobj.items, src.weight⟩

/-- The operands of a call. -/
def operands (s : Zsets ℚ) (ids : List Nat) (weights : List ℚ) : List Operand :=
  List.zipWith (fun id weight => ⟨scoreOf (s .zset id).items, weight⟩) ids weights

theorem map_operand_setopSources (s : Zsets ℚ) (ids : List Nat) (weights : List ℚ) :
    (setopSources s ids weights).map Zsetopsrc.operand = operands s ids weights := by
  rw [setopSources, operands, List.map_zipWith]
  rfl

theorem products_eq_terms (aggregate : Aggregate) (srcs : List (Zsetopsrc ℚ)) (e : Bytes) :
    products aggregate srcs e = Operand.terms aggregate (srcs.map Zsetopsrc.operand) e := by
  rw [products, Operand.terms, List.filterMap_map]
  congr 1
  funext src
  rw [contribution, Function.comp_apply, Zsetopsrc.operand]
  congr 1
  funext x
  cases aggregate <;> rfl

theorem has_iff_isSome (src : Zsetopsrc ℚ) (e : Bytes) :
    src.Has e ↔ (src.operand.scores e).isSome = true := by
  rw [Zsetopsrc.Has, Zsetopsrc.operand, ← not_iff_not, ← scoreOf_eq_none_iff]
  simp

/-! ## The folds of the code -/

theorem nanToZero_rat (x : ℚ) : nanToZero x = x := if_neg Bool.false_ne_true

theorem zunionInterAggregate_min (x y : ℚ) : zunionInterAggregate .min x y = min x y := by
  rw [zunionInterAggregate]
  split_ifs with h
  · exact (min_eq_right (ratLt_iff.mp h).le).symm
  · exact (min_eq_left (not_lt.mp (mt ratLt_iff.mpr h))).symm

theorem zunionInterAggregate_max (x y : ℚ) : zunionInterAggregate .max x y = max x y := by
  rw [zunionInterAggregate]
  split_ifs with h
  · exact (max_eq_right (ratLt_iff.mp h).le).symm
  · exact (max_eq_left (not_lt.mp (mt ratLt_iff.mpr h))).symm

/-- Without NaN, the fold of the code is the total. -/
theorem unionFold_rat (aggregate : Aggregate) (xs : List ℚ) : unionFold aggregate xs = aggregate.total xs := by
  cases xs with
  | nil => rfl
  | cons x xs =>
      have hsum : ∀ {agg : Aggregate}, (∀ x y : ℚ, zunionInterAggregate agg x y = x + y) →
          xs.foldl (zunionInterAggregate agg) x = (x :: xs).sum := by
        intro agg hagg
        rw [show zunionInterAggregate (ν := ℚ) agg = (· + ·) from funext₂ hagg, List.sum_eq_foldl,
          List.foldl_cons, zero_add]
      have hadd : ∀ x y : ℚ, nanToZero (Score.add x y) = x + y := fun x y => nanToZero_rat _
      rw [unionFold, Aggregate.total.eq_def, if_neg (List.cons_ne_nil x xs)]
      cases aggregate with
      | sum => exact congrArg some (hsum hadd)
      | count => exact congrArg some (hsum hadd)
      | min =>
          rw [show zunionInterAggregate (ν := ℚ) .min = min from funext₂ zunionInterAggregate_min]
          rfl
      | max =>
          rw [show zunionInterAggregate (ν := ℚ) .max = max from funext₂ zunionInterAggregate_max]
          rfl

theorem interFold_rat (aggregate : Aggregate) (xs : List ℚ) : interFold aggregate xs = aggregate.total xs := by
  rw [← unionFold_rat]
  cases xs with
  | nil => rfl
  | cons x xs => rw [interFold, unionFold, nanToZero_rat]

/-! ## The results -/

/-- **What the operations insert** is what the reference operations say. -/
theorem scoreOf_setopMembers {s : Zsets ℚ} (hs : AllWf s) (qsort : CardinalitySort ℚ) (op : SetOp)
    (aggregate : Aggregate) (ids : List Nat) (weights : List ℚ) (e : Bytes) :
    scoreOf (setopMembers qsort op aggregate (setopSources s ids weights)) e =
      Operand.result op aggregate (operands s ids weights) e := by
  have hwf := wf_setopSources (hs .zset) ids weights
  have hsame := sameObject_setopSources s ids weights
  have hops := map_operand_setopSources s ids weights
  have hperm := qsort.perm (setopSources s ids weights)
  have hperm' := hperm.map Zsetopsrc.operand
  rw [hops] at hperm'
  cases op with
  | union =>
      have hid : (nanToZero : ℚ → ℚ) = id := funext nanToZero_rat
      rw [setopMembers, scoreOf_zunionMembers aggregate fun src hsrc => hwf src (hperm.mem_iff.mp hsrc),
        hid, List.map_id, unionFold_rat, products_eq_terms]
      exact Operand.union_perm aggregate hperm' e
  | inter =>
      have hall : (∀ src ∈ qsort.sort (setopSources s ids weights), src.Has e) ↔
          ∀ p ∈ (qsort.sort (setopSources s ids weights)).map Zsetopsrc.operand, (p.scores e).isSome := by
        simp only [List.forall_mem_map, has_iff_isSome]
      rw [Operand.result, ← Operand.inter_perm aggregate hperm' e, setopMembers,
        scoreOf_zinterMembers aggregate (fun src hsrc => hwf src (hperm.mem_iff.mp hsrc))
          fun a ha b hb => hsame a (hperm.mem_iff.mp ha) b (hperm.mem_iff.mp hb),
        interFold_rat, products_eq_terms, Operand.inter]
      exact if_congr hall rfl rfl
  | diff =>
      rw [Operand.result, setopMembers, ← hops]
      cases hsrcs : setopSources s ids weights with
      | nil => rfl
      | cons first rest =>
          rw [hsrcs] at hwf
          rw [scoreOf_zdiffMembers (hwf first List.mem_cons_self) fun src hsrc =>
            hwf src (List.mem_cons_of_mem first hsrc), List.map_cons, Operand.diff]
          refine if_congr ?_ rfl rfl
          simp only [List.forall_mem_map, has_iff_isSome, Bool.not_eq_true]

theorem operands_perm (s : Zsets ℚ) {ids ids' : List Nat} {weights weights' : List ℚ}
    (h : (ids.zip weights).Perm (ids'.zip weights')) :
    (operands s ids weights).Perm (operands s ids' weights') := by
  rw [operands, operands, ← List.map_uncurry_zip_eq_zipWith, ← List.map_uncurry_zip_eq_zipWith]
  exact h.map _

/-- The forms that reply with the result. -/
theorem setopRead_reference {s : Zsets ℚ} (hs : AllWf s) (qsort : CardinalitySort ℚ) (rand : Draws)
    {op : SetOp} {cmdname : String} {args : List (LuaValue ℚ)} {ids : List Nat} {o : SetopOptions ℚ}
    (hargs : setopArgs 1 op false cmdname args = .ok (ids, o)) :
    ∃ items, exec (setopRead qsort rand op cmdname args) s = (.ok (flatReply o.withscores items), s) ∧
      Sound items ∧
      ∀ e, scoreOf items e = Operand.result op o.aggregate (operands s ids o.weights) e := by
  obtain ⟨items, hexec, hsound, hscore⟩ := setopRead_spec (hs .zset) qsort rand hargs
  exact ⟨items, hexec, hsound, fun e =>
    (hscore e).trans (scoreOf_setopMembers hs qsort op o.aggregate ids o.weights e)⟩

/-- Operands in another order, each with its weight. -/
theorem setopRead_perm {s : Zsets ℚ} (hs : AllWf s) (qsort : CardinalitySort ℚ) (rand : Draws)
    {op : SetOp} (hop : op ≠ .diff) {cmdname : String} {args args' : List (LuaValue ℚ)}
    {ids ids' : List Nat} {o o' : SetopOptions ℚ}
    (hargs : setopArgs 1 op false cmdname args = .ok (ids, o))
    (hargs' : setopArgs 1 op false cmdname args' = .ok (ids', o')) (hagg : o.aggregate = o'.aggregate)
    (hwith : o.withscores = o'.withscores) (hperm : (ids.zip o.weights).Perm (ids'.zip o'.weights)) :
    exec (setopRead qsort rand op cmdname args) s = exec (setopRead qsort rand op cmdname args') s := by
  obtain ⟨items, hexec, hsound, hscore⟩ := setopRead_reference hs qsort rand hargs
  obtain ⟨items', hexec', hsound', hscore'⟩ := setopRead_reference hs qsort rand hargs'
  have heq : items = items' := hsound.eq_of_scoreOf hsound' fun e => by
    rw [hscore, hscore', hagg]
    exact Operand.result_perm hop _ (operands_perm s hperm) e
  rw [hexec, hexec', heq, hwith]

theorem forall_operands_iff (s : Zsets ℚ) {ids : List Nat} {weights : List ℚ}
    (hlen : weights.length = ids.length) (P : (Bytes → Option ℚ) → Prop) :
    (∀ p ∈ operands s ids weights, P p.scores) ↔ ∀ id ∈ ids, P (scoreOf (s .zset id).items) := by
  induction ids generalizing weights with
  | nil => exact iff_of_true nofun nofun
  | cons id ids ih =>
      cases weights with
      | nil => contradiction
      | cons w weights =>
          rw [operands, List.zipWith_cons_cons, List.forall_mem_cons, List.forall_mem_cons]
          exact and_congr_right fun _ => ih (Nat.succ.inj hlen)

/-- ZINTERCARD counts the elements that all operands have. -/
theorem setopCard_reference {s : Zsets ℚ} (hs : AllWf s) (qsort : CardinalitySort ℚ) {cmdname : String}
    {args : List (LuaValue ℚ)} {ids : List Nat} {o : SetopOptions ℚ}
    (hargs : setopArgs 1 .inter true cmdname args = .ok (ids, o)) :
    ∃ common : Finset Bytes, (∀ e, e ∈ common ↔ ∀ id ∈ ids, (scoreOf (s .zset id).items e).isSome) ∧
      exec (setopCard qsort cmdname args) s =
        (.ok (.int (if o.limit = 0 then common.card else min o.limit common.card)), s) := by
  obtain ⟨hids, hfits⟩ := fits_setopArgs hargs
  have hwf := wf_setopSources (hs .zset) ids o.weights
  have hfit := setopMembers_fit qsort .inter o.aggregate hwf (sameObject_setopSources s ids o.weights)
  have hops : operands s ids o.weights ≠ [] := by
    rw [ne_eq, ← List.length_eq_zero_iff, operands, List.length_zipWith, hfits.weights, Nat.min_self,
      List.length_eq_zero_iff]
    exact hids
  refine ⟨((setopMembers qsort .inter o.aggregate (setopSources s ids o.weights)).map Scored.ele).toFinset,
    fun e => ?_, ?_⟩
  · have hmem : e ∈ (setopMembers qsort .inter o.aggregate (setopSources s ids o.weights)).map Scored.ele ↔
        scoreOf (setopMembers qsort .inter o.aggregate (setopSources s ids o.weights)) e ≠ none := by
      rw [ne_eq, scoreOf_eq_none_iff, not_not]
    rw [List.mem_toFinset, hmem, scoreOf_setopMembers hs qsort .inter, Operand.result]
    exact (Operand.inter_ne_none_iff hops).trans
      (forall_operands_iff s hfits.weights fun scores => (scores e).isSome)
  · rw [exec_setopCard, hargs, List.toFinset_card_of_nodup hfit.nodup, List.length_map]
    simp only
    rw [zinterCard_eq o.aggregate _ fun src hsrc => hwf src ((qsort.perm _).mem_iff.mp hsrc), ← setopMembers]
    have hlimit := hfits.limit
    have hcount : ∀ n : Nat, ((if o.limit.toNat = 0 then n else min o.limit.toNat n : Nat) : Int) =
        if o.limit = 0 then (n : Int) else min o.limit n := by
      intro n
      split_ifs <;> omega
    rw [hcount]

/-- **The set operations on exact scores.**  Whatever the encodings of the
operands and however often a handle is given, ZUNION, ZINTER and ZDIFF reply
with the elements and the scores of the reference operations, in order; the
order of the operands of ZUNION and ZINTER does not matter as long as each
keeps its weight; and ZINTERCARD counts the elements that all operands have, up
to its limit. -/
theorem setops_reference {s : Zsets ℚ} (hs : AllWf s) (qsort : CardinalitySort ℚ) (rand : Draws) :
    (∀ args ids o, setopArgs 1 .union false "zunion" args = .ok (ids, o) →
      o.weights.length = ids.length ∧
      ∃ items, exec (lzunion qsort rand args) s = (.ok (flatReply o.withscores items), s) ∧ Sound items ∧
        ∀ e, scoreOf items e = Operand.union o.aggregate (operands s ids o.weights) e) ∧
    (∀ args ids o, setopArgs 1 .inter false "zinter" args = .ok (ids, o) →
      o.weights.length = ids.length ∧
      ∃ items, exec (lzinter qsort rand args) s = (.ok (flatReply o.withscores items), s) ∧ Sound items ∧
        ∀ e, scoreOf items e = Operand.inter o.aggregate (operands s ids o.weights) e) ∧
    (∀ args ids o, setopArgs 1 .diff false "zdiff" args = .ok (ids, o) →
      o.weights.length = ids.length ∧
      ∃ items, exec (lzdiff qsort rand args) s = (.ok (flatReply o.withscores items), s) ∧ Sound items ∧
        ∀ e, scoreOf items e = Operand.diff (operands s ids o.weights) e) ∧
    (∀ args args' ids ids' o o', o.aggregate = o'.aggregate → o.withscores = o'.withscores →
      (ids.zip o.weights).Perm (ids'.zip o'.weights) →
      (setopArgs 1 .union false "zunion" args = .ok (ids, o) →
        setopArgs 1 .union false "zunion" args' = .ok (ids', o') →
        exec (lzunion qsort rand args) s = exec (lzunion qsort rand args') s) ∧
      (setopArgs 1 .inter false "zinter" args = .ok (ids, o) →
        setopArgs 1 .inter false "zinter" args' = .ok (ids', o') →
        exec (lzinter qsort rand args) s = exec (lzinter qsort rand args') s)) ∧
    ∀ args ids o, setopArgs 1 .inter true "zintercard" args = .ok (ids, o) →
      ∃ common : Finset Bytes, (∀ e, e ∈ common ↔ ∀ id ∈ ids, (scoreOf (s .zset id).items e).isSome) ∧
        exec (lzintercard qsort args) s =
          (.ok (.int (if o.limit = 0 then common.card else min o.limit common.card)), s) := by
  refine ⟨fun args ids o hargs => ?_, fun args ids o hargs => ?_, fun args ids o hargs => ?_,
    fun args args' ids ids' o o' hagg hwith hperm => ⟨fun hargs hargs' => ?_, fun hargs hargs' => ?_⟩,
    fun args ids o hargs => setopCard_reference hs qsort hargs⟩
  · exact ⟨(fits_setopArgs hargs).2.weights, setopRead_reference hs qsort rand hargs⟩
  · exact ⟨(fits_setopArgs hargs).2.weights, setopRead_reference hs qsort rand hargs⟩
  · exact ⟨(fits_setopArgs hargs).2.weights, setopRead_reference hs qsort rand hargs⟩
  · exact setopRead_perm hs qsort rand (by decide) hargs hargs' hagg hwith hperm
  · exact setopRead_perm hs qsort rand (by decide) hargs hargs' hagg hwith hperm

/-- Two sorted sets, one of them a skiplist. -/
def scoredPair : Zsets ℚ :=
  let s := (exec (lzadd (fun _ => 0) [.handle .zset 0, .number 1, .string (ascii "a"), .number (1 / 2),
    .string (ascii "b")]) fun _ _ => zsetTypeCreate 0 0).2
  (exec (lzadd (fun _ => 0) [.handle .zset 1, .number 3, .string (ascii "b"), .number 5,
    .string (List.replicate 65 99)]) s).2

/-- The second one twice, with weights. -/
def weightedUnion : List (LuaValue ℚ) :=
  [.table [.handle .zset 1, .handle .zset 0, .handle .zset 1], .string (ascii "weights"),
    .table [.number 2, .number 4, .number 7], .string (ascii "withscores")]

theorem setops_reference_sample : AllWf scoredPair ∧ ∃ items,
    exec (lzunion insertionCardinalitySort (fun _ => 0) weightedUnion) scoredPair =
      (.ok (flatReply true items), scoredPair) ∧
    scoreOf items (ascii "a") = some 4 ∧ scoreOf items (ascii "b") = some 29 := by
  have hwf : AllWf scoredPair := keeps_lzaddGeneric _ _ _ _
    (keeps_lzaddGeneric _ _ _ _ fun _ _ => wf_zsetTypeCreate 0 0)
  have hargs : setopArgs 1 .union false "zunion" weightedUnion =
      .ok ([1, 0, 1], { weights := [2, 4, 7], withscores := true }) := rfl
  obtain ⟨-, items, hexec, -, hscore⟩ := (setops_reference hwf insertionCardinalitySort fun _ => 0).1 _ _ _ hargs
  refine ⟨hwf, items, hexec, ?_, ?_⟩
  · rw [hscore]
    decide +kernel
  · rw [hscore]
    decide +kernel

end SkynetJit.Redis
