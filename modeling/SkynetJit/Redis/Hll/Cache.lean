import SkynetJit.Lib.Transition
import SkynetJit.Redis.Hll.Facade
import SkynetJit.Redis.Number

/-!
# SkynetJit.Redis.Hll.Cache

When the cached cardinality of an HLL is the one `hllCount` would compute.

The sparse setter invalidates the cache itself, the dense one leaves that to
`lhll_pfadd`, which does it behind its loop.  A PFADD that raises on one of
its later arguments leaves the loop before, so a dense value (or one that the
call has just promoted) keeps a valid cache with changed registers.
`pfaddKeepsCache` is the condition under which a PFADD does not do that, and
`cache_coherent_of_kept` shows that runs whose PFADDs meet it only see
coherent caches.
-/

namespace SkynetJit.Redis.HyperLogLog

open Raise

variable {ν : Type}

/-- A well-formed value whose cache, if valid, holds the estimate of its
registers. -/
structure Coherent (E : Estimator) (o : Hll) : Prop where
  wf : o.Wf
  card : o.validCache = true → o.card = E.estimate (histogram o.regs)

/-- Every handle holds a coherent value. -/
def AllCoherent (E : Estimator) (s : Handles Hll) : Prop := ∀ id, Coherent E (s id)

theorem createHLLObject_coherent (E : Estimator) : Coherent E createHLLObject where
  wf := createHLLObject_wf
  card := fun _ => by rw [createHLLObject_regs, E.estimate_empty]; rfl

/-! ## The cache bit -/

theorem Hll.invalidateCache_wf {o : Hll} (h : o.Wf) : o.invalidateCache.Wf := h

theorem Hll.invalidateCache_regs (o : Hll) : o.invalidateCache.regs = o.regs := rfl

theorem Coherent.of_invalid {E : Estimator} {o : Hll} (hwf : o.Wf) (h : o.validCache = false) :
    Coherent E o where
  wf := hwf
  card := fun hv => by rw [h] at hv; contradiction

theorem Coherent.invalidateCache {E : Estimator} {o : Hll} (hwf : o.Wf) :
    Coherent E o.invalidateCache :=
  .of_invalid (Hll.invalidateCache_wf hwf) o.validCache_invalidateCache

theorem Coherent.of_sameString {E : Estimator} {o o' : Hll} (h : Coherent E o)
    (hs : SameString o o') : Coherent E o' where
  wf := hs.wf h.wf
  card := fun hv => by
    rw [Hll.validCache, hs.card] at hv
    rw [hs.card, hs.regs h.wf]
    exact h.card hv

/-! ## Operations on one handle -/

theorem keeps_onHandle {P : Hll → Prop} {α : Type} (id : Nat) {x : Command Hll α} (hx : Keeps P x) :
    Keeps (fun s : Handles Hll => ∀ i, P (s i)) (onHandle id x) := by
  intro s hs i
  simp only [onHandle, exec_focus]
  by_cases hi : i = id
  · subst hi
    rw [Handles.put_self]
    exact hx _ (hs i)
  · rw [Handles.put_of_ne _ _ hi]
    exact hs i

/-! ## PFADD -/

section Pfadd

variable [LuaNumber ν]

/-- The members in front of the first argument that is none. -/
def leadingMembers : List (LuaValue ν) → List Bytes
  | [] => []
  | v :: vs =>
      match toBytes? v with
      | some s => s :: leadingMembers vs
      | none => []

/-- A PFADD of these arguments leaves a coherent cache: no argument is ill
formed, or the cache is invalid already, or the first of the members in front
of the ill-formed argument that raises a register is stored in place. -/
def pfaddKeepsCache (o : Hll) (vs : List (LuaValue ν)) : Prop :=
  (∀ v ∈ vs, (toBytes? v).isSome) ∨ o.validCache = false ∨
    ∀ e, (leadingMembers vs).find? (raisesRegister o) = some e → storesInPlace o e = true

theorem leadingMembers_cons {v : LuaValue ν} {ele : Bytes} (h : toBytes? v = some ele)
    (vs : List (LuaValue ν)) : leadingMembers (v :: vs) = ele :: leadingMembers vs := by
  rw [leadingMembers, h]

theorem rlMemberValue_some {v : LuaValue ν} {s : Bytes} (h : toBytes? v = some s) :
    rlMemberValue (some v) = .ok s := by
  simp [rlMemberValue, h]

theorem rlMemberValue_none {v : LuaValue ν} (h : toBytes? v = none) :
    rlMemberValue (some v) = .error (memberErr (some v)) := by
  simp [rlMemberValue, h]

theorem exec_pfaddElements_bad {v : LuaValue ν} (h : toBytes? v = none) (vs : List (LuaValue ν))
    (updated : Bool) (o : Hll) :
    exec (pfaddElements (v :: vs) updated) o = (.error (memberErr (some v)), o) := by
  rw [pfaddElements, exec_bind, exec_check, rlMemberValue_none h]

theorem exec_pfaddElements_member {v : LuaValue ν} {ele : Bytes} (h : toBytes? v = some ele)
    (vs : List (LuaValue ν)) (updated : Bool) {o o' : Hll} {r : SetResult}
    (hadd : hllAdd o ele = (r, o')) :
    exec (pfaddElements (v :: vs) updated) o = match r with
      | .raised => exec (pfaddElements vs true) o'
      | .same => exec (pfaddElements vs updated) o'
      | .corrupt => (.error invalidHllErr, o') := by
  rw [pfaddElements, exec_bind, exec_check, rlMemberValue_some h]
  simp only [exec_bind, exec_get, exec_set, hadd]
  cases r <;> rfl

theorem validCache_of_card {o o' : Hll} {b : Bool}
    (h : o'.card = if b then o.card ||| cacheBit else o.card)
    (hv : b = true ∨ o.validCache = false) : o'.validCache = false := by
  cases b with
  | true =>
      have := o.validCache_invalidateCache
      simp only [Hll.validCache, Hll.invalidateCache] at this ⊢
      rw [h]
      exact this
  | false =>
      rw [Hll.validCache, h]
      simpa [Hll.validCache] using hv

/-- Once the cache is invalid it stays so, and the loop cannot find the value
corrupt. -/
theorem pfaddElements_invalid (vs : List (LuaValue ν)) (updated : Bool) {o : Hll} (hwf : o.Wf) :
    (exec (pfaddElements vs updated) o).2.Wf ∧
      (o.validCache = false → (exec (pfaddElements vs updated) o).2.validCache = false) := by
  induction vs generalizing o updated with
  | nil => exact ⟨hwf, fun h => h⟩
  | cons v vs ih =>
      cases hb : toBytes? v with
      | none =>
          rw [exec_pfaddElements_bad hb]
          exact ⟨hwf, fun h => h⟩
      | some ele =>
          cases hr : raisesRegister o ele with
          | false =>
              obtain ⟨o', hadd, hs⟩ := hllAdd_same hwf hr
              rw [exec_pfaddElements_member hb vs updated hadd]
              obtain ⟨hw, hinv⟩ := ih updated (hs.wf hwf)
              refine ⟨hw, fun h => hinv ?_⟩
              rw [Hll.validCache, hs.card]
              exact h
          | true =>
              obtain ⟨o', hadd, hw', -, hcard⟩ := hllAdd_raised hwf hr
              rw [exec_pfaddElements_member hb vs updated hadd]
              obtain ⟨hw, hinv⟩ := ih true hw'
              exact ⟨hw, fun h => hinv (validCache_of_card hcard (.inr h))⟩

/-- A loop that has changed a register says so when it returns. -/
theorem pfaddElements_true (vs : List (LuaValue ν)) (o : Hll) {u : Bool}
    (h : (exec (pfaddElements vs true) o).1 = .ok u) : u = true := by
  induction vs generalizing o with
  | nil => exact (Except.ok.inj h).symm
  | cons v vs ih =>
      cases hb : toBytes? v with
      | none =>
          rw [exec_pfaddElements_bad hb] at h
          contradiction
      | some ele =>
          cases hadd : hllAdd o ele with
          | mk r o' =>
              rw [exec_pfaddElements_member hb vs true hadd] at h
              cases r with
              | raised => exact ih o' h
              | same => exact ih o' h
              | corrupt => contradiction

/-- Raising and promotion depend on the string only. -/
theorem SameString.raisesRegister {o o' : Hll} (h : SameString o o') (hwf : o.Wf) :
    raisesRegister o' = raisesRegister o := by
  funext ele
  simp only [HyperLogLog.raisesRegister, h.regs hwf]

theorem SameString.storesInPlace {o o' : Hll} (h : SameString o o') (hwf : o.Wf) (ele : Bytes) :
    storesInPlace o' ele = storesInPlace o ele := by
  cases he : o.encoding with
  | dense =>
      have hne : (Encoding.dense == Encoding.sparse) = false := by decide
      rw [HyperLogLog.storesInPlace, HyperLogLog.storesInPlace, h.encoding, he, hne,
        Bool.false_and, Bool.false_and]
  | sparse =>
      obtain ⟨ops, hform⟩ := hwf.form he
      have hcells : o'.cells = o.cells := by
        rw [o.cells_of_form hform, Hll.cells_of_form (h.registers ▸ hform)]
      have hlen : o'.len = o.len := by rw [Hll.len, Hll.len, h.registers]
      simp only [HyperLogLog.storesInPlace, h.encoding, promotes, hcells, splitOverflows, hlen]

/-- **The loop of PFADD**: it leaves the string as it was, or the first
element that raised a register decides what it leaves of the cache. -/
theorem pfaddElements_spec (vs : List (LuaValue ν)) {o : Hll} (hwf : o.Wf) :
    (SameString o (exec (pfaddElements vs false) o).2 ∧
      ∀ u, (exec (pfaddElements vs false) o).1 = .ok u → u = false) ∨
    ∃ e, (leadingMembers vs).find? (raisesRegister o) = some e ∧
      (∀ u, (exec (pfaddElements vs false) o).1 = .ok u → u = true) ∧
      (storesInPlace o e = true ∨ o.validCache = false →
        (exec (pfaddElements vs false) o).2.validCache = false) := by
  induction vs generalizing o with
  | nil => exact .inl ⟨⟨rfl, rfl, rfl⟩, fun u h => (Except.ok.inj h).symm⟩
  | cons v vs ih =>
      cases hb : toBytes? v with
      | none =>
          rw [exec_pfaddElements_bad hb]
          exact .inl ⟨⟨rfl, rfl, rfl⟩, fun u h => by contradiction⟩
      | some ele =>
          rw [leadingMembers_cons hb]
          cases hr : raisesRegister o ele with
          | false =>
              obtain ⟨o', hadd, hs⟩ := hllAdd_same hwf hr
              rw [exec_pfaddElements_member hb vs false hadd, List.find?_cons_of_neg (by simp [hr])]
              rcases ih (hs.wf hwf) with ⟨hsame, hu⟩ | ⟨e, hfind, hu, hinv⟩
              · refine .inl ⟨⟨?_, ?_, ?_⟩, hu⟩
                · rw [hsame.encoding, hs.encoding]
                · rw [hsame.registers, hs.registers]
                · rw [hsame.card, hs.card]
              · rw [hs.raisesRegister hwf] at hfind
                rw [hs.storesInPlace hwf] at hinv
                refine .inr ⟨e, hfind, hu, fun h => hinv ?_⟩
                rw [Hll.validCache, hs.card]
                exact h
          | true =>
              obtain ⟨o', hadd, hw', -, hcard⟩ := hllAdd_raised hwf hr
              rw [exec_pfaddElements_member hb vs false hadd, List.find?_cons_of_pos hr]
              refine .inr ⟨ele, rfl, fun u h => pfaddElements_true vs o' h, fun h => ?_⟩
              exact (pfaddElements_invalid vs true hw').2 (validCache_of_card hcard h)

/-- Well-formed arguments to a well-formed value never raise. -/
theorem pfaddElements_returns (vs : List (LuaValue ν)) (updated : Bool) {o : Hll} (hwf : o.Wf)
    (hvs : ∀ v ∈ vs, (toBytes? v).isSome) : ∃ u, (exec (pfaddElements vs updated) o).1 = .ok u := by
  induction vs generalizing o updated with
  | nil => exact ⟨updated, rfl⟩
  | cons v vs ih =>
      have htl : ∀ v ∈ vs, (toBytes? v).isSome := fun w hw => hvs w (List.mem_cons_of_mem _ hw)
      obtain ⟨ele, hb⟩ := Option.isSome_iff_exists.mp (hvs v List.mem_cons_self)
      cases hr : raisesRegister o ele with
      | false =>
          obtain ⟨o', hadd, hs⟩ := hllAdd_same hwf hr
          rw [exec_pfaddElements_member hb vs updated hadd]
          exact ih updated (hs.wf hwf) htl
      | true =>
          obtain ⟨o', hadd, hw', -, -⟩ := hllAdd_raised hwf hr
          rw [exec_pfaddElements_member hb vs updated hadd]
          exact ih true hw' htl

/-- PFADD on one value, under its condition. -/
theorem pfaddObject_coherent {E : Estimator} {o : Hll} (h : Coherent E o) {vs : List (LuaValue ν)}
    (hc : pfaddKeepsCache o vs) : Coherent E (exec (pfaddObject vs) o).2 := by
  have hwf := (pfaddElements_invalid vs false h.wf).1
  rw [pfaddObject, exec_bind, exec_get]
  simp only [exec_bind, exec_check]
  cases rlCheckhll o with
  | error e => exact h
  | ok _ =>
      cases hloop : exec (pfaddElements vs false) o with
      | mk r o' =>
          have hspec := pfaddElements_spec vs h.wf
          rw [hloop] at hwf hspec
          simp only [hloop]
          cases r with
          | ok u =>
              cases u with
              | true => exact Coherent.invalidateCache hwf
              | false =>
                  rcases hspec with ⟨hsame, -⟩ | ⟨e, -, hu, -⟩
                  · exact h.of_sameString hsame
                  · have := hu false rfl
                    contradiction
          | error e =>
              rcases hspec with ⟨hsame, -⟩ | ⟨ele, hfind, -, hinv⟩
              · exact h.of_sameString hsame
              · apply Coherent.of_invalid hwf
                apply hinv
                rcases hc with hall | hinvalid | hplace
                · obtain ⟨u, hu⟩ := pfaddElements_returns vs false h.wf hall
                  rw [hloop] at hu
                  contradiction
                · exact .inr hinvalid
                · exact .inl (hplace ele hfind)

end Pfadd

/-! ## PFCOUNT, PFMERGE, PFDEBUG -/

theorem pfcountObject_keeps (E : Estimator) :
    Keeps (Coherent E) (pfcountObject E : Command Hll (Reply ν)) := by
  intro o h
  rw [pfcountObject, exec_bind, exec_get]
  simp only [exec_bind, exec_check]
  cases rlCheckhll o with
  | error e => exact h
  | ok _ =>
      by_cases hv : o.validCache = true
      · simp only [hv, if_true, exec_pure]
        exact h
      · simp only [hv, Bool.false_eq_true, if_false, hllCount_spec E h.wf, exec_bind, exec_set]
        exact ⟨h.wf, fun _ => rfl⟩

theorem forceDense_keeps (E : Estimator) : Keeps (Coherent E) forceDense := by
  intro o h
  rw [forceDense, exec_bind, exec_get]
  cases he : o.encoding with
  | dense =>
      simp only [he, exec_pure]
      exact h
  | sparse =>
      obtain ⟨d, hd, -, hwf, hregs, hcard, -⟩ := hllSparseToDense_spec h.wf
      simp only [he, hd, exec_bind, exec_set, exec_pure]
      refine ⟨hwf, fun hv => ?_⟩
      rw [Hll.validCache, hcard] at hv
      rw [hcard, hregs]
      exact h.card hv

theorem pfdebugObject_keeps (E : Estimator) (sub : DebugSub) :
    Keeps (Coherent E) (pfdebugObject sub : Command Hll (Reply ν)) := by
  cases sub with
  | getreg => exact (forceDense_keeps E).bind fun _ => keeps_get.bind fun _ => keeps_pure _
  | decode =>
      refine keeps_get.bind fun o => ?_
      cases o.encoding with
      | dense => exact keeps_throw _
      | sparse => exact keeps_pure _
  | encoding =>
      refine keeps_get.bind fun o => ?_
      cases o.encoding <;> exact keeps_pure _
  | todense => exact (forceDense_keeps E).bind fun _ => keeps_pure _

/-- Raw registers as the merge loops build them. -/
def RawOk (max : List Nat) : Prop := max.length = hllRegisters ∧ ∀ v ∈ max, v < 64

theorem zeroRegisters_ok : RawOk zeroRegisters := by
  refine ⟨List.length_replicate, fun v hv => ?_⟩
  rw [(List.mem_replicate.mp hv).2]
  decide

theorem Hll.regs_lt {o : Hll} (h : o.Wf) : ∀ v ∈ o.regs, v < 64 := by
  intro v hv
  cases he : o.encoding with
  | dense =>
      rw [o.regs_of_dense he, denseRegisters, List.mem_map] at hv
      obtain ⟨i, -, rfl⟩ := hv
      exact hllDenseGetRegister_lt _ _
  | sparse =>
      obtain ⟨ops, hform⟩ := h.form he
      rw [o.regs_of_form he hform, expand, List.mem_flatMap] at hv
      obtain ⟨op, hop, hv⟩ := hv
      rw [(List.mem_replicate.mp hv).2]
      have := SparseOp.value_le (hform.valid op hop)
      omega

theorem RawOk.merge {max : List Nat} (hmax : RawOk max) {o : Hll} (h : o.Wf) :
    RawOk (List.zipWith Nat.max max o.regs) := by
  refine ⟨by simp [hmax.1, Hll.length_regs h], fun v hv => ?_⟩
  rw [← List.map_uncurry_zip_eq_zipWith, List.mem_map] at hv
  obtain ⟨⟨a, b⟩, hab, rfl⟩ := hv
  exact Nat.max_lt.mpr ⟨hmax.2 a (List.of_mem_zip hab).1, Hll.regs_lt h b (List.of_mem_zip hab).2⟩

/-- The merge loop changes no handle. -/
theorem mergeOperands_readOnly (vs : List (LuaValue ν)) (useDense : Bool) (max : List Nat)
    (s : Handles Hll) : (exec (mergeOperands vs useDense max) s).2 = s := by
  induction vs generalizing useDense max with
  | nil => rfl
  | cons v vs ih =>
      rw [mergeOperands, exec_bind, exec_check]
      cases rlCheckValue .hll (some v) with
      | error e => rfl
      | ok id =>
          simp only [exec_bind, exec_get, exec_check]
          cases rlCheckhll (s id) with
          | error e => rfl
          | ok _ =>
              cases hllMerge max (s id) with
              | none => rfl
              | some max' => exact ih _ _

theorem mergeOperands_rawOk {E : Estimator} (vs : List (LuaValue ν)) (useDense : Bool)
    {max : List Nat} (hmax : RawOk max) {s t : Handles Hll} {a : Bool × List Nat}
    (hs : AllCoherent E s) (h : exec (mergeOperands vs useDense max) s = (.ok a, t)) :
    RawOk a.2 := by
  induction vs generalizing useDense max with
  | nil =>
      rw [mergeOperands, exec_pure, Prod.mk.injEq, Except.ok.injEq] at h
      rw [← h.1]
      exact hmax
  | cons v vs ih =>
      rw [mergeOperands, exec_bind, exec_check] at h
      cases hv : rlCheckValue .hll (some v) with
      | error e => simp [hv] at h
      | ok id =>
          simp only [hv, exec_bind, exec_get, exec_check] at h
          cases hc : rlCheckhll (s id) with
          | error e => simp [hc] at h
          | ok _ =>
              simp only [hc, hllMerge_spec (hs id).wf hmax.1] at h
              exact ih _ (hmax.merge (hs id).wf) h

theorem pfmergeStore_keeps (E : Estimator) (useDense : Bool) {max : List Nat} (hmax : RawOk max) :
    Keeps (Coherent E) (pfmergeStore useDense max : Command Hll (Reply ν)) := by
  intro o h
  rw [pfmergeStore, exec_bind, exec_get]
  cases useDense with
  | true =>
      obtain ⟨d, hd, henc, hwf, -, -, -⟩ := hllSparseToDense_spec h.wf
      simp only [if_true, hd, exec_bind, exec_set, exec_pure]
      apply Coherent.invalidateCache
      simp only [Hll.Wf, henc, length_hllDenseCompress]
      exact hwf.length_dense henc
  | false =>
      simp only [Bool.false_eq_true, if_false, exec_bind, exec_set, exec_pure]
      apply Coherent.invalidateCache
      exact (@mergeInto_spec max [] o.regs o h.wf hmax.2
        (by rw [Hll.length_regs h.wf, hmax.1]) rfl).1

/-! ## Whole calls -/

theorem lhllPfcount_keeps (E : Estimator) (args : List (LuaValue ν)) :
    Keeps (AllCoherent E) (lhllPfcount E args) := by
  rw [lhllPfcount]
  split
  · exact keeps_throw _
  · exact (keeps_check _).bind fun id => keeps_onHandle id (pfcountObject_keeps E)
  · refine Keeps.bind ?_ fun _ => keeps_pure _
    intro s hs
    rw [mergeOperands_readOnly]
    exact hs

theorem lhllPfmerge_keeps (E : Estimator) (args : List (LuaValue ν)) :
    Keeps (AllCoherent E) (lhllPfmerge args) := by
  refine (keeps_check _).bind fun dest => Keeps.bind_of ?_ (fun s a t hs h => ?_) fun a ha =>
    keeps_onHandle dest (pfmergeStore_keeps E a.1 ha)
  · intro s hs
    rw [mergeOperands_readOnly]
    exact hs
  · exact mergeOperands_rawOk _ _ zeroRegisters_ok hs h

/-- Single-handle PFCOUNT of a coherent value replies the fresh estimate. -/
theorem lhllPfcount_single {E : Estimator} {s : Handles Hll} (hs : AllCoherent E s) (id : Nat) :
    (exec (lhllPfcount E [(.handle .hll id : LuaValue ν)]) s).1
      = .ok (.int (longLong (hllCount E (s id)).1)) := by
  have hok : rlCheckhll (s id) = .ok () := by
    apply if_neg
    rintro ⟨henc, hlen⟩
    exact hlen (by rw [Hll.len, (hs id).wf.length_dense henc])
  have hops : hllOperands [(.handle .hll id : LuaValue ν)] = [.handle .hll id] := rfl
  simp only [lhllPfcount, hops, exec_bind, exec_check, rlCheckValue_handle, onHandle, exec_focus, pfcountObject,
    exec_get, hok, hllCount_spec E (hs id).wf]
  by_cases hv : (s id).validCache = true
  · simp only [hv, if_true, exec_pure, (hs id).card hv]
  · simp only [hv, Bool.false_eq_true, if_false, exec_bind, exec_set, exec_pure]

section Calls

variable [LuaNumber ν]

theorem lhllPfdebug_keeps (E : Estimator) (args : List (LuaValue ν)) :
    Keeps (AllCoherent E) (lhllPfdebug args) := by
  refine (keeps_check _).bind fun id => (keeps_check _).bind fun cmd => ?_
  split
  · exact keeps_check _
  · refine keeps_get.bind fun s => (keeps_check _).bind fun _ => ?_
    split
    · exact keeps_throw _
    · split
      · exact keeps_throw _
      · exact keeps_onHandle id (pfdebugObject_keeps E _)

/-- The condition on a call: a PFADD meets `pfaddKeepsCache` on its
receiver. -/
def keepsCache (s : Handles Hll) (call : HllCommand × List (LuaValue ν)) : Prop :=
  call.1 = .pfadd → ∀ id, rlCheck call.2 1 .hll = .ok id → pfaddKeepsCache (s id) (call.2.drop 1)

/-- **One call** that meets the condition leaves every cache coherent. -/
theorem hllStep_coherent {E : Estimator} {s s' : Handles Hll}
    {call : HllCommand × List (LuaValue ν)} (hs : AllCoherent E s) (hc : keepsCache s call)
    (hstep : hllStep E s call = some s') : AllCoherent E s' := by
  obtain ⟨cmd, args⟩ := call
  rw [hllStep, Option.some.injEq] at hstep
  subst hstep
  cases cmd with
  | pfadd =>
      intro i
      simp only [hllCommand, lhllPfadd, exec_bind, exec_check]
      cases hid : rlCheck args 1 .hll with
      | error e => exact hs i
      | ok id =>
          simp only [onHandle, exec_focus]
          by_cases hi : i = id
          · subst hi
            rw [Handles.put_self]
            exact pfaddObject_coherent (hs i) (hc rfl i hid)
          · rw [Handles.put_of_ne _ _ hi]
            exact hs i
  | pfcount => exact lhllPfcount_keeps E args s hs
  | pfmerge => exact lhllPfmerge_keeps E args s hs
  | pfdebug => exact lhllPfdebug_keeps E args s hs

/-- **Cache coherence**: in every state that calls reach from fresh handles,
if every PFADD among them met its condition, a valid cache holds what
`hllCount` computes, and PFCOUNT of one handle replies that. -/
theorem cache_coherent_of_kept (E : Estimator) (calls : List (HllCommand × List (LuaValue ν)))
    (s : Handles Hll) (hkept : Transition.Meets (hllStep E) keepsCache newHandles calls)
    (hrun : Transition.run (hllStep E) newHandles calls = some s) (id : Nat) :
    ((s id).validCache = true → (s id).card = (hllCount E (s id)).1) ∧
      (exec (lhllPfcount E [(.handle .hll id : LuaValue ν)]) s).1
        = .ok (.int (longLong (hllCount E (s id)).1)) := by
  have hs : AllCoherent E s :=
    Transition.run_invariant_of_meets (fun s a s' hs hc hstep => hllStep_coherent hs hc hstep)
      (fun _ => createHLLObject_coherent E) hkept hrun
  refine ⟨fun hv => ?_, lhllPfcount_single hs id⟩
  rw [(hs id).card hv, hllCount_spec E (hs id).wf]

end Calls

/-! ## A run that keeps its caches, and one that does not -/

/-- An estimator that counts the registers in use. -/
def usedRegisters : Estimator where
  estimate := fun histo => UInt64.ofNat (hllRegisters - histo 0)
  estimate_empty := by
    have hcount : histogram (List.replicate hllRegisters 0) 0 = hllRegisters := by
      simp [histogram]
    rw [hcount, Nat.sub_self]
    rfl

/-- The handle of the runs below. -/
def sampleHll : LuaValue IntegralDouble := .handle .hll 0

/-- Elements added before and after a conversion to the dense encoding, with
the cache filled in between. -/
def keptCalls : List (HllCommand × List (LuaValue IntegralDouble)) :=
  [(.pfadd, [sampleHll, .string (ascii "a")]), (.pfcount, [sampleHll]),
    (.pfdebug, [sampleHll, .string (ascii "todense")]), (.pfadd, [sampleHll, .string (ascii "b")])]

theorem cache_coherent_of_kept_sample :
    ∃ s, Transition.run (hllStep usedRegisters) newHandles keptCalls = some s ∧
      ((s 0).validCache = true → (s 0).card = (hllCount usedRegisters (s 0)).1) ∧
      (exec (lhllPfcount usedRegisters [sampleHll]) s).1
        = .ok (.int (longLong (hllCount usedRegisters (s 0)).1)) := by
  refine ⟨_, rfl, cache_coherent_of_kept usedRegisters keptCalls _ ?_ rfl 0⟩
  refine ⟨fun _ id _ => .inl ?_, fun _ _ => ⟨nofun, fun _ _ => ⟨nofun, fun _ _ =>
    ⟨fun _ id _ => .inl ?_, fun _ _ => trivial⟩⟩⟩⟩
  · intro v hv
    rw [List.mem_singleton.mp hv]
    rfl
  · intro v hv
    rw [List.mem_singleton.mp hv]
    rfl

/-- A PFADD on a dense value that raises on its second element. -/
def staleCalls : List (HllCommand × List (LuaValue IntegralDouble)) :=
  [(.pfdebug, [sampleHll, .string (ascii "todense")]),
    (.pfadd, [sampleHll, .string (ascii "a"), .table []])]

theorem histogram_set_zeros {i c : Nat} (hi : i < hllRegisters) (hc : 1 ≤ c) :
    histogram ((List.replicate hllRegisters 0).set i c) 0 = hllRegisters - 1 := by
  rw [histogram, List.count_set (by simpa using hi)]
  have hne : (c == 0) = false := by simp; omega
  simp [hne]

/-- What PFDEBUG TODENSE leaves of a fresh value. -/
theorem exec_todense {d : Hll} (hd : hllSparseToDense createHLLObject = some d) :
    (exec (lhllPfdebug [sampleHll, .string (ascii "todense")]) newHandles).2
      = newHandles.put 0 d := by
  have hcmd : rlArgstring [sampleHll, .string (ascii "todense")] 2 "pfdebug"
      = .ok (ascii "todense") := by decide
  have hsimd : eqIgnoreCase (ascii "todense") "simd" = false := by decide
  have hsub : debugSub (ascii "todense") = some .todense := by decide
  have hid : rlCheck [sampleHll, .string (ascii "todense")] 1 .hll = .ok 0 := rfl
  have hok : rlCheckhll (newHandles 0) = .ok () := rfl
  simp only [lhllPfdebug, exec_bind, exec_check, hid, hcmd, hsimd, Bool.false_eq_true, if_false,
    exec_get, hok, hsub, List.length_cons, List.length_nil, ne_eq, not_true, onHandle, exec_focus]
  have hdense : exec (pfdebugObject .todense : Command Hll (Reply IntegralDouble)) createHLLObject
      = (.ok (.int 1), d) := by
    have henc : createHLLObject.encoding = .sparse := rfl
    simp only [pfdebugObject, forceDense, exec_bind, exec_get, henc, hd, exec_set, exec_pure, if_true]
  exact congrArg (fun o => newHandles.put 0 o) (congrArg Prod.snd hdense)

/-- What a PFADD that raises on its second element leaves of a value. -/
theorem exec_pfadd_raising {o o' : Hll} {r : SetResult} (hok : rlCheckhll o = .ok ())
    (hadd : hllAdd o (ascii "a") = (r, o')) (s : Handles Hll) (hs : s 0 = o) :
    (exec (lhllPfadd [sampleHll, .string (ascii "a"), .table []]) s).2 = s.put 0 o' := by
  have hid : rlCheck [sampleHll, .string (ascii "a"), .table []] 1 .hll = .ok 0 := rfl
  have hloop : (exec (pfaddElements [(.string (ascii "a") : LuaValue IntegralDouble), .table []] false)
      o) = (.error (match r with
        | .corrupt => invalidHllErr
        | _ => memberErr (some (.table [] : LuaValue IntegralDouble))), o') := by
    rw [exec_pfaddElements_member rfl _ _ hadd]
    cases r with
    | corrupt => rfl
    | same => exact exec_pfaddElements_bad rfl _ _ _
    | raised => exact exec_pfaddElements_bad rfl _ _ _
  simp only [lhllPfadd, exec_bind, exec_check, hid, onHandle, exec_focus, hs, List.drop_succ_cons,
    List.drop_zero, pfaddObject, exec_get, hok, hloop]

/-- An element raises its register in a value with all registers at zero. -/
theorem raisesRegister_of_zeros {o : Hll} (h : o.regs = List.replicate hllRegisters 0) (ele : Bytes) :
    raisesRegister o ele = true := by
  rw [raisesRegister, h, decide_eq_true_eq, List.getD_eq_getElem?_getD,
    List.getElem?_replicate_of_lt (hllPatLen_index ele)]
  exact (hllPatLen_count ele).1

/-- What these calls leave: a register is in use, and the cache still holds
the zero of a fresh value. -/
theorem exists_stale : ∃ d o' : Hll, hllSparseToDense createHLLObject = some d ∧ o'.Wf ∧
    o'.regs = (List.replicate hllRegisters 0).set (hllPatLen (ascii "a")).1 (hllPatLen (ascii "a")).2 ∧
    o'.card = 0 ∧
    (exec (lhllPfadd [sampleHll, .string (ascii "a"), .table []]) (newHandles.put 0 d)).2
      = (newHandles.put 0 d).put 0 o' := by
  obtain ⟨d, hd, henc, hwf, hregs, hcard, -⟩ := hllSparseToDense_spec createHLLObject_wf
  rw [createHLLObject_regs] at hregs
  obtain ⟨o', hadd, hwf', hregs', hcard'⟩ :=
    hllAdd_raised hwf (raisesRegister_of_zeros hregs (ascii "a"))
  have hplace : storesInPlace d (ascii "a") = false := by
    rw [storesInPlace, henc]
    rfl
  rw [hplace, if_neg Bool.false_ne_true, hcard] at hcard'
  have hok : rlCheckhll d = .ok () := by
    apply if_neg
    rintro ⟨-, hlen⟩
    exact hlen (by rw [Hll.len, hwf.length_dense henc])
  rw [hregs] at hregs'
  exact ⟨d, o', hd, hwf', hregs', hcard', exec_pfadd_raising hok hadd _ (Handles.put_self _ _ _)⟩

theorem validCache_of_card_zero {o : Hll} (h : o.card = 0) : o.validCache = true := by
  rw [Hll.validCache, h]
  decide

/-- The estimate of a value with one register in use. -/
theorem usedRegisters_one (ele : Bytes) :
    usedRegisters.estimate (histogram ((List.replicate hllRegisters 0).set (hllPatLen ele).1
      (hllPatLen ele).2)) = 1 := by
  simp only [usedRegisters, histogram_set_zeros (hllPatLen_index ele) (hllPatLen_count ele).1]
  decide

/-- **A stale cache**: a PFADD on a dense value that raises on its second
element has changed a register and left the cache valid. -/
theorem cache_stale_after_raising_pfadd :
    ¬ ∀ (E : Estimator) (calls : List (HllCommand × List (LuaValue IntegralDouble)))
        (s : Handles Hll), Transition.run (hllStep E) newHandles calls = some s →
        ∀ id, (s id).validCache = true → (s id).card = (hllCount E (s id)).1 := by
  intro h
  obtain ⟨d, o', hd, hwf', hregs', hcard', hpfadd⟩ := exists_stale
  have hrun : Transition.run (hllStep usedRegisters) newHandles staleCalls
      = some ((newHandles.put 0 d).put 0 o') := by
    rw [staleCalls, Transition.run_cons, hllStep, Option.bind_some, Transition.run_cons, hllStep,
      Option.bind_some, Transition.run_nil]
    simp only [hllCommand, exec_todense hd]
    rw [hpfadd]
  have hstale := h usedRegisters staleCalls _ hrun 0
  rw [Handles.put_self, hllCount_spec _ hwf', hregs'] at hstale
  have heq := hstale (validCache_of_card_zero hcard')
  rw [hcard', usedRegisters_one] at heq
  exact absurd heq (by decide)

end SkynetJit.Redis.HyperLogLog
