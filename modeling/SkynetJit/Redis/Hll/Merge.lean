import Mathlib.Data.Finset.Lattice.Fold
import Mathlib.Order.Lattice.Nat
import SkynetJit.Redis.Hll.Cache

/-!
# SkynetJit.Redis.Hll.Merge

PFMERGE takes the larger of each register over the destination and all
sources, in whatever encodings they are.  What it computes is a least upper
bound, so neither the order of the sources nor a source given twice matters,
and doing it again changes nothing.
-/

namespace SkynetJit.Redis.HyperLogLog

open Raise

variable {ν : Type}

/-- Every handle holds a well-formed value. -/
def AllWf (s : Handles Hll) : Prop := ∀ id, (s id).Wf

/-! ## Every reachable value is well formed -/

section Reachable

theorem pfcountObject_keepsWf (E : Estimator) :
    Keeps Hll.Wf (pfcountObject E : Command Hll (Reply ν)) := by
  intro o h
  simp only [pfcountObject, exec_get_bind, exec_check_bind]
  cases rlCheckhll o with
  | error e => exact h
  | ok _ =>
      cases o.validCache with
      | true => exact h
      | false =>
          simp only [hllCount_spec E h, Bool.false_eq_true, if_false, exec_set_bind, exec_pure]
          exact h

theorem forceDense_keepsWf : Keeps Hll.Wf forceDense := by
  intro o h
  simp only [forceDense, exec_get_bind]
  cases he : o.encoding with
  | dense => exact h
  | sparse =>
      obtain ⟨d, hd, -, hwf, -⟩ := hllSparseToDense_spec h
      simp only [hd, exec_set_bind, exec_pure]
      exact hwf

theorem pfdebugObject_keepsWf (sub : DebugSub) :
    Keeps Hll.Wf (pfdebugObject sub : Command Hll (Reply ν)) := by
  cases sub with
  | getreg => exact forceDense_keepsWf.bind fun _ => keeps_get.bind fun _ => keeps_pure _
  | decode =>
      refine keeps_get.bind fun o => ?_
      cases o.encoding with
      | dense => exact keeps_throw _
      | sparse => exact keeps_pure _
  | encoding =>
      refine keeps_get.bind fun o => ?_
      cases o.encoding <;> exact keeps_pure _
  | todense => exact forceDense_keepsWf.bind fun _ => keeps_pure _

theorem rlCheckhll_of_wf {o : Hll} (h : o.Wf) : rlCheckhll o = .ok () := by
  apply if_neg
  rintro ⟨henc, hlen⟩
  exact hlen (by rw [Hll.len, h.length_dense henc])

/-- The registers after the merge loop over some handles. -/
def mergedRegs (s : Handles Hll) (ids : List Nat) (max : List Nat) : List Nat :=
  ids.foldl (fun max id => List.zipWith Nat.max max (s id).regs) max

theorem rawOk_mergedRegs {s : Handles Hll} (hs : AllWf s) (ids : List Nat) {max : List Nat}
    (hmax : RawOk max) : RawOk (mergedRegs s ids max) := by
  induction ids generalizing max with
  | nil => exact hmax
  | cons id ids ih => exact ih (hmax.merge (hs id))

/-- What the loop over the operands returns: only handles of HLLs get through
it. -/
theorem mergeOperands_ok {s : Handles Hll} (hs : AllWf s) (vs : List (LuaValue ν)) (useDense : Bool)
    {max : List Nat} (hmax : RawOk max) {a : Bool × List Nat} {t : Handles Hll}
    (h : exec (mergeOperands vs useDense max) s = (.ok a, t)) :
    ∃ ids, vs = ids.map (.handle .hll) ∧ a.2 = mergedRegs s ids max := by
  induction vs generalizing useDense max with
  | nil =>
      rw [mergeOperands, exec_pure, Prod.mk.injEq, Except.ok.injEq] at h
      exact ⟨[], rfl, by rw [← h.1]; rfl⟩
  | cons v vs ih =>
      rw [mergeOperands, exec_check_bind] at h
      cases hv : rlCheckValue .hll (some v) with
      | error e => simp [hv] at h
      | ok id =>
          have hvid : v = .handle .hll id := by
            cases v with
            | handle k i =>
                rw [rlCheckValue] at hv
                split_ifs at hv with hk
                rw [hk, Except.ok.inj hv]
            | _ => simp [rlCheckValue] at hv
          simp only [hv, exec_get_bind, exec_check_bind, rlCheckhll_of_wf (hs id),
            hllMerge_spec (hs id) hmax.1] at h
          obtain ⟨ids, hids, ha⟩ := ih _ (hmax.merge (hs id)) h
          exact ⟨id :: ids, by rw [hvid, hids]; rfl, ha⟩

/-- **Storing the merged registers**, when they are at least those of the
destination. -/
theorem pfmergeStore_spec (useDense : Bool) {max : List Nat} (hmax : RawOk max) {o : Hll} (h : o.Wf) :
    ∃ o', exec (pfmergeStore useDense max : Command Hll (Reply ν)) o
        = (.ok (.text (ascii "OK")), o') ∧ o'.Wf ∧
      o'.regs = if useDense then max else List.zipWith Nat.max o.regs max := by
  cases useDense with
  | true =>
      obtain ⟨d, hd, henc, hwf, -⟩ := hllSparseToDense_spec h
      have hlen := hwf.length_dense henc
      refine ⟨Hll.invalidateCache { d with registers := hllDenseCompress max 0 d.registers }, ?_,
        ?_, ?_⟩
      · simp only [pfmergeStore, exec_get_bind, if_true, hd, exec_set_bind, exec_pure]
      · apply Hll.invalidateCache_wf
        simp only [Hll.Wf, henc, length_hllDenseCompress, hlen]
      · rw [Hll.invalidateCache_regs, Hll.regs_of_dense
          (o := { d with registers := hllDenseCompress max 0 d.registers }) henc, if_pos rfl]
        exact @hllDenseCompress_spec max [] (denseRegisters d.registers) d.registers hlen hmax.2
          (by rw [length_denseRegisters, hmax.1]) (List.nil_append _).symm
  | false =>
      obtain ⟨hwf, hregs⟩ := @mergeInto_spec max [] o.regs o h hmax.2
        (by rw [Hll.length_regs h, hmax.1]) (List.nil_append _).symm
      refine ⟨(mergeInto max 0 o).invalidateCache, ?_, Hll.invalidateCache_wf hwf, hregs⟩
      simp only [pfmergeStore, exec_get_bind, Bool.false_eq_true, if_false, exec_set_bind, exec_pure]

theorem pfmergeStore_keepsWf (useDense : Bool) {max : List Nat} (hmax : RawOk max) :
    Keeps Hll.Wf (pfmergeStore useDense max : Command Hll (Reply ν)) := by
  intro o h
  obtain ⟨o', hexec, hwf, -⟩ := pfmergeStore_spec (ν := ν) useDense hmax h
  rw [hexec]
  exact hwf

theorem lhllPfmerge_keepsWf (args : List (LuaValue ν)) : Keeps AllWf (lhllPfmerge args) := by
  refine (keeps_check _).bind fun dest => Keeps.bind_of ?_ (fun s a t hs h => ?_) fun a ha =>
    keeps_onHandle dest (pfmergeStore_keepsWf a.1 ha)
  · intro s hs
    rw [mergeOperands_readOnly]
    exact hs
  · obtain ⟨ids, -, ha⟩ := mergeOperands_ok hs _ _ zeroRegisters_ok h
    rw [ha]
    exact rawOk_mergedRegs hs ids zeroRegisters_ok

theorem lhllPfcount_keepsWf (E : Estimator) (args : List (LuaValue ν)) :
    Keeps AllWf (lhllPfcount E args) := by
  rw [lhllPfcount]
  split
  · exact keeps_throw _
  · exact (keeps_check _).bind fun id => keeps_onHandle id (pfcountObject_keepsWf E)
  · refine Keeps.bind ?_ fun _ => keeps_pure _
    intro s hs
    rw [mergeOperands_readOnly]
    exact hs

variable [LuaNumber ν]

theorem pfaddObject_keepsWf (vs : List (LuaValue ν)) : Keeps Hll.Wf (pfaddObject vs) := by
  refine keeps_get.bind fun o => (keeps_check _).bind fun _ => Keeps.bind ?_ fun updated => ?_
  · intro o h
    exact (pfaddElements_invalid vs false h).1
  · refine Keeps.bind ?_ fun _ => keeps_pure _
    intro o h
    cases updated with
    | false => exact h
    | true => exact Hll.invalidateCache_wf h

theorem lhllPfdebug_keepsWf (args : List (LuaValue ν)) : Keeps AllWf (lhllPfdebug args) := by
  refine (keeps_check _).bind fun id => (keeps_check _).bind fun cmd => ?_
  split
  · exact keeps_check _
  · refine keeps_get.bind fun s => (keeps_check _).bind fun _ => ?_
    split
    · exact keeps_throw _
    · split
      · exact keeps_throw _
      · exact keeps_onHandle id (pfdebugObject_keepsWf _)

theorem hllCommand_keepsWf (E : Estimator) (cmd : HllCommand) (args : List (LuaValue ν)) :
    Keeps AllWf (hllCommand E cmd args) := by
  cases cmd with
  | pfadd => exact (keeps_check _).bind fun id => keeps_onHandle id (pfaddObject_keepsWf _)
  | pfcount => exact lhllPfcount_keepsWf E args
  | pfmerge => exact lhllPfmerge_keepsWf args
  | pfdebug => exact lhllPfdebug_keepsWf args

/-- **Reachable values are well formed**, whatever the calls raised on the
way. -/
theorem allWf_of_run {E : Estimator} {calls : List (HllCommand × List (LuaValue ν))}
    {s : Handles Hll} (hrun : Transition.run (hllStep E) newHandles calls = some s) : AllWf s := by
  refine Transition.run_invariant (fun s call s' hs hstep => ?_) (fun _ => createHLLObject_wf) hrun
  rw [← Option.some.inj hstep]
  exact hllCommand_keepsWf E call.1 call.2 s hs

end Reachable

/-! ## Merging handles -/

/-- The arguments of a PFMERGE of handles. -/
def mergeArgs (dest : Nat) (srcs : List Nat) : List (LuaValue ν) :=
  (dest :: srcs).map (.handle .hll)

theorem hllOperands_handles (ids : List Nat) :
    hllOperands (ids.map (.handle .hll) : List (LuaValue ν)) = ids.map (.handle .hll) := by
  induction ids with
  | nil => rfl
  | cons id ids ih =>
      rw [List.map_cons, hllOperands, List.flatMap_cons, ← hllOperands, ih]
      rfl

theorem exec_mergeOperands {s : Handles Hll} (hs : AllWf s) (ids : List Nat) (useDense : Bool)
    {max : List Nat} (hmax : RawOk max) :
    ∃ dense, exec (mergeOperands (ids.map (.handle .hll) : List (LuaValue ν)) useDense max) s
      = (.ok (dense, mergedRegs s ids max), s) := by
  induction ids generalizing useDense max with
  | nil => exact ⟨useDense, rfl⟩
  | cons id ids ih =>
      obtain ⟨dense, h⟩ := ih (useDense || (s id).encoding == .dense) (hmax.merge (hs id))
      refine ⟨dense, ?_⟩
      rw [List.map_cons, mergeOperands, rlCheckValue_handle]
      simp only [exec_check_ok_bind, exec_get_bind, rlCheckhll_of_wf (hs id),
        hllMerge_spec (hs id) hmax.1]
      exact h

theorem getD_zipWith_max {xs ys : List Nat} (h : xs.length = ys.length) (j : Nat) :
    (List.zipWith Nat.max xs ys).getD j 0 = max (xs.getD j 0) (ys.getD j 0) := by
  simp only [List.getD_eq_getElem?_getD, List.getElem?_zipWith]
  by_cases hj : j < xs.length
  · rw [List.getElem?_eq_getElem hj, List.getElem?_eq_getElem (h ▸ hj)]
    rfl
  · rw [List.getElem?_eq_none (Nat.not_lt.mp hj), List.getElem?_eq_none (h ▸ Nat.not_lt.mp hj)]
    rfl

/-- Each merged register is the least upper bound of the registers merged. -/
theorem getD_mergedRegs {s : Handles Hll} (hs : AllWf s) (ids : List Nat) {max : List Nat}
    (hmax : RawOk max) (j : Nat) :
    (mergedRegs s ids max).getD j 0
      = max.getD j 0 ⊔ ids.toFinset.sup fun id => (s id).regs.getD j 0 := by
  induction ids generalizing max with
  | nil => simp [mergedRegs]
  | cons id ids ih =>
      have hlen : max.length = (s id).regs.length := by rw [hmax.1, Hll.length_regs (hs id)]
      have hstep := ih (hmax.merge (hs id))
      rw [getD_zipWith_max hlen] at hstep
      rw [List.toFinset_cons, Finset.sup_insert, ← sup_assoc]
      exact hstep

theorem getD_zeroRegisters (j : Nat) : zeroRegisters.getD j 0 = 0 := by
  rw [zeroRegisters, List.getD_eq_getElem?_getD, List.getElem?_replicate]
  split_ifs <;> rfl

/-- Two register lists of full length with the same registers. -/
theorem regs_ext {xs ys : List Nat} (hx : xs.length = hllRegisters) (hy : ys.length = hllRegisters)
    (h : ∀ j, xs.getD j 0 = ys.getD j 0) : xs = ys := by
  apply List.ext_getElem (hx.trans hy.symm)
  intro j hj hj'
  have := h j
  rwa [List.getD_eq_getElem _ _ hj, List.getD_eq_getElem _ _ hj'] at this

/-- One PFMERGE of handles that hold well-formed values. -/
theorem exec_lhllPfmerge {s : Handles Hll} (hs : AllWf s) (dest : Nat) (srcs : List Nat) :
    ∃ o, exec (lhllPfmerge (mergeArgs dest srcs : List (LuaValue ν))) s
        = (.ok (.text (ascii "OK")), s.put dest o) ∧ o.Wf ∧
      ∀ j, o.regs.getD j 0
        = (insert dest srcs.toFinset).sup fun id => (s id).regs.getD j 0 := by
  obtain ⟨dense, hmerge⟩ := exec_mergeOperands (ν := ν) hs (dest :: srcs) false zeroRegisters_ok
  have hraw := rawOk_mergedRegs hs (dest :: srcs) zeroRegisters_ok
  have hget : ∀ j, (mergedRegs s (dest :: srcs) zeroRegisters).getD j 0
      = (insert dest srcs.toFinset).sup fun id => (s id).regs.getD j 0 := by
    intro j
    rw [getD_mergedRegs hs _ zeroRegisters_ok, getD_zeroRegisters, List.toFinset_cons, Nat.zero_max]
  obtain ⟨o, hstore, hwf, hregs⟩ := pfmergeStore_spec (ν := ν) dense hraw (hs dest)
  refine ⟨o, ?_, hwf, fun j => ?_⟩
  · have hcheck : rlCheck (mergeArgs dest srcs : List (LuaValue ν)) 1 .hll = .ok dest :=
      rlCheckValue_handle .hll dest
    rw [lhllPfmerge, hcheck, exec_check_ok_bind, mergeArgs, hllOperands_handles,
      exec_bind_ok hmerge, onHandle, exec_focus, hstore]
  · rw [hregs]
    split_ifs
    · exact hget j
    · -- the destination is among the operands, so its own registers add nothing
      rw [getD_zipWith_max (by rw [Hll.length_regs (hs dest), hraw.1]), hget,
        Nat.max_eq_right (Finset.le_sup (Finset.mem_insert_self dest srcs.toFinset)
          (f := fun id => (s id).regs.getD j 0))]

/-- **PFMERGE takes the maximum.**  In every reachable state, a PFMERGE of any
sources, the destination among them or not, sets each of the destination's
registers to the largest there is in the destination and the sources, changes
no other handle, and gives the same registers for every list of the same
sources; merging again changes no register. -/
theorem pfmerge_registers_max [LuaNumber ν] (E : Estimator)
    (calls : List (HllCommand × List (LuaValue ν))) (s : Handles Hll)
    (hrun : Transition.run (hllStep E) newHandles calls = some s) (dest : Nat) (srcs : List Nat) :
    ∃ s', exec (lhllPfmerge (mergeArgs dest srcs : List (LuaValue ν))) s
        = (.ok (.text (ascii "OK")), s') ∧
      (s' dest).regs.length = hllRegisters ∧
      (∀ j, (s' dest).regs.getD j 0
        = (insert dest srcs.toFinset).sup fun id => (s id).regs.getD j 0) ∧
      (∀ id, id ≠ dest → s' id = s id) ∧
      (∀ srcs', srcs'.toFinset = srcs.toFinset →
        ((exec (lhllPfmerge (mergeArgs dest srcs' : List (LuaValue ν))) s).2 dest).regs
          = (s' dest).regs) ∧
      ((exec (lhllPfmerge (mergeArgs dest srcs : List (LuaValue ν))) s').2 dest).regs
        = (s' dest).regs := by
  have hs := allWf_of_run hrun
  obtain ⟨o, hexec, hwf, hregs⟩ := exec_lhllPfmerge (ν := ν) hs dest srcs
  refine ⟨s.put dest o, hexec, ?_, ?_, ?_, ?_, ?_⟩
  · rw [Handles.put_self]
    exact Hll.length_regs hwf
  · intro j
    rw [Handles.put_self]
    exact hregs j
  · exact fun id hid => Handles.put_of_ne s o hid
  · intro srcs' hsame
    obtain ⟨o', hexec', hwf', hregs'⟩ := exec_lhllPfmerge (ν := ν) hs dest srcs'
    simp only [hexec', Handles.put_self]
    apply regs_ext (Hll.length_regs hwf') (Hll.length_regs hwf)
    intro j
    rw [hregs', hregs, hsame]
  · have hs' : AllWf (s.put dest o) := by
      intro id
      by_cases hid : id = dest
      · rwa [hid, Handles.put_self]
      · rw [Handles.put_of_ne s o hid]
        exact hs id
    obtain ⟨o', hexec', hwf', hregs'⟩ := exec_lhllPfmerge (ν := ν) hs' dest srcs
    simp only [hexec', Handles.put_self]
    apply regs_ext (Hll.length_regs hwf') (Hll.length_regs hwf)
    intro j
    rw [hregs' j]
    -- every operand is below the merged destination, which is one of them
    apply le_antisymm
    · apply Finset.sup_le
      intro id hid
      by_cases hd : id = dest
      · rw [hd, Handles.put_self]
      · rw [Handles.put_of_ne s o hd, hregs j]
        exact Finset.le_sup (f := fun id => (s id).regs.getD j 0) hid
    · have hle := Finset.le_sup (f := fun id => ((s.put dest o) id).regs.getD j 0)
        (Finset.mem_insert_self dest srcs.toFinset)
      rwa [Handles.put_self] at hle

theorem pfmerge_registers_max_sample :
    ∃ s s', Transition.run (hllStep usedRegisters) newHandles keptCalls = some s ∧
      exec (lhllPfmerge (mergeArgs 1 [0, 0] : List (LuaValue IntegralDouble))) s
        = (.ok (.text (ascii "OK")), s') ∧
      ∀ j, (s' 1).regs.getD j 0 = (insert 1 [0, 0].toFinset).sup fun id => (s id).regs.getD j 0 := by
  obtain ⟨s', hexec, -, hmax, -⟩ :=
    pfmerge_registers_max usedRegisters keptCalls _ rfl 1 [0, 0]
  exact ⟨_, s', rfl, hexec, hmax⟩

end SkynetJit.Redis.HyperLogLog
