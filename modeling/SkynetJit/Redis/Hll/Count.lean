import SkynetJit.Redis.Hll.Merge

/-!
# SkynetJit.Redis.Hll.Count

PFCOUNT of several HLLs counts what a PFMERGE of them would hold.

The operands come as handles and as tables of handles.  The code counts them in
one pass and walks them with an iterator in another; `walkOperands_eq` says
that the walk meets what `hllOperands` lists, and `rlHllArgcount_eq` that the
pass counts it.  `pfcount_counts_merge` is the result.
-/

namespace SkynetJit.Redis.HyperLogLog

open Raise

variable {ν : Type}

/-! ## The iterator -/

/-- `rl_argiter`: the argument and, if it is a table, the element. -/
structure ArgIter where
  argi : Nat
  elt : Nat
  elts : Nat
  tbl : Nat
deriving DecidableEq, Repr

/-- `rl_hll_argcount`. -/
def rlHllArgcount (args : List (LuaValue ν)) (start : Nat) : Nat :=
  ((args.drop (start - 1)).map fun
    | .table elements => elements.length
    | _ => 1).sum

/-- `rl_hll_iter`. -/
def rlHllIter (start : Nat) : ArgIter := ⟨start, 0, 0, 0⟩

/-- `rl_hll_next`, before the value is checked. -/
def rlHllNext (args : List (LuaValue ν)) (it : ArgIter) : Option (Option (LuaValue ν) × ArgIter) :=
  if args.length < it.argi then none
  else match luaArg args it.argi with
    | some (.table elements) =>
        let elt := if it.tbl = it.argi then it.elt else 1
        let elts := if it.tbl = it.argi then it.elts else elements.length
        if elt ≤ elts then some (luaArg elements elt, ⟨it.argi, elt + 1, elts, it.argi⟩)
        else rlHllNext args ⟨it.argi + 1, elt, elts, 0⟩
    | v => some (v, { it with argi := it.argi + 1 })
termination_by args.length + 1 - it.argi

/-- The values the iterator meets, at most `fuel` of them. -/
def walkOperands (args : List (LuaValue ν)) : Nat → ArgIter → List (Option (LuaValue ν))
  | 0, _ => []
  | fuel + 1, it =>
      match rlHllNext args it with
      | none => []
      | some (v, it) => v :: walkOperands args fuel it

/-- Inside a table the iterator has its length. -/
structure ArgIter.Stands (args : List (LuaValue ν)) (it : ArgIter) : Prop where
  pos : 1 ≤ it.argi
  table : it.tbl = 0 ∨ it.tbl = it.argi ∧
    ∃ elements, luaArg args it.argi = some (.table elements) ∧ 1 ≤ it.elt ∧ it.elts = elements.length

/-- What the iterator has still to meet. -/
def ArgIter.left (args : List (LuaValue ν)) (it : ArgIter) : List (LuaValue ν) :=
  if it.tbl = it.argi then
    match luaArg args it.argi with
    | some (.table elements) => elements.drop (it.elt - 1) ++ hllOperands (args.drop it.argi)
    | _ => []
  else hllOperands (args.drop (it.argi - 1))

theorem drop_of_luaArg {args : List (LuaValue ν)} {i : Nat} (hi : 1 ≤ i) {v : LuaValue ν}
    (h : luaArg args i = some v) : args.drop (i - 1) = v :: args.drop i := by
  obtain ⟨i, rfl⟩ := Nat.exists_eq_add_of_le' hi
  obtain ⟨hlt, rfl⟩ := List.getElem?_eq_some_iff.mp h
  exact List.drop_eq_getElem_cons hlt

theorem hllOperands_table (elements rest : List (LuaValue ν)) :
    hllOperands (.table elements :: rest) = elements ++ hllOperands rest := List.flatMap_cons

theorem ArgIter.Stands.ne_of_not_table {args : List (LuaValue ν)} {it : ArgIter} (h : it.Stands args)
    (hnot : ∀ elements, luaArg args it.argi = some (.table elements) → False) : ¬ it.tbl = it.argi := by
  rcases h.table with hzero | ⟨-, elements, harg, -⟩
  · have hpos := h.pos
    omega
  · exact absurd harg (hnot elements)

/-- The iterator at a table, entered already or not. -/
theorem ArgIter.Stands.at_table {args elements : List (LuaValue ν)} {it : ArgIter} (h : it.Stands args)
    (harg : luaArg args it.argi = some (.table elements)) :
    1 ≤ (if it.tbl = it.argi then it.elt else 1) ∧
      (if it.tbl = it.argi then it.elts else elements.length) = elements.length ∧
      it.left args = elements.drop ((if it.tbl = it.argi then it.elt else 1) - 1) ++
        hllOperands (args.drop it.argi) := by
  rcases h.table with hzero | ⟨htbl, elements', harg', helt, helts⟩
  · have hne : ¬ it.tbl = it.argi := by
      have hpos := h.pos
      omega
    rw [if_neg hne, if_neg hne, ArgIter.left, if_neg hne, drop_of_luaArg h.pos harg, hllOperands_table]
    exact ⟨Nat.le_refl 1, rfl, rfl⟩
  · rw [harg] at harg'
    obtain rfl := LuaValue.table.inj (Option.some.inj harg')
    rw [if_pos htbl, if_pos htbl, ArgIter.left, if_pos htbl, harg]
    exact ⟨helt, helts, rfl⟩

/-- One step of the iterator. -/
theorem rlHllNext_spec {args : List (LuaValue ν)} {it : ArgIter} (h : it.Stands args) :
    match rlHllNext args it with
    | none => it.left args = []
    | some (v, it') => ∃ x, v = some x ∧ it.left args = x :: it'.left args ∧ it'.Stands args := by
  fun_induction rlHllNext args it
  case case1 it hend =>
    have hpos := h.pos
    have hnone : luaArg args it.argi = none := List.getElem?_eq_none (by omega)
    have hne := h.ne_of_not_table fun elements harg => by
      rw [hnone] at harg
      contradiction
    simp only [ArgIter.left, if_neg hne, List.drop_eq_nil_of_le (show args.length ≤ it.argi - 1 by omega)]
    rfl
  case case2 it hin elements harg elt elts hle =>
    obtain ⟨hone, hlen, hleft⟩ := h.at_table harg
    have hone' : 1 ≤ elt := hone
    have hlt : elt - 1 < elements.length := by
      have hle' : elt ≤ elements.length := hlen ▸ hle
      omega
    refine ⟨elements[elt - 1], List.getElem?_eq_getElem hlt, ?_, h.pos, .inr ⟨rfl, elements, harg, ?_, hlen⟩⟩
    · rw [hleft, show elements.drop ((if it.tbl = it.argi then it.elt else 1) - 1) =
        elements[elt - 1] :: elements.drop (elt - 1 + 1) from List.drop_eq_getElem_cons hlt]
      simp only [ArgIter.left, if_true, harg, List.cons_append, Nat.add_sub_cancel, Nat.sub_add_cancel hone']
    · exact Nat.le_add_left 1 elt
  case case3 it hin elements harg elt elts hgt ih =>
    obtain ⟨hone, hlen, hleft⟩ := h.at_table harg
    -- the table is through: what is left of it is nothing
    have hover : elements.length ≤ elt - 1 := by
      have hgt' : ¬ elt ≤ elements.length := hlen ▸ hgt
      omega
    have hleft' : it.left args = (⟨it.argi + 1, elt, elts, 0⟩ : ArgIter).left args := by
      rw [hleft, show elements.drop ((if it.tbl = it.argi then it.elt else 1) - 1) = [] from
        List.drop_eq_nil_of_le hover, List.nil_append, ArgIter.left, if_neg (Nat.succ_ne_zero _).symm]
      rfl
    rw [hleft']
    exact ih ⟨Nat.le_add_left 1 _, .inl rfl⟩
  case case4 it hin hnot =>
    have hpos := h.pos
    have hlt : it.argi - 1 < args.length := by omega
    have harg : luaArg args it.argi = some args[it.argi - 1] := List.getElem?_eq_getElem hlt
    have hne := h.ne_of_not_table hnot
    have hzero : it.tbl = 0 := h.table.resolve_right fun htbl => hne htbl.1
    refine ⟨_, harg, ?_, Nat.le_add_left 1 _, .inl hzero⟩
    have hvalue : hllOperands (args[it.argi - 1] :: args.drop it.argi) =
        args[it.argi - 1] :: hllOperands (args.drop it.argi) := by
      rw [hllOperands, List.flatMap_cons, ← hllOperands]
      cases hv : args[it.argi - 1] with
      | table elements => exact absurd (hv ▸ harg) (hnot elements)
      | _ => rfl
    have hne' : ¬ it.tbl = it.argi + 1 := by omega
    rw [ArgIter.left, if_neg hne, drop_of_luaArg hpos harg, hvalue, ArgIter.left, if_neg hne']
    rfl

/-- **The walk of the operands** meets each of them once, in order. -/
theorem walkOperands_eq {args : List (LuaValue ν)} {it : ArgIter} (h : it.Stands args) {fuel : Nat}
    (hfuel : (it.left args).length < fuel) : walkOperands args fuel it = (it.left args).map some := by
  induction fuel generalizing it with
  | zero => exact absurd hfuel (Nat.not_lt_zero _)
  | succ fuel ih =>
      have hnext := rlHllNext_spec h
      rw [walkOperands]
      cases hstep : rlHllNext args it with
      | none =>
          rw [hstep] at hnext
          rw [show it.left args = [] from hnext]
          rfl
      | some r =>
          obtain ⟨v, it'⟩ := r
          rw [hstep] at hnext
          obtain ⟨x, rfl, hleft, hstands⟩ := hnext
          rw [hleft, List.length_cons] at hfuel
          simp only [hleft, List.map_cons]
          rw [ih hstands (Nat.lt_of_succ_lt_succ hfuel)]

/-- The counting pass counts what the walk meets. -/
theorem rlHllArgcount_eq (args : List (LuaValue ν)) : rlHllArgcount args 1 = (hllOperands args).length := by
  rw [rlHllArgcount, hllOperands, List.length_flatMap, Nat.sub_self, List.drop_zero]
  congr 1
  refine List.map_congr_left fun v _ => ?_
  cases v <;> rfl

/-- **The iterator and the counting pass**: started at the first argument, it
meets as many operands as were counted, and then none. -/
theorem walkOperands_argcount (args : List (LuaValue ν)) :
    walkOperands args (rlHllArgcount args 1 + 1) (rlHllIter 1) = (hllOperands args).map some := by
  have hleft : (rlHllIter 1).left args = hllOperands args := rfl
  rw [walkOperands_eq ⟨Nat.le_refl 1, .inl rfl⟩ (by rw [hleft, rlHllArgcount_eq]; exact Nat.lt_succ_self _),
    hleft]

/-! ## Counting and merging the same operands -/

/-- A PFMERGE leaves the cache of its destination invalid. -/
theorem pfmergeStore_invalidates (useDense : Bool) {max : List Nat} {o o' : Hll} {r : Reply ν}
    (h : exec (pfmergeStore useDense max) o = (.ok r, o')) : o'.validCache = false := by
  rw [pfmergeStore, exec_get_bind] at h
  cases useDense with
  | true =>
      cases hd : hllSparseToDense o with
      | none => simp [hd] at h
      | some d =>
          simp only [if_true, hd, exec_set_bind, exec_pure, Prod.mk.injEq] at h
          rw [← h.2]
          exact Hll.validCache_invalidateCache _
  | false =>
      simp only [Bool.false_eq_true, if_false, exec_set_bind, exec_pure, Prod.mk.injEq] at h
      rw [← h.2]
      exact Hll.validCache_invalidateCache _

/-- PFCOUNT of several operands is the estimate of their merged registers. -/
theorem exec_lhllPfcount_several (E : Estimator) {s : Handles Hll} (hs : AllWf s)
    {args : List (LuaValue ν)} {ids : List Nat} (hops : hllOperands args = ids.map (.handle .hll))
    (hids : 2 ≤ ids.length) :
    exec (lhllPfcount E args) s
      = (.ok (.int (longLong (hllCountRaw E (mergedRegs s ids zeroRegisters)))), s) := by
  obtain ⟨dense, hmerge⟩ := exec_mergeOperands (ν := ν) hs ids false zeroRegisters_ok
  match ids, hids with
  | id :: id' :: ids, _ =>
      simp only [List.map_cons] at hops hmerge
      rw [lhllPfcount, hops]
      exact exec_bind_ok hmerge

/-- PFCOUNT of one handle whose cache is invalid. -/
theorem exec_lhllPfcount_invalid (E : Estimator) {s : Handles Hll} {id : Nat} (hwf : (s id).Wf)
    (hcache : (s id).validCache = false) :
    (exec (lhllPfcount E [(.handle .hll id : LuaValue ν)]) s).1
      = .ok (.int (longLong (E.estimate (histogram (s id).regs)))) := by
  have hops : hllOperands [(.handle .hll id : LuaValue ν)] = [.handle .hll id] := rfl
  simp only [lhllPfcount, hops, rlCheckValue_handle, exec_check_ok_bind, onHandle, exec_focus,
    pfcountObject, exec_get_bind, rlCheckhll_of_wf hwf, hcache, Bool.false_eq_true, if_false,
    hllCount_spec E hwf, exec_set_bind, exec_pure]

/-- A value with no register set adds nothing to the merged registers. -/
theorem mergedRegs_fresh {s : Handles Hll} {fresh : Nat} (hfresh : s fresh = createHLLObject)
    (ids : List Nat) :
    mergedRegs s (fresh :: ids) zeroRegisters = mergedRegs s ids zeroRegisters := by
  have hzero : List.zipWith Nat.max zeroRegisters (s fresh).regs = zeroRegisters := by
    rw [hfresh, createHLLObject_regs]
    apply regs_ext
    · rw [List.length_zipWith, zeroRegisters, List.length_replicate, Nat.min_self]
    · exact zeroRegisters_ok.1
    · intro j
      rw [← zeroRegisters, getD_zipWith_max rfl, Nat.max_self]
  rw [mergedRegs, List.foldl_cons, hzero, ← mergedRegs]

/-- PFMERGE of operands in any shape into a fresh HLL. -/
theorem exec_lhllPfmerge_fresh {s : Handles Hll} (hs : AllWf s) {fresh : Nat}
    (hfresh : s fresh = createHLLObject) {args : List (LuaValue ν)} {ids : List Nat}
    (hops : hllOperands args = ids.map (.handle .hll)) :
    ∃ o, exec (lhllPfmerge (.handle .hll fresh :: args)) s
        = (.ok (.text (ascii "OK")), s.put fresh o) ∧ o.Wf ∧ o.validCache = false ∧
      o.regs = mergedRegs s ids zeroRegisters := by
  have hraw := rawOk_mergedRegs hs (fresh :: ids) zeroRegisters_ok
  obtain ⟨dense, hmerge⟩ := exec_mergeOperands (ν := ν) hs (fresh :: ids) false zeroRegisters_ok
  rw [mergedRegs_fresh hfresh] at hraw hmerge
  obtain ⟨o, hstore, hwf, hregs⟩ := pfmergeStore_spec (ν := ν) dense hraw (hs fresh)
  refine ⟨o, ?_, hwf, pfmergeStore_invalidates dense hstore, ?_⟩
  · have hcheck : rlCheck (.handle .hll fresh :: args) 1 .hll = .ok fresh :=
      rlCheckValue_handle .hll fresh
    have hall : hllOperands (.handle .hll fresh :: args) = (fresh :: ids).map (.handle .hll) := by
      rw [List.map_cons, ← hops]
      rfl
    rw [lhllPfmerge, hcheck, exec_check_ok_bind, hall, exec_bind_ok hmerge, onHandle, exec_focus, hstore]
  · rw [hregs, hfresh, createHLLObject_regs]
    split_ifs
    · rfl
    · apply regs_ext
      · rw [List.length_zipWith, hraw.1, List.length_replicate, Nat.min_self]
      · exact hraw.1
      · intro j
        rw [← zeroRegisters, getD_zipWith_max (zeroRegisters_ok.1.trans hraw.1.symm), getD_zeroRegisters,
          Nat.zero_max]

/-- **Counting several HLLs is counting their merge.**  In every reachable
state, for every two or more operands there is one number that PFCOUNT replies
however the operands are spread over handles and tables, with no handle
changed; and a PFMERGE of the same arguments into a fresh HLL succeeds, changes
no other handle, and leaves a value of which PFCOUNT replies that number. -/
theorem pfcount_counts_merge [LuaNumber ν] (E : Estimator)
    (calls : List (HllCommand × List (LuaValue ν))) (s : Handles Hll)
    (hrun : Transition.run (hllStep E) newHandles calls = some s) (fresh : Nat)
    (hfresh : s fresh = createHLLObject) (ids : List Nat) (hids : 2 ≤ ids.length) :
    ∃ n, ∀ args : List (LuaValue ν),
      walkOperands args (rlHllArgcount args 1 + 1) (rlHllIter 1)
        = ids.map (fun id => some (.handle .hll id)) →
      exec (lhllPfcount E args) s = (.ok (.int n), s) ∧
      ∃ s', exec (lhllPfmerge (.handle .hll fresh :: args)) s = (.ok (.text (ascii "OK")), s') ∧
        (exec (lhllPfcount E [(.handle .hll fresh : LuaValue ν)]) s').1 = .ok (.int n) ∧
        ∀ id, id ≠ fresh → s' id = s id := by
  have hs := allWf_of_run hrun
  refine ⟨longLong (E.estimate (histogram (mergedRegs s ids zeroRegisters))), fun args hwalk => ?_⟩
  have hops : hllOperands args = ids.map (.handle .hll) := by
    rw [walkOperands_argcount] at hwalk
    apply List.map_injective_iff.mpr (Option.some_injective _)
    rw [hwalk, List.map_map]
    rfl
  refine ⟨exec_lhllPfcount_several E hs hops hids, ?_⟩
  obtain ⟨o, hmerge, hwf, hcache, hregs⟩ := exec_lhllPfmerge_fresh hs hfresh hops
  refine ⟨s.put fresh o, hmerge, ?_, fun id hid => Handles.put_of_ne s o hid⟩
  have hself : (s.put fresh o) fresh = o := Handles.put_self s fresh o
  rw [exec_lhllPfcount_invalid E (by rwa [hself]) (by rwa [hself]), hself, hregs]

theorem pfcount_counts_merge_sample :
    ∃ s n, Transition.run (hllStep usedRegisters) newHandles keptCalls = some s ∧
      exec (lhllPfcount usedRegisters [sampleHll, .table [.handle .hll 2, sampleHll]]) s = (.ok (.int n), s) := by
  obtain ⟨n, hn⟩ :=
    pfcount_counts_merge usedRegisters keptCalls _ rfl 1 rfl [0, 2, 0] (Nat.le_add_left 2 1)
  exact ⟨_, n, rfl, (hn _ (walkOperands_argcount _)).1⟩

end SkynetJit.Redis.HyperLogLog
