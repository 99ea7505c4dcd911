import SkynetJit.Redis.Hll.SparseSet

/-!
# SkynetJit.Redis.Hll.Kernel

Hashing, counting and merging (`kernel/hyperloglog.c`).  The estimator is
floating-point arithmetic over the register histogram; the model takes it as
a function of the histogram, `Estimator`, of which it knows only that it
gives 0 for an HLL with no element.
-/

namespace SkynetJit.Redis.HyperLogLog

/-! ## Hashing -/

/-- The multiplier of `MurmurHash64A`. -/
def murmurM : UInt64 := 0xc6a4a7935bd1e995

/-- The loop over the blocks of eight bytes. -/
def murmurBlocks : Nat → UInt64 → Bytes → UInt64 × Bytes
  | 0, h, data => (h, data)
  | n + 1, h, data =>
      let k := UInt64.ofNat (leNat (data.take 8)) * murmurM
      let k := (k ^^^ k >>> 47) * murmurM
      murmurBlocks n ((h ^^^ k) * murmurM) (data.drop 8)

/-- `MurmurHash64A`. -/
def murmurHash64A (key : Bytes) (seed : UInt64) : UInt64 :=
  let h := seed ^^^ UInt64.ofNat key.length * murmurM
  let (h, tail) := murmurBlocks (key.length / 8) h key
  let h := if tail = [] then h else (h ^^^ UInt64.ofNat (leNat tail)) * murmurM
  let h := (h ^^^ h >>> 47) * murmurM
  h ^^^ h >>> 47

/-- The number of zero bits below the lowest one bit, at most `limit`. -/
def ctz : Nat → Nat → Nat
  | 0, _ => 0
  | limit + 1, n => if n % 2 = 1 then 0 else ctz limit (n / 2) + 1

/-- `hllPatLen`: the register and the length of the pattern.  Bit 50 of the
shifted hash is set, so the search ends there at the latest. -/
def hllPatLen (ele : Bytes) : Nat × Nat :=
  let hash := murmurHash64A ele 0xadc83b19
  ((hash &&& 16383).toNat, ctz 50 (hash >>> 14 ||| (1 : UInt64) <<< 50).toNat + 1)

theorem ctz_le (limit n : Nat) : ctz limit n ≤ limit := by
  induction limit generalizing n with
  | zero => exact Nat.le_refl 0
  | succ limit ih =>
      rw [ctz]
      split
      · exact Nat.zero_le _
      · exact Nat.succ_le_succ (ih _)

theorem hllPatLen_index (ele : Bytes) : (hllPatLen ele).1 < hllRegisters := by
  rw [hllPatLen, hllRegisters]
  simp only [UInt64.toNat_and]
  exact Nat.lt_of_le_of_lt Nat.and_le_right (by decide)

theorem hllPatLen_count (ele : Bytes) : 1 ≤ (hllPatLen ele).2 ∧ (hllPatLen ele).2 < 64 := by
  have := ctz_le 50 (murmurHash64A ele 0xadc83b19 >>> 14 ||| (1 : UInt64) <<< 50).toNat
  exact ⟨Nat.succ_le_succ (Nat.zero_le _), by simp only [hllPatLen]; omega⟩

/-! ## Adding -/

/-- `hllDenseAdd` on a value. -/
def hllDenseAdd (o : Hll) (ele : Bytes) : SetResult × Hll :=
  o.denseSet (hllPatLen ele).1 (hllPatLen ele).2

/-- `hllSparseAdd`. -/
def hllSparseAdd (o : Hll) (ele : Bytes) : SetResult × Hll :=
  hllSparseSet o (hllPatLen ele).1 (hllPatLen ele).2

/-- `hllAdd`. -/
def hllAdd (o : Hll) (ele : Bytes) : SetResult × Hll :=
  match o.encoding with
  | .dense => hllDenseAdd o ele
  | .sparse => hllSparseAdd o ele

/-! ## Counting -/

/-- The estimator of `hllCount`.  With all registers at zero `hllSigma`
returns infinity, by which the estimate is divided. -/
structure Estimator where
  estimate : Histogram → UInt64
  estimate_empty : estimate (histogram (List.replicate hllRegisters 0)) = 0

/-- `hllSparseRegHisto`: the histogram, the registers covered, and whether no
run overflowed. -/
def hllSparseRegHisto : List Cell → Nat → Histogram → Histogram × Nat × Bool
  | [], idx, histo => (histo, idx, true)
  | c :: cells, idx, histo =>
      if c.op.span + idx > hllRegisters then (histo, idx, false)
      else hllSparseRegHisto cells (idx + c.op.span)
        fun v => if v = c.op.value then histo v + c.op.span else histo v

/-- `hllCount`, and whether the value was found invalid. -/
def hllCount (E : Estimator) (o : Hll) : UInt64 × Bool :=
  match o.encoding with
  | .dense => (E.estimate (hllDenseRegHisto o.registers), false)
  | .sparse =>
      let (histo, idx, valid) := hllSparseRegHisto o.cells 0 fun _ => 0
      (E.estimate histo, !(valid && idx == hllRegisters))

/-- `hllCount` of an `HLL_RAW` value, one byte for each register. -/
def hllCountRaw (E : Estimator) (raw : List Nat) : UInt64 := E.estimate (histogram raw)

/-! ## Merging -/

/-- The loop that merges `runlen` registers of one value. -/
def mergeRun (value : Nat) : Nat → Nat → List Nat → List Nat
  | 0, _, max => max
  | runlen + 1, i, max =>
      mergeRun value runlen (i + 1) (if max.getD i 0 < value then max.set i value else max)

/-- The registers an opcode merges: none for a run of zeros. -/
def SparseOp.merge (op : SparseOp) (i : Nat) (max : List Nat) : List Nat :=
  match op with
  | .val value len => mergeRun value len i max
  | _ => max

/-- The walk of `hllMerge` over a sparse value; `none` on an overflow. -/
def mergeCells : List Cell → Nat → List Nat → Option (Nat × List Nat)
  | [], i, max => some (i, max)
  | c :: cells, i, max =>
      if c.op.span + i > hllRegisters then none
      else mergeCells cells (i + c.op.span) (c.op.merge i max)

/-- `hllMerge` into raw registers; `none` is `C_ERR`. -/
def hllMerge (max : List Nat) (o : Hll) : Option (List Nat) :=
  match o.encoding with
  | .dense => some (List.zipWith Nat.max max (denseRegisters o.registers))
  | .sparse =>
      match mergeCells o.cells 0 max with
      | some (i, max) => if i = hllRegisters then some max else none
      | none => none

/-- `hllDenseCompress`, from register `i` on. -/
def hllDenseCompress : List Nat → Nat → Bytes → Bytes
  | [], _, dense => dense
  | v :: raw, i, dense => hllDenseCompress raw (i + 1) (hllDenseSetRegister dense i v)

/-- One register of the sparse branch of `lhll_pfmerge`; what the setters
return is not looked at. -/
def mergeRegister (o : Hll) (j v : Nat) : Hll :=
  if v = 0 then o
  else match o.encoding with
    | .dense => (o.denseSet j v).2
    | .sparse => (hllSparseSet o j v).2

/-- The sparse branch of `lhll_pfmerge`, from register `j` on. -/
def mergeInto : List Nat → Nat → Hll → Hll
  | [], _, o => o
  | v :: max, j, o => mergeInto max (j + 1) (mergeRegister o j v)

/-- `createHLLObject`: one `XZERO` over all registers. -/
def createHLLObject : Hll where
  encoding := .sparse
  notused := [0, 0, 0]
  card := 0
  registers := xzeroSet hllRegisters
  term := 0
  alloc := 18

/-! ## What the kernel computes on well-formed values -/

theorem createHLLObject_form : SparseForm createHLLObject.registers [.xzero hllRegisters] where
  valid := by simp [SparseOp.Valid, hllRegisters]
  bytes := by simp [createHLLObject, SparseOp.encode]
  covers := by simp [SparseOp.span]

theorem createHLLObject_wf : createHLLObject.Wf := ⟨_, createHLLObject_form⟩

theorem createHLLObject_regs : createHLLObject.regs = List.replicate hllRegisters 0 := by
  rw [Hll.regs_of_form rfl createHLLObject_form]
  simp [SparseOp.span, SparseOp.value]

/-- Two values with the same string up to the capacity. -/
structure SameString (o o' : Hll) : Prop where
  encoding : o'.encoding = o.encoding
  registers : o'.registers = o.registers
  card : o'.card = o.card

theorem SameString.wf {o o' : Hll} (h : SameString o o') (hwf : o.Wf) : o'.Wf := by
  simp only [Hll.Wf, h.encoding, h.registers]
  exact hwf

theorem SameString.regs {o o' : Hll} (h : SameString o o') (hwf : o.Wf) : o'.regs = o.regs := by
  cases he : o.encoding with
  | dense => rw [o.regs_of_dense he, o'.regs_of_dense (h.encoding.trans he), h.registers]
  | sparse =>
      obtain ⟨ops, hform⟩ := hwf.form he
      rw [o.regs_of_form he hform, o'.regs_of_form (h.encoding.trans he) (h.registers ▸ hform)]

/-- An element raises a register of a value. -/
def raisesRegister (o : Hll) (ele : Bytes) : Bool :=
  decide (o.regs.getD (hllPatLen ele).1 0 < (hllPatLen ele).2)

/-- An element is stored in place: the value stays sparse. -/
def storesInPlace (o : Hll) (ele : Bytes) : Bool :=
  o.encoding == .sparse && !promotes o (hllPatLen ele).1 (hllPatLen ele).2

theorem hllAdd_of_dense {o : Hll} (he : o.encoding = .dense) (ele : Bytes) :
    hllAdd o ele = hllDenseAdd o ele := by
  rw [hllAdd, he]

theorem hllAdd_of_sparse {o : Hll} (he : o.encoding = .sparse) (ele : Bytes) :
    hllAdd o ele = hllSparseAdd o ele := by
  rw [hllAdd, he]

theorem hllAdd_same {o : Hll} (h : o.Wf) {ele : Bytes} (hr : raisesRegister o ele = false) :
    ∃ o', hllAdd o ele = (.same, o') ∧ SameString o o' := by
  rw [raisesRegister, decide_eq_false_iff_not, Nat.not_lt] at hr
  cases he : o.encoding with
  | dense =>
      refine ⟨o, ?_, rfl, rfl, rfl⟩
      rw [hllAdd_of_dense he]
      exact Hll.denseSet_same he (hllPatLen_index ele) hr
  | sparse =>
      refine ⟨o.reserve, ?_, o.reserve_encoding, o.reserve_registers, o.reserve_card⟩
      rw [hllAdd_of_sparse he]
      exact hllSparseSet_same h he (hllPatLen_index ele) (hllPatLen_count ele).1 hr

/-- **Adding**: a raised register, and what becomes of the cache. -/
theorem hllAdd_raised {o : Hll} (h : o.Wf) {ele : Bytes} (hr : raisesRegister o ele = true) :
    ∃ o', hllAdd o ele = (.raised, o') ∧ o'.Wf ∧
      o'.regs = o.regs.set (hllPatLen ele).1 (hllPatLen ele).2 ∧
      o'.card = if storesInPlace o ele then o.card ||| cacheBit else o.card := by
  rw [raisesRegister, decide_eq_true_eq] at hr
  cases he : o.encoding with
  | dense =>
      obtain ⟨o', hset, hraises⟩ :=
        Hll.denseSet_raised h he (hllPatLen_index ele) (hllPatLen_count ele).2 hr
      refine ⟨o', ?_, hraises.wf, hraises.regs, ?_⟩
      · rw [hllAdd_of_dense he]
        exact hset
      · rw [hraises.card, storesInPlace, he]
        rfl
  | sparse =>
      obtain ⟨o', hset, hraises⟩ :=
        hllSparseSet_raised h he (hllPatLen_index ele) (hllPatLen_count ele).2 hr
      refine ⟨o', ?_, hraises.wf, hraises.regs, ?_⟩
      · rw [hllAdd_of_sparse he]
        exact hset
      · rw [hraises.card, storesInPlace, he]
        cases promotes o (hllPatLen ele).1 (hllPatLen ele).2 <;> simp

/-! ### Counting -/

theorem histogram_append (xs ys : List Nat) :
    histogram (xs ++ ys) = fun v => histogram xs v + histogram ys v := by
  funext v
  exact List.count_append

theorem hllSparseRegHisto_spec (ops : List SparseOp) {idx : Nat} (histo : Histogram)
    (h : idx + (expand ops).length ≤ hllRegisters) :
    hllSparseRegHisto (ops.map SparseOp.cell) idx histo
      = (fun v => histo v + histogram (expand ops) v, idx + (expand ops).length, true) := by
  induction ops generalizing idx histo with
  | nil => simp [hllSparseRegHisto, histogram]
  | cons op ops ih =>
      rw [length_expand_cons] at h
      rw [List.map_cons, hllSparseRegHisto, if_neg (by simp only [SparseOp.cell]; omega)]
      rw [show op.cell.op = op from rfl, ih _ (by omega), length_expand_cons, Nat.add_assoc]
      congr 1
      funext v
      rw [expand_cons, histogram_append]
      simp only [histogram, List.count_replicate]
      by_cases hv : v = op.value
      · rw [if_pos hv, if_pos (by simp [hv])]
        omega
      · rw [if_neg hv, if_neg (by simpa using Ne.symm hv), Nat.zero_add]

/-- **Counting** reads the registers and nothing else. -/
theorem hllCount_spec (E : Estimator) {o : Hll} (h : o.Wf) :
    hllCount E o = (E.estimate (histogram o.regs), false) := by
  cases he : o.encoding with
  | dense =>
      rw [hllCount, he, o.regs_of_dense he, hllDenseRegHisto_eq]
  | sparse =>
      obtain ⟨ops, hform⟩ := h.form he
      have hhisto := hllSparseRegHisto_spec ops (fun _ => 0)
        (by rw [hform.covers, Nat.zero_add])
      rw [hform.covers, Nat.zero_add] at hhisto
      rw [hllCount, he, o.regs_of_form he hform, o.cells_of_form hform]
      simp only [hhisto, Nat.zero_add, BEq.rfl, Bool.and_self, Bool.not_true]

/-! ### Merging -/

theorem mergeRun_spec (value : Nat) (done todo rest : List Nat) :
    mergeRun value todo.length done.length (done ++ todo ++ rest)
      = done ++ todo.map (Nat.max · value) ++ rest := by
  induction todo generalizing done with
  | nil => simp [mergeRun]
  | cons x todo ih =>
      have hget : (done ++ x :: todo ++ rest).getD done.length 0 = x := by simp
      have hset : (if x < value then (done ++ x :: todo ++ rest).set done.length value
          else done ++ x :: todo ++ rest) = (done ++ [Nat.max x value]) ++ todo ++ rest := by
        by_cases hx : x < value
        · rw [if_pos hx, show Nat.max x value = value from Nat.max_eq_right hx.le]
          simp
        · rw [if_neg hx, show Nat.max x value = x from Nat.max_eq_left (Nat.not_lt.mp hx)]
          simp
      have hstep := ih (done ++ [Nat.max x value])
      rw [List.length_append, List.length_singleton] at hstep
      rw [List.length_cons, mergeRun, hget, hset, hstep]
      simp

theorem zipWith_max_replicate (todo : List Nat) (value : Nat) :
    List.zipWith Nat.max todo (List.replicate todo.length value) = todo.map (Nat.max · value) := by
  induction todo with
  | nil => rfl
  | cons x todo ih => rw [List.length_cons, List.replicate_succ, List.zipWith_cons_cons, ih, List.map_cons]

theorem SparseOp.merge_spec (op : SparseOp) {done run : List Nat} (rest : List Nat)
    (hrun : run.length = op.span) :
    op.merge done.length (done ++ run ++ rest) = done ++ run.map (Nat.max · op.value) ++ rest := by
  have hzero : run.map (Nat.max · 0) = run := by simp [Nat.max]
  cases op with
  | zero len => simp only [SparseOp.merge, SparseOp.value, hzero]
  | xzero len => simp only [SparseOp.merge, SparseOp.value, hzero]
  | val value len =>
      obtain rfl : run.length = len := hrun
      exact mergeRun_spec value done run rest

theorem mergeCells_spec (ops : List SparseOp) {done todo : List Nat}
    (hlen : todo.length = (expand ops).length)
    (hfits : done.length + (expand ops).length ≤ hllRegisters) :
    mergeCells (ops.map SparseOp.cell) done.length (done ++ todo)
      = some (done.length + (expand ops).length, done ++ List.zipWith Nat.max todo (expand ops)) := by
  induction ops generalizing done todo with
  | nil =>
      obtain rfl := List.length_eq_zero_iff.mp hlen
      simp [mergeCells]
  | cons op ops ih =>
      rw [length_expand_cons] at hlen hfits ⊢
      -- the run of this opcode, and what the rest merges into
      obtain ⟨run, rest, rfl, hrun⟩ : ∃ run rest, todo = run ++ rest ∧ run.length = op.span :=
        ⟨todo.take op.span, todo.drop op.span, (List.take_append_drop _ _).symm,
          by rw [List.length_take]; omega⟩
      rw [List.length_append, hrun] at hlen
      have hrest := @ih (done ++ run.map (Nat.max · op.value)) rest (by omega)
        (by rw [List.length_append, List.length_map, hrun]; omega)
      rw [List.length_append, List.length_map, hrun] at hrest
      rw [List.map_cons, mergeCells, if_neg (by simp only [SparseOp.cell]; omega)]
      rw [show op.cell.op = op from rfl, ← List.append_assoc, op.merge_spec rest hrun, hrest,
        expand_cons, List.zipWith_append (by simpa using hrun), ← hrun, zipWith_max_replicate,
        List.append_assoc, Nat.add_assoc]

/-- **Merging** takes the larger of each register. -/
theorem hllMerge_spec {o : Hll} (h : o.Wf) {max : List Nat} (hmax : max.length = hllRegisters) :
    hllMerge max o = some (List.zipWith Nat.max max o.regs) := by
  cases he : o.encoding with
  | dense => rw [hllMerge, he, o.regs_of_dense he]
  | sparse =>
      obtain ⟨ops, hform⟩ := h.form he
      have hwalk := @mergeCells_spec ops [] max (by rw [hmax, hform.covers])
        (by rw [hform.covers]; exact Nat.le_of_eq (Nat.zero_add _))
      rw [List.length_nil, List.nil_append, List.nil_append, Nat.zero_add, hform.covers] at hwalk
      rw [hllMerge, he, o.cells_of_form hform, hwalk, o.regs_of_form he hform]
      exact if_pos rfl

@[simp] theorem length_hllDenseCompress (raw : List Nat) (i : Nat) (dense : Bytes) :
    (hllDenseCompress raw i dense).length = dense.length := by
  induction raw generalizing i dense with
  | nil => rfl
  | cons v raw ih => rw [hllDenseCompress, ih, length_hllDenseSetRegister]

theorem hllDenseCompress_spec {raw done rest : List Nat} {dense : Bytes}
    (hlen : dense.length = hllDenseBytes) (hraw : ∀ v ∈ raw, v < 64)
    (hrest : rest.length = raw.length) (hregs : denseRegisters dense = done ++ rest) :
    denseRegisters (hllDenseCompress raw done.length dense) = done ++ raw := by
  induction raw generalizing done rest dense with
  | nil =>
      obtain rfl := List.length_eq_zero_iff.mp hrest
      exact hregs
  | cons v raw ih =>
      cases rest with
      | nil => simp at hrest
      | cons x rest =>
          have htotal := congrArg List.length hregs
          rw [length_denseRegisters, List.length_append, List.length_cons] at htotal
          have hset : denseRegisters (hllDenseSetRegister dense done.length v)
              = (done ++ [v]) ++ rest := by
            rw [denseRegisters_hllDenseSetRegister hlen (by omega) (hraw v List.mem_cons_self), hregs,
              List.set_append_right _ _ (Nat.le_refl _), Nat.sub_self, List.set_cons_zero,
              List.append_assoc, List.singleton_append]
          have hstep := ih (by simpa using hlen) (fun x hx => hraw x (List.mem_cons_of_mem _ hx))
            (Nat.succ.inj hrest) hset
          rw [List.length_append, List.length_singleton] at hstep
          rw [hllDenseCompress, hstep, List.append_assoc, List.singleton_append]

/-- One register merged into a value. -/
theorem mergeRegister_spec {o : Hll} (h : o.Wf) {j v : Nat} (hj : j < hllRegisters) (hv : v < 64) :
    (mergeRegister o j v).Wf ∧ (mergeRegister o j v).regs = raiseReg o.regs j v := by
  by_cases hzero : v = 0
  · rw [mergeRegister, if_pos hzero, raiseReg, if_neg (by omega)]
    exact ⟨h, rfl⟩
  · rw [mergeRegister, if_neg hzero, raiseReg]
    cases he : o.encoding with
    | dense =>
        by_cases hlt : o.regs.getD j 0 < v
        · obtain ⟨o', hset, hr⟩ := Hll.denseSet_raised h he hj hv hlt
          simp only [hset]
          rw [if_pos hlt]
          exact ⟨hr.wf, hr.regs⟩
        · simp only [Hll.denseSet_same he hj (Nat.not_lt.mp hlt)]
          rw [if_neg hlt]
          exact ⟨h, rfl⟩
    | sparse =>
        by_cases hlt : o.regs.getD j 0 < v
        · obtain ⟨o', hset, hr⟩ := hllSparseSet_raised h he hj hv hlt
          simp only [hset]
          rw [if_pos hlt]
          exact ⟨hr.wf, hr.regs⟩
        · simp only [hllSparseSet_same h he hj (Nat.pos_of_ne_zero hzero) (Nat.not_lt.mp hlt)]
          rw [if_neg hlt]
          exact ⟨Hll.reserve_wf h, Hll.reserve_regs h⟩

theorem raiseReg_append (done rest : List Nat) (x v : Nat) :
    raiseReg (done ++ x :: rest) done.length v = (done ++ [Nat.max x v]) ++ rest := by
  have hget : (done ++ x :: rest).getD done.length 0 = x := by simp
  rw [raiseReg, hget]
  by_cases hx : x < v
  · rw [if_pos hx, show Nat.max x v = v from Nat.max_eq_right hx.le]
    simp
  · rw [if_neg hx, show Nat.max x v = x from Nat.max_eq_left (Nat.not_lt.mp hx)]
    simp

theorem mergeInto_spec {max done rest : List Nat} {o : Hll} (h : o.Wf) (hmax : ∀ v ∈ max, v < 64)
    (hrest : rest.length = max.length) (hregs : o.regs = done ++ rest) :
    (mergeInto max done.length o).Wf ∧
      (mergeInto max done.length o).regs = done ++ List.zipWith Nat.max rest max := by
  induction max generalizing done rest o with
  | nil =>
      obtain rfl := List.length_eq_zero_iff.mp hrest
      exact ⟨h, hregs⟩
  | cons v max ih =>
      cases rest with
      | nil => simp at hrest
      | cons x rest =>
          have htotal := congrArg List.length hregs
          rw [Hll.length_regs h, List.length_append, List.length_cons] at htotal
          obtain ⟨hwf, hreg⟩ := mergeRegister_spec h (j := done.length) (v := v) (by omega)
            (hmax v List.mem_cons_self)
          rw [hregs, raiseReg_append] at hreg
          have hstep := ih hwf (fun x hx => hmax x (List.mem_cons_of_mem _ hx)) (Nat.succ.inj hrest) hreg
          rw [List.length_append, List.length_singleton] at hstep
          rw [mergeInto]
          refine ⟨hstep.1, ?_⟩
          rw [hstep.2, List.append_assoc, List.singleton_append, List.zipWith_cons_cons]

end SkynetJit.Redis.HyperLogLog
