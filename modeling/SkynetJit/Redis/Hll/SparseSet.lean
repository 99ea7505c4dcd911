import SkynetJit.Redis.Hll.Sparse

/-!
# SkynetJit.Redis.Hll.SparseSet

What `hllSparseSet` does to the registers.  A value that a HyperLogLog
command made is `Wf`: its sparse string is the encoding of opcodes whose runs
cover the 16384 registers exactly.  On such a value `hllSparseSet` raises one
register and keeps the rest (`hllSparseSet_spec`), whichever of its cases it
takes; in place it invalidates the cached cardinality, on promotion it keeps
the header.
-/

namespace SkynetJit.Redis.HyperLogLog

/-! ## Reading back what was written -/

/-- The runs an opcode can hold. -/
def SparseOp.Valid : SparseOp → Prop
  | .zero len => 1 ≤ len ∧ len ≤ 64
  | .xzero len => 1 ≤ len ∧ len ≤ 16384
  | .val value len => (1 ≤ value ∧ value ≤ 32) ∧ 1 ≤ len ∧ len ≤ 4

/-- The bytes of an opcode. -/
def SparseOp.encode : SparseOp → Bytes
  | .zero len => [zeroSet len]
  | .xzero len => xzeroSet len
  | .val value len => [valSet value len]

/-- An opcode with its own bytes. -/
def SparseOp.cell (op : SparseOp) : Cell := ⟨op, op.encode⟩

/-- The bytes of a list of opcodes. -/
def encodeOps (ops : List SparseOp) : Bytes := ops.flatMap SparseOp.encode

@[simp] theorem encodeOps_nil : encodeOps [] = [] := rfl

@[simp] theorem encodeOps_cons (op : SparseOp) (ops : List SparseOp) :
    encodeOps (op :: ops) = op.encode ++ encodeOps ops := rfl

@[simp] theorem encodeOps_append (xs ys : List SparseOp) :
    encodeOps (xs ++ ys) = encodeOps xs ++ encodeOps ys := List.flatMap_append

theorem zeroSet_spec : ∀ l : Fin 64, isZero (zeroSet (l + 1)) = true ∧
    zeroLen (zeroSet (l + 1)) = l + 1 ∧ isXzero (zeroSet (l + 1)) = false ∧
    isVal (zeroSet (l + 1)) = false := by
  decide

theorem valSet_spec : ∀ (v : Fin 32) (l : Fin 4), isVal (valSet (v + 1) (l + 1)) = true ∧
    isZero (valSet (v + 1) (l + 1)) = false ∧ isXzero (valSet (v + 1) (l + 1)) = false ∧
    valValue (valSet (v + 1) (l + 1)) = v + 1 ∧ valLen (valSet (v + 1) (l + 1)) = l + 1 := by
  decide

theorem xzeroByte_spec : ∀ h : Fin 64, isXzero (UInt8.ofNat (h ||| 0x40)) = true ∧
    isZero (UInt8.ofNat (h ||| 0x40)) = false ∧ isVal (UInt8.ofNat (h ||| 0x40)) = false ∧
    (UInt8.ofNat (h ||| 0x40) &&& 0x3f).toNat = h := by
  decide

/-- A run of zeros is read back with its length. -/
theorem zeroSet_valid {len : Nat} (h : (SparseOp.zero len).Valid) :
    isZero (zeroSet len) = true ∧ zeroLen (zeroSet len) = len ∧ isXzero (zeroSet len) = false ∧
      isVal (zeroSet len) = false := by
  obtain ⟨l, rfl⟩ := Nat.exists_eq_add_of_le' h.1
  exact zeroSet_spec ⟨l, by have := h.2; omega⟩

/-- A run of one value is read back with its value and length. -/
theorem valSet_valid {value len : Nat} (h : (SparseOp.val value len).Valid) :
    isVal (valSet value len) = true ∧ isZero (valSet value len) = false ∧
      isXzero (valSet value len) = false ∧ valValue (valSet value len) = value ∧
      valLen (valSet value len) = len := by
  obtain ⟨⟨hv, hv'⟩, hl, hl'⟩ := h
  obtain ⟨v, rfl⟩ := Nat.exists_eq_add_of_le' hv
  obtain ⟨l, rfl⟩ := Nat.exists_eq_add_of_le' hl
  exact valSet_spec ⟨v, by omega⟩ ⟨l, by omega⟩

/-- A long run of zeros is read back with its length. -/
theorem xzeroSet_valid {len : Nat} (h : (SparseOp.xzero len).Valid) :
    ∃ b c, xzeroSet len = [b, c] ∧ isXzero b = true ∧ isZero b = false ∧ isVal b = false ∧
      xzeroLen b c = len := by
  obtain ⟨l, rfl⟩ := Nat.exists_eq_add_of_le' h.1
  have hl : l < 16384 := by have := h.2; omega
  have hhigh : l >>> 8 < 64 := by rw [Nat.shiftRight_eq_div_pow]; omega
  obtain ⟨hx, hz, hv, hb⟩ := xzeroByte_spec ⟨l >>> 8, hhigh⟩
  have hlow : (UInt8.ofNat (l &&& 0xff)).toNat = l % 256 := by
    rw [show (0xff : Nat) = 2 ^ 8 - 1 by decide, Nat.and_two_pow_sub_one_eq_mod, UInt8.toNat_ofNat']
    omega
  refine ⟨_, _, rfl, hx, hz, hv, ?_⟩
  rw [xzeroLen, Nat.add_sub_cancel]
  have hjoin : (l >>> 8) <<< 8 ||| l % 256 = l := by
    rw [← Nat.shiftLeft_add_eq_or_of_lt (Nat.mod_lt _ (by decide)), Nat.shiftLeft_eq,
      Nat.shiftRight_eq_div_pow]
    omega
  rw [hb, hlow, hjoin]

theorem sparseCells_zero (term : UInt8) {b : UInt8} (rest : Bytes) (h : isZero b = true) :
    sparseCells term (b :: rest) = ⟨.zero (zeroLen b), [b]⟩ :: sparseCells term rest := by
  cases rest <;> simp [sparseCells, h]

theorem sparseCells_val (term : UInt8) {b : UInt8} (rest : Bytes) (hz : isZero b = false)
    (hv : isVal b = true) :
    sparseCells term (b :: rest) = ⟨.val (valValue b) (valLen b), [b]⟩ :: sparseCells term rest := by
  cases rest <;> simp [sparseCells, hz, hv]

theorem sparseCells_xzero (term : UInt8) {b c : UInt8} (rest : Bytes) (hz : isZero b = false)
    (hv : isVal b = false) :
    sparseCells term (b :: c :: rest) = ⟨.xzero (xzeroLen b c), [b, c]⟩ :: sparseCells term rest := by
  simp [sparseCells, hz, hv]

/-- **Round trip of the opcodes**: an encoded string reads back as the
opcodes it encodes. -/
theorem sparseCells_encodeOps (term : UInt8) {ops : List SparseOp} (h : ∀ op ∈ ops, op.Valid) :
    sparseCells term (encodeOps ops) = ops.map SparseOp.cell := by
  induction ops with
  | nil => rfl
  | cons op ops ih =>
      have hop := h op List.mem_cons_self
      have ih := ih fun o ho => h o (List.mem_cons_of_mem _ ho)
      cases op with
      | zero len =>
          obtain ⟨hz, hl, -, -⟩ := zeroSet_valid hop
          rw [encodeOps_cons, SparseOp.encode, List.singleton_append, sparseCells_zero _ _ hz, hl, ih]
          rfl
      | xzero len =>
          obtain ⟨b, c, hbc, -, hz, hv, hl⟩ := xzeroSet_valid hop
          rw [encodeOps_cons, List.map_cons, SparseOp.cell, SparseOp.encode, hbc]
          rw [List.cons_append, List.singleton_append, sparseCells_xzero _ _ hz hv, hl, ih]
      | val value len =>
          obtain ⟨hv, hz, -, hval, hl⟩ := valSet_valid hop
          rw [encodeOps_cons, SparseOp.encode, List.singleton_append, sparseCells_val _ _ hz hv, hval,
            hl, ih]
          rfl

/-! ## Registers -/

/-- The registers that opcodes describe. -/
def expand (ops : List SparseOp) : List Nat := ops.flatMap fun op => List.replicate op.span op.value

@[simp] theorem expand_nil : expand [] = [] := rfl

@[simp] theorem expand_cons (op : SparseOp) (ops : List SparseOp) :
    expand (op :: ops) = List.replicate op.span op.value ++ expand ops := rfl

@[simp] theorem expand_append (xs ys : List SparseOp) :
    expand (xs ++ ys) = expand xs ++ expand ys := List.flatMap_append

/-- The opcodes of a well-formed sparse string. -/
structure SparseForm (registers : Bytes) (ops : List SparseOp) : Prop where
  valid : ∀ op ∈ ops, op.Valid
  bytes : registers = encodeOps ops
  covers : (expand ops).length = hllRegisters

/-- A value the commands can have made. -/
def Hll.Wf (o : Hll) : Prop :=
  match o.encoding with
  | .dense => o.registers.length = hllDenseBytes
  | .sparse => ∃ ops, SparseForm o.registers ops

/-- The registers of a value. -/
def Hll.regs (o : Hll) : List Nat :=
  match o.encoding with
  | .dense => denseRegisters o.registers
  | .sparse => expand (o.cells.map Cell.op)

theorem Hll.cells_of_form {o : Hll} {ops : List SparseOp} (h : SparseForm o.registers ops) :
    o.cells = ops.map SparseOp.cell := by
  rw [Hll.cells, h.bytes, sparseCells_encodeOps _ h.valid]

theorem Hll.regs_of_form {o : Hll} {ops : List SparseOp} (he : o.encoding = .sparse)
    (h : SparseForm o.registers ops) : o.regs = expand ops := by
  simp only [Hll.regs, he, o.cells_of_form h, List.map_map]
  congr 1
  exact List.map_id ops

theorem Hll.regs_of_dense {o : Hll} (he : o.encoding = .dense) :
    o.regs = denseRegisters o.registers := by
  simp [Hll.regs, he]

theorem Hll.Wf.form {o : Hll} (h : o.Wf) (he : o.encoding = .sparse) :
    ∃ ops, SparseForm o.registers ops := by
  simpa [Hll.Wf, he] using h

theorem Hll.Wf.length_dense {o : Hll} (h : o.Wf) (he : o.encoding = .dense) :
    o.registers.length = hllDenseBytes := by
  simpa [Hll.Wf, he] using h

theorem Hll.length_regs {o : Hll} (h : o.Wf) : o.regs.length = hllRegisters := by
  cases he : o.encoding with
  | dense => rw [o.regs_of_dense he, length_denseRegisters]
  | sparse =>
      obtain ⟨ops, hf⟩ := h.form he
      rw [o.regs_of_form he hf, hf.covers]

/-! ## Step 1: finding the opcode -/

theorem rawBytes_map_cell (ops : List SparseOp) : rawBytes (ops.map SparseOp.cell) = encodeOps ops := by
  simp [rawBytes, encodeOps, List.flatMap_map, SparseOp.cell]

theorem length_expand_cons (op : SparseOp) (ops : List SparseOp) :
    (expand (op :: ops)).length = op.span + (expand ops).length := by
  simp

/-- An opcode among others, as step 1 reports it. -/
def locatedAt (before : List SparseOp) (op : SparseOp) (after : List SparseOp) (first : Nat) : Located :=
  ⟨before.map SparseOp.cell, op.cell, after.map SparseOp.cell, first⟩

/-- The opcode that covers a register is found, with the opcodes around it. -/
theorem locate_map_cell (ops : List SparseOp) {index first : Nat} (hlow : first ≤ index)
    (hhigh : index < first + (expand ops).length) :
    ∃ before op after, ops = before ++ op :: after ∧
      locate index first (ops.map SparseOp.cell)
        = some (locatedAt before op after (first + (expand before).length)) ∧
      first + (expand before).length ≤ index ∧
      index < first + (expand before).length + op.span := by
  induction ops generalizing first with
  | nil =>
      simp only [expand_nil, List.length_nil, Nat.add_zero] at hhigh
      omega
  | cons op ops ih =>
      by_cases hin : index < first + op.span
      · refine ⟨[], op, ops, rfl, ?_, by simpa using hlow, by simpa using hin⟩
        simp [locate, SparseOp.cell, locatedAt, hin]
      · rw [length_expand_cons] at hhigh
        obtain ⟨before, op', after, hops, hloc, hge, hlt⟩ :=
          @ih (first + op.span) (by omega) (by omega)
        refine ⟨op :: before, op', after, by rw [hops]; rfl, ?_, ?_, ?_⟩
        · rw [List.map_cons, locate, if_neg (by simpa [SparseOp.cell] using hin)]
          rw [show op.cell.op.span = op.span from rfl, hloc, length_expand_cons]
          simp [locatedAt, Nat.add_assoc]
        · rw [length_expand_cons]
          omega
        · rw [length_expand_cons]
          omega

/-! ## Step 2: splitting -/

/-- The opcodes of `zeroRun`. -/
def zeroRunOps (len : Nat) : SparseOp := if len > sparseZeroMaxLen then .xzero len else .zero len

theorem encode_zeroRunOps (len : Nat) : (zeroRunOps len).encode = zeroRun len := by
  simp only [zeroRunOps, zeroRun]
  split <;> rfl

@[simp] theorem span_zeroRunOps (len : Nat) : (zeroRunOps len).span = len := by
  simp only [zeroRunOps]
  split <;> rfl

@[simp] theorem value_zeroRunOps (len : Nat) : (zeroRunOps len).value = 0 := by
  simp only [zeroRunOps]
  split <;> rfl

theorem valid_zeroRunOps {len : Nat} (h1 : 1 ≤ len) (h2 : len ≤ 16384) : (zeroRunOps len).Valid := by
  by_cases hlen : len > sparseZeroMaxLen
  · rw [zeroRunOps, if_pos hlen]
    exact ⟨h1, h2⟩
  · rw [zeroRunOps, if_neg hlen]
    rw [sparseZeroMaxLen] at hlen
    exact ⟨h1, by omega⟩

/-- A piece of an opcode that covers `len` of its registers. -/
def SparseOp.piece : SparseOp → Nat → SparseOp
  | .val value _, len => .val value len
  | _, len => zeroRunOps len

/-- The opcodes that `splitSeq` writes. -/
def splitOps (op : SparseOp) (before count after : Nat) : List SparseOp :=
  (if before ≠ 0 then [op.piece before] else []) ++ [.val count 1]
    ++ (if after ≠ 0 then [op.piece after] else [])

@[simp] theorem SparseOp.span_piece (op : SparseOp) (len : Nat) : (op.piece len).span = len := by
  cases op with
  | zero l => exact span_zeroRunOps len
  | xzero l => exact span_zeroRunOps len
  | val v l => rfl

@[simp] theorem SparseOp.value_piece (op : SparseOp) (len : Nat) :
    (op.piece len).value = op.value := by
  cases op with
  | zero l => exact value_zeroRunOps len
  | xzero l => exact value_zeroRunOps len
  | val v l => rfl

theorem SparseOp.Valid.piece {op : SparseOp} (h : op.Valid) {len : Nat} (h1 : 1 ≤ len)
    (h2 : len ≤ op.span) : (op.piece len).Valid := by
  cases op with
  | zero l => exact valid_zeroRunOps h1 (by have := h.2; simp only [SparseOp.span] at h2; omega)
  | xzero l => exact valid_zeroRunOps h1 (by have := h.2; simp only [SparseOp.span] at h2; omega)
  | val v l => exact ⟨h.1, h1, Nat.le_trans h2 h.2.2⟩

theorem splitSeq_eq (op : SparseOp) {first index : Nat} (count : Nat) (hlow : first ≤ index)
    (hhigh : index < first + op.span) :
    splitSeq op first index count
      = encodeOps (splitOps op (index - first) count (first + op.span - 1 - index)) := by
  have hb : (index ≠ first) ↔ (index - first ≠ 0) := by omega
  have ha : (index ≠ first + op.span - 1) ↔ (first + op.span - 1 - index ≠ 0) := by omega
  simp only [splitSeq, hb, ha, splitOps, encodeOps_append]
  have hpiece : ∀ n, encodeOps (if n ≠ 0 then [op.piece n] else [])
      = if n ≠ 0 then (op.piece n).encode else [] := by
    intro n
    split <;> simp
  rw [hpiece, hpiece]
  cases op <;> simp [SparseOp.piece, encode_zeroRunOps] <;> rfl

theorem expand_splitOps (op : SparseOp) (before count after : Nat) :
    expand (splitOps op before count after)
      = List.replicate before op.value ++ count :: List.replicate after op.value := by
  have hpiece : ∀ n, expand (if n ≠ 0 then [op.piece n] else []) = List.replicate n op.value := by
    intro n
    split
    · simp
    · next h => simp only [ne_eq, Decidable.not_not] at h; simp [h]
  simp only [splitOps, expand_append, hpiece]
  simp [SparseOp.span, SparseOp.value]

theorem valid_splitOps {op : SparseOp} (h : op.Valid) {before count after : Nat}
    (hc : 1 ≤ count ∧ count ≤ 32) (hb : before ≤ op.span) (ha : after ≤ op.span) :
    ∀ o ∈ splitOps op before count after, o.Valid := by
  intro o ho
  simp only [splitOps, List.mem_append, List.mem_singleton] at ho
  have hpiece : ∀ n, n ≤ op.span → o ∈ (if n ≠ 0 then [op.piece n] else []) → o.Valid := by
    intro n hn ho
    split at ho
    · rw [List.mem_singleton.mp ho]
      exact h.piece (by omega) hn
    · simp at ho
  rcases ho with (ho | ho) | ho
  · exact hpiece before hb ho
  · subst ho
    exact ⟨hc, by decide⟩
  · exact hpiece after ha ho

/-! ## Step 4: merging -/

theorem mergeVals_xzero (n : Nat) {b c : UInt8} (rest : Bytes) (h : isXzero b = true) :
    mergeVals (n + 1) (b :: c :: rest) = b :: c :: mergeVals n rest := by
  simp [mergeVals, h]

theorem mergeVals_zero (n : Nat) {b : UInt8} (rest : Bytes) (hx : isXzero b = false)
    (hz : isZero b = true) : mergeVals (n + 1) (b :: rest) = b :: mergeVals n rest := by
  cases rest <;> simp [mergeVals, hx, hz]

@[simp] theorem mergeVals_nil (n : Nat) : mergeVals n [] = [] := by
  cases n <;> rfl

theorem mergeVals_singleton (n : Nat) (b : UInt8) : mergeVals n [b] = [b] := by
  cases n with
  | zero => rfl
  | succ n => simp [mergeVals]

/-- At a `VAL` the scan looks at the next opcode. -/
theorem mergeVals_val (n : Nat) {b : UInt8} (c : UInt8) (rest : Bytes) (hx : isXzero b = false)
    (hz : isZero b = false) :
    mergeVals (n + 1) (b :: c :: rest) =
      if isVal c ∧ valValue b = valValue c ∧ valLen b + valLen c ≤ sparseValMaxLen then
        mergeVals n (valSet (valValue b) (valLen b + valLen c) :: rest)
      else b :: mergeVals n (c :: rest) := by
  simp [mergeVals, hx, hz]

/-- Merging keeps the string well formed, and its registers. -/
theorem mergeVals_encodeOps (n : Nat) {ops : List SparseOp} (h : ∀ op ∈ ops, op.Valid) :
    ∃ ops', (∀ op ∈ ops', op.Valid) ∧ mergeVals n (encodeOps ops) = encodeOps ops' ∧
      expand ops' = expand ops := by
  induction n generalizing ops with
  | zero => exact ⟨ops, h, by simp [mergeVals], rfl⟩
  | succ n ih =>
      cases ops with
      | nil => exact ⟨[], by simp, by simp, rfl⟩
      | cons op ops =>
          have hop := h op List.mem_cons_self
          have htl : ∀ o ∈ ops, o.Valid := fun o ho => h o (List.mem_cons_of_mem _ ho)
          -- an opcode that stays in front of what the rest of the scan leaves
          have hkeep : mergeVals (n + 1) (encodeOps (op :: ops)) = op.encode ++ mergeVals n (encodeOps ops) →
              ∃ ops', (∀ op ∈ ops', op.Valid) ∧
                mergeVals (n + 1) (encodeOps (op :: ops)) = encodeOps ops' ∧
                expand ops' = expand (op :: ops) := by
            intro heq
            obtain ⟨ops', hv, hb, he⟩ := ih htl
            refine ⟨op :: ops', ?_, by rw [heq, hb, encodeOps_cons], by rw [expand_cons, expand_cons, he]⟩
            intro o ho
            rcases List.mem_cons.mp ho with rfl | ho
            · exact hop
            · exact hv o ho
          cases op with
          | zero len =>
              obtain ⟨hz, -, hx, -⟩ := zeroSet_valid hop
              exact hkeep (mergeVals_zero n _ hx hz)
          | xzero len =>
              obtain ⟨b, c, hbc, hx, -, -, -⟩ := xzeroSet_valid hop
              apply hkeep
              rw [encodeOps_cons, SparseOp.encode, hbc]
              exact mergeVals_xzero n _ hx
          | val v l =>
              obtain ⟨-, hz, hx, hval, hlen⟩ := valSet_valid hop
              cases ops with
              | nil =>
                  apply hkeep
                  simp [SparseOp.encode, mergeVals_singleton]
              | cons next ops =>
                  have hnext := htl next List.mem_cons_self
                  cases next with
                  | zero len =>
                      obtain ⟨-, -, -, hnv⟩ := zeroSet_valid hnext
                      apply hkeep
                      simp only [encodeOps_cons, SparseOp.encode, List.singleton_append]
                      rw [mergeVals_val n _ _ hx hz, if_neg (by simp [hnv])]
                  | xzero len =>
                      obtain ⟨c, d, hcd, -, -, hnv, -⟩ := xzeroSet_valid hnext
                      apply hkeep
                      simp only [encodeOps_cons, SparseOp.encode, hcd, List.cons_append,
                        List.nil_append]
                      rw [mergeVals_val n _ _ hx hz, if_neg (by simp [hnv])]
                  | val v' l' =>
                      obtain ⟨hnv, -, -, hnval, hnlen⟩ := valSet_valid hnext
                      by_cases hmerge : v = v' ∧ l + l' ≤ sparseValMaxLen
                      · obtain ⟨rfl, hfit⟩ := hmerge
                        have hvalid : ∀ o ∈ SparseOp.val v (l + l') :: ops, o.Valid := by
                          intro o ho
                          rcases List.mem_cons.mp ho with rfl | ho
                          · exact ⟨hop.1, by have := hop.2.1; omega, hfit⟩
                          · exact htl o (List.mem_cons_of_mem _ ho)
                        obtain ⟨ops', hv', hb', he'⟩ := ih hvalid
                        refine ⟨ops', hv', ?_, ?_⟩
                        · rw [← hb']
                          simp only [encodeOps_cons, SparseOp.encode, List.singleton_append]
                          rw [mergeVals_val n _ _ hx hz, hnv, hval, hnval, hlen, hnlen,
                            if_pos ⟨rfl, rfl, hfit⟩]
                        · rw [he', expand_cons, expand_cons, expand_cons, ← List.append_assoc]
                          congr 1
                          exact List.replicate_add l l' v
                      · apply hkeep
                        simp only [encodeOps_cons, SparseOp.encode, List.singleton_append]
                        rw [mergeVals_val n _ _ hx hz, hnv, hval, hnval, hlen, hnlen,
                          if_neg fun hc => hmerge hc.2]

/-! ## Promotion -/

@[simp] theorem length_fillRegisters (value runlen idx : Nat) (dense : Bytes) :
    (fillRegisters value runlen idx dense).length = dense.length := by
  induction runlen generalizing idx dense with
  | zero => rfl
  | succ runlen ih => rw [fillRegisters, ih, length_hllDenseSetRegister]

theorem denseRegisters_fillRegisters {value runlen n : Nat} {done : List Nat} {dense : Bytes}
    (hlen : dense.length = hllDenseBytes) (hvalue : value < 64)
    (hregs : denseRegisters dense = done ++ List.replicate (runlen + n) 0) :
    denseRegisters (fillRegisters value runlen done.length dense)
      = done ++ List.replicate runlen value ++ List.replicate n 0 := by
  induction runlen generalizing done dense with
  | zero => simpa [fillRegisters] using hregs
  | succ runlen ih =>
      have htotal := congrArg List.length hregs
      rw [length_denseRegisters, List.length_append, List.length_replicate] at htotal
      have hset : denseRegisters (hllDenseSetRegister dense done.length value)
          = (done ++ [value]) ++ List.replicate (runlen + n) 0 := by
        rw [denseRegisters_hllDenseSetRegister hlen (by omega) hvalue, hregs,
          List.set_append_right _ _ (Nat.le_refl _), Nat.sub_self, Nat.succ_add, List.replicate_succ,
          List.set_cons_zero, List.append_assoc, List.singleton_append]
      have hstep := @ih (done ++ [value]) _ (by simpa using hlen) hset
      rw [List.length_append, List.length_singleton] at hstep
      rw [fillRegisters, hstep]
      simp [List.replicate_succ]

theorem SparseOp.length_fill (op : SparseOp) (idx : Nat) (dense : Bytes) :
    (op.fill idx dense).length = dense.length := by
  cases op <;> simp [SparseOp.fill]

theorem SparseOp.denseRegisters_fill {op : SparseOp} (hop : op.Valid) {n : Nat} {done : List Nat}
    {dense : Bytes} (hlen : dense.length = hllDenseBytes)
    (hregs : denseRegisters dense = done ++ List.replicate (op.span + n) 0) :
    denseRegisters (op.fill done.length dense)
      = done ++ List.replicate op.span op.value ++ List.replicate n 0 := by
  cases op with
  | zero len => simpa [SparseOp.fill, SparseOp.span, SparseOp.value] using hregs
  | xzero len => simpa [SparseOp.fill, SparseOp.span, SparseOp.value] using hregs
  | val value len => exact denseRegisters_fillRegisters hlen (by have := hop.1.2; omega) hregs

/-- The walk fills in the registers the opcodes describe. -/
theorem sparseToDense_spec {ops : List SparseOp} (h : ∀ op ∈ ops, op.Valid) {done : List Nat}
    {dense : Bytes} (hlen : dense.length = hllDenseBytes)
    (hregs : denseRegisters dense = done ++ List.replicate (expand ops).length 0) :
    ∃ dense', sparseToDense (ops.map SparseOp.cell) done.length dense
        = some (done.length + (expand ops).length, dense') ∧
      dense'.length = hllDenseBytes ∧ denseRegisters dense' = done ++ expand ops := by
  induction ops generalizing done dense with
  | nil => exact ⟨dense, rfl, hlen, by simpa using hregs⟩
  | cons op ops ih =>
      have hop := h op List.mem_cons_self
      rw [length_expand_cons] at hregs
      have hfill := SparseOp.denseRegisters_fill hop hlen hregs
      have htotal := congrArg List.length hregs
      rw [length_denseRegisters, List.length_append, List.length_replicate] at htotal
      obtain ⟨dense', hwalk, hlen', hregs'⟩ :=
        ih (fun o ho => h o (List.mem_cons_of_mem _ ho)) ((op.length_fill _ _).trans hlen) hfill
      rw [List.length_append, List.length_replicate] at hwalk
      refine ⟨dense', ?_, hlen', by rw [hregs', expand_cons, List.append_assoc]⟩
      rw [List.map_cons, sparseToDense, if_neg (by simp only [SparseOp.cell]; omega)]
      rw [show op.cell.op = op from rfl, hwalk, length_expand_cons, Nat.add_assoc]

/-- **Promotion** keeps the registers and the header. -/
theorem hllSparseToDense_spec {o : Hll} (h : o.Wf) :
    ∃ d, hllSparseToDense o = some d ∧ d.encoding = .dense ∧ d.Wf ∧ d.regs = o.regs ∧
      d.card = o.card ∧ d.notused = o.notused := by
  cases he : o.encoding with
  | dense =>
      refine ⟨o, ?_, he, h, rfl, rfl, rfl⟩
      simp only [hllSparseToDense, he]
  | sparse =>
      obtain ⟨ops, hf⟩ := h.form he
      have hzero : denseRegisters (List.replicate hllDenseBytes 0)
          = [] ++ List.replicate (expand ops).length 0 := by
        rw [denseRegisters_replicate, hf.covers, List.nil_append]
      obtain ⟨dense, hwalk, hlen, hregs⟩ :=
        sparseToDense_spec hf.valid (List.length_replicate ..) hzero
      rw [List.length_nil, Nat.zero_add, hf.covers] at hwalk
      rw [List.nil_append] at hregs
      refine ⟨{ o with
          encoding := .dense
          registers := dense
          term := 0
          alloc := hllHdrSize + hllDenseBytes }, ?_, rfl, hlen, ?_, rfl, rfl⟩
      · simp only [hllSparseToDense, he, o.cells_of_form hf, hwalk, if_true]
      · rw [o.regs_of_form he hf, Hll.regs_of_dense rfl, hregs]

/-! ## Raising a register -/

/-- Raise one entry of a register list. -/
def raiseReg (regs : List Nat) (index count : Nat) : List Nat :=
  if regs.getD index 0 < count then regs.set index count else regs

theorem getD_denseRegisters (p : Bytes) {i : Nat} (hi : i < hllRegisters) :
    (denseRegisters p).getD i 0 = hllDenseGetRegister p i := by
  rw [List.getD_eq_getElem?_getD, getElem?_denseRegisters p hi, Option.getD_some]

/-- **Dense update**. -/
theorem hllDenseSet_spec {p : Bytes} (hp : p.length = hllDenseBytes) {index count : Nat}
    (hi : index < hllRegisters) (hc : count < 64) :
    (hllDenseSet p index count).1 = decide ((denseRegisters p).getD index 0 < count) ∧
      (hllDenseSet p index count).2.length = hllDenseBytes ∧
      denseRegisters (hllDenseSet p index count).2 = raiseReg (denseRegisters p) index count := by
  rw [hllDenseSet, raiseReg, getD_denseRegisters p hi]
  by_cases h : hllDenseGetRegister p index < count
  · rw [if_pos h, if_pos h]
    exact ⟨(decide_eq_true h).symm, by simpa using hp, denseRegisters_hllDenseSetRegister hp hi hc⟩
  · rw [if_neg h, if_neg h]
    exact ⟨(decide_eq_false h).symm, hp, rfl⟩

theorem SparseOp.length_encode (op : SparseOp) : op.encode.length = op.size := by
  cases op <;> rfl

/-- **Substitution**: well-formed opcodes in the place of one of them. -/
theorem Hll.substitute_spec {o : Hll} (he : o.encoding = .sparse) {before after seqOps : List SparseOp}
    (op : SparseOp) (first : Nat) (term : UInt8)
    (hvalid : ∀ x ∈ before ++ seqOps ++ after, x.Valid)
    (hcovers : (expand (before ++ seqOps ++ after)).length = hllRegisters) :
    let o' := o.substitute (locatedAt before op after first) (encodeOps seqOps) op.size term
    o'.Wf ∧ o'.regs = expand (before ++ seqOps ++ after) ∧ o'.encoding = .sparse ∧
      o'.card = o.card ||| cacheBit := by
  intro o'
  have hsuffix : ∀ x ∈ before.drop (before.length - 1) ++ seqOps ++ after, x.Valid := by
    intro x hx
    apply hvalid
    simp only [List.mem_append] at hx ⊢
    rcases hx with (hx | hx) | hx
    · exact .inl (.inl (List.mem_of_mem_drop hx))
    · exact .inl (.inr hx)
    · exact .inr hx
  obtain ⟨merged, hmv, hmb, hme⟩ := mergeVals_encodeOps 5 hsuffix
  have hkept : op.cell.raw.length + (encodeOps seqOps).length - op.size = (encodeOps seqOps).length := by
    rw [show op.cell.raw = op.encode from rfl, op.length_encode]
    omega
  have hregs : o'.registers = encodeOps (before.take (before.length - 1) ++ merged) := by
    simp only [o', Hll.substitute, locatedAt, Hll.invalidateCache, hkept, List.take_length,
      List.length_map, ← List.map_take, ← List.map_drop, rawBytes_map_cell]
    rw [encodeOps_append, ← hmb, encodeOps_append, encodeOps_append]
  have hexpand : expand (before.take (before.length - 1) ++ merged)
      = expand (before ++ seqOps ++ after) := by
    rw [expand_append, hme, ← expand_append, ← List.append_assoc, ← List.append_assoc,
      List.take_append_drop]
  have hform : SparseForm o'.registers (before.take (before.length - 1) ++ merged) := by
    refine ⟨?_, hregs, by rw [hexpand, hcovers]⟩
    intro x hx
    rcases List.mem_append.mp hx with hx | hx
    · exact hvalid x (by simp [List.mem_of_mem_take hx])
    · exact hmv x hx
  have henc : o'.encoding = .sparse := he
  refine ⟨?_, ?_, henc, rfl⟩
  · simp only [Hll.Wf, henc]
    exact ⟨_, hform⟩
  · rw [Hll.regs_of_form henc hform, hexpand]

theorem set_expand {before : List SparseOp} {op : SparseOp} (after : List SparseOp) {index : Nat}
    (count : Nat) (hlow : (expand before).length ≤ index)
    (hhigh : index < (expand before).length + op.span) :
    (expand (before ++ op :: after)).set index count
      = expand (before ++ splitOps op (index - (expand before).length) count
          ((expand before).length + op.span - 1 - index) ++ after) := by
  obtain ⟨k, rfl⟩ := Nat.exists_eq_add_of_le hlow
  obtain ⟨m, hm⟩ : ∃ m, op.span = k + (m + 1) := ⟨op.span - k - 1, by omega⟩
  have hm' : (expand before).length + op.span - 1 - ((expand before).length + k) = m := by omega
  rw [hm', Nat.add_sub_cancel_left, expand_append, expand_append, expand_append, expand_cons,
    expand_splitOps, List.set_append_right _ _ (Nat.le_add_right _ _), Nat.add_sub_cancel_left, hm,
    List.replicate_add, List.append_assoc, List.append_assoc,
    List.set_append_right _ _ (by simp), List.length_replicate, Nat.sub_self, List.replicate_succ]
  simp

theorem getD_expand {before after : List SparseOp} {op : SparseOp} {index : Nat}
    (hlow : (expand before).length ≤ index) (hhigh : index < (expand before).length + op.span) :
    (expand (before ++ op :: after)).getD index 0 = op.value := by
  have hspan : index - (expand before).length < op.span := by omega
  rw [expand_append, expand_cons, List.getD_eq_getElem?_getD, List.getElem?_append_right hlow,
    List.getElem?_append_left (by simpa using hspan), List.getElem?_replicate, if_pos hspan,
    Option.getD_some]

theorem SparseOp.value_le {op : SparseOp} (h : op.Valid) : op.value ≤ 32 := by
  cases op with
  | zero len => exact Nat.zero_le _
  | xzero len => exact Nat.zero_le _
  | val value len => exact h.1.2

/-- What step 1 finds in a well-formed value. -/
theorem SparseForm.locate {registers : Bytes} {ops : List SparseOp} (h : SparseForm registers ops)
    {index : Nat} (hi : index < hllRegisters) :
    ∃ before op after, ops = before ++ op :: after ∧
      locate index 0 (ops.map SparseOp.cell)
        = some (locatedAt before op after (expand before).length) ∧
      (expand before).length ≤ index ∧ index < (expand before).length + op.span := by
  obtain ⟨before, op, after, hops, hloc, hge, hlt⟩ :=
    locate_map_cell ops (Nat.zero_le index) (by rw [h.covers, Nat.zero_add]; exact hi)
  rw [Nat.zero_add] at hloc hge hlt
  exact ⟨before, op, after, hops, hloc, hge, hlt⟩

/-- Raising a register of `o` gives `o'`: in place, which invalidates the
cache, or by promotion, which keeps the header. -/
structure Raises (o : Hll) (index count : Nat) (promoted : Bool) (o' : Hll) : Prop where
  wf : o'.Wf
  regs : o'.regs = o.regs.set index count
  encoding : o'.encoding = if promoted then .dense else .sparse
  card : o'.card = if promoted then o.card else o.card ||| cacheBit

theorem Hll.denseSet_same {o : Hll} (he : o.encoding = .dense) {index count : Nat}
    (hi : index < hllRegisters) (hle : count ≤ o.regs.getD index 0) :
    o.denseSet index count = (.same, o) := by
  rw [o.regs_of_dense he, getD_denseRegisters _ hi] at hle
  rw [Hll.denseSet, hllDenseSet, if_neg (Nat.not_lt.mpr hle)]
  rfl

/-- The dense update raises the register and keeps the header. -/
theorem Hll.denseSet_raised {o : Hll} (h : o.Wf) (he : o.encoding = .dense) {index count : Nat}
    (hi : index < hllRegisters) (hc : count < 64) (hlt : o.regs.getD index 0 < count) :
    ∃ o', o.denseSet index count = (.raised, o') ∧ Raises o index count true o' := by
  obtain ⟨hret, hlen, hset⟩ := hllDenseSet_spec (h.length_dense he) hi hc
  rw [← o.regs_of_dense he] at hret hset
  rw [decide_eq_true hlt] at hret
  rw [raiseReg, if_pos hlt] at hset
  let o' : Hll := { o with registers := (hllDenseSet o.registers index count).2 }
  have he' : o'.encoding = .dense := he
  refine ⟨o', by simp only [Hll.denseSet, hret, if_true, o'], ?_, ?_, he', rfl⟩
  · simp only [Hll.Wf, he']
    exact hlen
  · exact (o'.regs_of_dense he').trans hset

/-- Promotion followed by the dense update. -/
theorem promote_spec {o : Hll} (h : o.Wf) {index count : Nat} (hi : index < hllRegisters)
    (hc : count < 64) (hlt : o.regs.getD index 0 < count) :
    ∃ o', promote o index count = (.raised, o') ∧ Raises o index count true o' := by
  obtain ⟨d, hd, henc, hwf, hregs, hcard, -⟩ := hllSparseToDense_spec h
  rw [← hregs] at hlt
  obtain ⟨o', hset, hr⟩ := Hll.denseSet_raised hwf henc hi hc hlt
  refine ⟨o', by rw [promote, hd]; exact hset, hr.wf, ?_, hr.encoding, ?_⟩
  · rw [hr.regs, hregs]
  · rw [hr.card, hcard]

/-- Splitting in place. -/
theorem Hll.substitute_split_spec {o : Hll} (he : o.encoding = .sparse) {before after : List SparseOp}
    {op : SparseOp} (hform : SparseForm o.registers (before ++ op :: after)) {index count : Nat}
    (term : UInt8) (hc : 1 ≤ count ∧ count ≤ 32) (hlow : (expand before).length ≤ index)
    (hhigh : index < (expand before).length + op.span) :
    Raises o index count false
      (o.substitute (locatedAt before op after (expand before).length)
        (splitSeq op (expand before).length index count) op.size term) := by
  have hset := set_expand after count hlow hhigh
  have hop : op.Valid := hform.valid op (by simp)
  have hvalid : ∀ x ∈ before ++ splitOps op (index - (expand before).length) count
      ((expand before).length + op.span - 1 - index) ++ after, x.Valid := by
    intro x hx
    simp only [List.mem_append] at hx
    rcases hx with (hx | hx) | hx
    · exact hform.valid x (by simp [hx])
    · exact valid_splitOps hop hc (by omega) (by omega) x hx
    · exact hform.valid x (by simp [hx])
  have hcovers := congrArg List.length hset
  rw [List.length_set, hform.covers] at hcovers
  obtain ⟨hwf, hregs, henc, hcard⟩ :=
    Hll.substitute_spec he op (expand before).length term hvalid hcovers.symm
  rw [splitSeq_eq op count hlow hhigh]
  exact ⟨hwf, by rw [hregs, o.regs_of_form he hform, hset], henc, hcard⟩

theorem splitSeq_single {op : SparseOp} {first index : Nat} (count : Nat) (hop : op.single = true)
    (hlow : first ≤ index) (hhigh : index < first + op.span) :
    splitSeq op first index count = [valSet count 1] := by
  cases op with
  | xzero len => simp [SparseOp.single] at hop
  | zero len =>
      simp only [SparseOp.single, beq_iff_eq] at hop
      have hindex : index = first := by simp only [SparseOp.span] at hhigh; omega
      simp [splitSeq, SparseOp.span, hop, hindex]
  | val value len =>
      simp only [SparseOp.single, beq_iff_eq] at hop
      have hindex : index = first := by simp only [SparseOp.span] at hhigh; omega
      simp [splitSeq, SparseOp.span, hop, hindex]

@[simp] theorem Hll.reserve_registers (o : Hll) : o.reserve.registers = o.registers := by
  simp only [Hll.reserve]
  split <;> rfl

@[simp] theorem Hll.reserve_encoding (o : Hll) : o.reserve.encoding = o.encoding := by
  simp only [Hll.reserve]
  split <;> rfl

@[simp] theorem Hll.reserve_card (o : Hll) : o.reserve.card = o.card := by
  simp only [Hll.reserve]
  split <;> rfl

theorem Hll.reserve_len (o : Hll) : o.reserve.len = o.len := by
  rw [Hll.len, Hll.len, Hll.reserve_registers]

theorem Hll.reserve_wf {o : Hll} (h : o.Wf) : o.reserve.Wf := by
  simp only [Hll.Wf, o.reserve_encoding, o.reserve_registers]
  exact h

theorem Hll.reserve_regs {o : Hll} (h : o.Wf) : o.reserve.regs = o.regs := by
  cases he : o.encoding with
  | dense => rw [o.regs_of_dense he, Hll.regs_of_dense (by rw [o.reserve_encoding, he]), o.reserve_registers]
  | sparse =>
      obtain ⟨ops, hform⟩ := h.form he
      rw [o.regs_of_form he hform, Hll.regs_of_form (by rw [o.reserve_encoding, he])]
      rw [o.reserve_registers]
      exact hform

/-- `hllSparseSet` once the opcode is found. -/
theorem hllSparseSet_eq {o : Hll} {before after : List SparseOp} {op : SparseOp}
    {first index count : Nat} (hcount : count ≤ sparseValMaxValue)
    (hloc : locate index 0 o.reserve.cells = some (locatedAt before op after first))
    (hlow : first ≤ index) (hhigh : index < first + op.span) (hpos : 1 ≤ count) :
    hllSparseSet o index count =
      if count ≤ op.value then (.same, o.reserve)
      else if op.single then
        (.raised, o.reserve.substitute (locatedAt before op after first)
          (splitSeq op first index count) op.size o.reserve.term)
      else hllSparseSplit o.reserve (locatedAt before op after first) index count := by
  simp only [hllSparseSet, if_neg (Nat.not_lt.mpr hcount), hloc]
  cases op with
  | val value len =>
      simp only [locatedAt, SparseOp.cell, SparseOp.value, SparseOp.single, beq_iff_eq, ge_iff_le]
      by_cases hv : count ≤ value
      · rw [if_pos hv, if_pos hv]
      · rw [if_neg hv, if_neg hv]
        by_cases hl : len = 1
        · rw [if_pos hl, if_pos hl, splitSeq_single count (by simp [SparseOp.single, hl]) hlow hhigh]
          rfl
        · rw [if_neg hl, if_neg hl]
  | zero len =>
      have hv : ¬ count ≤ (SparseOp.zero len).value := Nat.not_le.mpr hpos
      rw [if_neg hv]
      simp only [locatedAt, SparseOp.cell, SparseOp.single, beq_iff_eq]
      by_cases hl : len = 1
      · rw [if_pos hl, if_pos hl, splitSeq_single count (by simp [SparseOp.single, hl]) hlow hhigh]
        rfl
      · rw [if_neg hl, if_neg hl]
  | xzero len =>
      have hv : ¬ count ≤ (SparseOp.xzero len).value := Nat.not_le.mpr hpos
      rw [if_neg hv]
      rfl

/-- A register that is high enough already stays. -/
theorem hllSparseSet_same {o : Hll} (h : o.Wf) (he : o.encoding = .sparse) {index count : Nat}
    (hi : index < hllRegisters) (hpos : 1 ≤ count) (hle : count ≤ o.regs.getD index 0) :
    hllSparseSet o index count = (.same, o.reserve) := by
  obtain ⟨ops, hform⟩ := h.form he
  obtain ⟨before, op, after, rfl, hloc, hlow, hhigh⟩ := hform.locate hi
  rw [o.regs_of_form he hform, getD_expand hlow hhigh] at hle
  have hop := hform.valid op (by simp)
  have hcells : o.reserve.cells = (before ++ op :: after).map SparseOp.cell :=
    Hll.cells_of_form (by rw [o.reserve_registers]; exact hform)
  rw [← hcells] at hloc
  rw [hllSparseSet_eq (Nat.le_trans hle (SparseOp.value_le hop)) hloc hlow hhigh hpos, if_pos hle]

/-- **Sparse update**: a register that is lower than `count` is raised. -/
theorem hllSparseSet_raised {o : Hll} (h : o.Wf) (he : o.encoding = .sparse) {index count : Nat}
    (hi : index < hllRegisters) (hc : count < 64) (hlt : o.regs.getD index 0 < count) :
    ∃ o', hllSparseSet o index count = (.raised, o') ∧
      Raises o index count (promotes o index count) o' := by
  by_cases hcount : count ≤ sparseValMaxValue
  swap
  · have hpromotes : promotes o index count = true := by
      rw [promotes, decide_eq_true (Nat.lt_of_not_le hcount), Bool.true_or]
    rw [hllSparseSet, if_pos (Nat.lt_of_not_le hcount), hpromotes]
    exact promote_spec h hi hc hlt
  have he' : o.reserve.encoding = .sparse := o.reserve_encoding.trans he
  have hregs' := Hll.reserve_regs h
  have hlift : ∀ {b o'}, Raises o.reserve index count b o' → Raises o index count b o' := by
    intro b o' hr
    exact ⟨hr.wf, by rw [hr.regs, hregs'], hr.encoding, by rw [hr.card, o.reserve_card]⟩
  obtain ⟨ops, hform⟩ := h.form he
  obtain ⟨before, op, after, rfl, hloc, hlow, hhigh⟩ := hform.locate hi
  have hform' : SparseForm o.reserve.registers (before ++ op :: after) := by
    rw [o.reserve_registers]
    exact hform
  have hpromotes : promotes o index count = (!op.single &&
      splitOverflows o (splitSeq op (expand before).length index count).length op.size) := by
    rw [promotes, decide_eq_false (Nat.not_lt.mpr hcount), Bool.false_or, o.cells_of_form hform, hloc]
    rfl
  have hvalue : ¬ count ≤ op.value := by
    rw [o.regs_of_form he hform, getD_expand hlow hhigh] at hlt
    omega
  have hsub := fun term => hlift <|
    Hll.substitute_split_spec he' hform' term ⟨by omega, hcount⟩ hlow hhigh
  rw [← Hll.cells_of_form hform'] at hloc
  rw [hllSparseSet_eq hcount hloc hlow hhigh (by omega), if_neg hvalue, hpromotes]
  cases hsingle : op.single with
  | true => exact ⟨_, rfl, hsub _⟩
  | false =>
      rw [if_neg Bool.false_ne_true, Bool.not_false, Bool.true_and, hllSparseSplit]
      have hover : splitOverflows o.reserve (splitSeq op (expand before).length index count).length op.size
          = splitOverflows o (splitSeq op (expand before).length index count).length op.size := by
        rw [splitOverflows, splitOverflows, o.reserve_len]
      cases hov : splitOverflows o (splitSeq op (expand before).length index count).length op.size with
      | true =>
          obtain ⟨o', hp, hr⟩ := promote_spec (Hll.reserve_wf h) hi hc (by rw [hregs']; exact hlt)
          rw [if_pos (by exact hover.trans hov)]
          exact ⟨o', hp, hlift hr⟩
      | false =>
          rw [if_neg (by rw [Bool.not_eq_true]; exact hover.trans hov)]
          exact ⟨_, rfl, hsub 0⟩

end SkynetJit.Redis.HyperLogLog
