import Mathlib.Algebra.BigOperators.Group.List.Basic
import Mathlib.Data.Prod.Lex
import SkynetJit.Redis.Hll.Kernel

/-!
# SkynetJit.Redis.Hll.Growth

What adding an element does to any string that `hll.load` lets in, also to
one whose opcodes are corrupt.

An update walks and rewrites the opcodes it finds, which need not cover all
registers, and the last of which may be cut off.  `weight` counts what the
registers of a sparse string add up to, and whether its last opcode is whole.
Merging keeps it (`weight_mergeVals`) and raising a register adds to it, so a
string that was changed once is never what it was (`grows_hllAdd`).
-/

namespace SkynetJit.Redis.HyperLogLog

/-! ## The weight of a string -/

/-- Twice what the registers add up to, and one if the last opcode is whole. -/
def weight : Bytes → Nat
  | [] => 1
  | b :: rest =>
      if isZero b then weight rest
      else if isVal b then 2 * (valLen b * valValue b) + weight rest
      else match rest with
        | [] => 0
        | _ :: rest => weight rest

set_option maxRecDepth 4000 in
theorem byteKind : ∀ n < 256, isXzero (UInt8.ofNat n) = (!isZero (UInt8.ofNat n) && !isVal (UInt8.ofNat n)) ∧
    (isVal (UInt8.ofNat n) = true → isZero (UInt8.ofNat n) = false) := by
  decide

/-- Every byte starts one of the three kinds of opcodes. -/
theorem isXzero_eq (b : UInt8) : isXzero b = (!isZero b && !isVal b) := by
  have h := (byteKind b.toNat b.toNat_lt).1
  rwa [UInt8.ofNat_toNat] at h

theorem not_isZero_of_isVal {b : UInt8} (h : isVal b = true) : isZero b = false := by
  have hkind := (byteKind b.toNat b.toNat_lt).2
  rw [UInt8.ofNat_toNat] at hkind
  exact hkind h

theorem weight_zero {b : UInt8} (rest : Bytes) (hz : isZero b = true) : weight (b :: rest) = weight rest := by
  cases rest <;> simp [weight, hz]

theorem weight_val {b : UInt8} (rest : Bytes) (hv : isVal b = true) :
    weight (b :: rest) = 2 * (valLen b * valValue b) + weight rest := by
  cases rest <;> simp [weight, not_isZero_of_isVal hv, hv]

theorem weight_xzero {b : UInt8} (c : UInt8) (rest : Bytes) (hx : isXzero b = true) :
    weight (b :: c :: rest) = weight rest := by
  rw [isXzero_eq, Bool.and_eq_true, Bool.not_eq_true', Bool.not_eq_true'] at hx
  simp [weight, hx.1, hx.2]

theorem weight_cut {b : UInt8} (hx : isXzero b = true) : weight [b] = 0 := by
  rw [isXzero_eq, Bool.and_eq_true, Bool.not_eq_true', Bool.not_eq_true'] at hx
  simp [weight, hx.1, hx.2]

theorem valValue_bounds (b : UInt8) : 1 ≤ valValue b ∧ valValue b ≤ 32 := by
  have hmask : (b >>> 2 &&& 0x1f).toNat ≤ 31 := by
    rw [UInt8.toNat_and]
    exact Nat.and_le_right
  exact ⟨Nat.le_add_left 1 _, Nat.succ_le_succ hmask⟩

theorem valLen_bounds (b : UInt8) : 1 ≤ valLen b ∧ valLen b ≤ 4 := by
  have hmask : (b &&& 0x3).toNat ≤ 3 := by
    rw [UInt8.toNat_and]
    exact Nat.and_le_right
  exact ⟨Nat.le_add_left 1 _, Nat.succ_le_succ hmask⟩

/-- Merging neighbouring `VAL`s keeps the weight. -/
theorem weight_mergeVals (n : Nat) (bytes : Bytes) : weight (mergeVals n bytes) = weight bytes := by
  induction n generalizing bytes with
  | zero => rfl
  | succ n ih =>
      cases bytes with
      | nil => rfl
      | cons b rest =>
          cases hx : isXzero b with
          | true =>
              cases rest with
              | nil => rw [mergeVals_singleton]
              | cons c rest => rw [mergeVals_xzero n rest hx, weight_xzero c _ hx, weight_xzero c _ hx, ih]
          | false =>
              cases hz : isZero b with
              | true => rw [mergeVals_zero n rest hx hz, weight_zero _ hz, weight_zero _ hz, ih]
              | false =>
                  have hv : isVal b = true := by
                    rw [isXzero_eq, hz, Bool.not_false, Bool.true_and, Bool.not_eq_false'] at hx
                    exact hx
                  cases rest with
                  | nil => rw [mergeVals_singleton]
                  | cons c rest =>
                      rw [mergeVals_val n c rest hx hz]
                      split_ifs with hmerge
                      · obtain ⟨hc, hvalue, hlen⟩ := hmerge
                        have hvalid : (SparseOp.val (valValue b) (valLen b + valLen c)).Valid :=
                          ⟨valValue_bounds b, Nat.le_add_right_of_le (valLen_bounds b).1, hlen⟩
                        obtain ⟨hm, -, -, hmv, hml⟩ := valSet_valid hvalid
                        rw [ih, weight_val _ hm, weight_val _ hv, weight_val _ hc, hmv, hml, ← hvalue,
                          Nat.add_mul, Nat.mul_add, Nat.add_assoc]
                      · rw [weight_val _ hv, weight_val _ hv, ih]

/-- The weight of opcodes that are written. -/
theorem weight_encodeOps {ops : List SparseOp} (h : ∀ op ∈ ops, op.Valid) (rest : Bytes) :
    weight (encodeOps ops ++ rest) = 2 * (expand ops).sum + weight rest := by
  induction ops with
  | nil => simp
  | cons op ops ih =>
      have hop := h op List.mem_cons_self
      have ih := ih fun o ho => h o (List.mem_cons_of_mem op ho)
      rw [encodeOps_cons, List.append_assoc, expand_cons, List.sum_append_nat, List.sum_replicate_nat,
        Nat.mul_add, Nat.add_assoc, ← ih]
      cases op with
      | zero len =>
          obtain ⟨hz, -⟩ := zeroSet_valid hop
          rw [SparseOp.encode, List.singleton_append, weight_zero _ hz]
          simp [SparseOp.value]
      | xzero len =>
          obtain ⟨b, c, hbc, hx, -⟩ := xzeroSet_valid hop
          rw [SparseOp.encode, hbc, List.cons_append, List.singleton_append, weight_xzero c _ hx]
          simp [SparseOp.value]
      | val value len =>
          obtain ⟨hv, -, -, hvalue, hlen⟩ := valSet_valid hop
          rw [SparseOp.encode, List.singleton_append, weight_val _ hv, hvalue, hlen]
          rfl

/-! ## The opcodes of any string -/

/-- An opcode all of whose bytes are in the string. -/
structure Cell.Whole (c : Cell) : Prop where
  valid : c.op.Valid
  length : c.raw.length = c.op.size
  weight : ∀ rest, weight (c.raw ++ rest) = 2 * (c.op.span * c.op.value) + weight rest

/-- An `XZERO` whose second byte is behind the end of the string. -/
structure Cell.Cut (c : Cell) : Prop where
  valid : c.op.Valid
  xzero : ∃ len, c.op = .xzero len
  length : c.raw.length = 1
  weight : weight c.raw = 0

theorem xzeroLen_bounds (b c : UInt8) : 1 ≤ xzeroLen b c ∧ xzeroLen b c ≤ 16384 := by
  have hb : (b &&& 0x3f).toNat < 2 ^ 6 := by
    rw [UInt8.toNat_and]
    exact Nat.lt_of_le_of_lt Nat.and_le_right (by decide)
  have hc : c.toNat < 2 ^ 14 := Nat.lt_trans c.toNat_lt (by decide)
  have hshift : (b &&& 0x3f).toNat <<< 8 < 2 ^ 14 := by
    rw [Nat.shiftLeft_eq]
    omega
  exact ⟨Nat.le_add_left 1 _, Nat.or_lt_two_pow hshift hc⟩

theorem zeroLen_bounds (b : UInt8) : 1 ≤ zeroLen b ∧ zeroLen b ≤ 64 := by
  have hmask : (b &&& 0x3f).toNat ≤ 63 := by
    rw [UInt8.toNat_and]
    exact Nat.and_le_right
  exact ⟨Nat.le_add_left 1 _, Nat.succ_le_succ hmask⟩

/-- The first opcode of a string. -/
theorem sparseCells_cons {term : UInt8} {bytes : Bytes} {c : Cell} {cells : List Cell}
    (h : sparseCells term bytes = c :: cells) :
    (c.Whole ∧ ∃ rest, bytes = c.raw ++ rest ∧ cells = sparseCells term rest) ∨
      (c.Cut ∧ bytes = c.raw ∧ cells = []) := by
  cases bytes with
  | nil => exact absurd h.symm (List.cons_ne_nil c cells)
  | cons b rest =>
      cases hz : isZero b with
      | true =>
          rw [sparseCells_zero term rest hz] at h
          obtain ⟨rfl, rfl⟩ := List.cons.inj h
          refine .inl ⟨⟨zeroLen_bounds b, rfl, fun t => ?_⟩, rest, rfl, rfl⟩
          rw [List.singleton_append, weight_zero t hz]
          simp [SparseOp.value]
      | false =>
          cases hv : isVal b with
          | true =>
              rw [sparseCells_val term rest hz hv] at h
              obtain ⟨rfl, rfl⟩ := List.cons.inj h
              refine .inl ⟨⟨⟨valValue_bounds b, valLen_bounds b⟩, rfl, fun t => ?_⟩, rest, rfl, rfl⟩
              exact weight_val t hv
          | false =>
              have hx : isXzero b = true := by rw [isXzero_eq, hz, hv]; rfl
              cases rest with
              | nil =>
                  simp only [sparseCells, hz, hv, Bool.false_eq_true, if_false] at h
                  obtain ⟨rfl, rfl⟩ := List.cons.inj h
                  exact .inr ⟨⟨xzeroLen_bounds b term, ⟨_, rfl⟩, rfl, weight_cut hx⟩, rfl, rfl⟩
              | cons d rest =>
                  rw [sparseCells_xzero term rest hz hv] at h
                  obtain ⟨rfl, rfl⟩ := List.cons.inj h
                  refine .inl ⟨⟨xzeroLen_bounds b d, rfl, fun t => ?_⟩, rest, rfl, rfl⟩
                  rw [List.cons_append, List.singleton_append, weight_xzero d t hx]
                  simp [SparseOp.value]

theorem rawBytes_cons (c : Cell) (cells : List Cell) : rawBytes (c :: cells) = c.raw ++ rawBytes cells :=
  List.flatMap_cons

theorem rawBytes_append (xs ys : List Cell) : rawBytes (xs ++ ys) = rawBytes xs ++ rawBytes ys :=
  List.flatMap_append

/-- The opcodes of a string are its bytes, each of them is valid, and all but
the last are whole. -/
theorem sparseCells_spec (term : UInt8) (bytes : Bytes) {n : Nat} (hn : bytes.length = n) :
    rawBytes (sparseCells term bytes) = bytes ∧ (∀ c ∈ sparseCells term bytes, c.op.Valid) ∧
      ∀ before c after, sparseCells term bytes = before ++ c :: after →
        (∀ x ∈ before, x.Whole) ∧ (c.Whole ∨ c.Cut ∧ after = []) := by
  induction n using Nat.strongRecOn generalizing bytes with
  | ind n ih =>
      cases hcells : sparseCells term bytes with
      | nil =>
          have hnil : bytes = [] := by
            cases bytes with
            | nil => rfl
            | cons b rest =>
                cases rest <;> simp [sparseCells] at hcells <;> split_ifs at hcells
          refine ⟨hnil.symm, by simp, fun before c after h => ?_⟩
          exact absurd h (by simp)
      | cons c cells =>
          obtain ⟨hwhole, rest, rfl, rfl⟩ | ⟨hcut, rfl, rfl⟩ := sparseCells_cons hcells
          · have hsize : rest.length < n := by
              have hlen := hwhole.length
              have hpos : 1 ≤ c.op.size := by cases c.op <;> simp [SparseOp.size]
              rw [List.length_append] at hn
              omega
            obtain ⟨hraw, hvalid, hsplit⟩ := ih rest.length hsize rest rfl
            refine ⟨by rw [rawBytes_cons, hraw], ?_, fun before d after h => ?_⟩
            · intro d hd
              obtain rfl | hd := List.mem_cons.mp hd
              · exact hwhole.valid
              · exact hvalid d hd
            · cases before with
              | nil =>
                  obtain ⟨rfl, -⟩ := List.cons.inj h
                  exact ⟨by simp, .inl hwhole⟩
              | cons x before =>
                  obtain ⟨rfl, hrest⟩ := List.cons.inj h
                  obtain ⟨hbefore, hd⟩ := hsplit before d after hrest
                  refine ⟨fun y hy => ?_, hd⟩
                  obtain rfl | hy := List.mem_cons.mp hy
                  · exact hwhole
                  · exact hbefore y hy
          · refine ⟨by simp [rawBytes], by simpa using hcut.valid, fun before d after h => ?_⟩
            cases before with
            | nil =>
                obtain ⟨rfl, rfl⟩ := List.cons.inj h
                exact ⟨by simp, .inr ⟨hcut, rfl⟩⟩
            | cons x before => simp at h

/-- Whole opcodes in front add the same to every string. -/
theorem weight_rawBytes {cells : List Cell} (h : ∀ c ∈ cells, c.Whole) :
    ∃ k, ∀ rest, weight (rawBytes cells ++ rest) = k + weight rest := by
  induction cells with
  | nil => exact ⟨0, fun rest => (Nat.zero_add _).symm⟩
  | cons c cells ih =>
      obtain ⟨k, hk⟩ := ih fun x hx => h x (List.mem_cons_of_mem c hx)
      refine ⟨2 * (c.op.span * c.op.value) + k, fun rest => ?_⟩
      rw [rawBytes_cons, List.append_assoc, (h c List.mem_cons_self).weight, hk, Nat.add_assoc]

/-- Where step 1 stops. -/
theorem locate_spec {cells : List Cell} {index first : Nat} {l : Located} (hlow : first ≤ index)
    (h : locate index first cells = some l) :
    cells = l.before ++ l.cell :: l.after ∧ l.first ≤ index ∧ index < l.first + l.cell.op.span ∧
      l.first = first + (expand (l.before.map Cell.op)).length := by
  induction cells generalizing first l with
  | nil => simp [locate] at h
  | cons c cells ih =>
      rw [locate] at h
      split_ifs at h with hin
      · obtain rfl := Option.some.inj h
        exact ⟨rfl, hlow, hin, rfl⟩
      · obtain ⟨l', hl', rfl⟩ := Option.map_eq_some_iff.mp h
        obtain ⟨hcells, hle, hlt, hfirst⟩ := ih (Nat.not_lt.mp hin) hl'
        refine ⟨congrArg (c :: ·) hcells, hle, hlt, ?_⟩
        rw [List.map_cons, length_expand_cons, hfirst, Nat.add_assoc]

/-! ## Rewriting an opcode -/

/-- In the place of a whole opcode that holds less than `count`. -/
theorem weight_splitSeq {op : SparseOp} {first index count : Nat} (hop : op.Valid)
    (hcount : 1 ≤ count ∧ count ≤ 32) (hlow : first ≤ index) (hhigh : index < first + op.span)
    (hlt : op.value < count) (rest : Bytes) :
    2 * (op.span * op.value) + weight rest < weight (splitSeq op first index count ++ rest) := by
  have hvalid : ∀ o ∈ splitOps op (index - first) count (first + op.span - 1 - index), o.Valid :=
    valid_splitOps hop hcount (by omega) (by omega)
  rw [splitSeq_eq op count hlow hhigh, weight_encodeOps hvalid, expand_splitOps, List.sum_append_nat,
    List.sum_cons, List.sum_replicate_nat, List.sum_replicate_nat]
  have hspan : op.span = (index - first) + (first + op.span - 1 - index) + 1 := by omega
  generalize index - first = m, first + op.span - 1 - index = n at hspan
  rw [hspan, Nat.add_mul, Nat.add_mul, Nat.one_mul]
  omega

/-- In the place of the opcode that is cut off, less the byte that lands behind
the end. -/
theorem weight_splitSeq_cut {op : SparseOp} {first index count : Nat} (hop : op.Valid)
    (hcount : 1 ≤ count ∧ count ≤ 32) (hlow : first ≤ index) (hhigh : index < first + op.span) :
    0 < weight ((splitSeq op first index count).dropLast) := by
  rw [splitSeq_eq op count hlow hhigh]
  generalize hbefore : index - first = m, hafter : first + op.span - 1 - index = n
  have hval : (SparseOp.val count 1).Valid := ⟨hcount, by decide⟩
  have hfront : ∀ o ∈ (if m ≠ 0 then [op.piece m] else []), o.Valid := by
    intro o ho
    split_ifs at ho with hm
    · obtain rfl := List.mem_singleton.mp ho
      exact hop.piece (by omega) (by omega)
    · exact absurd ho List.not_mem_nil
  by_cases hn : n = 0
  · -- the new register is what lands there
    rw [splitOps, if_neg (not_not.mpr hn), List.append_nil, encodeOps_append, encodeOps_cons, encodeOps_nil,
      List.append_nil, SparseOp.encode, List.dropLast_concat]
    have h := weight_encodeOps hfront []
    rw [List.append_nil] at h
    rw [h]
    simp [weight]
  · have hmiddle : ∀ o ∈ (if m ≠ 0 then [op.piece m] else []) ++ [.val count 1], o.Valid := by
      intro o ho
      obtain ho | ho := List.mem_append.mp ho
      · exact hfront o ho
      · obtain rfl := List.mem_singleton.mp ho
        exact hval
    have hback : (op.piece n).encode ≠ [] := by
      intro hnil
      have hsize := (op.piece n).length_encode
      rw [hnil] at hsize
      cases hp : op.piece n <;> simp [hp, SparseOp.size] at hsize
    rw [splitOps, if_pos hn, encodeOps_append, encodeOps_cons (op.piece n), encodeOps_nil, List.append_nil,
      List.dropLast_append_of_ne_nil hback, weight_encodeOps hmiddle, expand_append, List.sum_append_nat]
    simp only [expand_cons, SparseOp.span, SparseOp.value, expand_nil, List.append_nil,
      List.replicate_one, List.sum_singleton]
    omega

/-- **Rewriting** the opcode that was found adds to the weight. -/
theorem weight_substitute {o : Hll} {l : Located} {index count : Nat} (term : UInt8)
    (hloc : locate index 0 o.cells = some l) (hcount : 1 ≤ count ∧ count ≤ 32)
    (hlt : l.cell.op.value < count) :
    weight o.registers <
      weight (o.substitute l (splitSeq l.cell.op l.first index count) l.cell.op.size term).registers := by
  obtain ⟨hcells, hlow, hhigh, -⟩ := locate_spec (Nat.zero_le index) hloc
  obtain ⟨hraw, hvalid, hsplit⟩ := sparseCells_spec o.term o.registers rfl
  rw [← Hll.cells, hcells] at hraw
  obtain ⟨hbefore, hcell⟩ := hsplit l.before l.cell l.after hcells
  have hop : l.cell.op.Valid := hvalid l.cell (by rw [← Hll.cells, hcells]; simp)
  obtain ⟨k, hk⟩ := weight_rawBytes hbefore
  have hnew : ∀ mid, weight (rawBytes (l.before.take (l.before.length - 1)) ++
      mergeVals 5 (rawBytes (l.before.drop (l.before.length - 1)) ++ mid)) = k + weight mid := by
    intro mid
    obtain ⟨k', hk'⟩ := weight_rawBytes fun c hc => hbefore c (List.mem_of_mem_take hc)
    rw [hk', weight_mergeVals, ← hk', ← List.append_assoc, ← rawBytes_append, List.take_append_drop]
    exact hk mid
  rw [Hll.substitute]
  simp only [Hll.invalidateCache]
  rw [List.append_assoc, hnew, ← hraw, rawBytes_append, rawBytes_cons, hk]
  refine Nat.add_lt_add_left ?_ k
  obtain hwhole | ⟨hcut, hafter⟩ := hcell
  · rw [hwhole.length, Nat.add_sub_cancel_left, List.take_length, hwhole.weight]
    exact weight_splitSeq hop hcount hlow hhigh hlt _
  · obtain ⟨len, hxzero⟩ := hcut.xzero
    have hlen : l.cell.raw.length + (splitSeq l.cell.op l.first index count).length - l.cell.op.size =
        (splitSeq l.cell.op l.first index count).length - 1 := by
      rw [hcut.length, hxzero, SparseOp.size]
      omega
    rw [hlen, ← List.dropLast_eq_take, hafter, rawBytes, List.flatMap_nil, List.append_nil, List.append_nil,
      hcut.weight]
    exact weight_splitSeq_cut hop hcount hlow hhigh

/-! ## Adding an element -/

/-- The string of a value: the header and the registers. -/
def Hll.string (o : Hll) : Encoding × Bytes × UInt64 × Bytes := (o.encoding, o.notused, o.card, o.registers)

/-- How far a value is: sparse before dense, then by what its registers add up
to. -/
def Hll.measure (o : Hll) : ℕ ×ₗ ℕ :=
  match o.encoding with
  | .dense => toLex (1, (denseRegisters o.registers).sum)
  | .sparse => toLex (0, weight o.registers)

/-- What `rl_checkhll` checks: a dense value has its size. -/
def Hll.Sized (o : Hll) : Prop := o.encoding = .dense → o.registers.length = hllDenseBytes

theorem Hll.Sized.of_string {o o' : Hll} (h : o.Sized) (heq : o'.string = o.string) : o'.Sized := by
  simp only [Hll.string, Prod.mk.injEq] at heq
  obtain ⟨he, -, -, hr⟩ := heq
  intro hdense
  rw [hr]
  exact h (he ▸ hdense)

theorem Hll.measure_congr {o o' : Hll} (heq : o'.string = o.string) : o'.measure = o.measure := by
  simp only [Hll.string, Prod.mk.injEq] at heq
  obtain ⟨he, -, -, hr⟩ := heq
  rw [Hll.measure, Hll.measure, he, hr]

theorem Hll.measure_sparse {o : Hll} (he : o.encoding = .sparse) : o.measure = toLex (0, weight o.registers) := by
  rw [Hll.measure, he]

theorem Hll.measure_dense {o : Hll} (he : o.encoding = .dense) :
    o.measure = toLex (1, (denseRegisters o.registers).sum) := by
  rw [Hll.measure, he]

@[simp] theorem Hll.reserve_string (o : Hll) : o.reserve.string = o.string := by
  simp only [Hll.reserve, Hll.string]
  split <;> rfl

/-- An update: a raised register adds to the measure, and otherwise the string
stays. -/
structure Grows (o : Hll) (r : SetResult × Hll) : Prop where
  sized : r.2.Sized
  raised : r.1 = .raised → o.measure < r.2.measure
  kept : r.1 ≠ .raised → r.2.string = o.string

theorem Grows.of_string {o o' : Hll} {r : SetResult × Hll} (h : Grows o' r) (heq : o'.string = o.string) :
    Grows o r :=
  ⟨h.sized, fun hr => Hll.measure_congr heq ▸ h.raised hr, fun hr => (h.kept hr).trans heq⟩

theorem grows_kept {o o' : Hll} {result : SetResult} (h : o.Sized) (hresult : result ≠ .raised)
    (heq : o'.string = o.string) : Grows o (result, o') :=
  ⟨h.of_string heq, fun hr => absurd hr hresult, fun _ => heq⟩

theorem sum_lt_sum_set {l : List Nat} {i c : Nat} (hi : i < l.length) (hlt : l.getD i 0 < c) :
    l.sum < (l.set i c).sum := by
  rw [List.getD_eq_getElem l 0 hi] at hlt
  have hsplit : l.sum = (l.take i).sum + (l[i] + (l.drop (i + 1)).sum) := by
    rw [← List.sum_cons, ← List.drop_eq_getElem_cons hi, ← List.sum_append_nat, List.take_append_drop]
  rw [List.sum_set, if_pos hi, hsplit]
  omega

/-- The dense update. -/
theorem grows_denseSet {o : Hll} (h : o.Sized) (he : o.encoding = .dense) {index count : Nat}
    (hi : index < hllRegisters) (hc : count < 64) : Grows o (o.denseSet index count) := by
  obtain ⟨hret, hlen, hregs⟩ := hllDenseSet_spec (h he) hi hc
  by_cases hlt : (denseRegisters o.registers).getD index 0 < count
  · rw [decide_eq_true hlt] at hret
    rw [raiseReg, if_pos hlt] at hregs
    rw [Hll.denseSet, hret]
    refine ⟨fun _ => hlen, fun _ => ?_, fun hr => absurd rfl hr⟩
    rw [Hll.measure_dense he, Hll.measure_dense (by exact he), Prod.Lex.toLex_lt_toLex]
    refine .inr ⟨rfl, ?_⟩
    have hbound : index < (denseRegisters o.registers).length :=
      Nat.lt_of_lt_of_eq hi (length_denseRegisters o.registers).symm
    dsimp only
    rw [hregs]
    generalize denseRegisters o.registers = regs at hbound hlt
    exact sum_lt_sum_set hbound hlt
  · rw [Hll.denseSet_same he hi (by rw [Hll.regs_of_dense he]; exact Nat.not_lt.mp hlt)]
    exact grows_kept h (by decide) rfl

/-- The walk of `hllSparseToDense` only looks at the opcodes, and counts the
registers they cover. -/
theorem sparseToDense_eq_some {cells : List Cell} {idx idx' : Nat} {dense dense' : Bytes}
    (h : sparseToDense cells idx dense = some (idx', dense')) :
    sparseToDense ((cells.map Cell.op).map SparseOp.cell) idx dense = some (idx', dense') ∧
      idx' = idx + (expand (cells.map Cell.op)).length := by
  induction cells generalizing idx dense with
  | nil =>
      obtain ⟨rfl, rfl⟩ := Prod.mk.inj (Option.some.inj h)
      exact ⟨rfl, rfl⟩
  | cons c cells ih =>
      rw [sparseToDense] at h
      split_ifs at h with hover
      obtain ⟨hwalk, hidx⟩ := ih h
      rw [List.map_cons, List.map_cons, sparseToDense, if_neg (by exact hover), length_expand_cons,
        ← Nat.add_assoc]
      exact ⟨hwalk, hidx⟩

theorem valid_cells (o : Hll) : ∀ op ∈ o.cells.map Cell.op, op.Valid := by
  intro op hop
  obtain ⟨c, hc, rfl⟩ := List.mem_map.mp hop
  exact (sparseCells_spec o.term o.registers rfl).2.1 c hc

/-- No opcode holds more than `HLL_SPARSE_VAL_MAX_VALUE`. -/
theorem getD_expand_le {ops : List SparseOp} (h : ∀ op ∈ ops, op.Valid) (i : Nat) :
    (expand ops).getD i 0 ≤ 32 := by
  rw [List.getD_eq_getElem?_getD]
  cases hi : (expand ops)[i]? with
  | none => exact Nat.zero_le 32
  | some x =>
      obtain ⟨op, hop, hx⟩ := List.mem_flatMap.mp (List.mem_of_getElem? hi)
      rw [(List.mem_replicate.mp hx).2]
      exact SparseOp.value_le (h op hop)

/-- The `promote` exit, when the opcodes hold less than `count`: the value turns
dense, or the opcodes are corrupt. -/
theorem grows_promote {o : Hll} (he : o.encoding = .sparse) {index count : Nat} (hi : index < hllRegisters)
    (hc : count < 64) (hlt : (expand (o.cells.map Cell.op)).getD index 0 < count) :
    Grows o (promote o index count) := by
  rw [promote]
  cases hdense : hllSparseToDense o with
  | none => exact grows_kept (fun hd => by rw [he] at hd; contradiction) (by decide) rfl
  | some d =>
      rw [hllSparseToDense, he] at hdense
      simp only at hdense
      cases hwalk : sparseToDense o.cells 0 (List.replicate hllDenseBytes 0) with
      | none => simp [hwalk] at hdense
      | some r =>
          obtain ⟨idx, dense⟩ := r
          simp only [hwalk] at hdense
          split_ifs at hdense with hidx
          obtain rfl := Option.some.inj hdense
          obtain ⟨hops, hcovers⟩ := sparseToDense_eq_some hwalk
          rw [Nat.zero_add, hidx] at hcovers
          have hzero : denseRegisters (List.replicate hllDenseBytes 0) =
              [] ++ List.replicate (expand (o.cells.map Cell.op)).length 0 := by
            rw [denseRegisters_replicate, ← hcovers, List.nil_append]
          obtain ⟨dense', hspec, hlen, hregs⟩ := sparseToDense_spec (valid_cells o) (List.length_replicate ..) hzero
          rw [List.length_nil, hops] at hspec
          obtain ⟨-, rfl⟩ := Prod.mk.inj (Option.some.inj hspec)
          rw [List.nil_append] at hregs
          obtain ⟨hret, hlen', -⟩ := hllDenseSet_spec hlen hi hc
          rw [hregs, decide_eq_true hlt] at hret
          simp only [Hll.denseSet, hret, if_true]
          refine ⟨fun _ => hlen', fun _ => ?_, fun hr => absurd rfl hr⟩
          rw [Hll.measure_sparse he, Hll.measure_dense rfl, Prod.Lex.toLex_lt_toLex]
          exact .inl Nat.zero_lt_one

/-- Rewriting an opcode in place. -/
theorem grows_substitute {o : Hll} (he : o.encoding = .sparse) {l : Located} {index count : Nat} (term : UInt8)
    (hloc : locate index 0 o.cells = some l) (hcount : 1 ≤ count ∧ count ≤ 32)
    (hlt : l.cell.op.value < count) :
    Grows o (.raised, o.substitute l (splitSeq l.cell.op l.first index count) l.cell.op.size term) := by
  refine ⟨fun hd => ?_, fun _ => ?_, fun hr => absurd rfl hr⟩
  · exact absurd (he.symm.trans hd) (by decide)
  · rw [Hll.measure_sparse he, Hll.measure_sparse (by exact he), Prod.Lex.toLex_lt_toLex]
    exact .inr ⟨rfl, weight_substitute term hloc hcount hlt⟩

/-- The general case. -/
theorem grows_split {o : Hll} (he : o.encoding = .sparse) {l : Located} {index count : Nat}
    (hloc : locate index 0 o.cells = some l) (hi : index < hllRegisters) (hcount : 1 ≤ count ∧ count ≤ 32)
    (hlt : l.cell.op.value < count) : Grows o (hllSparseSplit o l index count) := by
  rw [hllSparseSplit]
  split_ifs
  · refine grows_promote he hi (by omega) ?_
    obtain ⟨hcells, hlow, hhigh, hfirst⟩ := locate_spec (Nat.zero_le index) hloc
    rw [Nat.zero_add] at hfirst
    rw [hfirst] at hlow hhigh
    rw [hcells, List.map_append, List.map_cons, getD_expand hlow hhigh]
    exact hlt
  · exact grows_substitute he 0 hloc hcount hlt

theorem grows_sparseSet {o : Hll} (he : o.encoding = .sparse) {index count : Nat} (hi : index < hllRegisters)
    (hcount : 1 ≤ count ∧ count < 64) : Grows o (hllSparseSet o index count) := by
  have hsized : o.Sized := fun hd => absurd (he.symm.trans hd) (by decide)
  rw [hllSparseSet]
  split_ifs with hlarge
  · refine grows_promote he hi hcount.2 ?_
    exact Nat.lt_of_le_of_lt (getD_expand_le (valid_cells o) index) hlarge
  · have he' : o.reserve.encoding = .sparse := o.reserve_encoding.trans he
    have hc : 1 ≤ count ∧ count ≤ 32 := ⟨hcount.1, Nat.not_lt.mp hlarge⟩
    cases hloc : locate index 0 o.reserve.cells with
    | none =>
        simp only [hloc]
        exact grows_kept hsized (by decide) o.reserve_string
    | some l =>
        obtain ⟨-, hlow, hhigh, -⟩ := locate_spec (Nat.zero_le index) hloc
        have hlift : ∀ r, Grows o.reserve r → Grows o r := fun r hr => hr.of_string o.reserve_string
        have hsingle : l.cell.op.single = true → l.cell.op.value < count → ∀ term,
            Grows o (.raised, o.reserve.substitute l [valSet count 1] 1 term) := by
          intro hop hlt term
          have h := grows_substitute he' term hloc hc hlt
          have hsize : l.cell.op.size = 1 := by
            cases hk : l.cell.op <;> simp [hk, SparseOp.single, SparseOp.size] at hop ⊢
          rw [splitSeq_single count hop hlow hhigh, hsize] at h
          exact hlift _ h
        simp only [hloc]
        cases hop : l.cell.op with
        | val oldcount runlen =>
            simp only
            split_ifs with hge hone
            · exact grows_kept hsized (by decide) o.reserve_string
            · exact hsingle (by rw [hop, hone]; rfl) (by rw [hop]; exact Nat.not_le.mp hge) _
            · exact hlift _ (grows_split he' hloc hi hc (by rw [hop]; exact Nat.not_le.mp hge))
        | zero runlen =>
            simp only
            split_ifs with hone
            · exact hsingle (by rw [hop, hone]; rfl) (by rw [hop]; exact hc.1) _
            · exact hlift _ (grows_split he' hloc hi hc (by rw [hop]; exact hc.1))
        | xzero len => exact hlift _ (grows_split he' hloc hi hc (by rw [hop]; exact hc.1))

/-- **Adding an element** to any value. -/
theorem grows_hllAdd {o : Hll} (h : o.Sized) (ele : Bytes) : Grows o (hllAdd o ele) := by
  cases he : o.encoding with
  | dense =>
      rw [hllAdd_of_dense he]
      exact grows_denseSet h he (hllPatLen_index ele) (hllPatLen_count ele).2
  | sparse =>
      rw [hllAdd_of_sparse he]
      exact grows_sparseSet he (hllPatLen_index ele) (hllPatLen_count ele)

end SkynetJit.Redis.HyperLogLog
