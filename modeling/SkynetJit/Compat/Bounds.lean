import SkynetJit.Compat.Integers

/-!
# SkynetJit.Compat.Bounds

`string.unpack` reads nothing outside of the data.

An option moves the position forward, and what it returns was read between the
old position and the new one (`Consumes`).  Each option has a test of its own;
the padding may take the position past the end, where every test fails.  A
length prefix may be any double up to 2^64; `length_test_double` says that the
sum of doubles that the test looks at decides as the exact sum does.
-/

namespace SkynetJit.Compat

variable {ν : Type}

/-! ## Lengths as doubles -/

theorem le_roundDouble {n : Nat} (h : 2 ^ 53 ≤ n) : 2 ^ 53 ≤ roundDouble n := by
  have hne : n ≠ 0 := by
    rintro rfl
    exact absurd h (by decide)
  have hlog : 53 ≤ n.log2 := (Nat.le_log2 hne).mpr h
  have hpow : 2 ^ n.log2 = 2 ^ 52 * 2 ^ (n.log2 - 52) := by
    rw [← pow_add, Nat.add_sub_cancel' (by omega)]
  have hquot : 2 ^ 52 ≤ n / 2 ^ (n.log2 - 52) := by
    rw [Nat.le_div_iff_mul_le (Nat.two_pow_pos _), ← hpow]
    exact Nat.log2_self_le hne
  have hulp : 2 ^ 1 ≤ 2 ^ (n.log2 - 52) := Nat.pow_le_pow_right Nat.two_pos (by omega)
  have hle : ∀ {q : Nat}, 2 ^ 52 ≤ q → 2 ^ 53 ≤ q * 2 ^ (n.log2 - 52) := fun hq => Nat.mul_le_mul hq hulp
  rw [roundDouble, if_neg (by omega)]
  dsimp only
  split_ifs
  · exact hle hquot
  · exact hle (by omega)

/-- **The test of a length** in doubles, against the end of a string, is the test
in integers. -/
theorem length_test_double {length position size : Nat} (hlength : length < 2 ^ 31) :
    roundDouble (roundDouble (position + size) - 1) > length ↔ position + size - 1 > length := by
  by_cases hsmall : position + size < 2 ^ 53
  · rw [roundDouble_of_lt hsmall, roundDouble_of_lt (by omega)]
  · have hsum := le_roundDouble (not_lt.mp hsmall)
    have hless : 2 ^ 31 ≤ roundDouble (roundDouble (position + size) - 1) := by
      by_cases hlt : roundDouble (position + size) - 1 < 2 ^ 53
      · rw [roundDouble_of_lt hlt]
        omega
      · have hle := le_roundDouble (not_lt.mp hlt)
        omega
    constructor
    · omega
    · omega

/-! ## One option -/

/-- The `length` bytes from position `start` on. -/
def IsSlice (data : Bytes) (start length : Nat) (s : Bytes) : Prop :=
  ∃ front rest, data = front ++ s ++ rest ∧ front.length + 1 = start ∧ s.length = length

/-- A value, read from the `length` bytes from position `start` on. -/
def ReadFrom (F : Ffi ν) (data : Bytes) (start length : Nat) : Unpacked → Prop
  | .string s => IsSlice data start length s
  | .number n => ∃ bytes littleEndian signed,
      IsSlice data start length bytes ∧ n = integerValue bytes length littleEndian signed
  | .float bytes => ∃ read littleEndian, IsSlice data start length read ∧ bytes = F.order littleEndian read

/-- What an option does: it goes on, and may read a value on the way. -/
inductive Consumes (F : Ffi ν) (data : Bytes) (s : UnpackState) : UnpackState → Prop
  | skip {position : Nat} (hle : s.position ≤ position) (hend : position ≤ data.length + 1) :
      Consumes F data s ⟨position, s.results⟩
  | read {start length position : Nat} {v : Unpacked} (hstart : s.position ≤ start)
      (hread : ReadFrom F data start length v) (hle : start + length ≤ position)
      (hend : position ≤ data.length + 1) : Consumes F data s ⟨position, s.results ++ [v]⟩

theorem isSlice_slice {data : Bytes} {start length : Nat} (hstart : 1 ≤ start)
    (hend : start + length ≤ data.length + 1) : IsSlice data start length (slice data start length) := by
  refine ⟨data.take (start - 1), (data.drop (start - 1)).drop length, ?_, ?_, ?_⟩
  · rw [slice, List.append_assoc, List.take_append_drop, List.take_append_drop]
  · rw [List.length_take]
    omega
  · rw [slice, List.length_take, List.length_drop]
    omega

/-- An option that reads `size` bytes at the position. -/
theorem Consumes.of_size {F : Ffi ν} {data : Bytes} {s : UnpackState} {position size : Nat} {v : Unpacked}
    (hle : s.position ≤ position) (hend : ¬ position + size - 1 > data.length)
    (hread : ReadFrom F data position size v) :
    Consumes F data s (({ s with position := position } : UnpackState).push v size) :=
  .read hle hread le_rfl (Nat.le_succ_of_pred_le (not_lt.mp hend))

/-- **What an option consumes.** -/
theorem unpackItem_consumes (F : Ffi ν) {data : Bytes} {option : UInt8} {size alignment : Nat} {w : Switches}
    {s s' : UnpackState} (hpos : 1 ≤ s.position)
    (h : unpackItem F data option size alignment w s = .ok s') : Consumes F data s s' := by
  have hle : s.position ≤ s.position + padding (s.position - 1) alignment w.maximumAlignment := Nat.le_add_right _ _
  rw [unpackItem] at h
  generalize s.position + padding (s.position - 1) alignment w.maximumAlignment = position at h hle
  have hslice : ∀ {n : Nat}, ¬ position + n - 1 > data.length → IsSlice data position n (slice data position n) :=
    fun hn => isSlice_slice (by omega) (by omega)
  dsimp only at h
  split_ifs at h with hx hshort hz hc hshort hs hshort hlong hf hshort hd hshort hshort
  · obtain rfl := Except.ok.inj h
    exact .skip (Nat.le_succ_of_le hle) (show position + 1 ≤ data.length + 1 by omega)
  · -- the zero is inside of the data
    split at h
    next => contradiction
    next length hfind =>
      obtain ⟨hlt, -, -⟩ := List.findIdx?_eq_some_iff_getElem.mp hfind
      rw [List.length_drop] at hlt
      obtain rfl := Except.ok.inj h
      have hend : position + (length + 1) ≤ data.length + 1 := by omega
      exact .read hle (hslice (by omega)) (Nat.le_succ (position + length)) hend
  · obtain rfl := Except.ok.inj h
    exact .of_size hle hshort (hslice hshort)
  · obtain rfl := Except.ok.inj h
    have hend : position + size + _ ≤ data.length + 1 := Nat.le_succ_of_pred_le (not_lt.mp hlong)
    exact .read (Nat.le_add_right_of_le hle) (isSlice_slice (by omega) hend) (Nat.add_assoc _ _ _).le
      ((Nat.add_assoc _ _ _).symm.trans_le hend)
  · obtain rfl := Except.ok.inj h
    exact .of_size hle (by omega) ⟨_, _, hslice (by omega), rfl⟩
  · obtain rfl := Except.ok.inj h
    exact .of_size hle (by omega) ⟨_, _, hslice (by omega), rfl⟩
  · obtain rfl := Except.ok.inj h
    exact .of_size hle hshort ⟨_, _, _, hslice hshort, rfl⟩

/-! ## The whole format -/

/-- What every option keeps, the walk keeps. -/
theorem formatLoop_preserves (F : Ffi ν) {σ : Type} {refuse : UInt8 → Option PackError}
    {item : UInt8 → Nat → Nat → Switches → σ → Except PackError σ} {P : σ → Prop}
    (hitem : ∀ option size alignment w s s', item option size alignment w s = .ok s' → P s → P s')
    {format : Bytes} {digits : Nat} {w : Switches} {s s' : σ}
    (h : formatLoop F refuse item format digits w s = .ok s') (hs : P s) : P s' := by
  induction format generalizing digits w s with
  | nil =>
      rw [formatLoop] at h
      exact Except.ok.inj h ▸ hs
  | cons option format ih =>
      cases digits with
      | succ digits => exact ih h hs
      | zero =>
          rw [formatLoop] at h
          split_ifs at h
          · exact ih h hs
          · exact ih h hs
          · exact ih h hs
          · exact ih h hs
          · split at h
            next => contradiction
            next => exact ih h hs
          · split at h
            next => contradiction
            next =>
              split at h
              next => contradiction
              next => contradiction
              next size alignment digits _ =>
                split at h
                next => contradiction
                next s₁ hs₁ => exact ih h (hitem _ _ _ _ _ _ hs₁ hs)

/-- The values, and for each the position and the length of what it was read
from: inside of `start` and `final`, one behind the other. -/
structure ReadInOrder (F : Ffi ν) (data : Bytes) (start final : Nat) (spans : List (Nat × Nat))
    (values : List Unpacked) : Prop where
  values : List.Forall₂ (fun span v => ReadFrom F data span.1 span.2 v) spans values
  within : ∀ span ∈ spans, start ≤ span.1 ∧ span.1 + span.2 ≤ final
  ordered : spans.Pairwise fun a b => a.1 + a.2 ≤ b.1

theorem ReadInOrder.nil (F : Ffi ν) (data : Bytes) (start final : Nat) : ReadInOrder F data start final [] [] :=
  ⟨.nil, fun _ hspan => absurd hspan List.not_mem_nil, .nil⟩

theorem ReadInOrder.mono {F : Ffi ν} {data : Bytes} {start final final' : Nat} {spans : List (Nat × Nat)}
    {values : List Unpacked} (h : ReadInOrder F data start final spans values) (hle : final ≤ final') :
    ReadInOrder F data start final' spans values :=
  ⟨h.values, fun span hspan => ⟨(h.within span hspan).1, (h.within span hspan).2.trans hle⟩, h.ordered⟩

/-- One more value, read behind the others. -/
theorem ReadInOrder.push {F : Ffi ν} {data : Bytes} {start final p length final' : Nat} {spans : List (Nat × Nat)}
    {values : List Unpacked} {v : Unpacked} (h : ReadInOrder F data start final spans values) (hstart : start ≤ final)
    (hp : final ≤ p) (hle : p + length ≤ final') (hread : ReadFrom F data p length v) :
    ReadInOrder F data start final' (spans ++ [(p, length)]) (values ++ [v]) := by
  refine ⟨List.rel_append h.values (.cons hread .nil), fun span hspan => ?_, ?_⟩
  · rcases List.mem_append.mp hspan with hspan | hspan
    · obtain ⟨hlow, hhigh⟩ := h.within span hspan
      exact ⟨hlow, by omega⟩
    · obtain rfl := List.mem_singleton.mp hspan
      exact ⟨hstart.trans hp, hle⟩
  · refine List.pairwise_append.mpr ⟨h.ordered, List.pairwise_singleton _ _, fun a ha b hb => ?_⟩
    obtain rfl := List.mem_singleton.mp hb
    exact (h.within a ha).2.trans hp

/-- What the walk keeps. -/
structure Bounded (F : Ffi ν) (data : Bytes) (start : Nat) (s : UnpackState) : Prop where
  start_le : start ≤ s.position
  le_end : s.position ≤ data.length + 1
  reads : ∃ spans, ReadInOrder F data start s.position spans s.results

theorem Bounded.step {F : Ffi ν} {data : Bytes} {start : Nat} {s s' : UnpackState} (h : Bounded F data start s)
    (hstep : Consumes F data s s') : Bounded F data start s' := by
  obtain ⟨spans, hreads⟩ := h.reads
  cases hstep with
  | skip hle hend => exact ⟨h.start_le.trans hle, hend, spans, hreads.mono hle⟩
  | @read p length position v hp hread hle hend =>
      have hposition : s.position ≤ position := by omega
      exact ⟨h.start_le.trans hposition, hend, _, hreads.push h.start_le hp hle hread⟩

theorem normalizePosition_eq_ok {data : Bytes} {position : Option Int} {start : Nat}
    (h : normalizePosition data position = .ok start) : 1 ≤ start ∧ start ≤ data.length + 1 := by
  rw [normalizePosition] at h
  split_ifs at h with hneg hrange hrange <;>
  · obtain rfl := Except.ok.inj h
    omega

/-- **`string.unpack` never over-reads.**  For every format, data and position it
raises, or it returns values and a final position: the position is between the
initial one and one past the end, and each value was read from a piece of the
data that lies between these and behind the pieces of the values before it. -/
theorem unpack_never_overreads (F : Ffi ν) (format data : Bytes) (position : Option Int) :
    (∃ e, unpack F format data position = .error e) ∨
      ∃ start final values spans, normalizePosition data position = .ok start ∧
        unpack F format data position = .ok (values ++ [.number final]) ∧
        1 ≤ start ∧ start ≤ final ∧ final ≤ data.length + 1 ∧
        ReadInOrder F data start final spans values := by
  rw [unpack]
  cases hstart : normalizePosition data position with
  | error e => exact .inl ⟨e, rfl⟩
  | ok start =>
      obtain ⟨hone, hend⟩ := normalizePosition_eq_ok hstart
      dsimp only
      cases hloop : formatLoop F refuseX (unpackItem F data) format 0 F.switches ⟨start, []⟩ with
      | error e => exact .inl ⟨e, rfl⟩
      | ok s =>
          have hstep : ∀ option size alignment w s s', unpackItem F data option size alignment w s = .ok s' →
              Bounded F data start s → Bounded F data start s' := fun _ _ _ _ _ _ hitem hs =>
            hs.step (unpackItem_consumes F (hone.trans hs.start_le) hitem)
          obtain ⟨hle, hle', spans, hreads⟩ :=
            formatLoop_preserves F hstep hloop ⟨le_rfl, hend, [], .nil F data start start⟩
          exact .inr ⟨start, s.position, s.results, spans, rfl, rfl, hone, hle, hle', hreads⟩

end SkynetJit.Compat
