import SkynetJit.Compat.Integers
import SkynetJit.Lib.Significant
import SkynetJit.Redis.Bitmap.Bitfield

/-!
# SkynetJit.Redis.Bitmap.Readers

The three readers of integer arguments: `rl_tolong` (`facade/rl_common.c`) and
the bitmap facade's `rl_checklonglong` and `rl_bitoffset` (`facade/bitmap.c`).

`rl_tolong` asks what the value is; the other two ask what Lua can make of it.
Lua makes a number of a numeral, so `rl_checklonglong` reads numerals through a
double; and it makes a text of a number, so `rl_bitoffset` reads numbers at
fourteen digits.
-/

namespace SkynetJit.Redis

open Significant Compat

variable {ν : Type}

/-- Lua numbers as LuaJIT has them: the sign and the magnitude of a finite one. -/
class LuaDouble (ν : Type) extends LuaCoercion ν where
  finite : ν → Option (Bool × ℚ)

/-- A sign and a magnitude. -/
def signed (neg : Bool) (v : ℚ) : ℚ := if neg then -v else v

/-- The coercions of LuaJIT: an exact cast gives the integer, a number's text is
its `%.14g` form, and a decimal numeral is read as the nearest double. -/
class LawfulLuaDouble (ν : Type) [LuaDouble ν] : Prop where
  nonneg {x : ν} {neg : Bool} {v : ℚ} : LuaDouble.finite x = some (neg, v) → 0 ≤ v
  toLong_iff {x : ν} {n : Int} : LuaNumber.toLong x = some n ↔
    IsInt64 n ∧ ∃ neg v, LuaDouble.finite x = some (neg, v) ∧ signed neg v = n
  toText_eq {x : ν} {neg : Bool} {v : ℚ} : LuaDouble.finite x = some (neg, v) →
    LuaNumber.toText x = formatG 14 neg v
  tonumber_ll2string {n : Int} : IsInt64 n → ∃ x : ν, LuaCoercion.tonumber (ll2string n) = some x ∧
    LuaDouble.finite x = some (decide (n < 0), (roundDouble n.natAbs : ℚ))

/-! ## Agreement -/

section Agreement

variable [LuaDouble ν]

variable (ν) in
/-- The readers agree on a string: what `string2ll` reads. -/
def AgreesOnString (s : Bytes) : Prop :=
  (∀ err, (rlChecklonglong (.string s : LuaValue ν) err).toOption.map (·.1) =
    rlTolong (some (.string s : LuaValue ν))) ∧
  rlTolong (some (.string s : LuaValue ν)) = string2ll s

/-- The readers agree on a finite number; an offset is one of 32 bits. -/
def AgreesOnNumber (x : ν) : Prop :=
  ∀ neg v, LuaDouble.finite x = some (neg, v) →
    (∀ err, (rlChecklonglong (.number x) err).toOption.map (·.1) = rlTolong (some (.number x))) ∧
    (0 ≤ signed neg v → signed neg v ≤ 2 ^ 32 - 1 → ∀ hash bits,
      (rlBitoffset (.number x) hash bits).toOption.map (fun off => (off.1 : Int)) =
        rlTolong (some (.number x)))

variable (ν) in
/-- A string that is read as it should be: a plain decimal that a double holds
exactly, or one that is not plain and is no integer for Lua either. -/
def StringReads (s : Bytes) : Prop :=
  match string2ll s with
  | some n => 2 ^ (n.natAbs.log2 - 52) ∣ n.natAbs
  | none => ∀ x : ν, LuaCoercion.tonumber s = some x → LuaNumber.toLong x = none

/-- A number that is read as it should be: if it is an offset at all, it is an
integer and not the negative zero, or it is not an integer at fourteen digits
either. -/
def NumberReads (x : ν) : Prop :=
  ∀ neg v, LuaDouble.finite x = some (neg, v) → 0 ≤ signed neg v → signed neg v ≤ 2 ^ 32 - 1 →
    (Whole v ∧ neg = false) ∨ ¬ Whole (rounded 14 v)

end Agreement

/-! ## Strings -/

/-- A double holds the multiples of its last place. -/
theorem roundDouble_eq_iff {n : Nat} : roundDouble n = n ↔ 2 ^ (n.log2 - 52) ∣ n := by
  refine ⟨fun h => ?_, roundDouble_of_dvd⟩
  rw [roundDouble] at h
  split_ifs at h with hlt
  · have hlog : n.log2 - 52 = 0 := by
      rcases Nat.eq_zero_or_pos n with rfl | hpos
      · rfl
      · have := (Nat.log2_lt (Nat.pos_iff_ne_zero.mp hpos)).mpr hlt
        omega
    rw [hlog]
    exact Nat.one_dvd n
  · exact Dvd.intro_left _ h

section Agreement

variable [LuaDouble ν] [LawfulLuaDouble ν]

/-- The result of a read, as the source has it behind its two branches. -/
def accept (n? : Option Int) (err : String) : Except LuaError {n : Int // IsInt64 n} :=
  match n? with
  | none => .error (rlError (ascii err))
  | some n => if h : IsInt64 n then .ok ⟨n, h⟩ else .error (rlError (ascii err))

theorem accept_toOption {n? : Option Int} (h : ∀ n, n? = some n → IsInt64 n) (err : String) :
    (accept n? err).toOption.map (·.1) = n? := by
  cases n? with
  | none => rfl
  | some n =>
      rw [accept, dif_pos (h n rfl)]
      rfl

theorem isInt64_of_toLong {x : ν} {n : Int} (h : LuaNumber.toLong x = some n) : IsInt64 n :=
  (LawfulLuaDouble.toLong_iff.mp h).1

theorem rlChecklonglong_number (x : ν) (err : String) :
    (rlChecklonglong (.number x) err).toOption.map (·.1) = LuaNumber.toLong x :=
  accept_toOption (fun _ => isInt64_of_toLong) err

variable (ν) in
/-- What is read of a string: it goes through a double if Lua makes a number of
it. -/
def throughNumber (s : Bytes) : Option Int :=
  match LuaCoercion.tonumber s with
  | some (x : ν) => LuaNumber.toLong x
  | none => string2ll s

theorem isInt64_of_throughNumber {s : Bytes} {n : Int} (h : throughNumber ν s = some n) : IsInt64 n := by
  rw [throughNumber] at h
  split at h
  · exact isInt64_of_toLong h
  · exact (string2ll_sound h).1

theorem rlChecklonglong_string (s : Bytes) (err : String) :
    (rlChecklonglong (.string s : LuaValue ν) err).toOption.map (·.1) = throughNumber ν s :=
  accept_toOption (fun _ => isInt64_of_throughNumber) err

/-- What is read of a plain decimal. -/
theorem throughNumber_ll2string {n : Int} (hn : IsInt64 n) :
    throughNumber ν (ll2string n) = some n ↔ 2 ^ (n.natAbs.log2 - 52) ∣ n.natAbs := by
  obtain ⟨x, hx, hfinite⟩ := LawfulLuaDouble.tonumber_ll2string (ν := ν) hn
  have hvalue : signed (decide (n < 0)) (roundDouble n.natAbs : ℚ) = n ↔ roundDouble n.natAbs = n.natAbs := by
    rw [signed]
    simp only [decide_eq_true_eq]
    split_ifs with hneg
    · have habs : (n : ℚ) = -(n.natAbs : ℚ) := by
        rw [Nat.cast_natAbs, abs_of_neg hneg, Int.cast_neg, neg_neg]
      rw [habs, neg_inj, Nat.cast_inj]
    · have habs : (n : ℚ) = (n.natAbs : ℚ) := by
        rw [Nat.cast_natAbs, abs_of_nonneg (not_lt.mp hneg)]
      rw [habs, Nat.cast_inj]
  rw [throughNumber, hx, LawfulLuaDouble.toLong_iff, hfinite, ← roundDouble_eq_iff, ← hvalue]
  constructor
  · rintro ⟨-, neg, v, hnv, hval⟩
    obtain ⟨rfl, rfl⟩ := Prod.mk.inj (Option.some.inj hnv)
    exact hval
  · exact fun h => ⟨hn, _, _, rfl, h⟩

/-- **Strings**: when the readers agree. -/
theorem agreesOnString_iff (s : Bytes) : AgreesOnString ν s ↔ StringReads ν s := by
  have hagrees : AgreesOnString ν s ↔ throughNumber ν s = string2ll s := by
    constructor
    · intro h
      have hread := h.1 ""
      rwa [rlChecklonglong_string] at hread
    · exact fun h => ⟨fun err => by rw [rlChecklonglong_string, h]; rfl, rfl⟩
  rw [hagrees, StringReads]
  cases hs : string2ll s with
  | none =>
      rw [throughNumber]
      cases hx : (LuaCoercion.tonumber s : Option ν) with
      | none => simp [hs]
      | some x => simp
  | some n =>
      obtain ⟨hn, rfl⟩ := string2ll_sound hs
      exact throughNumber_ll2string hn

/-! ## Numbers -/

/-- The text of an integer. -/
theorem ll2string_eq_formatG {v : ℚ} {n : Int} (h : ll2string n = formatG 14 false v) : 0 ≤ n := by
  by_contra hneg
  rw [ll2string, if_pos (not_le.mp hneg)] at h
  rcases head_formatG (b := charByte '-') (by rw [← h]; rfl) with hsign | hdigit
  · exact absurd hsign.2 Bool.false_ne_true
  · exact absurd hdigit (by decide)

/-- A number that can be an offset is rounded to one, and its text is short. -/
theorem offset_rounded {v : ℚ} (hpos : 0 < v) (hle : v ≤ 2 ^ 32 - 1) :
    (significant 14 v).2 < (14 : Nat) ∧ rounded 14 v < 2 ^ 32 := by
  have hlog : Int.log 10 v < 10 := by
    rw [← Int.lt_zpow_iff_log_lt (by decide) hpos]
    exact lt_of_le_of_lt hle (by norm_num)
  have hsmall : (10 : ℚ) ^ (Int.log 10 v + 1 - (14 : Nat)) ≤ 1 :=
    zpow_le_one_of_nonpos₀ (by norm_num) (by omega)
  have hround := rounded_le (p := 14) (by decide) hpos.le
  have hsnd := significant_snd_le 14 v
  generalize (10 : ℚ) ^ (Int.log 10 v + 1 - (14 : Nat)) = unit at hsmall hround
  exact ⟨by omega, by linarith⟩

/-- What `string2ll` makes of the text of a number that can be an offset. -/
theorem string2ll_formatG {v : ℚ} (hpos : 0 < v) (hle : v ≤ 2 ^ 32 - 1) (n : Int) :
    string2ll (formatG 14 false v) = some n ↔ 0 ≤ n ∧ rounded 14 v = n := by
  obtain ⟨hshort, hlt⟩ := offset_rounded hpos hle
  have htext := formatG_eq_natDec_iff (by decide) hpos hshort
  rw [string2ll_eq_some_iff]
  constructor
  · rintro ⟨-, h⟩
    have hnonneg := ll2string_eq_formatG h
    obtain ⟨m, rfl⟩ := Int.eq_ofNat_of_zero_le hnonneg
    rw [ll2string, if_neg (not_lt.mpr hnonneg), Int.natAbs_natCast] at h
    exact ⟨hnonneg, by exact_mod_cast (htext m).mp h.symm⟩
  · rintro ⟨hnonneg, h⟩
    obtain ⟨m, rfl⟩ := Int.eq_ofNat_of_zero_le hnonneg
    rw [h] at hlt
    have hm : (m : ℚ) < (2 ^ 32 : Nat) := by push_cast; exact_mod_cast hlt
    have hm' := Nat.cast_lt.mp hm
    refine ⟨⟨by omega, by omega⟩, ?_⟩
    rw [ll2string, if_neg (not_lt.mpr hnonneg), Int.natAbs_natCast]
    exact ((htext m).mpr (by exact_mod_cast h)).symm

/-- What `rl_bitoffset` makes of an integer it has read. -/
def asOffset (n : Int) : Option Int := if 0 ≤ n ∧ n.toNat / 8 < protoMaxBulkLen then some n else none

/-- A number is read through its text, whatever the hash and the bits are. -/
theorem rlBitoffset_number {x : ν} {neg : Bool} {v : ℚ} (hx : LuaDouble.finite x = some (neg, v)) (hash : Bool)
    (bits : Nat) : (rlBitoffset (.number x) hash bits).toOption.map (fun off => (off.1 : Int)) =
      (string2ll (formatG 14 neg v)).bind asOffset := by
  have htext : toBytes? (.number x) = some (formatG 14 neg v) := by
    rw [← LawfulLuaDouble.toText_eq hx]
    rfl
  have hhash : decide ((formatG 14 neg v).head? = some (charByte '#')) = false := by
    refine decide_eq_false fun h => ?_
    rcases head_formatG h with hsign | hdigit
    · exact absurd hsign.1 (by decide)
    · exact absurd hdigit (by decide)
  rw [rlBitoffset, htext]
  simp only [hhash, Bool.false_and, Bool.false_eq_true, if_false, false_and]
  cases string2ll (formatG 14 neg v) with
  | none => rfl
  | some n =>
      simp only [Option.bind_some]
      by_cases hneg : n < 0
      · rw [if_pos hneg]
        exact (if_neg fun h => absurd h.1 (not_le.mpr hneg)).symm
      · rw [if_neg hneg]
        by_cases hcap : n.toNat / 8 < protoMaxBulkLen
        · have hoff : asOffset n = some n := if_pos ⟨not_lt.mp hneg, hcap⟩
          simp only [dif_pos hcap, hoff]
          exact congrArg some (Int.toNat_of_nonneg (not_lt.mp hneg))
        · have hoff : asOffset n = none := if_neg fun h => hcap h.2
          simp only [dif_neg hcap, hoff]
          rfl

/-- What the other two read of a number. -/
theorem toLong_eq_some_iff {x : ν} {neg : Bool} {v : ℚ} (hx : LuaDouble.finite x = some (neg, v)) (n : Int) :
    LuaNumber.toLong x = some n ↔ IsInt64 n ∧ signed neg v = n := by
  rw [LawfulLuaDouble.toLong_iff, hx]
  refine and_congr_right fun _ => ⟨?_, fun h => ⟨neg, v, rfl, h⟩⟩
  rintro ⟨neg', v', hnv, h⟩
  obtain ⟨rfl, rfl⟩ := Prod.mk.inj (Option.some.inj hnv)
  exact h

/-- Zero is read through its text if it has no sign. -/
theorem reads_zero (neg : Bool) : (string2ll (formatG 14 neg 0)).bind asOffset = some 0 ↔ neg = false := by
  rw [formatG, if_pos rfl]
  cases neg <;> decide

/-- A number between two integers, or an integer. -/
theorem reads_pos {v : ℚ} (hpos : 0 < v) (hle : v ≤ 2 ^ 32 - 1) (n : Int) :
    (string2ll (formatG 14 false v)).bind asOffset = some n ↔ 0 ≤ n ∧ rounded 14 v = n := by
  obtain ⟨-, hlt⟩ := offset_rounded hpos hle
  rw [Option.bind_eq_some_iff]
  constructor
  · rintro ⟨m, hm, hoff⟩
    rw [asOffset] at hoff
    split_ifs at hoff
    obtain rfl := Option.some.inj hoff
    exact (string2ll_formatG hpos hle m).mp hm
  · rintro ⟨hnonneg, h⟩
    refine ⟨n, (string2ll_formatG hpos hle n).mpr ⟨hnonneg, h⟩, if_pos ⟨hnonneg, ?_⟩⟩
    rw [h] at hlt
    have hn : n < 2 ^ 32 := by exact_mod_cast hlt
    rw [protoMaxBulkLen]
    omega

/-- **Numbers**: when the readers agree. -/
theorem agreesOnNumber_iff (x : ν) : AgreesOnNumber x ↔ NumberReads x := by
  refine forall₃_congr fun neg v hx => ?_
  have hlonglong : ∀ err, (rlChecklonglong (.number x) err).toOption.map (·.1) = rlTolong (some (.number x)) :=
    fun err => rlChecklonglong_number x err
  rw [and_iff_right hlonglong]
  refine forall₂_congr fun hnonneg hle => ?_
  have hagree : (∀ hash bits, (rlBitoffset (.number x) hash bits).toOption.map (fun off => (off.1 : Int)) =
      rlTolong (some (.number x))) ↔ (string2ll (formatG 14 neg v)).bind asOffset = LuaNumber.toLong x := by
    simp only [rlBitoffset_number hx]
    exact ⟨fun h => h false 0, fun h _ _ => h⟩
  have hlong := toLong_eq_some_iff hx
  rw [hagree]
  rcases (LawfulLuaDouble.nonneg hx).eq_or_lt with rfl | hpos
  · have hzero : LuaNumber.toLong x = some 0 := (hlong 0).mpr ⟨by decide, by rw [signed]; split_ifs <;> simp⟩
    have hwhole : Whole (rounded 14 0) := ⟨0, rounded_natCast (p := 14) (n := 0) (by decide) (by decide)⟩
    rw [hzero, reads_zero]
    exact ⟨fun h => .inl ⟨⟨0, rfl⟩, h⟩, fun h => (h.resolve_right (not_not.mpr hwhole)).2⟩
  · obtain rfl : neg = false := by
      cases neg with
      | false => rfl
      | true => exact absurd hnonneg (not_le.mpr (neg_lt_zero.mpr hpos))
    have hle' : v ≤ 2 ^ 32 - 1 := hle
    have hreads := reads_pos hpos hle'
    by_cases hwhole : Whole v
    · obtain ⟨m, rfl⟩ := hwhole
      have hm : m < 10 ^ 14 := by
        have hlt : (m : ℚ) < (2 ^ 32 : Nat) := lt_of_le_of_lt hle' (by norm_num)
        exact lt_trans (Nat.cast_lt.mp hlt) (by norm_num)
      have hint : LuaNumber.toLong x = some (m : Int) :=
        (hlong m).mpr ⟨⟨by omega, by omega⟩, by rw [signed, if_neg Bool.false_ne_true]; simp⟩
      rw [hint, (hreads m).mpr ⟨Int.natCast_nonneg m, by rw [rounded_natCast (by decide) hm]; simp⟩]
      exact ⟨fun _ => .inl ⟨⟨m, rfl⟩, rfl⟩, fun _ => rfl⟩
    · have hnone : LuaNumber.toLong x = none := by
        refine Option.eq_none_iff_forall_ne_some.mpr fun n hn => ?_
        obtain ⟨-, hvalue⟩ := (hlong n).mp hn
        have hnn : 0 ≤ n := by
          have hv : (0 : ℚ) ≤ n := hvalue ▸ hnonneg
          exact_mod_cast hv
        obtain ⟨m, rfl⟩ := Int.eq_ofNat_of_zero_le hnn
        exact hwhole ⟨m, by exact_mod_cast hvalue⟩
      rw [hnone, Option.eq_none_iff_forall_ne_some]
      constructor
      · rintro h
        refine .inr fun hround => ?_
        obtain ⟨m, hm⟩ := hround
        exact h m ((hreads m).mpr ⟨Int.natCast_nonneg m, by rw [hm]; simp⟩)
      · rintro h n hn
        obtain ⟨hnn, hround⟩ := (hreads n).mp hn
        obtain ⟨m, rfl⟩ := Int.eq_ofNat_of_zero_le hnn
        exact (h.resolve_left fun h => hwhole h.1) ⟨m, by rw [hround]; simp⟩

/-- **The readers of integers** agree on a string exactly if it is a plain
decimal that a double holds, or not plain and no integer for Lua; and on a
finite number exactly if it is no offset, or an integer other than the negative
zero, or not an integer at fourteen digits. -/
theorem readers_agree_iff : (∀ s, AgreesOnString ν s ↔ StringReads ν s) ∧
    ∀ x : ν, AgreesOnNumber x ↔ NumberReads x :=
  ⟨agreesOnString_iff, agreesOnNumber_iff⟩

end Agreement

/-! ## Runs -/

/-- The rationals with a sign, and something that is none. -/
inductive LuaRational where
  | finite (neg : Bool) (v : {v : ℚ // 0 ≤ v})
  | nan

namespace LuaRational

/-- The nearest double of an integer. -/
def ofInt (n : Int) : LuaRational := .finite (decide (n < 0)) ⟨roundDouble n.natAbs, Nat.cast_nonneg _⟩

instance : LuaDouble LuaRational where
  isNaN
    | .nan => true
    | .finite _ _ => false
  toText
    | .finite neg v => formatG 14 neg v
    | .nan => ascii "nan"
  string2d s := (string2ll s).map ofInt
  toLong
    | .finite neg v =>
        if (signed neg v).den = 1 ∧ IsInt64 (signed neg v).num then some (signed neg v).num else none
    | .nan => none
  tonumber s := (string2ll s).map ofInt
  finite
    | .finite neg v => some (neg, v)
    | .nan => none

instance : LawfulLuaDouble LuaRational where
  nonneg {x neg v} h := by
    cases x with
    | nan => contradiction
    | finite neg' v' =>
        obtain ⟨rfl, rfl⟩ := Prod.mk.inj (Option.some.inj h)
        exact v'.2
  toLong_iff {x n} := by
    cases x with
    | nan => exact ⟨fun h => by contradiction, fun ⟨_, _, _, h, _⟩ => by contradiction⟩
    | finite neg v =>
        show (if (signed neg v).den = 1 ∧ IsInt64 (signed neg v).num then some (signed neg v).num
          else none) = _ ↔ _
        constructor
        · intro h
          split_ifs at h with hint
          obtain rfl := Option.some.inj h
          exact ⟨hint.2, neg, v, rfl, (Rat.den_eq_one_iff _).mp hint.1 |>.symm⟩
        · rintro ⟨hn, neg', v', hnv, h⟩
          obtain ⟨rfl, rfl⟩ := Prod.mk.inj (Option.some.inj hnv)
          rw [h, Rat.num_intCast, Rat.den_intCast, if_pos ⟨rfl, hn⟩]
  toText_eq {x neg v} h := by
    cases x with
    | nan => contradiction
    | finite neg' v' =>
        obtain ⟨rfl, rfl⟩ := Prod.mk.inj (Option.some.inj h)
        rfl
  tonumber_ll2string {n} hn :=
    ⟨ofInt n, by show (string2ll (ll2string n)).map ofInt = _; rw [string2ll_ll2string hn]; rfl, rfl⟩

end LuaRational

theorem readers_agree_iff_sample :
    AgreesOnString LuaRational (ascii "-12") ∧ AgreesOnNumber (LuaRational.ofInt 7) := by
  refine ⟨(readers_agree_iff.1 _).mpr ?_, (readers_agree_iff.2 _).mpr ?_⟩
  · show 2 ^ (Nat.log2 12 - 52) ∣ 12
    decide
  · intro neg v h _ _
    obtain ⟨rfl, rfl⟩ := Prod.mk.inj (Option.some.inj h)
    exact .inl ⟨⟨7, rfl⟩, rfl⟩

/-- The double next to one. -/
def hairOff : LuaRational := .finite false ⟨1 + 1 / 2 ^ 52, by norm_num⟩

/-- At fourteen digits it is one. -/
theorem rounded_hairOff : rounded 14 (1 + 1 / 2 ^ 52) = 1 := by
  have hfloor : ⌊(1 + 1 / 2 ^ 52 : ℚ)⌋₊ = 1 := by
    rw [Nat.floor_eq_iff (by norm_num)]
    norm_num
  have hlog : Int.log 10 (1 + 1 / 2 ^ 52 : ℚ) = 0 := by
    rw [Int.log_of_one_le_right 10 (by norm_num), hfloor]
    rfl
  have hscaled : (1 + 1 / 2 ^ 52 : ℚ) / 10 ^ ((0 : Int) + 1 - (14 : Nat)) = 10 ^ 13 + 10 ^ 13 / 2 ^ 52 := by
    norm_num
  have hfloor' : ⌊(10 ^ 13 + 10 ^ 13 / 2 ^ 52 : ℚ)⌋₊ = 10 ^ 13 := by
    rw [Nat.floor_eq_iff (by norm_num)]
    norm_num
  have hround : roundEven (10 ^ 13 + 10 ^ 13 / 2 ^ 52) = 10 ^ 13 := by
    rw [roundEven, hfloor']
    exact if_pos (.inl (by norm_num))
  rw [rounded_eq (by decide), hlog, hscaled, hround]
  norm_num

/-- A numeral that no double holds, and a number that is an integer in its text
only. -/
theorem readers_disagree :
    ¬ AgreesOnString LuaRational (ascii "9007199254740993") ∧ ¬ AgreesOnNumber hairOff := by
  constructor
  · rw [agreesOnString_iff]
    show ¬ 2 ^ (Nat.log2 9007199254740993 - 52) ∣ 9007199254740993
    decide
  · rw [agreesOnNumber_iff]
    intro h
    rcases h false (1 + 1 / 2 ^ 52) rfl (by norm_num [signed]) (by norm_num [signed]) with hint | hround
    · obtain ⟨⟨n, hn⟩, -⟩ := hint
      have hlow : (1 : ℚ) < n := by rw [← hn]; norm_num
      have hhigh : (n : ℚ) < 2 := by rw [← hn]; norm_num
      have hlow' : 1 < n := by exact_mod_cast hlow
      have hhigh' : n < 2 := by exact_mod_cast hhigh
      omega
    · exact hround ⟨1, by rw [rounded_hairOff]; simp⟩

end SkynetJit.Redis
