import Mathlib.Algebra.Order.Field.Rat
import Mathlib.Data.Nat.Size
import Mathlib.Data.Rat.Encodable
import Mathlib.Tactic.DeriveEncodable
import SkynetJit.Redis.Zset.Score

/-!
# SkynetJit.Redis.Zset.Exact

Scores without rounding: the rationals, and the rationals with two infinities
and NaN.  What the set operations compute is stated over them, so that sums do
not depend on the order of their terms.

The texts of machine integers are the ones the kernel writes; every other
number has a text that reads back as the number, which is all that is asked of
it.
-/

namespace SkynetJit.Redis

open LuaNumber (isNaN)

/-! ## Texts -/

section Texts

variable {α : Type} [Encodable α]

/-- A text for a number that is not a machine integer. -/
def exactText (x : α) : Bytes :=
  charByte '#' :: leBytes (Encodable.encode x).size (Encodable.encode x)

/-- The number of such a text. -/
def ofExactText : Bytes → Option α
  | [] => none
  | b :: rest => if b = charByte '#' then Encodable.decode (leNat rest) else none

theorem ofExactText_exactText (x : α) : ofExactText (exactText x) = some x := by
  have hlt : Encodable.encode x < 256 ^ (Encodable.encode x).size :=
    (Nat.lt_size_self _).trans_le (Nat.pow_le_pow_left (by decide) _)
  rw [exactText, ofExactText, if_pos rfl, leNat_leBytes, Nat.mod_eq_of_lt hlt, Encodable.encodek]

/-- The number of a text. -/
def exactParse (ofInt : Int → α) (s : Bytes) : Option α :=
  match string2ll s with
  | some n => some (ofInt n)
  | none => ofExactText s

theorem exactParse_exactText (ofInt : Int → α) (x : α) : exactParse ofInt (exactText x) = some x := by
  rw [exactParse, exactText, string2ll_hash]
  exact ofExactText_exactText x

theorem exactParse_ll2string (ofInt : Int → α) {n : Int} (hn : IsInt64 n) :
    exactParse ofInt (ll2string n) = some (ofInt n) := by
  rw [exactParse, string2ll_ll2string hn]

end Texts

/-! ## The rationals -/

/-- The machine integer a rational is. -/
def ratLong (x : ℚ) : Option Int := if x.den = 1 ∧ IsInt64 x.num then some x.num else none

theorem ratLong_eq {x : ℚ} {n : Int} (h : ratLong x = some n) : IsInt64 n ∧ (n : ℚ) = x := by
  rw [ratLong] at h
  split_ifs at h with hx
  obtain rfl := Option.some.inj h
  exact ⟨hx.2, (Rat.den_eq_one_iff x).mp hx.1⟩

instance : Score ℚ where
  isNaN _ := false
  toText x := match ratLong x with
    | some n => ll2string n
    | none => exactText x
  string2d := exactParse fun n => (n : ℚ)
  toLong := ratLong
  lt x y := decide (x < y)
  add x y := x + y
  mul x y := x * y
  ofLong n := n
  d2string := exactText
  strtod s := (exactParse (fun n => (n : ℚ)) s).getD 0
  strtodAll := exactParse fun n => (n : ℚ)

namespace ExactScore

theorem ratLt_iff {x y : ℚ} : Score.lt x y = true ↔ x < y := decide_eq_true_iff

/-- Equal as scores is equal. -/
theorem ratEq_iff {x y : ℚ} : Score.eq x y = true ↔ x = y := by
  rw [Score.eq_iff, ← Bool.not_eq_true, ← Bool.not_eq_true, ← Bool.not_eq_true, ← Bool.not_eq_true,
    ratLt_iff, ratLt_iff, not_lt, not_lt]
  constructor
  · rintro ⟨-, -, hyx, hxy⟩
    exact le_antisymm hxy hyx
  · rintro rfl
    exact ⟨Bool.false_ne_true, Bool.false_ne_true, le_refl x, le_refl x⟩

end ExactScore

open ExactScore

instance : LawfulScore ℚ where
  lt_irrefl x := by
    rw [← Bool.not_eq_true, ratLt_iff]
    exact lt_irrefl x
  lt_trans hxy hyz := ratLt_iff.mpr ((ratLt_iff.mp hxy).trans (ratLt_iff.mp hyz))
  number_of_lt _ := ⟨rfl, rfl⟩
  lt_or_lt := by
    intro x y z _ h
    rw [ratLt_iff, ratLt_iff]
    exact (lt_or_ge x y).imp_right fun hyx => hyx.trans_lt (ratLt_iff.mp h)
  number_ofLong _ := rfl
  toLong_eq h := ⟨(ratLong_eq h).1, ratEq_iff.mpr (ratLong_eq h).2⟩
  strtod_d2string := by
    intro x _ _
    exact congrArg (Option.getD · 0) (exactParse_exactText _ x)
  strtod_ll2string := by
    intro n hn
    exact ratEq_iff.mpr (congrArg (Option.getD · 0) (exactParse_ll2string _ hn))

/-! ## The extended rationals -/

/-- A rational, an infinity, or NaN. -/
inductive ExtRat where
  | nan | negInf | fin (q : ℚ) | posInf
deriving DecidableEq, Encodable

namespace ExtRat

/-- `<`. -/
def less : ExtRat → ExtRat → Bool
  | .fin x, .fin y => decide (x < y)
  | .negInf, .fin _ => true
  | .negInf, .posInf => true
  | .fin _, .posInf => true
  | _, _ => false

/-- `+`. -/
def add : ExtRat → ExtRat → ExtRat
  | .fin x, .fin y => .fin (x + y)
  | .posInf, .fin _ | .fin _, .posInf | .posInf, .posInf => .posInf
  | .negInf, .fin _ | .fin _, .negInf | .negInf, .negInf => .negInf
  | _, _ => .nan

/-- The product of infinity and a number that is not NaN, by its sign. -/
def infMul : ExtRat → ExtRat
  | .nan => .nan
  | .negInf => .negInf
  | .fin x => if x < 0 then .negInf else if x = 0 then .nan else .posInf
  | .posInf => .posInf

/-- `-`. -/
def neg : ExtRat → ExtRat
  | .nan => .nan
  | .negInf => .posInf
  | .fin x => .fin (-x)
  | .posInf => .negInf

/-- `*`. -/
def mul : ExtRat → ExtRat → ExtRat
  | .fin x, .fin y => .fin (x * y)
  | .posInf, y => infMul y
  | x, .posInf => infMul x
  | .negInf, y => neg (infMul y)
  | x, .negInf => neg (infMul x)
  | .nan, _ | _, .nan => .nan

/-- The machine integer a number is. -/
def toLong : ExtRat → Option Int
  | .fin x => ratLong x
  | _ => none

/-- The text of a number. -/
def text : ExtRat → Bytes
  | .posInf => ascii "inf"
  | .negInf => ascii "-inf"
  | x => exactText x

/-- The number of a text. -/
def parse (s : Bytes) : Option ExtRat :=
  match string2ll s with
  | some n => some (.fin n)
  | none =>
      if s = ascii "inf" then some .posInf
      else if s = ascii "-inf" then some .negInf
      else ofExactText s

instance : Score ExtRat where
  isNaN x := x == .nan
  toText x := match toLong x with
    | some n => ll2string n
    | none => text x
  string2d := parse
  toLong := toLong
  lt := less
  add := add
  mul := mul
  ofLong n := .fin n
  d2string := text
  strtod s := (parse s).getD (.fin 0)
  strtodAll := parse

theorem isNaN_iff {x : ExtRat} : isNaN x = true ↔ x = .nan := beq_iff_eq

theorem isNaN_eq_false_iff {x : ExtRat} : isNaN x = false ↔ x ≠ .nan := beq_eq_false_iff_ne

/-- Equal as scores is equal, for numbers. -/
theorem eq_iff {x y : ExtRat} : Score.eq x y = true ↔ x ≠ .nan ∧ x = y := by
  rw [Score.eq_iff, isNaN_eq_false_iff, isNaN_eq_false_iff]
  cases x <;> cases y <;> simp [Score.lt, less]
  exact ⟨fun h => le_antisymm h.2 h.1, fun h => ⟨h.ge, h.le⟩⟩

theorem parse_text (x : ExtRat) : parse x.text = some x := by
  have hexact : ∀ y : ExtRat, parse (exactText y) = some y := by
    intro y
    rw [parse, exactText, string2ll_hash]
    simp only
    rw [if_neg, if_neg]
    · exact ofExactText_exactText y
    · intro h
      exact absurd (List.cons.inj h).1 (by decide)
    · intro h
      exact absurd (List.cons.inj h).1 (by decide)
  cases x with
  | nan => exact hexact _
  | negInf => rfl
  | fin q => exact hexact _
  | posInf => rfl

instance : LawfulScore ExtRat where
  lt_irrefl x := by cases x <;> simp [Score.lt, less]
  lt_trans := by
    intro x y z hxy hyz
    cases x <;> cases y <;> cases z <;> simp [Score.lt, less] at hxy hyz ⊢
    exact hxy.trans hyz
  number_of_lt := by
    intro x y h
    cases x <;> cases y <;> simp [Score.lt, less, isNaN_eq_false_iff] at h ⊢
  lt_or_lt := by
    intro x y z hy h
    cases x <;> cases y <;> cases z <;> simp [Score.lt, less, isNaN] at hy h ⊢
    exact (lt_or_ge _ _).imp_right fun hyx => lt_of_le_of_lt hyx h
  number_ofLong _ := rfl
  toLong_eq := by
    intro x n h
    cases x with
    | fin q => exact ⟨(ratLong_eq h).1, eq_iff.mpr ⟨nofun, congrArg fin (ratLong_eq h).2⟩⟩
    | nan | negInf | posInf => exact absurd h nofun
  strtod_d2string := by
    intro x _ _
    exact congrArg (Option.getD · (fin 0)) (parse_text x)
  strtod_ll2string := by
    intro n hn
    have hparse : parse (ll2string n) = some (.fin n) := by rw [parse, string2ll_ll2string hn]
    exact eq_iff.mpr ⟨by simp [Score.strtod, hparse], congrArg (Option.getD · (fin 0)) hparse⟩

end ExtRat

end SkynetJit.Redis
