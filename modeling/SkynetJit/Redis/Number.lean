import SkynetJit.Redis.Decimal
import SkynetJit.Redis.Lua

/-!
# SkynetJit.Redis.Number

The doubles that are integers, infinite or not a number.  They are closed
under the arithmetic the sorted sets do, and on small values they behave as
the machine's doubles: the concrete runs of this development use them.
-/

namespace SkynetJit.Redis

/-- A double without a fraction. -/
inductive IntegralDouble where
  | nan | negInf | fin (n : Int) | posInf
deriving DecidableEq, Repr

namespace IntegralDouble

/-- The text of a number. -/
def text : IntegralDouble → Bytes
  | .nan => ascii "nan"
  | .negInf => ascii "-inf"
  | .fin n => ll2string n
  | .posInf => ascii "inf"

/-- `string2d` on the texts of these numbers. -/
def parse (s : Bytes) : Option IntegralDouble :=
  if s = ascii "inf" ∨ s = ascii "+inf" then some .posInf
  else if s = ascii "-inf" then some .negInf
  else (string2ll s).map .fin

instance : LuaNumber IntegralDouble where
  isNaN x := x == .nan
  toText := text
  string2d := parse
  toLong
    | .fin n => if IsInt64 n then some n else none
    | _ => none

end IntegralDouble

end SkynetJit.Redis
