import SkynetJit.Redis.Decimal

/-!
# SkynetJit.Redis.Listpack

Listpacks (`kernel/listpack.c`) as lists of entries.  `lpAppend` and friends
encode a byte string as an integer whenever its text is canonical, so an
entry is an integer or a string; what the layout of the bytes decides is only
the total size, which `lpSafeToAdd` looks at.
-/

namespace SkynetJit.Redis

/-- An entry of a listpack, also what the set iterator hands out. -/
inductive Entry where
  | int (n : Int)
  | str (s : Bytes)
deriving DecidableEq, Repr

/-- A listpack. -/
abbrev Listpack := List Entry

/-- The bytes an entry stands for. -/
def Entry.toBytes : Entry → Bytes
  | .int n => ll2string n
  | .str s => s

/-- `lpStringToInt64`, the listpack's copy of `string2ll`. -/
def lpStringToInt64 (s : Bytes) : Option Int := string2ll s

/-- The entry that `lpAppend`, `lpPrepend` and the inserts make of a byte
string (`lpEncodeGetType`). -/
def lpEntry (s : Bytes) : Entry :=
  match lpStringToInt64 s with
  | some n => .int n
  | none => .str s

/-- `lpFindCmp`. -/
def lpFindCmp (s : Bytes) : Entry → Bool
  | .str t => t == s
  | .int n => lpStringToInt64 s == some n

/-! ## Sizes -/

/-- `lpEncodeIntegerGetType`: the bytes of an integer. -/
def lpIntegerLen (v : Int) : Nat :=
  if 0 ≤ v ∧ v ≤ 127 then 1
  else if -4096 ≤ v ∧ v ≤ 4095 then 2
  else if -32768 ≤ v ∧ v ≤ 32767 then 3
  else if -8388608 ≤ v ∧ v ≤ 8388607 then 4
  else if -2147483648 ≤ v ∧ v ≤ 2147483647 then 5
  else 9

/-- `lpEncodeBacklenBytes`. -/
def lpBacklenBytes (l : Nat) : Nat :=
  if l ≤ 127 then 1
  else if l ≤ 16383 then 2
  else if l ≤ 2097151 then 3
  else if l ≤ 268435455 then 4
  else 5

/-- The bytes of an entry, its length at the back included. -/
def Entry.size : Entry → Nat
  | .int n => lpIntegerLen n + lpBacklenBytes (lpIntegerLen n)
  | .str s =>
      let enclen := if s.length < 64 then 1 + s.length
        else if s.length < 4096 then 2 + s.length else 5 + s.length
      enclen + lpBacklenBytes enclen

/-- `lpBytes`: the header, the entries and the end mark. -/
def lpBytes (lp : Listpack) : Nat := 6 + (lp.map Entry.size).sum + 1

/-- `LISTPACK_MAX_SAFETY_SIZE`. -/
def listpackMaxSafetySize : Nat := 2 ^ 30

/-- `lpSafeToAdd`; no listpack at all counts as empty. -/
def lpSafeToAdd (lp : Option Listpack) (add : Nat) : Bool :=
  let len := match lp with | some lp => lpBytes lp | none => 0
  !(decide (add > listpackMaxSafetySize) || decide (len > listpackMaxSafetySize - add))

/-- `lpEstimateBytesRepeatedInteger`. -/
def lpEstimateBytesRepeatedInteger (lval : Int) (rep : Nat) : Nat :=
  6 + (Entry.int lval).size * rep + 1

/-! ## Entries and byte strings -/

/-- Integer entries are machine integers. -/
def Entry.Valid : Entry → Prop
  | .int n => IsInt64 n
  | .str _ => True

theorem lpEntry_toBytes (s : Bytes) : (lpEntry s).toBytes = s := by
  rw [lpEntry]
  cases h : lpStringToInt64 s with
  | none => rfl
  | some n => exact (string2ll_sound h).2

theorem lpEntry_valid (s : Bytes) : (lpEntry s).Valid := by
  rw [lpEntry]
  cases h : lpStringToInt64 s with
  | none => exact True.intro
  | some n => exact (string2ll_sound h).1

/-- **Finding** an entry compares the bytes it stands for. -/
theorem lpFindCmp_iff {e : Entry} (h : e.Valid) (s : Bytes) :
    lpFindCmp s e = true ↔ e.toBytes = s := by
  cases e with
  | str t => simp [lpFindCmp, Entry.toBytes]
  | int n =>
      rw [lpFindCmp, beq_iff_eq, lpStringToInt64, string2ll_eq_some_iff, Entry.toBytes]
      exact ⟨fun hs => hs.2, fun hs => ⟨h, hs⟩⟩

end SkynetJit.Redis
