import Mathlib.Tactic.SplitIfs
import SkynetJit.Lib.Frames
import SkynetJit.Redis.Lua

/-!
# SkynetJit.Redis.Blob

What the loaders of `facade/rl_common.c` share.  A loader walks over a blob it
did not write: every read and every allocation whose size comes from the blob
is logged, so that staying inside the blob is a property of the log.  The log
is there also when the loader raises.
-/

namespace SkynetJit.Redis

open Raise

/-- What a loader does with numbers it found in a blob: it reads `n` bytes at
an offset, or it makes room for `n` items that take at least `size` bytes of
the blob each. -/
inductive Access where
  | read (off n : Nat)
  | alloc (n size : Nat)
deriving DecidableEq, Repr

/-- An access that stays inside a blob of `len` bytes. -/
def Access.Within (len : Nat) : Access → Prop
  | .read off n => off + n ≤ len
  | .alloc n size => n * size ≤ len

/-- A log of such accesses. -/
def Inside (buf : Bytes) (log : List Access) : Prop := ∀ a ∈ log, a.Within buf.length

/-- A loader: it raises or returns, and logs. -/
abbrev Loader := Command (List Access)

/-- The one error of the loaders. -/
def badFormatErr : LuaError := rlError (ascii "Bad data format")

/-- `goto bad`. -/
def bad {α : Type} : Loader α := throw badFormatErr

/-- Log an access. -/
def access (a : Access) : Loader PUnit := modify (· ++ [a])

/-- `rl_rd32`. -/
def rlRd32 (buf : Bytes) (p : Nat) : Loader Nat := do
  access (.read p 4)
  return leNat ((buf.drop p).take 4)

/-- `rl_rd64`. -/
def rlRd64 (buf : Bytes) (p : Nat) : Loader Nat := do
  access (.read p 8)
  return leNat ((buf.drop p).take 8)

/-- `sdsnewlen` of a slice of the blob. -/
def sdsnewlen (buf : Bytes) (p n : Nat) : Loader Bytes := do
  access (.alloc n 1)
  access (.read p n)
  return (buf.drop p).take n

/-- `(size_t)(end - p)`. -/
def sizeLeft (buf : Bytes) (p : Nat) : Nat := (((buf.length : Int) - p) % 2 ^ 64).toNat

/-- `(uint32_t)((len - 4) / size)`: how many records of `size` bytes or more
the blob has room for. -/
def roomFor (buf : Bytes) (size : Nat) : Nat := (buf.length - 4) / size % 2 ^ 32

/-- `rl_checkblob`. -/
def rlCheckblob {ν : Type} (args : List (LuaValue ν)) (idx : Nat) : Except LuaError Bytes :=
  match luaArg args idx with
  | some (.string s) => .ok s
  | v => .error (rlError (ascii "string expected, got " ++ typename v))

/-- LuaJIT's limit on strings, `LJ_MAX_STR`. -/
def luaMaxString : Nat := 0x7fffff00

/-- `lua_pushlstring`: a string that is too long for Lua raises. -/
def pushLstring {ν : Type} (s : Bytes) : Except LuaError (Reply ν) :=
  if s.length ≥ luaMaxString then .error (ascii "string length overflow") else .ok (.text s)

/-! ## Staying inside -/

variable {buf : Bytes}

theorem sizeLeft_le {p : Nat} (h : p ≤ buf.length) : p + sizeLeft buf p ≤ buf.length := by
  rw [sizeLeft]
  omega

theorem sizeLeft_eq {p : Nat} (h : p ≤ buf.length) (hlen : buf.length < 2 ^ 64) :
    p + sizeLeft buf p = buf.length := by
  rw [sizeLeft]
  omega

theorem roomFor_le {size n : Nat} (h : n ≤ roomFor buf size) : n * size ≤ buf.length - 4 :=
  calc n * size ≤ (buf.length - 4) / size * size :=
        Nat.mul_le_mul_right size (Nat.le_trans h (Nat.mod_le _ _))
    _ ≤ buf.length - 4 := Nat.div_mul_le_self _ _

theorem le_roomFor {size n : Nat} (hsize : 0 < size) (hlen : buf.length < 2 ^ 32)
    (h : n * size ≤ buf.length - 4) : n ≤ roomFor buf size := by
  have hdiv : (buf.length - 4) / size ≤ buf.length - 4 := Nat.div_le_self _ _
  rw [roomFor, Nat.mod_eq_of_lt (by omega)]
  exact (Nat.le_div_iff_mul_le hsize).mpr h

theorem Inside.access {log : List Access} (h : Inside buf log) {a : Access}
    (ha : a.Within buf.length) : Inside buf (log ++ [a]) := by
  intro b hb
  rcases List.mem_append.mp hb with hin | hin
  · exact h b hin
  · rwa [List.mem_singleton.mp hin]

theorem keeps_access {a : Access} (ha : a.Within buf.length) : Keeps (Inside buf) (access a) :=
  fun _ h => h.access ha

theorem keeps_bad {α : Type} : Keeps (Inside buf) (bad : Loader α) := keeps_throw _

theorem keeps_rlRd32 {p : Nat} (h : p + 4 ≤ buf.length) : Keeps (Inside buf) (rlRd32 buf p) :=
  (keeps_access (a := .read p 4) h).bind fun _ => keeps_pure _

theorem keeps_rlRd64 {p : Nat} (h : p + 8 ≤ buf.length) : Keeps (Inside buf) (rlRd64 buf p) :=
  (keeps_access (a := .read p 8) h).bind fun _ => keeps_pure _

theorem keeps_sdsnewlen {p n : Nat} (h : p + n ≤ buf.length) :
    Keeps (Inside buf) (sdsnewlen buf p n) := by
  have halloc : (Access.alloc n 1).Within buf.length := by
    rw [Access.Within]
    omega
  exact (keeps_access halloc).bind fun _ => (keeps_access (a := .read p n) h).bind fun _ => keeps_pure _

/-! ## Raising -/

theorem raisesOnly_access (a : Access) : RaisesOnly badFormatErr (access a) := raisesOnly_modify _ _

theorem raisesOnly_bad {α : Type} : RaisesOnly badFormatErr (bad : Loader α) := raisesOnly_throw _

theorem raisesOnly_rlRd32 (p : Nat) : RaisesOnly badFormatErr (rlRd32 buf p) :=
  (raisesOnly_access _).bind fun _ => raisesOnly_pure _ _

theorem raisesOnly_rlRd64 (p : Nat) : RaisesOnly badFormatErr (rlRd64 buf p) :=
  (raisesOnly_access _).bind fun _ => raisesOnly_pure _ _

theorem raisesOnly_sdsnewlen (p n : Nat) : RaisesOnly badFormatErr (sdsnewlen buf p n) :=
  (raisesOnly_access _).bind fun _ => (raisesOnly_access _).bind fun _ => raisesOnly_pure _ _

/-! ## Running -/

@[simp] theorem exec_access_bind {β : Type} (a : Access) (f : PUnit → Loader β)
    (log : List Access) : exec (access a >>= f) log = exec (f ⟨⟩) (log ++ [a]) :=
  exec_modify_bind _ f log

@[simp] theorem exec_bad {α : Type} (log : List Access) :
    exec (bad : Loader α) log = (.error badFormatErr, log) := rfl

@[simp] theorem exec_rlRd32_bind {β : Type} (p : Nat) (f : Nat → Loader β) (log : List Access) :
    exec (rlRd32 buf p >>= f) log =
      exec (f (leNat ((buf.drop p).take 4))) (log ++ [.read p 4]) := exec_bind_ok rfl

@[simp] theorem exec_rlRd64_bind {β : Type} (p : Nat) (f : Nat → Loader β) (log : List Access) :
    exec (rlRd64 buf p >>= f) log =
      exec (f (leNat ((buf.drop p).take 8))) (log ++ [.read p 8]) := exec_bind_ok rfl

@[simp] theorem exec_sdsnewlen_bind {β : Type} (p n : Nat) (f : Bytes → Loader β)
    (log : List Access) :
    exec (sdsnewlen buf p n >>= f) log =
      exec (f ((buf.drop p).take n)) (log ++ [.alloc n 1] ++ [.read p n]) := exec_bind_ok rfl

end SkynetJit.Redis
