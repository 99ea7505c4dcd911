import SkynetJit.Lib.Raise
import SkynetJit.Redis.Decimal

/-!
# SkynetJit.Redis.Lua

What the facades share (`facade/rl_common.c`): the Lua values a command can
be handed, the error texts, and the argument checks.

A Lua number is a double.  The model keeps it a type parameter `ν` and reads
it through the class `LuaNumber`, so nothing here depends on an arithmetic.
The position that `luaL_where` puts in front of every message is left out.
-/

namespace SkynetJit.Redis

/-- The kinds of objects a handle can stand for (`rl_kind`). -/
inductive Kind where
  | bitmap | hll | zset | geo | set
deriving DecidableEq, Repr

/-- A Lua value as a command receives it.  A table is read by its array part
only; `handle k n` is the userdata of the `n`-th object of kind `k`. -/
inductive LuaValue (ν : Type) where
  | nil
  | boolean (b : Bool)
  | number (x : ν)
  | string (s : Bytes)
  | table (elements : List (LuaValue ν))
  | function
  | thread
  | handle (kind : Kind) (id : Nat)

/-- A reply (`rl_push*`): an integer, a number, a status or a bulk string, the
nil reply (`false`), a handle, or an array. -/
inductive Reply (ν : Type) where
  | int (n : Int)
  | double (x : ν)
  | text (s : Bytes)
  | nilReply
  | object (kind : Kind) (id : Nat)
  | array (elements : List (Reply ν))

/-- What the facades read off a Lua number. -/
class LuaNumber (ν : Type) where
  /-- `isnan`. -/
  isNaN : ν → Bool
  /-- The text `lua_tolstring` gives a number. -/
  toText : ν → Bytes
  /-- `string2d`, the kernel's parser of a number text. -/
  string2d : Bytes → Option ν
  /-- The cast to `long long`, when it is exact. -/
  toLong : ν → Option Int

/-- What Lua makes of a string where it wants a number. -/
class LuaTonumber (ν : Type) where
  tonumber : Bytes → Option ν

variable {ν : Type}

/-- `lua_typename`; an argument that was not passed has a type name too. -/
def typename : Option (LuaValue ν) → Bytes
  | none => ascii "no value"
  | some .nil => ascii "nil"
  | some (.boolean _) => ascii "boolean"
  | some (.number _) => ascii "number"
  | some (.string _) => ascii "string"
  | some (.table _) => ascii "table"
  | some .function => ascii "function"
  | some .thread => ascii "thread"
  | some (.handle _ _) => ascii "userdata"

/-- The text of a raised error. -/
abbrev LuaError := Bytes

/-- A facade command over the state `σ`. -/
abbrev Command (σ : Type) := Raise LuaError σ

/-- The objects of one kind, by handle. -/
abbrev Handles (α : Type) := Nat → α

/-- Replace the object behind a handle. -/
def Handles.put {α : Type} (s : Handles α) (id : Nat) (o : α) : Handles α :=
  fun i => if i = id then o else s i

@[simp] theorem Handles.put_self {α : Type} (s : Handles α) (id : Nat) (o : α) :
    s.put id o id = o := if_pos rfl

theorem Handles.put_of_ne {α : Type} (s : Handles α) {id i : Nat} (o : α) (h : i ≠ id) :
    s.put id o i = s i := if_neg h

theorem Handles.put_eq_self {α : Type} (s : Handles α) (id : Nat) : s.put id (s id) = s := by
  funext i
  by_cases hi : i = id
  · rw [hi, put_self]
  · exact put_of_ne s (s id) hi

/-- Run a command of one object on the object behind a handle. -/
def onHandle {α β : Type} (id : Nat) (x : Command α β) : Command (Handles α) β :=
  Raise.focus (fun s => s id) (fun o s => s.put id o) x

/-- `rl_pushint` of an unsigned number: the cast to `long long`. -/
def longLong (u : UInt64) : Int :=
  if u.toNat < 2 ^ 63 then u.toNat else (u.toNat : Int) - 2 ^ 64

/-- `rl_error`: a message that starts with `-` carries its own error code,
every other one gets the generic code. -/
def rlError (msg : Bytes) : LuaError :=
  match msg with
  | [] => ascii "ERR "
  | c :: rest => if c = charByte '-' then rest else ascii "ERR " ++ msg

/-- The reply to a handle of another kind. -/
def wrongTypeErr : LuaError :=
  rlError (ascii "-WRONGTYPE Operation against a key holding the wrong kind of value")

/-- Argument `idx` of a call, counted from 1. -/
def luaArg (args : List (LuaValue ν)) (idx : Nat) : Option (LuaValue ν) := args[idx - 1]?

/-- `rl_check` on one value: the object behind a handle of the kind asked
for. -/
def rlCheckValue (kind : Kind) : Option (LuaValue ν) → Except LuaError Nat
  | some (.handle k id) => if k = kind then .ok id else .error wrongTypeErr
  | _ => .error wrongTypeErr

@[simp] theorem rlCheckValue_handle (kind : Kind) (id : Nat) :
    rlCheckValue kind (some (.handle kind id : LuaValue ν)) = .ok id := by
  simp [rlCheckValue]

/-- One object for each value. -/
theorem mapM_rlCheckValue_length {kind : Kind} {vs : List (LuaValue ν)} {ids : List Nat}
    (h : (vs.mapM fun v => rlCheckValue kind (some v)) = .ok ids) : ids.length = vs.length := by
  induction vs generalizing ids with
  | nil =>
      obtain rfl := Except.ok.inj h
      rfl
  | cons v vs ih =>
      rw [List.mapM_cons] at h
      cases hv : rlCheckValue kind (some v) with
      | error e => rw [hv] at h; contradiction
      | ok id =>
          cases hvs : vs.mapM fun v => rlCheckValue kind (some v) with
          | error e => rw [hv, hvs] at h; contradiction
          | ok ids' =>
              rw [hv, hvs] at h
              obtain rfl := Except.ok.inj h
              rw [List.length_cons, List.length_cons, ih hvs]

/-- `rl_check`. -/
def rlCheck (args : List (LuaValue ν)) (idx : Nat) (kind : Kind) : Except LuaError Nat :=
  rlCheckValue kind (luaArg args idx)

/-- The arity text of the server's command table. -/
def arityErr (cmdname : String) : LuaError :=
  rlError (ascii "wrong number of arguments for '" ++ ascii cmdname ++ ascii "' command")

/-- The reply to options that make no sense. -/
def syntaxErr : LuaError := rlError (ascii "-ERR syntax error")

/-- A C string ends at its first zero byte. -/
def cString (s : Bytes) : Bytes := s.takeWhile (· ≠ 0)

/-- ASCII lower case of one byte. -/
def lowerByte (b : UInt8) : UInt8 := if 65 ≤ b ∧ b ≤ 90 then b + 32 else b

/-- `!strcasecmp(s, word)` for a word of the source. -/
def eqIgnoreCase (s : Bytes) (word : String) : Bool :=
  (cString s).map lowerByte == (ascii word).map lowerByte

section Arguments

variable [LuaNumber ν]

/-- `lua_isstring` and `lua_tolstring`: the bytes of a string, or a number's
text. -/
def toBytes? : LuaValue ν → Option Bytes
  | .string s => some s
  | .number x => some (LuaNumber.toText x)
  | _ => none

/-- The text of `rl_checkmember`. -/
def memberErr (v : Option (LuaValue ν)) : LuaError :=
  rlError (ascii "string or number expected, got " ++ typename v)

/-- `rl_checkmember` and `rl_member` on one value. -/
def rlMemberValue (v : Option (LuaValue ν)) : Except LuaError Bytes :=
  match v.bind toBytes? with
  | some s => .ok s
  | none => .error (memberErr v)

/-- `rl_member`. -/
def rlMember (args : List (LuaValue ν)) (idx : Nat) : Except LuaError Bytes :=
  rlMemberValue (luaArg args idx)

/-- `rl_argstring`: a C string. -/
def rlArgstring (args : List (LuaValue ν)) (idx : Nat) (cmdname : String) :
    Except LuaError Bytes :=
  if args.length < idx then .error (arityErr cmdname)
  else (rlMember args idx).map cString

/-- `rl_checklist`: the elements of a table argument. -/
def rlChecklist (args : List (LuaValue ν)) (idx : Nat) (cmdname : String) :
    Except LuaError (List (LuaValue ν)) :=
  if args.length < idx then .error (arityErr cmdname)
  else match luaArg args idx with
    | some (.table elements) => .ok elements
    | v => .error (rlError (ascii "table expected, got " ++ typename v))

/-- The first pass of the variadic commands, `rl_checkmember` on each of the
values that follow, and then their bytes. -/
def rlMembers (vs : List (LuaValue ν)) : Except LuaError (List Bytes) :=
  vs.mapM fun v => rlMemberValue (some v)

/-- `rl_todouble`. -/
def rlTodouble : Option (LuaValue ν) → Option ν
  | some (.number x) => if LuaNumber.isNaN x then none else some x
  | some (.string s) =>
      match LuaNumber.string2d s with
      | some x => if LuaNumber.isNaN x then none else some x
      | none => none
  | _ => none

/-- `rl_tolong`. -/
def rlTolong : Option (LuaValue ν) → Option Int
  | some (.number x) => LuaNumber.toLong x
  | some (.string s) => string2ll s
  | _ => none

/-- `rl_checkdouble`. -/
def rlCheckdouble (args : List (LuaValue ν)) (idx : Nat) : Except LuaError ν :=
  match rlTodouble (luaArg args idx) with
  | some x => .ok x
  | none => .error (rlError (ascii "value is not a valid float"))

/-- `rl_checklong`. -/
def rlChecklong (args : List (LuaValue ν)) (idx : Nat) : Except LuaError Int :=
  match rlTolong (luaArg args idx) with
  | none => .error (rlError (ascii "value is not an integer or out of range"))
  | some v =>
      if v < -2 ^ 63 ∨ v > 2 ^ 63 - 1 then .error (rlError (ascii "value is out of range"))
      else .ok v

end Arguments

end SkynetJit.Redis
