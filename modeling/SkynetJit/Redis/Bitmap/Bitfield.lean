import Mathlib.Data.List.Induction
import SkynetJit.Redis.Bitmap.Kernel
import SkynetJit.Redis.Number

/-!
# SkynetJit.Redis.Bitmap.Bitfield

BITFIELD and BITFIELD_RO (`facade/bitmap.c`).  A call is parsed as a whole,
then the string grows to hold every field it may write, then the sub-commands
run one after the other.

`specRun` says what they are for, on the bits alone: exact arithmetic, then
the overflow policy.  `bitfield_agrees_iff` is exactly when the code does
that: always, except for a SET that is to clamp a value far below a signed
range.
-/

namespace SkynetJit.Redis

open Raise BitArray

variable {ν : Type}

/-! ## Arguments -/

/-- What Lua makes of a string where a number is asked for. -/
class LuaCoercion (ν : Type) extends LuaNumber ν where
  /-- `lua_tonumber` of a string; `none` is where `lua_isnumber` says no. -/
  tonumber : Bytes → Option ν

/-- `RL_PROTO_MAX_BULK_LEN`. -/
def protoMaxBulkLen : Nat := 512 * 1024 * 1024

/-- A type of field: i1 to i64, u1 to u63. -/
structure FieldType where
  sign : Bool
  bits : Nat
  pos : 1 ≤ bits
  le : bits ≤ if sign then 64 else 63
deriving DecidableEq, Repr

/-- The text of `rl_bitfield_type`. -/
def fieldTypeErr : LuaError :=
  rlError (ascii ("Invalid bitfield type. Use something like i16 u8. " ++
    "Note that u64 is not supported but i64 is."))

/-- The type with a sign and a number of bits, if there is one. -/
def fieldType (sign : Bool) (bits? : Option Int) : Except LuaError FieldType :=
  match bits? with
  | none => .error fieldTypeErr
  | some n =>
      if h : 1 ≤ n.toNat ∧ n.toNat ≤ if sign then 64 else 63 then .ok ⟨sign, n.toNat, h.1, h.2⟩
      else .error fieldTypeErr

/-- The text of `rl_bitoffset`. -/
def bitoffsetErr : LuaError := rlError (ascii "bit offset is not an integer or out of range")

section Arguments

variable [LuaCoercion ν]

/-- `rl_bitfield_type`. -/
def rlBitfieldType (v : LuaValue ν) : Except LuaError FieldType :=
  match toBytes? v with
  | some (c :: rest) =>
      if c = charByte 'i' then fieldType true (string2ll rest)
      else if c = charByte 'u' then fieldType false (string2ll rest)
      else .error fieldTypeErr
  | _ => .error fieldTypeErr

/-- `rl_checklonglong`.  A cast to `long long` that is exact is one. -/
def rlChecklonglong (v : LuaValue ν) (err : String) : Except LuaError {n : Int // IsInt64 n} :=
  let n? := match v with
    | .number d => LuaNumber.toLong d
    | .string s =>
        match LuaCoercion.tonumber s with
        | some (d : ν) => LuaNumber.toLong d
        | none => string2ll s
    | _ => none
  match n? with
  | none => .error (rlError (ascii err))
  | some n => if h : IsInt64 n then .ok ⟨n, h⟩ else .error (rlError (ascii err))

/-- `rl_bitoffset`.  A number is read through its text, so the branch for
numbers is never reached. -/
def rlBitoffset (v : LuaValue ν) (hash : Bool) (bits : Nat) :
    Except LuaError {n : Nat // n / 8 < protoMaxBulkLen} :=
  match toBytes? v with
  | none => .error bitoffsetErr
  | some p =>
      let usehash := decide (p.head? = some (charByte '#')) && hash && decide (bits > 0)
      match string2ll (if usehash then p.drop 1 else p) with
      | none => .error bitoffsetErr
      | some loffset =>
          if loffset < 0 then .error bitoffsetErr
          else if usehash ∧ loffset > (2 ^ 63 - 1) / bits then .error bitoffsetErr
          else
            let off := if usehash then loffset.toNat * bits else loffset.toNat
            if h : off / 8 < protoMaxBulkLen then .ok ⟨off, h⟩ else .error bitoffsetErr

end Arguments

/-- The sub-commands that make an entry of the list. -/
inductive BitfieldOpcode where
  | get | set | incrby
deriving DecidableEq, Repr

/-- `struct rl_bitfieldOp`. -/
structure BitfieldOp where
  offset : Nat
  i64 : Int
  opcode : BitfieldOpcode
  owtype : Owtype
  type : FieldType
  offset_lt : offset / 8 < protoMaxBulkLen
  int64 : IsInt64 i64
deriving DecidableEq

/-- Whether a sub-command can write. -/
def BitfieldOp.writes (op : BitfieldOp) : Bool := op.opcode != .get

section Parse

variable [LuaCoercion ν]

/-- The `overflow` names. -/
def owtypeOf (name : Bytes) : Option Owtype :=
  if eqIgnoreCase name "wrap" then some .wrap
  else if eqIgnoreCase name "sat" then some .sat
  else if eqIgnoreCase name "fail" then some .fail
  else none

/-- One GET. -/
def bitfieldGet (owtype : Owtype) (ty off : LuaValue ν) : Except LuaError BitfieldOp := do
  let type ← rlBitfieldType ty
  let offset ← rlBitoffset off true type.bits
  return ⟨offset.1, 0, .get, owtype, type, offset.2, by decide⟩

/-- One SET or INCRBY. -/
def bitfieldWrite (opcode : BitfieldOpcode) (owtype : Owtype) (ty off val : LuaValue ν) :
    Except LuaError BitfieldOp := do
  let type ← rlBitfieldType ty
  let offset ← rlBitoffset off true type.bits
  let value ← rlChecklonglong val "value is not an integer or out of range"
  return ⟨offset.1, value.1, opcode, owtype, type, offset.2, value.2⟩

/-- The parsing loop of `bitmap_bitfield_generic`; OVERFLOW holds for what
follows it. -/
def bitfieldOps : List (LuaValue ν) → Owtype → Except LuaError (List BitfieldOp)
  | [], _ => .ok []
  | v :: rest, owtype => do
      let subcmd ← (rlMemberValue (some v)).map cString
      if eqIgnoreCase subcmd "get" then
        match rest with
        | ty :: off :: rest =>
            let op ← bitfieldGet owtype ty off
            let ops ← bitfieldOps rest owtype
            return op :: ops
        | _ => .error syntaxErr
      else if eqIgnoreCase subcmd "set" || eqIgnoreCase subcmd "incrby" then
        match rest with
        | ty :: off :: val :: rest =>
            let opcode := if eqIgnoreCase subcmd "set" then .set else .incrby
            let op ← bitfieldWrite opcode owtype ty off val
            let ops ← bitfieldOps rest owtype
            return op :: ops
        | _ => .error syntaxErr
      else if eqIgnoreCase subcmd "overflow" then
        match rest with
        | name :: rest =>
            let name ← (rlMemberValue (some name)).map cString
            match owtypeOf name with
            | some owtype => bitfieldOps rest owtype
            | none => .error (rlError (ascii "Invalid OVERFLOW type specified"))
        | [] => .error syntaxErr
      else .error syntaxErr

/-- The checks of BITFIELD: a handle, and the list of sub-commands. -/
def bitfieldArgs (ro : Bool) (args : List (LuaValue ν)) : Except LuaError (Nat × List BitfieldOp) := do
  let id ← rlCheck args 1 .bitmap
  let ops ← bitfieldOps (args.drop 1) .wrap
  if ops.any BitfieldOp.writes && ro then
    .error (rlError (ascii "BITFIELD_RO only supports the GET subcommand"))
  else return (id, ops)

end Parse

/-! ## Execution -/

/-- `highest_write_offset`. -/
def highestWriteOffset (ops : List BitfieldOp) : Nat :=
  ops.foldl (fun highest op =>
    if op.writes ∧ highest < op.offset + op.type.bits - 1 then op.offset + op.type.bits - 1
    else highest) 0

/-- Make room for every field that may be written (`sdsgrowzero`). -/
def growFor (ops : List BitfieldOp) (str : Bytes) : Bytes :=
  if ops.any BitfieldOp.writes then
    let byte := highestWriteOffset ops >>> 3
    if str.length < byte + 1 then str ++ List.replicate (byte + 1 - str.length) 0 else str
  else str

/-- A SET or INCRBY of a signed field: the reply, and the string. -/
def writeSigned (op : BitfieldOp) (str : Bytes) : Option Int × Bytes :=
  let oldval := getSignedBitfield str op.offset op.type.bits
  let check := if op.opcode = .incrby then
      checkSignedBitfieldOverflow oldval op.i64 op.type.bits op.owtype
    else checkSignedBitfieldOverflow op.i64 0 op.type.bits op.owtype
  let newval := if check.1 ≠ 0 then check.2
    else if op.opcode = .incrby then i64 (oldval + op.i64) else op.i64
  let retval := if op.opcode = .incrby then newval else oldval
  if check.1 ≠ 0 ∧ op.owtype = .fail then (none, str)
  else (some retval, setSignedBitfield str op.offset op.type.bits newval)

/-- A SET or INCRBY of an unsigned field. -/
def writeUnsigned (op : BitfieldOp) (str : Bytes) : Option Int × Bytes :=
  let oldval := getUnsignedBitfield str op.offset op.type.bits
  let check := if op.opcode = .incrby then
      checkUnsignedBitfieldOverflow oldval op.i64 op.type.bits op.owtype
    else checkUnsignedBitfieldOverflow (u64 op.i64) 0 op.type.bits op.owtype
  let newval := if check.1 ≠ 0 then check.2
    else if op.opcode = .incrby then u64 (oldval + op.i64) else u64 op.i64
  let retval := if op.opcode = .incrby then newval else oldval
  if check.1 ≠ 0 ∧ op.owtype = .fail then (none, str)
  else (some (i64 retval), setUnsignedBitfield str op.offset op.type.bits newval)

/-- A GET reads from a copy of nine bytes, zero where the string has ended. -/
def readField (op : BitfieldOp) (str : Bytes) : Int :=
  let byte := op.offset >>> 3
  let bytes := (str.drop byte).take 9
  let buf := bytes ++ List.replicate (9 - bytes.length) 0
  if op.type.sign then getSignedBitfield buf (op.offset - byte * 8) op.type.bits
  else i64 (getUnsignedBitfield buf (op.offset - byte * 8) op.type.bits)

/-- One sub-command; no reply value is the false in the array. -/
def bitfieldStep (op : BitfieldOp) (str : Bytes) : Option Int × Bytes :=
  if op.opcode = .get then (some (readField op str), str)
  else if op.type.sign then writeSigned op str
  else writeUnsigned op str

/-- The loop over the sub-commands. -/
def bitfieldLoop : List BitfieldOp → Bytes → List (Option Int) × Bytes
  | [], str => ([], str)
  | op :: ops, str =>
      let r := bitfieldStep op str
      let t := bitfieldLoop ops r.2
      (r.1 :: t.1, t.2)

/-- The whole list. -/
def bitfieldRun (ops : List BitfieldOp) (str : Bytes) : List (Option Int) × Bytes :=
  bitfieldLoop ops (growFor ops str)

/-- An entry of the reply. -/
def bitfieldReply : Option Int → Reply ν
  | none => .nilReply
  | some n => .int n

/-- `lbitmap_bitfield` and `lbitmap_bitfield_ro`. -/
def lbitmapBitfield [LuaCoercion ν] (ro : Bool) (args : List (LuaValue ν)) :
    Command (Handles Bytes) (Reply ν) := do
  let (id, ops) ← check (bitfieldArgs ro args)
  let s ← get
  let r := bitfieldRun ops (s id)
  set (s.put id r.2)
  return .array (r.1.map bitfieldReply)

/-! ## What the sub-commands are for -/

namespace FieldType

/-- The least value of a type. -/
def lo (t : FieldType) : Int := if t.sign then -2 ^ (t.bits - 1) else 0

/-- The greatest value of a type. -/
def hi (t : FieldType) : Int := if t.sign then 2 ^ (t.bits - 1) - 1 else 2 ^ t.bits - 1

/-- The value of a type that a number is congruent to modulo `2 ^ bits`. -/
def reduce (t : FieldType) (x : Int) : Int :=
  if t.sign then x.bmod (2 ^ t.bits) else x % 2 ^ t.bits

/-- The value a field has. -/
def read (t : FieldType) (f : BitArray) (off : Nat) : Int := t.reduce (f.field off t.bits)

/-- The field with a value written to it. -/
def write (t : FieldType) (f : BitArray) (off : Nat) (x : Int) : BitArray :=
  f.put off t.bits (x % 2 ^ t.bits).toNat

/-- The number a SET asks for: an unsigned type reads the value as a 64-bit
pattern. -/
def asked (t : FieldType) (value : Int) : Int := if t.sign then value else u64 value

/-- What is stored for an exact result, if anything is. -/
def store (t : FieldType) (owtype : Owtype) (x : Int) : Option Int :=
  if t.lo ≤ x ∧ x ≤ t.hi then some x
  else match owtype with
    | .wrap => some (t.reduce x)
    | .sat => some (max t.lo (min t.hi x))
    | .fail => none

end FieldType

/-- One sub-command on the bits: GET replies the value, SET the old one and
INCRBY the new one; what is not stored is not replied. -/
def specStep (op : BitfieldOp) (f : BitArray) : Option Int × BitArray :=
  let old := op.type.read f op.offset
  match op.opcode with
  | .get => (some old, f)
  | .set =>
      match op.type.store op.owtype (op.type.asked op.i64) with
      | none => (none, f)
      | some new => (some old, op.type.write f op.offset new)
  | .incrby =>
      match op.type.store op.owtype (old + op.i64) with
      | none => (none, f)
      | some new => (some new, op.type.write f op.offset new)

/-- A list of sub-commands on the bits. -/
def specRun : List BitfieldOp → BitArray → List (Option Int) × BitArray
  | [], f => ([], f)
  | op :: ops, f =>
      let r := specStep op f
      let t := specRun ops r.2
      (r.1 :: t.1, t.2)

/-- The length of the string afterwards: enough for every field of a SET or an
INCRBY. -/
def writtenLength (ops : List BitfieldOp) (len : Nat) : Nat :=
  ops.foldl (fun len op =>
    if op.writes then max len ((op.offset + op.type.bits - 1) / 8 + 1) else len) len

/-- The code does on a string what the list of sub-commands is for. -/
structure BitfieldAgrees (str : Bytes) (ops : List BitfieldOp) : Prop where
  replies : (bitfieldRun ops str).1 = (specRun ops (bitAt str)).1
  bits : bitAt (bitfieldRun ops str).2 = (specRun ops (bitAt str)).2
  length : (bitfieldRun ops str).2.length = writtenLength ops str.length

/-- A SET that is to clamp a value far below a signed range. -/
def BitfieldOp.slips (op : BitfieldOp) : Prop :=
  op.opcode = .set ∧ op.owtype = .sat ∧ op.type.sign = true ∧ signedSlip op.type.bits op.i64

instance (op : BitfieldOp) : Decidable op.slips := inferInstanceAs (Decidable (_ ∧ _ ∧ _ ∧ _))

/-! ## One sub-command -/

theorem FieldType.le_64 (t : FieldType) : t.bits ≤ 64 := by
  have h := t.le
  split_ifs at h <;> omega

theorem FieldType.le_63 {t : FieldType} (h : t.sign = false) : t.bits ≤ 63 := by
  have hle := t.le
  rwa [h] at hle

/-- A check that answers as it should, followed by what the code does with the
answer. -/
theorem store_of_check {t : FieldType} {owtype : Owtype} {x : Int} {r : Int × Int}
    (h : ChecksOverflow owtype t.lo t.hi (t.reduce x) x r) {exact : Int}
    (hexact : t.lo ≤ x → x ≤ t.hi → exact = x) :
    (t.store owtype x = none ↔ r.1 ≠ 0 ∧ owtype = .fail) ∧
      ∀ new, t.store owtype x = some new → (if r.1 ≠ 0 then r.2 else exact) = new := by
  rw [FieldType.store.eq_def]
  by_cases hin : t.lo ≤ x ∧ x ≤ t.hi
  · rw [if_pos hin, h.inside hin.1 hin.2]
    refine ⟨by simp, fun new hnew => ?_⟩
    rw [if_neg (by simp), hexact hin.1 hin.2]
    exact Option.some.inj hnew
  · have hne := h.outside hin
    rw [if_neg hin]
    cases owtype with
    | wrap =>
        refine ⟨by simp, fun new hnew => ?_⟩
        rw [if_pos hne, h.wrap rfl hin]
        exact Option.some.inj hnew
    | sat =>
        refine ⟨by simp, fun new hnew => ?_⟩
        rw [if_pos hne, h.sat rfl hin]
        exact Option.some.inj hnew
    | fail => exact ⟨by simp [hne], nofun⟩

/-- The values of a type are 64-bit words. -/
theorem FieldType.isInt64_of_mem (t : FieldType) {x : Int} (hlo : t.lo ≤ x) (hhi : x ≤ t.hi) :
    IsInt64 x := by
  have hpow : ∀ n k : Nat, n ≤ k → (2 : Int) ^ n ≤ 2 ^ k := fun n k h => by
    exact_mod_cast Nat.pow_le_pow_right (n := 2) (by decide) h
  rw [FieldType.lo] at hlo
  rw [FieldType.hi] at hhi
  cases hs : t.sign with
  | true =>
      have := hpow (t.bits - 1) 63 (by have := t.le_64; omega)
      rw [hs, if_pos rfl] at hlo hhi
      exact ⟨by omega, by omega⟩
  | false =>
      have := hpow t.bits 63 (t.le_63 hs)
      rw [hs] at hlo hhi
      simp only [Bool.false_eq_true, if_false] at hlo hhi
      exact ⟨by omega, by omega⟩

theorem FieldType.reduce_mem (t : FieldType) (x : Int) : t.lo ≤ t.reduce x ∧ t.reduce x ≤ t.hi := by
  rw [FieldType.lo, FieldType.hi, FieldType.reduce]
  cases hs : t.sign with
  | true =>
      obtain ⟨n, hn⟩ : ∃ n, t.bits = n + 1 := ⟨t.bits - 1, by have := t.pos; omega⟩
      simp only [if_true, hn, Nat.add_sub_cancel, bmod_two_pow_succ]
      have hpos : (0 : Int) < 2 ^ (n + 1) := Int.pow_pos (by decide)
      have hnonneg := Int.emod_nonneg x (Int.ne_of_gt hpos)
      have hlt := Int.emod_lt_of_pos x hpos
      have htwo : (2 : Int) ^ (n + 1) = 2 * 2 ^ n := by rw [pow_succ, Int.mul_comm]
      split_ifs <;> omega
  | false =>
      have hpos : (0 : Int) < 2 ^ t.bits := Int.pow_pos (by decide)
      have hnonneg := Int.emod_nonneg x (Int.ne_of_gt hpos)
      have hlt := Int.emod_lt_of_pos x hpos
      simp only [Bool.false_eq_true, if_false]
      omega

theorem FieldType.store_mem {t : FieldType} {owtype : Owtype} {x new : Int}
    (h : t.store owtype x = some new) : t.lo ≤ new ∧ new ≤ t.hi := by
  rw [FieldType.store.eq_def] at h
  by_cases hin : t.lo ≤ x ∧ x ≤ t.hi
  · rw [if_pos hin] at h
    rwa [← Option.some.inj h]
  · rw [if_neg hin] at h
    cases owtype with
    | wrap => rw [← Option.some.inj h]; exact t.reduce_mem x
    | sat =>
        have hrange : t.lo ≤ t.hi := (t.reduce_mem x).1.trans (t.reduce_mem x).2
        rw [← Option.some.inj h]
        omega
    | fail => contradiction

theorem FieldType.put_u64 (t : FieldType) (f : BitArray) (off : Nat) (x : Int) :
    f.put off t.bits (u64 x) = t.write f off x := by
  have hcast : (u64 x : Int) % 2 ^ t.bits = (u64 x % 2 ^ t.bits : Nat) := by push_cast; rfl
  rw [FieldType.write, ← put_mod, ← u64_emod t.le_64, hcast, Int.toNat_natCast]

/-- What a sub-command has to do to a string. -/
structure StepAgrees (op : BitfieldOp) (str : Bytes) (r : Option Int × Bytes) : Prop where
  reply : r.1 = (specStep op (bitAt str)).1
  bits : bitAt r.2 = (specStep op (bitAt str)).2
  length : r.2.length = str.length

/-- A SET or INCRBY from its parts: the exact result `x`, the check, and what
the code stores and replies. -/
theorem stepAgrees_write {op : BitfieldOp} {str : Bytes} {x newval retval : Int} {r : Int × Int}
    {e : Int} (hroom : op.offset + op.type.bits ≤ 8 * str.length)
    (hx : x = if op.opcode = .incrby then op.type.read (bitAt str) op.offset + op.i64
      else op.type.asked op.i64)
    (hop : op.opcode ≠ .get)
    (hcheck : ChecksOverflow op.owtype op.type.lo op.type.hi (op.type.reduce x) x r)
    (hexact : op.type.lo ≤ x → x ≤ op.type.hi → e = x)
    (hnew : newval = if r.1 ≠ 0 then r.2 else e)
    (hret : retval = if op.opcode = .incrby then newval else op.type.read (bitAt str) op.offset) :
    StepAgrees op str (if r.1 ≠ 0 ∧ op.owtype = .fail then (none, str)
      else (some retval, setUnsignedBitfield str op.offset op.type.bits (u64 newval))) := by
  obtain ⟨hnone, hsome⟩ := store_of_check hcheck hexact
  obtain ⟨hlen, hbits⟩ := setUnsignedBitfield_spec (u64 newval) hroom
  rw [op.type.put_u64] at hbits
  cases hstore : op.type.store op.owtype x with
  | none =>
      rw [if_pos (hnone.mp hstore)]
      have hspec : specStep op (bitAt str) = (none, bitAt str) := by
        rw [specStep.eq_def]
        cases hopcode : op.opcode with
        | get => exact absurd hopcode hop
        | set =>
            rw [hopcode, if_neg (by decide)] at hx
            simp only [← hx, hstore]
        | incrby =>
            rw [hopcode, if_pos rfl] at hx
            simp only [← hx, hstore]
      exact ⟨by rw [hspec], by rw [hspec], rfl⟩
  | some new =>
      have hnew' : newval = new := hnew.trans (hsome new hstore)
      rw [if_neg (mt hnone.mpr (by rw [hstore]; nofun))]
      have hspec : specStep op (bitAt str) =
          (some retval, op.type.write (bitAt str) op.offset new) := by
        rw [specStep.eq_def]
        cases hopcode : op.opcode with
        | get => exact absurd hopcode hop
        | set =>
            rw [hopcode, if_neg (by decide)] at hx hret
            simp only [← hx, hstore, hret]
        | incrby =>
            rw [hopcode, if_pos rfl] at hx hret
            simp only [← hx, hstore, hret, hnew']
      exact ⟨by rw [hspec], by rw [hspec, hbits, hnew'], hlen⟩

theorem writeSigned_agrees {op : BitfieldOp} {str : Bytes} (hsign : op.type.sign = true)
    (hop : op.opcode ≠ .get) (hroom : op.offset + op.type.bits ≤ 8 * str.length)
    (hslip : ¬ op.slips) : StepAgrees op str (writeSigned op str) := by
  have hold : getSignedBitfield str op.offset op.type.bits =
      op.type.read (bitAt str) op.offset := by
    rw [getSignedBitfield_eq _ _ op.type.pos op.type.le_64, FieldType.read, FieldType.reduce, hsign,
      if_pos rfl]
  have hread := op.type.reduce_mem ((bitAt str).field op.offset op.type.bits)
  have hlo : op.type.lo = -2 ^ (op.type.bits - 1) := by rw [FieldType.lo, hsign, if_pos rfl]
  have hhi : op.type.hi = 2 ^ (op.type.bits - 1) - 1 := by rw [FieldType.hi, hsign, if_pos rfl]
  have hreduce : ∀ y, op.type.reduce y = y.bmod (2 ^ op.type.bits) := fun y => by
    rw [FieldType.reduce, hsign, if_pos rfl]
  rw [writeSigned, hold]
  cases hopcode : op.opcode with
  | get => exact absurd hopcode hop
  | set =>
      simp only [reduceCtorEq, if_false]
      refine stepAgrees_write (x := op.i64) (e := op.i64) hroom ?_ hop ?_ (fun _ _ => rfl) rfl
        (by rw [hopcode]; rfl)
      · rw [hopcode, if_neg (by decide), FieldType.asked, hsign, if_pos rfl]
      · have hspec := @checkSignedBitfieldOverflow_spec _ 0 _
          op.type.pos op.type.le_64 op.int64 (by decide) (.inl rfl) op.owtype
          fun how hs => hslip ⟨hopcode, how, hsign, hs⟩
        rwa [Int.add_zero, ← hlo, ← hhi, ← hreduce] at hspec
  | incrby =>
      simp only [if_true]
      refine stepAgrees_write (x := op.type.read (bitAt str) op.offset + op.i64)
        (e := i64 (op.type.read (bitAt str) op.offset + op.i64)) hroom
        (by rw [hopcode, if_pos rfl]) hop ?_
        (fun h h' => i64_of_isInt64 (op.type.isInt64_of_mem h h')) rfl (by rw [hopcode]; rfl)
      have hmem := hread
      rw [hlo, hhi] at hmem
      have hspec := @checkSignedBitfieldOverflow_spec _ op.i64 _
        op.type.pos op.type.le_64 (op.type.isInt64_of_mem hread.1 hread.2) op.int64 (.inr hmem)
        op.owtype fun _ hs => by
          have hsmall := hs.2
          have hhalf : (2 : Int) ^ (op.type.bits - 1) ≤ 2 ^ 62 := by
            exact_mod_cast Nat.pow_le_pow_right (n := 2) (by decide)
              (show op.type.bits - 1 ≤ 62 by have := hs.1; omega)
          omega
      rwa [← hlo, ← hhi, ← hreduce] at hspec

theorem u64_natCast {n : Nat} (h : n < 2 ^ 64) : u64 (n : Int) = n := by
  rw [u64]
  omega

theorem writeUnsigned_agrees {op : BitfieldOp} {str : Bytes} (hsign : op.type.sign = false)
    (hop : op.opcode ≠ .get) (hroom : op.offset + op.type.bits ≤ 8 * str.length) :
    StepAgrees op str (writeUnsigned op str) := by
  have hle := op.type.le_63 hsign
  have hlt := field_lt (bitAt str) op.offset op.type.bits
  have hlt64 : (bitAt str).field op.offset op.type.bits < 2 ^ 64 :=
    Nat.lt_of_lt_of_le hlt (pow_le_pow_64 op.type.le_64)
  have hreduce : ∀ y, op.type.reduce y = y % 2 ^ op.type.bits := fun y => by
    rw [FieldType.reduce, hsign]
    rfl
  have hlo : op.type.lo = 0 := by rw [FieldType.lo, hsign]; rfl
  have hhi : op.type.hi = 2 ^ op.type.bits - 1 := by rw [FieldType.hi, hsign]; rfl
  have hread : op.type.read (bitAt str) op.offset = (bitAt str).field op.offset op.type.bits := by
    rw [FieldType.read, hreduce]
    exact_mod_cast Nat.mod_eq_of_lt hlt
  have hmem := op.type.reduce_mem ((bitAt str).field op.offset op.type.bits)
  -- both kinds of call end alike; `check` and `exact` are what differs
  have hfinish : ∀ (check : Int × Nat) (exact : Nat) (x : Int),
      (x = if op.opcode = .incrby then op.type.read (bitAt str) op.offset + op.i64
        else op.type.asked op.i64) →
      ChecksOverflow op.owtype op.type.lo op.type.hi (op.type.reduce x) x (check.1, (check.2 : Int)) →
      (op.type.lo ≤ x → x ≤ op.type.hi → (exact : Int) = x) → exact < 2 ^ 64 → check.2 < 2 ^ 64 →
      StepAgrees op str (if check.1 ≠ 0 ∧ op.owtype = .fail then (none, str)
        else (some (i64 ((if op.opcode = .incrby then if check.1 ≠ 0 then check.2 else exact
            else (bitAt str).field op.offset op.type.bits : Nat) : Int)),
          setUnsignedBitfield str op.offset op.type.bits
            (if check.1 ≠ 0 then check.2 else exact))) := by
    intro check exact x hx hcheck hexact hexact64 hcheck64
    set newval := if check.1 ≠ 0 then check.2 else exact with hnewval
    have hnew64 : newval < 2 ^ 64 := by
      rw [hnewval]
      split_ifs <;> assumption
    have hnew : (newval : Int) = if check.1 ≠ 0 then (check.2 : Int) else exact := by
      rw [hnewval]
      split_ifs <;> rfl
    have hagrees := stepAgrees_write hroom hx hop hcheck hexact hnew rfl
    rw [u64_natCast hnew64] at hagrees
    by_cases hfail : check.1 ≠ 0 ∧ op.owtype = .fail
    · rw [if_pos hfail] at hagrees ⊢
      exact hagrees
    · rw [if_neg hfail] at hagrees ⊢
      have hretval : i64 ((if op.opcode = .incrby then newval
          else (bitAt str).field op.offset op.type.bits : Nat) : Int) =
          if op.opcode = .incrby then (newval : Int) else op.type.read (bitAt str) op.offset := by
        obtain ⟨hnone, hsome⟩ := store_of_check hcheck hexact
        obtain ⟨new, hstore⟩ := Option.ne_none_iff_exists'.mp (mt hnone.mp hfail)
        have hnewmem := FieldType.store_mem hstore
        rw [← hsome new hstore] at hnewmem
        split_ifs with hinc
        · exact i64_of_isInt64 (op.type.isInt64_of_mem (hnew ▸ hnewmem.1) (hnew ▸ hnewmem.2))
        · rw [hread]
          refine i64_of_isInt64 (op.type.isInt64_of_mem ?_ ?_) <;> rw [← hread]
          · exact hmem.1
          · exact hmem.2
      rw [hretval]
      exact hagrees
  have hcheck64 : ∀ value incr, (checkUnsignedBitfieldOverflow value incr op.type.bits
      op.owtype).2 < 2 ^ 64 := by
    intro value incr
    have hpow : 2 ^ op.type.bits ≤ 2 ^ 63 := Nat.pow_le_pow_right (by decide) hle
    have hmod : u64 (value + incr) % 2 ^ op.type.bits < 2 ^ op.type.bits :=
      Nat.mod_lt _ (Nat.two_pow_pos _)
    simp only [checkUnsignedBitfieldOverflow, and_lowMask op.type.le_64,
      if_neg (show op.type.bits ≠ 64 by omega), Nat.shiftLeft_eq, Nat.one_mul]
    cases op.owtype <;> split_ifs <;> simp only <;> omega
  rw [writeUnsigned, getUnsignedBitfield_eq _ _ op.type.le_64]
  cases hopcode : op.opcode with
  | get => exact absurd hopcode hop
  | set =>
      have hspec := @checkUnsignedBitfieldOverflow_spec _ _ 0 hle (u64_lt op.i64) (.inl rfl)
        op.owtype
      rw [Int.add_zero] at hspec
      have := hfinish (checkUnsignedBitfieldOverflow (u64 op.i64) 0 op.type.bits op.owtype)
        (u64 op.i64) (u64 op.i64) (by rw [hopcode, if_neg (by decide), FieldType.asked, hsign]; rfl)
        (by rw [hlo, hhi, hreduce]; exact hspec) (fun _ _ => rfl) (u64_lt _) (hcheck64 _ _)
      rw [hopcode] at this
      simpa only [reduceCtorEq, if_false] using this
  | incrby =>
      have hspec := @checkUnsignedBitfieldOverflow_spec _ _ op.i64 hle hlt64 (.inr hlt) op.owtype
      rw [← hlo, ← hhi, ← hreduce, ← hread] at hspec
      have := hfinish (checkUnsignedBitfieldOverflow ((bitAt str).field op.offset op.type.bits) op.i64
          op.type.bits op.owtype)
        (u64 ((bitAt str).field op.offset op.type.bits + op.i64))
        (op.type.read (bitAt str) op.offset + op.i64) (by rw [hopcode, if_pos rfl])
        hspec (fun h h' => by
          have hint := op.type.isInt64_of_mem h h'
          rw [hlo, hread] at h
          rw [hread] at hint ⊢
          obtain ⟨-, hlt⟩ := hint
          rw [u64]
          omega) (u64_lt _) (hcheck64 _ _)
      rw [hopcode] at this
      simpa only [if_true] using this

theorem readField_eq (op : BitfieldOp) (str : Bytes) :
    readField op str = op.type.read (bitAt str) op.offset := by
  have hle := op.type.le_64
  have hmem := op.type.reduce_mem ((bitAt str).field op.offset op.type.bits)
  set buf := (str.drop (op.offset / 8)).take 9 ++
    List.replicate (9 - ((str.drop (op.offset / 8)).take 9).length) 0 with hbuf
  have hfield : (bitAt buf).field (op.offset - op.offset / 8 * 8) op.type.bits =
      (bitAt str).field op.offset op.type.bits := by
    have hoff : op.offset - op.offset / 8 * 8 + 8 * (op.offset / 8) = op.offset := by omega
    have hshift := field_shift (bitAt str) (8 * (op.offset / 8)) (op.offset - op.offset / 8 * 8)
      op.type.bits
    rw [hoff] at hshift
    rw [← hshift]
    apply field_congr
    intro i _ hi
    rw [hbuf, bitAt_append_zeros, bitAt_take (by omega), bitAt_drop]
  rw [readField, shiftRight_three, FieldType.read]
  cases hs : op.type.sign with
  | true =>
      rw [if_pos rfl, getSignedBitfield_eq _ _ op.type.pos hle, hfield, FieldType.reduce, hs,
        if_pos rfl]
  | false =>
      have hlt := field_lt (bitAt str) op.offset op.type.bits
      have hreduce : op.type.reduce ((bitAt str).field op.offset op.type.bits) =
          (bitAt str).field op.offset op.type.bits := by
        rw [FieldType.reduce, hs, if_neg (by decide)]
        exact_mod_cast Nat.mod_eq_of_lt hlt
      rw [hreduce] at hmem ⊢
      rw [if_neg (by decide), getUnsignedBitfield_eq _ _ hle, hfield]
      exact i64_of_isInt64 (op.type.isInt64_of_mem hmem.1 hmem.2)

/-- **One sub-command**, in a string with room for what it writes. -/
theorem bitfieldStep_agrees {op : BitfieldOp} {str : Bytes}
    (hroom : op.writes = true → op.offset + op.type.bits ≤ 8 * str.length) (hslip : ¬ op.slips) :
    StepAgrees op str (bitfieldStep op str) := by
  rw [bitfieldStep]
  by_cases hop : op.opcode = .get
  · rw [if_pos hop, readField_eq]
    have hspec : specStep op (bitAt str) = (some (op.type.read (bitAt str) op.offset), bitAt str) := by
      rw [specStep.eq_def, hop]
    exact ⟨by rw [hspec], by rw [hspec], rfl⟩
  · have hroom' := hroom (by rw [BitfieldOp.writes, bne_iff_ne]; exact hop)
    rw [if_neg hop]
    cases hs : op.type.sign with
    | true => exact writeSigned_agrees hs hop hroom' hslip
    | false => exact writeUnsigned_agrees hs hop hroom'

/-! ## The list -/

/-- Every field that may be written lies inside a string of this length. -/
def RoomFor (ops : List BitfieldOp) (len : Nat) : Prop :=
  ∀ op ∈ ops, op.writes = true → op.offset + op.type.bits ≤ 8 * len

/-- **The loop** over sub-commands none of which slips. -/
theorem bitfieldLoop_agrees {ops : List BitfieldOp} {str : Bytes} (hroom : RoomFor ops str.length)
    (hslip : ∀ op ∈ ops, ¬ op.slips) :
    (bitfieldLoop ops str).1 = (specRun ops (bitAt str)).1 ∧
      bitAt (bitfieldLoop ops str).2 = (specRun ops (bitAt str)).2 ∧
      (bitfieldLoop ops str).2.length = str.length := by
  induction ops generalizing str with
  | nil => exact ⟨rfl, rfl, rfl⟩
  | cons op ops ih =>
      have hstep := bitfieldStep_agrees (hroom op List.mem_cons_self) (hslip op List.mem_cons_self)
      obtain ⟨hreplies, hbits, hlen⟩ := ih
        (show RoomFor ops (bitfieldStep op str).2.length from fun op' hop' => by
          rw [hstep.length]
          exact hroom op' (List.mem_cons_of_mem op hop'))
        fun op' hop' => hslip op' (List.mem_cons_of_mem op hop')
      rw [hstep.bits] at hreplies hbits
      rw [bitfieldLoop, specRun]
      exact ⟨by rw [hstep.reply, hreplies], hbits, hlen.trans hstep.length⟩

theorem bitfieldLoop_append (ops ops' : List BitfieldOp) (str : Bytes) :
    bitfieldLoop (ops ++ ops') str =
      ((bitfieldLoop ops str).1 ++ (bitfieldLoop ops' (bitfieldLoop ops str).2).1,
        (bitfieldLoop ops' (bitfieldLoop ops str).2).2) := by
  induction ops generalizing str with
  | nil => rfl
  | cons op ops ih =>
      rw [List.cons_append, bitfieldLoop, ih]
      rfl

theorem specRun_append (ops ops' : List BitfieldOp) (f : BitArray) :
    specRun (ops ++ ops') f =
      ((specRun ops f).1 ++ (specRun ops' (specRun ops f).2).1,
        (specRun ops' (specRun ops f).2).2) := by
  induction ops generalizing f with
  | nil => rfl
  | cons op ops ih =>
      rw [List.cons_append, specRun, ih]
      rfl

/-! ## Making room -/

theorem writtenLength_cons (op : BitfieldOp) (ops : List BitfieldOp) (len : Nat) :
    writtenLength (op :: ops) len = writtenLength ops
      (if op.writes then max len ((op.offset + op.type.bits - 1) / 8 + 1) else len) := rfl

theorem le_writtenLength (ops : List BitfieldOp) (len : Nat) : len ≤ writtenLength ops len := by
  induction ops generalizing len with
  | nil => exact Nat.le_refl len
  | cons op ops ih =>
      rw [writtenLength_cons]
      refine Nat.le_trans ?_ (ih _)
      split_ifs <;> omega

theorem roomFor_writtenLength (ops : List BitfieldOp) (len : Nat) :
    RoomFor ops (writtenLength ops len) := by
  induction ops generalizing len with
  | nil => exact fun op hop => absurd hop List.not_mem_nil
  | cons op ops ih =>
      intro op' hop' hw
      rw [writtenLength_cons]
      rcases List.mem_cons.mp hop' with rfl | hin
      · have hle := le_writtenLength ops
          (if op'.writes then max len ((op'.offset + op'.type.bits - 1) / 8 + 1) else len)
        rw [if_pos hw] at hle ⊢
        have := op'.type.pos
        omega
      · exact ih _ op' hin hw

/-- The fold over the bit offsets and the fold over the lengths. -/
theorem writtenLength_max (ops : List BitfieldOp) (len highest : Nat) :
    writtenLength ops (max len (highest / 8 + 1)) =
      max len (ops.foldl (fun highest op =>
        if op.writes ∧ highest < op.offset + op.type.bits - 1 then op.offset + op.type.bits - 1
        else highest) highest / 8 + 1) := by
  induction ops generalizing highest with
  | nil => rfl
  | cons op ops ih =>
      rw [writtenLength_cons, List.foldl_cons, ← ih]
      congr 1
      by_cases hw : op.writes = true
      · by_cases hlt : highest < op.offset + op.type.bits - 1
        · rw [if_pos hw, if_pos ⟨hw, hlt⟩]
          omega
        · rw [if_pos hw, if_neg fun h => hlt h.2]
          omega
      · rw [if_neg hw, if_neg fun h => hw h.1]

theorem writtenLength_of_writes {ops : List BitfieldOp} (h : ops.any BitfieldOp.writes = true)
    (len : Nat) : writtenLength ops len = writtenLength ops (max len 1) := by
  induction ops with
  | nil => simp at h
  | cons op ops ih =>
      rw [writtenLength_cons, writtenLength_cons]
      by_cases hw : op.writes = true
      · rw [if_pos hw, if_pos hw]
        congr 1
        omega
      · rw [if_neg hw, if_neg hw]
        simp only [List.any_cons, hw, Bool.false_or] at h
        exact ih h

theorem writtenLength_of_not_writes {ops : List BitfieldOp}
    (h : ops.any BitfieldOp.writes = false) (len : Nat) : writtenLength ops len = len := by
  induction ops with
  | nil => rfl
  | cons op ops ih =>
      rw [List.any_cons, Bool.or_eq_false_iff] at h
      rw [writtenLength_cons, h.1]
      exact ih h.2

/-- **Growing** the string shows in its length only. -/
theorem growFor_spec (ops : List BitfieldOp) (str : Bytes) :
    bitAt (growFor ops str) = bitAt str ∧
      (growFor ops str).length = writtenLength ops str.length := by
  rw [growFor]
  cases hw : ops.any BitfieldOp.writes with
  | false => exact ⟨rfl, (writtenLength_of_not_writes hw _).symm⟩
  | true =>
      have hlen : writtenLength ops str.length =
          max str.length (highestWriteOffset ops / 8 + 1) := by
        rw [writtenLength_of_writes hw]
        exact writtenLength_max ops str.length 0
      rw [if_pos rfl, shiftRight_three, hlen]
      dsimp only
      split_ifs with hshort
      · refine ⟨bitAt_append_zeros _ _, ?_⟩
        rw [List.length_append, List.length_replicate]
        omega
      · exact ⟨rfl, by omega⟩

/-! ## Where the code does what it is for -/

theorem bitfield_agrees {ops : List BitfieldOp} (hslip : ∀ op ∈ ops, ¬ op.slips) (str : Bytes) :
    BitfieldAgrees str ops := by
  obtain ⟨hgrow, hlen⟩ := growFor_spec ops str
  obtain ⟨hreplies, hbits, hlen'⟩ := bitfieldLoop_agrees
    (show RoomFor ops (growFor ops str).length by rw [hlen]; exact roomFor_writtenLength ops str.length) hslip
  rw [hgrow] at hreplies hbits
  exact ⟨hreplies, hbits, hlen'.trans hlen⟩

/-- A sub-command that slips stores the other end of the range. -/
theorem bitfieldStep_slips {op : BitfieldOp} {str : Bytes}
    (hroom : op.offset + op.type.bits ≤ 8 * str.length) (h : op.slips) :
    bitAt (bitfieldStep op str).2 ≠ (specStep op (bitAt str)).2 := by
  obtain ⟨hop, how, hsign, hslip⟩ := h
  obtain ⟨n, hn⟩ : ∃ n, op.type.bits = n + 1 := ⟨op.type.bits - 1, by have := op.type.pos; omega⟩
  have hsmall := hslip.1
  have hlow := hslip.2
  rw [hn] at hsmall
  rw [hn, Nat.add_sub_cancel] at hlow
  have hpow : (2 : Int) ^ n = (2 ^ n : Nat) := by push_cast; rfl
  have hpos := Nat.two_pow_pos n
  have hbound : 2 ^ n ≤ 2 ^ 62 := Nat.pow_le_pow_right (by decide) (by omega)
  have hcode : (bitfieldStep op str).2 =
      setUnsignedBitfield str op.offset op.type.bits (2 ^ n - 1) := by
    have hcheck : checkSignedBitfieldOverflow op.i64 0 op.type.bits .sat = (1, 2 ^ n - 1) := by
      rw [checkSignedBitfieldOverflow_eq op.type.pos op.type.le_64 op.int64 (by decide) (.inl rfl),
        if_pos (.inr hslip), hn, Nat.add_sub_cancel]
    have hword : u64 (2 ^ n - 1) = 2 ^ n - 1 := by
      rw [u64, hpow]
      omega
    rw [bitfieldStep, hop, if_neg (by decide), hsign, if_pos rfl, writeSigned, hop]
    simp only [reduceCtorEq, if_false, hcheck, how, and_false, ne_eq, one_ne_zero,
      not_false_eq_true, if_true, setSignedBitfield, hword]
  have hspec : (specStep op (bitAt str)).2 = op.type.write (bitAt str) op.offset (-2 ^ n) := by
    have hstore : op.type.store .sat (op.type.asked op.i64) = some (-2 ^ n) := by
      rw [FieldType.store.eq_def, FieldType.asked, FieldType.lo, FieldType.hi, hsign, if_pos rfl,
        if_pos rfl, if_pos rfl, hn, Nat.add_sub_cancel, hpow, if_neg (by omega)]
      exact congrArg some (by omega)
    rw [specStep.eq_def, hop, how]
    simp only [hstore]
  obtain ⟨-, hbits⟩ := setUnsignedBitfield_spec (2 ^ n - 1) hroom
  rw [hcode, hspec, hbits]
  intro heq
  -- the top bit of the field tells the two ends apart
  have htop := congrFun heq op.offset
  have hmod : ((-2 ^ n : Int) % 2 ^ (n + 1)).toNat = 2 ^ n := by
    have hneg : (-2 ^ n : Int) = 2 ^ n + 2 ^ (n + 1) * -1 := by ring
    have hlt : (2 : Int) ^ n < 2 ^ (n + 1) := by
      rw [pow_succ, hpow]
      omega
    rw [hneg, Int.add_mul_emod_self_left, Int.emod_eq_of_lt (by rw [hpow]; omega) hlt, hpow,
      Int.toNat_natCast]
  rw [FieldType.write, hn, hmod, put_inside (Nat.le_refl _) (by omega),
    put_inside (Nat.le_refl _) (by omega), show op.offset + (n + 1) - 1 - op.offset = n by omega,
    Nat.testBit_two_pow_self, Nat.testBit_lt_two_pow (by omega)] at htop
  contradiction

theorem not_agrees_of_slips {ops : List BitfieldOp} {op : BitfieldOp}
    (hslip : ∀ op' ∈ ops, ¬ op'.slips) (h : op.slips) (str : Bytes) :
    ¬ BitfieldAgrees str (ops ++ [op]) := by
  intro hagrees
  obtain ⟨hgrow, hlen⟩ := growFor_spec (ops ++ [op]) str
  have hroom := roomFor_writtenLength (ops ++ [op]) str.length
  rw [← hlen] at hroom
  obtain ⟨-, hbits, hlen'⟩ := bitfieldLoop_agrees
    (fun op' hop' => hroom op' (List.mem_append_left _ hop')) hslip
  have hwrites : op.writes = true := by rw [BitfieldOp.writes, h.1]; rfl
  have hin := hroom op (List.mem_append_right _ (List.mem_singleton.mpr rfl)) hwrites
  rw [← hlen'] at hin
  have hne := bitfieldStep_slips hin h
  have heq := hagrees.bits
  rw [bitfieldRun, bitfieldLoop_append, specRun_append] at heq
  rw [hgrow] at hbits
  rw [hbits] at hne
  exact hne heq

/-- **BITFIELD.**  A call that parses runs its list of sub-commands on the
receiver; and the list and all its prefixes do on the bits what they are for
exactly if none of the sub-commands is a SET of a signed type of less than 64
bits, under SAT, of a value more than `2 ^ 63` below the greatest value of the
type. -/
theorem bitfield_agrees_iff [LuaCoercion ν] (ro : Bool) (args : List (LuaValue ν))
    (s : Handles Bytes) {id : Nat} {ops : List BitfieldOp} (h : bitfieldArgs ro args = .ok (id, ops)) :
    exec (lbitmapBitfield ro args) s =
        (.ok (.array ((bitfieldRun ops (s id)).1.map bitfieldReply)),
          s.put id (bitfieldRun ops (s id)).2) ∧
      ((∀ pre, pre <+: ops → BitfieldAgrees (s id) pre) ↔ ∀ op ∈ ops, ¬ op.slips) := by
  refine ⟨?_, ?_, ?_⟩
  · rw [lbitmapBitfield, exec_check_bind, h]
    rfl
  · intro hall
    clear h
    induction ops using List.reverseRecOn with
    | nil => exact fun op hop => absurd hop List.not_mem_nil
    | append_singleton ops op ih =>
        have hops := ih fun pre hpre => hall pre (hpre.trans (List.prefix_append ops [op]))
        intro op' hop'
        rcases List.mem_append.mp hop' with hin | hin
        · exact hops op' hin
        · rw [List.mem_singleton.mp hin]
          intro hslips
          exact not_agrees_of_slips hops hslips (s id) (hall _ (List.prefix_refl _))
  · intro hslip pre hpre
    exact bitfield_agrees (fun op hop => hslip op (hpre.subset hop)) (s id)

instance : LuaCoercion IntegralDouble where
  tonumber := IntegralDouble.parse

/-- An increment that wraps, one that is refused, and a read. -/
def plainArgs : List (LuaValue IntegralDouble) :=
  [.handle .bitmap 0, .string (ascii "INCRBY"), .string (ascii "u8"), .string (ascii "#1"),
   .number (.fin 300), .string (ascii "OVERFLOW"), .string (ascii "FAIL"),
   .string (ascii "INCRBY"), .string (ascii "i4"), .number (.fin 0), .number (.fin (-9)),
   .string (ascii "GET"), .string (ascii "i8"), .number (.fin 8)]

theorem bitfield_agrees_iff_sample : ∃ ops, bitfieldArgs false plainArgs = .ok (0, ops) ∧
    bitfieldRun ops [] = ([some 44, none, some 44], [0, 44]) ∧
    ∀ pre, pre <+: ops → BitfieldAgrees [] pre :=
  ⟨_, rfl, by decide +kernel,
    (bitfield_agrees_iff false plainArgs (fun _ => []) rfl).2.mpr (by decide)⟩

/-- A SET that is to store the least value of i8. -/
def slippingArgs : List (LuaValue IntegralDouble) :=
  [.handle .bitmap 0, .string (ascii "OVERFLOW"), .string (ascii "SAT"), .string (ascii "SET"),
   .string (ascii "i8"), .number (.fin 0), .string (ascii "-9223372036854775808")]

/-- It stores the greatest one. -/
theorem bitfield_set_slips : ∃ ops, bitfieldArgs false slippingArgs = .ok (0, ops) ∧
    (exec (lbitmapBitfield false slippingArgs) (fun _ => [])).2 0 = [0x7f] ∧
    (∀ i, i < 8 → (specRun ops (bitAt [])).2 i = bitAt [0x80] i) ∧ ¬ BitfieldAgrees [] ops := by
  refine ⟨_, rfl, rfl, by decide, fun h => ?_⟩
  exact absurd (congrFun h.bits 0) (by decide)

end SkynetJit.Redis
