import SkynetJit.Lib.Bytes

/-!
# SkynetJit.Compat.Pack

`string.pack`, `string.unpack` and `string.packsize` as the LuaJIT layer
(`compat.lua`) supplies them.

The three walk the format with one loop, `formatLoop`; they differ in what
they do with an option and in the options they refuse.  What the FFI library
does is a parameter: the conversions of Lua values to C types, the sizes of C
types and the order of bytes.

Integers leave through unsigned 64-bit arithmetic and come back through
doubles: `integerBytes` and `integerValue`.
-/

namespace SkynetJit.Compat

/-- A Lua string; the interpreter makes none of 2 GB. -/
structure LuaString where
  bytes : Bytes
  length_lt : bytes.length < 2 ^ 31
deriving DecidableEq

/-- An argument of `string.pack`.  Integers are the integral numbers and the
64-bit integers of the FFI. -/
inductive PackArg (ν : Type) where
  | nil
  | integer (n : Int)
  | string (s : LuaString)
  | other (v : ν)
deriving DecidableEq

/-- The text of an error. -/
abbrev PackError := Bytes

/-- What the FFI library and `tostring` do. -/
structure Ffi (ν : Type) where
  /-- `ffi.abi("le")` -/
  littleEndian : Bool
  /-- `ffi.sizeof("long")` -/
  sizeofLong : Nat
  sizeofLong_eq : sizeofLong = 4 ∨ sizeofLong = 8
  /-- `ffi.sizeof("size_t")` -/
  sizeofSizeT : Nat
  sizeofSizeT_eq : sizeofSizeT = 4 ∨ sizeofSizeT = 8
  /-- `ffi.sizeof("void *")` -/
  sizeofPointer : Nat
  /-- `tostring` of what is no string -/
  text : PackArg ν → Bytes
  /-- `ffi.cast(uint64_t, n)` of an integer: modulo 2^64 -/
  castInteger : Int → UInt64
  castInteger_eq : ∀ n : Int, -2 ^ 63 ≤ n → n < 2 ^ 64 → (castInteger n).toNat = n % 2 ^ 64
  /-- `ffi.cast(uint64_t, v)` of anything else -/
  castOther : PackArg ν → Except PackError UInt64
  /-- `ffi.new("float[1]", v)`, as bytes -/
  float : PackArg ν → Except PackError (Vector UInt8 4)
  /-- `ffi.new("double[1]", v)`, as bytes -/
  double : PackArg ν → Except PackError (Vector UInt8 8)

variable {ν : Type}

/-- `tostring`. -/
def Ffi.tostring (F : Ffi ν) : PackArg ν → Bytes
  | .string s => s.bytes
  | v => F.text v

/-- `ffi.cast(uint64_t, v)`. -/
def Ffi.cast (F : Ffi ν) : PackArg ν → Except PackError UInt64
  | .integer n => .ok (F.castInteger n)
  | v => F.castOther v

/-! ## Numbers -/

/-- `tonumber` of an unsigned integer: the nearest double, ties to even. -/
def roundDouble (n : Nat) : Nat :=
  if n < 2 ^ 53 then n
  else
    let ulp := 2 ^ (n.log2 - 52)
    (if 2 * (n % ulp) < ulp ∨ 2 * (n % ulp) = ulp ∧ n / ulp % 2 = 0 then n / ulp else n / ulp + 1) * ulp

/-- The nearest double of an integer. -/
def toDouble (n : Int) : Int := if n < 0 then -roundDouble n.natAbs else roundDouble n.natAbs

/-- `integer_bytes`. -/
def integerBytes (number : UInt64) (size : Nat) (littleEndian : Bool) : Bytes :=
  let result := leBytes size number.toNat
  if littleEndian then result else result.reverse

/-- The loops of `integer_value`: bytes from the most significant one on, modulo
2^64. -/
def accumulate (bytes : Bytes) : Nat := bytes.foldl (fun value b => (value * 256 + b.toNat) % 2 ^ 64) 0

/-- `integer_value` of the `size` bytes at a position. -/
def integerValue (bytes : Bytes) (size : Nat) (littleEndian signed : Bool) : Int :=
  let value := accumulate (if littleEndian then bytes.reverse else bytes)
  if signed && decide (size < 8 ∧ 2 ^ (size * 8 - 1) ≤ roundDouble value) then
    toDouble ((roundDouble value : Int) - 2 ^ (size * 8))
  else if signed && size = 8 then toDouble ((value : Int).bmod (2 ^ 64))
  else roundDouble value

/-! ## The format -/

/-- The digits of a numeral. -/
def isDigit (b : UInt8) : Bool := 48 ≤ b && b ≤ 57

/-- Lua's `%s`. -/
def isSpace (b : UInt8) : Bool := b = 32 || 9 ≤ b && b ≤ 13

/-- The value of a numeral. -/
def decimal (digits : Bytes) : Nat := digits.foldl (fun n b => n * 10 + (b.toNat - 48)) 0

/-- `read_number`: the number at the front of the format, if there is one,
and how many digits it has. -/
def readNumber (format : Bytes) : Except PackError (Option Nat × Nat) :=
  let digits := format.takeWhile isDigit
  if digits = [] then .ok (none, 0)
  else if decimal digits = 0 ∨ 16 < decimal digits then .error (ascii "invalid format size")
  else .ok (some (decimal digits), digits.length)

/-- `padding`. -/
def padding (offset alignment maximumAlignment : Nat) : Nat :=
  let alignment := min alignment maximumAlignment
  if alignment ≤ 1 then 0 else (alignment - offset % alignment) % alignment

/-- `option_info`: the size and the alignment, and the digits it has read;
nothing for an unknown option. -/
def optionInfo (F : Ffi ν) (option : UInt8) (format : Bytes) : Except PackError (Option (Nat × Nat × Nat)) :=
  if option ∈ ascii "bB" then .ok (some (1, 1, 0))
  else if option ∈ ascii "hH" then .ok (some (2, 2, 0))
  else if option ∈ ascii "lL" then .ok (some (F.sizeofLong, F.sizeofLong, 0))
  else if option ∈ ascii "jJT" then .ok (some (8, 8, 0))
  else if option ∈ ascii "iI" then
    (readNumber format).map fun r => some (r.1.getD 4, r.1.getD 4, r.2)
  else if option ∈ ascii "f" then .ok (some (4, 4, 0))
  else if option ∈ ascii "dn" then .ok (some (8, 8, 0))
  else if option ∈ ascii "c" then
    match readNumber format with
    | .error e => .error e
    | .ok (none, _) => .error (ascii "missing size for format option 'c'")
    | .ok (some size, digits) => .ok (some (size, 1, digits))
  else if option ∈ ascii "s" then
    (readNumber format).map fun r => some (r.1.getD F.sizeofSizeT, r.1.getD F.sizeofSizeT, r.2)
  else if option ∈ ascii "zx" then .ok (some (1, 1, 0))
  else .ok none

/-- The switches of a walk. -/
structure Switches where
  littleEndian : Bool
  maximumAlignment : Nat
deriving DecidableEq, Repr

/-- The switches a walk starts with. -/
def Ffi.switches (F : Ffi ν) : Switches := ⟨F.littleEndian, 1⟩

/-- The loop over the format that the three functions share.  `refuse` says
which options fail, `item` what is done with the others.  The digits that a
number has taken are skipped. -/
def formatLoop {σ : Type} (F : Ffi ν) (refuse : UInt8 → Option PackError)
    (item : UInt8 → Nat → Nat → Switches → σ → Except PackError σ) :
    Bytes → Nat → Switches → σ → Except PackError σ
  | [], _, _, s => .ok s
  | _ :: format, digits + 1, w, s => formatLoop F refuse item format digits w s
  | option :: format, 0, w, s =>
      if isSpace option then formatLoop F refuse item format 0 w s
      else if option ∈ ascii "<" then formatLoop F refuse item format 0 { w with littleEndian := true } s
      else if option ∈ ascii ">" then formatLoop F refuse item format 0 { w with littleEndian := false } s
      else if option ∈ ascii "=" then
        formatLoop F refuse item format 0 { w with littleEndian := F.littleEndian } s
      else if option ∈ ascii "!" then
        match readNumber format with
        | .error e => .error e
        | .ok (n, digits) =>
            formatLoop F refuse item format digits { w with maximumAlignment := n.getD F.sizeofPointer } s
      else
        match refuse option with
        | some e => .error e
        | none =>
            match optionInfo F option format with
            | .error e => .error e
            | .ok none => .error (ascii "invalid format option '" ++ [option] ++ ascii "'")
            | .ok (some (size, alignment, digits)) =>
                match item option size alignment w s with
                | .error e => .error e
                | .ok s => formatLoop F refuse item format digits w s

/-- What `string.pack` and `string.unpack` say of `X`. -/
def refuseX (option : UInt8) : Option PackError :=
  if option ∈ ascii "X" then
    some (ascii "format option 'X' is not supported by the LuaJIT compatibility layer")
  else none

/-! ## string.pack -/

/-- The output so far, and the arguments that are left. -/
structure PackState (ν : Type) where
  output : Bytes
  arguments : List (PackArg ν)

/-- The argument at hand; none is nil. -/
def PackState.argument (s : PackState ν) : PackArg ν := s.arguments.headD .nil

/-- Go to the next argument. -/
def PackState.next (s : PackState ν) : PackState ν := { s with arguments := s.arguments.tail }

/-- `append`. -/
def PackState.append (s : PackState ν) (value : Bytes) : PackState ν := { s with output := s.output ++ value }

/-- Bytes of the native order in the order asked for. -/
def Ffi.order (F : Ffi ν) (littleEndian : Bool) (bytes : Bytes) : Bytes :=
  if littleEndian = F.littleEndian then bytes else bytes.reverse

/-- The options of `string.pack`. -/
def packItem (F : Ffi ν) (option : UInt8) (size alignment : Nat) (w : Switches) (s : PackState ν) :
    Except PackError (PackState ν) :=
  let s := s.append (List.replicate (padding s.output.length alignment w.maximumAlignment) 0)
  if option ∈ ascii "x" then .ok (s.append [0])
  else if option ∈ ascii "z" then
    let value := F.tostring s.argument
    if 0 ∈ value then .error (ascii "string contains zeros") else .ok (s.next.append (value ++ [0]))
  else if option ∈ ascii "c" then
    let value := F.tostring s.argument
    if value.length > size then .error (ascii "string longer than given size")
    else .ok (s.next.append (value ++ List.replicate (size - value.length) 0))
  else if option ∈ ascii "s" then
    let value := F.tostring s.argument
    .ok ((s.next.append (integerBytes (F.castInteger value.length) size w.littleEndian)).append value)
  else if option ∈ ascii "f" then
    (F.float s.argument).map fun bytes => s.next.append (F.order w.littleEndian bytes.toList)
  else if option ∈ ascii "dn" then
    (F.double s.argument).map fun bytes => s.next.append (F.order w.littleEndian bytes.toList)
  else
    (F.cast s.argument).map fun number => s.next.append (integerBytes number size w.littleEndian)

/-- `string.pack`. -/
def pack (F : Ffi ν) (format : Bytes) (arguments : List (PackArg ν)) : Except PackError Bytes :=
  (formatLoop F refuseX (packItem F) format 0 F.switches ⟨[], arguments⟩).map PackState.output

/-! ## string.unpack -/

/-- A value that `string.unpack` returns; a float by its bytes in the native
order. -/
inductive Unpacked where
  | number (n : Int)
  | string (s : Bytes)
  | float (bytes : Bytes)
deriving DecidableEq, Repr

/-- The position, and the results so far. -/
structure UnpackState where
  position : Nat
  results : List Unpacked
deriving DecidableEq, Repr

/-- `data:sub(position, position + size - 1)`. -/
def slice (data : Bytes) (position size : Nat) : Bytes := (data.drop (position - 1)).take size

/-- `push`, and go on behind what was read. -/
def UnpackState.push (s : UnpackState) (v : Unpacked) (size : Nat) : UnpackState :=
  ⟨s.position + size, s.results ++ [v]⟩

/-- Data that ends too early. -/
def tooShort : PackError := ascii "data string too short"

/-- The options of `string.unpack`. -/
def unpackItem (F : Ffi ν) (data : Bytes) (option : UInt8) (size alignment : Nat) (w : Switches)
    (s : UnpackState) : Except PackError UnpackState :=
  let s := { s with position := s.position + padding (s.position - 1) alignment w.maximumAlignment }
  if option ∈ ascii "x" then
    if s.position > data.length then .error tooShort else .ok { s with position := s.position + 1 }
  else if option ∈ ascii "z" then
    -- `find` from behind the end finds nothing
    match (data.drop (s.position - 1)).findIdx? (· = 0) with
    | none => .error (ascii "unfinished string for format 'z'")
    | some length => .ok (s.push (.string (slice data s.position length)) (length + 1))
  else if option ∈ ascii "c" then
    if s.position + size - 1 > data.length then .error tooShort
    else .ok (s.push (.string (slice data s.position size)) size)
  else if option ∈ ascii "s" then
    if s.position + size - 1 > data.length then .error tooShort
    else
      let length := (integerValue (slice data s.position size) size w.littleEndian false).toNat
      if s.position + size + length - 1 > data.length then .error tooShort
      else .ok (s.push (.string (slice data (s.position + size) length)) (size + length))
  else if option ∈ ascii "f" then
    if s.position + 3 > data.length then .error tooShort
    else .ok (s.push (.float (F.order w.littleEndian (slice data s.position 4))) 4)
  else if option ∈ ascii "dn" then
    if s.position + 7 > data.length then .error tooShort
    else .ok (s.push (.float (F.order w.littleEndian (slice data s.position 8))) 8)
  else
    if s.position + size - 1 > data.length then .error tooShort
    else
      let signed := decide (option ∈ ascii "bhlji")
      .ok (s.push (.number (integerValue (slice data s.position size) size w.littleEndian signed)) size)

/-- `normalize_position`. -/
def normalizePosition (data : Bytes) (position : Option Int) : Except PackError Nat :=
  let p := position.getD 1
  let p := if p < 0 then data.length + p + 1 else p
  if p < 1 ∨ p > data.length + 1 then .error (ascii "initial position out of string") else .ok p.toNat

/-- `string.unpack`. -/
def unpack (F : Ffi ν) (format data : Bytes) (position : Option Int) : Except PackError (List Unpacked) :=
  match normalizePosition data position with
  | .error e => .error e
  | .ok p =>
      (formatLoop F refuseX (unpackItem F data) format 0 F.switches ⟨p, []⟩).map
        fun s => s.results ++ [.number s.position]

/-! ## string.packsize -/

/-- The options without a size. -/
def refuseVariable (option : UInt8) : Option PackError :=
  if option ∈ ascii "Xsz" then some (ascii "variable-length format") else none

/-- The options of `string.packsize`. -/
def packsizeItem (_option : UInt8) (size alignment : Nat) (w : Switches) (total : Nat) : Except PackError Nat :=
  .ok (total + padding total alignment w.maximumAlignment + size)

/-- `string.packsize`.  It skips the switches of the byte order; the size does
not depend on them. -/
def packsize (F : Ffi ν) (format : Bytes) : Except PackError Nat :=
  formatLoop F refuseVariable packsizeItem format 0 F.switches 0

end SkynetJit.Compat
