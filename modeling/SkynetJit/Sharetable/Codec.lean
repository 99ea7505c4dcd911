import SkynetJit.Sharetable.Graph
import Mathlib.Logic.Function.Basic

/-!
# SkynetJit.Sharetable.Codec

The codec of `skynet/sharetable/codec.lua`: `encode` turns a cyclic table
graph into a flat document whose tables and functions are named by the path
they were first met on, and `decode` builds a new graph from a document.

Both walks recurse through tables.  The recursion is over a fuel that counts
nested tables; running out of it is a fault of its own, so that termination
is a statement about the result.
-/

namespace SkynetJit.Sharetable

variable {F : Type}

/-! ## The C bridge -/

/-- `pack_lightuserdata` and `pack_cfunction` copy the bytes of the pointer. -/
def packPointer (p : UInt64) : Bytes := leBytes 8 p.toNat

/-- `unpack_lightuserdata` and `unpack_cfunction` check the size and copy the
bytes back. -/
def unpackPointer (encoded : Bytes) : Option UInt64 :=
  if encoded.length ≠ 8 then none else some (UInt64.ofNat (leNat encoded))

theorem unpackPointer_packPointer (p : UInt64) : unpackPointer (packPointer p) = some p := by
  have hlt : p.toNat < 256 ^ 8 := p.toNat_lt
  rw [unpackPointer, packPointer, length_leBytes, leNat_leBytes, Nat.mod_eq_of_lt hlt]
  simp

/-- What the codec uses from the Lua runtime: `string.dump` and `loadstring`,
`%+.17g`, the address `tostring` prints for a table, and `table.sort` on keys
paired with their `key_order` string. -/
structure Env (F : Type) where
  dump : Bytes → Bytes
  loadstring : Bytes → Option Bytes
  formatNumber : F → Bytes
  tableAddress : Nat → Bytes
  tableSort : List (Bytes × Value F) → List (Bytes × Value F)

/-- The codec's assumptions on the runtime: loading a dump gives the same
function, and sorting permutes. -/
structure Env.Lawful (env : Env F) : Prop where
  loadstring_dump : ∀ code, env.loadstring (env.dump code) = some code
  tableSort_perm : ∀ keys, (env.tableSort keys).Perm keys

/-- How a walk fails: a Lua error, a value that refers outside the heap, or
fuel that ran out. -/
inductive Fault where
  | raised (message : String)
  | dangling
  | outOfFuel
deriving DecidableEq, Repr

/-- The descriptor of a value, `{ tag, payload }`. -/
inductive Desc (F : Type) where
  | nil
  | number (n : F)
  | string (s : Bytes)
  | boolean (b : Bool)
  | table (id : Bytes)
  | lightuserdata (encoded : Bytes)
  | func (id : Bytes)
deriving DecidableEq, Repr

/-- A table of the document. -/
structure Node (F : Type) where
  length : Nat
  entries : List (Desc F × Desc F)

/-- A function of the document, `{ kind, encoded }` with kind `"L"`, `"R"` or
`"C"`. -/
inductive FuncCode where
  | lua (dumped : Bytes)
  | ref (reference : Reference)
  | c (encoded : Bytes)
deriving DecidableEq, Repr

/-- The document `encode` returns. -/
structure Document (F : Type) where
  format : Nat
  root : Desc F
  nodes : Bytes → Option (Node F)
  functions : Bytes → Option FuncCode

/-! ## Encoding -/

/-- The tables `encode` fills while it walks the graph. -/
structure EncState (F : Type) where
  nodes : Bytes → Option (Node F)
  functions : Bytes → Option FuncCode
  tableIds : Nat → Option Bytes
  functionIds : Nat → Option Bytes
  allocated : List Bytes

/-- The state `encode` starts in. -/
def EncState.empty : EncState F :=
  { nodes := fun _ => none, functions := fun _ => none
    tableIds := fun _ => none, functionIds := fun _ => none, allocated := [] }

/-- The loop of `unique_path`: append `#2`, `#3`, … until the path is free. -/
def uniquePathLoop (allocated : List Bytes) (suggested : Bytes) : Nat → Nat → Bytes → Bytes
  | 0, _, path => path
  | fuel + 1, suffix, path =>
    if path ∈ allocated then
      uniquePathLoop allocated suggested fuel (suffix + 1)
        (suggested ++ ascii "#" ++ natDec (suffix + 1))
    else path

/-- `unique_path(suggested)`.  There are fewer allocated paths than
candidates, so the loop needs one more round than there are paths. -/
def uniquePath (allocated : List Bytes) (suggested : Bytes) : Bytes :=
  uniquePathLoop allocated suggested allocated.length 1 suggested

/-- `pointer_encoding(value)`: only light userdata can be packed. -/
def pointerEncoding : Value F → Option Bytes
  | .lightuserdata p => some (packPointer p)
  | _ => none

section Encode

variable [BEq F]

/-- `function_encoding(value)`. -/
def functionEncoding (env : Env F) (h : Heap F) (f : Nat) : Except Fault FuncCode :=
  match h.funcs[f]? with
  | none => .error .dangling
  | some fn =>
    if fn.upvalues ≠ 0 then .error (.raised "sharetable functions cannot have upvalues") else
    match fn.kind with
    | .lua code => .ok (.lua (env.dump code))
    | kind =>
      match functionReference h f with
      | some reference => .ok (.ref reference)
      | none =>
        match kind with
        | .cfunction entry => .ok (.c (packPointer entry))
        | _ => .error (.raised "sharetable cannot encode an unnamed LuaJIT fast function")

/-- Path components joined by dots, `table.concat(path, ".")`. -/
def concatPath (path : List Bytes) : Bytes := (path.intersperse (ascii ".")).flatten

/-- `key_order(value)`: the string keys are sorted by. -/
def keyOrder (env : Env F) (h : Heap F) (v : Value F) : Except Fault Bytes :=
  match v with
  | .number n => .ok (ascii "1:" ++ env.formatNumber n)
  | .string s => .ok (ascii "2:" ++ hex s)
  | .boolean b => .ok (if b then ascii "3:1" else ascii "3:0")
  | .func f => do
    match ← functionEncoding env h f with
    | .ref (.global path) => .ok (ascii "5:R:" ++ ascii ":" ++ concatPath path)
    | .ref (.module name path) => .ok (ascii "5:R:" ++ name ++ ascii ":" ++ concatPath path)
    | .lua dumped => .ok (ascii "5:L:" ++ hex dumped)
    | .c encoded => .ok (ascii "5:C:" ++ hex encoded)
  | .table t => .ok (ascii "6:" ++ env.tableAddress t)
  | v =>
    match pointerEncoding v with
    | some encoded => .ok (ascii "4:" ++ hex encoded)
    | none => .error (.raised ("unsupported sharetable key type " ++ v.typeName))

/-- `path_token(value, ordinal)`. -/
def pathToken (env : Env F) (v : Value F) (ordinal : Nat) : Bytes :=
  match v with
  | .string s => ascii "s" ++ hex s
  | .number n => ascii "n" ++ env.formatNumber n
  | .boolean b => if b then ascii "b1" else ascii "b0"
  | v => (ascii v.typeName).take 1 ++ natDec ordinal

/-- `table.sort(keys, …)`: with fewer than two keys the comparison, and so
`key_order`, is never called. -/
def sortKeys (env : Env F) (h : Heap F) (keys : List (Value F)) :
    Except Fault (List (Value F)) :=
  if keys.length < 2 then .ok keys else do
    let keyed ← keys.mapM fun k => return (← keyOrder env h k, k)
    return (env.tableSort keyed).map Prod.snd

/-- `encode_function(value, suggested)`. -/
def encodeFunction (env : Env F) (h : Heap F) (s : EncState F) (f : Nat) (suggested : Bytes) :
    Except Fault (Desc F × EncState F) :=
  match s.functionIds f with
  | some id => .ok (.func id, s)
  | none => do
    let id := uniquePath s.allocated suggested
    let code ← functionEncoding env h f
    return (.func id, { s with
      allocated := id :: s.allocated
      functionIds := Function.update s.functionIds f (some id)
      functions := Function.update s.functions id (some code) })

/-- Name a table and open its node. -/
def EncState.openNode (s : EncState F) (t : Nat) (id : Bytes) (length : Nat) : EncState F :=
  { s with
    allocated := id :: s.allocated
    tableIds := Function.update s.tableIds t (some id)
    nodes := Function.update s.nodes id (some { length, entries := [] }) }

/-- `node.entries[index] = { key, value }` on the node called `id`. -/
def EncState.appendEntry (s : EncState F) (id : Bytes) (entry : Desc F × Desc F) : EncState F :=
  { s with
    nodes := Function.update s.nodes id
      ((s.nodes id).map fun node => { node with entries := node.entries ++ [entry] }) }

/-- The type of `encode_value` and `encode_table` for a fixed graph: state,
what to encode, suggested path. -/
abbrev Encoder (F α : Type) := EncState F → α → Bytes → Except Fault (Desc F × EncState F)

/-- `encode_value(value, suggested)`, given `encode_table`. -/
def encodeValue (env : Env F) (h : Heap F) (encodeTable : Encoder F Nat) :
    Encoder F (Value F)
  | s, .nil, _ => .ok (.nil, s)
  | s, .number n, _ => .ok (.number n, s)
  | s, .string b, _ => .ok (.string b, s)
  | s, .boolean b, _ => .ok (.boolean b, s)
  | s, .table t, suggested => encodeTable s t suggested
  | s, .func f, suggested => encodeFunction env h s f suggested
  | s, v, _ =>
    match pointerEncoding v with
    | some encoded => .ok (.lightuserdata encoded, s)
    | none => .error (.raised ("unsupported sharetable value type " ++ v.typeName))

/-- The loop of `encode_table` over the sorted keys, from ordinal `index`. -/
def encodeEntries (env : Env F) (encode : Encoder F (Value F)) (obj : TableObj F) (id : Bytes) :
    Nat → List (Value F) → EncState F → Except Fault (EncState F)
  | _, [], s => .ok s
  | index, k :: ks, s => do
    let token := pathToken env k index
    let (key, s) ← encode s k (id ++ ascii "/k/" ++ token)
    let (value, s) ← encode s (obj.rawget k) (id ++ ascii "/v/" ++ token)
    encodeEntries env encode obj id (index + 1) ks (s.appendEntry id (key, value))

/-- `encode_table(value, suggested)`. -/
def encodeTable (env : Env F) (h : Heap F) : Nat → Encoder F Nat
  | 0, _, _, _ => .error .outOfFuel
  | fuel + 1, s, t, suggested =>
    match s.tableIds t with
    | some id => .ok (.table id, s)
    | none =>
      match h.tables[t]? with
      | none => .error .dangling
      | some obj =>
        if obj.hasMeta then
          .error (.raised "sharetable cannot encode a table with a metatable")
        else do
          let id := uniquePath s.allocated suggested
          let keys ← sortKeys env h (obj.entries.map Prod.fst)
          let s ← encodeEntries env (encodeValue env h (encodeTable env h fuel)) obj id 1 keys
            (s.openNode t id obj.length)
          return (.table id, s)

/-- `codec.encode(root)`. -/
def encode (env : Env F) (h : Heap F) (fuel : Nat) (root : Value F) :
    Except Fault (Document F) :=
  match root with
  | .table t => do
    let (root, s) ← encodeTable env h fuel EncState.empty t (ascii "$")
    return { format := 2, root, nodes := s.nodes, functions := s.functions }
  | _ => .error (.raised "sharetable source must return a table")

end Encode

/-! ## Decoding -/

/-- The heap `decode` builds in, and the objects it has made so far. -/
structure DecState (F : Type) where
  heap : Heap F
  tables : Bytes → Option Nat
  functions : Bytes → Option Nat

/-- The state `decode` starts in. -/
def DecState.start (h : Heap F) : DecState F :=
  { heap := h, tables := fun _ => none, functions := fun _ => none }

section Decode

variable [BEq F]

/-- A function object is pushed on the heap. -/
def Heap.newFunction (h : Heap F) (fn : FuncObj) : Nat × Heap F :=
  (h.funcs.length, { h with funcs := h.funcs ++ [fn] })

/-- `codec.unpack_function(kind, encoded)`. -/
def unpackFunction (env : Env F) (h : Heap F) : FuncCode → Except Fault (Nat × Heap F)
  | .c encoded =>
    match unpackPointer encoded with
    | some entry => .ok (h.newFunction { kind := .cfunction entry, upvalues := 0 })
    | none => .error (.raised "invalid C function encoding")
  | .ref reference =>
    match h.resolve reference with
    | .ok f => .ok (f, h)
    | .error message => .error (.raised message)
  | .lua dumped =>
    match env.loadstring dumped with
    | some code => .ok (h.newFunction { kind := .lua code, upvalues := 0 })
    | none => .error (.raised "cannot load shared function")

/-- `decode_function(id)`. -/
def decodeFunction (env : Env F) (doc : Document F) (s : DecState F) (id : Bytes) :
    Except Fault (Value F × DecState F) :=
  match s.functions id with
  | some f => .ok (.func f, s)
  | none =>
    match doc.functions id with
    | none => .error (.raised "invalid shared function")
    | some definition => do
      let (f, heap) ← unpackFunction env s.heap definition
      return (.func f, { s with heap, functions := Function.update s.functions id (some f) })

/-- The type of `decode_value` and `decode_table` for a fixed document. -/
abbrev Decoder (F α : Type) := DecState F → α → Except Fault (Value F × DecState F)

/-- `decode_value(descriptor)`, given `decode_table`. -/
def decodeValue (env : Env F) (doc : Document F) (decodeTable : Decoder F Bytes) :
    Decoder F (Desc F)
  | s, .nil => .ok (.nil, s)
  | s, .number n => .ok (.number n, s)
  | s, .string b => .ok (.string b, s)
  | s, .boolean b => .ok (.boolean b, s)
  | s, .table id => decodeTable s id
  | s, .lightuserdata encoded =>
    match unpackPointer encoded with
    | some p => .ok (.lightuserdata p, s)
    | none => .error (.raised "invalid pointer encoding")
  | s, .func id => decodeFunction env doc s id

/-- `value[key] = item` on the table at index `t`. -/
def Heap.assign (h : Heap F) (t : Nat) (k v : Value F) : Except Fault (Heap F) :=
  match h.tables[t]? with
  | none => .error .dangling
  | some obj =>
    match obj.rawset k v with
    | .error message => .error (.raised message)
    | .ok obj => .ok { h with tables := h.tables.set t obj }

/-- The loop of `decode_table` over a node's entries. -/
def decodeEntries (decode : Decoder F (Desc F)) (t : Nat) :
    List (Desc F × Desc F) → DecState F → Except Fault (DecState F)
  | [], s => .ok s
  | (key, value) :: entries, s => do
    let (k, s) ← decode s key
    let (v, s) ← decode s value
    let heap ← s.heap.assign t k v
    decodeEntries decode t entries { s with heap }

/-- The new empty table `decode_table` registers before it reads the node. -/
def DecState.openTable (s : DecState F) (id : Bytes) : DecState F :=
  { s with
    heap := { s.heap with
      tables := s.heap.tables ++ [{ hasMeta := false, length := 0, entries := [] }] }
    tables := Function.update s.tables id (some s.heap.tables.length) }

/-- `decode_table(id)`. -/
def decodeTable (env : Env F) (doc : Document F) : Nat → Decoder F Bytes
  | 0, _, _ => .error .outOfFuel
  | fuel + 1, s, id =>
    match s.tables id with
    | some t => .ok (.table t, s)
    | none =>
      match doc.nodes id with
      | none => .error (.raised "invalid shared table")
      | some node => do
        let t := s.heap.tables.length
        let s ← decodeEntries (decodeValue env doc (decodeTable env doc fuel)) t node.entries
          (s.openTable id)
        return (.table t, s)

/-- `codec.decode(document)` into the heap `h`. -/
def decode (env : Env F) (h : Heap F) (fuel : Nat) (doc : Document F) :
    Except Fault (Value F × Heap F) :=
  if doc.format ≠ 2 then .error (.raised "invalid LuaJIT sharetable graph") else do
    let (v, s) ← decodeValue env doc (decodeTable env doc fuel) (DecState.start h) doc.root
    return (v, s.heap)

end Decode

end SkynetJit.Sharetable
