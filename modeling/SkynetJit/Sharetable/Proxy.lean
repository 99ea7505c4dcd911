import SkynetJit.Sharetable.Codec

/-!
# SkynetJit.Sharetable.Proxy

Reading a shared document through proxies (`skynet/sharetable.lua`).  A view
keeps a document and two weak caches: one proxy for each table that was read,
one function for each function.  A proxy is an empty table with a metatable;
`proxy_record` says which table of the view it stands for, and every read goes
through the entries of that table's node.

The collector is not part of these functions.  What it can do to a view
between two calls is `collectProxy` and `collectFunction`.
-/

namespace SkynetJit.Sharetable

variable {F : Type}

/-- A view, with the heap of the service that reads it.  `record` is
`proxy_record` for the proxies of this view. -/
structure ViewState (F : Type) where
  heap : Heap F
  document : Document F
  proxies : Bytes → Option Nat
  functions : Bytes → Option Nat
  record : Nat → Option Bytes

namespace ViewState

/-! ## Decoding -/

/-- `proxy_for(view, id)`. -/
def proxyFor (s : ViewState F) (id : Bytes) : Nat × ViewState F :=
  match s.proxies id with
  | some object => (object, s)
  | none =>
    let object := s.heap.tables.length
    (object, { s with
      heap := { s.heap with
        tables := s.heap.tables ++ [{ hasMeta := true, length := 0, entries := [] }] }
      proxies := Function.update s.proxies id (some object)
      record := Function.update s.record object (some id) })

/-- The node a proxy stands for, `node_for(record)`. -/
def nodeFor (s : ViewState F) (id : Bytes) : Except Fault (Node F) :=
  match s.document.nodes id with
  | some node => .ok node
  | none => .error (.raised "shared table no longer exists after update")

section Reads

variable [BEq F]

/-- `decode_function(view, id)`. -/
def decodeFunction (env : Env F) (s : ViewState F) (id : Bytes) :
    Except Fault (Nat × ViewState F) :=
  match s.functions id with
  | some f => .ok (f, s)
  | none =>
    match s.document.functions id with
    | none => .error (.raised "invalid shared function")
    | some definition => do
      let (f, heap) ← unpackFunction env s.heap definition
      return (f, { s with heap, functions := Function.update s.functions id (some f) })

/-- `decode(view, descriptor)`. -/
def decode (env : Env F) (s : ViewState F) : Desc F → Except Fault (Value F × ViewState F)
  | .nil => .ok (.nil, s)
  | .number n => .ok (.number n, s)
  | .string b => .ok (.string b, s)
  | .boolean b => .ok (.boolean b, s)
  | .table id =>
    let (object, s) := s.proxyFor id
    .ok (.table object, s)
  | .lightuserdata encoded =>
    match unpackPointer encoded with
    | some p => .ok (.lightuserdata p, s)
    | none => .error (.raised "invalid pointer encoding")
  | .func id => do
    let (f, s) ← s.decodeFunction env id
    return (.func f, s)

/-- `descriptor_matches(view, descriptor, key)`. -/
def descriptorMatches (env : Env F) (s : ViewState F) (d : Desc F) (key : Value F) :
    Except Fault (Bool × ViewState F) :=
  match d with
  | .number n =>
    match key with
    | .number m => .ok (m == n, s)
    | _ => .ok (false, s)
  | .string b =>
    match key with
    | .string a => .ok (a == b, s)
    | _ => .ok (false, s)
  | .boolean b =>
    match key with
    | .boolean a => .ok (a == b, s)
    | _ => .ok (false, s)
  | .table id =>
    match key with
    | .table object => .ok (s.record object == some id, s)
    | _ => .ok (false, s)
  | .func id =>
    match key with
    | .func g => do
      let (f, s) ← s.decodeFunction env id
      return (f == g, s)
    | _ => .ok (false, s)
  | .lightuserdata encoded => .ok (pointerEncoding key == some encoded, s)
  | .nil => .ok (false, s)

/-! ## Indexing and traversal -/

/-- The loop of `find_entry` from `index` on: the first entry whose key
matches, with its position. -/
def findFrom (env : Env F) (key : Value F) : Nat → List (Desc F × Desc F) → ViewState F →
    Except Fault (Option ((Desc F × Desc F) × Nat) × ViewState F)
  | _, [], s => .ok (none, s)
  | index, entry :: entries, s => do
    let (found, s) ← s.descriptorMatches env entry.1 key
    if found then return (some (entry, index), s) else findFrom env key (index + 1) entries s

/-- `find_entry(record, key)`. -/
def findEntry (env : Env F) (s : ViewState F) (id : Bytes) (key : Value F) :
    Except Fault (Option ((Desc F × Desc F) × Nat) × ViewState F) := do
  let node ← s.nodeFor id
  findFrom env key 0 node.entries s

/-- `proxy_index(object, key)`. -/
def proxyIndex (env : Env F) (s : ViewState F) (object : Nat) (key : Value F) :
    Except Fault (Value F × ViewState F) :=
  match s.record object with
  | none => .error (.raised "invalid shared table proxy")
  | some id => do
    let (found, s) ← s.findEntry env id key
    match found with
    | some (entry, _) => s.decode env entry.2
    | none => return (.nil, s)

/-- The entry `proxy_next` stops at, decoded: key first. -/
def decodeEntry (env : Env F) (s : ViewState F) :
    Option (Desc F × Desc F) → Except Fault ((Value F × Value F) × ViewState F)
  | some entry => do
    let (k, s) ← s.decode env entry.1
    let (v, s) ← s.decode env entry.2
    return ((k, v), s)
  | none => .ok ((.nil, .nil), s)

/-- `proxy_next(object, key)`. -/
def proxyNext (env : Env F) (s : ViewState F) (object : Nat) (key : Value F) :
    Except Fault ((Value F × Value F) × ViewState F) :=
  match s.record object with
  | none => .error (.raised "invalid shared table proxy")
  | some id => do
    let node ← s.nodeFor id
    match key with
    | .nil => s.decodeEntry env node.entries[0]?
    | key => do
      let (found, s) ← s.findEntry env id key
      match found with
      | some (_, index) => s.decodeEntry env node.entries[index + 1]?
      | none => .error (.raised "invalid key to 'next'")

/-- `proxy_ipairs_iterator(object, index)`: none when the iteration ends. -/
def proxyIpairsIterator [NatCast F] (env : Env F) (s : ViewState F) (object index : Nat) :
    Except Fault (Option (Nat × Value F) × ViewState F) := do
  let (value, s) ← s.proxyIndex env object (.number ((index + 1 : Nat) : F))
  match value with
  | .nil => return (none, s)
  | value => return (some (index + 1, value), s)

/-- `proxy_length(object)`. -/
def proxyLength (s : ViewState F) (object : Nat) : Except Fault Nat :=
  match s.record object with
  | none => .error (.raised "assertion failed!")
  | some id => do
    let node ← s.nodeFor id
    return node.length

/-- The entries a `for` loop over `pairs(object)` is given, from a key on.
The loop calls `next` until it returns nil; `rounds` bounds the calls. -/
def traverse (env : Env F) (object : Nat) : Nat → ViewState F → Value F →
    Except Fault (List (Value F × Value F) × ViewState F)
  | 0, _, _ => .error .outOfFuel
  | rounds + 1, s, key => do
    let (entry, s) ← s.proxyNext env object key
    match entry.1 with
    | .nil => return ([], s)
    | next => do
      let (entries, s) ← traverse env object rounds s next
      return (entry :: entries, s)

/-! ## Views -/

/-- `new_view(pointer)` for the document behind the pointer. -/
def newView (env : Env F) (h : Heap F) (doc : Document F) :
    Except Fault (Value F × ViewState F) :=
  if doc.format ≠ 2 then .error (.raised "unsupported shared graph format") else do
    let (root, s) ← decode env
      { heap := h, document := doc, proxies := fun _ => none, functions := fun _ => none
        record := fun _ => none } doc.root
    match root with
    | .table object => return (.table object, s)
    | _ => .error (.raised "assertion failed!")

/-- What `sharetable.update` does to a view: the document is replaced and the
functions are forgotten; the proxies stay. -/
def update (s : ViewState F) (doc : Document F) : ViewState F :=
  { s with document := doc, functions := fun _ => none }

end Reads

/-- The collector reclaims the proxy of a table: it leaves both weak tables. -/
def collectProxy (s : ViewState F) (id : Bytes) : ViewState F :=
  match s.proxies id with
  | some object => { s with
      proxies := Function.update s.proxies id none
      record := Function.update s.record object none }
  | none => s

/-- The collector reclaims a function the view has decoded. -/
def collectFunction (s : ViewState F) (id : Bytes) : ViewState F :=
  { s with functions := Function.update s.functions id none }

end ViewState

/-! ## Copying -/

/-- A view in the middle of `sharetable.copy`, with the tables made for the
proxies met so far. -/
structure CopyState (F : Type) where
  view : ViewState F
  copies : Nat → Option Nat

namespace CopyState

/-- The new empty table of a proxy is made and registered. -/
def openCopy (s : CopyState F) (object : Nat) : CopyState F :=
  { view := { s.view with
      heap := { s.view.heap with
        tables := s.view.heap.tables ++ [{ hasMeta := false, length := 0, entries := [] }] } }
    copies := Function.update s.copies object (some s.view.heap.tables.length) }

variable [BEq F]

/-- The loop of `copy_proxy`, given `copy_proxy`: from a key on, the copies of
the entries are assigned to `result`. -/
def copyLoop (env : Env F)
    (copy : CopyState F → Value F → Except Fault (Value F × CopyState F)) (object result : Nat) :
    Nat → CopyState F → Value F → Except Fault (CopyState F)
  | 0, _, _ => .error .outOfFuel
  | rounds + 1, s, key => do
    let (entry, view) ← s.view.proxyNext env object key
    match entry.1 with
    | .nil => return { s with view }
    | next => do
      let (k, s) ← copy { s with view } next
      let (v, s) ← copy s entry.2
      let heap ← s.view.heap.assign result k v
      copyLoop env copy object result rounds { s with view := { s.view with heap } } next

/-- `copy_proxy(value, copies)`. -/
def copyProxy (env : Env F) (rounds : Nat) :
    Nat → CopyState F → Value F → Except Fault (Value F × CopyState F)
  | 0, _, _ => .error .outOfFuel
  | fuel + 1, s, value =>
    match value with
    | .table object =>
      match s.view.record object with
      | none => .ok (.table object, s)
      | some _ =>
        match s.copies object with
        | some result => .ok (.table result, s)
        | none => do
          let result := s.view.heap.tables.length
          let s ← copyLoop env (copyProxy env rounds fuel) object result rounds
            (s.openCopy object) .nil
          return (.table result, s)
    | value => .ok (value, s)

end CopyState

/-- `sharetable.copy(value)`: the copy and the heap it is in. -/
def ViewState.copy [BEq F] (env : Env F) (rounds fuel : Nat) (s : ViewState F) (value : Value F) :
    Except Fault (Value F × Heap F) :=
  match value with
  | .table object =>
    if (s.record object).isSome then do
      let (result, s) ← CopyState.copyProxy env rounds fuel { view := s, copies := fun _ => none }
        (.table object)
      return (result, s.view.heap)
    else .error (.raised "shared table proxy expected")
  | _ => .error (.raised "shared table proxy expected")

end SkynetJit.Sharetable
