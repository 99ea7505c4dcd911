import SkynetJit.Lib.Transition
import SkynetJit.Sharetable.Codec

/-!
# SkynetJit.Sharetable.Protocol

The sharetable service and its clients (`skynet/sharetable.lua`) as a
transition system.  One host keeps the current object of every name and a
list of retired objects; any number of clients call it and wait for the
reply.  Messages to the host and replies to the clients are taken in any
order, which includes the orders the scheduler can produce.

The sharedata core (`host.new`, `host.incref`, `box`, `update`, …) is not
part of the repository.  It is modelled by what the service relies on: a cell
with a reference count behind every object, and boxes that each hold one
reference until they are collected.

Lua's collector is part of the system: a proxy the program no longer holds
may be collected at any time, which clears every weak table it is in, and so
may a box that no document uses.
-/

namespace SkynetJit.Sharetable

/-- The address of an object in the sharedata heap. -/
abbrev Obj := Nat

/-- A document as `codec.encode` writes it: format 2, with a table as its
root.  `install` asserts the first, `encode` its argument the second. -/
structure SharedDocument (F : Type) where
  document : Document F
  rootId : Bytes
  format_eq : document.format = 2
  root_eq : document.root = .table rootId

/-- What the core keeps behind an address. -/
structure Cell (F : Type) where
  ref : Int
  dirty : Bool
  shared : SharedDocument F

/-- A call the program makes: `loadtable`, `loadfile` and `loadstring` (whose
source may fail to load or to encode), `query`, `queryall` and `update`. -/
inductive Call (Name F : Type) where
  | load (name : Name) (document : Option (SharedDocument F))
  | query (name : Name)
  | queryall (names : Option (List Name))
  | update (names : List Name)

/-- What a client does with the answer to a query it is suspended in: return
the boxed object, or update the views of the name and go on with the rest of
`update`'s arguments. -/
inductive Resume (Name : Type) where
  | box
  | update (rest : List Name)
deriving DecidableEq

/-- A message to the host.  `confirm` is sent, the others are called; a call
carries the suspended caller with it, as the session does. -/
inductive Request (Name F : Type) where
  | load (name : Name) (document : Option (SharedDocument F))
  | query (name : Name) (resume : Resume Name)
  | queryall (names : Option (List Name))
  | confirm (object : Obj)

/-- The host's answer to a call. -/
inductive Answer (Name : Type) where
  | loaded
  | failed
  | object (name : Name) (pointer : Option Obj) (resume : Resume Name)
  | objects (pointers : List (Name × Obj))
deriving DecidableEq

/-- A proxy that has not been collected, with its `proxy_record`. -/
structure Proxy where
  id : Nat
  view : Nat
  table : Bytes
deriving DecidableEq

/-- A view of a document.  `origin` is the name it was made for. -/
structure View (Name : Type) where
  origin : Name
  pointer : Obj
  box : Nat

/-- A live box of a client: it holds a reference on its object. -/
structure Box where
  id : Nat
  client : Nat
  object : Obj
deriving DecidableEq

/-- One client: its weak tables (`named` are the names `roots_by_name` has a
table for), the views it made, and the proxies its program holds. -/
structure Client (Name : Type) where
  cache : List (Name × Nat)
  named : List Name
  roots : List (Name × Nat × Nat)
  proxies : List Proxy
  views : Nat → Option (View Name)
  held : List Nat

/-- The whole system. -/
structure World (Name F : Type) where
  files : List (Name × Obj)
  retired : List Obj
  heap : Obj → Option (Cell F)
  boxes : List Box
  clients : Nat → Client Name
  queue : List (Nat × Request Name F)
  replies : List (Nat × Answer Name)
  next : Nat

variable {Name F : Type}

/-- No objects, no clients' tables, no messages. -/
def World.init : World Name F where
  files := []
  retired := []
  heap := fun _ => none
  boxes := []
  clients := fun _ =>
    { cache := [], named := [], roots := [], proxies := [], views := fun _ => none, held := [] }
  queue := []
  replies := []
  next := 0

namespace World

/-! ## The sharedata core -/

/-- `core.host.getref(object)`. -/
def getref (w : World Name F) (o : Obj) : Int :=
  match w.heap o with
  | some cell => cell.ref
  | none => 0

/-- Change the cell of an object. -/
def modifyCell (w : World Name F) (o : Obj) (f : Cell F → Cell F) : World Name F :=
  { w with heap := Function.update w.heap o ((w.heap o).map f) }

/-- `core.host.incref(object)`. -/
def incref (w : World Name F) (o : Obj) : World Name F :=
  w.modifyCell o fun cell => { cell with ref := cell.ref + 1 }

/-- `core.host.decref(object)`. -/
def decref (w : World Name F) (o : Obj) : World Name F :=
  w.modifyCell o fun cell => { cell with ref := cell.ref - 1 }

/-- `core.host.markdirty(object)`. -/
def markdirty (w : World Name F) (o : Obj) : World Name F :=
  w.modifyCell o fun cell => { cell with dirty := true }

/-- `core.host.delete(object)`. -/
def delete (w : World Name F) (o : Obj) : World Name F :=
  { w with heap := Function.update w.heap o none }

/-- A client makes a new box on an object, which takes a reference. -/
def newBox (w : World Name F) (c : Nat) (o : Obj) : Nat × World Name F :=
  (w.next, { w.incref o with boxes := ⟨w.next, c, o⟩ :: w.boxes, next := w.next + 1 })

/-! ## The host -/

/-- `collect_retired()`: from the last retired object to the first. -/
def collectRetired (w : World Name F) : World Name F :=
  w.retired.foldr
    (fun o w => if w.getref o ≤ 0 then w.delete o else { w with retired := o :: w.retired })
    { w with retired := [] }

section Host

variable [DecidableEq Name]

/-- The first part of `install`: a new object becomes the current one of the
name and the old one is retired.  `fresh` is the address `host.new` returns. -/
def supersede (w : World Name F) (fresh : Obj) (name : Name) (document : SharedDocument F) :
    World Name F :=
  let old := w.files.lookup name
  let w := { w with heap := Function.update w.heap fresh (some ⟨0, false, document⟩) }
  let w := w.incref fresh
  let w := { w with files := (name, fresh) :: w.files.filter fun e => e.1 ≠ name }
  match old with
  | some old =>
    let w := (w.markdirty old).decref old
    { w with retired := w.retired ++ [old] }
  | none => w

/-- `install(name, document)`. -/
def install (w : World Name F) (fresh : Obj) (name : Name) (document : SharedDocument F) :
    World Name F :=
  (w.supersede fresh name document).collectRetired

/-- The loop of `command.queryall` over a list of names: a reference for each
occurrence, an entry of the result for each name. -/
def queryNames (w : World Name F) :
    List Name → List (Name × Obj) → List (Name × Obj) × World Name F
  | [], result => (result, w)
  | name :: names, result =>
    match w.files.lookup name with
    | some object =>
      queryNames (w.incref object) names ((name, object) :: result.filter fun e => e.1 ≠ name)
    | none => queryNames w names result

/-- Answer a call of a client. -/
def answer (w : World Name F) (c : Nat) (a : Answer Name) : World Name F :=
  { w with replies := w.replies ++ [(c, a)] }

/-- One message of a client is handled by the host. -/
def handle (w : World Name F) (fresh : Obj) (c : Nat) : Request Name F → World Name F
  | .load name (some document) => (w.install fresh name document).answer c .loaded
  | .load _ none => w.answer c .failed
  | .query name resume =>
    match w.files.lookup name with
    | some object => (w.incref object).answer c (.object name (some object) resume)
    | none => w.answer c (.object name none resume)
  | .queryall names =>
    let (result, w) := w.queryNames (names.getD (w.files.map Prod.fst)) []
    w.answer c (.objects result)
  | .confirm object => (w.decref object).collectRetired

end Host

/-! ## The clients -/

/-- Change the state of one client. -/
def setClient (w : World Name F) (c : Nat) (client : Client Name) : World Name F :=
  { w with clients := Function.update w.clients c client }

/-- A message is sent to the host. -/
def send (w : World Name F) (c : Nat) (request : Request Name F) : World Name F :=
  { w with queue := w.queue ++ [(c, request)] }

/-- The program keeps a proxy it was given. -/
def hold (w : World Name F) (c proxy : Nat) : World Name F :=
  let client := w.clients c
  w.setClient c { client with held := proxy :: client.held }

/-- The record of a proxy that has not been collected. -/
def record (w : World Name F) (c proxy : Nat) : Option Proxy :=
  (w.clients c).proxies.find? fun p => p.id = proxy

/-- `proxy_for(view, id)`: the live proxy of a table, or a new one. -/
def proxyFor (w : World Name F) (c view : Nat) (table : Bytes) : Nat × World Name F :=
  let client := w.clients c
  match client.proxies.find? fun p => p.view = view ∧ p.table = table with
  | some p => (p.id, w)
  | none =>
    let w' := w.setClient c { client with proxies := ⟨w.next, view, table⟩ :: client.proxies }
    (w.next, { w' with next := w.next + 1 })

/-- The view `new_view` makes: the object is boxed and the view recorded. -/
def openView (w : World Name F) (c : Nat) (name : Name) (pointer : Obj) : Nat × World Name F :=
  let (box, w) := w.newBox c pointer
  let client := w.clients c
  let w' := w.setClient c
    { client with views := Function.update client.views w.next (some ⟨name, pointer, box⟩) }
  (w.next, { w' with next := w.next + 1 })

/-- `new_view(pointer)` for a name: the view and the proxy of its root. -/
def newView (w : World Name F) (c : Nat) (name : Name) (pointer : Obj) :
    Nat × Nat × World Name F :=
  let (view, w) := w.openView c name pointer
  let rootId := match w.heap pointer with
    | some cell => cell.shared.rootId
    | none => []
  let (root, w) := w.proxyFor c view rootId
  (root, view, w)

section Clients

variable [DecidableEq Name]

/-- `remember(name, object, view, pointer)`. -/
def remember (w : World Name F) (c : Nat) (name : Name) (object view : Nat) (pointer : Obj) :
    World Name F :=
  let client := w.clients c
  let w := w.setClient c { client with
    named := name :: client.named
    roots := (name, object, view) :: client.roots
    cache := (name, object) :: client.cache.filter fun e => e.1 ≠ name }
  w.send c (.confirm pointer)

/-- The view of the proxy cached for a name. -/
def cachedView (w : World Name F) (c : Nat) (name : Name) : Option (Nat × View Name) := do
  let current ← (w.clients c).cache.lookup name
  let p ← w.record c current
  let view ← (w.clients c).views p.view
  return (current, view)

/-- `box(name, pointer)` for a pointer that is not nil: the cached proxy when
its view is of the same object, else a new view.  The program keeps the
result. -/
def box (w : World Name F) (c : Nat) (name : Name) (pointer : Obj) : World Name F :=
  let fresh :=
    let (object, view, w) := w.newView c name pointer
    (w.remember c name object view pointer).hold c object
  match w.cachedView c name with
  | some (current, view) =>
    if view.pointer = pointer then (w.send c (.confirm pointer)).hold c current else fresh
  | none => fresh

/-- The loop of `sharetable.update` over the registered views of a name. -/
def updateViews (w : World Name F) (c : Nat) (pointer : Obj) :
    List (Name × Nat × Nat) → World Name F
  | [] => w
  | (_, _, view) :: roots =>
    let w := match (w.clients c).views view with
      | some v =>
        if v.pointer = pointer then w else
        let (box, w) := w.newBox c pointer
        let client := w.clients c
        w.setClient c { client with
          views := Function.update client.views view (some { v with pointer, box }) }
      | none => w
    updateViews w c pointer roots

/-- `sharetable.update` from a name on: names without a root table are
skipped, the first other one is queried. -/
def startUpdate (w : World Name F) (c : Nat) : List Name → World Name F
  | [] => w
  | name :: rest =>
    if name ∈ (w.clients c).named then w.send c (.query name (.update rest))
    else startUpdate w c rest

/-- The program makes a call. -/
def startCall (w : World Name F) (c : Nat) : Call Name F → World Name F
  | .load name document => w.send c (.load name document)
  | .query name => w.send c (.query name .box)
  | .queryall names => w.send c (.queryall names)
  | .update names => w.startUpdate c names

/-- A client resumes with the answer to its call. -/
def resume (w : World Name F) (c : Nat) : Answer Name → World Name F
  | .loaded | .failed | .object _ none .box => w
  | .object name (some pointer) .box => w.box c name pointer
  | .object _ none (.update rest) => w.startUpdate c rest
  | .object name (some pointer) (.update rest) =>
    let roots := (w.clients c).roots.filter fun e => e.1 = name
    ((w.updateViews c pointer roots).send c (.confirm pointer)).startUpdate c rest
  | .objects pointers => pointers.foldl (fun w e => w.box c e.1 e.2) w

end Clients

/-! ## Reading and collecting -/

/-- The object a document reads from: the one its box holds. -/
def boxObject (w : World Name F) (box : Nat) : Option Obj :=
  (w.boxes.find? fun b => b.id = box).map Box.object

/-- The object a proxy reads from. -/
def readsFrom (w : World Name F) (c proxy : Nat) : Option Obj := do
  let p ← w.record c proxy
  let view ← (w.clients c).views p.view
  w.boxObject view.box

/-- `node_for(record)`: none when the table is gone after an update. -/
def nodeFor (w : World Name F) (c proxy : Nat) : Option (Node F) := do
  let p ← w.record c proxy
  let cell ← w.heap (← w.readsFrom c proxy)
  cell.shared.document.nodes p.table

/-- The collector reclaims a proxy: it leaves every weak table. -/
def collectProxy (w : World Name F) (c proxy : Nat) : World Name F :=
  let client := w.clients c
  w.setClient c { client with
    proxies := client.proxies.filter fun p => p.id ≠ proxy
    cache := client.cache.filter fun e => e.2 ≠ proxy
    roots := client.roots.filter fun e => e.2.1 ≠ proxy }

/-- A box is in use while a live proxy of its client reads through it. -/
def boxInUse (w : World Name F) (b : Box) : Bool :=
  (w.clients b.client).proxies.any fun p =>
    match (w.clients b.client).views p.view with
    | some view => view.box = b.id
    | none => false

end World

/-! ## The transition system -/

/-- What can happen next.  `host` and `deliver` choose a message; `index`
reads an entry of a held proxy, its key or its value, and keeps the proxy if
it is a table. -/
inductive Action (Name F : Type) where
  | call (client : Nat) (op : Call Name F)
  | host (message : Nat) (fresh : Obj)
  | deliver (reply : Nat)
  | index (client proxy entry : Nat) (key : Bool)
  | drop (client proxy : Nat)
  | collect (client proxy : Nat)
  | collectBox (box : Nat)

/-- One step; `none` when the action is not enabled. -/
def World.step [DecidableEq Name] (w : World Name F) : Action Name F → Option (World Name F)
  | .call c op => some (w.startCall c op)
  | .host message fresh =>
    match w.queue[message]? with
    | some (c, request) =>
      -- the core allocates where nothing is allocated
      if (w.heap fresh).isSome then none else
      some ({ w with queue := w.queue.eraseIdx message }.handle fresh c request)
    | none => none
  | .deliver reply =>
    match w.replies[reply]? with
    | some (c, a) => some ({ w with replies := w.replies.eraseIdx reply }.resume c a)
    | none => none
  | .index c proxy entry key =>
    if proxy ∉ (w.clients c).held then none else
    match w.record c proxy, (w.nodeFor c proxy).bind fun node => node.entries[entry]? with
    | some p, some e =>
      match if key then e.1 else e.2 with
      | .table id =>
        let (nested, w) := w.proxyFor c p.view id
        some (w.hold c nested)
      | _ => some w
    -- the table is gone after an update, or has no such entry
    | _, _ => some w
  | .drop c proxy =>
    let client := w.clients c
    some (w.setClient c { client with held := client.held.filter fun p => p ≠ proxy })
  | .collect c proxy =>
    if proxy ∈ (w.clients c).held then none else some (w.collectProxy c proxy)
  | .collectBox box =>
    match w.boxes.find? fun b => b.id = box with
    | some b =>
      if w.boxInUse b then none else
      some { w.decref b.object with boxes := w.boxes.erase b }
    | none => none

end SkynetJit.Sharetable
