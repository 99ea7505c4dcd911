import SkynetJit.Lib.Bytes

/-!
# SkynetJit.Sharetable.Graph

The Lua object graphs the sharetable codec works on.  Tables and functions
have identity, so a value refers to them by their position in a heap; every
other value is its own identity.  A table keeps its entries in the order
`next` visits them.

`findPath` and `functionReference` are the codec's search for a name of a C
function: a bounded depth-first walk over string keys from `_G`, then from
the loaded modules.
-/

namespace SkynetJit.Sharetable

/-- A Lua value.  `F` is the number type; a BEq instance on it plays Lua's
numeric `==`, so NaN need not equal itself. -/
inductive Value (F : Type) where
  | nil
  | number (n : F)
  | string (s : Bytes)
  | boolean (b : Bool)
  | table (t : Nat)
  | func (f : Nat)
  | lightuserdata (p : UInt64)
  | userdata (u : Nat)
  | thread (t : Nat)
deriving DecidableEq, Repr

variable {F : Type}

namespace Value

/-- The name `type` gives to a value. -/
def typeName : Value F → String
  | .nil => "nil"
  | .number _ => "number"
  | .string _ => "string"
  | .boolean _ => "boolean"
  | .table _ => "table"
  | .func _ => "function"
  | .lightuserdata _ => "userdata"
  | .userdata _ => "userdata"
  | .thread _ => "thread"

/-- Lua's primitive equality: numbers compare numerically, everything else
by identity. -/
def rawEqual [BEq F] : Value F → Value F → Bool
  | .nil, .nil => true
  | .number m, .number n => m == n
  | .string a, .string b => a == b
  | .boolean a, .boolean b => a == b
  | .table a, .table b => a == b
  | .func a, .func b => a == b
  | .lightuserdata a, .lightuserdata b => a == b
  | .userdata a, .userdata b => a == b
  | .thread a, .thread b => a == b
  | _, _ => false

end Value

/-- A table: whether it carries a metatable, the border `rawlen` reports, and
its entries in `next` order. -/
structure TableObj (F : Type) where
  hasMeta : Bool
  length : Nat
  entries : List (Value F × Value F)

namespace TableObj

variable [BEq F]

/-- Raw lookup: the value of the first entry whose key is primitively equal. -/
def rawget (obj : TableObj F) (k : Value F) : Value F :=
  match obj.entries.find? fun e => e.1.rawEqual k with
  | some e => e.2
  | none => .nil

/-- Assignment `t[k] = v` on a table without a metatable: nil and NaN keys are
errors, assigning nil removes the entry. -/
def rawset (obj : TableObj F) (k v : Value F) : Except String (TableObj F) :=
  match k, v with
  | .nil, _ => .error "table index is nil"
  | k, .nil => .ok { obj with entries := obj.entries.filter fun e => !e.1.rawEqual k }
  | k, v =>
    if !k.rawEqual k then .error "table index is NaN"
    else if obj.entries.any fun e => e.1.rawEqual k then
      .ok { obj with entries := obj.entries.map fun e => if e.1.rawEqual k then (e.1, v) else e }
    else
      .ok { obj with entries := obj.entries ++ [(k, v)] }

end TableObj

/-- What a function is made of: Lua bytecode, a C entry point, or a LuaJIT
fast function, which has no reusable entry point. -/
inductive FuncKind where
  | lua (code : Bytes)
  | cfunction (entry : UInt64)
  | fast
deriving DecidableEq, Repr

/-- A function object. -/
structure FuncObj where
  kind : FuncKind
  upvalues : Nat
deriving DecidableEq, Repr

/-- A Lua heap, with the globals table and the value of `package.loaded`. -/
structure Heap (F : Type) where
  tables : List (TableObj F)
  funcs : List FuncObj
  globals : Nat
  loaded : Value F

/-! ## Naming a C function -/

section Paths

variable [BEq F]

/-- Byte-wise string order, the order of `table.sort` on strings. -/
def bytesLe (a b : Bytes) : Bool := decide (a ≤ b)

/-- The string keys of a table, sorted. -/
def TableObj.stringKeys (obj : TableObj F) : List Bytes :=
  (obj.entries.filterMap fun e => match e.1 with
    | .string s => some s
    | _ => none).mergeSort bytesLe

/-- The recursive part of `find_path`.  The first argument is the depth left
(`maximum_depth - depth`); the visited set is threaded through the whole
search. -/
def findPathVisit (h : Heap F) (target : Value F) :
    Nat → Nat → List Bytes → List Nat → Option (List Bytes) × List Nat
  | remaining, container, path, visited =>
    if container ∈ visited then (none, visited) else
    match h.tables[container]? with
    | none => (none, container :: visited)
    | some obj =>
      match obj.stringKeys.find? fun k => (obj.rawget (.string k)).rawEqual target with
      | some k => (some (path ++ [k]), container :: visited)
      | none =>
        match remaining with
        | 0 => (none, container :: visited)
        | remaining + 1 => descend remaining obj path obj.stringKeys (container :: visited)
where
  /-- The second loop of `visit`: try the table-valued children in key order. -/
  descend (remaining : Nat) (obj : TableObj F) (path : List Bytes) :
      List Bytes → List Nat → Option (List Bytes) × List Nat
    | [], visited => (none, visited)
    | k :: ks, visited =>
      match obj.rawget (.string k) with
      | .table child =>
        match findPathVisit h target remaining child (path ++ [k]) visited with
        | (some result, visited) => (some result, visited)
        | (none, visited) => descend remaining obj path ks visited
      | _ => descend remaining obj path ks visited

/-- `find_path(root, target, maximum_depth)`. -/
def findPath (h : Heap F) (root : Nat) (target : Value F) (maximumDepth : Nat) :
    Option (List Bytes) :=
  (findPathVisit h target maximumDepth root [] []).1

/-- How a named C function is written down. -/
inductive Reference where
  | global (path : List Bytes)
  | module (name : Bytes) (path : List Bytes)
deriving DecidableEq, Repr

/-- The table `package.loaded[name]` holds, if it holds one. -/
def Heap.loadedModule (h : Heap F) (name : Bytes) : Option Nat :=
  match h.loaded with
  | .table loaded =>
    match h.tables[loaded]? with
    | some obj =>
      match obj.rawget (.string name) with
      | .table m => some m
      | _ => none
    | none => none
  | _ => none

/-- The names of the loaded modules that are tables, sorted. -/
def Heap.moduleNames (h : Heap F) : List Bytes :=
  match h.loaded with
  | .table loaded =>
    match h.tables[loaded]? with
    | some obj => obj.stringKeys.filter fun name => (h.loadedModule name).isSome
    | none => []
  | _ => []

/-- `function_reference(value)`: a path from `_G`, else from a loaded module. -/
def functionReference (h : Heap F) (f : Nat) : Option Reference :=
  match findPath h h.globals (.func f) 3 with
  | some path => some (.global path)
  | none =>
    h.moduleNames.findSome? fun name =>
      (h.loadedModule name).bind fun m =>
        (findPath h m (.func f) 3).map (.module name)

/-- Follow a path of string keys from a value, as `unpack_function` does: every
component has to be there, and every value but the last has to be a table. -/
def Heap.follow (h : Heap F) : Value F → List Bytes → Except String (Value F)
  | v, [] => .ok v
  | .table t, k :: ks =>
    match h.tables[t]? with
    | some obj =>
      match obj.rawget (.string k) with
      | .nil | .boolean false => .error "shared function reference is unavailable"
      | v => h.follow v ks
    | none => .error "shared function reference is unavailable"
  | _, _ :: _ => .error "attempt to index a value that is not a table"

/-- Resolve a reference to the function it names: `_G` or `require(module)`,
then one index per path component. -/
def Heap.resolve (h : Heap F) (r : Reference) : Except String Nat := do
  let v ← match r with
    | .global path => h.follow (.table h.globals) path
    | .module name path =>
      match h.loadedModule name with
      | some m => h.follow (.table m) path
      | none => .error "module not found"
  match v with
  | .func f => .ok f
  | _ => .error "shared function reference is not callable"

/-! ## A path that is found leads to its target -/

theorem Value.eq_func_of_rawEqual {v : Value F} {f : Nat} (h : v.rawEqual (.func f) = true) :
    v = .func f := by
  cases v <;> simp_all [Value.rawEqual]

/-- One step of `follow` through a table-valued component. -/
theorem Heap.follow_table_cons {h : Heap F} {t child : Nat} {obj : TableObj F} {k : Bytes}
    {ks : List Bytes} (ht : h.tables[t]? = some obj)
    (hk : obj.rawget (.string k) = .table child) :
    h.follow (.table t) (k :: ks) = h.follow (.table child) ks := by
  rw [Heap.follow, ht]
  simp only [hk]

/-- A key the first loop of `visit` accepts leads to the target at once. -/
theorem Heap.follow_of_find {h : Heap F} {t f : Nat} {obj : TableObj F} {k : Bytes}
    (ht : h.tables[t]? = some obj)
    (hk : (obj.stringKeys.find? fun k => (obj.rawget (.string k)).rawEqual (.func f)) = some k) :
    h.follow (.table t) [k] = .ok (.func f) := by
  have hv : obj.rawget (.string k) = .func f :=
    Value.eq_func_of_rawEqual (by simpa using List.find?_some hk)
  simp only [Heap.follow, ht, hv]

/-- What `visit` adds to the path it was given leads from its container to
the target.  The induction is on the depth left; the inner one walks the
children. -/
theorem findPathVisit_sound (h : Heap F) (f : Nat) :
    ∀ (remaining container : Nat) (path : List Bytes) (visited : List Nat) (result : List Bytes),
      (findPathVisit h (.func f) remaining container path visited).1 = some result →
      ∃ suffix, result = path ++ suffix ∧
        h.follow (.table container) suffix = .ok (.func f) := by
  intro remaining
  induction remaining with
  | zero =>
      intro container path visited result hres
      rw [findPathVisit] at hres
      split at hres
      · simp at hres
      · cases ht : h.tables[container]? with
        | none => simp [ht] at hres
        | some obj =>
            simp only [ht] at hres
            cases hk : obj.stringKeys.find? fun k =>
                (obj.rawget (.string k)).rawEqual (.func f) with
            | none => simp [hk] at hres
            | some k =>
                simp only [hk, Option.some.injEq] at hres
                exact ⟨[k], hres.symm, Heap.follow_of_find ht hk⟩
  | succ remaining ih =>
      have hdescend : ∀ (t : Nat) (obj : TableObj F) (path ks : List Bytes) (visited : List Nat)
          (result : List Bytes), h.tables[t]? = some obj →
          (findPathVisit.descend h (.func f) remaining obj path ks visited).1 = some result →
          ∃ suffix, result = path ++ suffix ∧ h.follow (.table t) suffix = .ok (.func f) := by
        intro t obj path ks visited result ht hres
        induction ks generalizing visited with
        | nil => simp [findPathVisit.descend] at hres
        | cons k ks ihk =>
            rw [findPathVisit.descend] at hres
            split at hres
            · rename_i child hchild
              split at hres
              · rename_i found visited' hvisit
                obtain ⟨suffix, hs, hf⟩ :=
                  ih child (path ++ [k]) visited found (by rw [hvisit])
                simp only [Option.some.injEq] at hres
                refine ⟨k :: suffix, ?_, ?_⟩
                · rw [← hres, hs, List.append_assoc]
                  rfl
                · rw [Heap.follow_table_cons ht hchild]
                  exact hf
              · exact ihk _ hres
            · exact ihk _ hres
      intro container path visited result hres
      rw [findPathVisit] at hres
      split at hres
      · simp at hres
      · cases ht : h.tables[container]? with
        | none => simp [ht] at hres
        | some obj =>
            simp only [ht] at hres
            cases hk : obj.stringKeys.find? fun k =>
                (obj.rawget (.string k)).rawEqual (.func f) with
            | none =>
                simp only [hk] at hres
                exact hdescend container obj path _ _ result ht hres
            | some k =>
                simp only [hk, Option.some.injEq] at hres
                exact ⟨[k], hres.symm, Heap.follow_of_find ht hk⟩

theorem findPath_sound {h : Heap F} {root f depth : Nat} {path : List Bytes}
    (hp : findPath h root (.func f) depth = some path) :
    h.follow (.table root) path = .ok (.func f) := by
  obtain ⟨suffix, hs, hf⟩ := findPathVisit_sound h f depth root [] [] path hp
  rw [hs, List.nil_append]
  exact hf

/-- The reference `function_reference` finds resolves to the function. -/
theorem resolve_functionReference {h : Heap F} {f : Nat} {r : Reference}
    (hr : functionReference h f = some r) : h.resolve r = .ok f := by
  rw [functionReference] at hr
  cases hg : findPath h h.globals (.func f) 3 with
  | some path =>
      simp only [hg, Option.some.injEq] at hr
      subst hr
      simp [Heap.resolve, findPath_sound hg, bind, Except.bind]
  | none =>
      simp only [hg] at hr
      obtain ⟨name, -, hname⟩ := List.exists_of_findSome?_eq_some hr
      obtain ⟨m, hm, hpath⟩ := Option.bind_eq_some_iff.mp hname
      obtain ⟨path, hp, rfl⟩ := Option.map_eq_some_iff.mp hpath
      simp [Heap.resolve, hm, findPath_sound hp, bind, Except.bind]

/-! ## Growing heaps

Decoding only adds objects, so what resolves in a heap resolves in the same
way after it has grown. -/

/-- `h'` has the tables and functions of `h` in their places. -/
structure Heap.Grows (h h' : Heap F) : Prop where
  tables : ∀ (t : Nat) (obj : TableObj F), h.tables[t]? = some obj → h'.tables[t]? = some obj
  funcs : ∀ (f : Nat) (obj : FuncObj), h.funcs[f]? = some obj → h'.funcs[f]? = some obj
  globals : h'.globals = h.globals
  loaded : h'.loaded = h.loaded

theorem Heap.Grows.follow {h h' : Heap F} (g : h.Grows h') {v w : Value F} {path : List Bytes}
    (hf : h.follow v path = .ok w) : h'.follow v path = .ok w := by
  induction path generalizing v with
  | nil => simpa [Heap.follow] using hf
  | cons k ks ih =>
      cases v with
      | table t =>
          rw [Heap.follow] at hf ⊢
          cases ht : h.tables[t]? with
          | none => simp [ht] at hf
          | some obj =>
              rw [g.tables t obj ht]
              simp only [ht] at hf
              split at hf <;> simp_all
      | _ => simp [Heap.follow] at hf

theorem Heap.Grows.loadedModule {h h' : Heap F} (g : h.Grows h') {name : Bytes} {m : Nat}
    (hm : h.loadedModule name = some m) : h'.loadedModule name = some m := by
  rw [Heap.loadedModule] at hm ⊢
  rw [g.loaded]
  cases hl : h.loaded with
  | table loaded =>
      simp only [hl] at hm
      cases ht : h.tables[loaded]? with
      | none => simp [ht] at hm
      | some obj =>
          simp only [ht] at hm
          simp only [g.tables loaded obj ht]
          exact hm
  | _ => simp [hl] at hm

theorem Heap.Grows.resolve {h h' : Heap F} (g : h.Grows h') {r : Reference} {f : Nat}
    (hr : h.resolve r = .ok f) : h'.resolve r = .ok f := by
  cases r with
  | global path =>
      simp only [Heap.resolve, g.globals] at hr ⊢
      cases hf : h.follow (.table h.globals) path with
      | error e => simp [hf, bind, Except.bind] at hr
      | ok v =>
          rw [g.follow hf]
          rw [hf] at hr
          exact hr
  | module name path =>
      simp only [Heap.resolve] at hr ⊢
      cases hm : h.loadedModule name with
      | none => simp [hm, bind, Except.bind] at hr
      | some m =>
          rw [g.loadedModule hm]
          simp only [hm] at hr ⊢
          cases hf : h.follow (.table m) path with
          | error e => simp [hf, bind, Except.bind] at hr
          | ok v =>
              rw [g.follow hf]
              rw [hf] at hr
              exact hr

end Paths

end SkynetJit.Sharetable
