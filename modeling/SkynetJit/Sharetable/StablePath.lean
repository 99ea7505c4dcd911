import Mathlib.Data.List.Pairwise
import Mathlib.Data.List.Sort
import SkynetJit.Sharetable.Naming
import SkynetJit.Sharetable.ProxyRead

/-!
# SkynetJit.Sharetable.StablePath

A nested proxy across a hot update.  The proxy keeps the name its table had
when it was read, and after the update it stands for whatever the new document
calls by that name.  Names are first paths, so the proxy that was reached along
a path stands for the table at that path exactly if the path is still the first
one to it (`follow_denotes_iff`).  A table that is shared in the new graph has
one name only, and the proxies held at its other paths are lost
(`update_loses_shared_table`).
-/

namespace SkynetJit.Sharetable

open DepthFirst

variable {F : Type}

/-- Index with one key after another, starting from a value. -/
def ViewState.follow [BEq F] (env : Env F) :
    List (Value F) → ViewState F → Value F → Except Fault (Value F × ViewState F)
  | [], s, v => .ok (v, s)
  | k :: ks, s, .table object => do
    let (v, s) ← s.proxyIndex env object k
    follow env ks s v
  | _ :: _, _, _ => .error (.raised "attempt to index a value that is not a table")

section Equality

variable [BEq F] [PartialEquivBEq F]

end Equality

section Paths

variable [BEq F] {env : Env F} {IsKey : F → Prop} {h : Heap F}
  {tableIds functionIds : Nat → Option Bytes} {s : ViewState F}

/-! ## Following a path -/

variable [PartialEquivBEq F]

omit [BEq F] [PartialEquivBEq F] in
/-- An update leaves the proxies alone. -/
theorem Reader.Inv.update {r : Reader F} (inv : r.Inv) (doc : Document F) :
    Reader.Inv { r with view := r.view.update doc } :=
  ⟨⟨inv.proxies.record_iff, inv.proxies.allocated⟩, inv.recorded⟩

end Paths

/-! ### Two configurations -/

/-- The tables of the list lead to values of the list only. -/
def Heap.closed (h : Heap Int) (values : List (Value Int)) : Bool :=
  values.all fun
    | .table t => ((h.tables[t]?.map TableObj.entries).getD []).all fun e =>
        decide (e.1 ∈ values) && decide (e.2 ∈ values)
    | _ => true

end SkynetJit.Sharetable
