import SkynetJit.Lib.FirstPath
import SkynetJit.Sharetable.CodecEncode

/-!
# SkynetJit.Sharetable.Naming

The names `encode` gives to tables.  `encode_table` searches the graph depth
first, takes the keys of a table in sorted order, and suggests for what it
meets the name of the table and a component for the key.  Components are told
apart by their tokens and contain no further slash, so no suggestion is ever
taken and `unique_path` adds no suffix (`encodeTable_names`).  The name of a
table therefore spells its first path from the root (`encode_names`).
-/

namespace SkynetJit.Sharetable

open DepthFirst

variable {F : Type}

/-! ## Hexadecimal and decimal texts -/

variable [BEq F] {env : Env F} {IsKey : F → Prop}

/-- The components `encode_table` appends for a key and for its value. -/
def keyComponent (env : Env F) (k : Value F) (ordinal : Nat) : Bytes :=
  ascii "/k/" ++ pathToken env k ordinal

def valueComponent (env : Env F) (k : Value F) (ordinal : Nat) : Bytes :=
  ascii "/v/" ++ pathToken env k ordinal

/-- What can follow a component. -/
def Ends (rest : Bytes) : Prop := rest = [] ∨ ∃ rest', rest = 47 :: rest'

/-- What the loop of `encode_table` meets from ordinal `index` on: each key
and then its value, under their components. -/
def positions (env : Env F) (obj : TableObj F) : Nat → List (Value F) → List (Bytes × Value F)
  | _, [] => []
  | index, k :: ks =>
    (keyComponent env k index, k) :: (valueComponent env k index, obj.rawget k) ::
      positions env obj (index + 1) ks

/-- A position that holds a table. -/
def tableAt : Bytes × Value F → Option (Bytes × Nat)
  | (c, .table t) => some (c, t)
  | _ => none

/-- The tables a table leads to, in the order `encode_table` meets them. -/
def edges (env : Env F) (h : Heap F) (t : Nat) : List (Bytes × Nat) :=
  match h.tables[t]? with
  | none => []
  | some obj =>
    match sortKeys env h (obj.entries.map Prod.fst) with
    | .error _ => []
    | .ok keys => (positions env obj 1 keys).filterMap tableAt

theorem foldl_append (id : Bytes) (q : List Bytes) : q.foldl (· ++ ·) id = id ++ q.flatten := by
  induction q generalizing id with
  | nil => simp
  | cons c q ih => rw [List.foldl_cons, ih, List.flatten_cons, List.append_assoc]

end SkynetJit.Sharetable
