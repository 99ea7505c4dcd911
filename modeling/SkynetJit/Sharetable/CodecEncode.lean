import SkynetJit.Sharetable.Codec
import Mathlib.Data.List.Perm.Subperm
import Mathlib.Data.List.Forall2

/-!
# SkynetJit.Sharetable.CodecEncode

What `encode` writes.  A document *describes* a part of a heap when every
table and function of that part has a name of its own, the node under a
table's name lists the descriptors of the table's entries, and the code
under a function's name is the function's encoding (`Describes`).  The main
result, `encodeTable_describes`, is that on a graph of shareable values
`encode_table` succeeds and describes everything reachable from its root.

The walk is followed by an invariant on its state (`EncInv`), an order that
says what a call may change (`EncLe`), and a count of the tables that have no
name yet, which bounds the recursion.
-/

namespace SkynetJit.Sharetable

variable {F : Type}

/-! ## The graphs that can be shared -/

/-- The values that can be reached from `root` through keys and values. -/
inductive Reach (h : Heap F) (root : Value F) : Value F → Prop where
  | root : Reach h root root
  | key {t : Nat} {obj : TableObj F} {e : Value F × Value F} :
      Reach h root (.table t) → h.tables[t]? = some obj → e ∈ obj.entries → Reach h root e.1
  | value {t : Nat} {obj : TableObj F} {e : Value F × Value F} :
      Reach h root (.table t) → h.tables[t]? = some obj → e ∈ obj.entries → Reach h root e.2

section Domain

variable [BEq F]

/-- What holds of the entries of every Lua table: no nil, no NaN key, and no
two entries with equal keys. -/
structure TableObj.WellFormed (obj : TableObj F) : Prop where
  key_ne_nil : ∀ e ∈ obj.entries, e.1 ≠ .nil
  value_ne_nil : ∀ e ∈ obj.entries, e.2 ≠ .nil
  key_refl : ∀ e ∈ obj.entries, e.1.rawEqual e.1 = true
  distinct : obj.entries.Pairwise fun a b =>
    a.1.rawEqual b.1 = false ∧ b.1.rawEqual a.1 = false

/-- The values the codec supports: scalars, light userdata, tables without a
metatable, and functions without upvalues.  A LuaJIT fast function has no
entry point to pack, so it needs a name. -/
def Shareable (h : Heap F) : Value F → Prop
  | .number _ | .string _ | .boolean _ | .lightuserdata _ => True
  | .table t => ∃ obj, h.tables[t]? = some obj ∧ obj.hasMeta = false ∧ obj.WellFormed
  | .func f => ∃ fn, h.funcs[f]? = some fn ∧ fn.upvalues = 0 ∧
      (fn.kind = .fast → (functionReference h f).isSome)
  | _ => False

/-- Every value reachable from `root` is supported. -/
def ShareableGraph (h : Heap F) (root : Value F) : Prop :=
  ∀ v, Reach h root v → Shareable h v

/-- Reading back the key of an entry gives the entry's value. -/
theorem TableObj.WellFormed.rawget_eq {obj : TableObj F} (wf : obj.WellFormed)
    {e : Value F × Value F} (he : e ∈ obj.entries) : obj.rawget e.1 = e.2 := by
  obtain ⟨before, after, hsplit⟩ := List.append_of_mem he
  have hbefore : ∀ a ∈ before, a.1.rawEqual e.1 = false := by
    intro a ha
    have hpair := wf.distinct
    rw [hsplit, List.pairwise_append] at hpair
    exact (hpair.2.2 a ha e (by simp)).1
  have hfind : (obj.entries.find? fun a => a.1.rawEqual e.1) = some e := by
    rw [hsplit, List.find?_append, List.find?_eq_none.mpr (by simpa using hbefore)]
    simp [wf.key_refl e he]
  rw [TableObj.rawget, hfind]

end Domain

/-! ## Fresh names -/

/-- The `n`-th path `unique_path` tries; the first is the suggestion itself. -/
def candidate (suggested : Bytes) (n : Nat) : Bytes :=
  if n = 1 then suggested else suggested ++ ascii "#" ++ natDec n

theorem candidate_injective (suggested : Bytes) {m n : Nat}
    (h : candidate suggested m = candidate suggested n) : m = n := by
  have hne : ∀ k, suggested ≠ suggested ++ ascii "#" ++ natDec k := by
    intro k hk
    have hlen := congrArg List.length hk
    simp [ascii] at hlen
  rw [candidate, candidate] at h
  split at h <;> split at h
  · omega
  · exact absurd h (hne n)
  · exact absurd h.symm (hne m)
  · exact natDec_injective (List.append_cancel_left h)

/-- A path the loop gives up on is taken, and so are all it tried before. -/
theorem candidate_mem_of_uniquePathLoop_mem (allocated : List Bytes) (suggested : Bytes) :
    ∀ (fuel n : Nat), 0 < n →
      uniquePathLoop allocated suggested fuel n (candidate suggested n) ∈ allocated →
      ∀ i ≤ fuel, candidate suggested (n + i) ∈ allocated := by
  intro fuel
  induction fuel with
  | zero =>
      intro n _ hmem i hi
      obtain rfl : i = 0 := by omega
      simpa [uniquePathLoop] using hmem
  | succ fuel ih =>
      intro n hn hmem i hi
      rw [uniquePathLoop] at hmem
      split at hmem
      · rename_i htaken
        have hnext : suggested ++ ascii "#" ++ natDec (n + 1) = candidate suggested (n + 1) := by
          rw [candidate, if_neg (by omega)]
        rw [hnext] at hmem
        cases i with
        | zero => exact htaken
        | succ i =>
            have := ih (n + 1) (by omega) hmem i (by omega)
            rwa [show n + (i + 1) = n + 1 + i by omega]
      · rename_i hfree
        exact absurd hmem hfree

/-- `unique_path` returns a path that is not taken: it would have to find
more taken candidates than there are taken paths. -/
theorem uniquePath_not_mem (allocated : List Bytes) (suggested : Bytes) :
    uniquePath allocated suggested ∉ allocated := by
  intro hmem
  have hall := candidate_mem_of_uniquePathLoop_mem allocated suggested allocated.length 1
    (by omega) (by simpa [uniquePath, candidate] using hmem)
  let tried := (List.range (allocated.length + 1)).map fun i => candidate suggested (1 + i)
  have hnodup : tried.Nodup := by
    refine List.Nodup.map_on ?_ List.nodup_range
    intro i _ j _ hij
    have := candidate_injective suggested hij
    omega
  have hsub : tried ⊆ allocated := by
    intro path hpath
    obtain ⟨i, hi, rfl⟩ := List.mem_map.mp hpath
    exact hall i (by have := List.mem_range.mp hi; omega)
  have hlen := (List.subperm_of_subset hnodup hsub).length_le
  simp only [tried, List.length_map, List.length_range] at hlen
  omega

/-- After a fresh name is given out, a name belongs to the new owner or is an
old one. -/
theorem naming_update_cases {ids : Nat → Option Bytes} {id : Bytes} (x : Nat)
    (hfresh : ∀ y i, ids y = some i → i ≠ id) (y : Nat) (i : Bytes)
    (hy : Function.update ids x (some id) y = some i) :
    (y = x ∧ i = id) ∨ (ids y = some i ∧ i ≠ id) := by
  by_cases hyx : y = x
  · subst hyx
    rw [Function.update_self] at hy
    exact .inl ⟨rfl, (Option.some.inj hy).symm⟩
  · rw [Function.update_of_ne hyx] at hy
    exact .inr ⟨hy, hfresh y i hy⟩

/-- Names stay unique when a fresh one is given out. -/
theorem naming_update_inj {ids ids' : Nat → Option Bytes} {id : Bytes} {x : Nat}
    (hinj : ∀ y z i, ids y = some i → ids z = some i → y = z)
    (hcases : ∀ y i, ids' y = some i → (y = x ∧ i = id) ∨ (ids y = some i ∧ i ≠ id))
    (y z : Nat) (i : Bytes) (hy : ids' y = some i) (hz : ids' z = some i) : y = z := by
  obtain ⟨rfl, rfl⟩ | ⟨hy, hne⟩ := hcases y i hy
  · obtain ⟨rfl, -⟩ | ⟨-, hne⟩ := hcases z i hz
    · rfl
    · exact absurd rfl hne
  · obtain ⟨-, he⟩ | ⟨hz, -⟩ := hcases z i hz
    · exact absurd he hne
    · exact hinj y z i hy hz

/-! ## What a document says about a heap -/

/-- The descriptor of a value under a naming of tables and functions. -/
def descOf (tableIds functionIds : Nat → Option Bytes) :
    Value F → Option (Desc F)
  | .nil => some .nil
  | .number n => some (.number n)
  | .string s => some (.string s)
  | .boolean b => some (.boolean b)
  | .table t => (tableIds t).map .table
  | .func f => (functionIds f).map .func
  | .lightuserdata p => some (.lightuserdata (packPointer p))
  | .userdata _ | .thread _ => none

/-- The node under the name of `t` lists the descriptors of its entries, in
some order. -/
def Described [BEq F] (h : Heap F) (nodes : Bytes → Option (Node F))
    (tableIds functionIds : Nat → Option Bytes) (t : Nat) : Prop :=
  ∃ id node obj entries, tableIds t = some id ∧ nodes id = some node ∧
    h.tables[t]? = some obj ∧ obj.WellFormed ∧ entries.Perm obj.entries ∧
    List.Forall₂ (fun (e : Value F × Value F) (d : Desc F × Desc F) =>
      descOf tableIds functionIds e.1 = some d.1 ∧
      descOf tableIds functionIds e.2 = some d.2) entries node.entries

/-- A document describes the part of a heap that has names in it. -/
structure Describes [BEq F] (env : Env F) (h : Heap F) (doc : Document F)
    (tableIds functionIds : Nat → Option Bytes) : Prop where
  table_inj : ∀ t t' id, tableIds t = some id → tableIds t' = some id → t = t'
  func_inj : ∀ f f' id, functionIds f = some id → functionIds f' = some id → f = f'
  node : ∀ t, (tableIds t).isSome → Described h doc.nodes tableIds functionIds t
  code : ∀ f id, functionIds f = some id →
    ∃ code, functionEncoding env h f = .ok code ∧ doc.functions id = some code

/-! ## The state of the walk -/

/-- The descriptor of a value in the current state. -/
abbrev EncState.desc (s : EncState F) : Value F → Option (Desc F) :=
  descOf s.tableIds s.functionIds

/-- The invariant of the walk: names are unique and recorded. -/
structure EncInv [BEq F] (env : Env F) (h : Heap F) (s : EncState F) : Prop where
  table_mem : ∀ t id, s.tableIds t = some id → id ∈ s.allocated
  func_mem : ∀ f id, s.functionIds f = some id → id ∈ s.allocated
  table_inj : ∀ t t' id, s.tableIds t = some id → s.tableIds t' = some id → t = t'
  func_inj : ∀ f f' id, s.functionIds f = some id → s.functionIds f' = some id → f = f'
  code : ∀ f id, s.functionIds f = some id →
    ∃ code, functionEncoding env h f = .ok code ∧ s.functions id = some code

/-- What a call may change: it adds names and nodes and touches no node that
was there before, except the one that is open. -/
structure EncLe (hole : Option Bytes) (s s' : EncState F) : Prop where
  table : ∀ t id, s.tableIds t = some id → s'.tableIds t = some id
  func : ∀ f id, s.functionIds f = some id → s'.functionIds f = some id
  allocated : s.allocated ⊆ s'.allocated
  nodes : ∀ id ∈ s.allocated, some id ≠ hole → s'.nodes id = s.nodes id

namespace EncLe

theorem refl (hole : Option Bytes) (s : EncState F) : EncLe hole s s :=
  ⟨fun _ _ h => h, fun _ _ h => h, fun _ h => h, fun _ _ _ => rfl⟩

theorem trans {hole : Option Bytes} {s₁ s₂ s₃ : EncState F} (h₁ : EncLe hole s₁ s₂)
    (h₂ : EncLe hole s₂ s₃) : EncLe hole s₁ s₃ where
  table t id h := h₂.table t id (h₁.table t id h)
  func f id h := h₂.func f id (h₁.func f id h)
  allocated := fun _ h => h₂.allocated (h₁.allocated h)
  nodes id hid hne := (h₂.nodes id (h₁.allocated hid) hne).trans (h₁.nodes id hid hne)

theorem weaken {hole : Option Bytes} {s s' : EncState F} (h : EncLe none s s') :
    EncLe hole s s' :=
  ⟨h.table, h.func, h.allocated, fun id hid _ => h.nodes id hid (by simp)⟩

/-- Descriptors stay what they are. -/
theorem desc {hole : Option Bytes} {s s' : EncState F} (h : EncLe hole s s')
    {v : Value F} {d : Desc F} (hd : s.desc v = some d) : s'.desc v = some d := by
  cases v with
  | table t =>
      obtain ⟨id, hid, rfl⟩ := Option.map_eq_some_iff.mp hd
      simp [EncState.desc, descOf, h.table t id hid]
  | func f =>
      obtain ⟨id, hid, rfl⟩ := Option.map_eq_some_iff.mp hd
      simp [EncState.desc, descOf, h.func f id hid]
  | _ => exact hd

/-- A described table stays described, unless its node is the open one. -/
theorem described [BEq F] {env : Env F} {h : Heap F} {hole : Option Bytes} {s s' : EncState F}
    (hle : EncLe hole s s') (inv : EncInv env h s) {t : Nat} (ht : s.tableIds t ≠ hole)
    (hd : Described h s.nodes s.tableIds s.functionIds t) :
    Described h s'.nodes s'.tableIds s'.functionIds t := by
  obtain ⟨id, node, obj, entries, hid, hnode, hobj, wf, hperm, hall⟩ := hd
  refine ⟨id, node, obj, entries, hle.table t id hid, ?_, hobj, wf, hperm, ?_⟩
  · rw [hle.nodes id (inv.table_mem t id hid) (hid ▸ ht)]
    exact hnode
  · exact hall.imp fun _ _ hed => ⟨hle.desc hed.1, hle.desc hed.2⟩

end EncLe

theorem EncLe.openNode {s : EncState F} {t : Nat} {id : Bytes} {n : Nat}
    (hnone : s.tableIds t = none) (hfresh : id ∉ s.allocated) :
    EncLe none s (s.openNode t id n) := by
  refine ⟨?_, fun _ _ h => h, fun _ hx => List.mem_cons_of_mem _ hx, ?_⟩
  · intro t' i ht'
    have hne : t' ≠ t := by rintro rfl; simp [hnone] at ht'
    exact (Function.update_of_ne hne ..).trans ht'
  · intro i hi _
    have hne : i ≠ id := by rintro rfl; exact hfresh hi
    exact Function.update_of_ne hne ..

theorem EncLe.appendEntry (s : EncState F) (id : Bytes) (entry : Desc F × Desc F) :
    EncLe (some id) s (s.appendEntry id entry) := by
  refine ⟨fun _ _ h => h, fun _ _ h => h, fun _ h => h, fun i _ hne => ?_⟩
  exact Function.update_of_ne (fun he => hne (congrArg some he)) ..

/-! ## The bound on the recursion -/

/-- The number of tables without a name. -/
def EncState.unnamed (h : Heap F) (s : EncState F) : Nat :=
  (List.range h.tables.length).countP fun t => (s.tableIds t).isNone

theorem EncLe.unnamed_le {h : Heap F} {hole : Option Bytes} {s s' : EncState F}
    (hle : EncLe hole s s') : s'.unnamed h ≤ s.unnamed h := by
  refine List.countP_mono_left fun t _ ht => ?_
  cases hs : s.tableIds t with
  | none => rfl
  | some id => simp [hle.table t id hs] at ht

theorem unnamed_openNode_lt {h : Heap F} {s : EncState F} {t : Nat} {id : Bytes} {n : Nat}
    (ht : t < h.tables.length) (hnone : s.tableIds t = none) :
    (s.openNode t id n).unnamed h < s.unnamed h := by
  have hsplit : (List.range h.tables.length).Perm (t :: (List.range h.tables.length).erase t) :=
    List.perm_cons_erase (List.mem_range.mpr ht)
  rw [EncState.unnamed, EncState.unnamed, hsplit.countP_eq, hsplit.countP_eq,
    List.countP_cons, List.countP_cons]
  have hle : ((List.range h.tables.length).erase t).countP
      (fun t' => ((s.openNode t id n).tableIds t').isNone) ≤
      ((List.range h.tables.length).erase t).countP fun t' => (s.tableIds t').isNone := by
    refine List.countP_mono_left fun t' _ ht' => ?_
    by_cases heq : t' = t
    · simp [heq, EncState.openNode] at ht'
    · simpa [EncState.openNode, Function.update_of_ne heq] using ht'
  simp only [EncState.openNode, Function.update_self, hnone] at hle ⊢
  simp only [Option.isNone_some, Option.isNone_none, Bool.false_eq_true, if_false, if_true]
  omega

/-! ## One spec for each function of the encoder -/

section Spec

variable [BEq F]

/-- A call of `encode_value` or `encode_table` at a value: it succeeds with
the value's descriptor, keeps the invariant, and describes every table it
names. -/
def EncOk (env : Env F) (h : Heap F) (s : EncState F) (v : Value F)
    (result : Except Fault (Desc F × EncState F)) : Prop :=
  ∃ d s', result = .ok (d, s') ∧ EncInv env h s' ∧ EncLe none s s' ∧ s'.desc v = some d ∧
    ∀ t, (s'.tableIds t).isSome → (s.tableIds t).isSome ∨
      Described h s'.nodes s'.tableIds s'.functionIds t

/-- A call that leaves the state alone. -/
theorem EncOk.of_same {env : Env F} {h : Heap F} {s : EncState F} {v : Value F} {d : Desc F}
    (inv : EncInv env h s) (hd : s.desc v = some d) : EncOk env h s v (.ok (d, s)) :=
  ⟨d, s, rfl, inv, EncLe.refl none s, hd, fun _ ht => .inl ht⟩

/-- A supported function has an encoding. -/
theorem functionEncoding_ok (env : Env F) {h : Heap F} {f : Nat} (hf : Shareable h (.func f)) :
    ∃ code, functionEncoding env h f = .ok code := by
  obtain ⟨fn, hfn, hup, hfast⟩ := hf
  rw [functionEncoding, hfn]
  simp only [hup, ne_eq, not_true_eq_false, if_false]
  cases hk : fn.kind with
  | lua code => exact ⟨_, rfl⟩
  | cfunction entry =>
      cases hr : functionReference h f with
      | some r => exact ⟨_, rfl⟩
      | none => exact ⟨_, rfl⟩
  | fast =>
      obtain ⟨r, hr⟩ := Option.isSome_iff_exists.mp (hfast hk)
      simp only [hr]
      exact ⟨_, rfl⟩

theorem encodeFunction_ok {env : Env F} {h : Heap F} {s : EncState F} {f : Nat}
    (suggested : Bytes) (hf : Shareable h (.func f)) (inv : EncInv env h s) :
    EncOk env h s (.func f) (encodeFunction env h s f suggested) := by
  cases hs : s.functionIds f with
  | some id =>
      simp only [encodeFunction, hs]
      exact EncOk.of_same inv (by simp [EncState.desc, descOf, hs])
  | none =>
      obtain ⟨code, hcode⟩ := functionEncoding_ok env hf
      have hfresh := uniquePath_not_mem s.allocated suggested
      simp only [encodeFunction, hs, hcode, bind, Except.bind, pure, Except.pure]
      generalize uniquePath s.allocated suggested = id at hfresh
      refine ⟨_, _, rfl, ?_, ?_, ?_, ?_⟩
      · -- the new name differs from every old one, so names stay unique
        have hupd := naming_update_cases f fun g i hg (he : i = id) =>
          hfresh (he ▸ inv.func_mem g i hg)
        constructor
        · intro t i ht
          exact List.mem_cons_of_mem _ (inv.table_mem t i ht)
        · intro g i hg
          obtain ⟨-, rfl⟩ | ⟨hg, -⟩ := hupd g i hg
          · exact List.mem_cons_self
          · exact List.mem_cons_of_mem _ (inv.func_mem g i hg)
        · exact inv.table_inj
        · exact naming_update_inj inv.func_inj hupd
        · intro g i hg
          obtain ⟨rfl, rfl⟩ | ⟨hg, hne⟩ := hupd g i hg
          · exact ⟨code, hcode, Function.update_self ..⟩
          · obtain ⟨c, hc, hs'⟩ := inv.code g i hg
            exact ⟨c, hc, (Function.update_of_ne hne ..).trans hs'⟩
      · refine ⟨fun _ _ ht => ht, ?_, fun _ hx => List.mem_cons_of_mem _ hx, fun _ _ _ => rfl⟩
        intro g i hg
        have hgf : g ≠ f := by rintro rfl; simp [hs] at hg
        simpa [Function.update_of_ne hgf] using hg
      · simp [EncState.desc, descOf]
      · exact fun t ht => .inl ht

/-- `encode_value` meets its spec wherever `encode_table` does. -/
theorem encodeValue_ok {env : Env F} {h : Heap F} {s : EncState F} {v : Value F}
    {encodeTable : Encoder F Nat} (suggested : Bytes) (hv : Shareable h v)
    (inv : EncInv env h s)
    (htable : ∀ t, v = .table t → EncOk env h s (.table t) (encodeTable s t suggested)) :
    EncOk env h s v (encodeValue env h encodeTable s v suggested) := by
  cases v with
  | table t => exact htable t rfl
  | func f => exact encodeFunction_ok suggested hv inv
  | number n => exact EncOk.of_same inv rfl
  | string b => exact EncOk.of_same inv rfl
  | boolean b => exact EncOk.of_same inv rfl
  | lightuserdata p => exact EncOk.of_same inv rfl
  | nil => exact hv.elim
  | userdata u => exact hv.elim
  | thread t => exact hv.elim

/-- Supported keys can be ordered. -/
theorem keyOrder_ok (env : Env F) {h : Heap F} {k : Value F} (hk : Shareable h k) :
    ∃ order, keyOrder env h k = .ok order := by
  cases k with
  | func f =>
      obtain ⟨code, hcode⟩ := functionEncoding_ok env hk
      simp only [keyOrder, hcode, bind, Except.bind]
      rcases code with _ | (_ | _) | _ <;> exact ⟨_, rfl⟩
  | nil => exact hk.elim
  | userdata u => exact hk.elim
  | thread t => exact hk.elim
  | _ => exact ⟨_, rfl⟩

theorem keyed_ok (env : Env F) {h : Heap F} {keys : List (Value F)}
    (hkeys : ∀ k ∈ keys, Shareable h k) :
    ∃ keyed, (keys.mapM fun k => return (← keyOrder env h k, k)) = Except.ok (ε := Fault) keyed ∧
      keyed.map Prod.snd = keys := by
  induction keys with
  | nil => exact ⟨[], rfl, rfl⟩
  | cons k keys ih =>
      obtain ⟨order, horder⟩ := keyOrder_ok env (hkeys k (by simp))
      obtain ⟨keyed, hkeyed, hmap⟩ := ih fun k' hk' => hkeys k' (by simp [hk'])
      refine ⟨(order, k) :: keyed, ?_, by rw [List.map_cons, hmap]⟩
      simp only [bind, Except.bind, pure, Except.pure] at hkeyed
      simp only [List.mapM_cons, horder, bind, Except.bind, pure, Except.pure, hkeyed]

/-- Sorting succeeds on supported keys and permutes them. -/
theorem sortKeys_ok {env : Env F} (henv : env.Lawful) {h : Heap F} {keys : List (Value F)}
    (hkeys : ∀ k ∈ keys, Shareable h k) :
    ∃ sorted, sortKeys env h keys = .ok sorted ∧ sorted.Perm keys := by
  rw [sortKeys]
  split
  · exact ⟨keys, rfl, List.Perm.refl keys⟩
  · obtain ⟨keyed, hkeyed, hmap⟩ := keyed_ok env hkeys
    refine ⟨(env.tableSort keyed).map Prod.snd, ?_, ?_⟩
    · rw [hkeyed]
      rfl
    · calc ((env.tableSort keyed).map Prod.snd).Perm (keyed.map Prod.snd) :=
            (henv.tableSort_perm keyed).map _
        _ = keys := hmap

/-- Naming a table and opening its node keeps the invariant. -/
theorem EncInv.openNode {env : Env F} {h : Heap F} {s : EncState F} (inv : EncInv env h s)
    {t : Nat} {id : Bytes} {n : Nat} (hfresh : id ∉ s.allocated) :
    EncInv env h (s.openNode t id n) := by
  have hupd := naming_update_cases t fun t' i ht' (he : i = id) =>
    hfresh (he ▸ inv.table_mem t' i ht')
  constructor
  · intro t' i ht'
    obtain ⟨-, rfl⟩ | ⟨ht', -⟩ := hupd t' i ht'
    · exact List.mem_cons_self
    · exact List.mem_cons_of_mem _ (inv.table_mem t' i ht')
  · intro f i hf
    exact List.mem_cons_of_mem _ (inv.func_mem f i hf)
  · exact naming_update_inj inv.table_inj hupd
  · exact inv.func_inj
  · exact inv.code

theorem EncInv.appendEntry {env : Env F} {h : Heap F} {s : EncState F} (inv : EncInv env h s)
    (id : Bytes) (entry : Desc F × Desc F) : EncInv env h (s.appendEntry id entry) :=
  ⟨inv.table_mem, inv.func_mem, inv.table_inj, inv.func_inj, inv.code⟩

/-- The loop over the keys fills the open node of `t` with the descriptors of
the keys and their values. -/
theorem encodeEntries_ok {env : Env F} {h : Heap F} {encode : Encoder F (Value F)}
    {obj : TableObj F} {t : Nat} {id : Bytes} {bound : Nat}
    (hencode : ∀ s v suggested, Shareable h v → (v ∈ obj.entries.map Prod.fst ∨
      v ∈ obj.entries.map Prod.snd) → EncInv env h s → s.unnamed h < bound →
      EncOk env h s v (encode s v suggested))
    (hshare : ∀ e ∈ obj.entries, Shareable h e.1 ∧ Shareable h e.2) :
    ∀ (entries : List (Value F × Value F)) (index : Nat) (s : EncState F) (node : Node F),
      (∀ e ∈ entries, e ∈ obj.entries ∧ obj.rawget e.1 = e.2) →
      EncInv env h s → s.unnamed h < bound → s.tableIds t = some id → s.nodes id = some node →
      ∃ s' added, encodeEntries env encode obj id index (entries.map Prod.fst) s = .ok s' ∧
        EncInv env h s' ∧ EncLe (some id) s s' ∧
        s'.nodes id = some { node with entries := node.entries ++ added } ∧
        List.Forall₂ (fun (e : Value F × Value F) (d : Desc F × Desc F) =>
          s'.desc e.1 = some d.1 ∧ s'.desc e.2 = some d.2) entries added ∧
        ∀ t', (s'.tableIds t').isSome → (s.tableIds t').isSome ∨
          Described h s'.nodes s'.tableIds s'.functionIds t' := by
  intro entries
  induction entries with
  | nil =>
      intro index s node _ inv _ _ hnode
      exact ⟨s, [], rfl, inv, EncLe.refl _ s, by simp [hnode], .nil, fun _ ht' => .inl ht'⟩
  | cons e entries ih =>
      intro index s node hmem inv hbound hid hnode
      obtain ⟨hobj, hget⟩ := hmem e (by simp)
      obtain ⟨key, s₁, hkey, inv₁, le₁, hd₁, new₁⟩ := hencode s e.1
        (id ++ ascii "/k/" ++ pathToken env e.1 index) (hshare e hobj).1
        (.inl (List.mem_map_of_mem hobj)) inv hbound
      obtain ⟨value, s₂, hvalue, inv₂, le₂, hd₂, new₂⟩ := hencode s₁ e.2
        (id ++ ascii "/v/" ++ pathToken env e.1 index) (hshare e hobj).2
        (.inr (List.mem_map_of_mem hobj)) inv₁ (Nat.lt_of_le_of_lt le₁.unnamed_le hbound)
      have le₁₂ := le₁.trans le₂
      have hid₂ : s₂.tableIds t = some id := le₁₂.table t id hid
      have hnode₂ : s₂.nodes id = some node := by
        rw [le₁₂.nodes id (inv.table_mem t id hid) (by simp)]
        exact hnode
      have le₃ := EncLe.appendEntry s₂ id (key, value)
      have inv₃ := inv₂.appendEntry id (key, value)
      obtain ⟨s', added, hrest, inv', le', hnode', hall', new'⟩ := ih (index + 1)
        (s₂.appendEntry id (key, value)) { node with entries := node.entries ++ [(key, value)] }
        (fun e' he' => hmem e' (by simp [he'])) inv₃
        (Nat.lt_of_le_of_lt le₃.unnamed_le (Nat.lt_of_le_of_lt le₁₂.unnamed_le hbound))
        hid₂ (by simp [EncState.appendEntry, hnode₂])
      have le₂' := le₃.trans le'
      -- a table named on the way is not `t`, so its node is not the open one
      have hkeep : ∀ t', (s.tableIds t').isNone →
          Described h s₂.nodes s₂.tableIds s₂.functionIds t' →
          Described h s'.nodes s'.tableIds s'.functionIds t' := by
        intro t' hnew hdesc
        refine le₂'.described inv₂ (fun he => ?_) hdesc
        have := inv₂.table_inj t' t id he hid₂
        simp [this, hid] at hnew
      refine ⟨s', (key, value) :: added, ?_, inv', (le₁₂.weaken).trans le₂', ?_, ?_, ?_⟩
      · simp only [List.map_cons, encodeEntries, hkey, hget, hvalue, bind, Except.bind]
        exact hrest
      · rw [hnode']
        simp
      · exact .cons ⟨le₂'.desc (le₂.desc hd₁), le₂'.desc hd₂⟩ hall'
      · intro t' ht'
        by_cases hs : (s.tableIds t').isSome
        · exact .inl hs
        · have hnone : (s.tableIds t').isNone := by simpa using hs
          refine .inr ?_
          obtain hold | hdesc := new' t' ht'
          · obtain hold | hdesc := new₂ t' hold
            · obtain hold | hdesc := new₁ t' hold
              · exact absurd hold hs
              · refine hkeep t' hnone (le₂.described inv₁ ?_ hdesc)
                obtain ⟨i, _, _, _, hi, _⟩ := hdesc
                simp [hi]
            · exact hkeep t' hnone hdesc
          · exact hdesc

/-- **`encode_table` on a supported graph** terminates and describes what it
names.  The induction is on the fuel; every recursive call sees one more
named table. -/
theorem encodeTable_ok {env : Env F} (henv : env.Lawful) {h : Heap F} {root : Value F}
    (hg : ShareableGraph h root) :
    ∀ (fuel : Nat) (s : EncState F) (t : Nat) (suggested : Bytes),
      Reach h root (.table t) → EncInv env h s → s.unnamed h < fuel →
      EncOk env h s (.table t) (encodeTable env h fuel s t suggested) := by
  intro fuel
  induction fuel with
  | zero => intro s t _ _ _ hlt; omega
  | succ fuel ih =>
      intro s t suggested hreach inv hlt
      obtain ⟨obj, hobj, hmeta, wf⟩ := hg _ hreach
      cases hs : s.tableIds t with
      | some id =>
          simp only [encodeTable, hs]
          exact EncOk.of_same inv (by simp [EncState.desc, descOf, hs])
      | none =>
          have hshare : ∀ e ∈ obj.entries, Shareable h e.1 ∧ Shareable h e.2 := fun e he =>
            ⟨hg _ (.key hreach hobj he), hg _ (.value hreach hobj he)⟩
          obtain ⟨keys, hkeys, hperm⟩ := sortKeys_ok henv
            (show ∀ k ∈ obj.entries.map Prod.fst, Shareable h k by
              intro k hk
              obtain ⟨e, he, rfl⟩ := List.mem_map.mp hk
              exact (hshare e he).1)
          -- the sorted keys with the values the loop reads for them
          let entries := keys.map fun k => (k, obj.rawget k)
          have hentries : entries.Perm obj.entries := by
            have hcongr : (obj.entries.map Prod.fst).map (fun k => (k, obj.rawget k)) =
                obj.entries := by
              rw [List.map_map]
              refine (List.map_congr_left fun e he => ?_).trans (List.map_id _)
              simp [wf.rawget_eq he]
            exact hcongr ▸ hperm.map _
          have hfst : entries.map Prod.fst = keys := by
            rw [List.map_map]
            exact List.map_id keys
          have hfresh := uniquePath_not_mem s.allocated suggested
          simp only [encodeTable, hs, hobj, hmeta, hkeys, bind, Except.bind, pure, Except.pure,
            Bool.false_eq_true, if_false]
          generalize uniquePath s.allocated suggested = id at hfresh
          have hid : (s.openNode t id obj.length).tableIds t = some id :=
            Function.update_self ..
          obtain ⟨s', added, hloop, inv', le', hnode', hall', new'⟩ :=
            @encodeEntries_ok _ _ env h (encodeValue env h (encodeTable env h fuel)) obj t id fuel
              (by
                intro s v suggested hv hvmem inv hbound
                refine encodeValue_ok suggested hv inv fun t' ht' => ?_
                refine ih s t' suggested ?_ inv hbound
                subst ht'
                obtain hk | hval := hvmem
                · obtain ⟨e, he, heq⟩ := List.mem_map.mp hk
                  exact heq ▸ .key hreach hobj he
                · obtain ⟨e, he, heq⟩ := List.mem_map.mp hval
                  exact heq ▸ .value hreach hobj he)
              hshare entries 1 (s.openNode t id obj.length) { length := obj.length, entries := [] }
              (by
                intro e he
                refine ⟨hentries.mem_iff.mp he, ?_⟩
                exact wf.rawget_eq (hentries.mem_iff.mp he))
              (inv.openNode hfresh)
              (by
                have htlt := (List.getElem?_eq_some_iff.mp hobj).1
                have : (s.openNode t id obj.length).unnamed h < s.unnamed h :=
                  unnamed_openNode_lt htlt hs
                omega)
              hid (Function.update_self ..)
          rw [hfst] at hloop
          rw [hloop]
          have hid' : s'.tableIds t = some id := le'.table t id hid
          refine ⟨.table id, s', rfl, inv', ?_, by simp [EncState.desc, descOf, hid'], ?_⟩
          · -- the open node is new, so no old node has changed
            have leOpen := EncLe.openNode (n := obj.length) hs hfresh
            refine ⟨fun t' i h => le'.table t' i (leOpen.table t' i h),
              fun f i h => le'.func f i (leOpen.func f i h),
              fun _ h => le'.allocated (leOpen.allocated h), fun i hi _ => ?_⟩
            rw [le'.nodes i (leOpen.allocated hi) (fun he => hfresh (Option.some.inj he ▸ hi))]
            exact leOpen.nodes i hi (by simp)
          · intro t' ht'
            obtain hold | hdesc := new' t' ht'
            · by_cases heq : t' = t
              · subst heq
                exact .inr ⟨id, _, obj, entries, hid', hnode', hobj, wf, hentries, by simpa using hall'⟩
              · exact .inl (by simpa [EncState.openNode, Function.update_of_ne heq] using hold)
            · exact .inr hdesc

/-- From an empty state, with fuel for every table of the heap,
`encode_table` leads to a document that describes everything reachable from
the root. -/
theorem encodeTable_empty_ok {env : Env F} (henv : env.Lawful) {h : Heap F} {t : Nat}
    (hg : ShareableGraph h (.table t)) {fuel : Nat} (hfuel : h.tables.length < fuel) :
    ∃ d s, encodeTable env h fuel EncState.empty t (ascii "$") = .ok (d, s) ∧
      Describes env h { format := 2, root := d, nodes := s.nodes, functions := s.functions }
        s.tableIds s.functionIds ∧ s.desc (.table t) = some d := by
  have inv : EncInv env h EncState.empty := by
    constructor <;> simp [EncState.empty]
  have hbound : (EncState.empty (F := F)).unnamed h < fuel := by
    refine Nat.lt_of_le_of_lt ?_ hfuel
    exact Nat.le_trans List.countP_le_length (by simp)
  obtain ⟨d, s, hok, inv', -, hd, new⟩ :=
    encodeTable_ok henv hg fuel EncState.empty t (ascii "$") .root inv hbound
  refine ⟨d, s, hok, ⟨inv'.table_inj, inv'.func_inj, fun t' ht' => ?_, inv'.code⟩, hd⟩
  obtain hold | hdesc := new t' ht'
  · simp [EncState.empty] at hold
  · exact hdesc

/-- `encode` ends in the document of its last state. -/
theorem encode_eq_ok {env : Env F} {h : Heap F} {t fuel : Nat} {d : Desc F} {s : EncState F}
    (hok : encodeTable env h fuel EncState.empty t (ascii "$") = .ok (d, s)) :
    encode env h fuel (.table t) =
      .ok { format := 2, root := d, nodes := s.nodes, functions := s.functions } := by
  simp [encode, hok, bind, Except.bind, pure, Except.pure]

/-- **Encoding describes the graph**: with fuel for every table of the heap,
`encode` returns a document that describes everything reachable from the
root. -/
theorem encode_describes {env : Env F} (henv : env.Lawful) {h : Heap F} {t : Nat}
    (hg : ShareableGraph h (.table t)) {fuel : Nat} (hfuel : h.tables.length < fuel) :
    ∃ doc tableIds functionIds, encode env h fuel (.table t) = .ok doc ∧ doc.format = 2 ∧
      Describes env h doc tableIds functionIds ∧
      descOf tableIds functionIds (.table t) = some doc.root := by
  obtain ⟨d, s, hok, hdesc, hd⟩ := encodeTable_empty_ok henv hg hfuel
  exact ⟨_, s.tableIds, s.functionIds, encode_eq_ok hok, rfl, hdesc, hd⟩

end Spec

end SkynetJit.Sharetable
