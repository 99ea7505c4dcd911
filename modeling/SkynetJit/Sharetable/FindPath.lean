import SkynetJit.Lib.DepthLimit
import SkynetJit.Sharetable.Accepts

/-!
# SkynetJit.Sharetable.FindPath

What `find_path` finds.  It searches the tables depth first along their string
keys, and marks a table as visited when it first meets it, also at
`maximum_depth`, where it looks at the values of the table but not into its
children.  A path that is found leads to the target (`findPath_reaches`).  A
target below a table that was first met at `maximum_depth` is missed, also
when a shorter path leads there (`findPath_overlooks`): a path is found
exactly when a first way ends in a table that has the target
(`findPath_complete_iff`).  That is enough where each table on a chain is met
with room for the rest of it (`findPath_complete_of_room`).
-/

namespace SkynetJit.Sharetable

variable {F : Type} [BEq F]

/-- The value a chain of string keys leads to.  Every key has to be there. -/
def Heap.lookups (h : Heap F) : Value F → List Bytes → Option (Value F)
  | v, [] => some v
  | .table t, k :: ks =>
    match h.tables[t]? with
    | some obj =>
      match obj.rawget (.string k) with
      | .nil => none
      | v => h.lookups v ks
    | none => none
  | _, _ :: _ => none

/-- A chain of string keys leads from a table to a value equal to `target`. -/
def Heap.Reaches (h : Heap F) (root : Nat) (target : Value F) (chain : List Bytes) : Prop :=
  ∃ v, h.lookups (.table root) chain = some v ∧ v.rawEqual target = true

/-- The tables as `find_path` sees them: their string keys in order, the
tables these lead to, and the first key that has the target. -/
def Heap.keyGraph (h : Heap F) (target : Value F) : LabelledGraph Nat Bytes where
  labels t := match h.tables[t]? with
    | some obj => obj.stringKeys
    | none => []
  next t k := match h.tables[t]? with
    | some obj => match obj.rawget (.string k) with
      | .table child => some child
      | _ => none
    | none => none
  goal t := match h.tables[t]? with
    | some obj => obj.stringKeys.find? fun k => (obj.rawget (.string k)).rawEqual target
    | none => none

variable {h : Heap F} {target : Value F} {root t d : Nat} {k : Bytes}

/-! ## The search of the code -/

theorem keyGraph_labels {obj : TableObj F} (ht : h.tables[t]? = some obj) :
    (h.keyGraph target).labels t = obj.stringKeys := by
  simp only [Heap.keyGraph, ht]

theorem keyGraph_goal {obj : TableObj F} (ht : h.tables[t]? = some obj) :
    (h.keyGraph target).goal t =
      obj.stringKeys.find? fun k => (obj.rawget (.string k)).rawEqual target := by
  simp only [Heap.keyGraph, ht]

theorem keyGraph_next_iff {child : Nat} {obj : TableObj F} (ht : h.tables[t]? = some obj) :
    (h.keyGraph target).next t k = some child ↔ obj.rawget (.string k) = .table child := by
  simp only [Heap.keyGraph, ht]
  cases obj.rawget (.string k) <;> simp

/-- `visit` is the depth-first search of the key graph. -/
theorem findPathVisit_eq (n t : Nat) (path : List Bytes) (visited : List Nat) :
    findPathVisit h target n t path visited = (h.keyGraph target).visit n t path visited := by
  induction n generalizing t path visited with
  | zero =>
      rw [findPathVisit, LabelledGraph.visit]
      cases ht : h.tables[t]? with
      | none => simp [Heap.keyGraph, ht]
      | some obj =>
          rw [keyGraph_goal ht]
          simp only
          cases obj.stringKeys.find? fun k => (obj.rawget (.string k)).rawEqual target <;> rfl
  | succ n ih =>
      have hdescend : ∀ (obj : TableObj F) (ks : List Bytes) (visited : List Nat),
          h.tables[t]? = some obj →
          findPathVisit.descend h target n obj path ks visited =
            LabelledGraph.visit.descend (h.keyGraph target) n t path ks visited := by
        intro obj ks visited ht
        induction ks generalizing visited with
        | nil => rw [findPathVisit.descend, LabelledGraph.visit.descend]
        | cons k ks ihk =>
            rw [findPathVisit.descend, LabelledGraph.visit.descend]
            cases hnext : (h.keyGraph target).next t k with
            | none =>
                have hnot : ∀ child, obj.rawget (.string k) ≠ .table child := fun child hchild =>
                  Option.some_ne_none child (((keyGraph_next_iff ht).mpr hchild).symm.trans hnext)
                split
                · rename_i child hchild
                  exact absurd hchild (hnot child)
                · exact ihk visited
            | some child =>
                simp only [(keyGraph_next_iff ht).mp hnext, ih]
                split <;> rename_i hvisit
                · simp only [hvisit]
                · simp only [hvisit, ihk]
      rw [findPathVisit, LabelledGraph.visit]
      cases ht : h.tables[t]? with
      | none => simp [Heap.keyGraph, ht, LabelledGraph.visit.descend]
      | some obj =>
          rw [keyGraph_goal ht, keyGraph_labels ht, ← hdescend obj _ _ ht]
          simp only
          cases obj.stringKeys.find? fun k => (obj.rawget (.string k)).rawEqual target <;> rfl

theorem findPath_eq_search :
    findPath h root target d = ((h.keyGraph target).visit d root [] []).1 :=
  congrArg Prod.fst (findPathVisit_eq d root [] [])

/-! ## String keys -/

omit [BEq F] in
theorem mem_stringKeys_iff {obj : TableObj F} :
    k ∈ obj.stringKeys ↔ ∃ e ∈ obj.entries, e.1 = .string k := by
  rw [TableObj.stringKeys, List.mem_mergeSort, List.mem_filterMap]
  refine exists_congr fun e => and_congr_right fun _ => ?_
  cases e.1 <;> simp

/-- The keys of a Lua table are distinct. -/
theorem TableObj.WellFormed.stringKeys_nodup {obj : TableObj F} (wf : obj.WellFormed) :
    obj.stringKeys.Nodup := by
  rw [TableObj.stringKeys, (List.mergeSort_perm _ _).nodup_iff, List.Nodup, List.pairwise_filterMap]
  refine wf.distinct.imp fun {a b} hab s hs s' hs' heq => ?_
  subst heq
  split at hs
  · rename_i name ha
    split at hs'
    · rename_i name' hb
      rw [ha, hb, Option.some.inj hs, Option.some.inj hs'] at hab
      simp [Value.rawEqual] at hab
    · exact absurd hs' (Option.some_ne_none s).symm
  · exact absurd hs (Option.some_ne_none s).symm

theorem keyGraph_labels_nodup (wf : h.WellFormed) : ((h.keyGraph target).labels t).Nodup := by
  cases ht : h.tables[t]? with
  | none => simp [Heap.keyGraph, ht]
  | some obj =>
      rw [keyGraph_labels ht]
      exact (wf t obj ht).stringKeys_nodup

/-- Exactly the string keys of a table have a value. -/
theorem TableObj.WellFormed.rawget_ne_nil_iff {obj : TableObj F} (wf : obj.WellFormed) :
    obj.rawget (.string k) ≠ .nil ↔ k ∈ obj.stringKeys := by
  rw [mem_stringKeys_iff]
  constructor
  · intro hne
    rw [TableObj.rawget] at hne
    split at hne
    · rename_i e he
      have heq := List.find?_some he
      refine ⟨e, List.mem_of_find?_eq_some he, ?_⟩
      cases e1 : e.1 <;> simp_all [Value.rawEqual]
    · exact absurd rfl hne
  · rintro ⟨e, he, hk⟩
    rw [← hk, wf.rawget_eq he]
    exact wf.value_ne_nil e he

/-! ## Chains of keys -/

theorem lookups_cons_iff {v : Value F} {ks : List Bytes} :
    h.lookups (.table t) (k :: ks) = some v ↔ ∃ obj, h.tables[t]? = some obj ∧
      obj.rawget (.string k) ≠ .nil ∧ h.lookups (obj.rawget (.string k)) ks = some v := by
  rw [Heap.lookups]
  cases ht : h.tables[t]? with
  | none => simp
  | some obj =>
      simp only [Option.some.injEq, exists_eq_left']
      split
      · rename_i hnil
        simp [hnil]
      · rename_i hne
        exact (and_iff_right hne).symm

/-- Only a table has keys. -/
theorem eq_table_of_lookups_cons {v w : Value F} {ks : List Bytes}
    (hv : h.lookups v (k :: ks) = some w) : ∃ u, v = .table u := by
  cases v with
  | table u => exact ⟨u, rfl⟩
  | _ => simp [Heap.lookups] at hv

theorem lookups_append (v : Value F) (q ks : List Bytes) :
    h.lookups v (q ++ ks) = (h.lookups v q).bind fun w => h.lookups w ks := by
  induction q generalizing v with
  | nil => rfl
  | cons a q ih =>
      cases v with
      | table t =>
          rw [List.cons_append, Heap.lookups, Heap.lookups]
          cases h.tables[t]? with
          | none => rfl
          | some obj =>
              simp only
              split
              · rfl
              · exact ih _
      | _ => rfl

/-- A way of the key graph is a chain of keys to a table. -/
theorem walk_iff_lookups (wf : h.WellFormed) {q : List Bytes} {u : Nat} :
    (h.keyGraph target).walk t q = some u ↔ h.lookups (.table t) q = some (.table u) := by
  induction q generalizing t with
  | nil => simp [LabelledGraph.walk, Heap.lookups]
  | cons a q ih =>
      rw [LabelledGraph.walk, lookups_cons_iff]
      constructor
      · intro hwalk
        split_ifs at hwalk with ha
        obtain ⟨w, hnext, hrest⟩ := Option.bind_eq_some_iff.mp hwalk
        cases ht : h.tables[t]? with
        | none => simp [Heap.keyGraph, ht] at ha
        | some obj =>
            have hw := (keyGraph_next_iff ht).mp hnext
            refine ⟨obj, rfl, ?_, ?_⟩
            · rw [keyGraph_labels ht] at ha
              exact (wf t obj ht).rawget_ne_nil_iff.mpr ha
            · rw [hw]
              exact ih.mp hrest
      · rintro ⟨obj, ht, hne, hrest⟩
        have ha : a ∈ (h.keyGraph target).labels t := by
          rw [keyGraph_labels ht]
          exact (wf t obj ht).rawget_ne_nil_iff.mp hne
        have htable : ∃ w, obj.rawget (.string a) = .table w := by
          cases q with
          | nil => exact ⟨u, by simpa [Heap.lookups] using hrest⟩
          | cons b q => exact eq_table_of_lookups_cons hrest
        obtain ⟨w, hw⟩ := htable
        rw [hw] at hrest
        rw [if_pos ha, (keyGraph_next_iff ht).mpr hw]
        exact ih.mpr hrest

/-- The key the first loop of `visit` stops at has the target. -/
theorem reaches_of_goal (wf : h.WellFormed) (hk : (h.keyGraph target).goal t = some k) :
    h.Reaches t target [k] := by
  cases ht : h.tables[t]? with
  | none => simp [Heap.keyGraph, ht] at hk
  | some obj =>
      rw [keyGraph_goal ht] at hk
      refine ⟨obj.rawget (.string k), lookups_cons_iff.mpr ⟨obj, ht, ?_, rfl⟩, by
        simpa using List.find?_some hk⟩
      exact (wf t obj ht).rawget_ne_nil_iff.mpr (List.mem_of_find?_eq_some hk)

/-- A table that has the target under some key is one the first loop stops
at. -/
theorem goal_isSome_of_reaches (wf : h.WellFormed) (hk : h.Reaches t target [k]) :
    ((h.keyGraph target).goal t).isSome := by
  obtain ⟨v, hv, htarget⟩ := hk
  obtain ⟨obj, ht, hne, hrest⟩ := lookups_cons_iff.mp hv
  obtain rfl := Option.some.inj hrest
  rw [keyGraph_goal ht, List.find?_isSome]
  exact ⟨k, (wf t obj ht).rawget_ne_nil_iff.mp hne, htarget⟩

/-! ## What `find_path` finds -/

/-- A path that is found leads to the target, whatever the target is. -/
theorem findPath_reaches (wf : h.WellFormed) {path : List Bytes}
    (hpath : findPath h root target d = some path) :
    path.length ≤ d + 1 ∧ h.Reaches root target path := by
  rw [findPath_eq_search] at hpath
  obtain ⟨q, x, k, rfl, hlen, hwalk, hgoal⟩ :=
    LabelledGraph.search_sound (fun _ => keyGraph_labels_nodup wf) hpath
  obtain ⟨v, hv, htarget⟩ := reaches_of_goal wf hgoal
  refine ⟨?_, v, ?_, htarget⟩
  · rw [List.length_append, List.length_singleton]
    exact Nat.add_le_add_right hlen 1
  · rw [lookups_append, (walk_iff_lookups wf).mp hwalk]
    exact hv

/-- A target is found at the end of a chain of keys when every chain of at
most `d` keys to a table on it leaves as many keys as the rest of it needs. -/
theorem findPath_complete_of_room (wf : h.WellFormed) {q : List Bytes}
    (hq : h.Reaches root target (q ++ [k]))
    (hroom : ∀ front back u, q = front ++ back → h.lookups (.table root) front = some (.table u) →
      ∀ q', q'.length ≤ d → h.lookups (.table root) q' = some (.table u) →
        q'.length + back.length ≤ d) :
    (findPath h root target d).isSome := by
  obtain ⟨v, hv, htarget⟩ := hq
  rw [lookups_append] at hv
  obtain ⟨x, hx, hlast⟩ := Option.bind_eq_some_iff.mp hv
  obtain ⟨u, rfl⟩ := eq_table_of_lookups_cons hlast
  obtain ⟨k', hk'⟩ := Option.isSome_iff_exists.mp
    (goal_isSome_of_reaches wf ⟨v, hlast, htarget⟩)
  rw [findPath_eq_search]
  refine LabelledGraph.search_complete (fun _ => keyGraph_labels_nodup wf)
    ((walk_iff_lookups wf).mpr hx) hk' fun front back u hsplit hfront q' hlen hq' => ?_
  exact hroom front back u hsplit ((walk_iff_lookups wf).mp hfront) q' hlen
    ((walk_iff_lookups wf).mp hq')

/-- A path that is found leads to the target; and a path is found whenever a
chain of at most `d + 1` keys leads there, if and only if then a first way of
at most `d` keys leads to a table that has the target. -/
theorem findPath_complete_iff (wf : h.WellFormed) (root : Nat) (target : Value F) (d : Nat) :
    ((∀ path, findPath h root target d = some path → h.Reaches root target path) ∧
      ((∃ chain, chain.length ≤ d + 1 ∧ h.Reaches root target chain) →
        (findPath h root target d).isSome)) ↔
    ((∃ chain, chain.length ≤ d + 1 ∧ h.Reaches root target chain) →
      ∃ e ∈ (h.keyGraph target).firstWays d root, ∃ k, h.Reaches e.2 target [k]) := by
  have hfound : (findPath h root target d).isSome ↔
      ∃ e ∈ (h.keyGraph target).firstWays d root, ∃ k, h.Reaches e.2 target [k] := by
    rw [findPath_eq_search, LabelledGraph.search_iff_firstWays fun _ => keyGraph_labels_nodup wf]
    refine exists_congr fun e => and_congr_right fun _ => ?_
    constructor
    · intro hgoal
      obtain ⟨k, hk⟩ := Option.isSome_iff_exists.mp hgoal
      exact ⟨k, reaches_of_goal wf hk⟩
    · rintro ⟨k, hk⟩
      exact goal_isSome_of_reaches wf hk
  rw [hfound]
  exact and_iff_right fun path hpath => (findPath_reaches wf hpath).2

/-! ## A table met at the limit -/

/-- `_G.b` is a table with a fast function at `_G.b.t.f`.  The search meets it
first as `_G.a.a.a`. -/
def overlookedHeap : Heap Int where
  tables := [
    ⟨false, 0, [(.string (ascii "a"), .table 1), (.string (ascii "b"), .table 3)]⟩,
    ⟨false, 0, [(.string (ascii "a"), .table 2)]⟩,
    ⟨false, 0, [(.string (ascii "a"), .table 3)]⟩,
    ⟨false, 0, [(.string (ascii "t"), .table 4)]⟩,
    ⟨false, 0, [(.string (ascii "f"), .func 0)]⟩]
  funcs := [⟨.fast, 0⟩]
  globals := 0
  loaded := .nil

theorem overlookedHeap_wellFormed : overlookedHeap.WellFormed := by
  intro t obj ht
  have hmem := List.mem_of_getElem? ht
  simp only [overlookedHeap, List.mem_cons, List.not_mem_nil, or_false] at hmem
  obtain rfl | rfl | rfl | rfl | rfl := hmem <;> constructor <;> decide

theorem overlookedHeap_reaches :
    overlookedHeap.Reaches 0 (.func 0) [ascii "b", ascii "t", ascii "f"] :=
  ⟨.func 0, by decide, rfl⟩

theorem overlookedHeap_findPath : findPath overlookedHeap 0 (.func 0) 3 = none := by
  have hne : ascii "a" ≠ ascii "b" := by decide
  have hsort : [ascii "a", ascii "b"].mergeSort bytesLe = [ascii "a", ascii "b"] :=
    List.mergeSort_of_pairwise (by decide)
  simp [findPath, findPathVisit, findPathVisit.descend, overlookedHeap, TableObj.stringKeys,
    TableObj.rawget, Value.rawEqual, hsort, hne]

/-- A chain of three keys leads to the function, and the search with four
finds no path. -/
theorem findPath_overlooks :
    overlookedHeap.WellFormed ∧
    (∃ chain, chain.length ≤ 3 + 1 ∧ overlookedHeap.Reaches 0 (.func 0) chain) ∧
    findPath overlookedHeap 0 (.func 0) 3 = none :=
  ⟨overlookedHeap_wellFormed, ⟨_, by decide, overlookedHeap_reaches⟩, overlookedHeap_findPath⟩

/-- No first way to that function. -/
theorem findPath_complete_iff_overlooked :
    ¬ ∃ e ∈ (overlookedHeap.keyGraph (.func 0)).firstWays 3 0, ∃ k,
      overlookedHeap.Reaches e.2 (.func 0) [k] := by
  intro hfirst
  have h := ((findPath_complete_iff overlookedHeap_wellFormed 0 (.func 0) 3).mpr fun _ => hfirst).2
    ⟨_, by decide, overlookedHeap_reaches⟩
  rw [overlookedHeap_findPath] at h
  exact Bool.false_ne_true h

end SkynetJit.Sharetable
