import SkynetJit.Redis.Dict.Refinement

/-!
# SkynetJit.Redis.Dict.Walk

Iterators over a dict that is left alone.

`dictNexts_after` says that the calls of `dictNext` return the entries one after
the other, each of them once, in the middle of rehashing too, and then nothing
for ever.
-/

namespace SkynetJit.Redis.HashTable

open Raise

variable {κ ν : Type}

/-- `dictIterator`: the table, the index plus one, and the chains from `entry`
and from `nextEntry` on. -/
structure Iterator (κ ν : Type) where
  table : Bool
  index : Nat
  entry : List (Entry κ ν)
  nextEntry : List (Entry κ ν)

/-- `dictInitIterator`. -/
def dictInitIterator : Iterator κ ν := ⟨false, 0, [], []⟩

/-- `dictNext`, the loop as long as there is no entry; it takes no more turns
than there are buckets. -/
def seek (d : Dict κ ν) : Nat → Bool → Nat → Except Crash (List (Entry κ ν) × Bool × Nat)
  | 0, _, _ => .error .overflow
  | turns + 1, table, index =>
      if index < dicthtSize (d.ht table).sizeExp then do
        let entry ← (d.ht table).bucket index
        if entry = [] then seek d turns table (index + 1) else pure (entry, table, index + 1)
      else if d.isRehashing ∧ ¬ table then do
        let entry ← d.ht1.bucket 0
        if entry = [] then seek d turns true 1 else pure (entry, true, 1)
      else .ok ([], table, index + 1)

/-- `dictNext`, the end: the entry is saved, and the `nextEntry` with it. -/
def saved (nextEntry : List (Entry κ ν)) (table : Bool) (index : Nat) :
    List (Entry κ ν) → Option (Entry κ ν) × Iterator κ ν
  | [] => (none, ⟨table, index, [], nextEntry⟩)
  | de :: rest => (some de, ⟨table, index, de :: rest, rest⟩)

/-- `dictNext`. -/
def dictNext (d : Dict κ ν) (iter : Iterator κ ν) : Except Crash (Option (Entry κ ν) × Iterator κ ν) := do
  let entry := if iter.entry = [] then [] else iter.nextEntry
  if entry = [] then
    let index := if iter.index = 0 ∧ ¬ iter.table then d.rehashidx.getD 0 else iter.index
    let (entry, table, index) ← seek d (d.ht0.buckets.length + d.ht1.buckets.length + 1) iter.table index
    pure (saved iter.nextEntry table index entry)
  else pure (saved iter.nextEntry iter.table iter.index entry)

/-- What so many calls return. -/
def dictNexts (d : Dict κ ν) : Nat → Iterator κ ν → Except Crash (List (Option (Entry κ ν)))
  | 0, _ => .ok []
  | n + 1, iter => do
      let (de, iter) ← dictNext d iter
      let rest ← dictNexts d n iter
      pure (de :: rest)

/-! ## What is ahead -/

/-- What lies in the buckets from an index on. -/
def ahead (d : Dict κ ν) (table : Bool) (index : Nat) : List (Entry κ ν) :=
  ((d.ht table).buckets.drop index).flatten ++ if table then [] else d.ht1.entries

section Ahead

variable {ty : DictType κ} {d : Dict κ ν}

theorem ahead_of_lt {table : Bool} {index : Nat} {entry : List (Entry κ ν)}
    (hentry : (d.ht table).buckets[index]? = some entry) : ahead d table index = entry ++ ahead d table (index + 1) := by
  obtain ⟨hlt, rfl⟩ := List.getElem?_eq_some_iff.mp hentry
  rw [ahead, List.drop_eq_getElem_cons hlt, List.flatten_cons, List.append_assoc, ahead]

theorem ahead_of_ge {table : Bool} {index : Nat} (hge : (d.ht table).buckets.length ≤ index) :
    ahead d table index = if table then [] else d.ht1.entries := by
  rw [ahead, List.drop_eq_nil_of_le hge]
  rfl

/-- How many buckets are ahead. -/
def left (d : Dict κ ν) (table : Bool) (index : Nat) : Nat :=
  (d.ht table).buckets.length - index + if table then 0 else d.ht1.buckets.length

theorem seek_spec (h : d.Wf ty) (turns : Nat) (table : Bool) (index : Nat) (hturns : left d table index < turns) :
    Gives (fun r => ahead d table index = r.1 ++ ahead d r.2.1 r.2.2 ∧ (r.1 = [] → ahead d table index = []) ∧ 0 < r.2.2)
      (seek d turns table index) := by
  induction turns generalizing table index with
  | zero => exact absurd hturns (Nat.not_lt_zero _)
  | succ turns ih =>
      have hlength := (h.ht_wf table).length
      rw [seek]
      by_cases hin : index < dicthtSize (d.ht table).sizeExp
      · rw [if_pos hin]
        obtain ⟨chain, hchain⟩ : ∃ chain, (d.ht table).buckets[index]? = some chain :=
          ⟨_, List.getElem?_eq_getElem (hlength ▸ hin)⟩
        refine (Table.gives_bucket hchain).bind fun entry hentry => ?_
        obtain rfl := hentry
        rw [ahead_of_lt hchain]
        by_cases hnil : entry = []
        · rw [if_pos hnil, hnil]
          refine ih table (index + 1) ?_
          rw [left] at hturns ⊢
          omega
        · rw [if_neg hnil]
          exact gives_ok ⟨rfl, fun hno => absurd hno hnil, Nat.succ_pos _⟩
      rw [if_neg hin, ahead_of_ge (by omega)]
      by_cases hnext : d.isRehashing = true ∧ ¬ table = true
      · rw [if_pos hnext]
        have htable : table = false := Bool.eq_false_iff.mpr hnext.2
        have hne : d.ht1.buckets ≠ [] := (h.tables hnext.1).2
        have hall : ahead d true 0 = d.ht1.entries := by simp [ahead, Dict.ht, Table.entries]
        obtain ⟨chain, hchain⟩ : ∃ chain, d.ht1.buckets[0]? = some chain :=
          ⟨_, List.getElem?_eq_getElem (List.length_pos_of_ne_nil hne)⟩
        have hahead : ahead d true 0 = chain ++ ahead d true 1 := ahead_of_lt hchain
        refine (Table.gives_bucket hchain).bind fun entry hentry => ?_
        obtain rfl := hentry
        rw [htable, if_neg Bool.false_ne_true, ← hall, hahead]
        by_cases hnil : entry = []
        · rw [if_pos hnil, hnil]
          refine ih true 1 ?_
          have hpos := List.length_pos_of_ne_nil hne
          rw [htable, left, if_neg Bool.false_ne_true] at hturns
          rw [left, if_pos rfl, show (d.ht true).buckets.length = d.ht1.buckets.length from rfl]
          omega
        · rw [if_neg hnil]
          exact gives_ok ⟨rfl, fun hno => absurd hno hnil, Nat.succ_pos _⟩
      · rw [if_neg hnext]
        have hend : (if table then [] else d.ht1.entries) = [] := by
          cases table with
          | true => rfl
          | false =>
              have hidle : d.isRehashing = false := by simpa using hnext
              rw [if_neg Bool.false_ne_true, h.idle (isRehashing_eq_false_iff.mp hidle), Table.entries_reset]
        rw [hend]
        refine gives_ok ⟨?_, fun _ => rfl, Nat.succ_pos _⟩
        show [] = [] ++ ahead d table (index + 1)
        rw [ahead_of_ge (by omega), hend, List.nil_append]

/-- What an iterator has still to return. -/
def Stands (d : Dict κ ν) (iter : Iterator κ ν) (l : List (Entry κ ν)) : Prop :=
  iter = dictInitIterator ∧ l = d.entries ∨
    0 < iter.index ∧ l = (if iter.entry = [] then [] else iter.nextEntry) ++ ahead d iter.table iter.index

/-- There is nothing behind `rehashidx`. -/
theorem ahead_rehashidx (h : d.Wf ty) : ahead d false (d.rehashidx.getD 0) = d.entries := by
  cases hr : d.rehashidx with
  | none => simp [ahead, Dict.ht, Dict.entries, Table.entries]
  | some r =>
      have hbehind : (d.ht0.buckets.take r).flatten = [] := by
        rw [List.flatten_eq_nil_iff]
        intro chain hchain
        obtain ⟨i, hi⟩ := List.mem_iff_getElem?.mp hchain
        rw [List.getElem?_take] at hi
        split_ifs at hi with hlt
        exact h.behind r hr i chain hlt hi
      have hsplit : d.ht0.buckets.flatten = (d.ht0.buckets.drop r).flatten := by
        rw [← List.take_append_drop r d.ht0.buckets, List.flatten_append, hbehind, List.nil_append,
          List.take_append_drop]
      show (d.ht0.buckets.drop r).flatten ++ d.ht1.entries = d.ht0.buckets.flatten ++ d.ht1.entries
      rw [hsplit]

theorem stands_saved (nextEntry : List (Entry κ ν)) {table : Bool} {index : Nat} {entry l : List (Entry κ ν)}
    (hindex : 0 < index) (hl : l = entry ++ ahead d table index) (hnil : entry = [] → l = []) :
    (saved nextEntry table index entry).1 = l.head? ∧ Stands d (saved nextEntry table index entry).2 l.tail := by
  cases entry with
  | nil =>
      obtain rfl := hnil rfl
      exact ⟨rfl, Or.inr ⟨hindex, hl⟩⟩
  | cons de rest =>
      obtain rfl := hl
      exact ⟨rfl, Or.inr ⟨hindex, by rw [saved, if_neg (List.cons_ne_nil _ _)]; rfl⟩⟩

theorem dictNext_spec (h : d.Wf ty) {iter : Iterator κ ν} {l : List (Entry κ ν)} (hiter : Stands d iter l) :
    Gives (fun r => r.1 = l.head? ∧ Stands d r.2 l.tail) (dictNext d iter) := by
  have hseek (table : Bool) (index : Nat) (hl : l = ahead d table index) :
      Gives (fun r => r.1 = l.head? ∧ Stands d r.2 l.tail)
        (seek d (d.ht0.buckets.length + d.ht1.buckets.length + 1) table index >>= fun r =>
          pure (saved iter.nextEntry r.2.1 r.2.2 r.1)) := by
    have hleft : left d table index < d.ht0.buckets.length + d.ht1.buckets.length + 1 := by
      rw [left]
      cases table <;> simp [Dict.ht] <;> omega
    refine (seek_spec h _ table index hleft).bind fun r hr => ?_
    obtain ⟨hahead, hnil, hindex⟩ := hr
    exact gives_ok (stands_saved _ hindex (hl.trans hahead) fun hno => hl.trans (hnil hno))
  rw [dictNext]
  rcases hiter with ⟨rfl, rfl⟩ | ⟨hindex, hl⟩
  · exact hseek false _ (ahead_rehashidx h).symm
  · dsimp only
    by_cases hnil : (if iter.entry = [] then [] else iter.nextEntry) = []
    · rw [if_pos hnil, if_neg (fun hno => absurd hno.1 hindex.ne')]
      exact hseek iter.table iter.index (by rw [hl, hnil, List.nil_append])
    · rw [if_neg hnil]
      exact gives_ok (stands_saved _ hindex hl fun hno => absurd hno hnil)

theorem dictNexts_spec (h : d.Wf ty) (n : Nat) {iter : Iterator κ ν} {l : List (Entry κ ν)} (hiter : Stands d iter l) :
    dictNexts d n iter = .ok ((List.range n).map fun i => l[i]?) := by
  induction n generalizing iter l with
  | zero => rfl
  | succ n ih =>
      obtain ⟨r, hr, hhead, htail⟩ := dictNext_spec h hiter
      rw [dictNexts, hr]
      show (dictNexts d n r.2 >>= fun rest => pure (r.1 :: rest)) = _
      rw [ih htail, List.range_succ_eq_map, List.map_cons, List.map_map, hhead, List.head?_eq_getElem?]
      show Except.ok _ = Except.ok _
      simp [Function.comp_def]

end Ahead

/-- **Iteration.** The calls of `dictNext` on a dict return its entries one
after the other, each of them once, and then nothing: whatever commands there
were before, and in the middle of rehashing as well. -/
theorem dictNexts_after [DecidableEq κ] (ty : DictType κ) (calls : List (ResizeEnable × Call κ ν)) :
    (Dict.after ty calls).entries.NodupKeys ∧ ∀ n, dictNexts (Dict.after ty calls) n dictInitIterator =
      .ok ((List.range n).map fun i => (Dict.after ty calls).entries[i]?) :=
  ⟨(wf_after ty calls).nodup, fun n => dictNexts_spec (wf_after ty calls) n (Or.inl ⟨rfl, rfl⟩)⟩

end SkynetJit.Redis.HashTable
