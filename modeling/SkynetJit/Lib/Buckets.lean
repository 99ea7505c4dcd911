import Mathlib.Data.Finmap
import Mathlib.Tactic.SplitIfs

/-!
# SkynetJit.Lib.Buckets

A hash table as a list of buckets, with what lies in it in no order.

`Placed place t` says that everything lies in the bucket that its key belongs
in.  A key is then looked up, taken out or given another value in one bucket:

* `flatten_perm`, `flatten_set_perm` — a bucket, and what lies in the others;
* `Placed.dlookup_flatten` — looking up;
* `kerase_perm`, `kreplace_perm` — taking out, and giving another value.

Nothing here depends on how the bucket of a key is computed.
-/

namespace SkynetJit.Buckets

universe u v

variable {α : Type u} {β : α → Type v} {t : List (List (Sigma β))} {c : List (Sigma β)} {i : Nat}

/-- Everything lies in the bucket of its key. -/
def Placed (place : α → Nat) (t : List (List (Sigma β))) : Prop :=
  ∀ i c, t[i]? = some c → ∀ e ∈ c, place e.1 = i

/-! ## One bucket and the others -/

theorem flatten_set_perm (h : i < t.length) (c : List (Sigma β)) :
    (t.set i c).flatten.Perm (c ++ (t.set i []).flatten) := by
  induction t generalizing i with
  | nil => simp at h
  | cons d t ih =>
      cases i with
      | zero => simp
      | succ i =>
          simp only [List.set_cons_succ, List.flatten_cons]
          have hrest := (ih (Nat.lt_of_succ_lt_succ h)).append_left d
          have hswap : (d ++ c).Perm (c ++ d) := List.perm_append_comm
          exact hrest.trans (by simpa using hswap.append_right _)

theorem flatten_perm (h : t[i]? = some c) : t.flatten.Perm (c ++ (t.set i []).flatten) := by
  obtain ⟨hi, hc⟩ := List.getElem?_eq_some_iff.mp h
  have hset : t.set i c = t := by rw [← hc, List.set_getElem_self]
  have hperm := flatten_set_perm hi c
  rwa [hset] at hperm

theorem flatten_replicate_nil (n : Nat) : (List.replicate n ([] : List (Sigma β))).flatten = [] := by
  simp

/-- Something lies in the table exactly if something lies in one of the
buckets. -/
theorem mem_flatten_iff {e : Sigma β} :
    e ∈ t.flatten ↔ ∃ (i : Nat) (c : List (Sigma β)), t[i]? = some c ∧ e ∈ c := by
  rw [List.mem_flatten]
  constructor
  · rintro ⟨c, hc, he⟩
    obtain ⟨i, hi⟩ := List.mem_iff_getElem?.mp hc
    exact ⟨i, c, hi, he⟩
  · rintro ⟨i, c, hi, he⟩
    exact ⟨c, List.mem_of_getElem? hi, he⟩

/-! ## The right bucket -/

section Placed

variable {place : α → Nat}

theorem placed_replicate (n : Nat) : Placed place (List.replicate n ([] : List (Sigma β))) := by
  intro i c hc e he
  rw [List.eq_of_mem_replicate (List.mem_of_getElem? hc)] at he
  contradiction

theorem Placed.set (h : Placed place t) (hc : ∀ e ∈ c, place e.1 = i) : Placed place (t.set i c) := by
  intro j d hd
  rw [List.getElem?_set] at hd
  split_ifs at hd with hij
  · obtain rfl := hij
    obtain rfl := Option.some.inj hd
    exact hc
  · exact h j d hd

theorem Placed.place_eq (h : Placed place t) (hc : t[i]? = some c) {a : α} (ha : a ∈ c.keys) : place a = i := by
  obtain ⟨b, hb⟩ := List.exists_of_mem_keys ha
  exact h i c hc _ hb

/-- A key that belongs in a bucket lies in no other. -/
theorem Placed.notMem_others (h : Placed place t) {a : α} (ha : place a = i) :
    a ∉ (t.set i []).flatten.keys := by
  intro hmem
  obtain ⟨b, hb⟩ := List.exists_of_mem_keys hmem
  obtain ⟨j, c, hc, hbc⟩ := mem_flatten_iff.mp hb
  rw [List.getElem?_set] at hc
  split_ifs at hc with hij
  · obtain rfl := Option.some.inj hc
    contradiction
  · exact hij (ha.symm.trans (h j c hc _ hbc))

variable [DecidableEq α]

/-- **Looking up** in the bucket of the key. -/
theorem Placed.dlookup_flatten (h : Placed place t) (hnd : t.flatten.NodupKeys) {a : α} (ha : place a = i)
    (hc : t[i]? = some c) : t.flatten.dlookup a = c.dlookup a := by
  rw [List.perm_dlookup a hnd (flatten_perm hc), List.dlookup_append,
    List.dlookup_eq_none.mpr (h.notMem_others ha), Option.or_none]

end Placed

/-! ## Changing a bucket -/

section Change

variable [DecidableEq α] {l rest : List (Sigma β)} {a : α}

/-- **Taking a key out** of the bucket that has it. -/
theorem kerase_perm (hnd : l.NodupKeys) (hl : l.Perm (c ++ rest)) (ha : a ∈ c.keys) :
    (l.kerase a).Perm (c.kerase a ++ rest) := by
  rw [← List.kerase_append_left ha]
  exact hl.kerase hnd

/-- **Giving a key another value** in the bucket that has it. -/
theorem kreplace_perm {b : β a} (hnd : l.NodupKeys) (hl : l.Perm (c ++ rest)) (ha : a ∈ c.keys) :
    (l.kreplace a b).Perm (c.kreplace a b ++ rest) := by
  refine (hl.kreplace hnd).trans (List.Perm.of_eq ?_)
  clear hl
  induction c with
  | nil => simp at ha
  | cons e c ih =>
      by_cases hae : a = e.1
      · simp [List.kreplace, List.lookmap_cons_some, hae]
      · have hmem : a ∈ c.keys := by simpa [hae] using ha
        have hcons (l : List (Sigma β)) : (e :: l).kreplace a b = e :: l.kreplace a b :=
          List.lookmap_cons_none _ _ (if_neg hae)
        rw [List.cons_append, hcons, hcons, ih hmem, List.cons_append]

theorem length_kerase (ha : a ∈ l.keys) : (l.kerase a).length + 1 = l.length := by
  have hkeys := congrArg List.length (List.keys_kerase (a := a) (l := l))
  rw [List.length_erase_of_mem ha] at hkeys
  simp only [List.keys, List.length_map] at hkeys
  have hpos : 0 < l.length := List.length_pos_of_mem (List.exists_of_mem_keys ha).choose_spec
  omega

theorem length_kreplace (b : β a) : (l.kreplace a b).length = l.length := by
  have hkeys := congrArg List.length (List.keys_kreplace a b l)
  simpa only [List.keys, List.length_map] using hkeys

theorem kinsert_perm_kreplace {b : β a} (ha : a ∈ l.keys) : (l.kinsert a b).Perm (l.kreplace a b) := by
  induction l with
  | nil => simp at ha
  | cons e l ih =>
      rw [List.kinsert_def]
      by_cases hae : a = e.1
      · have hcons : (e :: l).kreplace a b = ⟨a, b⟩ :: l := List.lookmap_cons_some _ _ (if_pos hae)
        rw [List.kerase_cons_eq hae, hcons]
      · have hmem : a ∈ l.keys := by simpa [hae] using ha
        have hcons : (e :: l).kreplace a b = e :: l.kreplace a b := List.lookmap_cons_none _ _ (if_neg hae)
        have hrest := ih hmem
        rw [List.kinsert_def] at hrest
        rw [List.kerase_cons_ne hae, hcons]
        exact (List.Perm.swap ..).trans (hrest.cons e)

end Change

/-! ## Finite maps -/

section Finmap

variable {m : Finmap β} {l : List (Sigma β)} {a : α}

theorem exists_of_entries (h : m.entries = ↑l) : ∃ s : AList β, m = s.toFinmap ∧ s.entries = l :=
  ⟨⟨l, Multiset.coe_nodupKeys.mp (h ▸ m.nodupKeys)⟩, Finmap.ext h, rfl⟩

theorem mem_of_entries (h : m.entries = ↑l) : a ∈ m ↔ a ∈ l.keys := by
  obtain ⟨s, rfl, rfl⟩ := exists_of_entries h
  rfl

theorem card_of_entries (h : m.entries = ↑l) : m.keys.card = l.length := by
  obtain ⟨s, rfl, rfl⟩ := exists_of_entries h
  simp [Finset.card, Finmap.keys_val, AList.keys, List.keys]

variable [DecidableEq α]

theorem lookup_of_entries (h : m.entries = ↑l) (a : α) : m.lookup a = l.dlookup a := by
  obtain ⟨s, rfl, rfl⟩ := exists_of_entries h
  rfl

theorem erase_entries (h : m.entries = ↑l) (a : α) : (m.erase a).entries = ↑(l.kerase a) := by
  obtain ⟨s, rfl, rfl⟩ := exists_of_entries h
  rfl

theorem insert_entries (h : m.entries = ↑l) {b : β a} (ha : a ∉ l.keys) :
    (m.insert a b).entries = ↑((⟨a, b⟩ : Sigma β) :: l) := by
  rw [Finmap.entries_insert_of_notMem ((mem_of_entries h).not.mpr ha), h, Multiset.cons_coe]

theorem replace_entries (h : m.entries = ↑l) {b : β a} (ha : a ∈ l.keys) :
    (m.insert a b).entries = ↑(l.kreplace a b) := by
  obtain ⟨s, rfl, rfl⟩ := exists_of_entries h
  exact Multiset.coe_eq_coe.mpr (kinsert_perm_kreplace ha)

end Finmap

end SkynetJit.Buckets
