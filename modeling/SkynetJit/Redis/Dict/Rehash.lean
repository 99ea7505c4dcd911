import SkynetJit.Redis.Dict.Kernel

/-!
# SkynetJit.Redis.Dict.Rehash

What a dict is made of, and that resizing and rehashing keep it.

`Dict.Wf` says that every entry lies in its bucket and is counted, that no key
is there twice, and that the buckets behind `rehashidx` are empty.  `Keeps d d'`
is what the steps do that a search takes on its way: the entries stay, in
whatever order.
-/

namespace SkynetJit.Redis.HashTable

open Buckets Raise

variable {κ ν : Type}

/-! ## Sizes -/

theorem and_dicthtSizeMask (h : Nat) {exp : Int} (hexp : exp ≠ -1) :
    h &&& dicthtSizeMask exp = h % dicthtSize exp := by
  rw [dicthtSizeMask, if_neg hexp, dicthtSize, if_neg hexp, Nat.and_two_pow_sub_one_eq_mod]

theorem dicthtSize_pos {exp : Int} (hexp : exp ≠ -1) : 0 < dicthtSize exp := by
  rw [dicthtSize, if_neg hexp]
  exact Nat.two_pow_pos _

theorem dicthtSize_eq_zero_iff {exp : Int} : dicthtSize exp = 0 ↔ exp = -1 := by
  constructor
  · intro h
    by_contra hexp
    exact absurd h (dicthtSize_pos hexp).ne'
  · intro h
    rw [dicthtSize, if_pos h]

/-- A smaller table has a part of the bits of a larger one. -/
theorem and_mask_of_le (h : Nat) {e e' : Int} (he : e ≠ -1) (he' : e' ≠ -1) (hle : e' ≤ e) :
    (h &&& dicthtSizeMask e) &&& dicthtSizeMask e' = h &&& dicthtSizeMask e' := by
  rw [and_dicthtSizeMask h he, and_dicthtSizeMask _ he', and_dicthtSizeMask h he']
  refine Nat.mod_mod_of_dvd h ?_
  rw [dicthtSize, dicthtSize, if_neg he, if_neg he']
  exact Nat.pow_dvd_pow 2 (Int.toNat_le_toNat hle)

/-! ## Well-formed tables -/

/-- Every entry lies in its bucket and is counted. -/
structure Table.Wf (ty : DictType κ) (t : Table κ ν) : Prop where
  length : t.buckets.length = dicthtSize t.sizeExp
  placed : Placed (place ty t) t.buckets
  used : t.used = t.entries.length

namespace Table

variable {ty : DictType κ} {t : Table κ ν}

theorem wf_reset : (Table.reset : Table κ ν).Wf ty where
  length := by simp [Table.reset, dicthtSize]
  placed i c hc := by simp [Table.reset] at hc
  used := rfl

@[simp] theorem entries_reset : (Table.reset : Table κ ν).entries = [] := rfl

@[simp] theorem entries_create (exp : Nat) : (Table.create exp : Table κ ν).entries = [] := by
  simp [Table.create, Table.entries]

theorem wf_create (exp : Nat) : (Table.create exp : Table κ ν).Wf ty where
  length := by
    have hexp : (exp : Int) ≠ -1 := by omega
    simp [Table.create, dicthtSize, hexp]
  placed := placed_replicate _
  used := by simp [Table.create, Table.entries]

theorem create_buckets_ne_nil (exp : Nat) : (Table.create exp : Table κ ν).buckets ≠ [] := by
  simp [Table.create]

namespace Wf

theorem buckets_eq_nil_iff (h : t.Wf ty) : t.buckets = [] ↔ t.sizeExp = -1 := by
  rw [← List.length_eq_zero_iff, h.length, dicthtSize_eq_zero_iff]

theorem place_lt (h : t.Wf ty) (hne : t.buckets ≠ []) (key : κ) : place ty t key < t.buckets.length := by
  have hexp : t.sizeExp ≠ -1 := h.buckets_eq_nil_iff.not.mp hne
  rw [place, and_dicthtSizeMask _ hexp, h.length]
  exact Nat.mod_lt _ (dicthtSize_pos hexp)

/-- The bucket of a key is there. -/
theorem exists_bucket (h : t.Wf ty) (hne : t.buckets ≠ []) (key : κ) :
    ∃ chain, t.buckets[place ty t key]? = some chain :=
  ⟨_, List.getElem?_eq_getElem (h.place_lt hne key)⟩

theorem entries_eq_nil (h : t.Wf ty) (hused : t.used = 0) : t.entries = [] :=
  List.length_eq_zero_iff.mp (h.used.symm.trans hused)

/-- A table with entries has a bucket that is not empty. -/
theorem exists_nonempty (h : t.Wf ty) (hused : t.used ≠ 0) :
    ∃ (i : Nat) (chain : List (Entry κ ν)), t.buckets[i]? = some chain ∧ chain ≠ [] := by
  rw [h.used] at hused
  obtain ⟨e, he⟩ := List.exists_mem_of_length_pos (Nat.pos_of_ne_zero hused)
  obtain ⟨i, chain, hi, hmem⟩ := mem_flatten_iff.mp he
  exact ⟨i, chain, hi, List.ne_nil_of_mem hmem⟩

end Wf

theorem bucket_eq_ok {i : Nat} {chain : List (Entry κ ν)} :
    t.bucket i = .ok chain ↔ t.buckets[i]? = some chain := by
  rw [bucket]
  cases t.buckets[i]? <;> simp

theorem gives_bucket {i : Nat} {chain : List (Entry κ ν)} (h : t.buckets[i]? = some chain) :
    Gives (fun c => c = chain) (t.bucket i) := ⟨chain, bucket_eq_ok.mpr h, rfl⟩

end Table

/-! ## Well-formed dicts -/

/-- The tables are well formed and have no key in common; a dict that is not
being rehashed has one table, and one that is has nothing behind `rehashidx`,
which is not past the first table. -/
structure Dict.Wf (ty : DictType κ) (d : Dict κ ν) : Prop where
  ht0 : d.ht0.Wf ty
  ht1 : d.ht1.Wf ty
  nodup : d.entries.NodupKeys
  idle : d.rehashidx = none → d.ht1 = .reset
  tables : d.isRehashing = true → d.ht0.buckets ≠ [] ∧ d.ht1.buckets ≠ []
  behind : ∀ r, d.rehashidx = some r →
    ∀ (i : Nat) (chain : List (Entry κ ν)), i < r → d.ht0.buckets[i]? = some chain → chain = []
  bound : ∀ r, d.rehashidx = some r → r ≤ d.ht0.buckets.length

/-- The entries stay, and so do the pauses and the first table. -/
structure Keeps (ty : DictType κ) (d d' : Dict κ ν) : Prop where
  wf : d'.Wf ty
  perm : d'.entries.Perm d.entries
  pauserehash : d'.pauserehash = d.pauserehash
  pauseAutoResize : d'.pauseAutoResize = d.pauseAutoResize
  allocated : d.ht0.buckets ≠ [] → d'.ht0.buckets ≠ []

section Wf

variable {ty : DictType κ} {d d' d'' : Dict κ ν}

theorem wf_create : (Dict.create : Dict κ ν).Wf ty where
  ht0 := Table.wf_reset
  ht1 := Table.wf_reset
  nodup := List.nodupKeys_nil
  idle _ := rfl
  tables h := by simp [Dict.create, Dict.isRehashing] at h
  behind r h := by simp [Dict.create] at h
  bound r h := by simp [Dict.create] at h

theorem Keeps.refl (h : d.Wf ty) : Keeps ty d d := ⟨h, .refl _, rfl, rfl, id⟩

theorem Keeps.trans (h : Keeps ty d d') (h' : Keeps ty d' d'') : Keeps ty d d'' where
  wf := h'.wf
  perm := h'.perm.trans h.perm
  pauserehash := h'.pauserehash.trans h.pauserehash
  pauseAutoResize := h'.pauseAutoResize.trans h.pauseAutoResize
  allocated hne := h'.allocated (h.allocated hne)

theorem Dict.Wf.size_eq (h : d.Wf ty) : d.size = d.entries.length := by
  rw [Dict.size, h.ht0.used, h.ht1.used, Dict.entries, List.length_append]

theorem Dict.Wf.entries_eq_nil_iff (h : d.Wf ty) : d.size = 0 ↔ d.entries = [] := by
  rw [h.size_eq, List.length_eq_zero_iff]

/-- Only a dict with a table is rehashed. -/
theorem Dict.Wf.rehashidx_eq_none (h : d.Wf ty) (hnil : d.ht0.buckets = []) : d.rehashidx = none := by
  by_contra hne
  have hre : d.isRehashing = true := Option.isSome_iff_ne_none.mpr hne
  exact (h.tables hre).1 hnil

/-- A dict with entries has a table. -/
theorem Dict.Wf.buckets_ne_nil (h : d.Wf ty) (hsize : d.size ≠ 0) : d.ht0.buckets ≠ [] := by
  intro hnil
  refine hsize (h.entries_eq_nil_iff.mpr ?_)
  simp [Dict.entries, Table.entries, hnil, h.idle (h.rehashidx_eq_none hnil), Table.reset]

end Wf

/-! ## Resizing -/

/-- What resizing does: nothing, or there is a table of another size, and what
there is to move is moved from the first bucket on. -/
structure Resizes (ty : DictType κ) (d d' : Dict κ ν) : Prop where
  keeps : Keeps ty d d'
  same_or : d' = d ∨ (d.ht0.sizeExp, d.ht1.sizeExp) ≠ (d'.ht0.sizeExp, d'.ht1.sizeExp) ∧
    (d'.rehashidx = none ∨ d'.rehashidx = some 0)

section Resizing

variable {ty : DictType κ} {d : Dict κ ν}

theorem Resizes.refl (h : d.Wf ty) : Resizes ty d d := ⟨.refl h, .inl rfl⟩

theorem isRehashing_eq_false_iff : d.isRehashing = false ↔ d.rehashidx = none := by
  rw [Dict.isRehashing, Option.isSome_eq_false_iff, Option.isNone_iff_eq_none]

theorem dictResize_spec (h : d.Wf ty) (hidle : d.isRehashing = false) (size : Nat) :
    Gives (fun r => Resizes ty d r.2 ∧ (r.1 = true → r.2.ht0.buckets ≠ [])) (dictResize d size) := by
  have hnone : d.rehashidx = none := isRehashing_eq_false_iff.mp hidle
  have hreset : d.ht1 = .reset := h.idle hnone
  rw [dictResize, if_neg (by simp [hidle])]
  dsimp only
  split_ifs with hbad hsame hempty
  · exact gives_ok ⟨.refl h, by simp⟩
  · exact gives_ok ⟨.refl h, by simp⟩
  · have hnil : d.ht0.entries = [] := by
      rcases hempty with hnil | hused
      · simp [Table.entries, hnil]
      · exact h.ht0.entries_eq_nil hused
    have hentries : d.entries = [] := by simp [Dict.entries, hnil, hreset]
    refine gives_ok ⟨⟨⟨⟨Table.wf_create _, Table.wf_reset, ?_, fun _ => rfl, ?_, ?_, ?_⟩, ?_, rfl, rfl, ?_⟩,
      .inr ⟨?_, .inl rfl⟩⟩, ?_⟩
    · simp [Dict.entries]
    · simp [Dict.isRehashing]
    · simp
    · simp
    · rw [hentries]
      simp [Dict.entries]
    · exact fun _ => Table.create_buckets_ne_nil _
    · rw [Ne, Prod.mk.injEq, not_and]
      exact fun heq => absurd heq.symm hsame
    · exact fun _ => Table.create_buckets_ne_nil _
  · rw [not_or] at hempty
    have hperm : ({ d with ht1 := .create (dictNextExp size), rehashidx := some 0 } : Dict κ ν).entries = d.entries := by
      simp [Dict.entries, hreset]
    refine gives_ok ⟨⟨⟨⟨h.ht0, Table.wf_create _, hperm ▸ h.nodup, ?_, ?_, ?_, ?_⟩, .of_eq hperm, rfl, rfl, id⟩,
      .inr ⟨?_, .inr rfl⟩⟩, fun _ => hempty.1⟩
    · simp
    · exact fun _ => ⟨hempty.1, Table.create_buckets_ne_nil _⟩
    · intro r hr i chain hi
      obtain rfl := Option.some.inj hr
      exact absurd hi (Nat.not_lt_zero i)
    · intro r hr
      obtain rfl := Option.some.inj hr
      exact Nat.zero_le _
    · rw [Ne, Prod.mk.injEq, hreset, not_and]
      intro _ hexp
      simp only [Table.reset, Table.create] at hexp
      omega

theorem dictExpand_spec (h : d.Wf ty) (size : Nat) :
    Gives (fun r => Resizes ty d r.2 ∧ (r.1 = true → r.2.ht0.buckets ≠ [])) (dictExpand d size) := by
  rw [dictExpand]
  split_ifs with hskip
  · exact gives_ok ⟨.refl h, by simp⟩
  · rw [not_or, Bool.not_eq_true] at hskip
    exact dictResize_spec h hskip.1 size

theorem dictShrink_spec (h : d.Wf ty) (size : Nat) :
    Gives (fun r => Resizes ty d r.2 ∧ (r.1 = true → r.2.ht0.buckets ≠ [])) (dictShrink d size) := by
  rw [dictShrink]
  split_ifs with hskip
  · exact gives_ok ⟨.refl h, by simp⟩
  · rw [not_or, Bool.not_eq_true] at hskip
    exact dictResize_spec h hskip.1 size

/-- The first table of a dict has four buckets. -/
theorem dictExpand_initial (h : d.Wf ty) (hexp : d.ht0.sizeExp = -1) :
    Gives (fun r => Resizes ty d r.2 ∧ r.2.ht0.buckets ≠ []) (dictExpand d htInitialSize) := by
  have hnil : d.ht0.buckets = [] := h.ht0.buckets_eq_nil_iff.mpr hexp
  have hidle : d.isRehashing = false := isRehashing_eq_false_iff.mpr (h.rehashidx_eq_none hnil)
  have hused : d.ht0.used = 0 := by simp [h.ht0.used, Table.entries, hnil]
  have hdone : ∃ d', dictExpand d htInitialSize = .ok (true, d') := by
    simp [dictExpand, dictResize, hidle, hused, hexp, hnil, dicthtSize, dictNextExp, htInitialSize, htInitialExp]
  obtain ⟨d', hd'⟩ := hdone
  obtain ⟨r, hr, hresizes, hne⟩ := dictExpand_spec h htInitialSize
  obtain rfl := Except.ok.inj (hd'.symm.trans hr)
  exact ⟨_, hr, hresizes, hne rfl⟩

/-- After it there is a table. -/
theorem dictExpandIfNeeded_spec (can : ResizeEnable) (h : d.Wf ty) :
    Gives (fun r => Resizes ty d r.2 ∧ r.2.ht0.buckets ≠ []) (dictExpandIfNeeded ty can d) := by
  rw [dictExpandIfNeeded]
  by_cases hre : d.isRehashing = true
  · rw [if_pos hre]
    exact gives_ok ⟨.refl h, (h.tables hre).1⟩
  rw [if_neg hre]
  by_cases hsize : dicthtSize d.ht0.sizeExp = 0
  · rw [if_pos hsize]
    exact (dictExpand_initial h (dicthtSize_eq_zero_iff.mp hsize)).bind fun r hr => gives_ok hr
  rw [if_neg hsize]
  have hne : d.ht0.buckets ≠ [] := fun hnil => hsize (dicthtSize_eq_zero_iff.mpr (h.ht0.buckets_eq_nil_iff.mp hnil))
  split_ifs
  · exact (dictExpand_spec h _).bind fun r hr => gives_ok ⟨hr.1, hr.1.keeps.allocated hne⟩
  · exact gives_ok ⟨.refl h, hne⟩
  · exact gives_ok ⟨.refl h, hne⟩

theorem dictShrinkIfNeeded_spec (can : ResizeEnable) (h : d.Wf ty) :
    Gives (fun r => Resizes ty d r.2) (dictShrinkIfNeeded ty can d) := by
  rw [dictShrinkIfNeeded]
  split_ifs
  · exact gives_ok (.refl h)
  · exact gives_ok (.refl h)
  · exact (dictShrink_spec h _).bind fun r hr => gives_ok hr.1
  · exact gives_ok (.refl h)
  · exact gives_ok (.refl h)

theorem unlessPaused_spec {resize : Dict κ ν → Except Crash (Bool × Dict κ ν)} (h : d.Wf ty)
    (hresize : Gives (fun r => Resizes ty d r.2) (resize d)) : Gives (Resizes ty d) (unlessPaused resize d) := by
  rw [unlessPaused]
  split_ifs
  · exact gives_ok (.refl h)
  · exact hresize.bind fun r hr => gives_ok hr

end Resizing

/-! ## Rehashing -/

/-- What moving does: the first table stays as long as there is anything left
in it. -/
structure Moves (ty : DictType κ) (d d' : Dict κ ν) : Prop where
  keeps : Keeps ty d d'
  first : d'.isRehashing = true → d'.ht0.sizeExp = d.ht0.sizeExp

section Rehashing

variable {ty : DictType κ} {d d' d'' : Dict κ ν}

theorem Moves.refl (h : d.Wf ty) : Moves ty d d := ⟨.refl h, fun _ => rfl⟩

/-- The loop over a chain puts it in front of the chains of the other table. -/
theorem rehashEntries_spec {idx : Nat} {chain : List (Entry κ ν)} (h1 : d.ht1.Wf ty) (hne : d.ht1.buckets ≠ [])
    (hidx : ∀ e ∈ chain, (if d.ht0.sizeExp < d.ht1.sizeExp then ty.hashFunction e.1 else idx) &&&
      dicthtSizeMask d.ht1.sizeExp = place ty d.ht1 e.1) :
    Gives (fun d' => ∃ t, d' = { d with ht0 := { d.ht0 with used := d.ht0.used - chain.length }, ht1 := t } ∧
      t.Wf ty ∧ t.sizeExp = d.ht1.sizeExp ∧ t.entries.Perm (chain ++ d.ht1.entries)) (rehashEntries ty idx chain d) := by
  induction chain generalizing d with
  | nil => exact gives_ok ⟨d.ht1, rfl, h1, rfl, .refl _⟩
  | cons e chain ih =>
      rw [rehashEntries]
      dsimp only
      rw [hidx e List.mem_cons_self]
      obtain ⟨there, hthere⟩ := h1.exists_bucket hne e.1
      refine (Table.gives_bucket hthere).bind fun c hc => ?_
      obtain rfl := hc
      obtain ⟨hlt, -⟩ := List.getElem?_eq_some_iff.mp hthere
      have hperm : (d.ht1.buckets.set (place ty d.ht1 e.1) (e :: c)).flatten.Perm (e :: d.ht1.entries) :=
        (flatten_set_perm hlt _).trans ((flatten_perm hthere).symm.cons e)
      have hwf : Table.Wf ty { d.ht1 with
          buckets := d.ht1.buckets.set (place ty d.ht1 e.1) (e :: c), used := d.ht1.used + 1 } := by
        refine ⟨by rw [List.length_set, h1.length], h1.placed.set ?_, ?_⟩
        · intro e' he'
          rcases List.mem_cons.mp he' with rfl | hmem
          · rfl
          · exact h1.placed _ _ hthere _ hmem
        · rw [Table.entries, hperm.length_eq, List.length_cons, h1.used]
      refine (ih (d := { d with
        ht0 := { d.ht0 with used := d.ht0.used - 1 }
        ht1 := { d.ht1 with buckets := d.ht1.buckets.set (place ty d.ht1 e.1) (e :: c), used := d.ht1.used + 1 } })
        hwf ?_ ?_).mono ?_
      · exact fun hnil => hne (List.length_eq_zero_iff.mp (by simpa using congrArg List.length hnil))
      · exact fun e' he' => hidx e' (List.mem_cons_of_mem e he')
      · rintro d' ⟨t, rfl, ht, hexp, hentries⟩
        refine ⟨t, ?_, ht, hexp, ?_⟩
        · simp only [List.length_cons, Nat.sub_sub, Nat.add_comm]
        · exact hentries.trans ((hperm.append_left chain).trans List.perm_middle)

/-- **A bucket moves** to the other table. -/
theorem rehashEntriesInBucketAtIndex_spec (h : d.Wf ty) (hre : d.isRehashing = true) {idx : Nat}
    (hidx : idx < d.ht0.buckets.length) :
    Gives (fun d' => Keeps ty d d' ∧ d'.rehashidx = d.rehashidx ∧ d'.ht0.sizeExp = d.ht0.sizeExp ∧
      d'.ht0.buckets = d.ht0.buckets.set idx []) (rehashEntriesInBucketAtIndex ty d idx) := by
  obtain ⟨hne0, hne1⟩ := h.tables hre
  obtain ⟨chain, hchain⟩ : ∃ chain, d.ht0.buckets[idx]? = some chain := ⟨_, List.getElem?_eq_getElem hidx⟩
  rw [rehashEntriesInBucketAtIndex]
  refine (Table.gives_bucket hchain).bind fun c hc => ?_
  obtain rfl := hc
  have hplace : ∀ e ∈ c, (if d.ht0.sizeExp < d.ht1.sizeExp then ty.hashFunction e.1 else idx) &&&
      dicthtSizeMask d.ht1.sizeExp = place ty d.ht1 e.1 := by
    intro e he
    split_ifs with hlt
    · rfl
    · rw [← h.ht0.placed idx c hchain e he, place, place]
      exact and_mask_of_le _ (h.ht0.buckets_eq_nil_iff.not.mp hne0) (h.ht1.buckets_eq_nil_iff.not.mp hne1)
        (Int.not_lt.mp hlt)
  refine (rehashEntries_spec h.ht1 hne1 hplace).bind ?_
  rintro d' ⟨t, rfl, ht, hexp, hentries⟩
  have hmoved : d.ht0.entries.Perm (c ++ (d.ht0.buckets.set idx []).flatten) := flatten_perm hchain
  have hperm : ((d.ht0.buckets.set idx []).flatten ++ t.entries).Perm d.entries := by
    rw [Dict.entries]
    refine (hentries.append_left _).trans (List.Perm.trans ?_ (hmoved.symm.append_right _))
    rw [← List.append_assoc]
    exact List.perm_append_comm.append_right _
  have hset : d.ht0.buckets.set idx [] ≠ [] := fun hnil => hne0 (by simpa using hnil)
  refine gives_ok ⟨⟨⟨⟨?_, h.ht0.placed.set (by simp), ?_⟩, ht, ?_, ?_, ?_, ?_, ?_⟩, hperm, rfl, rfl, fun _ => hset⟩,
    rfl, rfl, rfl⟩
  · exact List.length_set.trans h.ht0.length
  · show d.ht0.used - c.length = (d.ht0.buckets.set idx []).flatten.length
    rw [h.ht0.used, hmoved.length_eq, List.length_append, Nat.add_sub_cancel_left]
  · exact (List.perm_nodupKeys hperm).mpr h.nodup
  · intro hnone
    rw [Dict.isRehashing, show d.rehashidx = none from hnone] at hre
    contradiction
  · refine fun _ => ⟨hset, ?_⟩
    rw [Ne, ht.buckets_eq_nil_iff, hexp, ← h.ht1.buckets_eq_nil_iff]
    exact hne1
  · intro r hr i c' hi hc'
    rw [List.getElem?_set] at hc'
    split_ifs at hc'
    · exact (Option.some.inj hc').symm
    · exact h.behind r hr i c' hi hc'
  · exact fun r hr => List.length_set.symm ▸ h.bound r hr

/-- With nothing left in the first table the second one takes its place. -/
theorem dictCheckRehashingCompleted_spec (h : d.Wf ty) (hre : d.isRehashing = true) :
    Moves ty d (dictCheckRehashingCompleted d).2 := by
  rw [dictCheckRehashingCompleted]
  split_ifs with hused
  · exact .refl h
  · have hnil := h.ht0.entries_eq_nil (not_not.mp hused)
    have hentries : ({ d with ht0 := d.ht1, ht1 := .reset, rehashidx := none } : Dict κ ν).entries = d.entries := by
      simp [Dict.entries, hnil]
    refine ⟨⟨⟨h.ht1, Table.wf_reset, hentries ▸ h.nodup, fun _ => rfl, ?_, ?_, ?_⟩, .of_eq hentries, rfl, rfl, ?_⟩, ?_⟩
    · simp [Dict.isRehashing]
    · simp
    · simp
    · exact fun _ => (h.tables hre).2
    · simp [Dict.isRehashing]

/-- Up to which bucket a table is empty. -/
def EmptyUpto (t : Table κ ν) (idx : Nat) : Prop :=
  ∀ (i : Nat) (chain : List (Entry κ ν)), i < idx → t.buckets[i]? = some chain → chain = []

theorem EmptyUpto.lt_length {t : Table κ ν} {idx : Nat} (h : EmptyUpto t idx) (ht : t.Wf ty) (hused : t.used ≠ 0) :
    idx < t.buckets.length := by
  obtain ⟨i, chain, hi, hne⟩ := ht.exists_nonempty hused
  have hlt : i < t.buckets.length := (List.getElem?_eq_some_iff.mp hi).1
  by_contra hge
  exact hne (h i chain (by omega) hi)

theorem EmptyUpto.succ {t : Table κ ν} {idx : Nat} (h : EmptyUpto t idx) (hidx : t.buckets[idx]? = some []) :
    EmptyUpto t (idx + 1) := by
  intro i chain hi hchain
  rcases Nat.lt_succ_iff_lt_or_eq.mp hi with hlt | rfl
  · exact h i chain hlt hchain
  · exact (Option.some.inj (hidx.symm.trans hchain)).symm

/-- The loop over empty buckets stays inside the table. -/
theorem skipEmpty_spec {t : Table κ ν} (ht : t.Wf ty) (hused : t.used ≠ 0) (n : Nat) {idx : Nat}
    (h : EmptyUpto t idx) : Gives (fun r => EmptyUpto t r.2) (skipEmpty t n idx) := by
  induction n generalizing idx with
  | zero => exact gives_ok h
  | succ n ih =>
      obtain ⟨chain, hchain⟩ : ∃ chain, t.buckets[idx]? = some chain :=
        ⟨_, List.getElem?_eq_getElem (h.lt_length ht hused)⟩
      rw [skipEmpty]
      refine (Table.gives_bucket hchain).bind fun c hc => ?_
      obtain rfl := hc
      split_ifs with hnil
      · exact ih (h.succ (hnil ▸ hchain))
      · exact gives_ok h

theorem Dict.Wf.setRehashidx (h : d.Wf ty) (hre : d.isRehashing = true) {idx : Nat} (hidx : EmptyUpto d.ht0 idx)
    (hbound : idx ≤ d.ht0.buckets.length) : Keeps ty d { d with rehashidx := some idx } := by
  refine ⟨⟨h.ht0, h.ht1, h.nodup, ?_, fun _ => h.tables hre, ?_, ?_⟩, .refl _, rfl, rfl, id⟩
  · simp
  · intro r hr
    obtain rfl := Option.some.inj hr
    exact hidx
  · intro r hr
    obtain rfl := Option.some.inj hr
    exact hbound

theorem rehashLoop_spec (n emptyVisits : Nat) (h : d.Wf ty) (hre : d.isRehashing = true) :
    Gives (fun r => Moves ty d r.2) (rehashLoop ty n emptyVisits d) := by
  induction n generalizing emptyVisits d with
  | zero => exact gives_ok (dictCheckRehashingCompleted_spec h hre)
  | succ n ih =>
      rw [rehashLoop]
      split_ifs with hused
      · exact gives_ok (dictCheckRehashingCompleted_spec h hre)
      obtain ⟨idx, hidx⟩ := Option.isSome_iff_exists.mp hre
      have hempty : EmptyUpto d.ht0 idx := h.behind idx hidx
      rw [hidx]
      dsimp only
      rw [if_neg (by rw [← h.ht0.length]; exact Nat.not_le.mpr (hempty.lt_length h.ht0 hused))]
      refine (skipEmpty_spec h.ht0 hused emptyVisits hempty).bind ?_
      rintro ⟨emptyVisits, idx'⟩ hempty'
      dsimp only at hempty' ⊢
      split_ifs with hstop
      · exact gives_ok ⟨h.setRehashidx hre hempty' (hempty'.lt_length h.ht0 hused).le, fun _ => rfl⟩
      refine (rehashEntriesInBucketAtIndex_spec h hre (hempty'.lt_length h.ht0 hused)).bind ?_
      rintro d₁ ⟨hkeeps, hsame, hexp, hbuckets⟩
      have hre₁ : d₁.isRehashing = true := by rw [Dict.isRehashing, hsame]; exact hre
      have hempty₁ : EmptyUpto d₁.ht0 (idx' + 1) := by
        have hrest : EmptyUpto d₁.ht0 idx' := by
          intro i chain hi hchain
          rw [hbuckets, List.getElem?_set_ne (by omega)] at hchain
          exact hempty' i chain hi hchain
        refine hrest.succ ?_
        rw [hbuckets, List.getElem?_set_self (hempty'.lt_length h.ht0 hused)]
      have hbound₁ : idx' + 1 ≤ d₁.ht0.buckets.length := by
        rw [hbuckets, List.length_set]
        exact hempty'.lt_length h.ht0 hused
      have hkeeps₁ := hkeeps.wf.setRehashidx hre₁ hempty₁ hbound₁
      refine (ih emptyVisits hkeeps₁.wf rfl).mono fun r hr => ⟨hkeeps.trans (hkeeps₁.trans hr.keeps), fun hre' => ?_⟩
      exact (hr.first hre').trans hexp

theorem isRehashing_of_mayRehash {can : ResizeEnable} (h : mayRehash can d = true) : d.isRehashing = true := by
  rw [mayRehash, decide_eq_true_iff] at h
  exact h.2.1

theorem dictRehash_spec (can : ResizeEnable) (h : d.Wf ty) (n : Nat) :
    Gives (fun r => Moves ty d r.2) (dictRehash ty can d n) := by
  rw [dictRehash]
  split_ifs with hmay
  · exact rehashLoop_spec n _ h (isRehashing_of_mayRehash hmay)
  · exact gives_ok (.refl h)

theorem dictBucketRehash_spec (can : ResizeEnable) (h : d.Wf ty) {idx : Nat} (hidx : idx < d.ht0.buckets.length) :
    Gives (Moves ty d) (dictBucketRehash ty can d idx) := by
  rw [dictBucketRehash]
  split_ifs with hskip
  · exact gives_ok (.refl h)
  · rw [not_or, not_not, not_not] at hskip
    have hre := isRehashing_of_mayRehash hskip.2
    refine (rehashEntriesInBucketAtIndex_spec h hre hidx).bind ?_
    rintro d₁ ⟨hkeeps, hsame, hexp, -⟩
    have hre₁ : d₁.isRehashing = true := by rw [Dict.isRehashing, hsame]; exact hre
    have hdone := dictCheckRehashingCompleted_spec hkeeps.wf hre₁
    exact gives_ok ⟨hkeeps.trans hdone.keeps, fun hre' => (hdone.first hre').trans hexp⟩

/-- **The step on the way** of a search for a key. -/
theorem dictRehashStepIfNeeded_spec (can : ResizeEnable) (h : d.Wf ty) (key : κ) :
    Gives (Moves ty d) (dictRehashStepIfNeeded ty can d (place ty d.ht0 key)) := by
  rw [dictRehashStepIfNeeded]
  cases hr : d.rehashidx with
  | none => exact gives_ok (.refl h)
  | some r =>
      have hne := (h.tables (Option.isSome_iff_exists.mpr ⟨r, hr⟩)).1
      have hlt := h.ht0.place_lt hne key
      dsimp only
      split_ifs with hpause hvisited
      · exact gives_ok (.refl h)
      · obtain ⟨chain, hchain⟩ := h.ht0.exists_bucket hne key
        refine (Table.gives_bucket hchain).bind fun c _ => ?_
        split_ifs
        · exact dictBucketRehash_spec can h hlt
        · exact (dictRehash_spec can h 1).bind fun r hr => gives_ok hr
      · refine Gives.bind (gives_ok rfl : Gives (fun c => c = []) _) fun c hc => ?_
        obtain rfl := hc
        rw [if_neg (by simp)]
        exact (dictRehash_spec can h 1).bind fun r hr => gives_ok hr

end Rehashing

end SkynetJit.Redis.HashTable
