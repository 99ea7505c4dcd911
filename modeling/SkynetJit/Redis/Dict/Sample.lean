import SkynetJit.Redis.Dict.Refinement

/-!
# SkynetJit.Redis.Dict.Sample

Random entries of a dict.

`dictGetFairRandomKey` samples up to fifteen entries that lie near each other,
and picks one of them; if it met none, `dictGetRandomKey` draws buckets until
one is not empty.  `yields_dictGetFairRandomKey` says that an entry of the dict
comes out, whatever is drawn, and `runs_dictGetFairRandomKey` that every entry
can.
-/

namespace SkynetJit.Redis.HashTable

open Buckets Raise Draw

variable {κ ν : Type}

/-! ## Sampling -/

/-- An operation that draws nothing. -/
def undrawn {α : Type} (x : Except Crash α) : Rand α := fun rs =>
  match x with
  | .ok a => .ok (a, rs)
  | .error crash => .error (.fault crash)

/-- `_dictRehashStep`. -/
def dictRehashStep (ty : DictType κ) (can : ResizeEnable) (d : Dict κ ν) : Except Crash (Dict κ ν) :=
  if d.pauserehash ≠ 0 then .ok d
  else do
    let (_, d) ← dictRehash ty can d 1
    pure d

/-- The bucket that a random number stands for; the buckets of both tables if
it is being rehashed, without those that are behind. -/
def bucketAt (d : Dict κ ν) (r : Nat) : Option (List (Entry κ ν)) :=
  let s0 := dicthtSize d.ht0.sizeExp
  match d.rehashidx with
  | some idx =>
      let h := idx + r % (s0 + dicthtSize d.ht1.sizeExp - idx)
      if s0 ≤ h then d.ht1.buckets[h - s0]? else d.ht0.buckets[h]?
  | none => d.ht0.buckets[r &&& dicthtSizeMask d.ht0.sizeExp]?

/-- `dictGetRandomKey`, a turn of its loop. -/
def randomBucket (d : Dict κ ν) : Rand (Unit ⊕ List (Entry κ ν)) := do
  let r ← next
  let chain ← expect .access (bucketAt d r)
  pure (if chain = [] then .inl () else .inr chain)

/-- One of several entries. -/
def pick (l : List (Entry κ ν)) : Rand (Entry κ ν) := do
  let r ← next
  expect .access l[r % l.length]?

/-- `dictGetRandomKey`. -/
def dictGetRandomKey (ty : DictType κ) (can : ResizeEnable) (d : Dict κ ν) : Rand (Option (Entry κ ν) × Dict κ ν) :=
  if d.size = 0 then pure (none, d)
  else do
    let d ← undrawn (if d.isRehashing then dictRehashStep ty can d else .ok d)
    let chain ← loop (fun _ => randomBucket d) ()
    let he ← pick chain
    pure (some he, d)

/-- The state of `dictGetSomeKeys`: the samples, how many entries were met, and
where it stands after how many empty buckets. -/
structure Sampling (κ ν : Type) where
  des : List (Entry κ ν)
  stored : Nat
  i : Nat
  emptylen : Nat

/-- `dictGetSomeKeys`, the loop over a chain. -/
def sampleChain (count : Nat) : List (Entry κ ν) → Sampling κ ν → Rand (Sampling κ ν)
  | [], s => pure s
  | he :: chain, s =>
      if s.stored < count then sampleChain count chain { s with des := s.des ++ [he], stored := s.stored + 1 }
      else do
        let r ← next
        let r := r % (s.stored + 1)
        sampleChain count chain { s with des := if r < count then s.des.set r he else s.des, stored := s.stored + 1 }

/-- `dictGetSomeKeys`, a bucket of one of the tables. -/
def sampleBucket (d : Dict κ ν) (count mask : Nat) (second : Bool) (s : Sampling κ ν) : Rand (Sampling κ ν) :=
  if dicthtSize (d.ht second).sizeExp ≤ s.i then pure s
  else do
    let chain ← expect .access (d.ht second).buckets[s.i]?
    if chain = [] then
      if 5 ≤ s.emptylen + 1 ∧ count < s.emptylen + 1 then do
        let r ← next
        pure { s with i := r &&& mask, emptylen := 0 }
      else pure { s with emptylen := s.emptylen + 1 }
    else sampleChain count chain { s with emptylen := 0 }

/-- `dictGetSomeKeys`, one of the tables: of the first one, what is behind is
skipped. -/
def sampleTable (d : Dict κ ν) (count mask : Nat) (second : Bool) (s : Sampling κ ν) : Rand (Sampling κ ν) :=
  let behind := d.isRehashing && !second && d.rehashidx.any fun r => s.i < r
  if behind ∧ s.i < dicthtSize d.ht1.sizeExp then pure s
  else sampleBucket d count mask second (if behind then { s with i := d.rehashidx.getD 0 } else s)

/-- `dictGetSomeKeys`, the loop over the tables. -/
def sampleTables (d : Dict κ ν) (count mask : Nat) : List Bool → Sampling κ ν → Rand (Sampling κ ν)
  | [], s => pure s
  | second :: tables, s => do
      let s ← sampleTable d count mask second s
      if count ≤ s.stored then pure s else sampleTables d count mask tables s

/-- `dictGetSomeKeys`, the loop over so many steps. -/
def sampleLoop (d : Dict κ ν) (count mask : Nat) (tables : List Bool) : Nat → Sampling κ ν → Rand (Sampling κ ν)
  | 0, s => pure s
  | maxsteps + 1, s =>
      if s.stored < count then do
        let s ← sampleTables d count mask tables s
        if count ≤ s.stored then pure s
        else sampleLoop d count mask tables maxsteps { s with i := (s.i + 1) &&& mask }
      else pure s

/-- `dictGetSomeKeys`, the rehashing before it. -/
def rehashSteps (ty : DictType κ) (can : ResizeEnable) : Nat → Dict κ ν → Except Crash (Dict κ ν)
  | 0, d => .ok d
  | n + 1, d =>
      if d.isRehashing then do
        let d ← dictRehashStep ty can d
        rehashSteps ty can n d
      else .ok d

/-- `dictGetSomeKeys`. -/
def dictGetSomeKeys (ty : DictType κ) (can : ResizeEnable) (d : Dict κ ν) (count : Nat) :
    Rand (List (Entry κ ν) × Dict κ ν) := do
  let count := if d.size < count then d.size else count
  let d ← undrawn (rehashSteps ty can count d)
  let tables := if d.isRehashing then [false, true] else [false]
  let mask0 := dicthtSizeMask d.ht0.sizeExp
  let mask1 := dicthtSizeMask d.ht1.sizeExp
  let mask := if d.isRehashing ∧ mask0 < mask1 then mask1 else mask0
  let r ← next
  let s ← sampleLoop d count mask tables (count * 10) ⟨[], 0, r &&& mask, 0⟩
  pure (s.des, d)

/-- `GETFAIR_NUM_ENTRIES`. -/
def getfairNumEntries : Nat := 15

/-- `dictGetFairRandomKey`. -/
def dictGetFairRandomKey (ty : DictType κ) (can : ResizeEnable) (d : Dict κ ν) : Rand (Option (Entry κ ν) × Dict κ ν) := do
  let (entries, d) ← dictGetSomeKeys ty can d getfairNumEntries
  if entries.length = 0 then dictGetRandomKey ty can d
  else do
    let he ← pick entries
    pure (some he, d)

/-! ## An entry comes out -/

section Yields

variable {ty : DictType κ} {can : ResizeEnable} {d : Dict κ ν}

theorem yields_undrawn {α : Type} {P : α → Prop} {x : Except Crash α} (h : Gives P x) : Yields P (undrawn x) := by
  obtain ⟨a, rfl, ha⟩ := h
  exact yields_pure ha

theorem dictRehashStep_spec (h : d.Wf ty) : Gives (Keeps ty d) (dictRehashStep ty can d) := by
  rw [dictRehashStep]
  split_ifs
  · exact gives_ok (.refl h)
  · exact (dictRehash_spec can h 1).bind fun r hr => gives_ok hr.keeps

theorem rehashSteps_spec (n : Nat) (h : d.Wf ty) : Gives (Keeps ty d) (rehashSteps ty can n d) := by
  induction n generalizing d with
  | zero => exact gives_ok (.refl h)
  | succ n ih =>
      rw [rehashSteps]
      split_ifs
      · exact (dictRehashStep_spec h).bind fun d₁ hd₁ => (ih hd₁.wf).mono fun d₂ hd₂ => hd₁.trans hd₂
      · exact gives_ok (.refl h)

theorem mem_entries_of_ht0 {i : Nat} {chain : List (Entry κ ν)} (hchain : d.ht0.buckets[i]? = some chain)
    {e : Entry κ ν} (he : e ∈ chain) : e ∈ d.entries :=
  List.mem_append_left _ (mem_flatten_iff.mpr ⟨i, chain, hchain, he⟩)

theorem mem_entries_of_ht1 {i : Nat} {chain : List (Entry κ ν)} (hchain : d.ht1.buckets[i]? = some chain)
    {e : Entry κ ν} (he : e ∈ chain) : e ∈ d.entries :=
  List.mem_append_right _ (mem_flatten_iff.mpr ⟨i, chain, hchain, he⟩)

/-- Any number stands for a bucket. -/
theorem bucketAt_spec (h : d.Wf ty) (hne : d.ht0.buckets ≠ []) (r : Nat) :
    ∃ chain, bucketAt d r = some chain ∧ ∀ e ∈ chain, e ∈ d.entries := by
  have hread0 {i : Nat} (hi : i < d.ht0.buckets.length) :
      ∃ chain, d.ht0.buckets[i]? = some chain ∧ ∀ e ∈ chain, e ∈ d.entries :=
    ⟨_, List.getElem?_eq_getElem hi, fun e he => mem_entries_of_ht0 (List.getElem?_eq_getElem hi) he⟩
  have hread1 {i : Nat} (hi : i < d.ht1.buckets.length) :
      ∃ chain, d.ht1.buckets[i]? = some chain ∧ ∀ e ∈ chain, e ∈ d.entries :=
    ⟨_, List.getElem?_eq_getElem hi, fun e he => mem_entries_of_ht1 (List.getElem?_eq_getElem hi) he⟩
  have hexp := h.ht0.buckets_eq_nil_iff.not.mp hne
  rw [bucketAt]
  cases hr : d.rehashidx with
  | none =>
      refine hread0 ?_
      rw [and_dicthtSizeMask _ hexp, h.ht0.length]
      exact Nat.mod_lt _ (dicthtSize_pos hexp)
  | some idx =>
      have htables := h.tables (Option.isSome_iff_exists.mpr ⟨idx, hr⟩)
      have hpos := dicthtSize_pos (h.ht1.buckets_eq_nil_iff.not.mp htables.2)
      have hbound := h.bound idx hr
      rw [h.ht0.length] at hbound
      have hlt := Nat.mod_lt r (show 0 < dicthtSize d.ht0.sizeExp + dicthtSize d.ht1.sizeExp - idx by omega)
      dsimp only
      split_ifs with hge
      · exact hread1 (by rw [h.ht1.length]; omega)
      · exact hread0 (by rw [h.ht0.length]; omega)

/-- Every bucket of the first table that is not empty has its number. -/
theorem exists_bucketAt_ht0 (h : d.Wf ty) {i : Nat} {chain : List (Entry κ ν)} (hchain : d.ht0.buckets[i]? = some chain)
    (hne : chain ≠ []) : ∃ r, bucketAt d r = some chain := by
  have hlt : i < dicthtSize d.ht0.sizeExp := h.ht0.length ▸ (List.getElem?_eq_some_iff.mp hchain).1
  have hexp : d.ht0.sizeExp ≠ -1 := fun hexp => by simp [hexp, dicthtSize] at hlt
  cases hr : d.rehashidx with
  | none =>
      refine ⟨i, ?_⟩
      simp only [bucketAt, hr]
      rwa [and_dicthtSizeMask i hexp, Nat.mod_eq_of_lt hlt]
  | some idx =>
      have hfront : idx ≤ i := by
        by_contra hbehind
        exact hne (h.behind idx hr i chain (by omega) hchain)
      refine ⟨i - idx, ?_⟩
      simp only [bucketAt, hr]
      rw [Nat.mod_eq_of_lt (by omega), Nat.add_sub_cancel' hfront, if_neg (by omega)]
      exact hchain

/-- Every bucket of the second table has its number. -/
theorem exists_bucketAt_ht1 (h : d.Wf ty) {i : Nat} {chain : List (Entry κ ν)}
    (hchain : d.ht1.buckets[i]? = some chain) : ∃ r, bucketAt d r = some chain := by
  have hlt : i < dicthtSize d.ht1.sizeExp := h.ht1.length ▸ (List.getElem?_eq_some_iff.mp hchain).1
  cases hr : d.rehashidx with
  | none =>
      rw [h.idle hr] at hchain
      simp [Table.reset] at hchain
  | some idx =>
      have hbound := h.bound idx hr
      rw [h.ht0.length] at hbound
      refine ⟨dicthtSize d.ht0.sizeExp + i - idx, ?_⟩
      simp only [bucketAt, hr]
      rw [Nat.mod_eq_of_lt (by omega), if_pos (by omega),
        show idx + (dicthtSize d.ht0.sizeExp + i - idx) - dicthtSize d.ht0.sizeExp = i by omega]
      exact hchain

/-- Some number stands for a bucket that is not empty. -/
theorem exists_bucketAt (h : d.Wf ty) (hsize : d.size ≠ 0) :
    ∃ r chain, bucketAt d r = some chain ∧ chain ≠ [] := by
  obtain ⟨e, he⟩ := List.exists_mem_of_ne_nil _ (h.entries_eq_nil_iff.not.mp hsize)
  rcases List.mem_append.mp he with hmem | hmem
  · obtain ⟨i, chain, hchain, hin⟩ := mem_flatten_iff.mp hmem
    obtain ⟨r, hr⟩ := exists_bucketAt_ht0 h hchain (List.ne_nil_of_mem hin)
    exact ⟨r, chain, hr, List.ne_nil_of_mem hin⟩
  · obtain ⟨i, chain, hchain, hin⟩ := mem_flatten_iff.mp hmem
    obtain ⟨r, hr⟩ := exists_bucketAt_ht1 h hchain
    exact ⟨r, chain, hr, List.ne_nil_of_mem hin⟩

/-- The outcome of a bucket: another one is drawn, or it has entries. -/
def Drawn (d : Dict κ ν) : Unit ⊕ List (Entry κ ν) → Prop :=
  Sum.elim (fun _ => True) fun chain => chain ≠ [] ∧ ∀ e ∈ chain, e ∈ d.entries

theorem runs_randomBucket {r : Nat} {chain : List (Entry κ ν)} (hr : bucketAt d r = some chain) :
    Runs (randomBucket d) [r] (if chain = [] then .inl () else .inr chain) := by
  have htail : Runs (do
      let chain ← expect .access (bucketAt d r)
      pure (if chain = [] then .inl () else .inr chain) : Rand (Unit ⊕ List (Entry κ ν))) []
      (if chain = [] then .inl () else .inr chain) := by
    rw [hr]
    exact fun rest => rfl
  exact (runs_next r).bind htail

theorem yields_randomBucket (h : d.Wf ty) (hne : d.ht0.buckets ≠ []) : Yields (Drawn d) (randomBucket d) := by
  refine yields_next.bind fun r _ => (yields_expect (bucketAt_spec h hne r)).bind fun chain hchain => yields_pure ?_
  split_ifs with hnil
  · trivial
  · exact ⟨hnil, hchain⟩

/-- What comes out: an entry, and a dict with the same entries. -/
def Sampled (ty : DictType κ) (d : Dict κ ν) (r : Option (Entry κ ν) × Dict κ ν) : Prop :=
  (∃ e ∈ d.entries, r.1 = some e) ∧ Keeps ty d r.2

theorem Sampled.of_keeps {d₁ : Dict κ ν} (hkeeps : Keeps ty d d₁) {r : Option (Entry κ ν) × Dict κ ν}
    (h : Sampled ty d₁ r) : Sampled ty d r := by
  obtain ⟨⟨e, he, hr⟩, hkeeps'⟩ := h
  exact ⟨⟨e, hkeeps.perm.mem_iff.mp he, hr⟩, hkeeps.trans hkeeps'⟩

theorem Keeps.size_eq (h : d.Wf ty) {d₁ : Dict κ ν} (hkeeps : Keeps ty d d₁) : d₁.size = d.size := by
  rw [hkeeps.wf.size_eq, h.size_eq, hkeeps.perm.length_eq]

theorem yields_pick {l : List (Entry κ ν)} (hne : l ≠ []) : Yields (fun e => e ∈ l) (pick l) := by
  refine yields_next.bind fun r _ => ?_
  have hlt := Nat.mod_lt r (List.length_pos_of_ne_nil hne)
  exact yields_expect ⟨_, List.getElem?_eq_getElem hlt, List.getElem_mem hlt⟩

theorem yields_dictGetRandomKey (h : d.Wf ty) (hsize : d.size ≠ 0) :
    Yields (Sampled ty d) (dictGetRandomKey ty can d) := by
  rw [dictGetRandomKey, if_neg hsize]
  have hstep : Gives (Keeps ty d) (if d.isRehashing then dictRehashStep ty can d else .ok d) := by
    split_ifs
    · exact dictRehashStep_spec h
    · exact gives_ok (.refl h)
  refine (yields_undrawn hstep).bind fun d₁ hd₁ => ?_
  have hsize₁ : d₁.size ≠ 0 := hd₁.size_eq h ▸ hsize
  have hbuckets := yields_randomBucket hd₁.wf (hd₁.wf.buckets_ne_nil hsize₁)
  have hchain : Yields (fun chain : List (Entry κ ν) => chain ≠ [] ∧ ∀ e ∈ chain, e ∈ d₁.entries)
      (loop (fun _ => randomBucket d₁) ()) := by
    refine yields_loop (I := fun _ => True) (fun _ _ => hbuckets) (fun _ => 0) (fun _ _ => ?_) trivial
    obtain ⟨r, chain, hr, hne⟩ := exists_bucketAt hd₁.wf hsize₁
    refine ⟨[r], .inr chain, ?_, trivial⟩
    have hruns := runs_randomBucket hr
    rwa [if_neg hne] at hruns
  refine hchain.bind fun chain hc => (yields_pick hc.1).bind fun e he => yields_pure ?_
  exact ⟨⟨e, hd₁.perm.mem_iff.mp (hc.2 e he), rfl⟩, hd₁⟩

/-- The samples are entries, and as many as were met if that are not too many. -/
structure Sampling.Of (d : Dict κ ν) (count : Nat) (s : Sampling κ ν) : Prop where
  mem : ∀ e ∈ s.des, e ∈ d.entries
  length : s.des.length = min s.stored count

theorem yields_sampleChain {count : Nat} {chain : List (Entry κ ν)} (hchain : ∀ e ∈ chain, e ∈ d.entries)
    {s : Sampling κ ν} (hs : s.Of d count) : Yields (Sampling.Of d count) (sampleChain count chain s) := by
  induction chain generalizing s with
  | nil => exact yields_pure hs
  | cons he chain ih =>
      have hin := hchain he List.mem_cons_self
      have hrest := fun e he => hchain e (List.mem_cons_of_mem _ he)
      rw [sampleChain]
      split_ifs with hstored
      · refine ih hrest ⟨fun e hmem => ?_, ?_⟩
        · rcases List.mem_append.mp hmem with hold | hnew
          · exact hs.mem e hold
          · rwa [List.mem_singleton.mp hnew]
        · have hlength := hs.length
          simp only [List.length_append, List.length_singleton]
          omega
      · refine yields_next.bind fun r _ => ih hrest ⟨fun e hmem => ?_, ?_⟩
        · dsimp only at hmem
          split_ifs at hmem with hr
          · rcases List.mem_or_eq_of_mem_set hmem with hold | hnew
            · exact hs.mem e hold
            · rwa [hnew]
          · exact hs.mem e hmem
        · have hlength := hs.length
          dsimp only
          rw [apply_ite List.length, List.length_set, ite_self]
          omega

/-- A bucket that is inside its table. -/
theorem exists_chain (h : d.Wf ty) (second : Bool) {i : Nat} (hi : ¬ dicthtSize (d.ht second).sizeExp ≤ i) :
    ∃ chain, (d.ht second).buckets[i]? = some chain ∧ ∀ e ∈ chain, e ∈ d.entries := by
  cases second with
  | false =>
      have hlt : i < d.ht0.buckets.length := h.ht0.length ▸ Nat.not_le.mp hi
      exact ⟨_, List.getElem?_eq_getElem hlt, fun e he => mem_entries_of_ht0 (List.getElem?_eq_getElem hlt) he⟩
  | true =>
      have hlt : i < d.ht1.buckets.length := h.ht1.length ▸ Nat.not_le.mp hi
      exact ⟨_, List.getElem?_eq_getElem hlt, fun e he => mem_entries_of_ht1 (List.getElem?_eq_getElem hlt) he⟩

theorem yields_sampleBucket (h : d.Wf ty) {count : Nat} (mask : Nat) (second : Bool) {s : Sampling κ ν}
    (hs : s.Of d count) : Yields (Sampling.Of d count) (sampleBucket d count mask second s) := by
  refine yields_ite (fun _ => yields_pure hs) fun hinside => (yields_expect (exists_chain h second hinside)).bind ?_
  intro chain hchain
  refine yields_ite (fun _ => ?_) fun _ => yields_sampleChain hchain ⟨hs.mem, hs.length⟩
  refine yields_ite (fun _ => ?_) fun _ => yields_pure ⟨hs.mem, hs.length⟩
  exact yields_next.bind fun r _ => yields_pure ⟨hs.mem, hs.length⟩

theorem yields_sampleTable (h : d.Wf ty) {count : Nat} (mask : Nat) (second : Bool) {s : Sampling κ ν}
    (hs : s.Of d count) : Yields (Sampling.Of d count) (sampleTable d count mask second s) := by
  refine yields_ite (fun _ => yields_pure hs) fun _ => yields_sampleBucket h mask second ?_
  split_ifs
  · exact ⟨hs.mem, hs.length⟩
  · exact hs

theorem yields_sampleTables (h : d.Wf ty) {count : Nat} (mask : Nat) (tables : List Bool) {s : Sampling κ ν}
    (hs : s.Of d count) : Yields (Sampling.Of d count) (sampleTables d count mask tables s) := by
  induction tables generalizing s with
  | nil => exact yields_pure hs
  | cons second tables ih =>
      refine (yields_sampleTable h mask second hs).bind fun s' hs' => ?_
      exact yields_ite (fun _ => yields_pure hs') fun _ => ih hs'

theorem yields_sampleLoop (h : d.Wf ty) {count : Nat} (mask : Nat) (tables : List Bool) (maxsteps : Nat)
    {s : Sampling κ ν} (hs : s.Of d count) :
    Yields (Sampling.Of d count) (sampleLoop d count mask tables maxsteps s) := by
  induction maxsteps generalizing s with
  | zero => exact yields_pure hs
  | succ maxsteps ih =>
      refine yields_ite (fun _ => ?_) fun _ => yields_pure hs
      refine (yields_sampleTables h mask tables hs).bind fun s' hs' => ?_
      exact yields_ite (fun _ => yields_pure hs') fun _ => ih ⟨hs'.mem, hs'.length⟩

/-- The samples are entries, and not more than were asked for. -/
theorem yields_dictGetSomeKeys (h : d.Wf ty) (count : Nat) :
    Yields (fun r : List (Entry κ ν) × Dict κ ν =>
      Keeps ty d r.2 ∧ (∀ e ∈ r.1, e ∈ d.entries) ∧ r.1.length ≤ count) (dictGetSomeKeys ty can d count) := by
  refine (yields_undrawn (rehashSteps_spec _ h)).bind fun d₁ hd₁ => yields_next.bind fun r _ => ?_
  refine (yields_sampleLoop hd₁.wf _ _ _ ⟨by simp, by simp⟩).bind fun s hs => yields_pure ⟨hd₁, ?_, ?_⟩
  · exact fun e he => hd₁.perm.mem_iff.mp (hs.mem e he)
  · have hlength := hs.length
    dsimp only
    split_ifs at hlength <;> omega

/-- **An entry comes out** of a dict that has some, whatever is drawn. -/
theorem yields_dictGetFairRandomKey (h : d.Wf ty) (hsize : d.size ≠ 0) :
    Yields (Sampled ty d) (dictGetFairRandomKey ty can d) := by
  refine (yields_dictGetSomeKeys h getfairNumEntries).bind ?_
  rintro ⟨entries, d₁⟩ ⟨hkeeps, hentries, -⟩
  dsimp only
  refine yields_ite (fun _ => ?_) fun hne => ?_
  · exact (yields_dictGetRandomKey hkeeps.wf (hkeeps.size_eq h ▸ hsize)).mono fun r hr => hr.of_keeps hkeeps
  · rw [List.length_eq_zero_iff] at hne
    exact (yields_pick hne).bind fun e he => yields_pure ⟨⟨e, hentries e he, rfl⟩, hkeeps⟩

end Yields

/-! ## Every entry can come out -/

section Covers

variable {ty : DictType κ} {can : ResizeEnable} {d : Dict κ ν} {count : Nat} {e : Entry κ ν}

/-- Some draws lead to samples with the entry. -/
def Catches (e : Entry κ ν) (x : Rand (Sampling κ ν)) : Prop := ∃ rs s, Runs x rs s ∧ e ∈ s.des

/-- A sample need not be given up again. -/
theorem catches_sampleChain_of_mem (chain : List (Entry κ ν)) {s : Sampling κ ν} (he : e ∈ s.des) :
    Catches e (sampleChain count chain s) := by
  induction chain generalizing s with
  | nil => exact ⟨[], s, runs_pure s, he⟩
  | cons c chain ih =>
      rw [sampleChain]
      split_ifs with hstored
      · exact ih (List.mem_append_left _ he)
      · have hkept : s.stored % (s.stored + 1) = s.stored := Nat.mod_eq_of_lt (Nat.lt_succ_self _)
        obtain ⟨rs, s', hs', he'⟩ := ih (s := { s with des := s.des, stored := s.stored + 1 }) he
        refine ⟨s.stored :: rs, s', (runs_next s.stored).bind ?_, he'⟩
        dsimp only
        rwa [hkept, if_neg hstored]

/-- Every entry of the chain can be a sample. -/
theorem catches_sampleChain {chain : List (Entry κ ν)} (he : e ∈ chain) (hcount : 0 < count) {s : Sampling κ ν}
    (hs : s.des.length = min s.stored count) : Catches e (sampleChain count chain s) := by
  induction chain generalizing s with
  | nil => cases he
  | cons c chain ih =>
      rw [sampleChain]
      split_ifs with hstored
      · rcases List.mem_cons.mp he with rfl | hrest
        · exact catches_sampleChain_of_mem chain (List.mem_append_right _ List.mem_cons_self)
        · refine ih hrest ?_
          simp only [List.length_append, List.length_singleton]
          omega
      · have hzero : 0 % (s.stored + 1) = 0 := Nat.zero_mod _
        have hcatch : Catches e (sampleChain count chain { s with des := s.des.set 0 c, stored := s.stored + 1 }) := by
          rcases List.mem_cons.mp he with rfl | hrest
          · exact catches_sampleChain_of_mem chain (List.mem_iff_getElem.mpr ⟨0, by simp; omega, by simp⟩)
          · refine ih hrest ?_
            simp only [List.length_set]
            omega
        obtain ⟨rs, s', hs', he'⟩ := hcatch
        refine ⟨0 :: rs, s', (runs_next 0).bind ?_, he'⟩
        dsimp only
        rwa [hzero, if_pos hcount]

theorem Catches.bind {x : Rand (Sampling κ ν)} {f : Sampling κ ν → Rand (Sampling κ ν)} (hx : Catches e x)
    (hf : ∀ s, e ∈ s.des → Catches e (f s)) : Catches e (x >>= f) := by
  obtain ⟨rs, s, hs, he⟩ := hx
  obtain ⟨rs', s', hs', he'⟩ := hf s he
  exact ⟨rs ++ rs', s', hs.bind hs', he'⟩

theorem catches_pure {s : Sampling κ ν} (he : e ∈ s.des) : Catches e (pure s) := ⟨[], s, runs_pure s, he⟩

theorem catches_expect {o : Option (List (Entry κ ν))} {chain : List (Entry κ ν)} (ho : o = some chain)
    {f : List (Entry κ ν) → Rand (Sampling κ ν)} (hf : Catches e (f chain)) : Catches e (expect .access o >>= f) := by
  obtain ⟨rs, s, hs, he⟩ := hf
  rw [ho]
  exact ⟨rs, s, hs, he⟩

theorem catches_sampleBucket_of_mem (h : d.Wf ty) (mask : Nat) (second : Bool) {s : Sampling κ ν} (he : e ∈ s.des) :
    Catches e (sampleBucket d count mask second s) := by
  rw [sampleBucket]
  by_cases hinside : dicthtSize (d.ht second).sizeExp ≤ s.i
  · rw [if_pos hinside]
    exact catches_pure he
  rw [if_neg hinside]
  obtain ⟨chain, hchain, -⟩ := exists_chain h second hinside
  refine catches_expect hchain ?_
  split_ifs
  · exact ⟨[0], _, (runs_next 0).bind (runs_pure _), he⟩
  · exact catches_pure he
  · exact catches_sampleChain_of_mem chain he

theorem catches_sampleTable_of_mem (h : d.Wf ty) (mask : Nat) (second : Bool) {s : Sampling κ ν} (he : e ∈ s.des) :
    Catches e (sampleTable d count mask second s) := by
  rw [sampleTable]
  split_ifs
  · exact catches_pure he
  · exact catches_sampleBucket_of_mem h mask second he
  · exact catches_sampleBucket_of_mem h mask second he

theorem catches_sampleTables_of_mem (h : d.Wf ty) (mask : Nat) (tables : List Bool) {s : Sampling κ ν}
    (he : e ∈ s.des) : Catches e (sampleTables d count mask tables s) := by
  induction tables generalizing s with
  | nil => exact catches_pure he
  | cons second tables ih =>
      refine (catches_sampleTable_of_mem h mask second he).bind fun s' he' => ?_
      split_ifs
      · exact catches_pure he'
      · exact ih he'

theorem catches_sampleLoop_of_mem (h : d.Wf ty) (mask : Nat) (tables : List Bool) (maxsteps : Nat)
    {s : Sampling κ ν} (he : e ∈ s.des) : Catches e (sampleLoop d count mask tables maxsteps s) := by
  induction maxsteps generalizing s with
  | zero => exact catches_pure he
  | succ maxsteps ih =>
      rw [sampleLoop]
      split_ifs
      · refine (catches_sampleTables_of_mem h mask tables he).bind fun s' he' => ?_
        split_ifs
        · exact catches_pure he'
        · exact ih he'
      · exact catches_pure he

/-- A search that starts at the bucket of the entry. -/
theorem catches_sampleLoop (h : d.Wf ty) (hidle : d.isRehashing = false) {i : Nat} {chain : List (Entry κ ν)}
    (hchain : d.ht0.buckets[i]? = some chain) (he : e ∈ chain) (hcount : 0 < count) (mask maxsteps : Nat) :
    Catches e (sampleLoop d count mask [false] (maxsteps + 1) ⟨[], 0, i, 0⟩) := by
  have hinside : ¬ dicthtSize (d.ht false).sizeExp ≤ i := by
    have hlt := (List.getElem?_eq_some_iff.mp hchain).1
    rw [h.ht0.length] at hlt
    exact Nat.not_le.mpr hlt
  have htable : Catches e (sampleTable d count mask false ⟨[], 0, i, 0⟩) := by
    rw [sampleTable]
    simp only [hidle, Bool.false_and, Bool.false_eq_true, false_and, if_false]
    rw [sampleBucket, if_neg hinside]
    refine catches_expect hchain ?_
    rw [if_neg (List.ne_nil_of_mem he)]
    exact catches_sampleChain he hcount (by simp)
  rw [sampleLoop, if_pos hcount]
  have htables : Catches e (sampleTables d count mask [false] ⟨[], 0, i, 0⟩) := by
    refine htable.bind fun s' he' => ?_
    split_ifs <;> exact catches_pure he'
  refine htables.bind fun s' he' => ?_
  split_ifs
  · exact catches_pure he'
  · exact catches_sampleLoop_of_mem h mask [false] maxsteps he'

theorem rehashSteps_idle (hidle : d.isRehashing = false) (n : Nat) : rehashSteps ty can n d = .ok d := by
  cases n with
  | zero => rfl
  | succ n => rw [rehashSteps, hidle, if_neg Bool.false_ne_true]

/-- **Every entry can come out** of a dict that is not being rehashed. -/
theorem runs_dictGetFairRandomKey (h : d.Wf ty) (hidle : d.isRehashing = false) (he : e ∈ d.entries) :
    ∃ rs, Runs (dictGetFairRandomKey ty can d) rs (some e, d) := by
  have hsize : d.size ≠ 0 := h.entries_eq_nil_iff.not.mpr (List.ne_nil_of_mem he)
  have hht1 : d.ht1.entries = [] := by rw [h.idle (isRehashing_eq_false_iff.mp hidle), Table.entries_reset]
  rw [Dict.entries, hht1, List.append_nil] at he
  obtain ⟨i, chain, hchain, hin⟩ := mem_flatten_iff.mp he
  have hlt : i < dicthtSize d.ht0.sizeExp := h.ht0.length ▸ (List.getElem?_eq_some_iff.mp hchain).1
  have hexp : d.ht0.sizeExp ≠ -1 := fun hexp => by simp [hexp, dicthtSize] at hlt
  obtain ⟨count, hcount⟩ : ∃ count, count = if d.size < getfairNumEntries then d.size else getfairNumEntries := ⟨_, rfl⟩
  have hpos : 0 < count := by
    rw [hcount]
    split_ifs
    · exact Nat.pos_of_ne_zero hsize
    · decide
  obtain ⟨rs, s, hs, hcaught⟩ := catches_sampleLoop h hidle hchain hin hpos (dicthtSizeMask d.ht0.sizeExp) (count * 10 - 1)
  obtain ⟨j, hj, hget⟩ := List.mem_iff_getElem.mp hcaught
  have hkeys : Runs (dictGetSomeKeys ty can d getfairNumEntries) (i :: rs) (s.des, d) := by
    have hplace : i &&& dicthtSizeMask d.ht0.sizeExp = i := by rw [and_dicthtSizeMask i hexp, Nat.mod_eq_of_lt hlt]
    have hstep : Runs (undrawn (rehashSteps ty can count d)) [] d := by
      rw [rehashSteps_idle hidle]
      exact runs_pure d
    have hdone : Runs (pure (s.des, d) : Rand (List (Entry κ ν) × Dict κ ν)) [] (s.des, d) := runs_pure _
    rw [dictGetSomeKeys, ← hcount]
    show Runs _ ([] ++ (i :: rs)) _
    refine hstep.bind ?_
    simp only [hidle, Bool.false_eq_true, if_false, false_and]
    show Runs _ ([i] ++ rs) _
    refine (runs_next i).bind ?_
    rw [hplace, show count * 10 = count * 10 - 1 + 1 by omega]
    exact List.append_nil rs ▸ hs.bind hdone
  have hpick : Runs (pick s.des) [j] e := by
    have hread : Runs (expect Crash.access s.des[j % s.des.length]?) [] e := by
      rw [Nat.mod_eq_of_lt hj, List.getElem?_eq_getElem hj, hget]
      exact runs_pure e
    exact (runs_next j).bind hread
  refine ⟨i :: rs ++ [j], hkeys.bind ?_⟩
  dsimp only
  rw [if_neg (by omega)]
  exact hpick.bind (runs_pure _)

/-- **A random entry** of a dict after any calls: there is one, it is an entry,
no read is outside the tables or the samples, and the dict keeps its entries;
and if it is not being rehashed, any entry can be it. -/
theorem dictGetFairRandomKey_after (ty : DictType κ) (can : ResizeEnable) [DecidableEq κ]
    (calls : List (ResizeEnable × Call κ ν)) (hsize : (Dict.after ty calls).size ≠ 0) :
    Yields (Sampled ty (Dict.after ty calls)) (dictGetFairRandomKey ty can (Dict.after ty calls)) ∧
      ((Dict.after ty calls).isRehashing = false → ∀ e ∈ (Dict.after ty calls).entries,
        ∃ rs, Runs (dictGetFairRandomKey ty can (Dict.after ty calls)) rs (some e, Dict.after ty calls)) :=
  ⟨yields_dictGetFairRandomKey (wf_after ty calls) hsize,
    fun hidle _ he => runs_dictGetFairRandomKey (wf_after ty calls) hidle he⟩

/-- A number is its own hash. -/
def numberDict : DictType Nat := ⟨id, fun _ _ _ => true⟩

/-- Five keys, the last of which starts rehashing. -/
def fiveKeys : List (ResizeEnable × Call Nat Unit) :=
  [3, 5, 7, 11, 13].map fun key => (.enable, .add key ())

theorem dictGetFairRandomKey_after_sample :
    ∃ e, e ∈ (Dict.after numberDict fiveKeys).entries ∧ (Dict.after numberDict fiveKeys).isRehashing = true ∧
      ∃ rs d, Runs (dictGetFairRandomKey numberDict .enable (Dict.after numberDict fiveKeys)) rs (some e, d) := by
  have hyields := (dictGetFairRandomKey_after numberDict .enable fiveKeys (by decide)).1
  obtain ⟨rs, ⟨o, d⟩, hruns, ⟨e, he, rfl⟩, -⟩ := hyields.exists_runs
  exact ⟨e, he, by decide, rs, d, hruns⟩

end Covers

end SkynetJit.Redis.HashTable
