import SkynetJit.Redis.Dict.Rehash

/-!
# SkynetJit.Redis.Dict.Refinement

What a dict is for: a finite map.

`Call.spec` says what each call answers and what it makes of the map.  No call
can tell where in the tables an entry lies, and none of them reads outside the
tables, with one exception: `dictAdd` and `dictReplace` follow the null pointer
of a dict that never had a table if automatic resizing is paused.
-/

namespace SkynetJit.Redis.HashTable

open Buckets Raise Transition

variable {κ ν : Type}

/-! ## Searching -/

section Searching

variable {ty : DictType κ} {d d' : Dict κ ν} {key : κ}

/-- A key is in the table exactly if it is in its bucket. -/
theorem Table.Wf.mem_keys_iff {t : Table κ ν} (h : t.Wf ty) {chain : List (Entry κ ν)}
    (hchain : t.buckets[place ty t key]? = some chain) : key ∈ t.entries.keys ↔ key ∈ chain.keys := by
  have hkeys := ((flatten_perm hchain).map Sigma.fst).mem_iff (a := key)
  rw [List.map_append, List.mem_append] at hkeys
  refine hkeys.trans (or_iff_left ?_)
  exact h.placed.notMem_others rfl

/-- The bucket at which a search ends: where the key is, or where it goes. -/
structure Spot (ty : DictType κ) (d : Dict κ ν) (key : κ) (b : Bucket) (chain : List (Entry κ ν)) : Prop where
  idx : b.idx = place ty (d.ht b.table) key
  bucket : (d.ht b.table).buckets[b.idx]? = some chain
  found : key ∈ d.entries.keys → key ∈ chain.keys
  new : key ∉ d.entries.keys → b.table = d.isRehashing

theorem mem_entries_keys : key ∈ d.entries.keys ↔ key ∈ d.ht0.entries.keys ∨ key ∈ d.ht1.entries.keys := by
  rw [Dict.entries, List.keys_append, List.mem_append]

variable [DecidableEq κ]

theorem search_cons {chain : List (Entry κ ν)} {s : Bool}
    (hchain : (d.ht s).buckets[place ty (d.ht s) key]? = some chain) (tables : List Bool)
    (last : Option Bucket) :
    search ty d key (s :: tables) last =
      if key ∈ chain.keys then .ok (true, some ⟨s, place ty (d.ht s) key⟩)
      else search ty d key tables (some ⟨s, place ty (d.ht s) key⟩) := by
  rw [search]
  dsimp only
  rw [Table.bucket_eq_ok.mpr hchain]
  rfl

/-- What a search ends with. -/
def Ends (ty : DictType κ) (d : Dict κ ν) (key : κ) (r : Bool × Option Bucket) : Prop :=
  ∃ b chain, r = (decide (key ∈ d.entries.keys), some b) ∧ Spot ty d key b chain

/-- The last table that a search goes through. -/
theorem search_last {chain : List (Entry κ ν)} {s : Bool} (hs : s = d.isRehashing)
    (hchain : (d.ht s).buckets[place ty (d.ht s) key]? = some chain)
    (hmem : key ∈ d.entries.keys ↔ key ∈ chain.keys) (last : Option Bucket) :
    Gives (Ends ty d key) (search ty d key [s] last) := by
  rw [search_cons hchain, search]
  refine ⟨(decide (key ∈ d.entries.keys), some ⟨s, place ty (d.ht s) key⟩), ?_,
    ⟨s, place ty (d.ht s) key⟩, chain, rfl, rfl, hchain, hmem.mp, fun _ => hs⟩
  simp only [hmem]
  split_ifs with hin
  · rw [decide_eq_true hin]
  · rw [decide_eq_false hin]

/-- **A search finds the key** if it is there. -/
theorem search_spec (h : d.Wf ty) (hne : d.ht0.buckets ≠ []) {idx : Nat}
    (hskip : ∀ r, d.rehashidx = some r → idx < r → place ty d.ht0 key = idx) :
    Gives (Ends ty d key) (search ty d key (visited d idx) none) := by
  obtain ⟨chain0, hchain0⟩ := h.ht0.exists_bucket hne key
  have hmem0 := h.ht0.mem_keys_iff hchain0
  cases hr : d.rehashidx with
  | none =>
      have hre : d.isRehashing = false := isRehashing_eq_false_iff.mpr hr
      have hvisited : visited d idx = [false] := by simp [visited, hr, hre]
      rw [hvisited]
      refine search_last (s := false) hre.symm hchain0 ?_ none
      rw [mem_entries_keys, hmem0, h.idle hr]
      simp
  | some r =>
      have hre : d.isRehashing = true := Option.isSome_iff_exists.mpr ⟨r, hr⟩
      obtain ⟨chain1, hchain1⟩ := h.ht1.exists_bucket (h.tables hre).2 key
      have hmem1 := h.ht1.mem_keys_iff hchain1
      have hsecond (last : Option Bucket) (h0 : key ∉ chain0.keys) :
          Gives (Ends ty d key) (search ty d key [true] last) := by
        refine search_last (s := true) hre.symm hchain1 ?_ last
        rw [mem_entries_keys, hmem0, hmem1, or_iff_right h0]
      by_cases hlt : idx < r
      · have hvisited : visited d idx = [true] := by simp [visited, hr, hre, hlt]
        have hnil : chain0 = [] := h.behind r hr _ chain0 (by rwa [hskip r hr hlt]) hchain0
        rw [hvisited]
        exact hsecond none (by simp [hnil])
      · have hvisited : visited d idx = [false, true] := by simp [visited, hr, hre, hlt]
        rw [hvisited, search_cons (s := false) hchain0]
        split_ifs with hin
        · have hentries : key ∈ d.entries.keys := mem_entries_keys.mpr (.inl (hmem0.mpr hin))
          exact gives_ok ⟨⟨false, place ty d.ht0 key⟩, chain0, by rw [decide_eq_true hentries]; rfl,
            rfl, hchain0, fun _ => hin, fun hnew => absurd hentries hnew⟩
        · exact hsecond _ hin

omit [DecidableEq κ] in
/-- The bucket is not behind `rehashidx`. -/
theorem Spot.front {b : Bucket} {chain : List (Entry κ ν)} (hspot : Spot ty d key b chain) (h : d.Wf ty) {r : Nat}
    (hr : d.rehashidx = some r) (htable : b.table = false) : r ≤ b.idx := by
  have hre : d.isRehashing = true := Option.isSome_iff_exists.mpr ⟨r, hr⟩
  by_contra hlt
  have hchain := hspot.bucket
  rw [htable] at hchain
  have hnil : chain = [] := h.behind r hr _ _ (Nat.not_le.mp hlt) hchain
  by_cases hin : key ∈ d.entries.keys
  · have hfound := hspot.found hin
    simp [hnil] at hfound
  · have hnew := hspot.new hin
    rw [htable, hre] at hnew
    contradiction

end Searching

/-! ## Changing a bucket -/

/-- The entries become others, and the rest stays. -/
structure Becomes (ty : DictType κ) (d d' : Dict κ ν) (l : List (Entry κ ν)) : Prop where
  wf : d'.Wf ty
  perm : d'.entries.Perm l
  pauserehash : d'.pauserehash = d.pauserehash
  pauseAutoResize : d'.pauseAutoResize = d.pauseAutoResize
  allocated : d.ht0.buckets ≠ [] → d'.ht0.buckets ≠ []

section Changing

variable {ty : DictType κ} {d d' d'' : Dict κ ν} {key : κ} {b : Bucket} {chain l l' : List (Entry κ ν)}

theorem Keeps.becomes (h : Keeps ty d d') : Becomes ty d d' d.entries :=
  ⟨h.wf, h.perm, h.pauserehash, h.pauseAutoResize, h.allocated⟩

theorem Keeps.trans_becomes (h : Keeps ty d d') (h' : Becomes ty d' d'' l) : Becomes ty d d'' l where
  wf := h'.wf
  perm := h'.perm
  pauserehash := h'.pauserehash.trans h.pauserehash
  pauseAutoResize := h'.pauseAutoResize.trans h.pauseAutoResize
  allocated hne := h'.allocated (h.allocated hne)

theorem Becomes.trans_keeps (h : Becomes ty d d' l) (h' : Keeps ty d' d'') : Becomes ty d d'' l where
  wf := h'.wf
  perm := h'.perm.trans h.perm
  pauserehash := h'.pauserehash.trans h.pauserehash
  pauseAutoResize := h'.pauseAutoResize.trans h.pauseAutoResize
  allocated hne := h'.allocated (h.allocated hne)

theorem Becomes.perm_right (h : Becomes ty d d' l) (hl : l.Perm l') : Becomes ty d d' l' :=
  { h with perm := h.perm.trans hl }

theorem Table.Wf.setBucket {t : Table κ ν} (h : t.Wf ty) {i : Nat} (hchain : t.buckets[i]? = some chain)
    {chain' : List (Entry κ ν)} (hplaced : ∀ e ∈ chain', place ty t e.1 = i) {n : Nat}
    (hn : n + chain.length = t.used + chain'.length) :
    Table.Wf ty { t with buckets := t.buckets.set i chain', used := n } := by
  obtain ⟨hlt, -⟩ := List.getElem?_eq_some_iff.mp hchain
  refine ⟨List.length_set.trans h.length, h.placed.set hplaced, ?_⟩
  have hold : t.used = chain.length + (t.buckets.set i []).flatten.length := by
    rw [h.used, Table.entries, (flatten_perm hchain).length_eq, List.length_append]
  show n = (t.buckets.set i chain').flatten.length
  rw [(flatten_set_perm hlt chain').length_eq, List.length_append]
  omega

/-- What lies in the other buckets. -/
def Dict.others (d : Dict κ ν) (b : Bucket) : List (Entry κ ν) :=
  if b.table then d.ht0.entries ++ (d.ht1.buckets.set b.idx []).flatten
  else (d.ht0.buckets.set b.idx []).flatten ++ d.ht1.entries

theorem setHt_entries (hchain : (d.ht b.table).buckets[b.idx]? = some chain) (chain' : List (Entry κ ν)) (n : Nat) :
    (d.setHt b.table { d.ht b.table with buckets := (d.ht b.table).buckets.set b.idx chain', used := n }).entries.Perm
      (chain' ++ d.others b) := by
  obtain ⟨hlt, -⟩ := List.getElem?_eq_some_iff.mp hchain
  obtain ⟨s, i⟩ := b
  cases s with
  | false =>
      show ((d.ht0.buckets.set i chain').flatten ++ d.ht1.entries).Perm
        (chain' ++ ((d.ht0.buckets.set i []).flatten ++ d.ht1.entries))
      rw [← List.append_assoc]
      exact (flatten_set_perm hlt _).append_right _
  | true =>
      show (d.ht0.entries ++ (d.ht1.buckets.set i chain').flatten).Perm
        (chain' ++ (d.ht0.entries ++ (d.ht1.buckets.set i []).flatten))
      exact ((flatten_set_perm hlt _).append_left _).trans (List.perm_append_comm_assoc ..)

theorem Spot.perm (hspot : Spot ty d key b chain) : d.entries.Perm (chain ++ d.others b) := by
  have hperm := setHt_entries hspot.bucket chain (d.ht b.table).used
  obtain ⟨hlt, hget⟩ := List.getElem?_eq_some_iff.mp hspot.bucket
  obtain ⟨s, i⟩ := b
  have hset : (d.ht s).buckets.set i chain = (d.ht s).buckets := by rw [← hget, List.set_getElem_self]
  dsimp only at hperm
  rw [hset] at hperm
  cases s <;> exact hperm

/-- A bucket is given another chain. -/
theorem updateBucket_spec (h : d.Wf ty) (hspot : Spot ty d key b chain) (used : Nat → Nat)
    (f : List (Entry κ ν) → List (Entry κ ν)) (hplaced : ∀ e ∈ f chain, place ty (d.ht b.table) e.1 = b.idx)
    (hused : used (d.ht b.table).used + chain.length = (d.ht b.table).used + (f chain).length)
    (hnd : (f chain ++ d.others b).NodupKeys) :
    Gives (fun d' => Becomes ty d d' (f chain ++ d.others b)) (updateBucket d b used f) := by
  have hperm := setHt_entries hspot.bucket (f chain) (used (d.ht b.table).used)
  rw [updateBucket]
  refine (Table.gives_bucket hspot.bucket).bind fun c hc => ?_
  obtain rfl := hc
  refine gives_ok ?_
  obtain ⟨s, i⟩ := b
  have hset : (d.ht s).buckets.set i (f c) ≠ [] := fun hnil => by
    rw [List.set_eq_nil_iff] at hnil
    have hbucket := hspot.bucket
    simp [hnil] at hbucket
  cases s with
  | false =>
      refine ⟨⟨h.ht0.setBucket hspot.bucket hplaced hused, h.ht1, ?_, h.idle, ?_, ?_, ?_⟩, hperm, rfl, rfl,
        fun _ => hset⟩
      · exact (List.perm_nodupKeys hperm).mpr hnd
      · exact fun hre => ⟨hset, (h.tables hre).2⟩
      · intro r hr j c' hj hc'
        have hfront : r ≤ i := hspot.front h hr rfl
        exact h.behind r hr j c' hj ((List.getElem?_set_ne (show i ≠ j by omega)).symm.trans hc')
      · exact fun r hr => List.length_set.symm ▸ h.bound r hr
  | true =>
      refine ⟨⟨h.ht0, h.ht1.setBucket hspot.bucket hplaced hused, ?_, ?_, ?_, h.behind, h.bound⟩, hperm, rfl, rfl, id⟩
      · exact (List.perm_nodupKeys hperm).mpr hnd
      · intro hr
        have hbucket : d.ht1.buckets[i]? = some c := hspot.bucket
        rw [h.idle hr] at hbucket
        simp [Table.reset] at hbucket
      · exact fun hre => ⟨(h.tables hre).1, hset⟩

theorem Dict.Wf.ht_wf (h : d.Wf ty) (s : Bool) : (d.ht s).Wf ty := by
  cases s with
  | false => exact h.ht0
  | true => exact h.ht1

theorem Spot.place_chain (hspot : Spot ty d key b chain) (h : d.Wf ty) {e : Entry κ ν} (he : e ∈ chain) :
    place ty (d.ht b.table) e.1 = b.idx :=
  (h.ht_wf b.table).placed _ _ hspot.bucket e he

/-- A new key goes in front of its chain. -/
theorem dictInsertKeyAtLink_spec (h : d.Wf ty) (hspot : Spot ty d key b chain) (hnew : key ∉ d.entries.keys) (val : ν) :
    Gives (fun d' => Becomes ty d d' (⟨key, val⟩ :: d.entries)) (dictInsertKeyAtLink d key val (some b)) := by
  have hs := hspot.new hnew
  have hwf := h.ht_wf b.table
  have hne : (d.ht b.table).buckets ≠ [] := fun hnil => by
    have hbucket := hspot.bucket
    simp [hnil] at hbucket
  have hlt : b.idx ≤ dicthtSizeMask (d.ht d.isRehashing).sizeExp := by
    have hplace := hwf.place_lt hne key
    rw [← hspot.idx, hwf.length] at hplace
    rw [← hs, dicthtSizeMask, if_neg (hwf.buckets_eq_nil_iff.not.mp hne)]
    omega
  have hperm : (⟨key, val⟩ :: chain ++ d.others b : List (Entry κ ν)).Perm (⟨key, val⟩ :: d.entries) :=
    (hspot.perm.cons _).symm
  rw [dictInsertKeyAtLink, if_pos ⟨hs, hlt⟩]
  refine (updateBucket_spec h hspot (· + 1) (⟨key, val⟩ :: ·) ?_ ?_ ?_).mono fun d' hd' => hd'.perm_right hperm
  · intro e he
    rcases List.mem_cons.mp he with rfl | hmem
    · exact hspot.idx.symm
    · exact hspot.place_chain h hmem
  · simp only [List.length_cons]
    omega
  · exact (List.perm_nodupKeys hperm).mpr (List.nodupKeys_cons.mpr ⟨hnew, h.nodup⟩)

variable [DecidableEq κ]

/-- The chain has what the dict has for the key. -/
theorem Spot.dlookup_eq (hspot : Spot ty d key b chain) (h : d.Wf ty) :
    chain.dlookup key = d.entries.dlookup key := by
  rw [List.perm_dlookup key h.nodup hspot.perm, List.dlookup_append]
  cases hc : chain.dlookup key with
  | some v => rfl
  | none =>
      have hnot : key ∉ d.entries.keys := fun hin => List.dlookup_eq_none.mp hc (hspot.found hin)
      have hothers : key ∉ (d.others b).keys := fun hin => hnot <| by
        have hkeys := (hspot.perm.map Sigma.fst).mem_iff (a := key)
        rw [List.map_append, List.mem_append] at hkeys
        exact hkeys.mpr (.inr hin)
      rw [List.dlookup_eq_none.mpr hothers]
      rfl

/-- A key is given another value. -/
theorem kreplace_spec (h : d.Wf ty) (hspot : Spot ty d key b chain) (hin : key ∈ d.entries.keys) (val : ν) :
    Gives (fun d' => Becomes ty d d' (d.entries.kreplace key val)) (updateBucket d b id (·.kreplace key val)) := by
  have hperm := kreplace_perm (b := val) h.nodup hspot.perm (hspot.found hin)
  refine (updateBucket_spec h hspot id (·.kreplace key val) ?_ ?_ ?_).mono fun d' hd' => hd'.perm_right hperm.symm
  · intro e he
    have hkey : e.1 ∈ chain.keys := by
      rw [← List.keys_kreplace key val chain]
      exact List.mem_keys_of_mem he
    obtain ⟨v, hv⟩ := List.exists_of_mem_keys hkey
    exact hspot.place_chain (e := ⟨e.1, v⟩) h hv
  · simp only [id, length_kreplace]
  · exact (List.perm_nodupKeys hperm).mp ((List.kreplace_nodupKeys key val).mpr h.nodup)

/-- A key is taken out. -/
theorem kerase_spec (h : d.Wf ty) (hspot : Spot ty d key b chain) (hin : key ∈ d.entries.keys) :
    Gives (fun d' => Becomes ty d d' (d.entries.kerase key)) (updateBucket d b (· - 1) (·.kerase key)) := by
  have hmem := hspot.found hin
  have hperm := kerase_perm h.nodup hspot.perm hmem
  refine (updateBucket_spec h hspot (· - 1) (·.kerase key) ?_ ?_ ?_).mono fun d' hd' => hd'.perm_right hperm.symm
  · exact fun e he => hspot.place_chain h ((List.kerase_sublist key chain).subset he)
  · have hlength := length_kerase hmem
    have hused : chain.length ≤ (d.ht b.table).used := by
      rw [(h.ht_wf b.table).used, Table.entries, (flatten_perm hspot.bucket).length_eq, List.length_append]
      exact Nat.le_add_right _ _
    omega
  · exact (List.perm_nodupKeys hperm).mp (h.nodup.kerase key)

end Changing

/-! ## The operations -/

section Operations

variable {ty : DictType κ} {d : Dict κ ν} (can : ResizeEnable) (key : κ)

theorem Keeps.mem_keys_iff {d' : Dict κ ν} (hkeeps : Keeps ty d d') : key ∈ d'.entries.keys ↔ key ∈ d.entries.keys :=
  (hkeeps.perm.map Sigma.fst).mem_iff

variable [DecidableEq κ]

/-- The step on the way does not put the key behind `rehashidx`. -/
theorem search_after_step {d₁ : Dict κ ν} (hne : d.ht0.buckets ≠ []) (hd₁ : Moves ty d d₁) :
    Gives (Ends ty d₁ key) (search ty d₁ key (visited d₁ (place ty d.ht0 key)) none) := by
  refine search_spec hd₁.keeps.wf (hd₁.keeps.allocated hne) fun r hr _ => ?_
  rw [place, place, hd₁.first (Option.isSome_iff_exists.mpr ⟨r, hr⟩)]

theorem dictFindLinkInternal_spec (h : d.Wf ty) (hne : d.ht0.buckets ≠ []) :
    Gives (fun r => Keeps ty d r.2 ∧ Ends ty r.2 key r.1) (dictFindLinkInternal ty can d key) := by
  rw [dictFindLinkInternal]
  refine (dictRehashStepIfNeeded_spec can h key).bind fun d₁ hd₁ => ?_
  exact (search_after_step key hne hd₁).bind fun r hr => gives_ok ⟨hd₁.keeps, hr⟩

theorem dictFindLink_spec (h : d.Wf ty) :
    Gives (fun r => Keeps ty d r.2 ∧ (Ends ty r.2 key r.1 ∨ r.1 = (false, none) ∧ r.2 = d ∧ d.entries = []))
      (dictFindLink ty can d key) := by
  rw [dictFindLink]
  split_ifs with hsize
  · exact gives_ok ⟨.refl h, .inr ⟨rfl, rfl, h.entries_eq_nil_iff.mp hsize⟩⟩
  · exact (dictFindLinkInternal_spec can key h (h.buckets_ne_nil hsize)).mono fun r hr => ⟨hr.1, .inl hr.2⟩

theorem Keeps.dlookup_eq {d' : Dict κ ν} (hkeeps : Keeps ty d d') :
    d'.entries.dlookup key = d.entries.dlookup key :=
  List.perm_dlookup key hkeeps.wf.nodup hkeeps.perm

/-- **Looking up.** -/
theorem dictFetchValue_spec (h : d.Wf ty) :
    Gives (fun r => Keeps ty d r.2 ∧ r.1 = d.entries.dlookup key) (dictFetchValue ty can d key) := by
  rw [dictFetchValue]
  refine (dictFindLink_spec can key h).bind ?_
  rintro ⟨found, d₁⟩ ⟨hkeeps, ⟨b, chain, hfound, hspot⟩ | ⟨hfound, rfl, hnil⟩⟩
  · dsimp only at hfound hkeeps hspot ⊢
    rw [hfound]
    dsimp only
    by_cases hin : key ∈ d₁.entries.keys
    · rw [if_pos (decide_eq_true hin)]
      refine (Table.gives_bucket hspot.bucket).bind fun c hc => gives_ok ⟨hkeeps, ?_⟩
      rw [hc, hspot.dlookup_eq hkeeps.wf, hkeeps.dlookup_eq]
    · rw [if_neg (by rw [decide_eq_false hin]; exact Bool.false_ne_true)]
      exact gives_ok ⟨hkeeps, by rw [← hkeeps.dlookup_eq, List.dlookup_eq_none.mpr hin]⟩
  · dsimp only at hfound ⊢
    rw [hfound]
    exact gives_ok ⟨hkeeps, by rw [hnil]; rfl⟩

/-- The search before an insertion makes room first. -/
theorem dictFindLinkForInsert_spec (h : d.Wf ty) (hroom : d.ht0.buckets ≠ [] ∨ d.pauseAutoResize ≤ 0) :
    Gives (fun r => Keeps ty d r.2 ∧ r.2.ht0.buckets ≠ [] ∧ Ends ty r.2 key r.1)
      (dictFindLinkForInsert ty can d key) := by
  rw [dictFindLinkForInsert]
  refine (dictRehashStepIfNeeded_spec can h key).bind fun d₁ hd₁ => ?_
  have hexpand : Gives (fun d₂ => Resizes ty d₁ d₂ ∧ d₂.ht0.buckets ≠ [])
      (unlessPaused (dictExpandIfNeeded ty can) d₁) := by
    rw [unlessPaused]
    split_ifs with hpaused
    · refine gives_ok ⟨.refl hd₁.keeps.wf, ?_⟩
      rw [hd₁.keeps.pauseAutoResize] at hpaused
      exact hd₁.keeps.allocated (hroom.resolve_right (Int.not_le.mpr hpaused))
    · exact (dictExpandIfNeeded_spec can hd₁.keeps.wf).bind fun r hr => gives_ok hr
  refine hexpand.bind fun d₂ hd₂ => ?_
  have hkeeps : Keeps ty d d₂ := hd₁.keeps.trans hd₂.1.keeps
  have hskip : ∀ r, d₂.rehashidx = some r → place ty d.ht0 key < r → place ty d₂.ht0 key = place ty d.ht0 key := by
    intro r hr hlt
    rcases hd₂.1.same_or with rfl | ⟨-, hnone | hzero⟩
    · rw [place, place, hd₁.first (Option.isSome_iff_exists.mpr ⟨r, hr⟩)]
    · rw [hr] at hnone
      contradiction
    · obtain rfl := Option.some.inj (hr.symm.trans hzero)
      exact absurd hlt (Nat.not_lt_zero _)
  refine (search_spec hkeeps.wf hd₂.2 hskip).bind ?_
  rintro r ⟨b, chain, rfl, hspot⟩
  refine gives_ok ⟨hkeeps, hd₂.2, b, chain, ?_, hspot⟩
  dsimp only
  rw [Option.map_some]
  by_cases hin : key ∈ d₂.entries.keys
  · rw [if_pos (decide_eq_true hin)]
  · rw [if_neg (by rw [decide_eq_false hin]; exact Bool.false_ne_true), ← hspot.new hin]

/-- With no table and no leave to make one it reads through a null pointer. -/
theorem dictFindLinkForInsert_crash (h : d.Wf ty) (hnil : d.ht0.buckets = []) (hpaused : 0 < d.pauseAutoResize) :
    dictFindLinkForInsert ty can d key = .error .access := by
  have hidle := h.rehashidx_eq_none hnil
  have hre : d.isRehashing = false := isRehashing_eq_false_iff.mpr hidle
  have hstep : dictRehashStepIfNeeded ty can d (place ty d.ht0 key) = .ok d := by rw [dictRehashStepIfNeeded, hidle]
  have hexpand : unlessPaused (dictExpandIfNeeded ty can) d = .ok d := by rw [unlessPaused, if_pos hpaused]
  have hsearch : search ty d key (visited d (place ty d.ht0 key)) none = .error .access := by
    have hvisited : visited d (place ty d.ht0 key) = [false] := by simp [visited, hidle, hre]
    rw [hvisited, search]
    dsimp only
    rw [Table.bucket, show (d.ht false).buckets = [] from hnil]
    rfl
  rw [dictFindLinkForInsert, hstep]
  show (unlessPaused (dictExpandIfNeeded ty can) d >>= _) = _
  rw [hexpand]
  show (search ty d key (visited d (place ty d.ht0 key)) none >>= _) = _
  rw [hsearch]
  rfl

/-- **Adding.** -/
theorem dictAdd_spec (h : d.Wf ty) (hroom : d.ht0.buckets ≠ [] ∨ d.pauseAutoResize ≤ 0) (val : ν) :
    Gives (fun r => r.1 = decide (key ∉ d.entries.keys) ∧ r.2.ht0.buckets ≠ [] ∧
      Becomes ty d r.2 (if key ∈ d.entries.keys then d.entries else ⟨key, val⟩ :: d.entries))
      (dictAdd ty can d key val) := by
  rw [dictAdd]
  refine (dictFindLinkForInsert_spec can key h hroom).bind ?_
  rintro ⟨found, d₁⟩ ⟨hkeeps, hne, b, chain, hfound, hspot⟩
  have hmem := hkeeps.mem_keys_iff key
  dsimp only at hfound hne hkeeps hspot hmem ⊢
  rw [hfound]
  by_cases hin : key ∈ d₁.entries.keys
  · rw [if_pos (decide_eq_true hin), if_pos (hmem.mp hin), decide_eq_false (not_not.mpr (hmem.mp hin))]
    exact gives_ok ⟨rfl, hne, hkeeps.becomes⟩
  · rw [decide_eq_false hin, if_neg Bool.false_ne_true, if_neg (hmem.not.mp hin), decide_eq_true (hmem.not.mp hin)]
    refine (dictInsertKeyAtLink_spec hkeeps.wf hspot hin val).bind fun d₂ hd₂ => gives_ok ⟨rfl, hd₂.allocated hne, ?_⟩
    exact (hkeeps.trans_becomes hd₂).perm_right (hkeeps.perm.cons _)

/-- **Adding or replacing.** -/
theorem dictReplace_spec (h : d.Wf ty) (hroom : d.ht0.buckets ≠ [] ∨ d.pauseAutoResize ≤ 0) (val : ν) :
    Gives (fun r => r.1 = decide (key ∉ d.entries.keys) ∧ r.2.ht0.buckets ≠ [] ∧
      Becomes ty d r.2 (if key ∈ d.entries.keys then d.entries.kreplace key val else ⟨key, val⟩ :: d.entries))
      (dictReplace ty can d key val) := by
  rw [dictReplace]
  refine (dictFindLinkForInsert_spec can key h hroom).bind ?_
  rintro ⟨found, d₁⟩ ⟨hkeeps, hne, b, chain, hfound, hspot⟩
  have hmem := hkeeps.mem_keys_iff key
  dsimp only at hfound hne hkeeps hspot hmem ⊢
  rw [hfound]
  by_cases hin : key ∈ d₁.entries.keys
  · rw [if_pos (decide_eq_true hin), if_pos (hmem.mp hin), decide_eq_false (not_not.mpr (hmem.mp hin))]
    refine (kreplace_spec hkeeps.wf hspot hin val).bind fun d₂ hd₂ => gives_ok ⟨rfl, hd₂.allocated hne, ?_⟩
    exact (hkeeps.trans_becomes hd₂).perm_right (hkeeps.perm.kreplace hkeeps.wf.nodup)
  · rw [decide_eq_false hin, if_neg Bool.false_ne_true, if_neg (hmem.not.mp hin), decide_eq_true (hmem.not.mp hin)]
    refine (dictInsertKeyAtLink_spec hkeeps.wf hspot hin val).bind fun d₂ hd₂ => gives_ok ⟨rfl, hd₂.allocated hne, ?_⟩
    exact (hkeeps.trans_becomes hd₂).perm_right (hkeeps.perm.cons _)

/-- The bucket that a search gave is looked up again if there is another table
now. -/
theorem dictSetKeyAtLink_spec (h : d.Wf ty) (hnew : key ∉ d.entries.keys) (val : ν) {bucket : Option Bucket}
    (hbucket : bucket = none ∨ ∃ b chain, bucket = some b ∧ Spot ty d key b chain) :
    Gives (fun d' => d'.ht0.buckets ≠ [] ∧ Becomes ty d d' (⟨key, val⟩ :: d.entries))
      (dictSetKeyAtLink ty can d key val bucket) := by
  rw [dictSetKeyAtLink]
  refine (dictExpandIfNeeded_spec can h).bind ?_
  rintro ⟨expanded, d₁⟩ ⟨hresizes, hne⟩
  dsimp only at hresizes hne ⊢
  have hkeeps := hresizes.keeps
  split_ifs with hagain
  · refine (dictFindLinkInternal_spec can key hkeeps.wf hne).bind ?_
    rintro ⟨found, d₂⟩ ⟨hkeeps', b, chain, hfound, hspot⟩
    have hnew' : key ∉ d₂.entries.keys := (((hkeeps.trans hkeeps').mem_keys_iff key).not).mpr hnew
    dsimp only at hfound hkeeps' hspot ⊢
    rw [hfound, if_neg (by simp [hnew'])]
    refine (dictInsertKeyAtLink_spec hkeeps'.wf hspot hnew' val).mono fun d₃ hd₃ =>
      ⟨hd₃.allocated (hkeeps'.allocated hne), ?_⟩
    exact ((hkeeps.trans hkeeps').trans_becomes hd₃).perm_right ((hkeeps.trans hkeeps').perm.cons _)
  · rw [not_or, not_not] at hagain
    obtain ⟨b, chain, rfl, hspot⟩ := hbucket.resolve_left hagain.2
    obtain rfl : d₁ = d := hresizes.same_or.resolve_right fun hother => hother.1 hagain.1
    exact (dictInsertKeyAtLink_spec h hspot hnew val).mono fun d₃ hd₃ => ⟨hd₃.allocated hne, hd₃⟩

/-- **Looking up and adding.** -/
theorem addUnlessFound_spec (h : d.Wf ty) (val : ν) :
    Gives (fun r => r.1 = decide (key ∉ d.entries.keys) ∧ r.2.ht0.buckets ≠ [] ∧
      Becomes ty d r.2 (if key ∈ d.entries.keys then d.entries else ⟨key, val⟩ :: d.entries))
      (addUnlessFound ty can d key val) := by
  rw [addUnlessFound]
  refine (dictFindLink_spec can key h).bind ?_
  rintro ⟨found, d₁⟩ ⟨hkeeps, hcases⟩
  have hmem := hkeeps.mem_keys_iff key
  dsimp only at hcases hkeeps hmem ⊢
  by_cases hin : key ∈ d₁.entries.keys
  · obtain ⟨b, chain, rfl, hspot⟩ : Ends ty d₁ key found := hcases.resolve_right fun hnil => by
      rw [hnil.2.1, hnil.2.2] at hin
      contradiction
    rw [if_pos (decide_eq_true hin), if_pos (hmem.mp hin), decide_eq_false (not_not.mpr (hmem.mp hin))]
    refine gives_ok ⟨rfl, hkeeps.wf.buckets_ne_nil fun hsize => ?_, hkeeps.becomes⟩
    rw [hkeeps.wf.entries_eq_nil_iff.mp hsize] at hin
    contradiction
  · have hbucket : found.1 = false ∧ (found.2 = none ∨ ∃ b chain, found.2 = some b ∧ Spot ty d₁ key b chain) := by
      rcases hcases with ⟨b, chain, rfl, hspot⟩ | ⟨rfl, -, -⟩
      · exact ⟨decide_eq_false hin, .inr ⟨b, chain, rfl, hspot⟩⟩
      · exact ⟨rfl, .inl rfl⟩
    rw [hbucket.1, if_neg Bool.false_ne_true, if_neg (hmem.not.mp hin), decide_eq_true (hmem.not.mp hin)]
    refine (dictSetKeyAtLink_spec can key hkeeps.wf hin val hbucket.2).bind fun d₂ hd₂ => gives_ok ⟨rfl, hd₂.1, ?_⟩
    exact (hkeeps.trans_becomes hd₂.2).perm_right (hkeeps.perm.cons _)

/-- **Taking out.** -/
theorem dictGenericDelete_spec (h : d.Wf ty) :
    Gives (fun r => r.1 = d.entries.dlookup key ∧ Becomes ty d r.2 (d.entries.kerase key))
      (dictGenericDelete ty can d key) := by
  rw [dictGenericDelete]
  split_ifs with hsize
  · have hnil := h.entries_eq_nil_iff.mp hsize
    refine gives_ok ⟨by rw [hnil]; rfl, ?_⟩
    rw [hnil, List.kerase_nil, ← hnil]
    exact (Keeps.refl h).becomes
  refine (dictRehashStepIfNeeded_spec can h key).bind fun d₁ hd₁ => ?_
  have hkeeps := hd₁.keeps
  refine (search_after_step key (h.buckets_ne_nil hsize) hd₁).bind ?_
  rintro found ⟨b, chain, rfl, hspot⟩
  by_cases hin : key ∈ d₁.entries.keys
  · rw [decide_eq_true hin]
    refine (Table.gives_bucket hspot.bucket).bind fun c hc => ?_
    obtain rfl := hc
    refine (kerase_spec hkeeps.wf hspot hin).bind fun d₂ hd₂ => ?_
    refine (unlessPaused_spec hd₂.wf (dictShrinkIfNeeded_spec can hd₂.wf)).bind fun d₃ hd₃ => gives_ok ⟨?_, ?_⟩
    · exact (hspot.dlookup_eq hkeeps.wf).trans (hkeeps.dlookup_eq key)
    · exact ((hkeeps.trans_becomes hd₂).trans_keeps hd₃.keeps).perm_right (hkeeps.perm.kerase hkeeps.wf.nodup)
  · rw [decide_eq_false hin]
    have hnot := ((hkeeps.mem_keys_iff key).not).mp hin
    refine gives_ok ⟨(List.dlookup_eq_none.mpr hnot).symm, ?_⟩
    rw [List.kerase_of_notMem_keys hnot]
    exact hkeeps.becomes

end Operations

/-! ## The specification -/

/-- What a dict stands for: a finite map, whether it has a table already, and
how often automatic resizing is paused. -/
structure Mapping (κ ν : Type) where
  map : Finmap fun _ : κ => ν
  allocated : Bool
  pauseAutoResize : Int

/-- What is done with a dict. -/
inductive Call (κ ν : Type) where
  | fetchValue (key : κ)
  | add (key : κ) (val : ν)
  | addUnlessFound (key : κ) (val : ν)
  | replace (key : κ) (val : ν)
  | delete (key : κ)
  | expand (size : Nat)
  | shrinkIfNeeded
  | rehash (n : Nat)
  | pauseRehashing
  | resumeRehashing
  | pauseAutoResize
  | resumeAutoResize
  | empty

/-- What a call answers. -/
inductive Answer (ν : Type) where
  | flag (b : Bool)
  | value (v : Option ν)
  | done
  | crash (c : Crash)

namespace Mapping

/-- The map of a new dict. -/
def new : Mapping κ ν := ⟨∅, false, 0⟩

/-- The map becomes another one; a table may appear on the way. -/
def Goes (s s' : Mapping κ ν) (map : Finmap fun _ : κ => ν) : Prop :=
  s'.map = map ∧ s'.pauseAutoResize = s.pauseAutoResize ∧ (s.allocated = true → s'.allocated = true)

/-- There is no table, and automatic resizing will not make one. -/
def Stuck (s : Mapping κ ν) : Prop := s.allocated = false ∧ 0 < s.pauseAutoResize

end Mapping

/-- A dict stands for a map. -/
structure StandsFor (ty : DictType κ) (d : Dict κ ν) (s : Mapping κ ν) : Prop where
  wf : d.Wf ty
  entries : s.map.entries = ↑d.entries
  allocated : s.allocated = true ↔ d.ht0.buckets ≠ []
  pauseAutoResize : s.pauseAutoResize = d.pauseAutoResize

section StandsFor

variable {ty : DictType κ} {d d' : Dict κ ν} {s : Mapping κ ν} {l : List (Entry κ ν)}

theorem standsFor_create : StandsFor ty (Dict.create : Dict κ ν) .new :=
  ⟨wf_create, rfl, by simp [Mapping.new, Dict.create, Table.reset], rfl⟩

theorem StandsFor.mem_iff (h : StandsFor ty d s) {key : κ} : key ∈ s.map ↔ key ∈ d.entries.keys :=
  mem_of_entries h.entries

theorem StandsFor.stuck_iff (h : StandsFor ty d s) : s.Stuck ↔ d.ht0.buckets = [] ∧ 0 < d.pauseAutoResize := by
  rw [Mapping.Stuck, h.pauseAutoResize, ← Bool.not_eq_true, h.allocated, not_not]

/-- The map after the entries become others. -/
theorem StandsFor.becomes (h : StandsFor ty d s) (hd : Becomes ty d d' l) {map : Finmap fun _ : κ => ν}
    (hmap : map.entries = ↑l) : ∃ s', (s'.allocated = true ↔ d'.ht0.buckets ≠ []) ∧ s.Goes s' map ∧ StandsFor ty d' s' := by
  refine ⟨⟨map, decide (d'.ht0.buckets ≠ []), d'.pauseAutoResize⟩, decide_eq_true_iff,
    ⟨rfl, hd.pauseAutoResize.trans h.pauseAutoResize.symm, fun ha => ?_⟩, hd.wf, ?_, decide_eq_true_iff, rfl⟩
  · exact decide_eq_true (hd.allocated (h.allocated.mp ha))
  · exact hmap.trans (Multiset.coe_eq_coe.mpr hd.perm.symm)

theorem StandsFor.setPauses (h : StandsFor ty d s) (n : Nat) (m : Int) :
    StandsFor ty { d with pauserehash := n, pauseAutoResize := m } { s with pauseAutoResize := m } :=
  ⟨⟨h.wf.ht0, h.wf.ht1, h.wf.nodup, h.wf.idle, h.wf.tables, h.wf.behind, h.wf.bound⟩, h.entries, h.allocated, rfl⟩

end StandsFor

variable [DecidableEq κ]

/-- What a call answers and does, in terms of the map. -/
def Call.spec (s : Mapping κ ν) : Call κ ν → Answer ν → Mapping κ ν → Prop
  | .fetchValue key, r, s' => r = .value (s.map.lookup key) ∧ s.Goes s' s.map
  | .add key val, r, s' =>
      s.Stuck ∧ r = .crash .access ∧ s' = s ∨
      ¬ s.Stuck ∧ r = .flag (key ∉ s.map) ∧ s'.allocated = true ∧
        s.Goes s' (if key ∈ s.map then s.map else s.map.insert key val)
  | .addUnlessFound key val, r, s' =>
      r = .flag (key ∉ s.map) ∧ s'.allocated = true ∧ s.Goes s' (if key ∈ s.map then s.map else s.map.insert key val)
  | .replace key val, r, s' =>
      s.Stuck ∧ r = .crash .access ∧ s' = s ∨
      ¬ s.Stuck ∧ r = .flag (key ∉ s.map) ∧ s'.allocated = true ∧ s.Goes s' (s.map.insert key val)
  | .delete key, r, s' => r = .value (s.map.lookup key) ∧ s.Goes s' (s.map.erase key)
  | .expand _, r, s' => ∃ b, r = .flag b ∧ (b = true → s'.allocated = true) ∧ s.Goes s' s.map
  | .shrinkIfNeeded, r, s' => ∃ b, r = .flag b ∧ s.Goes s' s.map
  | .rehash _, r, s' => ∃ b, r = .flag b ∧ s.Goes s' s.map
  | .pauseRehashing, r, s' => r = .done ∧ s.Goes s' s.map
  | .resumeRehashing, r, s' => r = .done ∧ s.Goes s' s.map
  | .pauseAutoResize, r, s' => r = .done ∧ s' = { s with pauseAutoResize := Dict.int16 (s.pauseAutoResize + 1) }
  | .resumeAutoResize, r, s' => r = .done ∧ s' = { s with pauseAutoResize := Dict.int16 (s.pauseAutoResize + -1) }
  | .empty, r, s' => r = .done ∧ s' = .new

/-! ## Calls -/

section Calls

variable (ty : DictType κ)

/-- An operation whose result is the answer. -/
def answered {α : Type} (answer : α → Answer ν) (x : Except Crash (α × Dict κ ν)) : Except Crash (Answer ν × Dict κ ν) := do
  let (a, d) ← x
  pure (answer a, d)

/-- A call while `dict_can_resize` has some value. -/
def Call.run (can : ResizeEnable) (d : Dict κ ν) : Call κ ν → Except Crash (Answer ν × Dict κ ν)
  | .fetchValue key => answered .value (dictFetchValue ty can d key)
  | .add key val => answered .flag (dictAdd ty can d key val)
  | .addUnlessFound key val => answered .flag (HashTable.addUnlessFound ty can d key val)
  | .replace key val => answered .flag (dictReplace ty can d key val)
  | .delete key => answered .value (dictGenericDelete ty can d key)
  | .expand size => answered .flag (dictExpand d size)
  | .shrinkIfNeeded => answered .flag (dictShrinkIfNeeded ty can d)
  | .rehash n => answered .flag (dictRehash ty can d n)
  | .pauseRehashing => .ok (.done, d.pauseRehashing)
  | .resumeRehashing => .ok (.done, d.resumeRehashing)
  | .pauseAutoResize => .ok (.done, d.addPauseAutoResize 1)
  | .resumeAutoResize => .ok (.done, d.addPauseAutoResize (-1))
  | .empty => .ok (.done, d.empty)

/-- A call, and where it ends; a crash leaves everything. -/
def Dict.step (d : Dict κ ν) (c : ResizeEnable × Call κ ν) : Answer ν × Dict κ ν :=
  match c.2.run ty c.1 d with
  | .ok r => r
  | .error crash => (.crash crash, d)

variable {ty} {d : Dict κ ν} {s : Mapping κ ν}

omit [DecidableEq κ] in
theorem answered_spec {α : Type} {answer : α → Answer ν} {x : Except Crash (α × Dict κ ν)} {P : α × Dict κ ν → Prop}
    (hx : Gives P x) {Q : Answer ν × Dict κ ν → Prop} (h : ∀ r, P r → Q (answer r.1, r.2)) :
    Gives Q (answered answer x) :=
  hx.bind fun r hr => gives_ok (h r hr)

/-- A call without a crash follows the specification. -/
def Follows (ty : DictType κ) (s : Mapping κ ν) (call : Call κ ν) (r : Answer ν × Dict κ ν) : Prop :=
  ∃ s', call.spec s r.1 s' ∧ StandsFor ty r.2 s'

omit [DecidableEq κ] in
theorem StandsFor.room (h : StandsFor ty d s) (hstuck : ¬ s.Stuck) : d.ht0.buckets ≠ [] ∨ d.pauseAutoResize ≤ 0 := by
  rw [h.stuck_iff, not_and_or, Int.not_lt] at hstuck
  exact hstuck

/-- The entries with a new key, and the map with it. -/
theorem entries_add (h : StandsFor ty d s) (key : κ) (val : ν) :
    (if key ∈ s.map then s.map else s.map.insert key val).entries =
      ↑(if key ∈ d.entries.keys then d.entries else ⟨key, val⟩ :: d.entries) := by
  by_cases hin : key ∈ d.entries.keys
  · rw [if_pos (h.mem_iff.mpr hin), if_pos hin, h.entries]
  · rw [if_neg (h.mem_iff.not.mpr hin), if_neg hin, insert_entries h.entries hin]

theorem entries_replace (h : StandsFor ty d s) (key : κ) (val : ν) :
    (s.map.insert key val).entries =
      ↑(if key ∈ d.entries.keys then d.entries.kreplace key val else ⟨key, val⟩ :: d.entries) := by
  split_ifs with hin
  · exact replace_entries h.entries hin
  · exact insert_entries h.entries hin

omit [DecidableEq κ] in
/-- Steps that keep the entries. -/
theorem follows_of_keeps (h : StandsFor ty d s) {d' : Dict κ ν} (hkeeps : Keeps ty d d') :
    ∃ s', (s'.allocated = true ↔ d'.ht0.buckets ≠ []) ∧ s.Goes s' s.map ∧ StandsFor ty d' s' :=
  h.becomes hkeeps.becomes h.entries

/-- **Without a crash** a call does what the map says. -/
theorem follows (can : ResizeEnable) (h : StandsFor ty d s) (call : Call κ ν)
    (hstuck : s.Stuck → (∀ key val, call ≠ .add key val) ∧ ∀ key val, call ≠ .replace key val) :
    Gives (Follows ty s call) (call.run ty can d) := by
  cases call with
  | fetchValue key =>
      refine answered_spec (dictFetchValue_spec can key h.wf) ?_
      rintro ⟨val, d'⟩ ⟨hkeeps, rfl⟩
      obtain ⟨s', -, hgoes, hstands⟩ := follows_of_keeps h hkeeps
      exact ⟨s', ⟨by rw [lookup_of_entries h.entries], hgoes⟩, hstands⟩
  | add key val =>
      have hfree : ¬ s.Stuck := fun hs => (hstuck hs).1 key val rfl
      refine answered_spec (dictAdd_spec can key h.wf (h.room hfree) val) ?_
      rintro ⟨added, d'⟩ ⟨rfl, hne, hbecomes⟩
      obtain ⟨s', hallocated, hgoes, hstands⟩ := h.becomes hbecomes (entries_add h key val)
      refine ⟨s', .inr ⟨hfree, ?_, hallocated.mpr hne, hgoes⟩, hstands⟩
      simp only [h.mem_iff]
  | addUnlessFound key val =>
      refine answered_spec (addUnlessFound_spec can key h.wf val) ?_
      rintro ⟨added, d'⟩ ⟨rfl, hne, hbecomes⟩
      obtain ⟨s', hallocated, hgoes, hstands⟩ := h.becomes hbecomes (entries_add h key val)
      refine ⟨s', ⟨?_, hallocated.mpr hne, hgoes⟩, hstands⟩
      simp only [h.mem_iff]
  | replace key val =>
      have hfree : ¬ s.Stuck := fun hs => (hstuck hs).2 key val rfl
      refine answered_spec (dictReplace_spec can key h.wf (h.room hfree) val) ?_
      rintro ⟨added, d'⟩ ⟨rfl, hne, hbecomes⟩
      obtain ⟨s', hallocated, hgoes, hstands⟩ := h.becomes hbecomes (entries_replace h key val)
      refine ⟨s', .inr ⟨hfree, ?_, hallocated.mpr hne, hgoes⟩, hstands⟩
      simp only [h.mem_iff]
  | delete key =>
      refine answered_spec (dictGenericDelete_spec can key h.wf) ?_
      rintro ⟨val, d'⟩ ⟨rfl, hbecomes⟩
      obtain ⟨s', -, hgoes, hstands⟩ := h.becomes hbecomes (erase_entries h.entries key)
      exact ⟨s', ⟨by rw [lookup_of_entries h.entries], hgoes⟩, hstands⟩
  | expand size =>
      refine answered_spec (dictExpand_spec h.wf size) ?_
      rintro ⟨expanded, d'⟩ ⟨hresizes, hne⟩
      obtain ⟨s', hallocated, hgoes, hstands⟩ := follows_of_keeps h hresizes.keeps
      exact ⟨s', ⟨expanded, rfl, fun hyes => hallocated.mpr (hne hyes), hgoes⟩, hstands⟩
  | shrinkIfNeeded =>
      refine answered_spec (dictShrinkIfNeeded_spec can h.wf) ?_
      rintro ⟨shrunk, d'⟩ hresizes
      obtain ⟨s', -, hgoes, hstands⟩ := follows_of_keeps h hresizes.keeps
      exact ⟨s', ⟨shrunk, rfl, hgoes⟩, hstands⟩
  | rehash n =>
      refine answered_spec (dictRehash_spec can h.wf n) ?_
      rintro ⟨more, d'⟩ hmoves
      obtain ⟨s', -, hgoes, hstands⟩ := follows_of_keeps h hmoves.keeps
      exact ⟨s', ⟨more, rfl, hgoes⟩, hstands⟩
  | pauseRehashing =>
      exact gives_ok ⟨{ s with pauseAutoResize := d.pauseAutoResize }, ⟨rfl, rfl, h.pauseAutoResize.symm, id⟩,
        h.setPauses _ d.pauseAutoResize⟩
  | resumeRehashing =>
      exact gives_ok ⟨{ s with pauseAutoResize := d.pauseAutoResize }, ⟨rfl, rfl, h.pauseAutoResize.symm, id⟩,
        h.setPauses _ d.pauseAutoResize⟩
  | pauseAutoResize =>
      exact gives_ok ⟨_, ⟨rfl, by rw [h.pauseAutoResize]⟩, h.setPauses d.pauserehash (Dict.int16 (d.pauseAutoResize + 1))⟩
  | resumeAutoResize =>
      exact gives_ok ⟨_, ⟨rfl, by rw [h.pauseAutoResize]⟩, h.setPauses d.pauserehash (Dict.int16 (d.pauseAutoResize + -1))⟩
  | empty => exact gives_ok ⟨.new, ⟨rfl, rfl⟩, standsFor_create⟩

/-- With no table and no leave to make one, adding follows a null pointer. -/
theorem crashes (can : ResizeEnable) (h : StandsFor ty d s) (hstuck : s.Stuck) (key : κ) (val : ν) :
    (Call.add key val).run ty can d = .error .access ∧ (Call.replace key val).run ty can d = .error .access := by
  obtain ⟨hnil, hpaused⟩ := h.stuck_iff.mp hstuck
  have hcrash := dictFindLinkForInsert_crash can key h.wf hnil hpaused
  rw [Call.run, Call.run, dictAdd, dictReplace, hcrash]
  exact ⟨rfl, rfl⟩

/-- One call follows the specification. -/
theorem step_follows (h : StandsFor ty d s) (c : ResizeEnable × Call κ ν) :
    ∃ s', c.2.spec s (d.step ty c).1 s' ∧ StandsFor ty (d.step ty c).2 s' := by
  obtain ⟨can, call⟩ := c
  by_cases hstuck : s.Stuck → (∀ key val, call ≠ .add key val) ∧ ∀ key val, call ≠ .replace key val
  · obtain ⟨r, hr, hfollows⟩ := follows can h call hstuck
    rw [Dict.step, hr]
    exact hfollows
  · obtain ⟨hs, hcall⟩ := Classical.not_imp.mp hstuck
    have hadds : (∃ key val, call = .add key val) ∨ ∃ key val, call = .replace key val := by
      by_contra hno
      rw [not_or] at hno
      exact hcall ⟨fun key val heq => hno.1 ⟨key, val, heq⟩, fun key val heq => hno.2 ⟨key, val, heq⟩⟩
    rcases hadds with ⟨key, val, rfl⟩ | ⟨key, val, rfl⟩
    · rw [Dict.step, (crashes can h hs key val).1]
      exact ⟨s, .inl ⟨hs, rfl, rfl⟩, h⟩
    · rw [Dict.step, (crashes can h hs key val).2]
      exact ⟨s, .inl ⟨hs, rfl, rfl⟩, h⟩

/-- **A dict refines a finite map**: whatever it is asked, under whatever hash
function and resize policy, it answers as the map does and has the entries of
the map, in the middle of rehashing too; and it crashes only where the
specification says so. -/
theorem dict_refines (ty : DictType κ) (calls : List (ResizeEnable × Call κ ν)) :
    Refines (Dict.step ty) (fun s c => c.2.spec s) (fun d s => s.map.entries = ↑d.entries ∧ d.size = s.map.keys.card)
      Dict.create .new calls :=
  refines_of_simulation (R := StandsFor ty)
    (fun _ _ h => ⟨h.entries, by rw [h.wf.size_eq, card_of_entries h.entries]⟩)
    (fun _ _ c h => step_follows h c) standsFor_create calls

/-- The dict after some calls. -/
def Dict.after (ty : DictType κ) (calls : List (ResizeEnable × Call κ ν)) : Dict κ ν :=
  calls.foldl (fun d c => (d.step ty c).2) .create

theorem wf_after (ty : DictType κ) (calls : List (ResizeEnable × Call κ ν)) : (Dict.after ty calls).Wf ty := by
  have hrun : ∀ (calls : List (ResizeEnable × Call κ ν)) (d : Dict κ ν) (s : Mapping κ ν), StandsFor ty d s →
      (calls.foldl (fun d c => (d.step ty c).2) d).Wf ty := by
    intro calls
    induction calls with
    | nil => exact fun d s h => h.wf
    | cons c calls ih =>
        intro d s h
        obtain ⟨s', -, h'⟩ := step_follows h c
        exact ih _ s' h'
  exact hrun calls _ _ standsFor_create

end Calls

end SkynetJit.Redis.HashTable
