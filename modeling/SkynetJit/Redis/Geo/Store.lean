import SkynetJit.Redis.Geo.Cells
import SkynetJit.Redis.Geo.Command
import SkynetJit.Redis.Zset.Store

/-!
# SkynetJit.Redis.Geo.Store

A search stores what it would reply with.

* `geoArgs_storeForm` — the arguments with a destination set what the others
  set, and the destination.
* `geoStoreLoop_cases` — the store branch stops at a score that is not a number,
  and nowhere else if the names differ.
* `geo_store_agrees` — the destination holds the members of the reply.
-/

namespace SkynetJit.Redis

open Raise Scored
open LuaNumber (isNaN)

variable {ν : Type} [Score ν]

/-! ## Options with a destination -/

/-- Another destination. -/
def GeoOptions.withStore (o : GeoOptions ν) (storekey : Option (Kind × Nat)) (storedist : Bool) : GeoOptions ν :=
  { o with storekey := storekey, storedist := storedist }

section Options

variable {env : GeoSearch ν} {form form' : GeoForm} {zobj : ZsetObj ν} {o o' : GeoOptions ν}

/-- What one round of the loop did. -/
theorem geoOption_eq_ok {arg : LuaValue ν} {rest : List (LuaValue ν)} {skip : Nat}
    (h : geoOption env form zobj o arg rest = .ok (o', skip)) :
    ∃ s word, arg = .string s ∧ geoWord s = some word ∧ word.width form o = some skip ∧ skip ≤ rest.length ∧
      word.apply env form zobj o (rest.take skip) = .ok o' := by
  rw [geoOption.eq_def] at h
  split at h
  next s =>
    split at h
    next word hword =>
      split at h
      next n hwidth =>
        split_ifs at h with hlen
        cases happly : word.apply env form zobj o (rest.take n) with
        | error e =>
            rw [happly] at h
            contradiction
        | ok o₁ =>
            rw [happly] at h
            obtain ⟨rfl, rfl⟩ := Prod.mk.inj (Except.ok.inj h)
            exact ⟨s, word, rfl, hword, hwidth, hlen, happly⟩
      next => contradiction
    next => contradiction
  next => contradiction

theorem geoOption_of_apply {s : Bytes} {word : GeoWord} {rest : List (LuaValue ν)} {skip : Nat}
    (hword : geoWord s = some word) (hwidth : word.width form o = some skip) (hlen : skip ≤ rest.length)
    (happly : word.apply env form zobj o (rest.take skip) = .ok o') :
    geoOption env form zobj o (.string s) rest = .ok (o', skip) := by
  rw [geoOption.eq_def]
  simp only [hword, hwidth, if_pos hlen, happly]
  rfl

/-- More arguments behind make no difference to an option. -/
theorem geoOption_append {arg : LuaValue ν} {rest : List (LuaValue ν)} {skip : Nat}
    (h : geoOption env form zobj o arg rest = .ok (o', skip)) (more : List (LuaValue ν)) :
    skip ≤ rest.length ∧ geoOption env form zobj o arg (rest ++ more) = .ok (o', skip) := by
  obtain ⟨s, word, rfl, hword, hwidth, hlen, happly⟩ := geoOption_eq_ok h
  refine ⟨hlen, geoOption_of_apply hword hwidth (hlen.trans (by simp)) ?_⟩
  rwa [List.take_append_of_le_length hlen]

/-- **Whole options** are read as if nothing followed. -/
theorem geoOptions_append {pre : List (LuaValue ν)} {skip : Nat} (hskip : skip ≤ pre.length)
    (h : geoOptions env form zobj skip o pre = .ok o') (post : List (LuaValue ν)) :
    geoOptions env form zobj skip o (pre ++ post) = geoOptions env form zobj 0 o' post := by
  induction pre generalizing skip o with
  | nil =>
      obtain rfl : skip = 0 := Nat.le_zero.mp hskip
      rw [List.nil_append, Except.ok.inj h]
  | cons arg rest ih =>
      cases skip with
      | succ skip => exact ih (Nat.le_of_succ_le_succ hskip) h
      | zero =>
          rw [geoOptions] at h
          cases hstep : geoOption env form zobj o arg rest with
          | error e =>
              rw [hstep] at h
              contradiction
          | ok r =>
              obtain ⟨o₁, skip⟩ := r
              rw [hstep] at h
              obtain ⟨hlen, happend⟩ := geoOption_append hstep post
              rw [List.cons_append, geoOptions, happend]
              exact ih hlen h

/-- The forms of a search without a destination, and what they become. -/
inductive GeoForm.Reads : GeoForm → GeoForm → Prop
  | radius {form : GeoForm} (h : form.isSearch = false) : GeoForm.Reads form form
  | search : GeoForm.Reads .search .search
  | searchStore : GeoForm.Reads .search .searchStore

theorem GeoForm.Reads.isSearch_eq (h : GeoForm.Reads form form') : form'.isSearch = form.isSearch := by
  cases h <;> rfl

theorem GeoForm.Reads.ne (h : GeoForm.Reads form form') : form ≠ .searchStore := by
  rintro rfl
  cases h with
  | radius h => exact Bool.noConfusion h

theorem map_update {α β : Type} (x : Except LuaError α) {f g : α → β} (update : β → β)
    (h : ∀ a, f a = update (g a)) : x.map f = (x.map g).map update := by
  cases x with
  | error e => rfl
  | ok a => exact congrArg Except.ok (h a)

/-- The words that set the destination. -/
def GeoWord.stores (word : GeoWord) : Prop := word = .store ∨ word = .storedist

omit [Score ν] in
theorem GeoWord.width_withStore {word : GeoWord} (hword : ¬ word.stores) (hform : form'.isSearch = form.isSearch)
    (storekey : Option (Kind × Nat)) (storedist : Bool) :
    word.width form' (o.withStore storekey storedist) = word.width form o := by
  cases word with
  | store => exact absurd (.inl rfl) hword
  | storedist => exact absurd (.inr rfl) hword
  | frommember | fromlonlat | byradius | bybox =>
      rw [width, width, hform]
      rfl
  | withdist | withhash | withcoord | any | asc | desc | count => rfl

theorem GeoWord.apply_withStore {word : GeoWord} (hword : ¬ word.stores) (args : List (LuaValue ν))
    (storekey : Option (Kind × Nat)) (storedist : Bool) :
    word.apply env form' zobj (o.withStore storekey storedist) args =
      (word.apply env form zobj o args).map fun o => o.withStore storekey storedist := by
  cases word with
  | store => exact absurd (.inl rfl) hword
  | storedist => exact absurd (.inr rfl) hword
  | withdist | withhash | withcoord | any | asc | desc => rfl
  | count | fromlonlat | byradius | bybox | frommember =>
      rw [apply, apply]
      exact map_update _ _ fun _ => rfl

omit [Score ν] in
theorem GeoOptions.withStore_self (o : GeoOptions ν) : o.withStore o.storekey o.storedist = o := rfl

/-- In the forms that read, a word that sets the destination sets one. -/
theorem GeoWord.storekey_ne_none {word : GeoWord} (hword : word.stores) (hform : form ≠ .searchStore)
    {args : List (LuaValue ν)} (h : word.apply env form zobj o args = .ok o') : o'.storekey ≠ none := by
  have hset : ∀ {storedist : Bool},
      ((rlGeoStoreTarget (luaArg args 1)).map fun key => o.withStore (some key) storedist) = .ok o' →
        o'.storekey ≠ none := by
    intro storedist hmap
    cases htarget : rlGeoStoreTarget (luaArg args 1) with
    | error e =>
        rw [htarget] at hmap
        contradiction
    | ok key =>
        rw [htarget] at hmap
        rw [← Except.ok.inj hmap]
        exact Option.some_ne_none key
  rcases hword with rfl | rfl
  · exact hset h
  · rw [apply, if_neg hform] at h
    exact hset h

/-- An option of a search without a destination is the same option of the search
with one. -/
theorem geoOption_withStore (hform : form.Reads form') {arg : LuaValue ν} {rest : List (LuaValue ν)} {skip : Nat}
    (h : geoOption env form zobj o arg rest = .ok (o', skip)) (hnone : o'.storekey = none)
    (storekey : Option (Kind × Nat)) (storedist : Bool) :
    o.storekey = none ∧
      geoOption env form' zobj (o.withStore storekey storedist) arg rest =
        .ok (o'.withStore storekey storedist, skip) := by
  obtain ⟨s, word, rfl, hword, hwidth, hlen, happly⟩ := geoOption_eq_ok h
  have hstores : ¬ word.stores := fun hstores => GeoWord.storekey_ne_none hstores hform.ne happly hnone
  have hsame := @GeoWord.apply_withStore _ _ env form form zobj o _ hstores (rest.take skip) o.storekey o.storedist
  rw [o.withStore_self, happly] at hsame
  refine ⟨?_, geoOption_of_apply hword ?_ hlen ?_⟩
  · have hkey := congrArg GeoOptions.storekey (Except.ok.inj hsame)
    exact hkey.symm.trans hnone
  · rw [GeoWord.width_withStore hstores hform.isSearch_eq, hwidth]
  · rw [@GeoWord.apply_withStore _ _ env form form' zobj o _ hstores, happly]
    rfl

/-- **The options** of a search without a destination. -/
theorem geoOptions_withStore (hform : form.Reads form') {args : List (LuaValue ν)} {skip : Nat}
    (h : geoOptions env form zobj skip o args = .ok o') (hnone : o'.storekey = none)
    (storekey : Option (Kind × Nat)) (storedist : Bool) :
    o.storekey = none ∧
      geoOptions env form' zobj skip (o.withStore storekey storedist) args =
        .ok (o'.withStore storekey storedist) := by
  induction args generalizing skip o with
  | nil =>
      rw [geoOptions] at h ⊢
      obtain rfl := Except.ok.inj h
      exact ⟨hnone, rfl⟩
  | cons arg rest ih =>
      cases skip with
      | succ skip => exact ih h
      | zero =>
          rw [geoOptions] at h ⊢
          cases hstep : geoOption env form zobj o arg rest with
          | error e =>
              rw [hstep] at h
              contradiction
          | ok r =>
              obtain ⟨o₁, skip⟩ := r
              rw [hstep] at h
              obtain ⟨hnone₁, hrest⟩ := ih h
              obtain ⟨hnone₀, hstep'⟩ := geoOption_withStore hform hstep hnone₁ storekey storedist
              rw [hstep']
              exact ⟨hnone₀, hrest⟩

end Options

/-! ## Calls with a destination -/

/-- A call of a search command. -/
abbrev GeoCall (ν : Type) := GeoForm × List (LuaValue ν)

/-- What GEORADIUS and GEORADIUSBYMEMBER have before the options. -/
inductive GeoHead (ν : Type) where
  | radius (src x y radius unit : LuaValue ν)
  | member (src member radius unit : LuaValue ν)

def GeoHead.form : GeoHead ν → GeoForm
  | .radius _ _ _ _ _ => .radiusCoords false
  | .member _ _ _ _ => .radiusMember false

def GeoHead.args : GeoHead ν → List (LuaValue ν)
  | .radius src x y r unit => [src, x, y, r, unit]
  | .member src name r unit => [src, name, r, unit]

/-- A search and the same search with a destination: STORE or STOREDIST behind
some whole options, or GEOSEARCHSTORE, with STOREDIST or not. -/
inductive StoreForm (env : GeoSearch ν) (s : Zsets ν) (kind : Kind) (id : Nat) :
    Bool → GeoCall ν → GeoCall ν → Prop
  | option {head : GeoHead ν} {pre post : List (LuaValue ν)} {word : Bytes} {storedist : Bool} {parsed}
      (hword : geoWord word = some (if storedist then .storedist else .store))
      (hpre : geoArgs env head.form s (head.args ++ pre) = .ok parsed) :
      StoreForm env s kind id storedist (head.form, head.args ++ (pre ++ post))
        (head.form, head.args ++ (pre ++ .string word :: .handle kind id :: post))
  | searchStore {src : LuaValue ν} {options : List (LuaValue ν)} :
      StoreForm env s kind id false (.search, src :: options) (.searchStore, .handle kind id :: src :: options)
  | searchStoreDist {src : LuaValue ν} {pre post : List (LuaValue ν)} {word : Bytes} {parsed}
      (hword : geoWord word = some .storedist) (hpre : geoArgs env .search s (src :: pre) = .ok parsed) :
      StoreForm env s kind id true (.search, src :: (pre ++ post))
        (.searchStore, .handle kind id :: src :: (pre ++ .string word :: post))

section Calls

variable {env : GeoSearch ν} {s : Zsets ν} {kind : Kind} {id : Nat}

theorem geoArgs_eq_ok {form : GeoForm} {args : List (LuaValue ν)} {src : Nat} {o : GeoOptions ν}
    (h : geoArgs env form s args = .ok (src, o)) :
    ∃ o₀ rest, geoStart env form s args = .ok (src, o₀, rest) ∧
      geoOptions env form (s .geo src) 0 o₀ rest = .ok o := by
  rw [geoArgs] at h
  cases hstart : geoStart env form s args with
  | error e =>
      rw [hstart] at h
      contradiction
  | ok r =>
      obtain ⟨src', o₀, rest⟩ := r
      rw [hstart] at h
      change ((geoOptions env form (s .geo src') 0 o₀ rest).bind fun o => .ok (src', o)) = _ at h
      cases hoptions : geoOptions env form (s .geo src') 0 o₀ rest with
      | error e =>
          rw [hoptions] at h
          contradiction
      | ok o' =>
          rw [hoptions] at h
          obtain ⟨rfl, rfl⟩ := Prod.mk.inj (Except.ok.inj h)
          exact ⟨o₀, rest, rfl, hoptions⟩

theorem geoArgs_of_start {form : GeoForm} {args rest : List (LuaValue ν)} {src : Nat} {o₀ o : GeoOptions ν}
    (hstart : geoStart env form s args = .ok (src, o₀, rest))
    (hoptions : geoOptions env form (s .geo src) 0 o₀ rest = .ok o) : geoArgs env form s args = .ok (src, o) := by
  rw [geoArgs, hstart]
  change ((geoOptions env form (s .geo src) 0 o₀ rest).bind fun o => .ok (src, o)) = _
  rw [hoptions]
  rfl

/-- The options are what follows the head. -/
theorem geoStart_head (head : GeoHead ν) (options : List (LuaValue ν)) :
    geoStart env head.form s (head.args ++ options) =
      (geoStart env head.form s head.args).map fun r => (r.1, r.2.1, options) := by
  cases head with
  | radius src x y r unit =>
      let args : List (LuaValue ν) := [src, x, y, r, unit]
      have hcheck : rlCheck (args ++ options) 1 .geo = rlCheck args 1 .geo := rfl
      have hxy : rlGeoLongLatAt env (args ++ options) 2 = rlGeoLongLatAt env args 2 := rfl
      have hbounds : rlGeoDistanceArg (args ++ options) 4 = rlGeoDistanceArg args 4 := rfl
      have hlen : ¬ (args ++ options).length < 5 := by simp [args]
      change geoStart env (.radiusCoords false) s (args ++ options) =
        (geoStart env (.radiusCoords false) s args).map fun r => (r.1, r.2.1, options)
      simp only [geoStart, GeoForm.minArgs, GeoForm.srcidx, if_neg hlen, hcheck, hxy, hbounds]
      cases rlCheck args 1 .geo with
      | error e => rfl
      | ok id =>
          cases rlGeoLongLatAt env args 2 with
          | error e => rfl
          | ok xy => cases rlGeoDistanceArg args 4 <;> rfl
  | member src name r unit =>
      let args : List (LuaValue ν) := [src, name, r, unit]
      have hcheck : rlCheck (args ++ options) 1 .geo = rlCheck args 1 .geo := rfl
      have hmember : rlMember (args ++ options) 2 = rlMember args 2 := rfl
      have hbounds : rlGeoDistanceArg (args ++ options) 3 = rlGeoDistanceArg args 3 := rfl
      have hlen : ¬ (args ++ options).length < 4 := by simp [args]
      change geoStart env (.radiusMember false) s (args ++ options) =
        (geoStart env (.radiusMember false) s args).map fun r => (r.1, r.2.1, options)
      simp only [geoStart, GeoForm.minArgs, GeoForm.srcidx, if_neg hlen, hcheck, hmember, hbounds]
      cases rlCheck args 1 .geo with
      | error e => rfl
      | ok id =>
          dsimp only [bind, Except.bind]
          cases rlMember args 2 with
          | error e => rfl
          | ok member =>
              dsimp only
              cases rlGeoMemberOrEmpty env (s .geo id) member with
              | error e => rfl
              | ok centre => cases rlGeoDistanceArg args 3 <;> rfl

omit [Score ν] in
theorem rlGeoStoreTarget_handle (hkind : kind = .geo ∨ kind = .zset) :
    rlGeoStoreTarget (some (.handle kind id : LuaValue ν)) = .ok (kind, id) := if_pos hkind

theorem geoStart_search_eq_ok {srcArg : LuaValue ν} {options rest : List (LuaValue ν)} {src : Nat}
    {o : GeoOptions ν} (h : geoStart env .search s (srcArg :: options) = .ok (src, o, rest)) :
    rlCheckValue .geo (some srcArg) = .ok src ∧ {} = o ∧ options = rest := by
  have hlen : ¬ (srcArg :: options).length < 1 := by simp
  have hcheck : rlCheck (srcArg :: options) 1 .geo = rlCheckValue .geo (some srcArg) := rfl
  simp only [geoStart, GeoForm.minArgs, GeoForm.srcidx, if_neg hlen, hcheck] at h
  cases hvalue : rlCheckValue .geo (some srcArg) with
  | error e =>
      rw [hvalue] at h
      contradiction
  | ok id =>
      rw [hvalue] at h
      obtain ⟨rfl, hpair⟩ := Prod.mk.inj (Except.ok.inj h)
      exact ⟨rfl, Prod.mk.inj hpair⟩

theorem geoStart_searchStore (hkind : kind = .geo ∨ kind = .zset) {srcArg : LuaValue ν} {src : Nat}
    (hsrc : rlCheckValue .geo (some srcArg) = .ok src) (options : List (LuaValue ν)) :
    geoStart env .searchStore s (.handle kind id :: srcArg :: options) =
      .ok (src, GeoOptions.withStore {} (some (kind, id)) false, options) := by
  have hlen : ¬ (LuaValue.handle kind id :: srcArg :: options).length < 2 := by simp
  have hcheck : rlCheck (.handle kind id :: srcArg :: options) 2 .geo = .ok src := hsrc
  have htarget : rlGeoStoreTarget (luaArg (.handle kind id :: srcArg :: options) 1) = .ok (kind, id) :=
    rlGeoStoreTarget_handle hkind
  simp only [geoStart, GeoForm.minArgs, GeoForm.srcidx, if_neg hlen, hcheck, htarget]
  rfl

/-- The round of the loop for STORE and STOREDIST. -/
theorem geoOption_store {form : GeoForm} (hform : form.takesStore = true) {word : Bytes} {storedist : Bool}
    (hword : geoWord word = some (if storedist then .storedist else .store)) (hkind : kind = .geo ∨ kind = .zset)
    (zobj : ZsetObj ν) (o : GeoOptions ν) (post : List (LuaValue ν)) :
    geoOption env form zobj o (.string word) (.handle kind id :: post) =
      .ok (o.withStore (some (kind, id)) storedist, 1) := by
  have htarget : rlGeoStoreTarget (luaArg [(LuaValue.handle kind id : LuaValue ν)] 1) = .ok (kind, id) :=
    rlGeoStoreTarget_handle hkind
  have hne : form ≠ .searchStore := by
    rintro rfl
    exact Bool.noConfusion hform
  refine geoOption_of_apply hword ?_ (by simp) ?_
  · cases storedist
    · exact if_pos hform
    · exact if_pos hform
  · cases storedist
    · rw [if_neg Bool.false_ne_true]
      change (rlGeoStoreTarget (luaArg [(LuaValue.handle kind id : LuaValue ν)] 1)).map _ = _
      rw [htarget]
      rfl
    · rw [if_pos rfl, GeoWord.apply, if_neg hne]
      change (rlGeoStoreTarget (luaArg [(LuaValue.handle kind id : LuaValue ν)] 1)).map _ = _
      rw [htarget]
      rfl

omit [Score ν] in
theorem GeoHead.reads (head : GeoHead ν) : head.form.Reads head.form := .radius (by cases head <;> rfl)

omit [Score ν] in
theorem GeoHead.takesStore (head : GeoHead ν) : head.form.takesStore = true := by cases head <;> rfl

/-- **The arguments with a destination** set what the others set, and the
destination. -/
theorem geoArgs_storeForm (hkind : kind = .geo ∨ kind = .zset) {storedist : Bool} {read store : GeoCall ν}
    (h : StoreForm env s kind id storedist read store) {src : Nat} {o : GeoOptions ν}
    (hargs : geoArgs env read.1 s read.2 = .ok (src, o)) (hnone : o.storekey = none) :
    geoArgs env store.1 s store.2 = .ok (src, o.withStore (some (kind, id)) storedist) := by
  cases h with
  | @option head pre post word _ parsed hword hpre =>
      obtain ⟨srcPre, o₁⟩ := parsed
      obtain ⟨o₀, rest, hstart, hwhole⟩ := geoArgs_eq_ok hpre
      obtain ⟨o₀', rest', hstart', hoptions⟩ := geoArgs_eq_ok hargs
      rw [geoStart_head] at hstart hstart'
      cases hhead : geoStart env head.form s head.args with
      | error e =>
          rw [hhead] at hstart
          contradiction
      | ok r =>
          obtain ⟨srcHead, oHead, restHead⟩ := r
          rw [hhead] at hstart hstart'
          obtain ⟨rfl, hpair⟩ := Prod.mk.inj (Except.ok.inj hstart)
          obtain ⟨rfl, rfl⟩ := Prod.mk.inj hpair
          obtain ⟨rfl, hpair'⟩ := Prod.mk.inj (Except.ok.inj hstart')
          obtain ⟨rfl, rfl⟩ := Prod.mk.inj hpair'
          dsimp only at hwhole hoptions
          rw [geoOptions_append (Nat.zero_le _) hwhole] at hoptions
          have hstore : geoStart env head.form s (head.args ++ (pre ++ .string word :: .handle kind id :: post)) =
              .ok (srcHead, oHead, pre ++ .string word :: .handle kind id :: post) := by
            rw [geoStart_head, hhead]
            rfl
          refine geoArgs_of_start hstore ?_
          rw [geoOptions_append (Nat.zero_le _) hwhole, geoOptions, geoOption_store head.takesStore hword hkind]
          exact (geoOptions_withStore head.reads hoptions hnone _ _).2
  | @searchStore srcArg options =>
      obtain ⟨o₀, rest, hstart, hoptions⟩ := geoArgs_eq_ok hargs
      obtain ⟨hcheck, rfl, rfl⟩ := geoStart_search_eq_ok hstart
      exact geoArgs_of_start (geoStart_searchStore hkind hcheck options)
        (geoOptions_withStore .searchStore hoptions hnone _ _).2
  | @searchStoreDist srcArg pre post word parsed hword hpre =>
      obtain ⟨srcPre, o₁⟩ := parsed
      obtain ⟨o₀, rest, hstart, hwhole⟩ := geoArgs_eq_ok hpre
      obtain ⟨hcheck, rfl, rfl⟩ := geoStart_search_eq_ok hstart
      obtain ⟨o₀, rest, hstart', hoptions⟩ := geoArgs_eq_ok hargs
      obtain ⟨hcheck', rfl, rfl⟩ := geoStart_search_eq_ok hstart'
      obtain rfl : srcPre = src := Except.ok.inj (hcheck.symm.trans hcheck')
      rw [geoOptions_append (Nat.zero_le _) hwhole] at hoptions
      refine geoArgs_of_start (geoStart_searchStore hkind hcheck _) ?_
      obtain ⟨hnone₁, hpost⟩ := geoOptions_withStore .searchStore hoptions hnone (some (kind, id)) true
      have hpre' := (geoOptions_withStore .searchStore hwhole hnone₁ (some (kind, id)) false).2
      rw [geoOptions_append (Nat.zero_le _) hpre', geoOptions,
        geoOption_of_apply hword rfl (Nat.zero_le _) rfl]
      exact hpost

/-- The options that say what to search for and what to return: no destination,
and the reply is the names. -/
structure GeoOptions.Plain (o : GeoOptions ν) : Prop where
  storekey : o.storekey = none
  withdist : o.withdist = false
  withhash : o.withhash = false
  withcoords : o.withcoords = false

theorem geoQuery_eq_ok {form : GeoForm} {args : List (LuaValue ν)} {q : GeoQuery ν}
    (h : geoQuery env form s args = .ok q) :
    ∃ src o, geoArgs env form s args = .ok (src, o) ∧ geoTraps form src o = .ok q := by
  rw [geoQuery] at h
  cases hargs : geoArgs env form s args with
  | error e =>
      rw [hargs] at h
      contradiction
  | ok r =>
      rw [hargs] at h
      exact ⟨r.1, r.2, rfl, h⟩

omit [Score ν] in
/-- The traps let the same options pass with a destination. -/
theorem geoTraps_withStore {form : GeoForm} {src : Nat} {o : GeoOptions ν} {q : GeoQuery ν}
    (h : geoTraps form src o = .ok q) (hplain : q.options.Plain) (form' : GeoForm) (storekey : Option (Kind × Nat))
    (storedist : Bool) :
    o.storekey = none ∧ geoTraps form' src (o.withStore storekey storedist) =
      .ok { q with options := q.options.withStore storekey storedist } := by
  rw [geoTraps.eq_def] at h
  by_cases hkey : (o.storekey.isSome && (o.withdist || o.withhash || o.withcoords)) = true
  · rw [if_pos hkey] at h
    contradiction
  rw [if_neg hkey] at h
  split at h
  next => contradiction
  next centre hcentre =>
    split at h
    next => contradiction
    next bounds hbounds =>
      by_cases hany : (o.any && decide (o.count = 0)) = true
      · rw [if_pos hany] at h
        contradiction
      rw [if_neg hany] at h
      obtain rfl := Except.ok.inj h
      have hwith : (o.withdist || o.withhash || o.withcoords) = false := by
        rw [show o.withdist = false from hplain.withdist, show o.withhash = false from hplain.withhash,
          show o.withcoords = false from hplain.withcoords]
        rfl
      refine ⟨hplain.storekey, ?_⟩
      rw [geoTraps.eq_def]
      simp only [GeoOptions.withStore, hwith, hcentre, hbounds, Bool.and_false, Bool.false_eq_true, if_false, hany]

/-- **The search with a destination** is the same search. -/
theorem geoQuery_storeForm (hkind : kind = .geo ∨ kind = .zset) {storedist : Bool} {read store : GeoCall ν}
    (h : StoreForm env s kind id storedist read store) {q : GeoQuery ν}
    (hq : geoQuery env read.1 s read.2 = .ok q) (hplain : q.options.Plain) :
    geoQuery env store.1 s store.2 =
      .ok { q with options := q.options.withStore (some (kind, id)) storedist } := by
  obtain ⟨src, o, hargs, htraps⟩ := geoQuery_eq_ok hq
  obtain ⟨hnone, hstore⟩ := geoTraps_withStore htraps hplain store.1 (some (kind, id)) storedist
  rw [geoQuery, geoArgs_storeForm hkind h hargs hnone]
  exact hstore

end Calls

/-! ## The store branch -/

section Branch

variable [LawfulScore ν] {zs : Zset ν} {L : List Nat}

/-- **The store branch** adds the items one after the other; it stops at a score
that is not a number. -/
theorem geoStoreLoop_cases (h : zs.Holds L) (rand : Draws) {items : List (Scored ν)}
    (hnodup : ((items ++ zs.items).map Scored.ele).Nodup) :
    (∀ a ∈ items, a.IsNumber) ∧ geoStoreLoop rand zs items = .ok (zs.addAll rand items) ∨
      (∃ a ∈ items, ¬ a.IsNumber) ∧ geoStoreLoop rand zs items = .error .scoreNaN := by
  induction items generalizing zs L with
  | nil => exact .inl ⟨fun a ha => absurd ha List.not_mem_nil, rfl⟩
  | cons a items ih =>
      rw [List.cons_append, List.map_cons, List.nodup_cons, List.map_append, List.mem_append, not_or] at hnodup
      rw [geoStoreLoop]
      cases hnan : isNaN a.score with
      | true =>
          have hnot : ¬ a.IsNumber := fun ha => Bool.false_ne_true (ha.symm.trans hnan)
          exact .inr ⟨⟨a, List.mem_cons_self, hnot⟩, if_pos rfl⟩
      | false =>
          have hnew : zs.dictFind a.ele = none := by
            have hscore := h.scoreOf_items a.ele
            rw [scoreOf_eq_none_iff.mpr hnodup.1.2] at hscore
            exact Option.map_eq_none_iff.mp hscore.symm
          obtain ⟨L', h', hperm⟩ := h.add rand hnan hnodup.1.2
          have hperm' : (items ++ (zs.add rand a).items).Perm (a :: (items ++ zs.items)) :=
            (hperm.append_left items).trans List.perm_middle
          have hnodup' : ((items ++ (zs.add rand a).items).map Scored.ele).Nodup := by
            rw [(hperm'.map Scored.ele).nodup_iff, List.map_cons, List.nodup_cons, List.map_append,
              List.mem_append, not_or]
            exact hnodup
          rw [if_neg Bool.false_ne_true, hnew, Option.isSome_none, if_neg Bool.false_ne_true]
          rcases ih h' hnodup' with ⟨hnumber, hloop⟩ | ⟨⟨b, hb, hnot⟩, hloop⟩
          · exact .inl ⟨List.forall_mem_cons.mpr ⟨hnan, hnumber⟩, hloop⟩
          · exact .inr ⟨⟨b, List.mem_cons_of_mem a hb, hnot⟩, hloop⟩

theorem geoStoreLoop_create (rand : Draws) {items : List (Scored ν)} (hnodup : (items.map Scored.ele).Nodup) :
    (∀ a ∈ items, a.IsNumber) ∧ geoStoreLoop rand Zset.create items = .ok (Zset.create.addAll rand items) ∨
      (∃ a ∈ items, ¬ a.IsNumber) ∧ geoStoreLoop rand Zset.create items = .error .scoreNaN := by
  refine geoStoreLoop_cases Zset.holds_create rand ?_
  rwa [Zset.holds_create.items_eq, List.map_nil, List.append_nil]

/-- **No item is found in the dict**, if the names differ. -/
theorem geoStoreResult_ne_duplicate (rand : Draws) {items : List (Scored ν)}
    (hnodup : (items.map Scored.ele).Nodup) : geoStoreResult rand items ≠ .error .duplicate := by
  rw [geoStoreResult]
  split_ifs
  · intro h
    contradiction
  · rcases geoStoreLoop_create rand hnodup with ⟨-, hloop⟩ | ⟨-, hloop⟩
    · rw [hloop]
      intro h
      contradiction
    · rw [hloop]
      intro h
      exact GeoFault.noConfusion (Except.error.inj h)

/-- What is stored is what the system stores. -/
theorem geoStored_eq (rand : Draws) {items : List (Scored ν)} (hnodup : (items.map Scored.ele).Nodup) :
    geoStored rand items = (geoStoreResult rand items).toOption := by
  rw [geoStored, geoStoreResult]
  rcases geoStoreLoop_create rand hnodup with ⟨hnumber, hloop⟩ | ⟨⟨a, ha, hnot⟩, hloop⟩
  · rw [if_pos ⟨hnumber, hnodup⟩, hloop]
    by_cases hnil : items = []
    · rw [if_neg (not_not.mpr hnil), if_pos hnil]
      rfl
    · rw [if_pos hnil, if_neg hnil]
      rfl
  · rw [if_neg fun h => hnot (h.1 a ha), hloop, if_neg (List.ne_nil_of_mem ha)]
    rfl

/-- **Storing** items with scores that are numbers. -/
theorem geoStoreResult_of_fit {items : List (Scored ν)} (h : Fit items) (rand : Draws) :
    ∃ result, geoStoreResult rand items = .ok result ∧ result.Wf ∧ SameScores result.items items := by
  by_cases hnil : items = []
  · refine ⟨zsetTypeCreate 0 0, if_pos hnil, wf_zsetTypeCreate 0 0, ?_⟩
    rw [items_zsetTypeCreate, hnil]
    exact sameScores_of_near .nil
  · obtain ⟨L, hL, hperm⟩ := h.build rand
    obtain ⟨hwf, hnear⟩ := wf_zsetConvertToListpackIfNeeded hL (maxelelen items) (totelelen items)
    refine ⟨_, ?_, hwf, ?_⟩
    · rcases geoStoreLoop_create rand h.nodup with ⟨-, hloop⟩ | ⟨⟨a, ha, hnot⟩, -⟩
      · rw [geoStoreResult, if_neg hnil, hloop]
        rfl
      · exact absurd (h.number a ha) hnot
    · refine (sameScores_of_near hnear).symm.trans fun e => ?_
      rw [(h.sound_build rand).2 e]
      exact sameScores_of_near (List.forall₂_same.mpr fun a ha => Near.refl (h.number a ha)) e

end Branch

/-! ## What a search finds -/

section Found

variable {env : GeoSearch ν} {q : GeoQuery ν} {xy : ν × ν} {zobj : ZsetObj ν} {gp : GeoPoint ν}

theorem cells_geohashCalculateAreas (area : GeoArea) :
    (geohashCalculateAreas area).cells =
      cellsAround area.steps (area.latOffset.fixed area.steps) (area.longOffset.fixed area.steps)
        area.sides.zeroed := by
  rw [geohashCalculateAreas, cellsAround, geohashEncode_eq area.steps_pos area.steps_le]

/-- An item of a search: an element of the source inside the shape, with its
distance in the unit. -/
structure Found (env : GeoSearch ν) (q : GeoQuery ν) (xy : ν × ν) (zobj : ZsetObj ν) (gp : GeoPoint ν) : Prop where
  mem : ⟨gp.member, gp.score⟩ ∈ zobj.items
  dist : ∃ d, env.within ⟨xy, q.bounds⟩ gp.score = some ((gp.longitude, gp.latitude), d) ∧
    gp.dist = env.div d (env.shapeConversion q.bounds)

omit [Score ν] in
theorem geoSorted_perm (env : GeoSearch ν) (o : GeoOptions ν) (ga : List (GeoPoint ν)) :
    (geoSorted env o ga).Perm ga := by
  rw [geoSorted]
  split_ifs
  · exact List.Perm.refl ga
  · exact env.sortResult_perm _ _ ga

section Items

variable [LawfulScore ν]

theorem mem_geoCollect (h : zobj.Wf) (hmem : gp ∈ geoCollect env q xy zobj) :
    ⟨gp.member, gp.score⟩ ∈ zobj.items ∧
      env.within ⟨xy, q.bounds⟩ gp.score = some ((gp.longitude, gp.latitude), gp.dist) := by
  rw [geoCollect, rlGeoMembersOfAllNeighbors, membersOfCells_eq h] at hmem
  obtain ⟨cell, -, hcell⟩ := List.mem_flatMap.mp ((cutoff_sublist _ _).subset hmem)
  obtain ⟨hitem, -, hwithin⟩ := mem_boxPoints hcell
  exact ⟨hitem, hwithin⟩

theorem found_of_mem (h : zobj.Wf) (hmem : gp ∈ geoReturned env q (geoCollect env q xy zobj)) :
    Found env q xy zobj gp := by
  obtain ⟨gp, hgp, rfl⟩ := List.mem_map.mp hmem
  obtain ⟨hitem, hwithin⟩ := mem_geoCollect h ((geoSorted_perm env q.options _).subset (List.mem_of_mem_take hgp))
  exact ⟨hitem, gp.dist, hwithin, rfl⟩

end Items

/-- **A search** collects no member twice. -/
theorem nodup_geoCollect [LawfulGeoScore ν] (h : zobj.Wf) :
    ((geoCollect env q xy zobj).map GeoPoint.member).Nodup := by
  refine nodup_membersOfCells h _ _ ?_
  rw [cells_geohashCalculateAreas]
  exact pairwise_apart (inGrid_fixed (env.area ⟨xy, q.bounds⟩).steps_pos (env.area ⟨xy, q.bounds⟩).steps_le _ _) _

theorem nodup_geoReturned [LawfulGeoScore ν] (h : zobj.Wf) :
    ((geoReturned env q (geoCollect env q xy zobj)).map GeoPoint.member).Nodup := by
  rw [geoReturned, List.map_map]
  refine List.Nodup.sublist ((List.take_sublist _ _).map GeoPoint.member) ?_
  rw [((geoSorted_perm env q.options _).map GeoPoint.member).nodup_iff]
  exact nodup_geoCollect h

end Found

/-! ## The commands -/

section Commands

variable {env : GeoSearch ν} {s : Zsets ν}

theorem exec_rlGeosearchGeneric {form : GeoForm} {args : List (LuaValue ν)} {q : GeoQuery ν}
    (hq : geoQuery env form s args = .ok q) (rand : Draws) :
    exec (rlGeosearchGeneric env rand form args) s = geoFinish env rand q s := by
  rw [rlGeosearchGeneric, exec_get_bind, hq]
  rfl

theorem exec_rlGeosearchGeneric_error {form : GeoForm} {args : List (LuaValue ν)} {e : LuaError}
    (hq : geoQuery env form s args = .error e) (rand : Draws) :
    exec (rlGeosearchGeneric env rand form args) s = (.error (.raised e), s) := by
  rw [rlGeosearchGeneric, exec_get_bind, hq]
  rfl

variable [LawfulGeoScore ν]

/-- **The assertion of the store branch** that a member is new never fails. -/
theorem geosearch_ne_duplicate (hs : AllWf s) (rand : Draws) (form : GeoForm) (args : List (LuaValue ν)) :
    (exec (rlGeosearchGeneric env rand form args) s).1 ≠ .error .duplicate := by
  cases hq : geoQuery env form s args with
  | error e =>
      rw [exec_rlGeosearchGeneric_error hq]
      intro h
      exact GeoFault.noConfusion (Except.error.inj h)
  | ok q =>
      rw [exec_rlGeosearchGeneric hq, geoFinish.eq_def]
      cases q.centre.position with
      | none =>
          cases q.options.storekey <;>
          · intro h
            contradiction
      | some xy =>
          dsimp only
          cases q.options.storekey with
          | none =>
              intro h
              contradiction
          | some key =>
              have hnodup : (((geoReturned env q (geoCollect env q xy (s .geo q.source))).map
                  (storedScore q.options.storedist)).map Scored.ele).Nodup := by
                rw [List.map_map]
                exact nodup_geoReturned (hs .geo q.source)
              have hne := geoStoreResult_ne_duplicate rand hnodup
              dsimp only
              cases hresult : geoStoreResult rand ((geoReturned env q
                  (geoCollect env q xy (s .geo q.source))).map (storedScore q.options.storedist)) with
              | ok result =>
                  intro h
                  contradiction
              | error fault =>
                  intro h
                  rw [hresult] at hne
                  exact hne (congrArg Except.error (Except.error.inj h))

/-- **A search visits each cell once.**  At every step and around every centre,
whatever neighbours are zeroed, the ranges that are scanned are pairwise apart.
So no member is collected twice, and no store branch finds a member in the
dict. -/
theorem geo_visits_once :
    (∀ step, 1 ≤ step → step ≤ 26 → ∀ (longOffset latOffset : GeoOffset) (zeroed : Direction → Bool),
      let hash := geohashEncode longOffset latOffset step
      let cells := GeoHashRadius.cells ⟨hash, geohashExclude step zeroed (geohashNeighbors hash)⟩
      ((scannedCells cells).Pairwise fun cell cell' => Apart (cell.range : Zrangespec ν) cell'.range) ∧
        ∀ (zobj : ZsetObj ν), zobj.Wf → ∀ (within : WithinShape ν) (limit : Nat),
          ((membersOfCells within zobj limit cells).map GeoPoint.member).Nodup) ∧
      ∀ (env : GeoSearch ν) (s : Zsets ν), AllWf s → ∀ (rand : Draws) (form : GeoForm) (args : List (LuaValue ν)),
        (exec (rlGeosearchGeneric env rand form args) s).1 ≠ .error .duplicate := by
  refine ⟨fun step hpos hstep longOffset latOffset zeroed => ?_, fun env s hs rand form args =>
    geosearch_ne_duplicate hs rand form args⟩
  have hgrid := inGrid_fixed hpos hstep longOffset latOffset
  have hapart := @pairwise_apart ν _ _ _ _ _ hgrid zeroed
  rw [cellsAround, ← geohashEncode_eq hpos hstep] at hapart
  exact ⟨hapart, fun zobj hwf within limit => nodup_membersOfCells hwf within limit hapart⟩

/-- The position of the score zero. -/
def firstPosition : ℚ × ℚ := (-180 + 180 / 2 ^ 26, -85.05112878 + 85.05112878 / 2 ^ 26)

/-- The arithmetic of a search with the radius zero around that position. -/
def firstSearch : GeoSearch ℚ where
  longMin := -180
  longMax := 180
  latMin := -85.05112878
  latMax := 85.05112878
  align52 _ _ := 0
  pairText _ _ := []
  foot := 0.3048
  mile := 1609.34
  div x y := x / y
  truncate x := x.num.tdiv x.den
  decode _ := some firstPosition
  area _ :=
    { steps := 26
      steps_pos := by decide
      steps_le := by decide
      longOffset := ⟨1 / 2 ^ 27, by norm_num, by norm_num⟩
      latOffset := ⟨1 / 2 ^ 27, by norm_num, by norm_num⟩
      sides := ⟨true, true, true, true⟩ }
  within shape x := if x = 0 ∧ shape.xy = firstPosition then some (firstPosition, 0) else none
  replyDistance x := x
  sortResult _ _ ga := ga
  sortResult_perm _ _ ga := List.Perm.refl ga

/-- Everything is the set of one element. -/
def allA : Zsets ℚ := fun _ _ => listpackA

/-- FROMMEMBER a BYRADIUS 0 m. -/
def aroundA : List (LuaValue ℚ) :=
  [.handle .geo 0, .string (ascii "FROMMEMBER"), .string (ascii "a"), .string (ascii "BYRADIUS"), .number 0,
    .string (ascii "m")]

theorem geo_visits_once_sample :
    ((scannedCells (GeoHashRadius.cells
        ⟨geohashEncode ⟨1, by decide, le_rfl⟩ ⟨1, by decide, le_rfl⟩ 1, geohashExclude 1 (fun _ => true)
          (geohashNeighbors (geohashEncode ⟨1, by decide, le_rfl⟩ ⟨1, by decide, le_rfl⟩ 1))⟩)).Pairwise
      fun cell cell' => Apart (cell.range : Zrangespec ℚ) cell'.range) ∧
      (exec (rlGeosearchGeneric firstSearch (fun _ => 0) .searchStore (.handle .geo 0 :: aroundA)) allA).1 ≠
        .error .duplicate := by
  have h := @geo_visits_once ℚ _ _
  exact ⟨(h.1 1 (by decide) (by decide) ⟨1, by decide, le_rfl⟩ ⟨1, by decide, le_rfl⟩ fun _ => true).1,
    h.2 firstSearch allA (fun _ _ => wf_listpackA) (fun _ => 0) .searchStore _⟩

/-- What is relied on of the distances: in every unit they are numbers. -/
def GeoSearch.Measures (env : GeoSearch ν) : Prop :=
  ∀ shape x p, env.within shape x = some p → ∀ unit, isNaN (env.div p.2 (env.conversion unit)) = false

omit [LawfulGeoScore ν] in
theorem GeoSearch.Measures.shapeConversion (h : env.Measures) {shape : GeoShape ν} {x : ν} {p : (ν × ν) × ν}
    (hp : env.within shape x = some p) (bounds : GeoBounds ν) :
    isNaN (env.div p.2 (env.shapeConversion bounds)) = false := by
  cases bounds with
  | radius r unit => exact h shape x p hp unit
  | box w l unit => exact h shape x p hp unit

/-- The items of a search can be stored. -/
theorem fit_storedScore (henv : env.Measures) {q : GeoQuery ν} {xy : ν × ν} {zobj : ZsetObj ν} (h : zobj.Wf)
    (storedist : Bool) :
    Fit ((geoReturned env q (geoCollect env q xy zobj)).map (storedScore storedist)) := by
  refine ⟨fun a ha => ?_, ?_⟩
  · obtain ⟨gp, hgp, rfl⟩ := List.mem_map.mp ha
    obtain ⟨hitem, d, hwithin, hdist⟩ := found_of_mem h hgp
    cases storedist with
    | false => exact h.sound.number _ hitem
    | true =>
        rw [storedScore, if_pos rfl, hdist]
        exact henv.shapeConversion hwithin q.bounds
  · rw [List.map_map]
    exact nodup_geoReturned h

omit [Score ν] [LawfulGeoScore ν] in
theorem geoReply_plain {o : GeoOptions ν} (h : o.Plain) (gp : GeoPoint ν) :
    geoReply env o gp = .text gp.member := by
  rw [geoReply, h.withdist, h.withhash, h.withcoords]
  rfl

omit [LawfulGeoScore ν] in
/-- The command without a destination. -/
theorem geoFinish_read {q : GeoQuery ν} (rand : Draws) {xy : ν × ν} (hposition : q.centre.position = some xy)
    (hplain : q.options.Plain) :
    geoFinish env rand q s = (.ok (.array ((geoReturned env q (geoCollect env q xy (s .geo q.source))).map
      fun gp => .text gp.member)), s) := by
  rw [geoFinish.eq_def, hposition]
  dsimp only
  rw [hplain.storekey]
  dsimp only
  rw [List.map_congr_left fun gp _ => geoReply_plain hplain gp]

omit [LawfulGeoScore ν] in
/-- The command with a destination. -/
theorem geoFinish_store {q : GeoQuery ν} {rand : Draws} {xy : ν × ν} {kind : Kind} {id : Nat} {result : ZsetObj ν}
    (hposition : q.centre.position = some xy) (hkey : q.options.storekey = some (kind, id))
    (hresult : geoStoreResult rand ((geoReturned env q (geoCollect env q xy (s .geo q.source))).map
      (storedScore q.options.storedist)) = .ok result) :
    geoFinish env rand q s =
      (.ok (.int (geoReturned env q (geoCollect env q xy (s .geo q.source))).length), s.put kind id result) := by
  rw [geoFinish.eq_def, hposition]
  dsimp only
  rw [hkey]
  dsimp only
  rw [hresult]

/-- **STORE agrees with the reply.**  A search without a destination replies with
the names of some items.  The same search with one leaves there these names, with
their scores in the source or with their distances in the unit, and replies with
their number; no other handle changes.  Where nothing is found, and where the
source is empty, the destination is empty. -/
theorem geo_store_agrees (henv : env.Measures) (rand rand' : Draws) (hs : AllWf s) {kind : Kind} {id : Nat}
    (hkind : kind = .geo ∨ kind = .zset) {storedist : Bool} {read store : GeoCall ν}
    (hform : StoreForm env s kind id storedist read store) {q : GeoQuery ν}
    (hq : geoQuery env read.1 s read.2 = .ok q) (hplain : q.options.Plain) :
    ∃ (items : List (GeoPoint ν)) (result : ZsetObj ν),
      exec (rlGeosearchGeneric env rand read.1 read.2) s =
          (.ok (.array (items.map fun gp => .text gp.member)), s) ∧
        exec (rlGeosearchGeneric env rand' store.1 store.2) s =
          (.ok (.int items.length), s.put kind id result) ∧
        result.Wf ∧ SameScores result.items (items.map (storedScore storedist)) ∧
        (∀ gp ∈ items, ∃ xy, q.centre.position = some xy ∧ Found env q xy (s .geo q.source) gp) ∧
        (items.map GeoPoint.member).Nodup ∧
        ((s .geo q.source).items = [] → items = []) ∧ (items = [] → result.items = []) ∧
        ∀ k i, (k, i) ≠ (kind, id) → s.put kind id result k i = s k i := by
  have hstore := geoQuery_storeForm hkind hform hq hplain
  rw [exec_rlGeosearchGeneric hq, exec_rlGeosearchGeneric hstore]
  cases hposition : q.centre.position with
  | none =>
      refine ⟨[], zsetTypeCreate 0 0, ?_, ?_, wf_zsetTypeCreate 0 0, ?_, ?_, List.nodup_nil, fun _ => rfl,
        fun _ => items_zsetTypeCreate 0 0, fun k i h => s.put_of_ne _ h⟩
      · rw [geoFinish.eq_def, hposition]
        dsimp only
        rw [hplain.storekey]
        rfl
      · rw [geoFinish.eq_def]
        dsimp only [GeoOptions.withStore]
        rw [hposition]
        rfl
      · rw [items_zsetTypeCreate]
        exact sameScores_of_near .nil
      · exact fun gp hgp => absurd hgp List.not_mem_nil
  | some xy =>
      have hwf := hs .geo q.source
      have hfit : Fit ((geoReturned env q (geoCollect env q xy (s .geo q.source))).map (storedScore storedist)) :=
        fit_storedScore henv hwf storedist
      obtain ⟨result, hresult, hwfResult, hsame⟩ := geoStoreResult_of_fit hfit rand'
      refine ⟨geoReturned env q (geoCollect env q xy (s .geo q.source)), result, ?_, ?_, hwfResult, hsame,
        fun gp hgp => ⟨xy, rfl, found_of_mem hwf hgp⟩, nodup_geoReturned hwf, fun hempty => ?_, fun hnil => ?_,
        fun k i h => s.put_of_ne _ h⟩
      · exact geoFinish_read rand hposition hplain
      · exact geoFinish_store hposition rfl hresult
      · refine List.eq_nil_iff_forall_not_mem.mpr fun gp hgp => ?_
        have hmem := (found_of_mem hwf hgp).mem
        rw [hempty] at hmem
        exact absurd hmem List.not_mem_nil
      · refine List.eq_nil_iff_forall_not_mem.mpr fun a ha => ?_
        have hmem := (hsame.mem_iff a.ele).mp (List.mem_map_of_mem ha)
        rw [hnil] at hmem
        exact absurd hmem List.not_mem_nil

end Commands

/-- The search, and GEOSEARCHSTORE to the source. -/
theorem geo_store_agrees_sample :
    ∃ (items : List (GeoPoint ℚ)) (result : ZsetObj ℚ),
      exec (rlGeosearchGeneric firstSearch (fun _ => 0) .search aroundA) allA =
          (.ok (.array (items.map fun gp => .text gp.member)), allA) ∧
        exec (rlGeosearchGeneric firstSearch (fun _ => 0) .searchStore (.handle .geo 0 :: aroundA)) allA =
          (.ok (.int items.length), allA.put .geo 0 result) ∧
        result.Wf ∧ SameScores result.items (items.map (storedScore false)) := by
  have henv : firstSearch.Measures := fun _ _ _ _ _ => rfl
  have hq : geoQuery firstSearch .search allA aroundA = .ok
      { source := 0
        centre := .member (some firstPosition)
        bounds := .radius 0 .m
        options := { centre := some (.member (some firstPosition)), bounds := some (.radius 0 .m) } } := rfl
  have hform : StoreForm firstSearch allA .geo 0 false (.search, aroundA)
      (.searchStore, .handle .geo 0 :: aroundA) := .searchStore
  obtain ⟨items, result, hread, hstore, hwf, hsame, -⟩ :=
    geo_store_agrees henv (fun _ => 0) (fun _ => 0) (fun _ _ => wf_listpackA) (.inl rfl) hform hq
      ⟨rfl, rfl, rfl, rfl⟩
  exact ⟨items, result, hread, hstore, hwf, hsame⟩

end SkynetJit.Redis
