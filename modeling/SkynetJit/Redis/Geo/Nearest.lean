import SkynetJit.Redis.Geo.Store
import SkynetJit.Redis.Pqsort

/-!
# SkynetJit.Redis.Geo.Nearest

The order of a geo search (`rl_geoSortResult`, `facade/geo_sem.c`): a search
with a COUNT sorts no more than the points it returns.

A search returns less than 2^31 items, so the index of the last one is an
`int`.
-/

namespace SkynetJit.Redis

open Raise Rearrange Pqsort
open LuaNumber (isNaN)

variable {ν : Type} [Score ν]

/-! ## Sorting points -/

/-- `rl_geoSortAsc`. -/
def rlGeoSortAsc (a b : GeoPoint ν) : Ordering :=
  if Score.lt b.dist a.dist then .gt else if Score.eq a.dist b.dist then .eq else .lt

/-- `rl_geoSortDesc`. -/
def rlGeoSortDesc (a b : GeoPoint ν) : Ordering := (rlGeoSortAsc a b).swap

/-- The comparison of a direction. -/
def rlGeoCmp (descending : Bool) : GeoPoint ν → GeoPoint ν → Ordering :=
  if descending then rlGeoSortDesc else rlGeoSortAsc

/-- `qsort` of the C library. -/
structure Qsort (α : Type) where
  qsort : (α → α → Ordering) → List α → List α
  perm : ∀ cmp xs, (qsort cmp xs).Perm xs
  sorted : ∀ cmp xs, Consistent cmp (· ∈ xs) → (qsort cmp xs).Pairwise fun x y => cmp x y ≠ .gt

/-- `rl_geoSortResult`. -/
def rlGeoSortResult (libc : Qsort (GeoPoint ν)) (descending : Bool) (returned : Nat) (ga : List (GeoPoint ν)) :
    List (GeoPoint ν) :=
  if returned = ga.length then libc.qsort (rlGeoCmp descending) ga
  else pqsortList (rlGeoCmp descending) 0 (returned - 1) ga

theorem rlGeoSortResult_perm (libc : Qsort (GeoPoint ν)) (descending : Bool) (returned : Nat)
    (ga : List (GeoPoint ν)) : (rlGeoSortResult libc descending returned ga).Perm ga := by
  rw [rlGeoSortResult]
  split_ifs
  · exact libc.perm _ ga
  · exact perm_pqsortList _ _ _ ga

/-- A search that sorts with `rl_geoSortResult`. -/
def GeoSearch.withSort (env : GeoSearch ν) (libc : Qsort (GeoPoint ν)) : GeoSearch ν :=
  { env with sortResult := rlGeoSortResult libc, sortResult_perm := rlGeoSortResult_perm libc }

/-! ## The nearest points -/

/-- A point may be before another one: it is not farther, or with `descending`
not nearer. -/
def MayPrecede (descending : Bool) (x y : GeoPoint ν) : Prop :=
  if descending then Score.lt x.dist y.dist = false else Score.lt y.dist x.dist = false

/-- `near` are so many of the points, in the direction asked for, and none that
is left out is before one of them. -/
structure Nearest (descending : Bool) (n : Nat) (ga near : List (GeoPoint ν)) : Prop where
  length : near.length = min n ga.length
  sorted : near.Pairwise (MayPrecede descending)
  rest : ∃ far, (near ++ far).Perm ga ∧ ∀ x ∈ near, ∀ y ∈ far, MayPrecede descending x y

section Lawful

variable [LawfulScore ν]

omit [LawfulScore ν] in
theorem rlGeoSortAsc_ne_gt {a b : GeoPoint ν} : rlGeoSortAsc a b ≠ .gt ↔ Score.lt b.dist a.dist = false := by
  rw [rlGeoSortAsc]
  split_ifs with hgt heq
  · simp [hgt]
  · simpa using hgt
  · simpa using hgt

theorem rlGeoSortAsc_swap {a b : GeoPoint ν} (ha : isNaN a.dist = false) (hb : isNaN b.dist = false) :
    rlGeoSortAsc b a = (rlGeoSortAsc a b).swap := by
  rw [rlGeoSortAsc, rlGeoSortAsc]
  cases hab : Score.lt a.dist b.dist with
  | true =>
      have hba := Score.lt_asymm hab
      simp [Score.eq, hab, hba]
  | false =>
      cases hba : Score.lt b.dist a.dist <;> simp [Score.eq, hab, hba, ha, hb]

/-- **Distances that are numbers are ordered**, in both directions. -/
theorem consistent_rlGeoCmp (descending : Bool) :
    Consistent (rlGeoCmp descending) fun gp : GeoPoint ν => isNaN gp.dist = false := by
  have hasc : Consistent rlGeoSortAsc fun gp : GeoPoint ν => isNaN gp.dist = false := by
    refine ⟨fun hx hy => rlGeoSortAsc_swap hx hy, fun {x y z} hx hy hz hxy hyz => ?_⟩
    rw [rlGeoSortAsc_ne_gt] at *
    rw [Bool.eq_false_iff]
    intro hzx
    rcases LawfulScore.lt_or_lt hy hzx with hzy | hyx
    · rw [hyz] at hzy
      contradiction
    · rw [hxy] at hyx
      contradiction
  cases descending with
  | false => exact hasc
  | true => exact hasc.reverse

theorem mayPrecede_of_rlGeoCmp {descending : Bool} {a b : GeoPoint ν} (ha : isNaN a.dist = false)
    (hb : isNaN b.dist = false) (h : rlGeoCmp descending a b ≠ .gt) : MayPrecede descending a b := by
  cases descending with
  | false => exact rlGeoSortAsc_ne_gt.mp h
  | true =>
      rw [rlGeoCmp, if_pos rfl, rlGeoSortDesc, ← rlGeoSortAsc_swap ha hb] at h
      exact rlGeoSortAsc_ne_gt.mp h

/-- **The first of the sorted points** are the nearest ones. -/
theorem nearest_rlGeoSortResult (libc : Qsort (GeoPoint ν)) (descending : Bool) {n : Nat} {ga : List (GeoPoint ν)}
    (hn : 0 < n ∨ n = ga.length) (hnumber : ∀ gp ∈ ga, isNaN gp.dist = false) :
    Nearest descending n ga ((rlGeoSortResult libc descending n ga).take n) := by
  have hcmp := (consistent_rlGeoCmp (ν := ν) descending).subset (T := (· ∈ ga)) hnumber
  have hperm := rlGeoSortResult_perm libc descending n ga
  have hmem : ∀ gp ∈ rlGeoSortResult libc descending n ga, isNaN gp.dist = false := fun gp hgp =>
    hnumber gp (hperm.subset hgp)
  -- all of them are sorted, or the first ones
  have hsorted : ((rlGeoSortResult libc descending n ga).take n).Pairwise (fun x y => rlGeoCmp descending x y ≠ .gt) ∧
      ∀ x ∈ (rlGeoSortResult libc descending n ga).take n, ∀ y ∈ (rlGeoSortResult libc descending n ga).drop n,
        rlGeoCmp descending x y ≠ .gt := by
    by_cases hall : n = ga.length
    · rw [rlGeoSortResult, if_pos hall, List.take_of_length_le (by rw [(libc.perm _ ga).length_eq, hall]),
        List.drop_eq_nil_of_le (by rw [(libc.perm _ ga).length_eq, hall])]
      exact ⟨libc.sorted _ ga hcmp, by simp⟩
    · rw [rlGeoSortResult, if_neg hall]
      exact front_pqsortList hcmp (hn.resolve_right hall)
  constructor
  case length => rw [List.length_take, hperm.length_eq]
  case sorted =>
    exact hsorted.1.imp_of_mem fun hx hy h =>
      mayPrecede_of_rlGeoCmp (hmem _ (List.mem_of_mem_take hx)) (hmem _ (List.mem_of_mem_take hy)) h
  case rest =>
    refine ⟨(rlGeoSortResult libc descending n ga).drop n, ?_, fun x hx y hy => ?_⟩
    · rw [List.take_append_drop]
      exact hperm
    · exact mayPrecede_of_rlGeoCmp (hmem x (List.mem_of_mem_take hx)) (hmem y (List.mem_of_mem_drop hy))
        (hsorted.2 x hx y hy)

end Lawful

/-! ## The count of a search -/

section Count

variable {env : GeoSearch ν} {s : Zsets ν} {form : GeoForm}

theorem except_map_eq_ok {ε α β : Type} {x : Except ε α} {f : α → β} {b : β} :
    x.map f = .ok b ↔ ∃ a, x = .ok a ∧ f a = b := by
  cases x <;> simp [Except.map]

theorem count_apply {zobj : ZsetObj ν} {o o' : GeoOptions ν} {args : List (LuaValue ν)} {word : GeoWord}
    (h : word.apply env form zobj o args = .ok o') (hcount : 0 ≤ o.count) : 0 ≤ o'.count := by
  cases word with
  | count =>
      obtain ⟨count, hc, rfl⟩ := except_map_eq_ok.mp h
      rw [geoCount] at hc
      split at hc
      · contradiction
      · split_ifs at hc with hneg
        obtain rfl := Except.ok.inj hc
        dsimp only
        omega
  | storedist =>
      rw [GeoWord.apply] at h
      split_ifs at h
      · obtain rfl := Except.ok.inj h
        exact hcount
      · obtain ⟨key, -, rfl⟩ := except_map_eq_ok.mp h
        exact hcount
  | store | frommember | fromlonlat | byradius | bybox =>
      obtain ⟨_, -, rfl⟩ := except_map_eq_ok.mp h
      exact hcount
  | withdist | withhash | withcoord | any | asc | desc =>
      obtain rfl := Except.ok.inj h
      exact hcount

theorem count_geoOptions {zobj : ZsetObj ν} {args : List (LuaValue ν)} {skip : Nat} {o o' : GeoOptions ν}
    (h : geoOptions env form zobj skip o args = .ok o') (hcount : 0 ≤ o.count) : 0 ≤ o'.count := by
  induction args generalizing skip o with
  | nil =>
      obtain rfl := Except.ok.inj h
      exact hcount
  | cons arg rest ih =>
      cases skip with
      | succ skip => exact ih h hcount
      | zero =>
          rw [geoOptions] at h
          cases hopt : geoOption env form zobj o arg rest with
          | error e =>
              rw [hopt] at h
              contradiction
          | ok r =>
              rw [hopt] at h
              refine ih h ?_
              rw [geoOption.eq_def] at hopt
              split at hopt
              · split at hopt
                · split at hopt
                  · split_ifs at hopt
                    obtain ⟨o₁, happly, rfl⟩ := except_map_eq_ok.mp hopt
                    exact count_apply happly hcount
                  · contradiction
                · contradiction
              · contradiction

theorem count_geoStart {args rest : List (LuaValue ν)} {src : Nat} {o : GeoOptions ν}
    (h : geoStart env form s args = .ok (src, o, rest)) : o.count = 0 := by
  rw [geoStart] at h
  split_ifs at h
  obtain ⟨src', -, h⟩ := except_bind_eq_ok.mp h
  cases form with
  | radiusCoords nostore =>
      obtain ⟨xy, -, h⟩ := except_bind_eq_ok.mp h
      obtain ⟨bounds, -, h⟩ := except_bind_eq_ok.mp h
      obtain ⟨-, h⟩ := Prod.mk.inj (Except.ok.inj h)
      exact (Prod.mk.inj h).1 ▸ rfl
  | radiusMember nostore =>
      obtain ⟨member, -, h⟩ := except_bind_eq_ok.mp h
      obtain ⟨centre, -, h⟩ := except_bind_eq_ok.mp h
      obtain ⟨bounds, -, h⟩ := except_bind_eq_ok.mp h
      obtain ⟨-, h⟩ := Prod.mk.inj (Except.ok.inj h)
      exact (Prod.mk.inj h).1 ▸ rfl
  | search =>
      obtain ⟨-, h⟩ := Prod.mk.inj (Except.ok.inj h)
      exact (Prod.mk.inj h).1 ▸ rfl
  | searchStore =>
      obtain ⟨key, -, h⟩ := except_bind_eq_ok.mp h
      obtain ⟨-, h⟩ := Prod.mk.inj (Except.ok.inj h)
      exact (Prod.mk.inj h).1 ▸ rfl

/-- No search has a negative count. -/
theorem count_geoQuery {args : List (LuaValue ν)} {q : GeoQuery ν} (h : geoQuery env form s args = .ok q) :
    0 ≤ q.options.count := by
  obtain ⟨src, o, hargs, htraps⟩ := geoQuery_eq_ok h
  obtain ⟨o₀, rest, hstart, hoptions⟩ := geoArgs_eq_ok hargs
  have hcount := count_geoOptions hoptions (by rw [count_geoStart hstart])
  rw [geoTraps.eq_def] at htraps
  by_cases hkey : (o.storekey.isSome && (o.withdist || o.withhash || o.withcoords)) = true
  · rw [if_pos hkey] at htraps
    contradiction
  rw [if_neg hkey] at htraps
  split at htraps
  next => contradiction
  next centre _ =>
    split at htraps
    next => contradiction
    next bounds _ =>
      by_cases hany : (o.any && decide (o.count = 0)) = true
      · rw [if_pos hany] at htraps
        contradiction
      rw [if_neg hany] at htraps
      obtain rfl := Except.ok.inj htraps
      exact hcount

end Count

/-! ## The reply -/

section Reply

variable [LawfulScore ν] {env : GeoSearch ν} {s : Zsets ν}

/-- **A search in an order replies with the nearest points**, or the farthest
ones, as many as COUNT says and in that order, whichever of the two sorts the
code took. -/
theorem geosearch_nearest (libc : Qsort (GeoPoint ν)) (rand : Draws) {form : GeoForm} {args : List (LuaValue ν)}
    {q : GeoQuery ν} {xy : ν × ν} (hq : geoQuery (env.withSort libc) form s args = .ok q)
    (hstore : q.options.storekey = none) (hcentre : q.centre.position = some xy) (hsort : q.options.sort ≠ .unsorted)
    (hnumber : ∀ gp ∈ geoCollect (env.withSort libc) q xy (s .geo q.source), isNaN gp.dist = false) :
    ∃ near, Nearest (q.options.sort == .desc)
        (returnedItems q.options.count (geoCollect (env.withSort libc) q xy (s .geo q.source)).length)
        (geoCollect (env.withSort libc) q xy (s .geo q.source)) near ∧
      exec (rlGeosearchGeneric (env.withSort libc) rand form args) s =
        (.ok (.array (near.map fun gp => geoReply (env.withSort libc) q.options
          { gp with dist := env.div gp.dist (env.shapeConversion q.bounds) })), s) := by
  have hcount := count_geoQuery hq
  generalize hga : geoCollect (env.withSort libc) q xy (s .geo q.source) = ga at hnumber ⊢
  refine ⟨_, nearest_rlGeoSortResult libc (q.options.sort == .desc) ?_ hnumber, ?_⟩
  · rw [returnedItems]
    split_ifs with hall
    · exact .inr rfl
    · exact .inl (by omega)
  · rw [exec_rlGeosearchGeneric hq, geoFinish, hcentre]
    dsimp only
    rw [hstore, hga, geoReturned, geoSorted, if_neg hsort, List.map_map]
    rfl

end Reply

/-- The partial sort, asked for the whole array. -/
def wholeSort {α : Type} : Qsort α where
  qsort cmp xs := pqsortList cmp 0 (xs.length - 1) xs
  perm cmp xs := perm_pqsortList cmp 0 (xs.length - 1) xs
  sorted _ _ hcmp := pairwise_pqsortList hcmp

/-- FROMMEMBER a BYRADIUS 0 m ASC. -/
def aroundAInOrder : List (LuaValue ℚ) := aroundA ++ [.string (ascii "ASC")]

theorem geosearch_nearest_sample :
    ∃ near : List (GeoPoint ℚ),
      exec (rlGeosearchGeneric (firstSearch.withSort wholeSort) (fun _ => 0) .search aroundAInOrder) allA =
        (.ok (.array (near.map fun gp => .text gp.member)), allA) ∧ near.Pairwise (MayPrecede false) := by
  have hq : geoQuery (firstSearch.withSort wholeSort) .search allA aroundAInOrder = .ok
      { source := 0
        centre := .member (some firstPosition)
        bounds := .radius 0 .m
        options := {
          sort := .asc, centre := some (.member (some firstPosition)), bounds := some (.radius 0 .m) } } := rfl
  obtain ⟨near, hnear, hreply⟩ := geosearch_nearest wholeSort (fun _ => 0) hq rfl rfl (by simp) fun _ _ => rfl
  exact ⟨near, hreply, hnear.sorted⟩

end SkynetJit.Redis
