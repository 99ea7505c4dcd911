import Mathlib.Data.List.Infix
import SkynetJit.Lib.Draw
import SkynetJit.Redis.Listpack

/-!
# SkynetJit.Redis.Random

Random elements of a dict and of a listpack (`kernel/dict.c`,
`kernel/listpack.c`).  What `rand()` returns is drawn; a dict hands out any of
its keys.

* `yields_lpRandomEntries` — so many entries of the listpack;
* `yields_lpNextRandom` — the next entry that is picked, with enough of them left
  behind it.
-/

namespace SkynetJit.Redis

open Draw

/-- What can go wrong: an assertion, an access that has no meaning, or an
integer that overflows. -/
inductive Crash where
  | assertion
  | access
  | overflow
deriving DecidableEq, Repr

/-- A computation that calls `rand()`. -/
abbrev Rand (α : Type) := Draw Crash α

variable {α : Type}

/-- `dictGetFairRandomKey`, of which the caller reads the key. -/
def dictGetFairRandomKey (d : List α) : Rand α := do
  let r ← next
  expect .access d[r % d.length]?

/-- The next number of so many. -/
theorem yields_mod (n : Nat) (hn : 0 < n) : Yields (fun r => r % n < n) (next : Rand Nat) :=
  yields_next.mono fun r _ => Nat.mod_lt r hn

theorem yields_dictGetFairRandomKey {d : List α} (h : d ≠ []) :
    Yields (fun a => a ∈ d) (dictGetFairRandomKey d) :=
  (yields_mod d.length (List.length_pos_of_ne_nil h)).bind fun _ hr =>
    yields_expect ⟨_, List.getElem?_eq_getElem hr, List.getElem_mem hr⟩

theorem covers_dictGetFairRandomKey (d : List α) : Covers d (dictGetFairRandomKey d) := by
  intro a ha
  obtain ⟨i, hi, rfl⟩ := List.mem_iff_getElem.mp ha
  refine ⟨i, fun rest => ?_⟩
  show expect Crash.access d[i % d.length]? rest = _
  rw [Nat.mod_eq_of_lt hi, List.getElem?_eq_getElem hi]
  rfl

/-- `dictAdd` of one element after the other, none of which may be there. -/
def dictAddAll {κ : Type} [DecidableEq κ] (key : α → κ) : List α → List α → Rand (List α)
  | [], d => pure d
  | a :: l, d => do
      require .assertion (key a ∉ d.map key)
      dictAddAll key l (d ++ [a])

theorem yields_dictAddAll {κ : Type} [DecidableEq κ] {key : α → κ} {l d : List α} (h : ((d ++ l).map key).Nodup) :
    Yields (fun d' => d' = d ++ l) (dictAddAll key l d) := by
  induction l generalizing d with
  | nil => exact yields_pure (List.append_nil d).symm
  | cons a l ih =>
      have hnew : key a ∉ d.map key := by
        rw [List.map_append, List.map_cons, List.nodup_append] at h
        exact fun hmem => h.2.2 _ hmem _ List.mem_cons_self rfl
      refine (yields_require hnew).bind fun _ _ => (ih (by simpa using h)).mono fun d' hd' => ?_
      rw [hd', List.append_assoc, List.singleton_append]

/-! ## Entries at drawn places -/

/-- A place in the listpack, and where its entry goes. -/
structure Pick where
  index : Nat
  order : Nat

/-- The places of the draws, sorted (`uintCompare`).  The order of equal places
makes no difference: they hold the same entry. -/
def sortPicks (place : Nat → Nat) (rs : List Nat) : List Pick :=
  (rs.zipIdx.map fun r => ⟨place r.1, r.2⟩).mergeSort fun a b => decide (a.index ≤ b.index)

/-- The array that the writes leave behind, of which the caller reads the first
`count` cells. -/
def readCells (writes : List (Nat × α)) (count : Nat) : Rand (List α) :=
  (List.range count).mapM fun i => expect .access (writes.lookup i)

/-- The loop of `lpRandomEntries`: `p` is the listpack from entry `j` on. -/
def fetchEntries : List Pick → Nat → Listpack → Rand (List (Nat × Entry))
  | [], _, _ => pure []
  | pick :: picks, j, p => do
      -- lpNext until the entry is reached
      let p := p.drop (pick.index - j)
      let e ← expect .access p.head?
      let writes ← fetchEntries picks (max j pick.index) p
      return (pick.order, e) :: writes

/-- `lpRandomEntries`. -/
def lpRandomEntries (lp : Listpack) (count : Nat) : Rand Listpack := do
  require .assertion (lp.length ≠ 0)
  let rs ← times next count
  let writes ← fetchEntries (sortPicks (· % lp.length) rs) 0 lp
  readCells writes count

section Picks

variable {place : Nat → Nat} {rs : List Nat}

theorem sortPicks_perm : (sortPicks place rs).Perm (rs.zipIdx.map fun r => ⟨place r.1, r.2⟩) :=
  List.mergeSort_perm _ _

theorem sortPicks_sorted : (sortPicks place rs).Pairwise fun a b => a.index ≤ b.index := by
  have h := @List.pairwise_mergeSort _ (fun a b : Pick => decide (a.index ≤ b.index))
    (fun a b c hab hbc => by simp only [decide_eq_true_eq] at *; omega)
    (fun a b => by simp only [Bool.or_eq_true, decide_eq_true_eq]; omega)
    (rs.zipIdx.map fun r => ⟨place r.1, r.2⟩)
  exact h.imp fun hab => of_decide_eq_true hab

/-- Every cell gets an entry. -/
theorem exists_order_eq {i : Nat} (hi : i < rs.length) : i ∈ (sortPicks place rs).map Pick.order := by
  refine (sortPicks_perm.map Pick.order).mem_iff.mpr ?_
  rw [List.map_map]
  exact List.mem_map.mpr ⟨(rs[i], i), List.mk_mem_zipIdx_iff_getElem?.mpr (List.getElem?_eq_getElem hi), rfl⟩

theorem exists_index_eq {pick : Pick} (h : pick ∈ sortPicks place rs) : ∃ r ∈ rs, pick.index = place r := by
  obtain ⟨r, hr, rfl⟩ := List.mem_map.mp (sortPicks_perm.mem_iff.mp h)
  exact ⟨r.1, List.fst_mem_of_mem_zipIdx hr, rfl⟩

end Picks

theorem yields_readCells {P : α → Prop} {writes : List (Nat × α)} {count : Nat}
    (hall : ∀ i < count, i ∈ writes.map Prod.fst) (hP : ∀ w ∈ writes, P w.2) :
    Yields (fun l => l.length = count ∧ ∀ a ∈ l, P a) (readCells writes count) := by
  refine (yields_mapM fun i hi => ?_).mono fun l hl => ⟨hl.1.trans List.length_range, hl.2⟩
  obtain ⟨w, hw, rfl⟩ := List.mem_map.mp (hall i (List.mem_range.mp hi))
  obtain ⟨a, ha⟩ := Option.isSome_iff_exists.mp (List.lookup_isSome_iff.mpr ⟨w, hw, beq_self_eq_true w.1⟩)
  obtain ⟨before, after, rfl, -⟩ := List.lookup_eq_some_iff.mp ha
  exact yields_expect ⟨a, ha, hP (w.1, a) (by simp)⟩

theorem yields_fetchEntries {lp : Listpack} {picks : List Pick} {j : Nat}
    (hsorted : picks.Pairwise fun a b => a.index ≤ b.index)
    (hplace : ∀ pick ∈ picks, j ≤ pick.index ∧ pick.index < lp.length) :
    Yields (fun writes => writes.map Prod.fst = picks.map Pick.order ∧ ∀ w ∈ writes, w.2 ∈ lp)
      (fetchEntries picks j (lp.drop j)) := by
  induction picks generalizing j with
  | nil => exact yields_pure ⟨rfl, by simp⟩
  | cons pick picks ih =>
      obtain ⟨hj, hlt⟩ := hplace pick List.mem_cons_self
      obtain ⟨hfirst, hrest⟩ := List.pairwise_cons.mp hsorted
      rw [fetchEntries, List.drop_drop, Nat.add_sub_cancel' hj, Nat.max_eq_right hj]
      refine (yields_expect (P := fun e => e ∈ lp) ⟨lp[pick.index], ?_, List.getElem_mem hlt⟩).bind fun e he => ?_
      · rw [List.head?_drop, List.getElem?_eq_getElem hlt]
      refine (ih hrest fun pick' h' => ⟨hfirst pick' h', (hplace pick' (List.mem_cons_of_mem _ h')).2⟩).bind
        fun writes hwrites => yields_pure ⟨by rw [List.map_cons, List.map_cons, hwrites.1], fun w hw => ?_⟩
      rcases List.mem_cons.mp hw with rfl | hw
      · exact he
      · exact hwrites.2 w hw

theorem yields_lpRandomEntries {lp : Listpack} (hlp : lp ≠ []) (count : Nat) :
    Yields (fun es => es.length = count ∧ ∀ e ∈ es, e ∈ lp) (lpRandomEntries lp count) := by
  have hpos := List.length_pos_of_ne_nil hlp
  refine (yields_require (by omega)).bind fun _ _ => (yields_times yields_next count).bind fun rs hrs => ?_
  refine (@yields_fetchEntries lp _ _ sortPicks_sorted fun pick h => ?_).bind fun writes hwrites =>
    yields_readCells (fun i hi => ?_) hwrites.2
  · obtain ⟨r, -, hr⟩ := exists_index_eq h
    exact ⟨Nat.zero_le _, hr ▸ Nat.mod_lt r hpos⟩
  · rw [hwrites.1]
    exact exists_order_eq (by rw [hrs.1]; exact hi)

/-! ## Different entries, in order -/

/-- Whether `rand() / RAND_MAX` is at most `remaining / available`.  From one on
it is; below, two quotients of doubles are compared, and the outcome is
drawn. -/
def belowThreshold (remaining available : Nat) : Rand Bool := do
  let r ← next
  return decide (available ≤ remaining) || decide (r = 0)

/-- The loop of `lpNextRandom`: `p` is the listpack from entry `i` on.  The entry
found comes with all that follow it. -/
def lpNextRandom (total remaining tupleLen : Nat) : Nat → Listpack → Rand (Option (Nat × Listpack))
  | _, [] => pure none
  | i, e :: p =>
      if i < total then
        if i % tupleLen ≠ 0 then lpNextRandom total remaining tupleLen (i + 1) p
        else do
          let available := (total - i) / tupleLen
          if ← belowThreshold remaining available then return some (i, e :: p)
          else lpNextRandom total remaining tupleLen (i + 1) p
      else pure none

theorem yields_belowThreshold (remaining available : Nat) :
    Yields (fun b => b = false → remaining < available) (belowThreshold remaining available) := by
  refine yields_next.bind fun r _ => yields_pure fun h => ?_
  rw [Bool.or_eq_false_iff, decide_eq_false_iff_not] at h
  exact not_le.mp h.1

/-- From an entry with `remaining` tuples left, `lpNextRandom` goes to the start
of a tuple with as many left. -/
theorem yields_lpNextRandom {total remaining tupleLen i : Nat} {p : Listpack}
    (htotal : total % tupleLen = 0) (hpos : 0 < remaining) (hp : i + p.length = total)
    (hleft : remaining ≤ (total - i) / tupleLen) :
    Yields (fun r => ∃ j q, r = some (j, q) ∧ j % tupleLen = 0 ∧ i ≤ j ∧ q = p.drop (j - i) ∧
      j + q.length = total ∧ remaining ≤ (total - j) / tupleLen)
      (lpNextRandom total remaining tupleLen i p) := by
  induction p generalizing i with
  | nil =>
      obtain rfl : i = total := hp
      rw [Nat.sub_self, Nat.zero_div] at hleft
      omega
  | cons e p ih =>
      rw [List.length_cons] at hp
      have hsub : total - i = total - (i + 1) + 1 := by omega
      have hskip : remaining ≤ (total - (i + 1)) / tupleLen →
          Yields (fun r => ∃ j q, r = some (j, q) ∧ j % tupleLen = 0 ∧ i ≤ j ∧ q = (e :: p).drop (j - i) ∧
            j + q.length = total ∧ remaining ≤ (total - j) / tupleLen)
            (lpNextRandom total remaining tupleLen (i + 1) p) := by
        intro h
        refine (ih (by omega) h).mono ?_
        rintro r ⟨j, q, rfl, haligned, hij, rfl, hq⟩
        refine ⟨j, _, rfl, haligned, by omega, ?_, hq⟩
        rw [show j - i = j - (i + 1) + 1 by omega, List.drop_succ_cons]
      rw [lpNextRandom]
      refine yields_ite (fun hi => ?_) fun hi => absurd hi (by omega)
      refine yields_ite (fun hodd => hskip ?_) fun haligned => ?_
      · -- inside a tuple: as many are left after it
        rwa [hsub, Nat.succ_div_of_not_dvd] at hleft
        rw [← hsub, Nat.dvd_sub_iff_right (by omega) (Nat.dvd_of_mod_eq_zero htotal)]
        exact fun h => hodd (Nat.mod_eq_zero_of_dvd h)
      refine (yields_belowThreshold _ _).bind fun b hb => ?_
      cases b with
      | true =>
          have hmod : i % tupleLen = 0 := not_not.mp haligned
          exact yields_pure ⟨i, e :: p, rfl, hmod, le_refl i, by simp, by rw [List.length_cons]; omega, hleft⟩
      | false =>
          -- one tuple is left out, and there was one too many
          have hlt := hb rfl
          refine hskip ?_
          have hdiv := @Nat.succ_div (total - (i + 1)) tupleLen
          rw [← hsub] at hdiv
          split_ifs at hdiv <;> omega

/-! ## Replies to a count -/

/-- `LONG_MAX`. -/
def longMax : Int := 2 ^ 63 - 1

/-- `LONG_MIN`, whose negation overflows. -/
def longMin : Int := -2 ^ 63

/-- What is asked for with a count `c`: so many different elements, all if there
are fewer; or, if `c` is negative, so many elements, which may repeat. -/
structure Sampled {κ : Type} (key : α → κ) (all : List α) (c : Int) (picked : List α) : Prop where
  mem : ∀ a ∈ picked, a ∈ all
  length_eq : 0 ≤ c → picked.length = min c.natAbs all.length
  distinct : 0 ≤ c → (picked.map key).Nodup
  repeated : c < 0 → all ≠ [] → picked.length = c.natAbs

namespace Sampled

variable {κ : Type} {key : α → κ} {all picked : List α} {c : Int}

theorem zero : Sampled key all 0 [] :=
  ⟨by simp, fun _ => by simp, fun _ => List.nodup_nil, fun h => absurd h (by omega)⟩

theorem nil : Sampled key [] c [] :=
  ⟨by simp, fun _ => by simp, fun _ => List.nodup_nil, fun _ h => absurd rfl h⟩

/-- Elements that may repeat, or a single one. -/
theorem repeats (hc : c < 0 ∨ c.natAbs = 1) (hall : all ≠ [])
    (h : picked.length = c.natAbs ∧ ∀ a ∈ picked, a ∈ all) : Sampled key all c picked := by
  have hpos := List.length_pos_of_ne_nil hall
  refine ⟨h.2, fun hnonneg => by omega, fun hnonneg => ?_, fun _ _ => h.1⟩
  obtain ⟨a, rfl⟩ := List.length_eq_one_iff.mp (h.1.trans (by omega))
  exact List.nodup_singleton _

/-- Different elements. -/
theorem differs (hc : 0 ≤ c) (hlength : picked.length = min c.natAbs all.length)
    (hdistinct : (picked.map key).Nodup) (hmem : ∀ a ∈ picked, a ∈ all) : Sampled key all c picked :=
  ⟨hmem, fun _ => hlength, fun _ => hdistinct, fun h => absurd h (by omega)⟩

/-- Some of different elements. -/
theorem of_sublist (hc : 0 ≤ c) (hnodup : (all.map key).Nodup) (hlength : picked.length = min c.natAbs all.length)
    (h : picked.Sublist all) : Sampled key all c picked :=
  differs hc hlength (hnodup.sublist (h.map key)) h.subset

end Sampled

end SkynetJit.Redis
