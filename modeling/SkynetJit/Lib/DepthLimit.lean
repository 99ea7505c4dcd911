import Mathlib.Data.List.Infix
import Mathlib.Data.List.Nodup

/-!
# SkynetJit.Lib.DepthLimit

Depth-first search with a limit on the depth and one set of visited vertices,
on a graph whose edges are labelled and leave each vertex in an order.

A vertex the search first meets at the limit counts as visited and is not
expanded, also not when another way leads to it in fewer steps.  What such a
search finds is said here without the search: of all ways of at most `n`
labels, in order, only the first to each vertex is followed, and only if the
way it continues is followed (`firstWays`).  The search succeeds exactly when
a first way ends where the goal is (`search_iff_firstWays`).

Nothing here depends on what the vertices and the labels are.
-/

namespace SkynetJit

/-- A graph to search: the labels that leave a vertex, in order, the vertex
each of them leads to, and the label under which a vertex has the goal. -/
structure LabelledGraph (V L : Type) where
  labels : V → List L
  next : V → L → Option V
  goal : V → Option L

namespace LabelledGraph

variable {V L : Type} [DecidableEq V] [DecidableEq L] (G : LabelledGraph V L)

/-! ## The search -/

/-- Search from a vertex that is `path` away from the root, at most `n` labels
further down. -/
def visit : Nat → V → List L → List V → Option (List L) × List V
  | n, v, path, visited =>
    if v ∈ visited then (none, visited) else
    match G.goal v with
    | some k => (some (path ++ [k]), v :: visited)
    | none =>
      match n with
      | 0 => (none, v :: visited)
      | n + 1 => descend n v path (G.labels v) (v :: visited)
where
  /-- Search from the neighbours of `v`, in the order of their labels. -/
  descend (n : Nat) (v : V) (path : List L) : List L → List V → Option (List L) × List V
    | [], visited => (none, visited)
    | l :: ls, visited =>
      match G.next v l with
      | some w =>
        match visit n w (path ++ [l]) visited with
        | (some result, visited) => (some result, visited)
        | (none, visited) => descend n v path ls visited
      | none => descend n v path ls visited

/-! ## Ways -/

/-- Where these labels lead. -/
def walk : V → List L → Option V
  | v, [] => some v
  | v, l :: q => if l ∈ G.labels v then (G.next v l).bind fun w => walk w q else none

/-- The ways of at most `n` labels from a vertex and the vertices they lead
to: in the order of the labels, a way before its continuations. -/
def ways : Nat → V → List (List L × V)
  | 0, v => [([], v)]
  | n + 1, v => ([], v) :: (G.labels v).flatMap fun l =>
    match G.next v l with
    | some w => (ways n w).map fun e => (l :: e.1, e.2)
    | none => []

/-- A way is kept if the way without its last label is, and no way before it
to the same vertex is. -/
def keep (kept : List (List L × V)) (e : List L × V) : List (List L × V) :=
  if (e.1 = [] ∨ e.1.dropLast ∈ kept.map Prod.fst) ∧ e.2 ∉ kept.map Prod.snd then kept ++ [e]
  else kept

/-- The first ways: those of the ways of at most `n` labels that are kept. -/
def firstWays (n : Nat) (root : V) : List (List L × V) :=
  (G.ways n root).foldl keep []

variable {G} {n : Nat} {v w : V} {p q : List L} {K K' l : List (List L × V)} {e : List L × V}

omit [DecidableEq V] in
theorem mem_ways_iff : e ∈ G.ways n v ↔ e.1.length ≤ n ∧ G.walk v e.1 = some e.2 := by
  obtain ⟨q, x⟩ := e
  induction n generalizing v q with
  | zero => cases q <;> simp [ways, walk, eq_comm]
  | succ n ih =>
      cases q with
      | nil =>
          simp only [ways, walk, List.mem_cons, Prod.mk.injEq, true_and, List.mem_flatMap,
            List.length_nil, Nat.zero_le, Option.some.injEq, eq_comm (a := x)]
          refine or_iff_left ?_
          rintro ⟨a, -, hmem⟩
          cases hnext : G.next v a <;> simp [hnext] at hmem
      | cons a q =>
          rw [ways, walk, List.mem_cons, List.mem_flatMap]
          constructor
          · rintro (hnil | ⟨b, hb, hmem⟩)
            · simp at hnil
            · cases hnext : G.next v b with
              | none => simp [hnext] at hmem
              | some w =>
                  simp only [hnext, List.mem_map, Prod.mk.injEq, List.cons.injEq] at hmem
                  obtain ⟨⟨q', x'⟩, hway, ⟨rfl, rfl⟩, rfl⟩ := hmem
                  obtain ⟨hlen, hwalk⟩ := (ih q').mp hway
                  rw [if_pos hb, hnext]
                  exact ⟨Nat.succ_le_succ hlen, hwalk⟩
          · rintro ⟨hlen, hwalk⟩
            by_cases ha : a ∈ G.labels v
            · rw [if_pos ha] at hwalk
              obtain ⟨w, hnext, hrest⟩ := Option.bind_eq_some_iff.mp hwalk
              refine .inr ⟨a, ha, ?_⟩
              rw [hnext]
              exact List.mem_map.mpr ⟨(q, x), (ih q).mpr ⟨Nat.le_of_succ_le_succ hlen, hrest⟩, rfl⟩
            · rw [if_neg ha] at hwalk
              exact absurd hwalk.symm (Option.some_ne_none x)

omit [DecidableEq V] in
theorem walk_append (q' : List L) :
    G.walk v (q ++ q') = (G.walk v q).bind fun w => G.walk w q' := by
  induction q generalizing v with
  | nil => rfl
  | cons a q ih =>
      rw [List.cons_append, walk, walk]
      split
      · rw [Option.bind_assoc]
        exact Option.bind_congr fun w _ => ih
      · rfl

/-! ## What is kept -/

theorem subset_keep : K ⊆ keep K e := by
  rw [keep]
  split
  · exact List.subset_append_left K [e]
  · exact List.Subset.refl K

theorem subset_keepAll : K ⊆ l.foldl keep K := by
  induction l generalizing K with
  | nil => exact List.Subset.refl K
  | cons e l ih => exact List.Subset.trans subset_keep ih

theorem mem_of_mem_keepAll (h : e ∈ l.foldl keep K) : e ∈ K ∨ e ∈ l := by
  induction l generalizing K with
  | nil => exact .inl h
  | cons a l ih =>
      obtain hkeep | hl := ih h
      · rw [keep] at hkeep
        split at hkeep
        · obtain hK | ha := List.mem_append.mp hkeep
          · exact .inl hK
          · exact .inr (List.mem_cons.mpr (.inl (List.mem_singleton.mp ha)))
        · exact .inl hkeep
      · exact .inr (List.mem_cons_of_mem a hl)

theorem mem_ways_of_mem_firstWays (h : e ∈ G.firstWays n v) : e ∈ G.ways n v :=
  (mem_of_mem_keepAll h).resolve_left List.not_mem_nil

/-- A way whose vertex has to be looked at leads to a vertex that a kept way
leads to. -/
theorem snd_mem_keep (h : e.1 = [] ∨ e.1.dropLast ∈ K.map Prod.fst) :
    e.2 ∈ (keep K e).map Prod.snd := by
  rw [keep]
  split
  · simp
  · rename_i hnot
    exact not_not.mp fun hmem => hnot ⟨h, hmem⟩

/-! ## The ways below a vertex -/

variable (G) in
/-- The ways from the root through a vertex that is `p` away from it. -/
def below (p : List L) (n : Nat) (v : V) : List (List L × V) :=
  (G.ways n v).map fun e => (p ++ e.1, e.2)

variable (G) in
/-- The ways from the root that go on from `v` with the label `a`. -/
def through (p : List L) (n : Nat) (v : V) (a : L) : List (List L × V) :=
  match G.next v a with
  | some w => G.below (p ++ [a]) n w
  | none => []

omit [DecidableEq V] [DecidableEq L] in
theorem below_nil : G.below [] n v = G.ways n v := by
  simp [below]

omit [DecidableEq V] [DecidableEq L] in
theorem below_zero : G.below p 0 v = [(p, v)] := by
  simp [below, ways]

omit [DecidableEq V] [DecidableEq L] in
theorem below_succ :
    G.below p (n + 1) v = (p, v) :: (G.labels v).flatMap (G.through p n v) := by
  rw [below, ways, List.map_cons, List.append_nil, List.map_flatMap]
  congr 1
  refine List.flatMap_congr fun a _ => ?_
  rw [through]
  cases G.next v a with
  | none => rfl
  | some w =>
      simp only [below, List.map_map]
      exact List.map_congr_left fun e _ => by simp

omit [DecidableEq V] [DecidableEq L] in
theorem below_eq_cons : ∃ rest, G.below p n v = (p, v) :: rest := by
  cases n with
  | zero => exact ⟨_, below_zero⟩
  | succ n => exact ⟨_, below_succ⟩

/-- A vertex met already keeps nothing of the ways through it. -/
theorem keepAll_below_of_mem (hv : v ∈ K.map Prod.snd) (hfresh : ∀ q ∈ K.map Prod.fst, ¬ p <+: q) :
    (G.below p n v).foldl keep K = K := by
  have hall : ∀ l : List (List L × V), l ⊆ G.below p n v → l.foldl keep K = K := by
    intro l hl
    induction l with
    | nil => rfl
    | cons e l ih =>
        obtain ⟨he, hrest⟩ := List.cons_subset.mp hl
        obtain ⟨⟨q, x⟩, hway, rfl⟩ := List.mem_map.mp he
        have hkeep : keep K (p ++ q, x) = K := by
          rw [keep, if_neg]
          rintro ⟨hpath, hnew⟩
          cases q using List.reverseRecOn with
          | nil =>
              obtain ⟨-, hwalk⟩ := mem_ways_iff.mp hway
              rw [walk, Option.some.injEq] at hwalk
              exact hnew (hwalk ▸ hv)
          | append_singleton q a =>
              rw [← List.append_assoc, List.dropLast_concat] at hpath
              obtain hnil | hmem := hpath
              · simp at hnil
              · exact hfresh _ hmem (List.prefix_append p q)
        rw [List.foldl_cons, hkeep]
        exact ih hrest
  exact hall _ (List.Subset.refl _)

theorem mem_keepAll_below (hp : p = [] ∨ p.dropLast ∈ K.map Prod.fst) :
    v ∈ ((G.below p n v).foldl keep K).map Prod.snd := by
  obtain ⟨rest, heq⟩ := below_eq_cons (G := G) (p := p) (n := n) (v := v)
  rw [heq, List.foldl_cons]
  exact List.map_subset _ subset_keepAll (snd_mem_keep (e := (p, v)) hp)

/-- Every neighbour of a vertex whose way is kept is met. -/
theorem next_mem_keepAll {a : L} {ls : List L} (hp : p ∈ K.map Prod.fst) (ha : a ∈ ls)
    (hnext : G.next v a = some w) :
    w ∈ ((ls.flatMap (G.through p n v)).foldl keep K).map Prod.snd := by
  induction ls generalizing K with
  | nil => exact absurd ha List.not_mem_nil
  | cons b ls ih =>
      rw [List.flatMap_cons, List.foldl_append]
      obtain rfl | ha := List.mem_cons.mp ha
      · refine List.map_subset _ subset_keepAll ?_
        rw [through, hnext]
        exact mem_keepAll_below (.inr (by rwa [List.dropLast_concat]))
      · exact ih (List.map_subset _ subset_keepAll hp) ha

/-! ## The search agrees with the first ways -/

variable (G) in
/-- A vertex that was looked at in vain: it does not have the goal, and each of
its neighbours was met unless it is at the limit. -/
structure Spent (limit : Nat) (K : List (List L × V)) (e : List L × V) : Prop where
  missed : G.goal e.2 = none
  closed : e.1.length < limit → ∀ a ∈ G.labels e.2, ∀ w, G.next e.2 a = some w →
    w ∈ K.map Prod.snd

omit [DecidableEq V] [DecidableEq L] in
theorem Spent.mono {limit : Nat} (h : G.Spent limit K e) (hsub : K ⊆ K') : G.Spent limit K' e :=
  ⟨h.missed, fun hlen a ha w hw => List.map_subset _ hsub (h.closed hlen a ha w hw)⟩

variable (G) in
/-- What a part of the search returns, beside the ways that are kept before
and after it: a way that is kept and has the goal, or the set of vertices met
by the ways that are kept, and those it added start with `p` and are spent. -/
structure Agrees (limit : Nat) (p : List L) (K K' : List (List L × V))
    (out : Option (List L) × List V) : Prop where
  found : ∀ result, out.1 = some result →
    ∃ e ∈ K', ∃ k, G.goal e.2 = some k ∧ result = e.1 ++ [k]
  visited : out.1 = none → ∀ x, x ∈ out.2 ↔ x ∈ K'.map Prod.snd
  spent : out.1 = none → ∀ e ∈ K', e ∈ K ∨ p <+: e.1 ∧ G.Spent limit K' e

section Agreement

variable {limit : Nat} {visited : List V} {K₁ : List (List L × V)} {a : L} {ls : List L}

omit [DecidableEq V] [DecidableEq L] in
/-- Nothing happened. -/
theorem Agrees.refl (hvis : ∀ x, x ∈ visited ↔ x ∈ K.map Prod.snd) :
    G.Agrees limit p K K (none, visited) where
  found _ h := absurd h (Option.some_ne_none _).symm
  visited _ := hvis
  spent _ _ he := .inl he

omit [DecidableEq V] [DecidableEq L] in
/-- The search is over. -/
theorem Agrees.done {result : List L} {k : L} (he : e ∈ K') (hgoal : G.goal e.2 = some k)
    (hresult : result = e.1 ++ [k]) : G.Agrees limit p K K' (some result, visited) where
  found _ h := ⟨e, he, k, hgoal, (Option.some.inj h).symm.trans hresult⟩
  visited h := absurd h (Option.some_ne_none _)
  spent h := absurd h (Option.some_ne_none _)

omit [DecidableEq V] [DecidableEq L] in
/-- One part of the search after another that found nothing. -/
theorem Agrees.trans {p' : List L} {out : Option (List L) × List V}
    (h : G.Agrees limit p' K K₁ (none, visited)) (hp : p <+: p') (hsub : K₁ ⊆ K')
    (h' : G.Agrees limit p K₁ K' out) : G.Agrees limit p K K' out where
  found := h'.found
  visited := h'.visited
  spent hout e he := by
    obtain he₁ | hnew := h'.spent hout e he
    · obtain hK | ⟨hpath, hspent⟩ := h.spent rfl e he₁
      · exact .inl hK
      · exact .inr ⟨hp.trans hpath, hspent.mono hsub⟩
    · exact .inr hnew

omit [DecidableEq V] [DecidableEq L] in
/-- The search from a vertex it has just met. -/
theorem Agrees.enter {out : Option (List L) × List V}
    (h : G.Agrees limit p (K ++ [(p, v)]) K' out) (hspent : G.Spent limit K' (p, v)) :
    G.Agrees limit p K K' out where
  found := h.found
  visited := h.visited
  spent hout e he := by
    obtain he₁ | hnew := h.spent hout e he
    · obtain hK | hv := List.mem_append.mp he₁
      · exact .inl hK
      · obtain rfl := List.mem_singleton.mp hv
        exact .inr ⟨List.prefix_refl p, hspent⟩
    · exact .inr hnew

omit [DecidableEq V] [DecidableEq L] in
theorem eq_of_prefix_concat {b : L} (ha : p ++ [a] <+: q) (hb : p ++ [b] <+: q) : a = b := by
  obtain ⟨r, rfl⟩ := ha
  rw [List.append_assoc, List.prefix_append_right_inj, List.singleton_append,
    List.cons_prefix_cons] at hb
  exact hb.1.symm

/-- The neighbours of `v` with the labels `ls`, when a visit of each agrees. -/
theorem descend_agrees
    (hvisit : ∀ w p visited K, p.length + n = limit → (∀ x, x ∈ visited ↔ x ∈ K.map Prod.snd) →
      (p = [] ∨ p.dropLast ∈ K.map Prod.fst) → (∀ q ∈ K.map Prod.fst, ¬ p <+: q) →
      G.Agrees limit p K ((G.below p n w).foldl keep K) (G.visit n w p visited))
    (hlimit : p.length + (n + 1) = limit) (hvis : ∀ x, x ∈ visited ↔ x ∈ K.map Prod.snd)
    (hp : p ∈ K.map Prod.fst) (hnodup : ls.Nodup)
    (hfresh : ∀ q ∈ K.map Prod.fst, ∀ a ∈ ls, ¬ p ++ [a] <+: q) :
    G.Agrees limit p K ((ls.flatMap (G.through p n v)).foldl keep K)
      (visit.descend G n v p ls visited) := by
  induction ls generalizing visited K with
  | nil =>
      rw [visit.descend]
      exact Agrees.refl hvis
  | cons a ls ih =>
      obtain ⟨hnot, hrest⟩ := List.nodup_cons.mp hnodup
      rw [visit.descend, List.flatMap_cons, List.foldl_append]
      cases hnext : G.next v a with
      | none =>
          have hnone : G.through p n v a = [] := by simp [through, hnext]
          rw [hnone]
          exact ih hvis hp hrest fun q hq b hb => hfresh q hq b (List.mem_cons_of_mem a hb)
      | some w =>
          have hsome : G.through p n v a = G.below (p ++ [a]) n w := by simp [through, hnext]
          have hlen : (p ++ [a]).length + n = limit := by
            rw [List.length_append, List.length_singleton, Nat.add_assoc, Nat.add_comm 1]
            exact hlimit
          have hstep := hvisit w (p ++ [a]) visited K hlen hvis
            (.inr (by rwa [List.dropLast_concat])) fun q hq => hfresh q hq a List.mem_cons_self
          have hsub : K ⊆ (G.below (p ++ [a]) n w).foldl keep K := subset_keepAll
          rw [hsome]
          generalize (G.below (p ++ [a]) n w).foldl keep K = K₁ at hstep hsub ⊢
          cases hout : G.visit n w (p ++ [a]) visited with
          | mk result visited₁ =>
              rw [hout] at hstep
              simp only [hout]
              cases result with
              | some result =>
                  obtain ⟨e, he, k, hgoal, hresult⟩ := hstep.found result rfl
                  exact Agrees.done (subset_keepAll he) hgoal hresult
              | none =>
                  have hfresh₁ : ∀ q ∈ K₁.map Prod.fst, ∀ b ∈ ls, ¬ p ++ [b] <+: q := by
                    intro q hq b hb hprefix
                    obtain ⟨e, he, rfl⟩ := List.mem_map.mp hq
                    obtain hold | ⟨hnew, -⟩ := hstep.spent rfl e he
                    · exact hfresh _ (List.mem_map_of_mem hold) b (List.mem_cons_of_mem a hb) hprefix
                    · exact hnot (eq_of_prefix_concat hnew hprefix ▸ hb)
                  exact hstep.trans (List.prefix_append p [a]) subset_keepAll
                    (ih (hstep.visited rfl) (List.map_subset _ hsub hp) hrest hfresh₁)

/-- A vertex that is met for the first time. -/
theorem keep_of_not_mem (hvis : ∀ x, x ∈ visited ↔ x ∈ K.map Prod.snd)
    (hp : p = [] ∨ p.dropLast ∈ K.map Prod.fst) (hmem : v ∉ visited) :
    keep K (p, v) = K ++ [(p, v)] ∧ ∀ x, x ∈ v :: visited ↔ x ∈ (K ++ [(p, v)]).map Prod.snd := by
  refine ⟨if_pos ⟨hp, fun h => hmem ((hvis v).mpr h)⟩, fun x => ?_⟩
  rw [List.map_append, List.mem_append, List.mem_cons, hvis x, or_comm]
  simp

/-- A visit agrees with the ways through its vertex.  The induction is on the
labels left; each vertex is met once, so no way that is kept before the visit
starts with `p`. -/
theorem visit_agrees (hlabels : ∀ v, (G.labels v).Nodup) (hlimit : p.length + n = limit)
    (hvis : ∀ x, x ∈ visited ↔ x ∈ K.map Prod.snd)
    (hp : p = [] ∨ p.dropLast ∈ K.map Prod.fst) (hfresh : ∀ q ∈ K.map Prod.fst, ¬ p <+: q) :
    G.Agrees limit p K ((G.below p n v).foldl keep K) (G.visit n v p visited) := by
  induction n generalizing v p visited K with
  | zero =>
      rw [visit]
      split_ifs with hmem
      · rw [keepAll_below_of_mem ((hvis v).mp hmem) hfresh]
        exact Agrees.refl hvis
      · obtain ⟨hkeep, hvis'⟩ := keep_of_not_mem hvis hp hmem
        rw [below_zero, List.foldl_cons, List.foldl_nil, hkeep]
        cases hgoal : G.goal v with
        | some k => exact Agrees.done (List.mem_append_right K List.mem_cons_self) hgoal rfl
        | none =>
            exact (Agrees.refl hvis').enter ⟨hgoal, fun hlt => absurd hlimit (Nat.ne_of_lt hlt)⟩
  | succ n ih =>
      rw [visit]
      split_ifs with hmem
      · rw [keepAll_below_of_mem ((hvis v).mp hmem) hfresh]
        exact Agrees.refl hvis
      · obtain ⟨hkeep, hvis'⟩ := keep_of_not_mem hvis hp hmem
        have hv : (p, v) ∈ K ++ [(p, v)] := List.mem_append_right K List.mem_cons_self
        rw [below_succ, List.foldl_cons, hkeep]
        cases hgoal : G.goal v with
        | some k => exact Agrees.done (subset_keepAll hv) hgoal rfl
        | none =>
            have hp' : p ∈ (K ++ [(p, v)]).map Prod.fst := List.mem_map_of_mem hv
            have hfresh' : ∀ q ∈ (K ++ [(p, v)]).map Prod.fst, ∀ a ∈ G.labels v, ¬ p ++ [a] <+: q := by
              intro q hq a _ hprefix
              rw [List.map_append, List.mem_append] at hq
              obtain hold | hnew := hq
              · exact hfresh q hold ((List.prefix_append p [a]).trans hprefix)
              · obtain rfl : q = p := by simpa using hnew
                have hlen := hprefix.length_le
                rw [List.length_append, List.length_singleton] at hlen
                omega
            exact (descend_agrees (fun _ _ _ _ hlen hvis hp hfresh => ih hlen hvis hp hfresh)
              hlimit hvis' hp' (hlabels v) hfresh').enter
              ⟨hgoal, fun _ a ha w hw => next_mem_keepAll hp' ha hw⟩

end Agreement

section Completeness

variable {root : V} (hlabels : ∀ v, (G.labels v).Nodup)

include hlabels

/-- The whole search agrees with the first ways. -/
theorem search_agrees :
    G.Agrees n [] [] (G.firstWays n root) (G.visit n root [] []) := by
  have h : G.Agrees n [] [] ((G.below [] n root).foldl keep []) (G.visit n root [] []) :=
    visit_agrees hlabels (Nat.zero_add n) (by simp) (.inl rfl) (by simp)
  rwa [below_nil] at h

/-- The search succeeds exactly when a first way ends where the goal is. -/
theorem search_iff_firstWays :
    (G.visit n root [] []).1.isSome ↔ ∃ e ∈ G.firstWays n root, (G.goal e.2).isSome := by
  have hagrees : G.Agrees n [] [] (G.firstWays n root) (G.visit n root [] []) :=
    search_agrees hlabels
  constructor
  · intro hsome
    obtain ⟨result, hresult⟩ := Option.isSome_iff_exists.mp hsome
    obtain ⟨e, he, k, hgoal, -⟩ := hagrees.found result hresult
    exact ⟨e, he, Option.isSome_iff_exists.mpr ⟨k, hgoal⟩⟩
  · rintro ⟨e, he, hgoal⟩
    by_contra hnone
    rw [Option.not_isSome_iff_eq_none] at hnone
    obtain hnil | ⟨-, hspent⟩ := hagrees.spent hnone e he
    · exact List.not_mem_nil hnil
    · rw [hspent.missed] at hgoal
      exact Bool.false_ne_true hgoal

/-- What the search returns is a way to a vertex that has the goal, and the
label of the goal there. -/
theorem search_sound {result : List L} (h : (G.visit n root [] []).1 = some result) :
    ∃ q x k, result = q ++ [k] ∧ q.length ≤ n ∧ G.walk root q = some x ∧ G.goal x = some k := by
  obtain ⟨⟨q, x⟩, he, k, hgoal, hresult⟩ := (search_agrees hlabels).found result h
  obtain ⟨hlen, hwalk⟩ := mem_ways_iff.mp (mem_ways_of_mem_firstWays he)
  exact ⟨q, x, k, hresult, hlen, hwalk, hgoal⟩

/-- A way to the goal is not missed when every way to a vertex on it leaves as
many labels as the rest of it needs. -/
theorem search_complete {x : V} {k : L} (hwalk : G.walk root q = some x) (hgoal : G.goal x = some k)
    (hroom : ∀ front back u, q = front ++ back → G.walk root front = some u →
      ∀ q', q'.length ≤ n → G.walk root q' = some u → q'.length + back.length ≤ n) :
    (G.visit n root [] []).1.isSome := by
  have hagrees : G.Agrees n [] [] (G.firstWays n root) (G.visit n root [] []) :=
    search_agrees hlabels
  by_contra hnone
  rw [Option.not_isSome_iff_eq_none] at hnone
  have hspent : ∀ u ∈ (G.firstWays n root).map Prod.snd,
      ∃ e ∈ G.firstWays n root, e.2 = u ∧ G.Spent n (G.firstWays n root) e := by
    intro u hu
    obtain ⟨e, he, rfl⟩ := List.mem_map.mp hu
    exact ⟨e, he, rfl, ((hagrees.spent hnone e he).resolve_left List.not_mem_nil).2⟩
  -- every vertex on the way is met, nearer than the limit until the last
  have hmet : ∀ back front u, q = front ++ back → G.walk root front = some u →
      G.walk u back = some x → u ∈ (G.firstWays n root).map Prod.snd →
      x ∈ (G.firstWays n root).map Prod.snd := by
    intro back
    induction back with
    | nil =>
        intro front u _ _ hx hu
        obtain rfl := Option.some.inj hx
        exact hu
    | cons a back ih =>
        intro front u hq hfront hx hu
        obtain ⟨e, he, rfl, hclosed⟩ := hspent u hu
        rw [walk] at hx
        split_ifs at hx with ha
        obtain ⟨w, hw, hback⟩ := Option.bind_eq_some_iff.mp hx
        obtain ⟨hlen, hway⟩ := mem_ways_iff.mp (mem_ways_of_mem_firstWays he)
        have hleft := hroom front (a :: back) e.2 hq hfront e.1 hlen hway
        rw [List.length_cons] at hleft
        refine ih (front ++ [a]) w (by rw [hq, List.append_assoc]; rfl) ?_ hback
          (hclosed.closed (by omega) a ha w hw)
        rw [walk_append, hfront, Option.bind_some, walk, if_pos ha, hw]
        rfl
  have hroot : root ∈ (G.firstWays n root).map Prod.snd := by
    have h := mem_keepAll_below (G := G) (v := root) (n := n) (K := []) (p := []) (.inl rfl)
    rwa [below_nil] at h
  obtain ⟨e, -, rfl, hmissed⟩ := hspent x (hmet q [] root rfl rfl hwalk hroot)
  exact Option.some_ne_none k (hgoal.symm.trans hmissed.missed)

end Completeness

end LabelledGraph

end SkynetJit
