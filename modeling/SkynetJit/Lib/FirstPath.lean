import Mathlib.Data.Set.Insert
import Mathlib.Logic.Function.Basic

/-!
# SkynetJit.Lib.FirstPath

Depth-first search on a graph whose edges are labelled and leave each vertex
in an order.  The search names every vertex it meets by the labels on the way,
and never visits a vertex twice.

Which way that is depends on the whole graph.  `FirstPath` says it without a
search: at each vertex the path takes the first edge from which its end can be
reached without coming back to a vertex the path has passed.  `Visited` and
`Walked` are the rules by which a program that searches is followed; what they
conclude is that it names exactly by first paths.

Nothing here depends on what the vertices and the names are.
-/

namespace SkynetJit

namespace DepthFirst

variable {V L N : Type}

section Paths

variable (edges : V → List (L × V))

/-- A walk from `v` to `x` along these labels. -/
inductive Walk : V → List L → V → Prop where
  | nil (v : V) : Walk v [] v
  | cons {v w x : V} {l : L} {q : List L} : (l, w) ∈ edges v → Walk w q x → Walk v (l :: q) x

/-- `x` can be reached from `v` outside `avoid`. -/
inductive LeadsTo (avoid : Set V) : V → V → Prop where
  | refl {x : V} : x ∉ avoid → LeadsTo avoid x x
  | head {v w x : V} {l : L} :
      v ∉ avoid → (l, w) ∈ edges v → LeadsTo avoid w x → LeadsTo avoid v x

/-- The first path from `v` to `x` outside `avoid`: no edge before the one it
takes leads to `x` without coming back to the path. -/
inductive FirstPath : Set V → V → List L → V → Prop where
  | nil {avoid : Set V} {x : V} : x ∉ avoid → FirstPath avoid x [] x
  | cons {avoid : Set V} {v w x : V} {l : L} {before after : List (L × V)} {q : List L} :
      v ∉ avoid → edges v = before ++ (l, w) :: after →
      (∀ e ∈ before, ¬ LeadsTo edges (insert v avoid) e.2 x) →
      FirstPath (insert v avoid) w q x → FirstPath avoid v (l :: q) x

end Paths

variable {edges : V → List (L × V)} {avoid avoid' : Set V} {u v w x : V}

/-! ## Reaching a vertex -/

namespace LeadsTo

theorem source_not_mem (h : LeadsTo edges avoid v x) : v ∉ avoid := by
  cases h <;> assumption

theorem target_not_mem (h : LeadsTo edges avoid v x) : x ∉ avoid := by
  induction h with
  | refl hx => exact hx
  | head _ _ _ ih => exact ih

theorem trans (h : LeadsTo edges avoid v w) (h' : LeadsTo edges avoid w x) :
    LeadsTo edges avoid v x := by
  induction h with
  | refl _ => exact h'
  | head hv he _ ih => exact .head hv he (ih h')

theorem mono (hsub : avoid' ⊆ avoid) (h : LeadsTo edges avoid v x) :
    LeadsTo edges avoid' v x := by
  induction h with
  | refl hx => exact .refl fun hx' => hx (hsub hx')
  | head hv he _ ih => exact .head (fun hv' => hv (hsub hv')) he ih

/-- Vertices from which `x` cannot be reached may be avoided too. -/
theorem restrict (h : LeadsTo edges avoid v x)
    (hdead : ∀ b ∈ avoid', b ∉ avoid → ¬ LeadsTo edges avoid b x) : LeadsTo edges avoid' v x := by
  induction h with
  | refl hx => exact .refl fun hx' => hdead _ hx' hx (.refl hx)
  | head hv he hrest ih => exact .head (fun hv' => hdead _ hv' hv (.head hv he hrest)) he (ih hdead)

/-- A way from `u` either avoids `v` or can start at an edge of `v`. -/
theorem avoid_or_through (v : V) (h : LeadsTo edges avoid u x) :
    LeadsTo edges (insert v avoid) u x ∨ x = v ∨
      ∃ e ∈ edges v, LeadsTo edges (insert v avoid) e.2 x := by
  induction h with
  | @refl x hx =>
      by_cases heq : x = v
      · exact .inr (.inl heq)
      · exact .inl (.refl fun hmem => hmem.elim heq hx)
  | @head u w x l hu he _ ih =>
      obtain hrest | hthrough := ih
      · by_cases heq : u = v
        · subst heq
          exact .inr (.inr ⟨_, he, hrest⟩)
        · exact .inl (.head (fun hmem => hmem.elim heq hu) he hrest)
      · exact .inr hthrough

/-- Leaving a vertex for good. -/
theorem through (h : LeadsTo edges avoid v x) :
    x = v ∨ ∃ e ∈ edges v, LeadsTo edges (insert v avoid) e.2 x := by
  obtain havoid | hthrough := h.avoid_or_through v
  · exact absurd (Set.mem_insert v avoid) havoid.source_not_mem
  · exact hthrough

end LeadsTo

/-! ## First paths -/

namespace FirstPath

variable {q q' : List L}

theorem leadsTo (h : FirstPath edges avoid v q x) : LeadsTo edges avoid v x := by
  induction h with
  | nil hx => exact .refl hx
  | cons hv he _ _ ih =>
      exact .head hv (he ▸ List.mem_append_right _ List.mem_cons_self)
        (ih.mono (Set.subset_insert _ _))

theorem walk (h : FirstPath edges avoid v q x) : Walk edges v q x := by
  induction h with
  | nil _ => exact .nil _
  | cons _ he _ _ ih => exact .cons (he ▸ List.mem_append_right _ List.mem_cons_self) ih

/-- There is at most one first path. -/
theorem unique (h : FirstPath edges avoid v q x) (h' : FirstPath edges avoid v q' x) : q = q' := by
  induction h generalizing q' with
  | nil _ =>
      cases h' with
      | nil _ => rfl
      | cons _ _ _ hrest => exact absurd (Set.mem_insert _ _) hrest.leadsTo.target_not_mem
  | cons _ he hbefore hrest ih =>
      cases h' with
      | nil _ => exact absurd (Set.mem_insert _ _) hrest.leadsTo.target_not_mem
      | cons _ he' hbefore' hrest' =>
          -- two splits of the edges of `v`: neither edge is before the other
          obtain ⟨mid, hl, hr⟩ | ⟨mid, hl, hr⟩ := List.append_eq_append_iff.mp (he.symm.trans he')
          · cases mid with
            | nil =>
                obtain ⟨heq, -⟩ := List.cons.inj hr
                obtain ⟨rfl, rfl⟩ := Prod.mk.inj heq
                rw [ih hrest']
            | cons e mid =>
                obtain ⟨rfl, -⟩ := List.cons.inj hr
                exact absurd hrest.leadsTo (hbefore' _ (hl ▸ List.mem_append_right _ List.mem_cons_self))
          · cases mid with
            | nil =>
                obtain ⟨heq, -⟩ := List.cons.inj hr
                obtain ⟨rfl, rfl⟩ := Prod.mk.inj heq
                rw [ih hrest']
            | cons e mid =>
                obtain ⟨rfl, -⟩ := List.cons.inj hr
                exact absurd hrest'.leadsTo (hbefore _ (hl ▸ List.mem_append_right _ List.mem_cons_self))

/-- Avoiding vertices from which `x` cannot be reached changes no first path
to `x`. -/
theorem of_restrict (h : FirstPath edges avoid v q x) (hsub : avoid' ⊆ avoid)
    (hdead : ∀ b ∈ avoid, b ∉ avoid' → ¬ LeadsTo edges avoid' b x) :
    FirstPath edges avoid' v q x := by
  induction h generalizing avoid' with
  | nil hx => exact .nil fun hx' => hx (hsub hx')
  | @cons avoid v w x l before after q hv he hbefore _ ih =>
      have hdead' : ∀ b ∈ insert v avoid, b ∉ insert v avoid' →
          ¬ LeadsTo edges (insert v avoid') b x := by
        intro b hb hb' hlead
        obtain rfl | hb := hb
        · exact hb' (Set.mem_insert b avoid')
        · exact hdead b hb (fun hmem => hb' (Set.mem_insert_of_mem v hmem))
            (hlead.mono (Set.subset_insert _ _))
      exact .cons (fun hv' => hv (hsub hv')) he
        (fun e he hlead => hbefore e he (hlead.restrict hdead'))
        (ih (Set.insert_subset_insert hsub) hdead')

end FirstPath

/-- The vertices that have a name. -/
def named (names : V → Option N) : Set V := {x | (names x).isSome}

theorem not_mem_named {names : V → Option N} : x ∉ named names ↔ names x = none := by
  simp [named]

/-- A visit of `v` under the name `path`: old names stay, and a vertex without
one is given the name of its first path from `v`, if it has one. -/
structure Visited (edges : V → List (L × V)) (extend : N → L → N) (names : V → Option N) (v : V)
    (path : N) (names' : V → Option N) : Prop where
  keep : ∀ x n, names x = some n → names' x = some n
  new : ∀ x, names x = none → ∀ n, names' x = some n ↔
    ∃ q, FirstPath edges (named names) v q x ∧ n = q.foldl extend path
  reach : ∀ x, LeadsTo edges (named names) v x → (names' x).isSome

/-- In the middle of a visit of `v`, which has its name: the edges `before`
have been followed. -/
structure Walked (edges : V → List (L × V)) (extend : N → L → N) (names : V → Option N) (v : V)
    (path : N) (before : List (L × V)) (names' : V → Option N) : Prop where
  keep : ∀ x n, names x = some n → names' x = some n
  source : names' v = some path
  new : ∀ x n, names x = none → names' x = some n → (x = v ∧ n = path) ∨
    ∃ l w q front rest, before = front ++ (l, w) :: rest ∧
      (∀ e ∈ front, ¬ LeadsTo edges (insert v (named names)) e.2 x) ∧
      FirstPath edges (insert v (named names)) w q x ∧ n = (l :: q).foldl extend path
  reach : ∀ e ∈ before, ∀ x, LeadsTo edges (insert v (named names)) e.2 x → (names' x).isSome

variable {extend : N → L → N} {names names₁ names₂ : V → Option N} {path : N}
  {before : List (L × V)} {l : L}

/-- A vertex that has a name is not visited. -/
theorem Visited.skip {n : N} (hv : names v = some n) : Visited edges extend names v path names := by
  have hmem : v ∈ named names := by simp [named, hv]
  refine ⟨fun _ _ h => h, fun x hx n' => ?_, fun x hlead => absurd hmem hlead.source_not_mem⟩
  constructor
  · intro hn'
    rw [hx] at hn'
    exact absurd hn' (Option.some_ne_none n').symm
  · rintro ⟨q, hfirst, -⟩
    exact absurd hmem hfirst.leadsTo.source_not_mem

namespace Walked

/-- A visit starts by naming its vertex. -/
theorem start [DecidableEq V] (hv : names v = none) :
    Walked edges extend names v path [] (Function.update names v (some path)) := by
  refine ⟨fun x n hx => ?_, Function.update_self .., fun x n hx hn => .inl ?_, by simp⟩
  · have hne : x ≠ v := by
      rintro rfl
      exact Option.some_ne_none n (hx.symm.trans hv)
    exact (Function.update_of_ne hne ..).trans hx
  · by_cases heq : x = v
    · subst heq
      rw [Function.update_self] at hn
      exact ⟨rfl, (Option.some.inj hn).symm⟩
    · rw [Function.update_of_ne heq, hx] at hn
      exact absurd hn (Option.some_ne_none n).symm

/-- What has been named on the way and is not `v` leads to no vertex that has
not been named. -/
theorem dead (h : Walked edges extend names v path before names₁) (hx : names₁ x = none) :
    ∀ b ∈ named names₁, b ∉ insert v (named names) →
      ¬ LeadsTo edges (insert v (named names)) b x := by
  intro b hb hnot hlead
  obtain ⟨n, hn⟩ := Option.isSome_iff_exists.mp hb
  have hb' : names b = none := not_mem_named.mp fun hmem => hnot (Set.mem_insert_of_mem v hmem)
  obtain ⟨rfl, -⟩ | ⟨l, w, q, front, rest, hsplit, -, hfirst, -⟩ := h.new b n hb' hn
  · exact hnot (Set.mem_insert b _)
  · have hmem : (l, w) ∈ before := hsplit ▸ List.mem_append_right _ List.mem_cons_self
    have := h.reach _ hmem x (hfirst.leadsTo.trans hlead)
    simp [hx] at this

theorem insert_subset (h : Walked edges extend names v path before names₁) :
    insert v (named names) ⊆ named names₁ := by
  rintro b (rfl | hb)
  · simp [named, h.source]
  · obtain ⟨n, hn⟩ := Option.isSome_iff_exists.mp hb
    simp [named, h.keep b n hn]

/-- The next edge is followed: its target is visited. -/
theorem step (h : Walked edges extend names v path before names₁)
    (hvisit : Visited edges extend names₁ w (extend path l) names₂) :
    Walked edges extend names v path (before ++ [(l, w)]) names₂ := by
  refine ⟨fun x n hx => hvisit.keep x n (h.keep x n hx), hvisit.keep v path h.source, ?_, ?_⟩
  · intro x n hx hn
    cases hx₁ : names₁ x with
    | some m =>
        obtain rfl : m = n := Option.some.inj ((hvisit.keep x m hx₁).symm.trans hn)
        obtain hv | ⟨l', w', q, front, rest, hsplit, hfront, hfirst, hname⟩ := h.new x m hx hx₁
        · exact .inl hv
        · exact .inr ⟨l', w', q, front, rest ++ [(l, w)], by simp [hsplit], hfront, hfirst, hname⟩
    | none =>
        obtain ⟨q, hfirst, hname⟩ := (hvisit.new x hx₁ n).mp hn
        refine .inr ⟨l, w, q, before, [], rfl, fun e he hlead => ?_, ?_, hname⟩
        · have := h.reach e he x hlead
          simp [hx₁] at this
        · exact hfirst.of_restrict h.insert_subset (h.dead hx₁)
  · intro e he x hlead
    cases hx₁ : names₁ x with
    | some m => simp [hvisit.keep x m hx₁]
    | none =>
        obtain he | he := List.mem_append.mp he
        · have := h.reach e he x hlead
          simp [hx₁] at this
        · obtain rfl := List.mem_singleton.mp he
          exact hvisit.reach x (hlead.restrict (h.dead hx₁))

end Walked

end DepthFirst

end SkynetJit
