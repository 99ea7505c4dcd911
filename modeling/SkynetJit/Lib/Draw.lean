import Mathlib.Data.List.Nodup
import Mathlib.Data.List.Perm.Subperm
import Mathlib.Tactic.SplitIfs

/-!
# SkynetJit.Lib.Draw

Computations that draw random numbers.

The numbers are a list that is given in advance, so what holds for every list
holds for every sequence of draws.  A computation ends with a result, or it has
used up the list, or it has met a fault.  `Yields` says of one that it meets no
fault, that its results have a property, and that some draws lead to one; the
rules below go through sequences, repetitions, and loops that may go on for
ever.

* `yields_times`, `yields_batches` — elements drawn one or a few at a time;
* `yields_loop` — the rule for loops, by an invariant;
* `yields_unseen`, `yields_dropRandom` — draw until there are so many different
  elements, or take random ones away.

Nothing here depends on the commands of this development.
-/

namespace SkynetJit

/-- Why there is no result: the draws are used up, or something went wrong. -/
inductive Draw.Stop (ε : Type) where
  | drawing
  | fault (e : ε)
deriving DecidableEq, Repr

/-- A computation that draws numbers and may meet a fault. -/
abbrev Draw (ε α : Type) := StateT (List Nat) (Except (Draw.Stop ε)) α

namespace Draw

variable {ε α β σ : Type}

/-- Draw a number. -/
def next : Draw ε Nat
  | [] => .error .drawing
  | r :: rs => .ok (r, rs)

/-- Meet a fault. -/
def fault (e : ε) : Draw ε α := fun _ => .error (.fault e)

/-- The draws are used up. -/
def drawing : Draw ε α := fun _ => .error .drawing

/-- Go on if something is there. -/
def expect (e : ε) : Option α → Draw ε α
  | some a => pure a
  | none => fault e

/-- Go on if something holds. -/
def require (e : ε) (p : Prop) [Decidable p] : Draw ε Unit := if p then pure () else fault e

/-- What is left of a draw. -/
def Outcome (P : α → Prop) : Except (Stop ε) (α × List Nat) → Prop
  | .ok (a, _) => P a
  | .error .drawing => True
  | .error (.fault _) => False

/-- The computation draws these numbers and returns this result. -/
def Runs (x : Draw ε α) (rs : List Nat) (a : α) : Prop := ∀ rest, x (rs ++ rest) = .ok (a, rest)

/-- Whatever is drawn, there is no fault and the results have a property; and
there are draws that lead to a result. -/
structure Yields (P : α → Prop) (x : Draw ε α) : Prop where
  outcome : ∀ rs, Outcome P (x rs)
  ends : ∃ rs a, Runs x rs a

variable {P : α → Prop} {Q : β → Prop}

theorem runs_pure (a : α) : Runs (pure a : Draw ε α) [] a := fun _ => rfl

theorem runs_next (r : Nat) : Runs (next : Draw ε Nat) [r] r := fun _ => rfl

theorem Runs.bind {x : Draw ε α} {f : α → Draw ε β} {rs rs' : List Nat} {a : α} {b : β} (hx : Runs x rs a)
    (hf : Runs (f a) rs' b) : Runs (x >>= f) (rs ++ rs') b := by
  intro rest
  show (x (rs ++ rs' ++ rest) >>= fun r => f r.1 r.2) = _
  rw [List.append_assoc, hx]
  exact hf rest

theorem Runs.map {x : Draw ε α} {rs : List Nat} {a : α} (hx : Runs x rs a) (f : α → β) :
    Runs (f <$> x) rs (f a) := by
  have h := Runs.bind (f := fun a => pure (f a)) hx (runs_pure (f a))
  rwa [List.append_nil] at h

theorem Yields.result {x : Draw ε α} (h : Yields P x) {rs : List Nat} {a : α} (hx : Runs x rs a) : P a := by
  have hrs := h.outcome (rs ++ [])
  rwa [hx] at hrs

/-- There are draws that lead to a result with the property. -/
theorem Yields.exists_runs {x : Draw ε α} (h : Yields P x) : ∃ rs a, Runs x rs a ∧ P a := by
  obtain ⟨rs, a, hx⟩ := h.ends
  exact ⟨rs, a, hx, h.result hx⟩

theorem Outcome.mono {P' : α → Prop} {r : Except (Stop ε) (α × List Nat)} (h : Outcome P r)
    (hPP' : ∀ a, P a → P' a) : Outcome P' r := by
  cases r with
  | ok r => exact hPP' r.1 h
  | error stop =>
      cases stop with
      | drawing => trivial
      | fault e => exact h

theorem Yields.mono {P' : α → Prop} {x : Draw ε α} (h : Yields P x) (hPP' : ∀ a, P a → P' a) : Yields P' x :=
  ⟨fun rs => (h.outcome rs).mono hPP', h.ends⟩

theorem yields_pure {a : α} (h : P a) : Yields P (pure a : Draw ε α) := ⟨fun _ => h, [], a, runs_pure a⟩

theorem yields_next : Yields (fun _ => True) (next : Draw ε Nat) := by
  refine ⟨fun rs => ?_, [0], 0, runs_next 0⟩
  cases rs <;> trivial

theorem outcome_bind {x : Draw ε α} {f : α → Draw ε β} {rs : List Nat} (hx : Outcome P (x rs))
    (hf : ∀ a, P a → ∀ rs, Outcome Q (f a rs)) : Outcome Q ((x >>= f) rs) := by
  show Outcome Q (x rs >>= fun r => f r.1 r.2)
  cases h : x rs with
  | ok r =>
      rw [h] at hx
      exact hf r.1 hx r.2
  | error stop =>
      rw [h] at hx
      cases stop with
      | drawing => trivial
      | fault e => exact hx

/-- One after the other. -/
theorem Yields.bind {x : Draw ε α} {f : α → Draw ε β} (hx : Yields P x) (hf : ∀ a, P a → Yields Q (f a)) :
    Yields Q (x >>= f) := by
  refine ⟨fun rs => outcome_bind (hx.outcome rs) fun a ha => (hf a ha).outcome, ?_⟩
  obtain ⟨rs, a, ha, hP⟩ := hx.exists_runs
  obtain ⟨rs', b, hb⟩ := (hf a hP).ends
  exact ⟨rs ++ rs', b, ha.bind hb⟩

theorem Yields.map {x : Draw ε α} {f : α → β} (hx : Yields (fun a => Q (f a)) x) : Yields Q (f <$> x) :=
  hx.bind fun _ h => yields_pure h

theorem yields_expect {e : ε} {o : Option α} (h : ∃ a, o = some a ∧ P a) : Yields P (expect e o) := by
  obtain ⟨a, rfl, ha⟩ := h
  exact yields_pure ha

theorem yields_require {e : ε} {p : Prop} [Decidable p] (h : p) : Yields (fun _ => p) (require e p) := by
  rw [require, if_pos h]
  exact yields_pure h

/-- A branch. -/
theorem yields_ite {p : Prop} [Decidable p] {x y : Draw ε α} (hx : p → Yields P x) (hy : ¬ p → Yields P y) :
    Yields P (if p then x else y) := by
  split_ifs with h
  · exact hx h
  · exact hy h

/-! ## Repetitions -/

/-- So many times. -/
def times (x : Draw ε α) : Nat → Draw ε (List α)
  | 0 => pure []
  | n + 1 => do
      let a ← x
      let l ← times x n
      return a :: l

theorem yields_times {x : Draw ε α} (h : Yields P x) (n : Nat) :
    Yields (fun l => l.length = n ∧ ∀ a ∈ l, P a) (times x n) := by
  induction n with
  | zero => exact yields_pure ⟨rfl, by simp⟩
  | succ n ih =>
      refine h.bind fun a ha => ih.bind fun l hl => yields_pure ⟨by rw [List.length_cons, hl.1], ?_⟩
      intro b hb
      rcases List.mem_cons.mp hb with rfl | hb
      · exact ha
      · exact hl.2 b hb

theorem yields_mapM {f : α → Draw ε β} {l : List α} (h : ∀ a ∈ l, Yields Q (f a)) :
    Yields (fun l' => l'.length = l.length ∧ ∀ b ∈ l', Q b) (l.mapM f) := by
  induction l with
  | nil => exact yields_pure ⟨rfl, by simp⟩
  | cons a l ih =>
      rw [List.mapM_cons]
      refine (h a List.mem_cons_self).bind fun b hb =>
        (ih fun a' ha' => h a' (List.mem_cons_of_mem _ ha')).bind fun l' hl' => yields_pure ?_
      refine ⟨by rw [List.length_cons, List.length_cons, hl'.1], fun c hc => ?_⟩
      rcases List.mem_cons.mp hc with rfl | hc
      · exact hb
      · exact hl'.2 c hc

/-- So many elements, `limit` of them at a time; the first argument bounds the
number of turns. -/
def batches (limit : Nat) (sample : Nat → Draw ε (List α)) : Nat → Nat → Draw ε (List α)
  | 0, _ => drawing
  | turns + 1, remaining =>
      if remaining = 0 then pure []
      else do
        let count := min remaining limit
        let l ← sample count
        let rest ← batches limit sample turns (remaining - count)
        return l ++ rest

theorem yields_batches {limit : Nat} {sample : Nat → Draw ε (List α)}
    (h : ∀ n, 0 < n → n ≤ limit → Yields (fun l => l.length = n ∧ ∀ a ∈ l, P a) (sample n)) (hlimit : 0 < limit)
    {turns remaining : Nat} (hturns : remaining < turns) :
    Yields (fun l => l.length = remaining ∧ ∀ a ∈ l, P a) (batches limit sample turns remaining) := by
  induction turns generalizing remaining with
  | zero => exact absurd hturns (Nat.not_lt_zero _)
  | succ turns ih =>
      rw [batches]
      refine yields_ite (fun h0 => yields_pure ⟨h0.symm, by simp⟩) fun hpos => ?_
      refine (h _ (by omega) (Nat.min_le_right _ _)).bind fun l hl => (ih (by omega)).bind fun rest hrest => ?_
      refine yields_pure ⟨by rw [List.length_append, hl.1, hrest.1]; omega, fun a ha => ?_⟩
      rcases List.mem_append.mp ha with ha | ha
      · exact hl.2 a ha
      · exact hrest.2 a ha

/-- A loop that goes on until a turn has a result; the first argument bounds the
number of turns. -/
def iterate (step : σ → Draw ε (σ ⊕ β)) : Nat → σ → Draw ε β
  | 0, _ => drawing
  | turns + 1, s => do
      match ← step s with
      | .inl s => iterate step turns s
      | .inr b => pure b

/-- A loop each turn of which draws a number: it does not take more turns than
there are numbers. -/
def loop (step : σ → Draw ε (σ ⊕ β)) (s : σ) : Draw ε β := fun rs => iterate step (rs.length + 1) s rs

theorem iterate_inl {step : σ → Draw ε (σ ⊕ β)} {turns : Nat} {s s' : σ} {rs rest : List Nat}
    (h : step s rs = .ok (.inl s', rest)) : iterate step (turns + 1) s rs = iterate step turns s' rest := by
  show (step s rs >>= fun r => _) = _
  rw [h]
  rfl

theorem iterate_inr {step : σ → Draw ε (σ ⊕ β)} {turns : Nat} {s : σ} {b : β} {rs rest : List Nat}
    (h : step s rs = .ok (.inr b, rest)) : iterate step (turns + 1) s rs = .ok (b, rest) := by
  show (step s rs >>= fun r => _) = _
  rw [h]
  rfl

/-- What a turn has to do to bring a loop to its end: draw and make a measure
smaller, or have the result. -/
def Progress (measure : σ → Nat) (s : σ) (rs : List Nat) : σ ⊕ β → Prop
  | .inl s' => rs ≠ [] ∧ measure s' < measure s
  | .inr _ => True

/-- The rule for loops: an invariant that each turn keeps, and a measure that some
draws make smaller. -/
theorem yields_loop {step : σ → Draw ε (σ ⊕ β)} {I : σ → Prop} (hstep : ∀ s, I s → Yields (Sum.elim I Q) (step s))
    (measure : σ → Nat) (hprogress : ∀ s, I s → ∃ rs r, Runs (step s) rs r ∧ Progress measure s rs r) {s : σ}
    (hs : I s) : Yields Q (loop step s) := by
  have houtcome : ∀ turns s, I s → ∀ rs, Outcome Q (iterate step turns s rs) := by
    intro turns
    induction turns with
    | zero => exact fun _ _ _ => trivial
    | succ turns ih =>
        intro s hs rs
        refine outcome_bind ((hstep s hs).outcome rs) fun r hr => ?_
        cases r with
        | inl s => exact ih s hr
        | inr b => exact fun _ => hr
  have hends : ∀ n s, I s → measure s = n → ∃ rs b, ∀ turns rest, rs.length < turns →
      iterate step turns s (rs ++ rest) = .ok (b, rest) := by
    intro n
    induction n using Nat.strongRecOn with
    | ind n ih =>
        rintro s hs rfl
        obtain ⟨rs, r, hr, hprogress⟩ := hprogress s hs
        have hinv := (hstep s hs).result hr
        cases r with
        | inr b =>
            refine ⟨rs, b, fun turns rest hturns => ?_⟩
            obtain ⟨turns, rfl⟩ := Nat.exists_eq_succ_of_ne_zero (Nat.ne_zero_of_lt hturns)
            exact iterate_inr (hr rest)
        | inl s' =>
            obtain ⟨rs', b, hb⟩ := ih _ hprogress.2 s' hinv rfl
            have hpos := List.length_pos_of_ne_nil hprogress.1
            refine ⟨rs ++ rs', b, fun turns rest hturns => ?_⟩
            rw [List.length_append] at hturns
            obtain ⟨turns, rfl⟩ := Nat.exists_eq_succ_of_ne_zero (Nat.ne_zero_of_lt hturns)
            rw [List.append_assoc, iterate_inl (hr (rs' ++ rest))]
            exact hb turns rest (by omega)
  refine ⟨fun rs => houtcome _ s hs rs, ?_⟩
  obtain ⟨rs, b, hb⟩ := hends _ s hs rfl
  refine ⟨rs, b, fun rest => hb _ rest ?_⟩
  rw [List.length_append]
  omega

/-! ## Different elements

Elements are told apart by a key. -/

variable {κ : Type} [DecidableEq κ]

/-- A turn of `unseen`: keep what is drawn if it is new. -/
def unseenTurn (key : α → κ) (sample : Draw ε α) (count : Nat) (seen : List α) :
    Draw ε (List α ⊕ List α) :=
  if count ≤ seen.length then pure (.inr seen)
  else do
    let a ← sample
    if key a ∈ seen.map key then return .inl seen else return .inl (seen ++ [a])

/-- Draw until there are `count` different elements. -/
def unseen (key : α → κ) (sample : Draw ε α) (count : Nat) : Draw ε (List α) :=
  loop (unseenTurn key sample count) []

/-- Every element of a list can be drawn. -/
def Covers (all : List α) (sample : Draw ε α) : Prop := ∀ a ∈ all, ∃ r, Runs sample [r] a

theorem yields_unseen {key : α → κ} {all : List α} {sample : Draw ε α} (h : Yields (fun a => a ∈ all) sample)
    (hcovers : Covers all sample) (hnodup : (all.map key).Nodup) {count : Nat} (hcount : count ≤ all.length) :
    Yields (fun l => l.length = count ∧ (l.map key).Nodup ∧ ∀ a ∈ l, a ∈ all) (unseen key sample count) := by
  refine yields_loop (I := fun l => l.length ≤ count ∧ (l.map key).Nodup ∧ ∀ a ∈ l, a ∈ all) (fun seen hseen => ?_)
    (fun seen => count - seen.length) (fun seen hseen => ?_) ⟨Nat.zero_le _, List.nodup_nil, by simp⟩
  swap
  · by_cases hlt : count ≤ seen.length
    · exact ⟨[], .inr seen, by rw [unseenTurn, if_pos hlt]; exact runs_pure _, trivial⟩
    · -- one of the elements is not there yet
      obtain ⟨a, ha, hnew⟩ : ∃ a ∈ all, key a ∉ seen.map key := by
        by_contra hall
        push Not at hall
        have hsub : all.map key ⊆ seen.map key := by
          intro k hk
          obtain ⟨a, ha, rfl⟩ := List.mem_map.mp hk
          exact hall a ha
        have hle := (List.subperm_of_subset hnodup hsub).length_le
        rw [List.length_map, List.length_map] at hle
        omega
      obtain ⟨r, hr⟩ := hcovers a ha
      refine ⟨[r] ++ [], .inl (seen ++ [a]), ?_, by simp, ?_⟩
      · rw [unseenTurn, if_neg hlt]
        refine hr.bind ?_
        rw [if_neg hnew]
        exact runs_pure _
      · show count - (seen ++ [a]).length < count - seen.length
        rw [List.length_append, List.length_singleton]
        omega
  refine yields_ite (fun hcount => yields_pure ⟨by omega, hseen.2⟩) fun hcount => ?_
  refine h.bind fun a ha => yields_ite (fun _ => yields_pure hseen) fun hnew => yields_pure ?_
  refine ⟨?_, ?_, fun b hb => ?_⟩
  · rw [List.length_append, List.length_singleton]
    omega
  · rw [List.map_append, List.map_singleton]
    exact List.Nodup.append hseen.2.1 (List.nodup_singleton _) (List.disjoint_singleton.mpr hnew)
  · rcases List.mem_append.mp hb with hb | hb
    · exact hseen.2.2 b hb
    · rwa [List.mem_singleton.mp hb]

/-- Take out `n` elements, each at random. -/
def dropRandom (key : α → κ) (sample : List α → Draw ε α) : Nat → List α → Draw ε (List α)
  | 0, l => pure l
  | n + 1, l => do
      let a ← sample l
      dropRandom key sample n (l.eraseP fun b => key b = key a)

theorem yields_dropRandom {key : α → κ} {sample : List α → Draw ε α}
    (h : ∀ l, l ≠ [] → Yields (fun a => a ∈ l) (sample l)) {n : Nat} {l : List α} (hn : n ≤ l.length) :
    Yields (fun l' => l'.length = l.length - n ∧ l'.Sublist l) (dropRandom key sample n l) := by
  induction n generalizing l with
  | zero => exact yields_pure ⟨rfl, List.Sublist.refl l⟩
  | succ n ih =>
      refine (h l (List.ne_nil_of_length_pos (by omega))).bind fun a ha => ?_
      have hlength : (l.eraseP fun b => key b = key a).length = l.length - 1 :=
        List.length_eraseP_of_mem ha (by simp)
      refine (ih (by omega)).mono fun l' hl' => ⟨by omega, hl'.2.trans List.eraseP_sublist⟩

end Draw

end SkynetJit
