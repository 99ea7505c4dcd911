/-!
# SkynetJit.Lib.Raise

Commands that may raise and keep their effects.  A Lua error leaves a C
function by a long jump: whatever the function wrote before stays written.
So a command is `ExceptT ε (StateM σ)` — the state comes back with an error
just as it does with a result — and `exec` runs one on a state.

The properties of commands and the rules by which they compose.  `Keeps` is
about an invariant of the state and `RaisesOnly` about the error; the others
are relative to a `view` of the state, what an observer sees of it:

* `ReadOnly` — the view is the same afterwards, whatever the outcome;
* `Returns` — no error is raised;
* `Atomic` — if an error is raised, the view is the same afterwards.

Nothing here depends on the commands of this development.
-/

namespace SkynetJit

universe u

/-- A command over the state `σ` that raises errors of type `ε`. -/
abbrev Raise (ε σ : Type u) := ExceptT ε (StateM σ)

namespace Raise

variable {ε σ α β : Type} {ι : Type u}

/-- Run a command: its outcome, and the state it leaves behind. -/
def exec (x : Raise ε σ α) (s : σ) : Except ε α × σ := StateT.run (ExceptT.run x) s

@[simp] theorem exec_pure (a : α) (s : σ) : exec (pure a : Raise ε σ α) s = (.ok a, s) := rfl

@[simp] theorem exec_throw (e : ε) (s : σ) : exec (throw e : Raise ε σ α) s = (.error e, s) := rfl

@[simp] theorem exec_get (s : σ) : exec (get : Raise ε σ σ) s = (.ok s, s) := rfl

@[simp] theorem exec_set (t s : σ) : exec (set t : Raise ε σ PUnit) s = (.ok ⟨⟩, t) := rfl

@[simp] theorem exec_modify (f : σ → σ) (s : σ) :
    exec (modify f : Raise ε σ PUnit) s = (.ok ⟨⟩, f s) := rfl

/-- Sequencing: the second command runs on what the first one left, if the
first one returned. -/
theorem exec_bind (x : Raise ε σ α) (f : α → Raise ε σ β) (s : σ) :
    exec (x >>= f) s = match exec x s with
      | (.ok a, t) => exec (f a) t
      | (.error e, t) => (.error e, t) := by
  change (ExceptT.bindCont f (exec x s).1) (exec x s).2 = _
  cases exec x s with
  | mk r t => cases r <;> rfl

theorem exec_bind_ok {x : Raise ε σ α} {f : α → Raise ε σ β} {s t : σ} {a : α}
    (h : exec x s = (.ok a, t)) : exec (x >>= f) s = exec (f a) t := by
  rw [exec_bind, h]

theorem exec_bind_error {x : Raise ε σ α} {f : α → Raise ε σ β} {s t : σ} {e : ε}
    (h : exec x s = (.error e, t)) : exec (x >>= f) s = (.error e, t) := by
  rw [exec_bind, h]

/-- A computation that neither reads nor writes the state. -/
def check (r : Except ε α) : Raise ε σ α := ExceptT.mk (pure r)

@[simp] theorem exec_check (r : Except ε α) (s : σ) :
    exec (check r : Raise ε σ α) s = (r, s) := rfl

/-! The first command of a sequence, when it cannot do both raise and write. -/

theorem exec_check_bind (r : Except ε α) (f : α → Raise ε σ β) (s : σ) :
    exec (check r >>= f) s = match r with
      | .ok a => exec (f a) s
      | .error e => (.error e, s) := by
  rw [exec_bind, exec_check]
  cases r <;> rfl

@[simp] theorem exec_check_ok_bind (a : α) (f : α → Raise ε σ β) (s : σ) :
    exec (check (.ok a) >>= f) s = exec (f a) s := exec_check_bind (.ok a) f s

@[simp] theorem exec_check_error_bind (e : ε) (f : α → Raise ε σ β) (s : σ) :
    exec (check (.error e) >>= f) s = (.error e, s) := exec_check_bind (.error e) f s

@[simp] theorem exec_get_bind (f : σ → Raise ε σ β) (s : σ) :
    exec (get >>= f) s = exec (f s) s := exec_bind_ok (exec_get s)

@[simp] theorem exec_set_bind (t : σ) (f : PUnit → Raise ε σ β) (s : σ) :
    exec (set t >>= f) s = exec (f ⟨⟩) t := exec_bind_ok (exec_set t s)

@[simp] theorem exec_modify_bind (g : σ → σ) (f : PUnit → Raise ε σ β) (s : σ) :
    exec (modify g >>= f) s = exec (f ⟨⟩) (g s) := exec_bind_ok (exec_modify g s)

/-- Run a command on one component of the state. -/
def focus {τ : Type} (get : σ → τ) (put : τ → σ → σ) (x : Raise ε τ α) : Raise ε σ α :=
  ExceptT.mk fun s => ((exec x (get s)).1, put (exec x (get s)).2 s)

@[simp] theorem exec_focus {τ : Type} (get : σ → τ) (put : τ → σ → σ) (x : Raise ε τ α) (s : σ) :
    exec (focus get put x) s = ((exec x (get s)).1, put (exec x (get s)).2 s) := rfl

/-- Checks one after the other. -/
theorem except_bind_eq_ok {x : Except ε α} {f : α → Except ε β} {b : β} :
    (x >>= f) = .ok b ↔ ∃ a, x = .ok a ∧ f a = .ok b := by
  cases x with
  | error e => exact iff_of_false nofun fun ⟨_, h, _⟩ => nomatch h
  | ok a => exact ⟨fun h => ⟨a, rfl, h⟩, fun ⟨_, h, hf⟩ => Except.ok.inj h ▸ hf⟩

/-- The checks succeed, with a result that has a property. -/
def Gives (P : α → Prop) (x : Except ε α) : Prop := ∃ a, x = .ok a ∧ P a

theorem gives_ok {P : α → Prop} {a : α} (h : P a) : Gives P (.ok a : Except ε α) := ⟨a, rfl, h⟩

theorem Gives.bind {P : α → Prop} {Q : β → Prop} {x : Except ε α} {f : α → Except ε β} (hx : Gives P x)
    (hf : ∀ a, P a → Gives Q (f a)) : Gives Q (x >>= f) := by
  obtain ⟨a, rfl, ha⟩ := hx
  exact hf a ha

theorem Gives.mono {P Q : α → Prop} {x : Except ε α} (hx : Gives P x) (h : ∀ a, P a → Q a) : Gives Q x := by
  obtain ⟨a, rfl, ha⟩ := hx
  exact ⟨a, rfl, h a ha⟩

/-! ## Invariants -/

/-- The command keeps an invariant of the state, whatever its outcome. -/
def Keeps (Inv : σ → Prop) (x : Raise ε σ α) : Prop := ∀ s, Inv s → Inv (exec x s).2

variable {Inv : σ → Prop}

theorem keeps_pure (a : α) : Keeps Inv (pure a : Raise ε σ α) := fun _ h => h

theorem keeps_throw (e : ε) : Keeps Inv (throw e : Raise ε σ α) := fun _ h => h

theorem keeps_get : Keeps Inv (get : Raise ε σ σ) := fun _ h => h

theorem keeps_check (r : Except ε α) : Keeps Inv (check r : Raise ε σ α) := fun _ h => h

/-- Sequencing, with what the first command's results are known to satisfy. -/
theorem Keeps.bind_of {x : Raise ε σ α} {f : α → Raise ε σ β} {Post : α → Prop} (hx : Keeps Inv x)
    (hpost : ∀ s a t, Inv s → exec x s = (.ok a, t) → Post a)
    (hf : ∀ a, Post a → Keeps Inv (f a)) : Keeps Inv (x >>= f) := by
  intro s hs
  have ht := hx s hs
  rw [exec_bind]
  cases h : exec x s with
  | mk r t =>
      rw [h] at ht
      cases r with
      | error e => exact ht
      | ok a => exact hf a (hpost s a t hs h) t ht

theorem Keeps.bind {x : Raise ε σ α} {f : α → Raise ε σ β} (hx : Keeps Inv x)
    (hf : ∀ a, Keeps Inv (f a)) : Keeps Inv (x >>= f) :=
  Keeps.bind_of hx (fun _ _ _ _ _ => True.intro) fun a _ => hf a

/-! ## Errors -/

/-- No error but this one is raised. -/
def RaisesOnly (err : ε) (x : Raise ε σ α) : Prop := ∀ s e, (exec x s).1 = .error e → e = err

theorem raisesOnly_pure (err : ε) (a : α) : RaisesOnly err (pure a : Raise ε σ α) := nofun

theorem raisesOnly_throw (err : ε) : RaisesOnly err (throw err : Raise ε σ α) := by
  intro s e h
  exact (Except.error.inj h).symm

theorem raisesOnly_modify (err : ε) (f : σ → σ) :
    RaisesOnly err (modify f : Raise ε σ PUnit) := nofun

theorem RaisesOnly.bind {err : ε} {x : Raise ε σ α} {f : α → Raise ε σ β} (hx : RaisesOnly err x)
    (hf : ∀ a, RaisesOnly err (f a)) : RaisesOnly err (x >>= f) := by
  intro s e he
  rw [exec_bind] at he
  cases h : exec x s with
  | mk r t =>
      rw [h] at he
      cases r with
      | error e' => exact hx s e (by rw [h, Except.error.inj he])
      | ok a => exact hf a t e he

/-! ## Views -/

/-- The view survives the command, whatever its outcome. -/
def ReadOnly (view : σ → ι) (x : Raise ε σ α) : Prop := ∀ s, view (exec x s).2 = view s

/-- The command raises no error. -/
def Returns (x : Raise ε σ α) : Prop := ∀ s, ∃ a, (exec x s).1 = .ok a

/-- The view survives the command if it raises. -/
def Atomic (view : σ → ι) (x : Raise ε σ α) : Prop :=
  ∀ s e, (exec x s).1 = .error e → view (exec x s).2 = view s

/-- The same for one state. -/
def AtomicAt (view : σ → ι) (x : Raise ε σ α) (s : σ) : Prop :=
  ∀ e, (exec x s).1 = .error e → view (exec x s).2 = view s

variable {view : σ → ι}

theorem Atomic.at {x : Raise ε σ α} (h : Atomic view x) (s : σ) : AtomicAt view x s := h s

theorem ReadOnly.atomic {x : Raise ε σ α} (h : ReadOnly view x) : Atomic view x := fun s _ _ => h s

theorem Returns.atomic {x : Raise ε σ α} (h : Returns x) : Atomic view x := by
  intro s e he
  obtain ⟨a, ha⟩ := h s
  rw [ha] at he
  contradiction

theorem readOnly_pure (a : α) : ReadOnly view (pure a : Raise ε σ α) := fun _ => rfl

theorem readOnly_throw (e : ε) : ReadOnly view (throw e : Raise ε σ α) := fun _ => rfl

theorem readOnly_get : ReadOnly view (get : Raise ε σ σ) := fun _ => rfl

theorem readOnly_check (r : Except ε α) : ReadOnly view (check r : Raise ε σ α) := fun _ => rfl

theorem returns_pure (a : α) : Returns (pure a : Raise ε σ α) := fun _ => ⟨a, rfl⟩

theorem returns_check_ok (a : α) : Returns (check (.ok a) : Raise ε σ α) := fun _ => ⟨a, rfl⟩

theorem returns_get : Returns (get : Raise ε σ σ) := fun s => ⟨s, rfl⟩

theorem returns_set (t : σ) : Returns (set t : Raise ε σ PUnit) := fun _ => ⟨⟨⟩, rfl⟩

theorem returns_modify (f : σ → σ) : Returns (modify f : Raise ε σ PUnit) := fun _ => ⟨⟨⟩, rfl⟩

theorem ReadOnly.bind {x : Raise ε σ α} {f : α → Raise ε σ β} (hx : ReadOnly view x)
    (hf : ∀ a, ReadOnly view (f a)) : ReadOnly view (x >>= f) := by
  intro s
  have hs := hx s
  rw [exec_bind]
  cases h : exec x s with
  | mk r t =>
      rw [h] at hs
      cases r with
      | error e => exact hs
      | ok a => exact (hf a t).trans hs

theorem Returns.bind {x : Raise ε σ α} {f : α → Raise ε σ β} (hx : Returns x)
    (hf : ∀ a, Returns (f a)) : Returns (x >>= f) := by
  intro s
  obtain ⟨a, ha⟩ := hx s
  rw [exec_bind]
  cases h : exec x s with
  | mk r t =>
      rw [h] at ha
      subst ha
      exact hf a t

/-- A check in front of a command. -/
theorem atomicAt_check_bind {r : Except ε α} {f : α → Raise ε σ β} {s : σ} :
    AtomicAt view (check r >>= f) s ↔ ∀ a, r = .ok a → AtomicAt view (f a) s := by
  rw [AtomicAt, exec_check_bind]
  cases r with
  | error e => exact iff_of_true (fun _ _ => rfl) (by simp)
  | ok a => exact ⟨fun h b hb => Except.ok.inj hb ▸ h, fun h => h a rfl⟩

/-- **Check first, write later**: a command that starts by reading and
checking is atomic if the rest is. -/
theorem ReadOnly.bind_atomic {x : Raise ε σ α} {f : α → Raise ε σ β} (hx : ReadOnly view x)
    (hf : ∀ a, Atomic view (f a)) : Atomic view (x >>= f) := by
  intro s e he
  have hs := hx s
  rw [exec_bind] at he ⊢
  cases h : exec x s with
  | mk r t =>
      rw [h] at he hs
      cases r with
      | error e' => exact hs
      | ok a => exact (hf a t e he).trans hs

/-- Nothing that follows an atomic command can break it, as long as it does
not raise. -/
theorem Atomic.bind_returns {x : Raise ε σ α} {f : α → Raise ε σ β} (hx : Atomic view x)
    (hf : ∀ a, Returns (f a)) : Atomic view (x >>= f) := by
  intro s e he
  rw [exec_bind] at he ⊢
  cases h : exec x s with
  | mk r t =>
      have hs := hx s
      rw [h] at he hs
      cases r with
      | error e' => exact hs e' rfl
      | ok a =>
          obtain ⟨b, hb⟩ := hf a t
          rw [hb] at he
          contradiction

end Raise

end SkynetJit
