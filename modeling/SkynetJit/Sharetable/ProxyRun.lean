import SkynetJit.Lib.Raise
import SkynetJit.Lib.Transition
import SkynetJit.Sharetable.Proxy

/-!
# SkynetJit.Sharetable.ProxyRun

A program that reads through a view, and the collector, as a transition
system.  The program indexes and traverses the proxies it holds, and holds
what it is given until it drops it; the collector takes proxies and functions
that are not held out of the weak tables, at any time.

`ProxyStep` is what one call can do to the proxies of a view, whatever the
document says and whether or not its functions can be unpacked.  From it
`run_record` follows: what a held proxy stands for never changes.
-/

namespace SkynetJit.Sharetable

variable {F : Type}

/-- One side of an entry. -/
inductive Side where
  | key
  | value

/-- The key or the value of an entry of a proxy's node. -/
def ViewState.descriptorAt (s : ViewState F) (object index : Nat) (side : Side) :
    Option (Desc F) := do
  let id ← s.record object
  let node ← s.document.nodes id
  let entry ← node.entries[index]?
  match side with
  | .key => return entry.1
  | .value => return entry.2

/-- A program with the view it reads through and the objects it holds. -/
structure Reader (F : Type) where
  view : ViewState F
  held : List (Value F)

/-- What can happen.  A call that raised may have decoded keys and values of
the object's node before; `leave` is what one of these leaves behind. -/
inductive ReadAction (F : Type) where
  | index (object : Nat) (key : Value F)
  | next (object : Nat) (key : Value F)
  | drop (value : Value F)
  | leave (object index : Nat) (side : Side)
  | collectProxy (id : Bytes)
  | collectFunction (id : Bytes)

namespace Reader

section Steps

variable [BEq F]

/-- The program holds a reference to the object. -/
def holds (r : Reader F) (value : Value F) : Bool := r.held.any fun v => v.rawEqual value

/-- One step: an action on an object needs a reference to it, and only an
object without one is collected.  A call that raises gives the program
nothing. -/
def step (env : Env F) (r : Reader F) : ReadAction F → Option (Reader F)
  | .index object key =>
    if r.holds (.table object) then
      match r.view.proxyIndex env object key with
      | .ok (value, view) => some { view, held := value :: r.held }
      | .error _ => some r
    else none
  | .next object key =>
    if r.holds (.table object) then
      match r.view.proxyNext env object key with
      | .ok (entry, view) => some { view, held := entry.1 :: entry.2 :: r.held }
      | .error _ => some r
    else none
  | .drop value => some { r with held := r.held.filter fun v => !v.rawEqual value }
  | .leave object index side =>
    if r.holds (.table object) then
      match r.view.descriptorAt object index side with
      | some d =>
        match r.view.decode env d with
        | .ok (_, view) => some { r with view }
        | .error _ => some r
      | none => none
    else none
  | .collectProxy id =>
    match r.view.proxies id with
    | some object =>
      if r.holds (.table object) then none else some { r with view := r.view.collectProxy id }
    | none => none
  | .collectFunction id =>
    match r.view.functions id with
    | some f => if r.holds (.func f) then none else some { r with view := r.view.collectFunction id }
    | none => none

end Steps

end Reader

/-! ## What a call does to the proxies -/

/-- `proxy_record` is the inverse of the cache, and proxies are tables of the
heap. -/
structure ProxyInv (s : ViewState F) : Prop where
  record_iff : ∀ id object, s.proxies id = some object ↔ s.record object = some id
  allocated : ∀ object id, s.record object = some id → object < s.heap.tables.length

/-- A call makes new proxies and leaves the others alone. -/
structure ProxyStep (s s' : ViewState F) : Prop where
  inv : ProxyInv s'
  document : s'.document = s.document
  length : s.heap.tables.length ≤ s'.heap.tables.length
  old : ∀ object < s.heap.tables.length, s'.record object = s.record object

namespace ProxyStep

variable {s s₁ s₂ : ViewState F}

theorem refl (inv : ProxyInv s) : ProxyStep s s := ⟨inv, rfl, Nat.le_refl _, fun _ _ => rfl⟩

theorem trans (hstep : ProxyStep s s₁) (hstep' : ProxyStep s₁ s₂) : ProxyStep s s₂ :=
  ⟨hstep'.inv, hstep'.document.trans hstep.document, Nat.le_trans hstep.length hstep'.length,
    fun o ho => (hstep'.old o (Nat.lt_of_lt_of_le ho hstep.length)).trans (hstep.old o ho)⟩

/-- Proxies stay in the cache. -/
theorem proxies (inv : ProxyInv s) (hstep : ProxyStep s s₁) {id : Bytes} {object : Nat}
    (hp : s.proxies id = some object) : s₁.proxies id = some object := by
  have hrec := (inv.record_iff id object).mp hp
  rw [hstep.inv.record_iff, hstep.old object (inv.allocated object id hrec)]
  exact hrec

end ProxyStep

/-- If the value is a table, it is a proxy of the view. -/
def Recorded (s : ViewState F) (value : Value F) : Prop :=
  ∀ object, value = .table object → ∃ id, s.record object = some id

theorem Recorded.of_step {s s' : ViewState F} {value : Value F} (h : Recorded s value)
    (inv : ProxyInv s) (hstep : ProxyStep s s') : Recorded s' value := by
  rintro object rfl
  obtain ⟨id, hrec⟩ := h object rfl
  exact ⟨id, (hstep.old object (inv.allocated object id hrec)).trans hrec⟩

/-- A view before anything was read. -/
def ViewState.unread (h : Heap F) (doc : Document F) : ViewState F :=
  { heap := h, document := doc, proxies := fun _ => none, functions := fun _ => none
    record := fun _ => none }

theorem ProxyInv.unread (h : Heap F) (doc : Document F) : ProxyInv (ViewState.unread h doc) := by
  constructor <;> simp [ViewState.unread]

/-- A cache and its inverse stay inverse when a new object takes a free
name. -/
theorem update_record_iff {proxies : Bytes → Option Nat} {record : Nat → Option Bytes}
    (hiff : ∀ id object, proxies id = some object ↔ record object = some id) {id : Bytes}
    {new : Nat} (hid : proxies id = none) (hnew : record new = none) (i : Bytes) (object : Nat) :
    Function.update proxies id (some new) i = some object ↔
      Function.update record new (some id) object = some i := by
  by_cases hi : i = id
  · subst hi
    rw [Function.update_self, Option.some.injEq]
    by_cases ho : object = new
    · subst ho
      simp
    · rw [Function.update_of_ne ho, ← hiff, hid]
      simp [Ne.symm ho]
  · rw [Function.update_of_ne hi]
    by_cases ho : object = new
    · subst ho
      rw [Function.update_self, hiff, hnew]
      simp [Ne.symm hi]
    · rw [Function.update_of_ne ho]
      exact hiff i object

/-- They stay inverse when a name and its object are taken out. -/
theorem erase_record_iff {proxies : Bytes → Option Nat} {record : Nat → Option Bytes}
    (hiff : ∀ id object, proxies id = some object ↔ record object = some id) {id : Bytes}
    {old : Nat} (hold : proxies id = some old) (i : Bytes) (object : Nat) :
    Function.update proxies id none i = some object ↔
      Function.update record old none object = some i := by
  by_cases hi : i = id
  · subst hi
    rw [Function.update_self]
    by_cases ho : object = old
    · subst ho
      simp
    · rw [Function.update_of_ne ho, ← hiff, hold]
      simp [Ne.symm ho]
  · rw [Function.update_of_ne hi, hiff]
    by_cases ho : object = old
    · subst ho
      rw [(hiff id object).mp hold, Function.update_self]
      simp [Ne.symm hi]
    · rw [Function.update_of_ne ho]

/-- A new proxy is a new table. -/
theorem proxyFor_step {s : ViewState F} (inv : ProxyInv s) (id : Bytes) :
    ProxyStep s (s.proxyFor id).2 ∧ (s.proxyFor id).2.record (s.proxyFor id).1 = some id := by
  rw [ViewState.proxyFor]
  cases hp : s.proxies id with
  | some object => exact ⟨ProxyStep.refl inv, (inv.record_iff id object).mp hp⟩
  | none =>
      have hfresh : s.record s.heap.tables.length = none := by
        cases hrec : s.record s.heap.tables.length with
        | none => rfl
        | some i => exact absurd (inv.allocated _ i hrec) (Nat.lt_irrefl _)
      dsimp only
      refine ⟨⟨⟨update_record_iff inv.record_iff hp hfresh, fun object i hi => ?_⟩, rfl, by simp,
        fun object ho => Function.update_of_ne (Nat.ne_of_lt ho) ..⟩, Function.update_self ..⟩
      simp only [List.length_append, List.length_singleton]
      by_cases ho : object = s.heap.tables.length
      · omega
      · have hold : s.record object = some i := (Function.update_of_ne ho ..).symm.trans hi
        have := inv.allocated object i hold
        omega

section Calls

variable [BEq F] {env : Env F} {s s' : ViewState F}

/-- Unpacking a function makes no table. -/
theorem unpackFunction_tables {h h' : Heap F} {code : FuncCode} {n : Nat}
    (hun : unpackFunction env h code = .ok (n, h')) : h'.tables = h.tables := by
  cases code with
  | c encoded =>
      rw [unpackFunction] at hun
      split at hun
      · exact congrArg (fun x => x.2.tables) (Except.ok.inj hun).symm
      · contradiction
  | ref reference =>
      rw [unpackFunction] at hun
      split at hun
      · exact congrArg (fun x => x.2.tables) (Except.ok.inj hun).symm
      · contradiction
  | lua dumped =>
      rw [unpackFunction] at hun
      split at hun
      · exact congrArg (fun x => x.2.tables) (Except.ok.inj hun).symm
      · contradiction

theorem decodeFunction_step (inv : ProxyInv s) {id : Bytes} {f : Nat}
    (hok : s.decodeFunction env id = .ok (f, s')) : ProxyStep s s' := by
  rw [ViewState.decodeFunction] at hok
  cases hf : s.functions id with
  | some g =>
      simp only [hf, Except.ok.injEq, Prod.mk.injEq] at hok
      exact hok.2 ▸ ProxyStep.refl inv
  | none =>
      cases hdef : s.document.functions id with
      | none => simp [hf, hdef] at hok
      | some definition =>
          simp only [hf, hdef] at hok
          obtain ⟨⟨g, heap⟩, hun, hok⟩ := Raise.except_bind_eq_ok.mp hok
          obtain ⟨-, rfl⟩ := Prod.mk.inj (Except.ok.inj hok)
          have htables := unpackFunction_tables hun
          refine ⟨⟨inv.record_iff, fun o i hi => ?_⟩, rfl, ?_, fun _ _ => rfl⟩
          · exact htables ▸ inv.allocated o i hi
          · exact Nat.le_of_eq (congrArg List.length htables.symm)

theorem decode_step (inv : ProxyInv s) {d : Desc F} {v : Value F}
    (hok : s.decode env d = .ok (v, s')) : ProxyStep s s' ∧ Recorded s' v := by
  cases d with
  | table id =>
      obtain ⟨rfl, rfl⟩ := Prod.mk.inj (Except.ok.inj hok)
      obtain ⟨hstep, hrec⟩ := proxyFor_step inv id
      refine ⟨hstep, fun object ho => ?_⟩
      obtain rfl := Value.table.inj ho
      exact ⟨id, hrec⟩
  | func id =>
      obtain ⟨⟨f, s₁⟩, hdec, hok⟩ := Raise.except_bind_eq_ok.mp hok
      obtain ⟨rfl, rfl⟩ := Prod.mk.inj (Except.ok.inj hok)
      exact ⟨decodeFunction_step inv hdec, fun object ho => by contradiction⟩
  | lightuserdata encoded =>
      rw [ViewState.decode] at hok
      split at hok
      · obtain ⟨rfl, rfl⟩ := Prod.mk.inj (Except.ok.inj hok)
        exact ⟨ProxyStep.refl inv, fun object ho => by contradiction⟩
      · contradiction
  | nil | number n | string b | boolean b =>
      obtain ⟨rfl, rfl⟩ := Prod.mk.inj (Except.ok.inj hok)
      exact ⟨ProxyStep.refl inv, fun object ho => by contradiction⟩

/-- A comparison may decode a function, and makes no proxy. -/
theorem descriptorMatches_step (inv : ProxyInv s) {d : Desc F} {key : Value F} {found : Bool}
    (hok : s.descriptorMatches env d key = .ok (found, s')) : ProxyStep s s' := by
  have hsame : ∀ {b : Bool}, Except.ok (ε := Fault) (b, s) = .ok (found, s') → ProxyStep s s' := by
    intro b heq
    obtain ⟨-, rfl⟩ := Prod.mk.inj (Except.ok.inj heq)
    exact ProxyStep.refl inv
  cases d with
  | func id =>
      cases key with
      | func g =>
          obtain ⟨⟨f, s₁⟩, hdec, hok⟩ := Raise.except_bind_eq_ok.mp hok
          obtain ⟨-, rfl⟩ := Prod.mk.inj (Except.ok.inj hok)
          exact decodeFunction_step inv hdec
      | _ => exact hsame hok
  | nil | lightuserdata encoded => exact hsame hok
  | _ => cases key <;> exact hsame hok

theorem findFrom_step {key : Value F} {entries : List (Desc F × Desc F)} {index : Nat}
    {found : Option ((Desc F × Desc F) × Nat)} (inv : ProxyInv s)
    (hok : ViewState.findFrom env key index entries s = .ok (found, s')) : ProxyStep s s' := by
  induction entries generalizing index s with
  | nil =>
      obtain ⟨-, rfl⟩ := Prod.mk.inj (Except.ok.inj hok)
      exact ProxyStep.refl inv
  | cons entry entries ih =>
      obtain ⟨⟨matched, s₁⟩, hmatch, hok⟩ := Raise.except_bind_eq_ok.mp hok
      have step₁ := descriptorMatches_step inv hmatch
      cases matched with
      | true =>
          obtain ⟨-, rfl⟩ := Prod.mk.inj (Except.ok.inj hok)
          exact step₁
      | false => exact step₁.trans (ih step₁.inv hok)

theorem findEntry_step {id : Bytes} {key : Value F} {found : Option ((Desc F × Desc F) × Nat)}
    (inv : ProxyInv s) (hok : s.findEntry env id key = .ok (found, s')) : ProxyStep s s' := by
  obtain ⟨node, -, hok⟩ := Raise.except_bind_eq_ok.mp hok
  exact findFrom_step inv hok

theorem proxyIndex_step {object : Nat} {key v : Value F} (inv : ProxyInv s)
    (hok : s.proxyIndex env object key = .ok (v, s')) : ProxyStep s s' ∧ Recorded s' v := by
  rw [ViewState.proxyIndex] at hok
  cases hrec : s.record object with
  | none => simp [hrec] at hok
  | some id =>
      simp only [hrec] at hok
      obtain ⟨⟨found, s₁⟩, hfind, hok⟩ := Raise.except_bind_eq_ok.mp hok
      have step₁ := findEntry_step inv hfind
      cases found with
      | none =>
          obtain ⟨rfl, rfl⟩ := Prod.mk.inj (Except.ok.inj hok)
          exact ⟨step₁, fun object ho => by contradiction⟩
      | some result =>
          obtain ⟨step₂, hv⟩ := decode_step step₁.inv hok
          exact ⟨step₁.trans step₂, hv⟩

theorem decodeEntry_step {entry : Option (Desc F × Desc F)} {shown : Value F × Value F}
    (inv : ProxyInv s) (hok : s.decodeEntry env entry = .ok (shown, s')) :
    ProxyStep s s' ∧ Recorded s' shown.1 ∧ Recorded s' shown.2 := by
  cases entry with
  | none =>
      obtain ⟨rfl, rfl⟩ := Prod.mk.inj (Except.ok.inj hok)
      exact ⟨ProxyStep.refl inv, fun object ho => by contradiction, fun object ho => by contradiction⟩
  | some entry =>
      obtain ⟨⟨k, s₁⟩, hk, hok⟩ := Raise.except_bind_eq_ok.mp hok
      obtain ⟨⟨v, s₂⟩, hv, hok⟩ := Raise.except_bind_eq_ok.mp hok
      obtain ⟨rfl, rfl⟩ := Prod.mk.inj (Except.ok.inj hok)
      obtain ⟨step₁, hkey⟩ := decode_step inv hk
      obtain ⟨step₂, hvalue⟩ := decode_step step₁.inv hv
      exact ⟨step₁.trans step₂, hkey.of_step step₁.inv step₂, hvalue⟩

theorem proxyNext_step {object : Nat} {key : Value F} {shown : Value F × Value F}
    (inv : ProxyInv s) (hok : s.proxyNext env object key = .ok (shown, s')) :
    ProxyStep s s' ∧ Recorded s' shown.1 ∧ Recorded s' shown.2 := by
  rw [ViewState.proxyNext] at hok
  cases hrec : s.record object with
  | none => simp [hrec] at hok
  | some id =>
      simp only [hrec] at hok
      obtain ⟨node, -, hok⟩ := Raise.except_bind_eq_ok.mp hok
      cases key with
      | nil => exact decodeEntry_step inv hok
      | _ =>
          obtain ⟨⟨found, s₁⟩, hfind, hok⟩ := Raise.except_bind_eq_ok.mp hok
          have step₁ := findEntry_step inv hfind
          cases found with
          | none => contradiction
          | some result =>
              obtain ⟨step₂, hshown⟩ := decodeEntry_step step₁.inv hok
              exact ⟨step₁.trans step₂, hshown⟩

end Calls

/-! ## Runs -/

/-- No object comes to stand for another table. -/
structure Follows (s s' : ViewState F) : Prop where
  document : s'.document = s.document
  length : s.heap.tables.length ≤ s'.heap.tables.length
  old : ∀ object < s.heap.tables.length, ∀ id, s'.record object = some id →
    s.record object = some id

namespace Follows

variable {s s₁ s₂ : ViewState F}

theorem refl (s : ViewState F) : Follows s s := ⟨rfl, Nat.le_refl _, fun _ _ _ hi => hi⟩

theorem trans (h : Follows s s₁) (h' : Follows s₁ s₂) : Follows s s₂ :=
  ⟨h'.document.trans h.document, Nat.le_trans h.length h'.length, fun o ho id hi =>
    h.old o ho id (h'.old o (Nat.lt_of_lt_of_le ho h.length) id hi)⟩

theorem of_step (hstep : ProxyStep s s₁) : Follows s s₁ :=
  ⟨hstep.document, hstep.length, fun o ho _ hi => (hstep.old o ho).symm.trans hi⟩

theorem collectProxy (s : ViewState F) (id : Bytes) : Follows s (s.collectProxy id) := by
  rw [ViewState.collectProxy]
  cases hp : s.proxies id with
  | none => exact refl s
  | some object =>
      refine ⟨rfl, Nat.le_refl _, fun o _ i hi => ?_⟩
      by_cases ho : o = object
      · subst ho
        simp at hi
      · exact (Function.update_of_ne ho ..).symm.trans hi

end Follows

namespace Reader

variable {r r₁ : Reader F}

variable [BEq F] {env : Env F}

theorem eq_table_of_rawEqual {v : Value F} {object : Nat}
    (h : v.rawEqual (.table object) = true) : v = .table object := by
  cases v <;> simp_all [Value.rawEqual]

theorem holds_table {object : Nat} : r.holds (.table object) = true ↔ .table object ∈ r.held := by
  rw [holds, List.any_eq_true]
  constructor
  · rintro ⟨v, hv, heq⟩
    exact eq_table_of_rawEqual heq ▸ hv
  · exact fun hv => ⟨_, hv, beq_self_eq_true object⟩

/-- The proxies the program holds are proxies of the view. -/
structure Inv (r : Reader F) : Prop where
  proxies : ProxyInv r.view
  recorded : ∀ v ∈ r.held, Recorded r.view v

omit [BEq F] in
/-- A call that gives the program values keeps the invariant. -/
theorem Inv.of_step (inv : Inv r) {view : ViewState F} (given : List (Value F))
    (hstep : ProxyStep r.view view) (hgiven : ∀ v ∈ given, Recorded view v) :
    Inv { view, held := given ++ r.held } := by
  refine ⟨hstep.inv, fun v hv => ?_⟩
  obtain hv | hv := List.mem_append.mp hv
  · exact hgiven v hv
  · exact (inv.recorded v hv).of_step inv.proxies hstep

omit [BEq F] in
/-- The collector takes a proxy that is not held. -/
theorem Inv.collectProxy (inv : Inv r) {id : Bytes} {object : Nat}
    (hp : r.view.proxies id = some object) (hheld : .table object ∉ r.held) :
    Inv { r with view := r.view.collectProxy id } := by
  simp only [ViewState.collectProxy, hp]
  refine ⟨⟨erase_record_iff inv.proxies.record_iff hp, fun o i hi => ?_⟩, fun v hv o ho => ?_⟩
  · by_cases ho : o = object
    · subst ho
      simp at hi
    · exact inv.proxies.allocated o i ((Function.update_of_ne ho ..).symm.trans hi)
  · obtain ⟨i, hi⟩ := inv.recorded v hv o ho
    have hne : o ≠ object := by
      rintro rfl
      exact hheld (ho ▸ hv)
    exact ⟨i, (Function.update_of_ne hne ..).trans hi⟩

/-- One step keeps the invariant, and no object comes to stand for another
table. -/
theorem step_follows (inv : Inv r) {a : ReadAction F} (hstep : step env r a = some r₁) :
    Inv r₁ ∧ Follows r.view r₁.view := by
  cases a with
  | index object key =>
      rw [step] at hstep
      split at hstep
      · cases hok : r.view.proxyIndex env object key with
        | error e =>
            simp only [hok, Option.some.injEq] at hstep
            exact hstep ▸ ⟨inv, Follows.refl r.view⟩
        | ok result =>
            simp only [hok, Option.some.injEq] at hstep
            obtain ⟨hproxy, hv⟩ := proxyIndex_step inv.proxies hok
            subst hstep
            exact ⟨inv.of_step [result.1] hproxy (by simpa using hv),
              Follows.of_step hproxy⟩
      · contradiction
  | next object key =>
      rw [step] at hstep
      split at hstep
      · cases hok : r.view.proxyNext env object key with
        | error e =>
            simp only [hok, Option.some.injEq] at hstep
            exact hstep ▸ ⟨inv, Follows.refl r.view⟩
        | ok result =>
            simp only [hok, Option.some.injEq] at hstep
            obtain ⟨hproxy, hk, hv⟩ := proxyNext_step inv.proxies hok
            subst hstep
            exact ⟨inv.of_step [result.1.1, result.1.2] hproxy (by simpa using ⟨hk, hv⟩),
              Follows.of_step hproxy⟩
      · contradiction
  | drop value =>
      obtain rfl := Option.some.inj hstep
      exact ⟨⟨inv.proxies, fun v hv => inv.recorded v (List.mem_filter.mp hv).1⟩, Follows.refl r.view⟩
  | leave object index side =>
      rw [step] at hstep
      split at hstep
      · cases hd : r.view.descriptorAt object index side with
        | none => simp [hd] at hstep
        | some d =>
            cases hok : r.view.decode env d with
            | error e =>
                simp only [hd, hok, Option.some.injEq] at hstep
                exact hstep ▸ ⟨inv, Follows.refl r.view⟩
            | ok result =>
                simp only [hd, hok, Option.some.injEq] at hstep
                have hproxy := (decode_step inv.proxies hok).1
                subst hstep
                exact ⟨inv.of_step [] hproxy (by simp), Follows.of_step hproxy⟩
      · contradiction
  | collectProxy id =>
      rw [step] at hstep
      cases hp : r.view.proxies id with
      | none => simp [hp] at hstep
      | some object =>
          simp only [hp] at hstep
          split at hstep
          · contradiction
          · rename_i hheld
            obtain rfl := Option.some.inj hstep
            exact ⟨inv.collectProxy hp fun hv => hheld (holds_table.mpr hv),
              Follows.collectProxy r.view id⟩
  | collectFunction id =>
      rw [step] at hstep
      cases hf : r.view.functions id with
      | none => simp [hf] at hstep
      | some f =>
          simp only [hf] at hstep
          split at hstep
          · contradiction
          · obtain rfl := Option.some.inj hstep
            exact ⟨⟨⟨inv.proxies.record_iff, inv.proxies.allocated⟩, inv.recorded⟩,
              rfl, Nat.le_refl _, fun _ _ _ hi => hi⟩

theorem run_follows (inv : Inv r) {actions : List (ReadAction F)}
    (hrun : Transition.run (step env) r actions = some r₁) : Inv r₁ ∧ Follows r.view r₁.view := by
  have hkeeps : ∀ s a s', Inv s ∧ Follows r.view s.view → step env s a = some s' →
      Inv s' ∧ Follows r.view s'.view := by
    intro s a s' hs hstep
    obtain ⟨inv', hfollows⟩ := step_follows hs.1 hstep
    exact ⟨inv', hs.2.trans hfollows⟩
  exact Transition.run_invariant hkeeps ⟨inv, Follows.refl r.view⟩ hrun

/-- **A proxy that is held keeps its table** along every run. -/
theorem run_record (inv : Inv r) {actions : List (ReadAction F)}
    (hrun : Transition.run (step env) r actions = some r₁) {object : Nat} {id : Bytes}
    (hrec : r.view.record object = some id) (hheld : r₁.holds (.table object)) :
    r₁.view.record object = some id := by
  obtain ⟨inv₁, hfollows⟩ := run_follows inv hrun
  obtain ⟨i, hi⟩ := inv₁.recorded _ (holds_table.mp hheld) object rfl
  have := hfollows.old object (inv.proxies.allocated object id hrec) i hi
  rw [hi, ← this, hrec]

end Reader

end SkynetJit.Sharetable
