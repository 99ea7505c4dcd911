import SkynetJit.Sharetable.Protocol
import Mathlib.Data.List.Perm.Basic
import Mathlib.Tactic.SplitIfs

/-!
# SkynetJit.Sharetable.RefCount

Reference counting in the sharetable protocol.  An object is *owed* one
reference for every name it is current for, every answer in flight that
carries it, every confirm in flight for it, and every live box on it.  The
*slack* of an object is its count minus what it is owed.  Every operation of
the host and of the clients is given one equation for the slack; from these,

* no step lowers a slack, so an object that is owed anything is never deleted
  (`owned_object_alive`);
* a step raises a slack only where a `queryall` lists an installed name more
  than once, so in runs without such requests the counts balance exactly
  (`counts_balance_of_distinct_names`).
-/

namespace SkynetJit.Sharetable

variable {Name F : Type}

/-! ## What an object is owed -/

/-- How often an answer carries an object. -/
def Answer.refs (o : Obj) : Answer Name → Nat
  | .object _ (some pointer) _ => if pointer = o then 1 else 0
  | .objects pointers => pointers.countP fun e => e.2 = o
  | _ => 0

/-- How often a message confirms an object. -/
def Request.confirms (o : Obj) : Request Name F → Nat
  | .confirm object => if object = o then 1 else 0
  | _ => 0

namespace World

/-- The references an object is owed. -/
def owed (w : World Name F) (o : Obj) : Nat :=
  w.files.countP (fun e => e.2 = o) + (w.queue.map fun m => m.2.confirms o).sum +
    (w.replies.map fun m => m.2.refs o).sum + w.boxes.countP fun b => b.object = o

/-- The count of an object less what it is owed. -/
def slack (w : World Name F) (o : Obj) : Int := w.getref o - w.owed o

/-- One reference on `p`, seen from `o`. -/
def ind (p o : Obj) : Int := if p = o then 1 else 0

theorem ind_nonneg (p o : Obj) : 0 ≤ ind p o := by
  rw [ind]
  split_ifs <;> omega

/-- One more entry of a list in which the entries for `o` are counted. -/
theorem countP_cons_ind {α : Type} {object : α → Obj} {e : α} {p : Obj} (h : object e = p) (l : List α)
    (o : Obj) :
    (((e :: l).countP fun e => object e = o : Nat) : Int) =
      (l.countP fun e => object e = o : Nat) + ind p o := by
  rw [List.countP_cons, ind, h]
  simp only [decide_eq_true_eq]
  split_ifs <;> omega

/-! ## One equation for each operation of the core -/

theorem getref_of_heap_none {w : World Name F} {o : Obj} (h : w.heap o = none) :
    w.getref o = 0 := by
  rw [getref, h]

theorem getref_congr {w w' : World Name F} {o : Obj} (h : w'.heap o = w.heap o) :
    w'.getref o = w.getref o := by
  rw [getref, getref, h]

theorem getref_incref {w : World Name F} {p : Obj} (hp : (w.heap p).isSome) (o : Obj) :
    (w.incref p).getref o = w.getref o + ind p o := by
  obtain ⟨cell, hcell⟩ := Option.isSome_iff_exists.mp hp
  by_cases h : p = o
  · subst h
    simp [getref, incref, modifyCell, hcell, ind]
  · simp [getref, incref, modifyCell, ind, h, Function.update_of_ne (Ne.symm h)]

theorem getref_decref {w : World Name F} {p : Obj} (hp : (w.heap p).isSome) (o : Obj) :
    (w.decref p).getref o = w.getref o - ind p o := by
  obtain ⟨cell, hcell⟩ := Option.isSome_iff_exists.mp hp
  by_cases h : p = o
  · subst h
    simp [getref, decref, modifyCell, hcell, ind]
  · simp [getref, decref, modifyCell, ind, h, Function.update_of_ne (Ne.symm h)]

theorem getref_markdirty (w : World Name F) (p o : Obj) :
    (w.markdirty p).getref o = w.getref o := by
  by_cases h : p = o
  · subst h
    cases hcell : w.heap p <;> simp [getref, markdirty, modifyCell, hcell]
  · simp [getref, markdirty, modifyCell, Function.update_of_ne (Ne.symm h)]

/-- Changing a cell allocates and frees nothing. -/
@[simp] theorem isSome_heap_modifyCell (w : World Name F) (p : Obj) (f : Cell F → Cell F)
    (o : Obj) : ((w.modifyCell p f).heap o).isSome = (w.heap o).isSome := by
  by_cases h : o = p
  · subst h
    simp [modifyCell]
  · simp [modifyCell, Function.update_of_ne h]

@[simp] theorem isSome_heap_incref (w : World Name F) (p o : Obj) :
    ((w.incref p).heap o).isSome = (w.heap o).isSome :=
  isSome_heap_modifyCell w p _ o

/-- A count above zero belongs to an allocated object. -/
theorem isSome_of_getref_pos {w : World Name F} {o : Obj} (h : 0 < w.getref o) :
    (w.heap o).isSome := by
  cases hcell : w.heap o with
  | none => simp [getref, hcell] at h
  | some cell => rfl

/-! ## What clients leave alone -/

/-- The host's tables and the allocation of objects are as they were. -/
structure Frame (w w' : World Name F) : Prop where
  files : w'.files = w.files
  retired : w'.retired = w.retired
  alive : ∀ o, (w'.heap o).isSome = (w.heap o).isSome

namespace Frame

theorem refl (w : World Name F) : Frame w w := ⟨rfl, rfl, fun _ => rfl⟩

theorem trans {w₁ w₂ w₃ : World Name F} (h₁ : Frame w₁ w₂) (h₂ : Frame w₂ w₃) : Frame w₁ w₃ :=
  ⟨h₂.files.trans h₁.files, h₂.retired.trans h₁.retired,
    fun o => (h₂.alive o).trans (h₁.alive o)⟩

theorem newBox (w : World Name F) (c : Nat) (p : Obj) : Frame w (w.newBox c p).2 :=
  ⟨rfl, rfl, isSome_heap_incref w p⟩

theorem proxyFor (w : World Name F) (c view : Nat) (table : Bytes) :
    Frame w (w.proxyFor c view table).2 := by
  rw [World.proxyFor]
  split <;> exact ⟨rfl, rfl, fun _ => rfl⟩

theorem newView (w : World Name F) (c : Nat) (name : Name) (p : Obj) :
    Frame w (w.newView c name p).2.2 := by
  have hbox := Frame.newBox w c p
  refine (hbox.trans ?_).trans (Frame.proxyFor _ _ _ _)
  exact ⟨rfl, rfl, fun _ => rfl⟩

theorem incref (w : World Name F) (p : Obj) : Frame w (w.incref p) :=
  ⟨rfl, rfl, isSome_heap_incref w p⟩

theorem updateViews (c : Nat) (p : Obj) (roots : List (Name × Nat × Nat)) (w : World Name F) :
    Frame w (w.updateViews c p roots) := by
  induction roots generalizing w with
  | nil => exact refl w
  | cons root roots ih =>
      obtain ⟨_, _, view⟩ := root
      rw [World.updateViews]
      cases (w.clients c).views view with
      | none => exact ih w
      | some v =>
          simp only
          split
          · exact ih w
          · refine Frame.trans ?_ (ih _)
            exact (newBox w c p).trans ⟨rfl, rfl, fun _ => rfl⟩

variable [DecidableEq Name]

theorem box (w : World Name F) (c : Nat) (name : Name) (p : Obj) : Frame w (w.box c name p) := by
  have hfresh : Frame w (((w.newView c name p).2.2.remember c name (w.newView c name p).1
      (w.newView c name p).2.1 p).hold c (w.newView c name p).1) :=
    (Frame.newView w c name p).trans ⟨rfl, rfl, fun _ => rfl⟩
  rw [World.box]
  split
  · split
    · exact ⟨rfl, rfl, fun _ => rfl⟩
    · exact hfresh
  · exact hfresh

theorem boxes (c : Nat) (pointers : List (Name × Obj)) (w : World Name F) :
    Frame w (pointers.foldl (fun w e => w.box c e.1 e.2) w) := by
  induction pointers generalizing w with
  | nil => exact refl w
  | cons e pointers ih => exact (box w c e.1 e.2).trans (ih _)

theorem queryNames (names : List Name) (result : List (Name × Obj)) (w : World Name F) :
    Frame w (w.queryNames names result).2 := by
  induction names generalizing w result with
  | nil => exact refl w
  | cons name names ih =>
      rw [World.queryNames]
      cases w.files.lookup name with
      | none => exact ih result w
      | some object => exact (incref w object).trans (ih _ _)

theorem startUpdate (c : Nat) (names : List Name) (w : World Name F) :
    Frame w (w.startUpdate c names) := by
  induction names with
  | nil => exact refl w
  | cons name rest ih =>
      rw [World.startUpdate]
      split
      · exact ⟨rfl, rfl, fun _ => rfl⟩
      · exact ih

theorem startCall (w : World Name F) (c : Nat) (op : Call Name F) :
    Frame w (w.startCall c op) := by
  cases op with
  | update names => exact startUpdate c names w
  | _ => exact ⟨rfl, rfl, fun _ => rfl⟩

theorem resume (w : World Name F) (c : Nat) (a : Answer Name) : Frame w (w.resume c a) := by
  cases a with
  | loaded => exact refl w
  | failed => exact refl w
  | object name pointer k =>
      cases pointer with
      | none =>
          cases k with
          | box => exact refl w
          | update rest => exact startUpdate c rest w
      | some p =>
          cases k with
          | box => exact box w c name p
          | update rest =>
              refine Frame.trans ?_ (startUpdate c rest _)
              exact (updateViews c p _ w).trans ⟨rfl, rfl, fun _ => rfl⟩
  | objects pointers => exact boxes c pointers w

end Frame

/-! ## One equation for each operation of a client -/

theorem slack_send_confirm (w : World Name F) (c : Nat) (p o : Obj) :
    (w.send c (.confirm p)).slack o = w.slack o - ind p o := by
  simp only [slack, owed, getref, send, List.map_append, List.sum_append, List.map_cons,
    List.map_nil, List.sum_cons, List.sum_nil, Request.confirms, ind]
  split_ifs <;> omega

/-- A message that confirms nothing is owed nothing. -/
theorem slack_send {w : World Name F} {c : Nat} {request : Request Name F} {o : Obj}
    (h : request.confirms o = 0) : (w.send c request).slack o = w.slack o := by
  simp only [slack, owed, getref, send, List.map_append, List.sum_append, List.map_cons,
    List.map_nil, List.sum_cons, List.sum_nil, h]
  omega

theorem slack_incref {w : World Name F} {p : Obj} (hp : (w.heap p).isSome) (o : Obj) :
    (w.incref p).slack o = w.slack o + ind p o := by
  rw [slack, slack, getref_incref hp]
  show _ - (w.owed o : Int) = _
  omega

theorem slack_newBox {w : World Name F} {p : Obj} (hp : (w.heap p).isSome) (c : Nat) (o : Obj) :
    (w.newBox c p).2.slack o = w.slack o := by
  have href : (w.newBox c p).2.getref o = w.getref o + ind p o := getref_incref hp o
  have howed : ((w.newBox c p).2.owed o : Int) = w.owed o + ind p o := by
    simp only [owed, newBox, List.countP_cons, ind, incref, modifyCell]
    by_cases h : p = o
    · simp [h]
      omega
    · simp [h]
  rw [slack, slack, href, howed]
  omega

@[simp] theorem slack_setClient (w : World Name F) (c : Nat) (client : Client Name) (o : Obj) :
    (w.setClient c client).slack o = w.slack o := rfl

@[simp] theorem slack_hold (w : World Name F) (c p : Nat) (o : Obj) :
    (w.hold c p).slack o = w.slack o := rfl

@[simp] theorem slack_proxyFor (w : World Name F) (c view : Nat) (table : Bytes) (o : Obj) :
    (w.proxyFor c view table).2.slack o = w.slack o := by
  rw [proxyFor]
  split <;> rfl

theorem slack_newView {w : World Name F} {p : Obj} (hp : (w.heap p).isSome) (c : Nat)
    (name : Name) (o : Obj) : (w.newView c name p).2.2.slack o = w.slack o := by
  simp only [newView, slack_proxyFor]
  exact slack_newBox hp c o

/-- The update loop boxes an object once for every view it changes. -/
theorem slack_updateViews (c : Nat) {p : Obj} (o : Obj) :
    ∀ (roots : List (Name × Nat × Nat)) (w : World Name F), (w.heap p).isSome →
      (w.updateViews c p roots).slack o = w.slack o := by
  intro roots
  induction roots with
  | nil => intro w _; rfl
  | cons root roots ih =>
      intro w hp
      obtain ⟨_, _, view⟩ := root
      rw [updateViews]
      cases hv : (w.clients c).views view with
      | none => exact ih w hp
      | some v =>
          simp only
          split
          · exact ih w hp
          · have halive : ((w.newBox c p).2.heap p).isSome := (isSome_heap_incref w p p).trans hp
            refine (ih _ ?_).trans ?_
            · exact halive
            · exact slack_newBox hp c o

section Clients

variable [DecidableEq Name]

/-- `box` on an allocated object: whatever it makes, it leaves one confirm
for the reference of the answer. -/
theorem slack_box {w : World Name F} {p : Obj} (hp : (w.heap p).isSome) (c : Nat) (name : Name)
    (o : Obj) : (w.box c name p).slack o = w.slack o - ind p o := by
  have hfresh : ((w.newView c name p).2.2.remember c name (w.newView c name p).1
      (w.newView c name p).2.1 p).slack o = w.slack o - ind p o := by
    rw [remember, slack_send_confirm, slack_setClient, slack_newView hp]
  simp only [box]
  split
  · split
    · rw [slack_hold, slack_send_confirm]
    · rw [slack_hold, hfresh]
  · rw [slack_hold, hfresh]

/-- Boxing the objects of a `queryall` answer one after the other. -/
theorem slack_boxes (c : Nat) (o : Obj) :
    ∀ (pointers : List (Name × Obj)) (w : World Name F),
      (∀ e ∈ pointers, (w.heap e.2).isSome) →
      (pointers.foldl (fun w e => w.box c e.1 e.2) w).slack o =
        w.slack o - pointers.countP fun e => e.2 = o := by
  intro pointers
  induction pointers with
  | nil => intro w _; simp
  | cons e pointers ih =>
      intro w halive
      have hrest : ∀ e' ∈ pointers, ((w.box c e.1 e.2).heap e'.2).isSome := fun e' he' => by
        rw [(Frame.box w c e.1 e.2).alive]
        exact halive e' (by simp [he'])
      rw [List.foldl_cons, ih _ hrest, slack_box (halive e (by simp)), List.countP_cons, ind]
      by_cases h : e.2 = o
      · simp [h]
        omega
      · simp [h]

theorem slack_startUpdate (c : Nat) (o : Obj) (names : List Name) (w : World Name F) :
    (w.startUpdate c names).slack o = w.slack o := by
  induction names with
  | nil => rfl
  | cons name rest ih =>
      rw [startUpdate]
      split
      · exact slack_send rfl
      · exact ih

theorem slack_startCall (w : World Name F) (c : Nat) (op : Call Name F) (o : Obj) :
    (w.startCall c op).slack o = w.slack o := by
  cases op with
  | load name document => exact slack_send rfl
  | query name => exact slack_send rfl
  | queryall names => exact slack_send rfl
  | update names => exact slack_startUpdate c o names w

/-- Resuming with an answer uses up the references the answer carries. -/
theorem slack_resume {w : World Name F} (c : Nat) {a : Answer Name} (o : Obj)
    (halive : ∀ p, 0 < a.refs p → (w.heap p).isSome) :
    (w.resume c a).slack o = w.slack o - a.refs o := by
  cases a with
  | loaded => simp [resume, Answer.refs]
  | failed => simp [resume, Answer.refs]
  | object name pointer k =>
      cases pointer with
      | none =>
          cases k with
          | box => simp [resume, Answer.refs]
          | update rest => simp [resume, Answer.refs, slack_startUpdate]
      | some p =>
          have hp : (w.heap p).isSome := halive p (by simp [Answer.refs])
          have hrefs : ((Answer.object name (some p) k).refs o : Int) = ind p o := by
            simp only [Answer.refs, ind]
            split_ifs <;> rfl
          cases k with
          | box => rw [resume, slack_box hp, hrefs]
          | update rest =>
              rw [resume, slack_startUpdate, slack_send_confirm, slack_updateViews c o _ w hp, hrefs]
  | objects pointers =>
      refine slack_boxes c o pointers w fun e he => halive e.2 ?_
      simp only [Answer.refs, List.countP_pos_iff]
      exact ⟨e, he, by simp⟩

end Clients

/-! ## One equation for each operation of the host -/

/-- The sweep in one piece: the retired objects whose count is not positive
are deleted and forgotten. -/
theorem collectRetired_eq (w : World Name F) : w.collectRetired =
    { w with
      retired := w.retired.filter fun o => 0 < w.getref o
      heap := fun o => if o ∈ w.retired ∧ w.getref o ≤ 0 then none else w.heap o } := by
  have hfold : ∀ retired : List Obj,
      retired.foldr (fun o w => if w.getref o ≤ 0 then w.delete o
        else { w with retired := o :: w.retired }) { w with retired := [] } =
      { w with
        retired := retired.filter fun o => 0 < w.getref o
        heap := fun o => if o ∈ retired ∧ w.getref o ≤ 0 then none else w.heap o } := by
    intro retired
    induction retired with
    | nil => simp
    | cons r retired ih =>
        rw [List.foldr_cons, ih]
        have hread : getref { w with
            retired := retired.filter fun o => 0 < w.getref o
            heap := fun o => if o ∈ retired ∧ w.getref o ≤ 0 then none else w.heap o } r ≤ 0 ↔
            w.getref r ≤ 0 := by
          by_cases h : r ∈ retired ∧ w.getref r ≤ 0
          · rw [getref_of_heap_none (if_pos h)]
            exact ⟨fun _ => h.2, fun _ => Int.le_refl 0⟩
          · rw [getref_congr (if_neg h)]
        by_cases hr : w.getref r ≤ 0
        · rw [if_pos (hread.mpr hr), List.filter_cons_of_neg (by simpa using hr), delete]
          congr 1
          funext o
          by_cases ho : o = r
          · subst ho
            simp [hr]
          · simp [ho]
        · rw [if_neg (fun h => hr (hread.mp h)),
            List.filter_cons_of_pos (by simpa using hr)]
          congr 1
          funext o
          by_cases ho : o = r
          · subst ho
            simp [hr]
          · simp [ho]
  exact hfold w.retired

/-- When no count is negative the sweep deletes only objects whose count is
zero, so no count changes. -/
theorem getref_collectRetired {w : World Name F} (hpos : ∀ o, 0 ≤ w.getref o) (o : Obj) :
    w.collectRetired.getref o = w.getref o := by
  rw [collectRetired_eq]
  by_cases h : o ∈ w.retired ∧ w.getref o ≤ 0
  · rw [getref_of_heap_none (if_pos h)]
    exact Int.le_antisymm (hpos o) h.2
  · exact getref_congr (if_neg h)

theorem slack_collectRetired {w : World Name F} (hpos : ∀ o, 0 ≤ w.slack o) (o : Obj) :
    w.collectRetired.slack o = w.slack o := by
  have href : ∀ o, 0 ≤ w.getref o := fun o => by
    have := hpos o
    rw [slack] at this
    omega
  have howed : w.collectRetired.owed o = w.owed o := by
    rw [collectRetired_eq]
    rfl
  rw [slack, slack, howed, getref_collectRetired href]

theorem slack_answer (w : World Name F) (c : Nat) (a : Answer Name) (o : Obj) :
    (w.answer c a).slack o = w.slack o - a.refs o := by
  simp only [slack, owed, getref, answer, List.map_append, List.sum_append, List.map_cons,
    List.map_nil, List.sum_cons, List.sum_nil]
  omega

/-- The current object of a name is allocated. -/
theorem isSome_of_mem_files {w : World Name F} (hpos : ∀ o, 0 ≤ w.slack o) {name : Name}
    {object : Obj} (h : (name, object) ∈ w.files) : (w.heap object).isSome := by
  have hcount : 0 < w.files.countP fun e => e.2 = object :=
    List.countP_pos_iff.mpr ⟨_, h, by simp⟩
  have := hpos object
  rw [slack, owed] at this
  exact isSome_of_getref_pos (by omega)

section Host

variable [DecidableEq Name]

/-- A name that is found is in the list. -/
theorem mem_of_lookup {files : List (Name × Obj)} {name : Name} {object : Obj}
    (h : files.lookup name = some object) : (name, object) ∈ files := by
  induction files with
  | nil => simp at h
  | cons e files ih =>
      rw [List.lookup_cons] at h
      split at h
      · rename_i heq
        obtain rfl := Option.some.inj h
        obtain rfl : name = e.1 := by simpa using heq
        exact List.mem_cons_self
      · exact List.mem_cons_of_mem _ (ih h)

/-- A name is dropped: its entry goes, the others stay. -/
theorem perm_filter_name {files : List (Name × Obj)} (hnd : (files.map Prod.fst).Nodup)
    {name : Name} {object : Obj} (h : files.lookup name = some object) :
    files.Perm ((name, object) :: files.filter fun e => e.1 ≠ name) := by
  induction files with
  | nil => simp at h
  | cons e files ih =>
      obtain ⟨n, p⟩ := e
      rw [List.map_cons, List.nodup_cons] at hnd
      by_cases hn : n = name
      · subst hn
        have hnone : ∀ e ∈ files, e.1 ≠ n := fun e he heq =>
          hnd.1 (List.mem_map.mpr ⟨e, he, heq⟩)
        have hfilter : (files.filter fun e => !decide (e.1 = n)) = files := by
          rw [List.filter_eq_self]
          simpa using hnone
        obtain rfl : p = object := by simpa using h
        simp [hfilter]
      · have hbeq : (name == n) = false := by simpa using Ne.symm hn
        rw [List.lookup_cons, hbeq] at h
        rw [List.filter_cons_of_pos (by simpa using hn)]
        exact ((ih hnd.2 h).cons _).trans (List.Perm.swap _ _ _)

/-- Dropping the entry of a name lowers the count of the object it held. -/
theorem countP_filter_name {files : List (Name × Obj)} (hnd : (files.map Prod.fst).Nodup)
    (name : Name) (o : Obj) :
    (((files.filter fun e => e.1 ≠ name).countP fun e => e.2 = o : Nat) : Int) +
      ((files.lookup name).map (ind · o)).getD 0 = (files.countP fun e => e.2 = o : Nat) := by
  cases h : files.lookup name with
  | some object =>
      rw [(perm_filter_name hnd h).countP_eq, countP_cons_ind rfl]
      rfl
  | none =>
      have hnone : ∀ e ∈ files, e.1 ≠ name := by
        intro e he heq
        have := List.lookup_eq_none_iff.mp h e he
        simp [heq] at this
      have hfilter : (files.filter fun e => e.1 ≠ name) = files := by
        rw [List.filter_eq_self]
        simpa using hnone
      rw [hfilter]
      exact Int.add_zero _

/-- A new object gets the reference of the name, the old one gives its
back. -/
theorem slack_supersede {w : World Name F} (hpos : ∀ o, 0 ≤ w.slack o)
    (hnd : (w.files.map Prod.fst).Nodup) {fresh : Obj} (hfresh : w.heap fresh = none)
    (name : Name) (document : SharedDocument F) (o : Obj) :
    (w.supersede fresh name document).slack o = w.slack o := by
  -- a new cell with a count of zero changes no count
  let w₁ : World Name F :=
    { w with heap := Function.update w.heap fresh (some ⟨0, false, document⟩) }
  have hnew : ∀ p, w₁.getref p = w.getref p := by
    intro p
    by_cases h : p = fresh
    · subst h
      simp [w₁, getref, hfresh]
    · exact getref_congr (Function.update_of_ne h ..)
  have hfreshAlive : (w₁.heap fresh).isSome := by simp [w₁]
  have hcount := countP_filter_name hnd name o
  cases hold : w.files.lookup name with
  | none =>
      have href : (w.supersede fresh name document).getref o = w.getref o + ind fresh o := by
        rw [supersede, hold, ← hnew]
        exact getref_incref hfreshAlive o
      have howed : ((w.supersede fresh name document).owed o : Int) = w.owed o + ind fresh o := by
        rw [hold] at hcount
        have hfiles := countP_cons_ind (show Prod.snd (name, fresh) = fresh from rfl)
          (w.files.filter fun e => e.1 ≠ name) o
        simp only [Option.map_none, Option.getD_none] at hcount
        simp only [supersede, hold, owed, incref, modifyCell]
        omega
      rw [slack, slack, href, howed]
      omega
  | some old =>
      have holdAlive : (w.heap old).isSome := isSome_of_mem_files hpos (mem_of_lookup hold)
      have hne : old ≠ fresh := by
        rintro rfl
        simp [hfresh] at holdAlive
      have halive : (((w₁.incref fresh).markdirty old).heap old).isSome := by
        simp [markdirty, w₁, Function.update_of_ne hne, holdAlive]
      have href : (w.supersede fresh name document).getref o =
          w.getref o + ind fresh o - ind old o := by
        have := getref_decref halive o
        rw [getref_markdirty, getref_incref hfreshAlive, hnew] at this
        rw [supersede, hold]
        exact this
      have howed : ((w.supersede fresh name document).owed o : Int) =
          w.owed o + ind fresh o - ind old o := by
        rw [hold] at hcount
        have hfiles := countP_cons_ind (show Prod.snd (name, fresh) = fresh from rfl)
          (w.files.filter fun e => e.1 ≠ name) o
        simp only [Option.map_some, Option.getD_some] at hcount
        simp only [supersede, hold, owed, incref, decref, markdirty, modifyCell]
        omega
      rw [slack, slack, href, howed]
      omega

/-- The `queryall` loop takes a reference for every name it answers for, and
one more for every repetition of a name. -/
theorem slack_queryNames (o : Obj) :
    ∀ (names : List Name) (result : List (Name × Obj)) (w : World Name F),
      (∀ o, 0 ≤ w.slack o) → (result.map Prod.fst).Nodup →
      let r := w.queryNames names result
      (∀ o, 0 ≤ r.2.slack o) ∧
      w.slack o - (result.countP fun e => e.2 = o) ≤
        r.2.slack o - (r.1.countP fun e => e.2 = o) ∧
      ((result.map Prod.fst ++ names.filter fun n => (w.files.lookup n).isSome).Nodup →
        r.2.slack o - (r.1.countP fun e => e.2 = o) =
          w.slack o - (result.countP fun e => e.2 = o)) := by
  intro names
  induction names with
  | nil => intro result w hpos _; exact ⟨hpos, Int.le_refl _, fun _ => rfl⟩
  | cons name names ih =>
      intro result w hpos hnd
      cases hold : w.files.lookup name with
      | none =>
          simp only [queryNames, hold, List.filter_cons]
          exact ih result w hpos hnd
      | some object =>
          have halive := isSome_of_mem_files hpos (mem_of_lookup hold)
          have hslack := slack_incref halive
          have hpos' : ∀ p, 0 ≤ (w.incref object).slack p := by
            intro p
            have := hpos p
            rw [hslack, ind]
            split_ifs <;> omega
          have hnd' : (((name, object) :: result.filter fun e => e.1 ≠ name).map
              Prod.fst).Nodup := by
            rw [List.map_cons, List.nodup_cons]
            refine ⟨by simp, hnd.sublist (List.Sublist.map _ List.filter_sublist)⟩
          obtain ⟨hge, hle, heq⟩ := ih _ (w.incref object) hpos' hnd'
          have hcount := countP_filter_name hnd name o
          simp only [queryNames, hold]
          refine ⟨hge, ?_, fun hnodup => ?_⟩
          · refine Int.le_trans ?_ hle
            have hnonneg : 0 ≤ ((result.lookup name).map (ind · o)).getD 0 := by
              cases result.lookup name with
              | none => exact Int.le_refl 0
              | some p => exact ind_nonneg p o
            rw [hslack, countP_cons_ind (show Prod.snd (name, object) = object from rfl)]
            omega
          · have hnot : name ∉ result.map Prod.fst := by
              intro hmem
              simp only [List.filter_cons, hold, Option.isSome_some, if_true] at hnodup
              exact (List.nodup_append.mp hnodup).2.2 name hmem name (by simp) rfl
            have hlookup : result.lookup name ≠ some o := fun h =>
              hnot (List.mem_map_of_mem (mem_of_lookup h))
            have hsame : (result.filter fun e => e.1 ≠ name) = result := by
              rw [List.filter_eq_self]
              intro e he
              simpa using fun h : e.1 = name => hnot (h ▸ List.mem_map_of_mem he)
            rw [heq ?_, hslack, hsame, countP_cons_ind (show Prod.snd (name, object) = object from rfl)]
            · omega
            · -- the name moves from the names to come to the names answered
              rw [hsame]
              simp only [List.filter_cons, hold, Option.isSome_some, if_true] at hnodup
              exact (List.perm_middle.nodup_iff).mp hnodup

end Host

/-! ## The invariant -/

/-- No object has less than it is owed, every name has one entry, and the
current and retired objects are allocated and distinct. -/
structure RefInv (w : World Name F) : Prop where
  slack_nonneg : ∀ o, 0 ≤ w.slack o
  names_nodup : (w.files.map Prod.fst).Nodup
  objects_nodup : (w.files.map Prod.snd ++ w.retired).Nodup
  retired_alive : ∀ o ∈ w.retired, (w.heap o).isSome

namespace RefInv

theorem init : RefInv (World.init : World Name F) := by
  constructor <;> simp [World.init, slack, owed, getref]

/-- What is owed anything is allocated. -/
theorem alive_of_owed {w : World Name F} (inv : RefInv w) {o : Obj} (h : 0 < w.owed o) :
    (w.heap o).isSome := by
  have := inv.slack_nonneg o
  rw [slack] at this
  exact isSome_of_getref_pos (by omega)

/-- The invariant only looks at the slacks, the host's tables and the
allocation. -/
theorem of_frame {w w' : World Name F} (inv : RefInv w) (hf : Frame w w')
    (hslack : ∀ o, w.slack o ≤ w'.slack o) : RefInv w' where
  slack_nonneg o := Int.le_trans (inv.slack_nonneg o) (hslack o)
  names_nodup := hf.files ▸ inv.names_nodup
  objects_nodup := by
    rw [hf.files, hf.retired]
    exact inv.objects_nodup
  retired_alive o ho := by
    rw [hf.alive]
    exact inv.retired_alive o (hf.retired ▸ ho)

theorem collectRetired {w : World Name F} (inv : RefInv w) : RefInv w.collectRetired where
  slack_nonneg o := by
    rw [slack_collectRetired inv.slack_nonneg]
    exact inv.slack_nonneg o
  names_nodup := by
    rw [collectRetired_eq]
    exact inv.names_nodup
  objects_nodup := by
    rw [collectRetired_eq]
    exact inv.objects_nodup.sublist ((List.Sublist.refl _).append List.filter_sublist)
  retired_alive o ho := by
    rw [collectRetired_eq] at ho ⊢
    obtain ⟨hmem, hpos⟩ := List.mem_filter.mp ho
    have hnot : ¬ (o ∈ w.retired ∧ w.getref o ≤ 0) := fun h => by
      have := h.2
      simp only [decide_eq_true_eq] at hpos
      omega
    simp only [hnot, if_false]
    exact inv.retired_alive o hmem

variable [DecidableEq Name]

theorem supersede {w : World Name F} (inv : RefInv w) {fresh : Obj}
    (hfresh : w.heap fresh = none) (name : Name) (document : SharedDocument F) :
    RefInv (w.supersede fresh name document) := by
  have hfiles : (w.supersede fresh name document).files =
      (name, fresh) :: w.files.filter fun e => e.1 ≠ name := by
    cases hl : w.files.lookup name <;> simp only [World.supersede, hl] <;> rfl
  have hretired : (w.supersede fresh name document).retired =
      w.retired ++ (w.files.lookup name).toList := by
    cases hl : w.files.lookup name with
    | none => simp [World.supersede, hl, incref, modifyCell]
    | some old => simp only [World.supersede, hl]; rfl
  have halive : ∀ o, (w.heap o).isSome → ((w.supersede fresh name document).heap o).isSome := by
    intro o ho
    have hne : o ≠ fresh := by
      rintro rfl
      simp [hfresh] at ho
    cases hl : w.files.lookup name <;>
      simp [World.supersede, hl, incref, decref, markdirty, Function.update_of_ne hne, ho]
  have hold : ∀ o ∈ w.files.map Prod.snd ++ w.retired, (w.heap o).isSome := by
    intro o ho
    obtain ho | ho := List.mem_append.mp ho
    · obtain ⟨e, he, rfl⟩ := List.mem_map.mp ho
      exact isSome_of_mem_files inv.slack_nonneg he
    · exact inv.retired_alive o ho
  have hfreshNot : fresh ∉ w.files.map Prod.snd ++ w.retired := fun h => by
    have := hold fresh h
    simp [hfresh] at this
  -- what leaves the names joins the retired objects
  have hperm : ((w.files.filter fun e => e.1 ≠ name).map Prod.snd ++
      (w.retired ++ (w.files.lookup name).toList)).Perm (w.files.map Prod.snd ++ w.retired) := by
    cases hl : w.files.lookup name with
    | none =>
        have hsame : (w.files.filter fun e => e.1 ≠ name) = w.files := by
          rw [List.filter_eq_self]
          intro e he
          have := List.lookup_eq_none_iff.mp hl e he
          rw [decide_eq_true_eq]
          rintro rfl
          simp at this
        rw [hsame]
        simp
    | some old =>
        have hp := (perm_filter_name inv.names_nodup hl).map Prod.snd
        rw [Option.toList_some, ← List.append_assoc]
        refine List.perm_append_comm.trans ?_
        exact (hp.append_right w.retired).symm
  constructor
  · intro o
    rw [slack_supersede inv.slack_nonneg inv.names_nodup hfresh]
    exact inv.slack_nonneg o
  · rw [hfiles, List.map_cons, List.nodup_cons]
    refine ⟨by simp, inv.names_nodup.sublist (List.Sublist.map _ List.filter_sublist)⟩
  · rw [hfiles, hretired, List.map_cons, List.cons_append, List.nodup_cons]
    exact ⟨fun h => hfreshNot (hperm.mem_iff.mp h), hperm.nodup_iff.mpr inv.objects_nodup⟩
  · intro o ho
    have hmem : o ∈ w.files.map Prod.snd ++ w.retired := by
      rw [hretired] at ho
      exact hperm.mem_iff.mp (List.mem_append_right _ ho)
    exact halive o (hold o hmem)

end RefInv

/-! ## Steps -/

/-- Taking an element out of a list takes its share out of a sum. -/
theorem sum_map_eraseIdx {α : Type} {xs : List α} {i : Nat} {x : α} (h : xs[i]? = some x)
    (f : α → Nat) : (xs.map f).sum = f x + ((xs.eraseIdx i).map f).sum := by
  obtain ⟨hi, rfl⟩ := List.getElem?_eq_some_iff.mp h
  rw [← List.Perm.sum_nat ((List.getElem_cons_eraseIdx_perm hi).map f), List.map_cons,
    List.sum_cons]

theorem slack_takeMessage {w : World Name F} {i c : Nat} {r : Request Name F}
    (h : w.queue[i]? = some (c, r)) (o : Obj) :
    { w with queue := w.queue.eraseIdx i }.slack o = w.slack o + r.confirms o := by
  have := sum_map_eraseIdx h fun m => m.2.confirms o
  simp only at this
  simp only [slack, owed, getref]
  omega

theorem slack_takeReply {w : World Name F} {i c : Nat} {a : Answer Name}
    (h : w.replies[i]? = some (c, a)) (o : Obj) :
    { w with replies := w.replies.eraseIdx i }.slack o = w.slack o + a.refs o := by
  have := sum_map_eraseIdx h fun m => m.2.refs o
  simp only at this
  simp only [slack, owed, getref]
  omega

variable [DecidableEq Name]

/-- The steps at which every installed name is asked for at most once. -/
def DistinctNames (w : World Name F) : Action Name F → Prop
  | .host message _ => ∀ c names, w.queue[message]? = some (c, .queryall (some names)) →
      (names.filter fun name => (w.files.lookup name).isSome).Nodup
  | _ => True

/-- What a step does to the counts: the invariant is kept, no slack goes
down, and none goes up unless a name is asked for twice. -/
def Counted (w : World Name F) (distinct : Prop) (w' : World Name F) : Prop :=
  RefInv w' ∧ (∀ o, w.slack o ≤ w'.slack o) ∧ (distinct → ∀ o, w'.slack o = w.slack o)

omit [DecidableEq Name] in
/-- Steps that leave the host's tables and every slack alone. -/
theorem Counted.of_frame {w w' : World Name F} {distinct : Prop} (inv : RefInv w)
    (hf : Frame w w') (hslack : ∀ o, w'.slack o = w.slack o) : Counted w distinct w' :=
  ⟨inv.of_frame hf fun o => Int.le_of_eq (hslack o).symm,
    fun o => Int.le_of_eq (hslack o).symm, fun _ => hslack⟩

theorem counted_host {w : World Name F} (inv : RefInv w) {i c : Nat} {fresh : Obj}
    {request : Request Name F} (hq : w.queue[i]? = some (c, request))
    (hfresh : w.heap fresh = none) :
    Counted w (DistinctNames w (.host i fresh))
      ({ w with queue := w.queue.eraseIdx i }.handle fresh c request) := by
  have htake := slack_takeMessage hq
  generalize hw₁ : { w with queue := w.queue.eraseIdx i } = w₁ at htake ⊢
  have hframe : Frame w w₁ := by
    subst hw₁
    exact ⟨rfl, rfl, fun _ => rfl⟩
  have inv₁ : RefInv w₁ := inv.of_frame hframe fun o => by
    rw [htake]
    omega
  cases request with
  | load name document =>
      have hsame : ∀ o, w₁.slack o = w.slack o := fun o => by simp [htake, Request.confirms]
      cases document with
      | none =>
          refine Counted.of_frame inv (hframe.trans ⟨rfl, rfl, fun _ => rfl⟩) fun o => ?_
          rw [handle, slack_answer, hsame]
          simp [Answer.refs]
      | some document =>
          have hfresh₁ : w₁.heap fresh = none := by
            subst hw₁
            exact hfresh
          have invS := inv₁.supersede hfresh₁ name document
          have hslack : ∀ o, ((w₁.install fresh name document).answer c .loaded).slack o =
              w.slack o := fun o => by
            rw [slack_answer, install, slack_collectRetired invS.slack_nonneg,
              slack_supersede inv₁.slack_nonneg inv₁.names_nodup hfresh₁, hsame]
            simp [Answer.refs]
          refine ⟨?_, fun o => Int.le_of_eq (hslack o).symm, fun _ => hslack⟩
          refine invS.collectRetired.of_frame ⟨rfl, rfl, fun _ => rfl⟩ fun o => ?_
          rw [handle, slack_answer, install]
          simp [Answer.refs]
  | query name k =>
      have hsame : ∀ o, w₁.slack o = w.slack o := fun o => by simp [htake, Request.confirms]
      cases hl : w₁.files.lookup name with
      | none =>
          simp only [handle, hl]
          refine Counted.of_frame inv (hframe.trans ⟨rfl, rfl, fun _ => rfl⟩) fun o => ?_
          rw [slack_answer, hsame]
          simp [Answer.refs]
      | some object =>
          have halive := isSome_of_mem_files inv₁.slack_nonneg (mem_of_lookup hl)
          simp only [handle, hl]
          refine Counted.of_frame inv
            (hframe.trans ((Frame.incref w₁ object).trans ⟨rfl, rfl, fun _ => rfl⟩)) fun o => ?_
          rw [slack_answer, slack_incref halive, hsame]
          simp only [Answer.refs, ind]
          split_ifs <;> simp
  | queryall names =>
      have hsame : ∀ o, w₁.slack o = w.slack o := fun o => by simp [htake, Request.confirms]
      simp only [handle]
      generalize hns : names.getD (w₁.files.map Prod.fst) = ns
      have hspec := fun o => slack_queryNames o ns [] w₁ inv₁.slack_nonneg (by simp)
      simp only [List.countP_nil, List.map_nil, List.nil_append] at hspec
      have hf := Frame.queryNames ns [] w₁
      have hslack : ∀ o, w.slack o ≤ ((w₁.queryNames ns []).2.answer c
          (.objects (w₁.queryNames ns []).1)).slack o := fun o => by
        have := (hspec o).2.1
        rw [slack_answer, ← hsame]
        simpa [Answer.refs] using this
      refine ⟨inv.of_frame (hframe.trans (hf.trans ⟨rfl, rfl, fun _ => rfl⟩)) hslack, hslack, ?_⟩
      intro hdistinct o
      have hnodup : (ns.filter fun n => (w₁.files.lookup n).isSome).Nodup := by
        cases names with
        | none =>
            rw [← hns]
            exact inv₁.names_nodup.filter _
        | some names =>
            rw [← hns, hframe.files]
            exact hdistinct c names hq
      have := (hspec o).2.2 hnodup
      rw [slack_answer, ← hsame]
      simpa [Answer.refs] using this
  | confirm object =>
      have hconf : ∀ o, w₁.slack o = w.slack o + ind object o := fun o => by
        rw [htake]
        simp only [Request.confirms, ind]
        split_ifs <;> simp
      have halive : (w₁.heap object).isSome := by
        rw [hframe.alive]
        refine inv.alive_of_owed ?_
        have hsum := sum_map_eraseIdx hq fun m => m.2.confirms object
        have hone : (Request.confirm object : Request Name F).confirms object = 1 := if_pos rfl
        simp only [hone] at hsum
        rw [owed]
        omega
      have hslack : ∀ o, (w₁.decref object).slack o = w.slack o := fun o => by
        rw [slack, getref_decref halive]
        have := hconf o
        rw [slack] at this
        show w₁.getref o - ind object o - (w₁.owed o : Int) = w.slack o
        omega
      have invD : RefInv (w₁.decref object) := inv.of_frame
        (hframe.trans ⟨rfl, rfl, isSome_heap_modifyCell w₁ object _⟩)
        fun o => Int.le_of_eq (hslack o).symm
      have hfinal : ∀ o, (w₁.decref object).collectRetired.slack o = w.slack o := fun o => by
        rw [slack_collectRetired invD.slack_nonneg, hslack]
      exact ⟨invD.collectRetired, fun o => Int.le_of_eq (hfinal o).symm, fun _ => hfinal⟩

/-- **One step**: the counts after every step of the system. -/
theorem counted_step {w w' : World Name F} {a : Action Name F} (inv : RefInv w)
    (hstep : w.step a = some w') : Counted w (DistinctNames w a) w' := by
  cases a with
  | call c op =>
      obtain rfl := Option.some.inj hstep
      exact Counted.of_frame inv (Frame.startCall w c op) (slack_startCall w c op)
  | host i fresh =>
      simp only [step] at hstep
      cases hq : w.queue[i]? with
      | none => simp [hq] at hstep
      | some m =>
          obtain ⟨c, request⟩ := m
          simp only [hq] at hstep
          split at hstep
          · simp at hstep
          · rename_i hfresh
            obtain rfl := Option.some.inj hstep
            exact counted_host inv hq (by simpa using hfresh)
  | deliver i =>
      simp only [step] at hstep
      cases hr : w.replies[i]? with
      | none => simp [hr] at hstep
      | some m =>
          obtain ⟨c, ans⟩ := m
          simp only [hr, Option.some.injEq] at hstep
          subst hstep
          have halive : ∀ p, 0 < ans.refs p → (w.heap p).isSome := by
            intro p hp
            refine inv.alive_of_owed ?_
            have hsum := sum_map_eraseIdx hr fun m => m.2.refs p
            simp only at hsum
            rw [owed]
            omega
          have htake := slack_takeReply hr
          generalize hw₁ : { w with replies := w.replies.eraseIdx i } = w₁ at htake ⊢
          have hframe : Frame w w₁ := by
            subst hw₁
            exact ⟨rfl, rfl, fun _ => rfl⟩
          refine Counted.of_frame inv (hframe.trans (Frame.resume w₁ c ans)) fun o => ?_
          rw [slack_resume c o fun p hp => (hframe.alive p).trans (halive p hp), htake]
          omega
  | index c proxy entry key =>
      simp only [step] at hstep
      split at hstep
      · simp at hstep
      · split at hstep
        · split at hstep
          · obtain rfl := Option.some.inj hstep
            refine Counted.of_frame inv ?_ fun o => by rw [slack_hold, slack_proxyFor]
            exact (Frame.proxyFor w c _ _).trans ⟨rfl, rfl, fun _ => rfl⟩
          · obtain rfl := Option.some.inj hstep
            exact Counted.of_frame inv (Frame.refl w) fun _ => rfl
        · obtain rfl := Option.some.inj hstep
          exact Counted.of_frame inv (Frame.refl w) fun _ => rfl
  | drop c proxy =>
      obtain rfl := Option.some.inj hstep
      exact Counted.of_frame inv ⟨rfl, rfl, fun _ => rfl⟩ fun _ => rfl
  | collect c proxy =>
      simp only [step] at hstep
      split at hstep
      · simp at hstep
      · obtain rfl := Option.some.inj hstep
        exact Counted.of_frame inv ⟨rfl, rfl, fun _ => rfl⟩ fun _ => rfl
  | collectBox box =>
      simp only [step] at hstep
      cases hb : w.boxes.find? fun b => b.id = box with
      | none => simp [hb] at hstep
      | some b =>
          simp only [hb] at hstep
          split at hstep
          · simp at hstep
          · obtain rfl := Option.some.inj hstep
            have hmem := List.mem_of_find?_eq_some hb
            have halive : (w.heap b.object).isSome := by
              refine inv.alive_of_owed ?_
              have : 0 < w.boxes.countP fun b' => b'.object = b.object :=
                List.countP_pos_iff.mpr ⟨b, hmem, by simp⟩
              rw [owed]
              omega
            refine Counted.of_frame inv ⟨rfl, rfl, isSome_heap_modifyCell w _ _⟩ fun o => ?_
            have href := getref_decref halive o
            have hcount := (List.perm_cons_erase hmem).countP_eq fun b' => b'.object = o
            have hbox := countP_cons_ind (show Box.object b = b.object from rfl) (w.boxes.erase b) o
            rw [← hcount] at hbox
            rw [slack, slack]
            show (w.decref b.object).getref o - _ = _
            rw [href]
            simp only [owed, decref, modifyCell]
            omega

/-! ## Runs -/

open Transition

/-- Everything that counts on an object being there: a name it is current
for, an answer in flight that carries it, a confirm in flight, a live box. -/
def Owned (w : World Name F) (o : Obj) : Prop :=
  (∃ name, (name, o) ∈ w.files) ∨ (∃ c a, (c, a) ∈ w.replies ∧ 0 < a.refs o) ∨
    (∃ c, (c, .confirm o) ∈ w.queue) ∨ ∃ b ∈ w.boxes, b.object = o

omit [DecidableEq Name] in
theorem owed_pos_of_owned {w : World Name F} {o : Obj} (h : w.Owned o) : 0 < w.owed o := by
  have hsum : ∀ {α : Type} {xs : List α} {x : α} {f : α → Nat}, x ∈ xs → 0 < f x →
      0 < (xs.map f).sum := by
    intro α xs x f hx hf
    exact List.sum_pos_iff_exists_pos_nat.mpr ⟨f x, List.mem_map_of_mem hx, hf⟩
  rw [owed]
  obtain ⟨name, h⟩ | ⟨c, a, h, ha⟩ | ⟨c, h⟩ | ⟨b, h, hb⟩ := h
  · have : 0 < w.files.countP fun e => e.2 = o := List.countP_pos_iff.mpr ⟨_, h, by simp⟩
    omega
  · have := hsum (f := fun m : Nat × Answer Name => m.2.refs o) h ha
    omega
  · have := hsum (f := fun m : Nat × Request Name F => m.2.confirms o) h (by
      simp [Request.confirms])
    omega
  · have : 0 < w.boxes.countP fun b => b.object = o :=
      List.countP_pos_iff.mpr ⟨b, h, by simpa using hb⟩
    omega

theorem refInv_run {actions : List (Action Name F)} {w : World Name F}
    (hrun : run World.step World.init actions = some w) : RefInv w :=
  run_invariant (fun _ _ _ inv hstep => (counted_step inv hstep).1) RefInv.init hrun

/-- **Reference-count safety**: in every state of every run, whatever is
owned is allocated; and an object a step deletes is not owned by anything
from then on. -/
theorem owned_object_alive {actions : List (Action Name F)} {w : World Name F}
    (hrun : run World.step World.init actions = some w) :
    (∀ o, w.Owned o → (w.heap o).isSome) ∧
    ∀ a w', w.step a = some w' → ∀ o, (w.heap o).isSome → w'.heap o = none → ¬ w'.Owned o := by
  have inv := refInv_run hrun
  refine ⟨fun o ho => inv.alive_of_owed (owed_pos_of_owned ho), ?_⟩
  intro a w' hstep o _ hnone howned
  have := (counted_step inv hstep).1.alive_of_owed (owed_pos_of_owned howned)
  simp [hnone] at this

/-- No message of the protocol is in flight. -/
def Quiescent (w : World Name F) : Prop := w.queue = [] ∧ w.replies = []

/-- What the count of an object should be when nothing is in flight. -/
def owners (w : World Name F) (o : Obj) : Int :=
  (if o ∈ w.files.map Prod.snd then 1 else 0) + w.boxes.countP fun b => b.object = o

omit [DecidableEq Name] in
/-- With nothing in flight an object is owed what its owners hold. -/
theorem owed_of_quiescent {w : World Name F} (inv : RefInv w) (hq : w.Quiescent) (o : Obj) :
    (w.owed o : Int) = w.owners o := by
  have hcount : (w.files.countP fun e => e.2 = o) = (w.files.map Prod.snd).count o := by
    rw [List.count, List.countP_map]
    rfl
  have hnd : (w.files.map Prod.snd).Nodup := (List.nodup_append.mp inv.objects_nodup).1
  rw [owed, owners, hcount, hq.1, hq.2]
  by_cases h : o ∈ w.files.map Prod.snd
  · rw [List.count_eq_one_of_mem hnd h, if_pos h]
    simp
  · rw [List.count_eq_zero_of_not_mem h, if_neg h]
    simp

/-- **Reference-count balance**: in every run in which no `queryall` request
lists an installed name twice, whenever nothing is in flight the count of
every object is one for a name it is current for and one for each live box,
and the sweep deletes every retired object without a box. -/
theorem counts_balance_of_distinct_names {actions : List (Action Name F)} {w : World Name F}
    (hdistinct : Meets World.step DistinctNames World.init actions)
    (hrun : run World.step World.init actions = some w) (hq : w.Quiescent) :
    (∀ o, w.getref o = w.owners o) ∧
    ∀ o ∈ w.retired, (∀ b ∈ w.boxes, b.object ≠ o) → w.collectRetired.heap o = none := by
  obtain ⟨inv, hzero⟩ : RefInv w ∧ ∀ o, w.slack o = 0 := by
    refine @run_invariant_of_meets _ _ _ _ (fun w => RefInv w ∧ ∀ o, w.slack o = 0) ?_ _ _ _ ?_
      hdistinct hrun
    · intro s a s' ⟨inv, hzero⟩ hd hstep
      obtain ⟨inv', -, hsame⟩ := counted_step inv hstep
      exact ⟨inv', fun o => (hsame hd o).trans (hzero o)⟩
    · exact ⟨RefInv.init, fun o => by simp [World.init, slack, owed, getref]⟩
  have hbalance : ∀ o, w.getref o = w.owners o := by
    intro o
    have := hzero o
    rw [slack, owed_of_quiescent inv hq] at this
    omega
  refine ⟨hbalance, fun o ho hnobox => ?_⟩
  have hnot : o ∉ w.files.map Prod.snd := fun h =>
    (List.nodup_append.mp inv.objects_nodup).2.2 o h o ho rfl
  have hboxes : (w.boxes.countP fun b => b.object = o) = 0 := by
    rw [List.countP_eq_zero]
    simpa using hnobox
  have href : w.getref o ≤ 0 := by
    rw [hbalance, owners, if_neg hnot, hboxes]
    simp
  rw [collectRetired_eq]
  simp [ho, href]

end World

/-! ### Runs of one client -/

/-- A document with one nested table. -/
def sampleDocument (value : Bool) : SharedDocument Unit where
  document :=
    { format := 2
      root := .table (ascii "$")
      nodes := fun id =>
        if id = ascii "$" then
          some { length := 0, entries := [(.string (ascii "x"), .table (ascii "$/v/s78"))] }
        else if id = ascii "$/v/s78" then
          some { length := 1, entries := [(.number (), .boolean value)] }
        else none
      functions := fun _ => none }
  rootId := ascii "$"
  format_eq := rfl
  root_eq := rfl

/-- `loadtable(name, …)` at address 1, then `queryall { name }`, both
answered, and the confirm handled. -/
def queryallRun (names : List Bytes) : List (Action Bytes Unit) :=
  [.call 0 (.load (ascii "cfg") (some (sampleDocument false))), .host 0 1, .deliver 0,
   .call 0 (.queryall (some names)), .host 0 2, .deliver 0, .host 0 2]

/-- After the query the object is current and boxed, and allocated. -/
theorem owned_object_alive_after_queryall :
    ∃ w, Transition.run World.step World.init (queryallRun [ascii "cfg"]) = some w ∧
      w.Owned 1 ∧ (w.heap 1).isSome := by
  refine ⟨_, rfl, .inl ⟨ascii "cfg", List.mem_cons_self⟩, ?_⟩
  exact (World.owned_object_alive (show Transition.run World.step World.init
    (queryallRun [ascii "cfg"]) = some _ from rfl)).1 1
    (.inl ⟨ascii "cfg", List.mem_cons_self⟩)

/-- The counts balance after that run: one for the name, one for the box. -/
theorem counts_balance_after_queryall :
    ∃ w, Transition.run World.step World.init (queryallRun [ascii "cfg"]) = some w ∧
      w.Quiescent ∧ w.getref 1 = 2 ∧ w.getref 1 = w.owners 1 := by
  refine ⟨_, rfl, ⟨rfl, rfl⟩, by decide, ?_⟩
  refine (World.counts_balance_of_distinct_names ?_ (show Transition.run World.step World.init
    (queryallRun [ascii "cfg"]) = some _ from rfl) ⟨rfl, rfl⟩).1 1
  refine ⟨trivial, fun s hs => ?_⟩
  obtain rfl := Option.some.inj hs
  refine ⟨fun c names h => (by cases h), fun s hs => ?_⟩
  obtain rfl := Option.some.inj hs
  refine ⟨trivial, fun s hs => ?_⟩
  obtain rfl := Option.some.inj hs
  refine ⟨trivial, fun s hs => ?_⟩
  obtain rfl := Option.some.inj hs
  refine ⟨fun c names h => ?_, fun s hs => ?_⟩
  · cases h
    decide
  obtain rfl := Option.some.inj hs
  refine ⟨trivial, fun s hs => ?_⟩
  obtain rfl := Option.some.inj hs
  exact ⟨fun c names h => (by cases h), fun _ _ => trivial⟩

/-- Asking for an installed name twice in one `queryall` leaks a reference:
the host takes two, the answer carries one, and one is confirmed. -/
theorem counts_unbalanced_after_repeated_name :
    ¬ ∀ (actions : List (Action Bytes Unit)) (w : World Bytes Unit),
      Transition.run World.step World.init actions = some w → w.Quiescent →
      ∀ o, w.getref o = w.owners o := by
  intro hall
  have h := hall (queryallRun [ascii "cfg", ascii "cfg"]) _ rfl ⟨rfl, rfl⟩ 1
  revert h
  decide

end SkynetJit.Sharetable
