import SkynetJit.Sharetable.RefCount
import Mathlib.Tactic.Tauto

/-!
# SkynetJit.Sharetable.HotUpdate

Which proxies `sharetable.update` reaches.  A proxy reads through its view's
document, and a document reads the object of its box.  The invariant
`ViewInv` ties the three together in every reachable state: every live proxy
has a view whose box is alive and holds the view's pointer.

`update(name)` finds views through `roots_by_name`, whose keys are weak: the
view of a root proxy that was collected is not found, even while nested
proxies of it are held.  `update_reaches_iff_registered` states exactly when
the update reaches every held proxy of the name, and
`nested_proxy_reads_old_version` is a run in which it does not.
-/

namespace SkynetJit.Sharetable

variable {Name F : Type}

/-- The names an answer brings objects for. -/
def Answer.names : Answer Name → List Name
  | .object name (some _) _ => [name]
  | .objects pointers => pointers.map Prod.fst
  | _ => []

namespace World

/-- The name a proxy was obtained from. -/
def originOf (w : World Name F) (c proxy : Nat) : Option Name := do
  let p ← w.record c proxy
  let view ← (w.clients c).views p.view
  return view.origin

/-! ## The invariant -/

/-- One client's tables: live proxies have distinct ids and views, each of
these views reads its own pointer through a live box, and what the program
holds is live. -/
structure ClientInv (boxes : List Box) (next c : Nat) (client : Client Name) : Prop where
  proxy_lt : ∀ p ∈ client.proxies, p.id < next
  proxy_nodup : (client.proxies.map Proxy.id).Nodup
  view_lt : ∀ u v, client.views u = some v → u < next
  proxy_view : ∀ p ∈ client.proxies, ∃ v, client.views p.view = some v ∧
    ⟨v.box, c, v.pointer⟩ ∈ boxes
  held_live : ∀ q ∈ client.held, ∃ p ∈ client.proxies, p.id = q

/-- The tables of every client are in order, and boxes have distinct ids. -/
structure ViewInv (w : World Name F) : Prop where
  box_lt : ∀ b ∈ w.boxes, b.id < w.next
  box_nodup : (w.boxes.map Box.id).Nodup
  client : ∀ c, ClientInv w.boxes w.next c (w.clients c)

namespace ClientInv

variable {boxes boxes' : List Box} {next next' c : Nat} {client : Client Name}

/-- More boxes and a larger counter do no harm. -/
theorem mono (inv : ClientInv boxes next c client) (hboxes : boxes ⊆ boxes')
    (hnext : next ≤ next') : ClientInv boxes' next' c client where
  proxy_lt p hp := Nat.lt_of_lt_of_le (inv.proxy_lt p hp) hnext
  proxy_nodup := inv.proxy_nodup
  view_lt u v hv := Nat.lt_of_lt_of_le (inv.view_lt u v hv) hnext
  proxy_view p hp := by
    obtain ⟨v, hv, hbox⟩ := inv.proxy_view p hp
    exact ⟨v, hv, hboxes hbox⟩
  held_live := inv.held_live

/-- The weak tables of names and roots are not part of the invariant. -/
theorem congr (inv : ClientInv boxes next c client) {client' : Client Name}
    (hproxies : client'.proxies = client.proxies) (hviews : client'.views = client.views)
    (hheld : client'.held = client.held) : ClientInv boxes next c client' := by
  refine ⟨?_, ?_, ?_, ?_, ?_⟩
  · rw [hproxies]
    exact inv.proxy_lt
  · rw [hproxies]
    exact inv.proxy_nodup
  · rw [hviews]
    exact inv.view_lt
  · rw [hproxies, hviews]
    exact inv.proxy_view
  · rw [hheld, hproxies]
    exact inv.held_live

/-- The program keeps a live proxy. -/
theorem hold (inv : ClientInv boxes next c client) {q : Nat}
    (hq : ∃ p ∈ client.proxies, p.id = q) :
    ClientInv boxes next c { client with held := q :: client.held } :=
  { inv with
    held_live := fun q' hq' => by
      obtain rfl | hq' := List.mem_cons.mp hq'
      · exact hq
      · exact inv.held_live q' hq' }

/-- A proxy is made for a table of a view that reads its pointer. -/
theorem newProxy (inv : ClientInv boxes next c client) {u : Nat} {v : View Name}
    (hv : client.views u = some v) (hbox : ⟨v.box, c, v.pointer⟩ ∈ boxes) (table : Bytes) :
    ClientInv boxes (next + 1) c { client with proxies := ⟨next, u, table⟩ :: client.proxies } where
  proxy_lt p hp := by
    obtain rfl | hp := List.mem_cons.mp hp
    · exact Nat.lt_succ_self _
    · exact Nat.lt_succ_of_lt (inv.proxy_lt p hp)
  proxy_nodup := by
    rw [List.map_cons, List.nodup_cons]
    refine ⟨fun hmem => ?_, inv.proxy_nodup⟩
    obtain ⟨p, hp, heq⟩ := List.mem_map.mp hmem
    exact absurd heq (Nat.ne_of_lt (inv.proxy_lt p hp))
  view_lt u' v' hv' := Nat.lt_succ_of_lt (inv.view_lt u' v' hv')
  proxy_view p hp := by
    obtain rfl | hp := List.mem_cons.mp hp
    · exact ⟨v, hv, hbox⟩
    · exact inv.proxy_view p hp
  held_live q hq := by
    obtain ⟨p, hp, heq⟩ := inv.held_live q hq
    exact ⟨p, List.mem_cons_of_mem _ hp, heq⟩

/-- A view is given a pointer and a box on it. -/
theorem setView (inv : ClientInv boxes next c client) {u : Nat} (hu : u < next)
    {v : View Name} (hbox : ⟨v.box, c, v.pointer⟩ ∈ boxes) :
    ClientInv boxes next c
      { client with views := Function.update client.views u (some v) } where
  proxy_lt := inv.proxy_lt
  proxy_nodup := inv.proxy_nodup
  view_lt u' v' hv' := by
    by_cases h : u' = u
    · exact h ▸ hu
    · exact inv.view_lt u' v' ((Function.update_of_ne h ..).symm.trans hv')
  proxy_view p hp := by
    by_cases h : p.view = u
    · exact ⟨v, by simp [h], hbox⟩
    · obtain ⟨v', hv', hbox'⟩ := inv.proxy_view p hp
      exact ⟨v', (Function.update_of_ne h ..).trans hv', hbox'⟩
  held_live := inv.held_live

/-- A proxy that is not held is collected. -/
theorem collect (inv : ClientInv boxes next c client) {q : Nat} (hq : q ∉ client.held) :
    ClientInv boxes next c { client with
      proxies := client.proxies.filter fun p => p.id ≠ q
      cache := client.cache.filter fun e => e.2 ≠ q
      roots := client.roots.filter fun e => e.2.1 ≠ q } where
  proxy_lt p hp := inv.proxy_lt p (List.mem_filter.mp hp).1
  proxy_nodup := inv.proxy_nodup.sublist (List.Sublist.map _ List.filter_sublist)
  view_lt := inv.view_lt
  proxy_view p hp := inv.proxy_view p (List.mem_filter.mp hp).1
  held_live q' hq' := by
    obtain ⟨p, hp, rfl⟩ := inv.held_live q' hq'
    refine ⟨p, List.mem_filter.mpr ⟨hp, ?_⟩, rfl⟩
    rw [decide_eq_true_eq]
    rintro rfl
    exact hq hq'

end ClientInv

namespace ViewInv

variable {w : World Name F}

theorem init : ViewInv (World.init : World Name F) := by
  refine ⟨by simp [World.init], by simp [World.init], fun c => ?_⟩
  constructor <;> simp [World.init]

/-- The host and the messages are not part of the invariant. -/
theorem of_eq {w' : World Name F} (inv : ViewInv w) (hboxes : w'.boxes = w.boxes)
    (hclients : w'.clients = w.clients) (hnext : w'.next = w.next) : ViewInv w' := by
  refine ⟨?_, ?_, ?_⟩
  · rw [hboxes, hnext]
    exact inv.box_lt
  · rw [hboxes]
    exact inv.box_nodup
  · rw [hboxes, hclients, hnext]
    exact inv.client

/-- One client changes. -/
theorem setClient (inv : ViewInv w) {c : Nat} {client : Client Name}
    (hc : ClientInv w.boxes w.next c client) : ViewInv (w.setClient c client) := by
  refine ⟨inv.box_lt, inv.box_nodup, fun c' => ?_⟩
  by_cases h : c' = c
  · subst h
    simpa [World.setClient] using hc
  · simpa [World.setClient, Function.update_of_ne h] using inv.client c'

theorem newBox (inv : ViewInv w) (c : Nat) (p : Obj) : ViewInv (w.newBox c p).2 := by
  refine ⟨?_, ?_, fun c' => ?_⟩
  · intro b hb
    obtain rfl | hb := List.mem_cons.mp hb
    · exact Nat.lt_succ_self _
    · exact Nat.lt_succ_of_lt (inv.box_lt b hb)
  · rw [World.newBox, List.map_cons, List.nodup_cons]
    refine ⟨fun hmem => ?_, inv.box_nodup⟩
    obtain ⟨b, hb, heq⟩ := List.mem_map.mp hmem
    exact absurd heq (Nat.ne_of_lt (inv.box_lt b hb))
  · exact (inv.client c').mono (List.subset_cons_of_subset _ (List.Subset.refl _))
      (Nat.le_succ _)

/-- An id is drawn. -/
theorem tick (inv : ViewInv w) : ViewInv { w with next := w.next + 1 } :=
  ⟨fun b hb => Nat.lt_succ_of_lt (inv.box_lt b hb), inv.box_nodup,
    fun c => (inv.client c).mono (List.Subset.refl _) (Nat.le_succ _)⟩

theorem hold (inv : ViewInv w) {c q : Nat} (hq : ∃ p ∈ (w.clients c).proxies, p.id = q) :
    ViewInv (w.hold c q) :=
  inv.setClient ((inv.client c).hold hq)

/-- A live proxy of a table of a live view: `proxy_for` finds it or makes
it. -/
theorem proxyFor (inv : ViewInv w) {c u : Nat} {v : View Name}
    (hv : (w.clients c).views u = some v) (hbox : ⟨v.box, c, v.pointer⟩ ∈ w.boxes)
    (table : Bytes) : ViewInv (w.proxyFor c u table).2 ∧
      ∃ p ∈ ((w.proxyFor c u table).2.clients c).proxies, p.id = (w.proxyFor c u table).1 := by
  rw [World.proxyFor]
  split
  · rename_i p hp
    exact ⟨inv, p, List.mem_of_find?_eq_some hp, rfl⟩
  · refine ⟨?_, by simp [World.setClient]⟩
    exact inv.tick.setClient ((inv.client c).newProxy hv hbox table)

/-- A new view reads its pointer, and its root proxy is live. -/
theorem newView (inv : ViewInv w) (c : Nat) (name : Name) (pointer : Obj) :
    ViewInv (w.newView c name pointer).2.2 ∧
      ∃ p ∈ ((w.newView c name pointer).2.2.clients c).proxies,
        p.id = (w.newView c name pointer).1 := by
  have invBox := inv.newBox c pointer
  have invTick := invBox.tick
  have hclient := (invTick.client c).setView (u := w.next + 1) (v := ⟨name, pointer, w.next⟩)
    (Nat.lt_succ_self (w.next + 1)) List.mem_cons_self
  have invView := invTick.setClient hclient
  exact invView.proxyFor (v := ⟨name, pointer, w.next⟩) (by simp [World.setClient])
    List.mem_cons_self _

variable [DecidableEq Name]

theorem box (inv : ViewInv w) (c : Nat) (name : Name) (pointer : Obj) :
    ViewInv (w.box c name pointer) := by
  have hfresh : ViewInv (((w.newView c name pointer).2.2.remember c name
      (w.newView c name pointer).1 (w.newView c name pointer).2.1 pointer).hold c
      (w.newView c name pointer).1) := by
    obtain ⟨inv', hlive⟩ := inv.newView c name pointer
    refine ViewInv.hold ?_ (by simpa [remember, World.setClient, send] using hlive)
    let remembered : Client Name :=
      { (w.newView c name pointer).2.2.clients c with
        named := name :: ((w.newView c name pointer).2.2.clients c).named
        roots := (name, (w.newView c name pointer).1, (w.newView c name pointer).2.1) ::
          ((w.newView c name pointer).2.2.clients c).roots
        cache := (name, (w.newView c name pointer).1) ::
          ((w.newView c name pointer).2.2.clients c).cache.filter fun e => e.1 ≠ name }
    have hremembered := (inv'.client c).congr (show remembered.proxies = _ from rfl)
      (show remembered.views = _ from rfl) (show remembered.held = _ from rfl)
    exact (inv'.setClient hremembered).of_eq rfl rfl rfl
  simp only [World.box]
  split
  · rename_i current view hcached
    split
    · have invSend : ViewInv (w.send c (.confirm pointer)) := inv.of_eq rfl rfl rfl
      refine invSend.hold ?_
      obtain ⟨cur, -, hrest⟩ := Option.bind_eq_some_iff.mp hcached
      obtain ⟨p, hp, hrest⟩ := Option.bind_eq_some_iff.mp hrest
      obtain ⟨_, -, heq⟩ := Option.bind_eq_some_iff.mp hrest
      obtain ⟨rfl, -⟩ := Prod.mk.inj (Option.some.inj heq)
      exact ⟨p, List.mem_of_find?_eq_some hp, by simpa using List.find?_some hp⟩
    · exact hfresh
  · exact hfresh

theorem boxes (inv : ViewInv w) (c : Nat) (pointers : List (Name × Obj)) :
    ViewInv (pointers.foldl (fun w e => w.box c e.1 e.2) w) := by
  induction pointers generalizing w with
  | nil => exact inv
  | cons e pointers ih => exact ih (inv.box c e.1 e.2)

omit [DecidableEq Name] in
theorem updateViews (inv : ViewInv w) (c : Nat) (pointer : Obj)
    (roots : List (Name × Nat × Nat)) : ViewInv (w.updateViews c pointer roots) := by
  induction roots generalizing w with
  | nil => exact inv
  | cons root roots ih =>
      obtain ⟨_, _, u⟩ := root
      rw [World.updateViews]
      cases hv : (w.clients c).views u with
      | none => exact ih inv
      | some v =>
          simp only
          split
          · exact ih inv
          · have invBox := inv.newBox c pointer
            refine ih (invBox.setClient ((invBox.client c).setView ?_ List.mem_cons_self))
            exact Nat.lt_succ_of_lt ((inv.client c).view_lt u v hv)

theorem startUpdate (inv : ViewInv w) (c : Nat) (names : List Name) :
    ViewInv (w.startUpdate c names) := by
  induction names with
  | nil => exact inv
  | cons name rest ih =>
      rw [World.startUpdate]
      split
      · exact inv.of_eq rfl rfl rfl
      · exact ih

theorem resume (inv : ViewInv w) (c : Nat) (a : Answer Name) : ViewInv (w.resume c a) := by
  cases a with
  | loaded => exact inv
  | failed => exact inv
  | object name pointer k =>
      cases pointer with
      | none =>
          cases k with
          | box => exact inv
          | update rest => exact inv.startUpdate c rest
      | some p =>
          cases k with
          | box => exact inv.box c name p
          | update rest =>
              refine ViewInv.startUpdate ?_ c rest
              exact (inv.updateViews c p _).of_eq rfl rfl rfl
  | objects pointers => exact inv.boxes c pointers

/-- The host has no part in the clients' tables. -/
theorem handle (inv : ViewInv w) (fresh : Obj) (c : Nat) (request : Request Name F) :
    ViewInv (w.handle fresh c request) := by
  have hsweep : ∀ {w : World Name F}, ViewInv w → ViewInv w.collectRetired := fun inv => by
    rw [collectRetired_eq]
    exact inv.of_eq rfl rfl rfl
  have hnames : ∀ (names : List Name) (result : List (Name × Obj)) {w : World Name F},
      ViewInv w → ViewInv (w.queryNames names result).2 := by
    intro names
    induction names with
    | nil => exact fun _ _ inv => inv
    | cons name names ih =>
        intro result w inv
        rw [World.queryNames]
        cases w.files.lookup name with
        | none => exact ih result inv
        | some object => exact ih _ (inv.of_eq rfl rfl rfl)
  cases request with
  | load name document =>
      cases document with
      | none => exact inv.of_eq rfl rfl rfl
      | some document =>
          refine (hsweep (w := w.supersede fresh name document) ?_).of_eq rfl rfl rfl
          rw [supersede]
          cases w.files.lookup name <;> exact inv.of_eq rfl rfl rfl
  | query name k =>
      rw [World.handle]
      cases w.files.lookup name <;> exact inv.of_eq rfl rfl rfl
  | queryall names => exact (hnames _ [] inv).of_eq rfl rfl rfl
  | confirm object => exact hsweep (w := w.decref object) (inv.of_eq rfl rfl rfl)

theorem step {w' : World Name F} {a : Action Name F} (inv : ViewInv w)
    (hstep : w.step a = some w') : ViewInv w' := by
  cases a with
  | call c op =>
      obtain rfl := Option.some.inj hstep
      cases op with
      | update names => exact inv.startUpdate c names
      | _ => exact inv.of_eq rfl rfl rfl
  | host i fresh =>
      simp only [World.step] at hstep
      split at hstep
      · split at hstep
        · simp at hstep
        · obtain rfl := Option.some.inj hstep
          have invTake : ViewInv { w with queue := w.queue.eraseIdx i } := inv.of_eq rfl rfl rfl
          exact invTake.handle _ _ _
      · simp at hstep
  | deliver i =>
      simp only [World.step] at hstep
      split at hstep
      · obtain rfl := Option.some.inj hstep
        have invTake : ViewInv { w with replies := w.replies.eraseIdx i } := inv.of_eq rfl rfl rfl
        exact invTake.resume _ _
      · simp at hstep
  | index c proxy entry key =>
      simp only [World.step] at hstep
      split at hstep
      · simp at hstep
      · split at hstep
        · rename_i p e hp _
          split at hstep
          · obtain rfl := Option.some.inj hstep
            obtain ⟨v, hv, hbox⟩ := (inv.client c).proxy_view p (List.mem_of_find?_eq_some hp)
            obtain ⟨inv', hlive⟩ := inv.proxyFor hv hbox _
            exact inv'.hold hlive
          · obtain rfl := Option.some.inj hstep
            exact inv
        · obtain rfl := Option.some.inj hstep
          exact inv
  | drop c proxy =>
      obtain rfl := Option.some.inj hstep
      refine inv.setClient { inv.client c with held_live := fun q hq => ?_ }
      exact (inv.client c).held_live q (List.mem_filter.mp hq).1
  | collect c proxy =>
      simp only [World.step] at hstep
      split at hstep
      · simp at hstep
      · rename_i hnot
        obtain rfl := Option.some.inj hstep
        exact inv.setClient ((inv.client c).collect hnot)
  | collectBox box =>
      simp only [World.step] at hstep
      split at hstep
      · rename_i b hb
        split at hstep
        · simp at hstep
        · rename_i huse
          obtain rfl := Option.some.inj hstep
          refine ⟨fun b' hb' => inv.box_lt b' (List.mem_of_mem_erase hb'),
            inv.box_nodup.sublist (List.Sublist.map _ List.erase_sublist), fun c => ?_⟩
          refine { inv.client c with proxy_view := fun p hp => ?_ }
          obtain ⟨v, hv, hbox⟩ := (inv.client c).proxy_view p hp
          refine ⟨v, hv, (List.mem_erase_of_ne fun heq => huse ?_).mpr hbox⟩
          -- the box a live proxy reads through is in use
          rw [boxInUse, List.any_eq_true, ← heq]
          exact ⟨p, hp, by simp [hv]⟩
      · simp at hstep

end ViewInv

/-- A live proxy reads the pointer of its view. -/
theorem readsFrom_eq {w : World Name F} (inv : ViewInv w) {c q : Nat} {p : Proxy}
    {v : View Name} (hp : w.record c q = some p) (hv : (w.clients c).views p.view = some v) :
    w.readsFrom c q = some v.pointer := by
  obtain ⟨v', hv', hbox⟩ := (inv.client c).proxy_view p (List.mem_of_find?_eq_some hp)
  obtain rfl : v = v' := Option.some.inj (hv.symm.trans hv')
  have hfind : (w.boxes.find? fun b => b.id = v.box) = some ⟨v.box, c, v.pointer⟩ := by
    have hex : (w.boxes.find? fun b => b.id = v.box).isSome :=
      List.find?_isSome.mpr ⟨_, hbox, by simp⟩
    obtain ⟨b, hb⟩ := Option.isSome_iff_exists.mp hex
    rw [hb]
    have hid : b.id = v.box := by simpa using List.find?_some hb
    exact congrArg some (List.inj_on_of_nodup_map inv.box_nodup (List.mem_of_find?_eq_some hb)
      hbox hid)
  simp [readsFrom, hp, hv, boxObject, hfind]

/-- What the loop of `update` does to the clients: the views of `us` in
client `c` get the pointer, all else about views, proxies and names stays. -/
structure Updated (c : Nat) (pointer : Obj) (us : List Nat) (w w' : World Name F) : Prop where
  proxies : ∀ c', (w'.clients c').proxies = (w.clients c').proxies
  held : ∀ c', (w'.clients c').held = (w.clients c').held
  named : ∀ c', (w'.clients c').named = (w.clients c').named
  views : ∀ c' u v', (w'.clients c').views u = some v' →
    ∃ v, (w.clients c').views u = some v ∧ v'.origin = v.origin ∧
      v'.pointer = if c' = c ∧ u ∈ us then pointer else v.pointer
  defined : ∀ c' u, ((w.clients c').views u).isSome → ((w'.clients c').views u).isSome

theorem clients_setClient (w : World Name F) (c : Nat) (client : Client Name) (c' : Nat) :
    (w.setClient c client).clients c' = if c' = c then client else w.clients c' :=
  Function.update_apply ..

/-- One round of the loop. -/
theorem Updated.one {w boxed : World Name F} {c u : Nat} {v : View Name} {pointer : Obj}
    (hv : (w.clients c).views u = some v) (hboxed : boxed.clients = w.clients) (box : Nat) :
    Updated c pointer [u] w (boxed.setClient c { boxed.clients c with
      views := Function.update (boxed.clients c).views u (some { v with pointer, box }) }) := by
  constructor
  case proxies | held | named =>
    intro c'
    rw [clients_setClient, hboxed]
    split <;> simp_all
  case views =>
    intro c' u' v' hv'
    rw [clients_setClient, hboxed] at hv'
    by_cases hc : c' = c
    · subst hc
      rw [if_pos rfl] at hv'
      by_cases hu : u' = u
      · subst hu
        simp only [Function.update_self, Option.some.injEq] at hv'
        exact ⟨v, hv, by simp [← hv'], by simp [← hv']⟩
      · simp only [Function.update_of_ne hu] at hv'
        exact ⟨v', hv', rfl, by simp [hu]⟩
    · rw [if_neg hc] at hv'
      exact ⟨v', hv', rfl, by simp [hc]⟩
  case defined =>
    intro c' u' hs
    rw [clients_setClient, hboxed]
    split
    · rename_i hc
      subst hc
      by_cases hu : u' = u
      · simp [hu]
      · simpa [Function.update_of_ne hu] using hs
    · exact hs

theorem Updated.trans {w₁ w₂ w₃ : World Name F} {c : Nat} {pointer : Obj} {us us' : List Nat}
    (h₁ : Updated c pointer us w₁ w₂) (h₂ : Updated c pointer us' w₂ w₃) :
    Updated c pointer (us ++ us') w₁ w₃ where
  proxies c' := (h₂.proxies c').trans (h₁.proxies c')
  held c' := (h₂.held c').trans (h₁.held c')
  named c' := (h₂.named c').trans (h₁.named c')
  views c' u v₃ hv₃ := by
    obtain ⟨v₂, hv₂, ho₂, hp₂⟩ := h₂.views c' u v₃ hv₃
    obtain ⟨v₁, hv₁, ho₁, hp₁⟩ := h₁.views c' u v₂ hv₂
    refine ⟨v₁, hv₁, ho₂.trans ho₁, ?_⟩
    rw [hp₂, hp₁]
    simp only [List.mem_append]
    split_ifs <;> first | rfl | (exfalso; tauto)
  defined c' u hs := h₂.defined c' u (h₁.defined c' u hs)

/-- A view that already has the pointer counts as updated. -/
theorem Updated.skip {w : World Name F} {c u : Nat} {pointer : Obj}
    (hv : ∀ v, (w.clients c).views u = some v → v.pointer = pointer) :
    Updated c pointer [u] w w where
  proxies _ := rfl
  held _ := rfl
  named _ := rfl
  views c' u' v' hv' := by
    refine ⟨v', hv', rfl, ?_⟩
    split
    · rename_i h
      obtain ⟨rfl, hu⟩ := h
      obtain rfl : u' = u := by simpa using hu
      exact hv v' hv'
    · rfl
  defined _ _ h := h

theorem updated_updateViews (c : Nat) (pointer : Obj) (roots : List (Name × Nat × Nat))
    (w : World Name F) :
    Updated c pointer (roots.map fun e => e.2.2) w (w.updateViews c pointer roots) := by
  induction roots generalizing w with
  | nil =>
      exact ⟨fun _ => rfl, fun _ => rfl, fun _ => rfl, fun _ _ v hv => ⟨v, hv, rfl, by simp⟩,
        fun _ _ h => h⟩
  | cons root roots ih =>
      obtain ⟨_, _, u⟩ := root
      rw [updateViews, List.map_cons, ← List.singleton_append]
      cases hv : (w.clients c).views u with
      | none => exact (Updated.skip fun v h => by simp [hv] at h).trans (ih w)
      | some v =>
          simp only
          split
          · rename_i heq
            refine (Updated.skip fun v' h => ?_).trans (ih w)
            exact Option.some.inj (hv.symm.trans h) ▸ heq
          · exact (Updated.one hv (show (w.newBox c pointer).2.clients = w.clients from rfl) _).trans (ih _)

/-! ## Names that are in use are installed -/

/-- The host has a current object for a name. -/
def Installed (w : World Name F) (name : Name) : Prop := name ∈ w.files.map Prod.fst

/-- Views are of names with a root table, these names are installed, and so
are the names answers bring objects for and updates ask for; so an update is
never answered with nil. -/
structure NameInv (w : World Name F) : Prop where
  view_named : ∀ c u v, (w.clients c).views u = some v → v.origin ∈ (w.clients c).named
  named_installed : ∀ c, ∀ name ∈ (w.clients c).named, w.Installed name
  answer_installed : ∀ m ∈ w.replies, ∀ name ∈ m.2.names, w.Installed name
  update_installed : ∀ m ∈ w.queue, ∀ name rest, m.2 = .query name (.update rest) →
    w.Installed name
  update_answered : ∀ m ∈ w.replies, ∀ name rest, m.2 ≠ .object name none (.update rest)

namespace NameInv

variable {w w' : World Name F}

theorem init : NameInv (World.init : World Name F) := by
  constructor <;> simp [World.init]

/-- The clients and the messages stay, and no name is lost. -/
theorem of_eq (inv : NameInv w) (hclients : w'.clients = w.clients) (hqueue : w'.queue ⊆ w.queue)
    (hreplies : w'.replies ⊆ w.replies) (hfiles : ∀ name, w.Installed name → w'.Installed name) :
    NameInv w' where
  view_named := hclients ▸ inv.view_named
  named_installed c name hname := hfiles name (inv.named_installed c name (hclients ▸ hname))
  answer_installed m hm name hname :=
    hfiles name (inv.answer_installed m (hreplies hm) name hname)
  update_installed m hm name rest heq :=
    hfiles name (inv.update_installed m (hqueue hm) name rest heq)
  update_answered m hm := inv.update_answered m (hreplies hm)

/-- A message is sent; an update asks for an installed name. -/
theorem send (inv : NameInv w) {c : Nat} {request : Request Name F}
    (hreq : ∀ name rest, request = .query name (.update rest) → w.Installed name) :
    NameInv (w.send c request) :=
  { inv with
    update_installed := fun m hm name rest heq => by
      obtain hm | hm := List.mem_append.mp hm
      · exact inv.update_installed m hm name rest heq
      · obtain rfl := List.mem_singleton.mp hm
        exact hreq name rest heq }

/-- A call is answered; what the answer brings is installed. -/
theorem answer (inv : NameInv w) {c : Nat} {a : Answer Name}
    (hnames : ∀ name ∈ a.names, w.Installed name)
    (hnil : ∀ name rest, a ≠ .object name none (.update rest)) : NameInv (w.answer c a) :=
  { inv with
    answer_installed := fun m hm name hname => by
      obtain hm | hm := List.mem_append.mp hm
      · exact inv.answer_installed m hm name hname
      · obtain rfl := List.mem_singleton.mp hm
        exact hnames name hname
    update_answered := fun m hm name rest => by
      obtain hm | hm := List.mem_append.mp hm
      · exact inv.update_answered m hm name rest
      · obtain rfl := List.mem_singleton.mp hm
        exact hnil name rest }

/-- The clients change: their views are of their names, which are
installed. -/
theorem of_clients (inv : NameInv w) (hfiles : w'.files = w.files) (hqueue : w'.queue = w.queue)
    (hreplies : w'.replies = w.replies)
    (hviews : ∀ c u v, (w'.clients c).views u = some v → v.origin ∈ (w'.clients c).named)
    (hnamed : ∀ c, ∀ name ∈ (w'.clients c).named, w.Installed name) : NameInv w' where
  view_named := hviews
  named_installed c name hname := by
    rw [Installed, hfiles]
    exact hnamed c name hname
  answer_installed m hm name hname := by
    rw [Installed, hfiles]
    exact inv.answer_installed m (hreplies ▸ hm) name hname
  update_installed m hm name rest heq := by
    rw [Installed, hfiles]
    exact inv.update_installed m (hqueue ▸ hm) name rest heq
  update_answered m hm := inv.update_answered m (hreplies ▸ hm)

/-- One client changes neither its views nor its names. -/
theorem setClient (inv : NameInv w) {c : Nat} {client : Client Name}
    (hviews : client.views = (w.clients c).views) (hnamed : client.named = (w.clients c).named) :
    NameInv (w.setClient c client) := by
  refine inv.of_clients rfl rfl rfl (fun c' u v hv => ?_) (fun c' name hname => ?_)
  · rw [clients_setClient] at hv ⊢
    by_cases h : c' = c
    · subst h
      rw [if_pos rfl] at hv ⊢
      rw [hnamed]
      exact inv.view_named c' u v (hviews ▸ hv)
    · rw [if_neg h] at hv ⊢
      exact inv.view_named c' u v hv
  · rw [clients_setClient] at hname
    by_cases h : c' = c
    · subst h
      rw [if_pos rfl, hnamed] at hname
      exact inv.named_installed c' name hname
    · rw [if_neg h] at hname
      exact inv.named_installed c' name hname

theorem hold (inv : NameInv w) (c q : Nat) : NameInv (w.hold c q) :=
  inv.setClient rfl rfl

theorem proxyFor (inv : NameInv w) (c u : Nat) (table : Bytes) :
    NameInv (w.proxyFor c u table).2 := by
  rw [World.proxyFor]
  split
  · exact inv
  · exact (show NameInv (w.setClient c { w.clients c with
      proxies := ⟨w.next, u, table⟩ :: (w.clients c).proxies }) from
      inv.setClient rfl rfl).of_eq rfl
      (List.Subset.refl _) (List.Subset.refl _) fun _ h => h

/-- `proxy_for` leaves views, names and messages alone. -/
theorem fields_proxyFor (w : World Name F) (c u : Nat) (table : Bytes) :
    (∀ c', ((w.proxyFor c u table).2.clients c').views = (w.clients c').views ∧
      ((w.proxyFor c u table).2.clients c').named = (w.clients c').named) ∧
    (w.proxyFor c u table).2.files = w.files ∧ (w.proxyFor c u table).2.queue = w.queue ∧
    (w.proxyFor c u table).2.replies = w.replies := by
  rw [World.proxyFor]
  split
  · simp
  · refine ⟨fun c' => ?_, rfl, rfl, rfl⟩
    simp only [clients_setClient]
    split <;> simp_all

/-- `new_view` adds one view, of the given name. -/
theorem fields_newView (w : World Name F) (c : Nat) (name : Name) (pointer : Obj) :
    (∀ c' u v, ((w.newView c name pointer).2.2.clients c').views u = some v →
      (w.clients c').views u = some v ∨ (c' = c ∧ v.origin = name)) ∧
    (∀ c', ((w.newView c name pointer).2.2.clients c').named = (w.clients c').named) ∧
    (w.newView c name pointer).2.2.files = w.files ∧
    (w.newView c name pointer).2.2.queue = w.queue ∧
    (w.newView c name pointer).2.2.replies = w.replies := by
  obtain ⟨rootId, hnew⟩ : ∃ rootId, (w.newView c name pointer).2.2 =
      ((w.openView c name pointer).2.proxyFor c (w.openView c name pointer).1 rootId).2 := ⟨_, rfl⟩
  rw [hnew]
  obtain ⟨hclients, hfiles, hqueue, hreplies⟩ :=
    fields_proxyFor (w.openView c name pointer).2 c (w.openView c name pointer).1 rootId
  have hw : (w.openView c name pointer).2.clients = Function.update w.clients c
      { w.clients c with
        views := Function.update (w.clients c).views (w.next + 1)
          (some ⟨name, pointer, w.next⟩) } := rfl
  refine ⟨fun c' u v hv => ?_, fun c' => ?_, hfiles, hqueue, hreplies⟩
  · replace hv := (congrFun (hclients c').1 u).symm.trans hv
    rw [hw] at hv
    by_cases hc : c' = c
    · subst hc
      rw [Function.update_self] at hv
      by_cases hu : u = w.next + 1
      · subst hu
        simp only [Function.update_self, Option.some.injEq] at hv
        exact .inr ⟨rfl, hv ▸ rfl⟩
      · simp only [Function.update_of_ne hu] at hv
        exact .inl hv
    · rw [Function.update_of_ne hc] at hv
      exact .inl hv
  · refine (hclients c').2.trans ?_
    rw [hw]
    by_cases hc : c' = c
    · subst hc
      rw [Function.update_self]
    · rw [Function.update_of_ne hc]

variable [DecidableEq Name]

/-- A new view is registered under its name. -/
theorem remember (inv : NameInv w) (c : Nat) {name : Name} (pointer : Obj)
    (hname : w.Installed name) :
    NameInv ((w.newView c name pointer).2.2.remember c name (w.newView c name pointer).1
      (w.newView c name pointer).2.1 pointer) := by
  obtain ⟨hviews, hnamed, hfiles, hqueue, hreplies⟩ := fields_newView w c name pointer
  refine NameInv.send ?_ (by simp)
  refine inv.of_clients hfiles hqueue hreplies (fun c' u v hv => ?_) (fun c' n hn => ?_)
  · rw [clients_setClient] at hv ⊢
    by_cases hc : c' = c
    · subst hc
      rw [if_pos rfl] at hv ⊢
      obtain hold | ⟨-, horigin⟩ := hviews c' u v hv
      · exact List.mem_cons_of_mem _ (hnamed c' ▸ inv.view_named c' u v hold)
      · exact horigin ▸ List.mem_cons_self
    · rw [if_neg hc] at hv ⊢
      obtain hold | ⟨hcc, -⟩ := hviews c' u v hv
      · exact hnamed c' ▸ inv.view_named c' u v hold
      · exact absurd hcc hc
  · rw [clients_setClient] at hn
    by_cases hc : c' = c
    · subst hc
      rw [if_pos rfl] at hn
      obtain rfl | hn := List.mem_cons.mp hn
      · exact hname
      · exact inv.named_installed c' n (hnamed c' ▸ hn)
    · rw [if_neg hc] at hn
      exact inv.named_installed c' n (hnamed c' ▸ hn)

theorem box (inv : NameInv w) (c : Nat) {name : Name} (pointer : Obj)
    (hname : w.Installed name) : NameInv (w.box c name pointer) := by
  have hfresh := (inv.remember c pointer hname).hold c (w.newView c name pointer).1
  simp only [World.box]
  split
  · split
    · exact (inv.send (by simp)).hold c _
    · exact hfresh
  · exact hfresh

theorem boxes (inv : NameInv w) (c : Nat) {pointers : List (Name × Obj)}
    (hnames : ∀ e ∈ pointers, w.Installed e.1) :
    NameInv (pointers.foldl (fun w e => w.box c e.1 e.2) w) := by
  induction pointers generalizing w with
  | nil => exact inv
  | cons e pointers ih =>
      refine ih (inv.box c e.2 (hnames e (by simp))) fun e' he' => ?_
      rw [Installed, (Frame.box w c e.1 e.2).files]
      exact hnames e' (by simp [he'])

theorem startUpdate (inv : NameInv w) (c : Nat) (names : List Name) :
    NameInv (w.startUpdate c names) := by
  induction names with
  | nil => exact inv
  | cons name rest ih =>
      rw [World.startUpdate]
      split
      · rename_i hnamed
        refine inv.send fun name' rest' heq => ?_
        obtain ⟨rfl, -⟩ := Request.query.inj heq
        exact inv.named_installed c name hnamed
      · exact ih

omit [DecidableEq Name] in
theorem updateViews (inv : NameInv w) (c : Nat) (pointer : Obj)
    (roots : List (Name × Nat × Nat)) : NameInv (w.updateViews c pointer roots) := by
  have hup := updated_updateViews c pointer roots w
  have hmsg : (w.updateViews c pointer roots).queue = w.queue ∧
      (w.updateViews c pointer roots).replies = w.replies := by
    clear hup inv
    induction roots generalizing w with
    | nil => exact ⟨rfl, rfl⟩
    | cons root roots ih =>
        obtain ⟨_, _, u⟩ := root
        rw [World.updateViews]
        split
        · split <;> exact ih
        · exact ih
  refine inv.of_clients (Frame.updateViews c pointer roots w).files hmsg.1 hmsg.2
    (fun c' u v' hv' => ?_) (fun c' name hname => ?_)
  · obtain ⟨v, hv, horigin, -⟩ := hup.views c' u v' hv'
    rw [horigin, hup.named]
    exact inv.view_named c' u v hv
  · exact inv.named_installed c' name (hup.named c' ▸ hname)

theorem resume (inv : NameInv w) (c : Nat) {a : Answer Name}
    (hnames : ∀ name ∈ a.names, w.Installed name) : NameInv (w.resume c a) := by
  cases a with
  | loaded => exact inv
  | failed => exact inv
  | object name pointer k =>
      cases pointer with
      | none =>
          cases k with
          | box => exact inv
          | update rest => exact inv.startUpdate c rest
      | some p =>
          cases k with
          | box => exact inv.box c p (hnames name (by simp [Answer.names]))
          | update rest =>
              exact ((inv.updateViews c p _).send (by simp)).startUpdate c rest
  | objects pointers =>
      refine inv.boxes c fun e he => hnames e.1 ?_
      exact List.mem_map_of_mem he

omit [DecidableEq Name] in
theorem collectRetired (inv : NameInv w) : NameInv w.collectRetired := by
  rw [collectRetired_eq]
  exact inv.of_eq rfl (List.Subset.refl _) (List.Subset.refl _) fun _ h => h

/-- The names `queryall` answers for are installed. -/
theorem queryNames_installed {w₀ : World Name F} (names : List Name)
    (result : List (Name × Obj)) (hfiles : w.files = w₀.files)
    (hres : ∀ e ∈ result, w₀.Installed e.1) :
    ∀ e ∈ (w.queryNames names result).1, w₀.Installed e.1 := by
  induction names generalizing w result with
  | nil => exact hres
  | cons name names ih =>
      rw [World.queryNames]
      cases hl : w.files.lookup name with
      | none => exact ih result hfiles hres
      | some object =>
          refine ih _ hfiles fun e he => ?_
          obtain rfl | he := List.mem_cons.mp he
          · exact List.mem_map_of_mem (hfiles ▸ mem_of_lookup hl)
          · exact hres e (List.mem_filter.mp he).1

theorem handle (inv : NameInv w) (fresh : Obj) (c : Nat) {request : Request Name F}
    (hreq : ∀ name rest, request = .query name (.update rest) → w.Installed name) :
    NameInv (w.handle fresh c request) := by
  cases request with
  | load name document =>
      cases document with
      | none => exact inv.answer (by simp [Answer.names]) (by simp)
      | some document =>
          have hsup : NameInv (w.supersede fresh name document) := by
            have hfiles : (w.supersede fresh name document).files =
                (name, fresh) :: w.files.filter fun e => e.1 ≠ name := by
              cases hl : w.files.lookup name <;> simp only [supersede, hl] <;> rfl
            have hinst : ∀ n, w.Installed n → (w.supersede fresh name document).Installed n := by
              intro n hn
              obtain ⟨e, he, rfl⟩ := List.mem_map.mp hn
              rw [Installed, hfiles, List.map_cons, List.mem_cons]
              by_cases h : e.1 = name
              · exact .inl h
              · exact .inr (List.mem_map_of_mem (List.mem_filter.mpr ⟨he, by simpa using h⟩))
            rw [supersede] at hinst ⊢
            cases hl : w.files.lookup name <;> rw [hl] at hinst <;>
              exact inv.of_eq rfl (List.Subset.refl _) (List.Subset.refl _) hinst
          exact hsup.collectRetired.answer (by simp [Answer.names]) (by simp)
  | query name k =>
      rw [World.handle]
      cases hl : w.files.lookup name with
      | some object =>
          have inv' : NameInv (w.incref object) :=
            inv.of_eq rfl (List.Subset.refl _) (List.Subset.refl _) fun _ h => h
          refine inv'.answer (fun n hn => ?_) (by simp)
          obtain rfl := List.mem_singleton.mp hn
          exact List.mem_map_of_mem (mem_of_lookup hl)
      | none =>
          refine inv.answer (by simp [Answer.names]) fun name' rest heq => ?_
          obtain ⟨rfl, -, rfl⟩ := Answer.object.inj heq
          obtain ⟨e, he, rfl⟩ := List.mem_map.mp (hreq name rest rfl)
          simpa using List.lookup_eq_none_iff.mp hl e he
  | queryall names =>
      have hf := Frame.queryNames (names.getD (w.files.map Prod.fst)) [] w
      have hmsg : ∀ (names : List Name) (result : List (Name × Obj)) (w : World Name F),
          (w.queryNames names result).2.clients = w.clients ∧
          (w.queryNames names result).2.queue = w.queue ∧
          (w.queryNames names result).2.replies = w.replies := by
        intro names
        induction names with
        | nil => exact fun _ _ => ⟨rfl, rfl, rfl⟩
        | cons name names ih =>
            intro result w
            rw [World.queryNames]
            split <;> exact ih _ _
      obtain ⟨hclients, hqueue, hreplies⟩ := hmsg (names.getD (w.files.map Prod.fst)) [] w
      have inv' : NameInv (w.queryNames (names.getD (w.files.map Prod.fst)) []).2 :=
        inv.of_eq hclients (hqueue ▸ List.Subset.refl _) (hreplies ▸ List.Subset.refl _)
          fun n hn => by rw [Installed, hf.files]; exact hn
      refine inv'.answer (fun n hn => ?_) (by simp)
      obtain ⟨e, he, rfl⟩ := List.mem_map.mp hn
      rw [Installed, hf.files]
      exact queryNames_installed _ [] rfl (by simp) e he
  | confirm object =>
      have inv' : NameInv (w.decref object) :=
        inv.of_eq rfl (List.Subset.refl _) (List.Subset.refl _) fun _ h => h
      exact inv'.collectRetired

theorem step {a : Action Name F} (inv : NameInv w) (hstep : w.step a = some w') :
    NameInv w' := by
  cases a with
  | call c op =>
      obtain rfl := Option.some.inj hstep
      cases op with
      | update names => exact inv.startUpdate c names
      | _ => exact inv.send (by simp)
  | host i fresh =>
      simp only [World.step] at hstep
      cases hq : w.queue[i]? with
      | none => simp [hq] at hstep
      | some m =>
          simp only [hq] at hstep
          split at hstep
          · simp at hstep
          · obtain rfl := Option.some.inj hstep
            have invTake : NameInv { w with queue := w.queue.eraseIdx i } :=
              inv.of_eq rfl (List.eraseIdx_subset ..) (List.Subset.refl _) fun _ h => h
            exact invTake.handle fresh m.1
              (inv.update_installed m (List.mem_of_getElem? hq))
  | deliver i =>
      simp only [World.step] at hstep
      cases hr : w.replies[i]? with
      | none => simp [hr] at hstep
      | some m =>
          simp only [hr, Option.some.injEq] at hstep
          subst hstep
          have invTake : NameInv { w with replies := w.replies.eraseIdx i } :=
            inv.of_eq rfl (List.Subset.refl _) (List.eraseIdx_subset ..) fun _ h => h
          exact invTake.resume m.1 (inv.answer_installed m (List.mem_of_getElem? hr))
  | index c proxy entry key =>
      simp only [World.step] at hstep
      split at hstep
      · simp at hstep
      · split at hstep
        · split at hstep
          · obtain rfl := Option.some.inj hstep
            exact (inv.proxyFor c _ _).hold c _
          · obtain rfl := Option.some.inj hstep
            exact inv
        · obtain rfl := Option.some.inj hstep
          exact inv
  | drop c proxy =>
      obtain rfl := Option.some.inj hstep
      exact inv.setClient rfl rfl
  | collect c proxy =>
      simp only [World.step] at hstep
      split at hstep
      · simp at hstep
      · obtain rfl := Option.some.inj hstep
        exact inv.setClient rfl rfl
  | collectBox box =>
      simp only [World.step] at hstep
      split at hstep
      · split at hstep
        · simp at hstep
        · obtain rfl := Option.some.inj hstep
          exact inv.of_eq rfl (List.Subset.refl _) (List.Subset.refl _) fun _ h => h
      · simp at hstep

end NameInv

/-! ## What an update reaches -/

open Transition

/-- Every proxy the program holds from `name` reads from `pointer`. -/
def AllRead (w : World Name F) (c : Nat) (name : Name) (pointer : Obj) : Prop :=
  ∀ q ∈ (w.clients c).held, w.originOf c q = some name → w.readsFrom c q = some pointer

/-- Every view of `name` that the program holds a proxy of is registered
under a root proxy that was not collected, or has the pointer already. -/
def AllRegistered (w : World Name F) (c : Nat) (name : Name) (pointer : Obj) : Prop :=
  ∀ q ∈ (w.clients c).held, ∀ p v, w.record c q = some p →
    (w.clients c).views p.view = some v → v.origin = name →
    v.pointer = pointer ∨ ∃ root, (name, root, p.view) ∈ (w.clients c).roots

variable [DecidableEq Name]

theorem clients_startUpdate (c : Nat) (names : List Name) (w : World Name F) :
    (w.startUpdate c names).clients = w.clients ∧ (w.startUpdate c names).boxes = w.boxes := by
  induction names with
  | nil => exact ⟨rfl, rfl⟩
  | cons name rest ih =>
      rw [startUpdate]
      split
      · exact ⟨rfl, rfl⟩
      · exact ih

/-- The loop of `update` gives every held proxy of the name the pointer
exactly when all their views are registered. -/
theorem allRead_updateViews_iff {w : World Name F} (inv : ViewInv w) (c : Nat) (name : Name)
    (pointer : Obj) :
    (w.updateViews c pointer ((w.clients c).roots.filter fun e => e.1 = name)).AllRead c name
        pointer ↔ w.AllRegistered c name pointer := by
  have inv' := inv.updateViews c pointer ((w.clients c).roots.filter fun e => e.1 = name)
  have hup := updated_updateViews c pointer
    ((w.clients c).roots.filter fun e => e.1 = name) w
  generalize w.updateViews c pointer _ = w' at inv' hup
  have hrecord : ∀ q, w'.record c q = w.record c q := fun q => by
    rw [record, record, hup.proxies]
  -- a view is found by the loop exactly when it is registered
  have hmem : ∀ u, u ∈ ((w.clients c).roots.filter fun e => e.1 = name).map (fun e => e.2.2) ↔
      ∃ root, (name, root, u) ∈ (w.clients c).roots := by
    intro u
    constructor
    · intro h
      obtain ⟨⟨n, root, u'⟩, he, rfl⟩ := List.mem_map.mp h
      obtain ⟨hroot, hn⟩ := List.mem_filter.mp he
      obtain rfl : n = name := by simpa using hn
      exact ⟨root, hroot⟩
    · rintro ⟨root, h⟩
      exact List.mem_map.mpr ⟨_, List.mem_filter.mpr ⟨h, by simp⟩, rfl⟩
  have hview : ∀ {q p v}, w.record c q = some p → (w.clients c).views p.view = some v →
      w'.originOf c q = some v.origin ∧ (w'.readsFrom c q = some pointer ↔
        v.pointer = pointer ∨ ∃ root, (name, root, p.view) ∈ (w.clients c).roots) := by
    intro q p v hp hv
    obtain ⟨v', hv'⟩ := Option.isSome_iff_exists.mp (hup.defined c p.view (by simp [hv]))
    obtain ⟨v₁, hv₁, horigin, hpointer⟩ := hup.views c p.view v' hv'
    obtain rfl : v = v₁ := Option.some.inj (hv.symm.trans hv₁)
    have hp' : w'.record c q = some p := (hrecord q).trans hp
    refine ⟨by simp [originOf, hp', hv', horigin], ?_⟩
    rw [readsFrom_eq inv' hp' hv', Option.some.injEq, hpointer, ← hmem]
    by_cases hu : p.view ∈ ((w.clients c).roots.filter fun e => e.1 = name).map (fun e => e.2.2)
    · simp [hu]
    · simp only [hu, and_false, if_false, or_false]
  constructor
  · intro hall q hq p v hp hv horigin
    obtain ⟨ho, hiff⟩ := hview hp hv
    exact hiff.mp (hall q (hup.held c ▸ hq) (ho.trans (congrArg some horigin)))
  · intro hall q hq horigin
    rw [hup.held] at hq
    obtain ⟨p, hp, hq'⟩ := (inv.client c).held_live q hq
    obtain ⟨p, hp⟩ := Option.isSome_iff_exists.mp
      (List.find?_isSome.mpr ⟨p, hp, by simpa using hq'⟩ : (w.record c q).isSome)
    obtain ⟨v, hv, -⟩ := (inv.client c).proxy_view p (List.mem_of_find?_eq_some hp)
    obtain ⟨ho, hiff⟩ := hview hp hv
    exact hiff.mpr (hall q hq p v hp hv (Option.some.inj (ho.symm.trans horigin)))

/-- **What a hot update reaches**, in every state of every run.  `update`
skips a name only when no proxy of it is held; and when an update of the name
gets its answer, there is a version in it, and every held proxy of the name
then reads from that version if and only if the view of each is still
registered under an uncollected root proxy (or had that version already). -/
theorem update_reaches_iff_registered {actions : List (Action Name F)} {s : World Name F}
    (hrun : run World.step World.init actions = some s) (c : Nat) (name : Name) :
    (name ∉ (s.clients c).named → ∀ q ∈ (s.clients c).held, s.originOf c q ≠ some name) ∧
    ∀ i pointer rest t, s.replies[i]? = some (c, .object name pointer (.update rest)) →
      s.step (.deliver i) = some t →
      ∃ p, pointer = some p ∧ (t.AllRead c name p ↔ s.AllRegistered c name p) := by
  have inv : ViewInv s := run_invariant (fun _ _ _ inv h => inv.step h) ViewInv.init hrun
  have invName : NameInv s := run_invariant (fun _ _ _ inv h => inv.step h) NameInv.init hrun
  constructor
  · intro hnot q _ horigin
    obtain ⟨p, -, hrest⟩ := Option.bind_eq_some_iff.mp horigin
    obtain ⟨v, hv, heq⟩ := Option.bind_eq_some_iff.mp hrest
    exact hnot (Option.some.inj heq ▸ invName.view_named c p.view v hv)
  · intro i pointer rest t hr hstep
    cases pointer with
    | none => exact absurd rfl (invName.update_answered _ (List.mem_of_getElem? hr) name rest)
    | some p =>
        refine ⟨p, rfl, ?_⟩
        simp only [step, hr, Option.some.injEq] at hstep
        subst hstep
        have invTake : ViewInv { s with replies := s.replies.eraseIdx i } := inv.of_eq rfl rfl rfl
        obtain ⟨hclients, hboxes⟩ := clients_startUpdate c rest
          (({ s with replies := s.replies.eraseIdx i }.updateViews c p
            ((s.clients c).roots.filter fun e => e.1 = name)).send c (.confirm p))
        refine Iff.trans ?_ (allRead_updateViews_iff invTake c name p)
        simp only [resume, AllRead, originOf, readsFrom, record, boxObject, hclients, hboxes]
        rfl

end World

/-! ### A nested proxy held without its root -/

/-- A client loads a table, queries it, reads the nested table, and drops the
root proxy, which is collected; then the table is reinstalled and updated.
The last action, the delivery of the update's answer, is left out. -/
def nestedRun : List (Action Bytes Unit) :=
  [.call 0 (.load (ascii "cfg") (some (sampleDocument false))), .host 0 1, .deliver 0,
   .call 0 (.query (ascii "cfg")), .host 0 2, .deliver 0, .host 0 2,
   .index 0 2 0 false, .drop 0 2, .collect 0 2,
   .call 0 (.load (ascii "cfg") (some (sampleDocument true))), .host 0 2, .deliver 0,
   .call 0 (.update [ascii "cfg"]), .host 0 3]

/-- What the run leads to: the update fetched the object at 2, and the nested
proxy, which is held and came from the name, reads the one at 1. -/
theorem nestedRun_outcome :
    ((Transition.run World.step World.init nestedRun).bind fun s =>
      (s.step (.deliver 0)).map fun t =>
        decide (s.replies[0]? = some (0, .object (ascii "cfg") (some 2) (.update []))) &&
        decide (3 ∈ (t.clients 0).held ∧ t.originOf 0 3 = some (ascii "cfg") ∧
          t.readsFrom 0 3 = some 1)) = some true := by
  decide +kernel

/-- After the update the nested proxy still reads the old version. -/
theorem nested_proxy_reads_old_version :
    ¬ ∀ (actions : List (Action Bytes Unit)) (s t : World Bytes Unit) (c i : Nat) (name : Bytes)
      (p : Obj) (rest : List Bytes), Transition.run World.step World.init actions = some s →
      s.replies[i]? = some (c, .object name (some p) (.update rest)) →
      s.step (.deliver i) = some t → t.AllRead c name p := by
  intro hall
  obtain ⟨s, hs, hrest⟩ := Option.bind_eq_some_iff.mp nestedRun_outcome
  obtain ⟨t, ht, hfacts⟩ := Option.map_eq_some_iff.mp hrest
  rw [Bool.and_eq_true, decide_eq_true_eq, decide_eq_true_eq] at hfacts
  obtain ⟨hreply, hheld, horigin, hreads⟩ := hfacts
  have hnew := hall nestedRun s t 0 0 (ascii "cfg") 2 [] hs hreply ht 3 hheld horigin
  rw [hreads] at hnew
  exact absurd hnew (by decide)

/-- The same run with the root proxy kept. -/
def rootedRun : List (Action Bytes Unit) :=
  [.call 0 (.load (ascii "cfg") (some (sampleDocument false))), .host 0 1, .deliver 0,
   .call 0 (.query (ascii "cfg")), .host 0 2, .deliver 0, .host 0 2,
   .index 0 2 0 false,
   .call 0 (.load (ascii "cfg") (some (sampleDocument true))), .host 0 2, .deliver 0,
   .call 0 (.update [ascii "cfg"]), .host 0 3]

theorem rootedRun_outcome :
    ((Transition.run World.step World.init rootedRun).bind fun s =>
      (s.step (.deliver 0)).map fun _ =>
        decide (s.replies[0]? = some (0, .object (ascii "cfg") (some 2) (.update []))) &&
        decide ((s.clients 0).roots = [(ascii "cfg", 2, 1)]) &&
        decide (∀ p ∈ (s.clients 0).proxies, p.view = 1)) = some true := by
  decide +kernel

/-- With the root proxy kept, the update reaches the nested proxy. -/
theorem update_reaches_rooted_proxies :
    ∃ s t, Transition.run World.step World.init rootedRun = some s ∧
      s.step (.deliver 0) = some t ∧ t.AllRead 0 (ascii "cfg") 2 := by
  obtain ⟨s, hs, hrest⟩ := Option.bind_eq_some_iff.mp rootedRun_outcome
  obtain ⟨t, ht, hfacts⟩ := Option.map_eq_some_iff.mp hrest
  rw [Bool.and_eq_true, Bool.and_eq_true, decide_eq_true_eq, decide_eq_true_eq,
    decide_eq_true_eq] at hfacts
  obtain ⟨⟨hreply, hroots⟩, hviews⟩ := hfacts
  obtain ⟨p, hp, hiff⟩ := (World.update_reaches_iff_registered hs 0 (ascii "cfg")).2 0 (some 2) []
    t hreply ht
  obtain rfl := Option.some.inj hp
  refine ⟨s, t, hs, ht, hiff.mpr fun q _ r v hr _ _ => .inr ⟨2, ?_⟩⟩
  rw [hviews r (List.mem_of_find?_eq_some hr), hroots]
  exact List.mem_singleton.mpr rfl

end SkynetJit.Sharetable
