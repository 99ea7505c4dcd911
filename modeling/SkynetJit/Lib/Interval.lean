import Mathlib.Data.List.TakeWhile
import Mathlib.Tactic.SplitIfs

/-!
# SkynetJit.Lib.Interval

The part of a list between two bounds, and the loops that find it.

A bound is a test: `lower` fails on a front part of the list and holds from
there on, `upper` holds on a front part and fails from there on.  `Cut` is the
list cut in three, before, inside and after.  A walk scans up to the first
element inside and goes on while it stays inside; `keepWhile_scanFrom` says
that it meets what is inside, in either direction and from any offset.

Nothing here depends on the elements.
-/

namespace SkynetJit

namespace ListInterval

variable {α : Type}

/-- Scan for the first element where `enter` holds: the list from there on, if
`stay` holds too. -/
def scanFrom (enter stay : α → Bool) : List α → List α
  | [] => []
  | a :: l => if enter a then (if stay a then a :: l else []) else scanFrom enter stay l

/-- Take elements while `stay` holds, and no more than the limit; a negative
limit is none. -/
def keepWhile (stay : α → Bool) : Int → List α → List α
  | _, [] => []
  | limit, a :: l =>
      if limit = 0 then []
      else if stay a then a :: keepWhile stay (limit - 1) l
      else []

/-- No more elements than the limit. -/
def limited (limit : Int) (l : List α) : List α := if limit < 0 then l else l.take limit.toNat

/-- A list cut in three: `enter` fails before, both hold inside, and `stay`
fails after. -/
structure Cut (enter stay : α → Bool) (l A M B : List α) : Prop where
  eq : l = A ++ (M ++ B)
  before : ∀ a ∈ A, enter a = false
  inside : ∀ a ∈ M, enter a = true ∧ stay a = true
  after : ∀ a ∈ B, stay a = false

variable {enter stay : α → Bool} {l A M B : List α}

theorem limited_nil (limit : Int) : limited limit ([] : List α) = [] := by
  rw [limited]
  split_ifs <;> simp

theorem limited_cons_of_ne {limit : Int} (h : limit ≠ 0) (a : α) (l : List α) :
    limited limit (a :: l) = a :: limited (limit - 1) l := by
  rw [limited, limited]
  split_ifs with hneg hneg' hneg'
  · rfl
  · omega
  · omega
  · rw [show limit.toNat = (limit - 1).toNat + 1 by omega, List.take_succ_cons]

theorem keepWhile_eq_nil (h : ∀ a ∈ l, stay a = false) (limit : Int) : keepWhile stay limit l = [] := by
  cases l with
  | nil => rfl
  | cons a l =>
      rw [keepWhile, h a List.mem_cons_self, if_neg Bool.false_ne_true, ite_self]

/-- What is kept of a part inside and a part after it. -/
theorem keepWhile_append (hM : ∀ a ∈ M, stay a = true) (hB : ∀ a ∈ B, stay a = false) (limit : Int) :
    keepWhile stay limit (M ++ B) = limited limit M := by
  induction M generalizing limit with
  | nil => rw [List.nil_append, keepWhile_eq_nil hB, limited_nil]
  | cons a M ih =>
      rw [List.cons_append, keepWhile]
      split_ifs with hzero hstay
      · rw [hzero, limited]
        rfl
      · rw [ih (fun b hb => hM b (List.mem_cons_of_mem a hb)), limited_cons_of_ne hzero]
      · exact absurd (hM a List.mem_cons_self) hstay

theorem keepWhile_drop (hM : ∀ a ∈ M, stay a = true) (hB : ∀ a ∈ B, stay a = false) (limit : Int)
    (n : Nat) : keepWhile stay limit ((M ++ B).drop n) = limited limit (M.drop n) := by
  rw [List.drop_append]
  exact keepWhile_append (fun a ha => hM a (List.mem_of_mem_drop ha))
    (fun a ha => hB a (List.mem_of_mem_drop ha)) limit

theorem keepWhile_sublist (stay : α → Bool) (limit : Int) (l : List α) :
    (keepWhile stay limit l).Sublist l := by
  induction l generalizing limit with
  | nil => exact .slnil
  | cons a l ih =>
      rw [keepWhile]
      split_ifs
      · exact List.nil_sublist _
      · exact (ih _).cons_cons a
      · exact List.nil_sublist _

theorem scanFrom_sublist (enter stay : α → Bool) (l : List α) : (scanFrom enter stay l).Sublist l := by
  induction l with
  | nil => exact .slnil
  | cons a l ih =>
      rw [scanFrom]
      split_ifs
      · exact .refl _
      · exact List.nil_sublist _
      · exact ih.cons a

/-- Without a limit, the loop takes elements while the test holds. -/
theorem keepWhile_neg {limit : Int} (h : limit < 0) (l : List α) :
    keepWhile stay limit l = l.takeWhile stay := by
  induction l generalizing limit with
  | nil => rfl
  | cons a l ih => rw [keepWhile, if_neg (by omega), List.takeWhile_cons, ih (by omega)]

theorem takeWhile_append (hM : ∀ a ∈ M, stay a = true) (hB : ∀ a ∈ B, stay a = false) :
    (M ++ B).takeWhile stay = M := by
  rw [← keepWhile_neg (show (-1 : Int) < 0 by decide), keepWhile_append hM hB]
  rfl

/-- The scan stops where the inside starts. -/
theorem Cut.scanFrom (h : Cut enter stay l A M B) :
    scanFrom enter stay l = if M = [] then [] else M ++ B := by
  obtain ⟨rfl, hA, hM, hB⟩ := h
  induction A with
  | nil =>
      cases M with
      | nil =>
          rw [if_pos rfl]
          induction B with
          | nil => rfl
          | cons b B ih =>
              rw [List.nil_append, List.nil_append, ListInterval.scanFrom, hB b List.mem_cons_self]
              split_ifs with henter hstay
              · contradiction
              · rfl
              · exact ih fun a ha => hB a (List.mem_cons_of_mem b ha)
      | cons a M =>
          obtain ⟨henter, hstay⟩ := hM a List.mem_cons_self
          rw [List.nil_append, List.cons_append, ListInterval.scanFrom, if_pos henter, if_pos hstay,
            if_neg (by simp)]
  | cons a A ih =>
      rw [List.cons_append, ListInterval.scanFrom, hA a List.mem_cons_self, if_neg Bool.false_ne_true]
      exact ih fun b hb => hA b (List.mem_cons_of_mem a hb)

/-- **The walk** meets what is inside, from an offset and up to a limit. -/
theorem Cut.keepWhile_scanFrom (h : Cut enter stay l A M B) (limit : Int) (n : Nat) :
    keepWhile stay limit ((ListInterval.scanFrom enter stay l).drop n) = limited limit (M.drop n) := by
  rw [h.scanFrom]
  split_ifs with hM
  · rw [hM, List.drop_nil, limited_nil]
    rfl
  · exact keepWhile_drop (fun a ha => (h.inside a ha).2) h.after limit n

/-- What is inside is what both tests select. -/
theorem Cut.filter_eq (h : Cut enter stay l A M B) : l.filter (fun a => enter a && stay a) = M := by
  have hA : A.filter (fun a => enter a && stay a) = [] :=
    List.filter_eq_nil_iff.mpr fun a ha => by simp [h.before a ha]
  have hB : B.filter (fun a => enter a && stay a) = [] :=
    List.filter_eq_nil_iff.mpr fun a ha => by simp [h.after a ha]
  have hM : M.filter (fun a => enter a && stay a) = M :=
    List.filter_eq_self.mpr fun a ha => by simp [h.inside a ha]
  rw [h.eq, List.filter_append, List.filter_append, hA, hM, hB, List.nil_append, List.append_nil]

/-- The same cut, seen from the end. -/
theorem Cut.reverse (h : Cut enter stay l A M B) :
    Cut stay enter l.reverse B.reverse M.reverse A.reverse where
  eq := by rw [h.eq]; simp
  before a ha := h.after a (List.mem_reverse.mp ha)
  inside a ha := (h.inside a (List.mem_reverse.mp ha)).symm
  after a ha := h.before a (List.mem_reverse.mp ha)

/-- Along the list, the lower test keeps holding and the upper test keeps
failing. -/
structure Ascends (lower upper : α → Bool) (l : List α) : Prop where
  lower : l.Pairwise fun a b => lower a = true → lower b = true
  upper : l.Pairwise fun a b => upper b = true → upper a = true

/-- **Such a list can be cut**, and the lower test holds from the inside on. -/
theorem Ascends.exists_cut {lower upper : α → Bool} (h : Ascends lower upper l) :
    ∃ A M B, Cut lower upper l A M B ∧ ∀ b ∈ B, lower b = true := by
  induction l with
  | nil => exact ⟨[], [], [], ⟨rfl, nofun, nofun, nofun⟩, nofun⟩
  | cons a l ih =>
      have hlower := List.pairwise_cons.mp h.lower
      have hupper := List.pairwise_cons.mp h.upper
      obtain ⟨A, M, B, hcut, hfrom⟩ := ih ⟨hlower.2, hupper.2⟩
      cases hla : lower a with
      | false =>
          refine ⟨a :: A, M, B, ⟨by rw [hcut.eq]; rfl, fun b hb => ?_, hcut.inside, hcut.after⟩, hfrom⟩
          rcases List.mem_cons.mp hb with rfl | hb'
          · exact hla
          · exact hcut.before b hb'
      | true =>
          -- nothing that follows is before the range
          have hA : A = [] := by
            cases A with
            | nil => rfl
            | cons b A =>
                have hb := hcut.before b List.mem_cons_self
                rw [hlower.1 b (by rw [hcut.eq]; simp) hla] at hb
                contradiction
          subst hA
          cases hua : upper a with
          | true =>
              refine ⟨[], a :: M, B, ⟨by rw [hcut.eq]; rfl, nofun, fun b hb => ?_, hcut.after⟩, hfrom⟩
              rcases List.mem_cons.mp hb with rfl | hb'
              · exact ⟨hla, hua⟩
              · exact hcut.inside b hb'
          | false =>
              refine ⟨[], [], a :: l, ⟨rfl, nofun, nofun, fun b hb => ?_⟩, fun b hb => ?_⟩
              · rcases List.mem_cons.mp hb with rfl | hb'
                · exact hua
                · cases hub : upper b with
                  | false => rfl
                  | true => exact absurd (hupper.1 b hb' hub) (by simp [hua])
              · rcases List.mem_cons.mp hb with rfl | hb'
                · exact hla
                · exact hlower.1 b hb' hla

end ListInterval

end SkynetJit
