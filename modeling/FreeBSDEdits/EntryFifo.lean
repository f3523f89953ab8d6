import Mathlib.Data.List.Perm.Basic
import Mathlib.Data.List.Nodup

/-- An element enters at the back, from outside or from a place in the queue, or leaves the front. -/
inductive EntryFifo.Event (α : Type)
  | enter (x : α)
  | leave (x : α)

namespace EntryFifo

variable {α : Type} [DecidableEq α]

/-- The queue after a history, the newest event first. -/
inductive Runs : List (Event α) → List α → Prop
  | nil : Runs [] []
  | enter {log q} (x) : Runs log q → Runs (.enter x :: log) (q.erase x ++ [x])
  | leave {log x q} : Runs log (x :: q) → Runs (.leave x :: log) q

/-- The position in the history at which an element entered last. -/
def lastEntered : List (Event α) → α → Nat
  | .enter x :: log, y => if x = y then log.length + 1 else lastEntered log y
  | .leave _ :: log, y => lastEntered log y
  | [], _ => 0

/-- What left, the first one first, with the positions at which it had entered. -/
def left : List (Event α) → List (α × Nat)
  | .leave x :: log => left log ++ [(x, lastEntered log x)]
  | .enter _ :: log => left log
  | [] => []

variable {log : List (Event α)} {q : List α}

theorem lastEntered_le (log : List (Event α)) (x : α) : lastEntered log x ≤ log.length := by
  induction log with
  | nil => exact Nat.le_refl _
  | cons e log ih =>
    cases e with
    | enter y =>
      rw [lastEntered, List.length_cons]
      split
      next => exact Nat.le_refl _
      next => omega
    | leave y =>
      rw [lastEntered, List.length_cons]
      omega

theorem left_le {p : α × Nat} (hp : p ∈ left log) : p.2 ≤ log.length := by
  induction log with
  | nil => cases hp
  | cons e log ih =>
    rw [List.length_cons]
    cases e with
    | enter y => exact Nat.le_succ_of_le (ih hp)
    | leave y =>
      rcases List.mem_append.mp hp with hp | hp
      · exact Nat.le_succ_of_le (ih hp)
      · rw [List.mem_singleton.mp hp]
        exact Nat.le_succ_of_le (lastEntered_le log y)

theorem nodup_of_ordered (h : ((left log).map Prod.snd ++ q.map (lastEntered log)).Pairwise (· < ·)) :
    q.Nodup := by
  have hq := (List.pairwise_append.mp h).2.1
  rw [List.pairwise_map] at hq
  refine hq.imp (fun {x y} hlt => ?_)
  rintro rfl
  exact Nat.lt_irrefl _ hlt

/-- The queue is ordered by the last entries, and what left had entered before all of it. -/
theorem Runs.ordered (hr : Runs log q) :
    ((left log).map Prod.snd ++ q.map (lastEntered log)).Pairwise (· < ·) := by
  induction hr with
  | nil => exact .nil
  | @enter log q x _ ih =>
    have hnodup := nodup_of_ordered ih
    have hold : (q.erase x).map (lastEntered (.enter x :: log)) =
        (q.erase x).map (lastEntered log) := by
      refine List.map_congr_left (fun y hy => ?_)
      rw [lastEntered, if_neg (fun he => (hnodup.mem_erase_iff.mp hy).1 he.symm)]
    have hsub : ((left log).map Prod.snd ++ (q.erase x).map (lastEntered log)).Sublist
        ((left log).map Prod.snd ++ q.map (lastEntered log)) :=
      .append (.refl _) (List.erase_sublist.map _)
    rw [left, List.map_append, hold, ← List.append_assoc, List.pairwise_append]
    refine ⟨ih.sublist hsub, List.pairwise_singleton _ _, fun a ha b hb => ?_⟩
    have hle : a ≤ log.length := by
      rcases List.mem_append.mp ha with ha | ha
      · obtain ⟨p, hp, rfl⟩ := List.mem_map.mp ha
        exact left_le hp
      · obtain ⟨y, _, rfl⟩ := List.mem_map.mp ha
        exact lastEntered_le log y
    rw [List.mem_singleton.mp hb, lastEntered, if_pos rfl]
    omega
  | @leave log x q _ ih =>
    rw [left, List.map_append, List.append_assoc]
    exact ih

end EntryFifo
