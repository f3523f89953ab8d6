import FreeBSDEdits.ResidentRadix
import FreeBSDEdits.ResidentRuns

namespace FreeBSDEdits

namespace Residency

variable {R Mem P O : Type} {v : VmRadix R Mem P} {s : Residency R P O} {m : P} {o : O} {i : UInt64}

/-- The head of the list saves a search of the tree. -/
theorem AllCoherent.findLeast_eq (hv : v.Lawful) (hs : s.AllCoherent v) :
    s.vmPageFindLeast v o i = v.lookupGe (s.object o).rtree i := by
  have hc := hs o
  unfold vmPageFindLeast
  cases hhead : (s.object o).memq.head? with
  | none =>
    have hnil : (s.object o).memq = [] := List.head?_eq_none_iff.mp hhead
    cases hge : v.lookupGe (s.object o).rtree i with
    | none => rfl
    | some q =>
      have hq := ((hc.lookupGe_some hv).mp hge).1
      rw [hnil] at hq
      cases hq
  | some m =>
    have hm := List.mem_of_mem_head? hhead
    by_cases hlt : (s.page m).pindex < i
    · exact if_pos hlt
    · have hge : v.lookupGe (s.object o).rtree i = some m := by
        rw [UInt64.lt_iff_toNat_lt] at hlt
        exact (hc.lookupGe_some hv).mpr
          ⟨hm, Nat.le_of_not_lt hlt, fun p hp _ => hc.ordered.head_le hhead hp⟩
      rw [hge]
      exact if_neg hlt

theorem memqOf_eq (ho : (s.page m).object = some o) : s.memqOf m = (s.object o).memq := by
  unfold memqOf
  rw [ho]

variable [DecidableEq P]

theorem vmPageNext_some {y : P} : s.vmPageNext m = some y ↔
    TailQueue.next (s.memqOf m) m = some y ∧ (s.page y).pindex = (s.page m).pindex + 1 := by
  unfold vmPageNext
  cases TailQueue.next (s.memqOf m) m with
  | none => simp
  | some z =>
    by_cases hz : (s.page z).pindex = (s.page m).pindex + 1
    · simp only [hz, ne_eq, not_true_eq_false, ↓reduceIte, Option.some.injEq]
      exact ⟨fun h => ⟨h, h ▸ hz⟩, fun h => h.1⟩
    · simp only [hz, ne_eq, not_false_eq_true, ↓reduceIte, Option.some.injEq]
      exact iff_of_false (by simp) fun h => hz (h.1 ▸ h.2)

theorem vmPagePrev_some {y : P} : s.vmPagePrev m = some y ↔
    TailQueue.prev (s.memqOf m) m = some y ∧ (s.page y).pindex = (s.page m).pindex - 1 := by
  unfold vmPagePrev
  cases TailQueue.prev (s.memqOf m) m with
  | none => simp
  | some z =>
    by_cases hz : (s.page z).pindex = (s.page m).pindex - 1
    · simp only [hz, ne_eq, not_true_eq_false, ↓reduceIte, Option.some.injEq]
      exact ⟨fun h => ⟨h, h ▸ hz⟩, fun h => h.1⟩
    · simp only [hz, ne_eq, not_false_eq_true, ↓reduceIte, Option.some.injEq]
      exact iff_of_false (by simp) fun h => hz (h.1 ▸ h.2)

/-- Past the last index nothing is next, although the sum wraps to index 0. -/
theorem AllCoherent.next_eq (hs : s.AllCoherent v) (ho : (s.page m).object = some o) :
    s.vmPageNext m = if (s.page m).pindex + 1 = 0 then none
      else s.map v o ((s.page m).pindex + 1) := by
  have hc := hs o
  have hm := (hc.mem_iff m).mpr ho
  have hadd : ((s.page m).pindex + 1).toNat = ((s.page m).pindex.toNat + 1) % 2 ^ 64 :=
    UInt64.toNat_add ..
  have hlt := (s.page m).pindex.toNat_lt
  refine Option.ext fun y => ?_
  rw [vmPageNext_some, memqOf_eq ho, hc.ordered.next_iff hm]
  constructor
  · rintro ⟨⟨hy, hmy, -⟩, hidx⟩
    have hne : (s.page m).pindex + 1 ≠ 0 := by
      intro h0
      rw [hidx, h0] at hmy
      exact Nat.not_lt_zero _ hmy
    rw [if_neg hne]
    exact (hs.places o _ y).mpr ⟨(hc.mem_iff y).mp hy, hidx⟩
  · intro hy
    split at hy
    next => cases hy
    next hne =>
      obtain ⟨hyo, hidx⟩ := (hs.places o _ y).mp hy
      have hne' : ((s.page m).pindex + 1).toNat ≠ 0 := fun h => hne (UInt64.toNat_inj.mp h)
      have hkey : (s.page y).pindex.toNat = (s.page m).pindex.toNat + 1 := by
        rw [hidx]
        omega
      refine ⟨⟨(hc.mem_iff y).mpr hyo, ?_, fun z _ hz => ?_⟩, hidx⟩
      · omega
      · omega

theorem AllCoherent.prev_eq (hs : s.AllCoherent v) (ho : (s.page m).object = some o) :
    s.vmPagePrev m = if (s.page m).pindex = 0 then none
      else s.map v o ((s.page m).pindex - 1) := by
  have hc := hs o
  have hm := (hc.mem_iff m).mpr ho
  have hlt := (s.page m).pindex.toNat_lt
  refine Option.ext fun y => ?_
  rw [vmPagePrev_some, memqOf_eq ho, hc.ordered.prev_iff hm]
  constructor
  · rintro ⟨⟨hy, hmy, -⟩, hidx⟩
    have hne : (s.page m).pindex ≠ 0 := by
      intro h0
      rw [h0] at hmy
      exact Nat.not_lt_zero _ hmy
    rw [if_neg hne]
    exact (hs.places o _ y).mpr ⟨(hc.mem_iff y).mp hy, hidx⟩
  · intro hy
    split at hy
    next => cases hy
    next hne =>
      obtain ⟨hyo, hidx⟩ := (hs.places o _ y).mp hy
      have hne' : (s.page m).pindex.toNat ≠ 0 := fun h => hne (UInt64.toNat_inj.mp h)
      have hle : (1 : UInt64) ≤ (s.page m).pindex := by
        rw [UInt64.le_iff_toNat_le]
        exact Nat.pos_of_ne_zero hne'
      have hkey : (s.page y).pindex.toNat = (s.page m).pindex.toNat - 1 := by
        rw [hidx]
        exact UInt64.toNat_sub_of_le _ _ hle
      refine ⟨⟨(hc.mem_iff y).mpr hyo, ?_, fun z _ hz => ?_⟩, hidx⟩
      · omega
      · omega

variable [DecidableEq O] {writeMapped : P → Bool} {page : P → ResidentPage O} {vnode : O → Bool}
  {h : List (ResidentOp Mem P O × Bool)}

theorem run_of_replay (v : VmRadix R Mem P) (writeMapped : P → Bool) (page : P → ResidentPage O)
    (vnode : O → Bool) (ops : List (ResidentOp Mem P O))
    (check : List (ResidentOp Mem P O × Bool) → Residency R P O → Bool)
    (hp : (GuardedRun.replay (step v writeMapped) (fun _ => Asked v) [] (start v page vnode) ops).any
      (fun r => check r.1 r.2) = true) :
    ∃ h s, Run v writeMapped page vnode h s ∧ check h s = true :=
  GuardedRun.exists_of_replay hp

/-- A page to be allocated, all of it valid. -/
def freePage (O : Type) : ResidentPage O := ⟨none, 0, vmPageBitsAll, 0, vpbUnbusied, pqNone⟩

/-- Two pages go into one object, a third fails to follow, and the first moves to another object. -/
theorem exists_moved : ∃ h, ∃ s : Residency (List (UInt64 × Nat)) Nat Nat,
    Run (listRadix Nat) (fun _ => false) (fun _ => freePage Nat) (fun _ => true) h s ∧
      (s.object 0).memq = [2] ∧ replayed h 1 7 = some 1 := by
  obtain ⟨h, s, hr, hc⟩ := run_of_replay (listRadix Nat) (fun _ => false)
    (fun _ => freePage Nat) (fun _ => true)
    [.insert true 1 0 5, .insert true 2 0 3, .insert false 3 0 4, .rename true 1 1 7]
    (fun h s => (s.object 0).memq = [2] ∧ replayed h 1 7 = some 1) (by decide +kernel)
  exact ⟨h, s, hr, of_decide_eq_true hc⟩

/-- In every run the list, the tree, the counter and the vnode hold of each object agree, and no
call that keeps to its contract fails an assertion. -/
theorem objects_agree (hv : v.Lawful) (hr : Run v writeMapped page vnode h s) (o : O) :
    ((s.object o).memq.Pairwise fun p q => (s.page p).pindex < (s.page q).pindex) ∧
      (∀ m, m ∈ (s.object o).memq ↔ (s.page m).object = some o) ∧
      (∀ i m, s.vmPageLookup v o i = some m ↔
        (s.page m).object = some o ∧ (s.page m).pindex = i) ∧
      (s.object o).residentPageCount = (s.object o).memq.length ∧
      (s.object o).held = (if (s.object o).vnode = true ∧ (s.object o).memq ≠ [] then 1 else 0) ∧
      ∀ op, s.Asked v op → (s.step v writeMapped op).isSome = true := by
  obtain ⟨hs, -⟩ := hr.coherent hv
  have hc := hs o
  refine ⟨?_, hc.mem_iff, hc.lookup_iff, hc.count, hc.held, fun op hop => ?_⟩
  · exact List.Pairwise.imp (fun hlt => UInt64.lt_iff_toNat_lt.mpr hlt) hc.ordered
  · have hf : s.Follows v writeMapped op := hs.follows hv hop
    obtain ⟨s', failed, hstep, -⟩ := hf
    rw [hstep]
    rfl

theorem objects_agree_moved : ∃ s : Residency (List (UInt64 × Nat)) Nat Nat,
    (s.object 0).memq = [2] ∧ (s.object 0).residentPageCount = (s.object 0).memq.length ∧
      ∀ m, m ∈ (s.object 0).memq ↔ (s.page m).object = some 0 := by
  obtain ⟨h, s, hr, hmemq, -⟩ := exists_moved
  obtain ⟨-, hmem, -, hcount, -⟩ := objects_agree listRadix.lawful hr 0
  exact ⟨s, hmemq, hcount, hmem⟩

/-- The pages resident in the objects are what the operations and their answers make of the empty
map: a failed insertion or renaming leaves it as it was. -/
theorem lookup_replayed (hv : v.Lawful) (hr : Run v writeMapped page vnode h s) (o : O)
    (i : UInt64) : s.vmPageLookup v o i = replayed h o i := by
  rw [← (hr.coherent hv).2]
  rfl

theorem lookup_replayed_moved : ∃ s : Residency (List (UInt64 × Nat)) Nat Nat,
    (s.object 0).memq = [2] ∧ s.vmPageLookup (listRadix Nat) 1 7 = some 1 := by
  obtain ⟨h, s, hr, hmemq, hmoved⟩ := exists_moved
  exact ⟨s, hmemq, (lookup_replayed listRadix.lawful hr 1 7).trans hmoved⟩

/-- The searches along the list answer what the map says. -/
theorem searches_replayed (hv : v.Lawful) (hr : Run v writeMapped page vnode h s) (o : O) :
    (∀ i m, s.vmPageFindLeast v o i = some m ↔ ∃ j, i ≤ j ∧ replayed h o j = some m ∧
        ∀ k, i ≤ k → (replayed h o k).isSome → j ≤ k) ∧
      ∀ i m, replayed h o i = some m →
        s.vmPageNext m = (if i + 1 = 0 then none else replayed h o (i + 1)) ∧
        s.vmPagePrev m = if i = 0 then none else replayed h o (i - 1) := by
  obtain ⟨hs, hmap⟩ := hr.coherent hv
  rw [← hmap]
  refine ⟨fun i m => ?_, fun i m hm => ?_⟩
  · rw [hs.findLeast_eq hv]
    exact hv.lookupGe_iff ..
  · obtain ⟨ho, rfl⟩ := (hs.places o i m).mp hm
    exact ⟨hs.next_eq ho, hs.prev_eq ho⟩

/-- Pages at the indices 3, 4 and 7: the last one has a predecessor on the list, but not at index 6. -/
theorem searches_replayed_three : ∃ s : Residency (List (UInt64 × Nat)) Nat Nat,
    (s.object 0).memq = [2, 3, 1] ∧ s.vmPageFindLeast (listRadix Nat) 0 5 = some 1 ∧
      s.vmPageNext 2 = some 3 ∧ s.vmPageNext 3 = none ∧ s.vmPagePrev 3 = some 2 ∧
      s.vmPagePrev 1 = none := by
  obtain ⟨h, s, hr, hc⟩ := run_of_replay (listRadix Nat) (fun _ => false)
    (fun _ => freePage Nat) (fun _ => true)
    [.insert true 1 0 7, .insert true 2 0 3, .insert true 3 0 4]
    (fun h s => (s.object 0).memq = [2, 3, 1] ∧ replayed h 0 3 = some 2 ∧ replayed h 0 4 = some 3 ∧
      replayed h 0 5 = none ∧ replayed h 0 6 = none ∧ replayed h 0 7 = some 1)
    (by decide +kernel)
  obtain ⟨hmemq, h3, h4, h5, h6, h7⟩ := of_decide_eq_true hc
  obtain ⟨hleast, hnear⟩ := searches_replayed listRadix.lawful hr 0
  refine ⟨s, hmemq, (hleast 5 1).mpr ⟨7, by decide, h7, fun k hk hsome => ?_⟩,
    (hnear 3 2 h3).1.trans h4, (hnear 4 3 h4).1.trans h5, (hnear 4 3 h4).2.trans h3,
    (hnear 7 1 h7).2.trans h6⟩
  by_contra hlt
  have hk' : k.toNat = 5 ∨ k.toNat = 6 := by
    rw [UInt64.le_iff_toNat_le] at hk hlt
    change 5 ≤ k.toNat at hk
    change ¬7 ≤ k.toNat at hlt
    omega
  rcases hk' with he | he
  · rw [show k = 5 from UInt64.toNat_inj.mp he, h5] at hsome
    cases hsome
  · rw [show k = 6 from UInt64.toNat_inj.mp he, h6] at hsome
    cases hsome

end Residency

end FreeBSDEdits
