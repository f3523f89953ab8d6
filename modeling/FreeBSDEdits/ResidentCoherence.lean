import FreeBSDEdits.ResidentPages
import Mathlib.Data.List.MinMax

namespace FreeBSDEdits

variable {R Mem P O : Type}

/-- An object's list, its tree and its counters agree with what the pages say about themselves. -/
structure Coherent (v : VmRadix R Mem P) (page : P → ResidentPage O) (o : O)
    (x : ResidentObject R P) : Prop where
  ordered : OrderedQueue (fun m => (page m).pindex.toNat) x.memq
  mem_iff : ∀ m, m ∈ x.memq ↔ (page m).object = some o
  lookup_iff : ∀ i m, v.lookup x.rtree i = some m ↔ (page m).object = some o ∧ (page m).pindex = i
  count : x.residentPageCount = x.memq.length
  held : x.held = if x.vnode = true ∧ x.memq ≠ [] then 1 else 0

namespace Coherent

variable {v : VmRadix R Mem P} {page page' : P → ResidentPage O} {o : O} {x : ResidentObject R P}
  {m q : P} {i : UInt64}

theorem other (hc : Coherent v page o x)
    (hobject : ∀ q, (page' q).object = some o ↔ (page q).object = some o)
    (hpindex : ∀ q, (page q).object = some o → (page' q).pindex = (page q).pindex) :
    Coherent v page' o x where
  ordered := hc.ordered.congr fun q hq => by rw [hpindex q ((hc.mem_iff q).mp hq)]
  mem_iff q := (hc.mem_iff q).trans (hobject q).symm
  lookup_iff i q := by
    rw [hc.lookup_iff, hobject]
    constructor
    · rintro ⟨ho, hi⟩
      exact ⟨ho, (hpindex q ho).trans hi⟩
    · rintro ⟨ho, hi⟩
      exact ⟨ho, (hpindex q ho).symm.trans hi⟩
  count := hc.count
  held := hc.held

theorem isSome_of_mem (hc : Coherent v page o x) (hq : q ∈ x.memq) :
    v.lookup x.rtree (page q).pindex = some q :=
  (hc.lookup_iff _ q).mpr ⟨(hc.mem_iff q).mp hq, rfl⟩

theorem lookupLe_some (hv : v.Lawful) (hc : Coherent v page o x) :
    v.lookupLe x.rtree i = some q ↔ q ∈ x.memq ∧ (page q).pindex.toNat ≤ i.toNat ∧
      ∀ p ∈ x.memq, (page p).pindex.toNat ≤ i.toNat →
        (page p).pindex.toNat ≤ (page q).pindex.toNat := by
  rw [hv.lookupLe_iff]
  constructor
  · rintro ⟨j, hj, hq, hmax⟩
    obtain ⟨ho, rfl⟩ := (hc.lookup_iff j q).mp hq
    refine ⟨(hc.mem_iff q).mpr ho, UInt64.le_iff_toNat_le.mp hj, fun p hp hle => ?_⟩
    exact UInt64.le_iff_toNat_le.mp
      (hmax _ (UInt64.le_iff_toNat_le.mpr hle) (by rw [hc.isSome_of_mem hp]; rfl))
  · rintro ⟨hq, hle, hmax⟩
    refine ⟨_, UInt64.le_iff_toNat_le.mpr hle, hc.isSome_of_mem hq, fun k hk hsome => ?_⟩
    obtain ⟨p, hp⟩ := Option.isSome_iff_exists.mp hsome
    obtain ⟨ho, rfl⟩ := (hc.lookup_iff k p).mp hp
    exact UInt64.le_iff_toNat_le.mpr
      (hmax p ((hc.mem_iff p).mpr ho) (UInt64.le_iff_toNat_le.mp hk))

theorem lookupGe_some (hv : v.Lawful) (hc : Coherent v page o x) :
    v.lookupGe x.rtree i = some q ↔ q ∈ x.memq ∧ i.toNat ≤ (page q).pindex.toNat ∧
      ∀ p ∈ x.memq, i.toNat ≤ (page p).pindex.toNat →
        (page q).pindex.toNat ≤ (page p).pindex.toNat := by
  rw [hv.lookupGe_iff]
  constructor
  · rintro ⟨j, hj, hq, hmin⟩
    obtain ⟨ho, rfl⟩ := (hc.lookup_iff j q).mp hq
    refine ⟨(hc.mem_iff q).mpr ho, UInt64.le_iff_toNat_le.mp hj, fun p hp hle => ?_⟩
    exact UInt64.le_iff_toNat_le.mp
      (hmin _ (UInt64.le_iff_toNat_le.mpr hle) (by rw [hc.isSome_of_mem hp]; rfl))
  · rintro ⟨hq, hle, hmin⟩
    refine ⟨_, UInt64.le_iff_toNat_le.mpr hle, hc.isSome_of_mem hq, fun k hk hsome => ?_⟩
    obtain ⟨p, hp⟩ := Option.isSome_iff_exists.mp hsome
    obtain ⟨ho, rfl⟩ := (hc.lookup_iff k p).mp hp
    exact UInt64.le_iff_toNat_le.mpr
      (hmin p ((hc.mem_iff p).mpr ho) (UInt64.le_iff_toNat_le.mp hk))

/-- No page is below `i`: the greatest of them would be found. -/
theorem lookupLe_none (hv : v.Lawful) (hc : Coherent v page o x)
    (hn : v.lookupLe x.rtree i = none) : ∀ p ∈ x.memq, i.toNat < (page p).pindex.toNat := by
  intro p hp
  by_contra hle
  have hle := Nat.le_of_not_lt hle
  have hmem : p ∈ x.memq.filter (fun q => (page q).pindex.toNat ≤ i.toNat) := by simp [hp, hle]
  cases hmax : (x.memq.filter fun q => (page q).pindex.toNat ≤ i.toNat).argmax
      (fun q => (page q).pindex.toNat) with
  | none =>
    rw [List.argmax_eq_none.mp hmax] at hmem
    cases hmem
  | some q =>
    obtain ⟨hq, hqi⟩ := List.mem_filter.mp (List.argmax_mem hmax)
    have hsome : v.lookupLe x.rtree i = some q := by
      refine (hc.lookupLe_some hv).mpr ⟨hq, by simpa using hqi, fun r hr hri => ?_⟩
      have hrf : r ∈ x.memq.filter (fun q => (page q).pindex.toNat ≤ i.toNat) := by simp [hr, hri]
      exact List.le_of_mem_argmax (f := fun q => (page q).pindex.toNat) hrf hmax
    rw [hn] at hsome
    cases hsome

/-- At a free index the page found is strictly below. -/
theorem lookupLe_lt (hv : v.Lawful) (hc : Coherent v page o x) (hfree : v.lookup x.rtree i = none)
    (hq : v.lookupLe x.rtree i = some q) :
    q ∈ x.memq ∧ (page q).pindex.toNat < i.toNat ∧
      ∀ p ∈ x.memq, (page q).pindex.toNat < (page p).pindex.toNat →
        i.toNat < (page p).pindex.toNat := by
  obtain ⟨hmem, hle, hmax⟩ := (hc.lookupLe_some hv).mp hq
  have hne : ∀ p ∈ x.memq, (page p).pindex ≠ i := by
    intro p hp heq
    have hsome := hc.isSome_of_mem hp
    rw [heq, hfree] at hsome
    cases hsome
  have hneq : ∀ p ∈ x.memq, (page p).pindex.toNat ≠ i.toNat :=
    fun p hp heq => hne p hp (UInt64.toNat_inj.mp heq)
  refine ⟨hmem, Nat.lt_of_le_of_ne hle (hneq q hmem), fun p hp hlt => ?_⟩
  by_contra hnot
  have := hmax p hp (Nat.le_of_not_lt hnot)
  omega

variable [DecidableEq P]

/-- Where the list takes a page that goes behind `mpred`. -/
def linked (x : ResidentObject R P) (m : P) : Option P → List P
  | some q => TailQueue.insertAfter x.memq q m
  | none => m :: x.memq

theorem linked_perm {mpred : Option P} (hpred : ∀ q, mpred = some q → q ∈ x.memq) :
    (linked x m mpred).Perm (m :: x.memq) := by
  cases mpred with
  | none => exact .refl _
  | some q => exact TailQueue.insertAfter_perm (hpred q rfl)

/-- A page that was in no object, or in another one, is put in at a free index. -/
theorem put {mem : Mem} {rtree : R} (dirtied : Nat) (hv : v.Lawful) (hc : Coherent v page o x)
    (hm : (page m).object ≠ some o) (hfree : v.lookup x.rtree i = none)
    (hins : v.insert mem x.rtree i m = some rtree) (hobject : (page' m).object = some o)
    (hpindex : (page' m).pindex = i)
    (hothers : ∀ q, q ≠ m → (page' q).object = (page q).object ∧
      (page' q).pindex = (page q).pindex) :
    Coherent v page' o { x with
      rtree := rtree
      memq := linked x m (v.lookupLe x.rtree i)
      residentPageCount := x.residentPageCount + 1
      held := if x.residentPageCount + 1 = 1 ∧ x.vnode then x.held + 1 else x.held
      writeableDirty := dirtied } := by
  have hnot : m ∉ x.memq := fun h => hm ((hc.mem_iff m).mp h)
  have hne : ∀ q ∈ x.memq, q ≠ m := fun q hq he => hnot (he ▸ hq)
  have hpred : ∀ q, v.lookupLe x.rtree i = some q → q ∈ x.memq :=
    fun q hq => (hc.lookupLe_lt hv hfree hq).1
  have hperm := linked_perm (m := m) hpred
  have hold : OrderedQueue (fun q => (page' q).pindex.toNat) x.memq :=
    hc.ordered.congr fun q hq => by rw [(hothers q (hne q hq)).2]
  refine ⟨?_, fun q => ?_, fun j q => ?_, ?_, ?_⟩
  · cases hle : v.lookupLe x.rtree i with
    | none =>
      refine hold.cons fun q hq => ?_
      rw [hpindex, (hothers q (hne q hq)).2]
      exact hc.lookupLe_none hv hle q hq
    | some q =>
      obtain ⟨hq, hlt, hgap⟩ := hc.lookupLe_lt hv hfree hle
      refine hold.insertAfter hq ?_ fun p hp hqp => ?_
      · rw [hpindex, (hothers q (hne q hq)).2]
        exact hlt
      · rw [(hothers q (hne q hq)).2, (hothers p (hne p hp)).2] at hqp
        rw [hpindex, (hothers p (hne p hp)).2]
        exact hgap p hp hqp
  · rw [hperm.mem_iff, List.mem_cons, hc.mem_iff]
    by_cases hq : q = m
    · subst q
      simp [hobject]
    · rw [(hothers q hq).1]
      simp [hq]
  · rw [hv.lookup_insert mem x.rtree i m rtree hfree hins]
    split
    next hj =>
      subst j
      constructor
      · intro he
        cases he
        exact ⟨hobject, hpindex⟩
      · rintro ⟨ho, hi⟩
        by_cases hq : q = m
        · rw [hq]
        · rw [(hothers q hq).1] at ho
          rw [(hothers q hq).2] at hi
          rw [(hc.lookup_iff i q).mpr ⟨ho, hi⟩] at hfree
          cases hfree
    next hj =>
      rw [hc.lookup_iff]
      by_cases hq : q = m
      · subst q
        rw [hpindex]
        exact iff_of_false (fun h => hm h.1) fun h => hj h.2.symm
      · rw [(hothers q hq).1, (hothers q hq).2]
  · change x.residentPageCount + 1 = (linked x m _).length
    rw [hperm.length_eq, List.length_cons, hc.count]
  · have hnil : linked x m (v.lookupLe x.rtree i) ≠ [] := by
      intro he
      rw [he] at hperm
      exact absurd hperm.symm.eq_nil (by simp)
    simp only [hnil, ne_eq, not_false_eq_true, and_true, hc.count, hc.held]
    cases x.vnode <;> cases x.memq <;> simp

/-- A page of the object is taken out. -/
theorem take (hv : v.Lawful) (hc : Coherent v page o x) (hm : (page m).object = some o)
    (hobject : (page' m).object ≠ some o)
    (hothers : ∀ q, q ≠ m → (page' q).object = (page q).object ∧
      (page' q).pindex = (page q).pindex) :
    Coherent v page' o { x with
      rtree := (v.remove x.rtree (page m).pindex).1
      memq := x.memq.erase m
      residentPageCount := x.residentPageCount - 1
      held := if x.residentPageCount - 1 = 0 ∧ x.vnode then x.held - 1 else x.held } := by
  have hmem := (hc.mem_iff m).mpr hm
  have hne : ∀ q ∈ x.memq.erase m, q ≠ m := by
    rintro q hq rfl
    exact hc.ordered.nodup.not_mem_erase hq
  have hlen := List.length_erase_of_mem hmem
  have hpos := List.length_pos_of_mem hmem
  refine ⟨?_, fun q => ?_, fun j q => ?_, ?_, ?_⟩
  · exact hc.ordered.erase.congr fun q hq => by rw [(hothers q (hne q hq)).2]
  · by_cases hq : q = m
    · subst q
      exact iff_of_false hc.ordered.nodup.not_mem_erase hobject
    · rw [List.mem_erase_of_ne hq, hc.mem_iff, (hothers q hq).1]
  · rw [hv.lookup_remove]
    by_cases hq : q = m
    · subst q
      refine iff_of_false (fun h => ?_) fun h => hobject h.1
      split at h
      next => cases h
      next hj => exact hj ((hc.lookup_iff j m).mp h).2.symm
    · rw [(hothers q hq).1, (hothers q hq).2]
      split
      next hj =>
        refine iff_of_false (by simp) fun h => hq ?_
        have hlook := (hc.lookup_iff j q).mpr h
        rw [hj, hc.isSome_of_mem hmem] at hlook
        exact (Option.some.inj hlook).symm
      next => exact hc.lookup_iff j q
  · change x.residentPageCount - 1 = (x.memq.erase m).length
    rw [hlen, hc.count]
  · have hnil : x.memq.erase m = [] ↔ x.residentPageCount - 1 = 0 := by
      rw [← List.length_eq_zero_iff, hlen, hc.count]
    have hcons : x.memq ≠ [] := List.ne_nil_of_mem hmem
    simp only [ne_eq, hnil, hc.held, hcons, not_false_eq_true, and_true]
    cases x.vnode <;> by_cases h0 : x.residentPageCount - 1 = 0 <;> simp [h0]

/-- A page takes the place of another one at the same index. -/
theorem swap {rtree : R} {mold : P} (dirtied : Nat) (hc : Coherent v page o x)
    (hm : (page m).object ≠ some o) (hmold : v.lookup x.rtree i = some mold)
    (hrtree : ∀ j, v.lookup rtree j = if j = i then some m else v.lookup x.rtree j)
    (hobject : (page' m).object = some o) (hpindex : (page' m).pindex = i)
    (hgone : (page' mold).object ≠ some o)
    (hothers : ∀ q, q ≠ m → q ≠ mold → (page' q).object = (page q).object ∧
      (page' q).pindex = (page q).pindex) :
    Coherent v page' o { x with
      rtree := rtree
      memq := (TailQueue.insertAfter x.memq mold m).erase mold
      writeableDirty := dirtied } := by
  obtain ⟨hold, hi⟩ := (hc.lookup_iff i mold).mp hmold
  have hmem := (hc.mem_iff mold).mpr hold
  have hnot : m ∉ x.memq := fun h => hm ((hc.mem_iff m).mp h)
  have hmm : m ≠ mold := fun h => hnot (h ▸ hmem)
  obtain ⟨pre, post, hl⟩ := List.append_of_mem hmem
  have hnd := hc.ordered.nodup
  rw [hl] at hnd
  have hpre : mold ∉ pre := by
    intro h
    exact (List.nodup_append.mp hnd).2.2 mold h mold List.mem_cons_self rfl
  have hmemq : (TailQueue.insertAfter x.memq mold m).erase mold = pre ++ m :: post := by
    rw [hl, TailQueue.insertAfter_append hpre, List.erase_append_right _ hpre,
      List.erase_cons_head]
  have hkeep : ∀ q ∈ pre ++ post, q ≠ m ∧ q ≠ mold ∧ q ∈ x.memq := by
    intro q hq
    have hqm : q ∈ x.memq := by
      rw [hl]
      rcases List.mem_append.mp hq with h | h <;> simp [h]
    refine ⟨fun h => hnot (h ▸ hqm), ?_, hqm⟩
    rintro rfl
    rcases List.mem_append.mp hq with h | h
    · exact hpre h
    · exact (List.nodup_cons.mp (List.nodup_append.mp hnd).2.1).1 h
  have hkey : ∀ q ∈ pre ++ post, (page' q).pindex.toNat = (page q).pindex.toNat := by
    intro q hq
    obtain ⟨h₁, h₂, -⟩ := hkeep q hq
    rw [(hothers q h₁ h₂).2]
  have hord := hc.ordered
  rw [hl] at hord
  have hsame : (page' m).pindex.toNat = (page mold).pindex.toNat := by rw [hpindex, hi]
  have hmem' : ∀ q, q ∈ pre ++ m :: post ↔ (page' q).object = some o := by
    intro q
    by_cases hqm : q = m
    · subst q
      simp [hobject]
    · by_cases hqo : q = mold
      · subst q
        refine iff_of_false (fun h => ?_) hgone
        have hq : mold ∈ pre ++ post := by
          rcases List.mem_append.mp h with h | h
          · exact List.mem_append_left _ h
          · exact List.mem_append_right _ ((List.mem_cons.mp h).resolve_left hqm)
        exact (hkeep mold hq).2.1 rfl
      · rw [(hothers q hqm hqo).1, ← hc.mem_iff, hl]
        simp [hqm, hqo]
  refine ⟨?_, fun q => ?_, fun j q => ?_, ?_, ?_⟩
  · change OrderedQueue _ ((TailQueue.insertAfter x.memq mold m).erase mold)
    rw [hmemq]
    exact hord.replace hsame hkey
  · change q ∈ (TailQueue.insertAfter x.memq mold m).erase mold ↔ _
    rw [hmemq]
    exact hmem' q
  · rw [hrtree]
    by_cases hqm : q = m
    · subst q
      rw [hpindex]
      split
      next hj => simp [hobject, hj]
      next hj =>
        refine iff_of_false (fun h => hm ((hc.lookup_iff j m).mp h).1) fun h => hj h.2.symm
    · by_cases hqo : q = mold
      · subst q
        refine iff_of_false (fun h => ?_) fun h => hgone h.1
        split at h
        next => exact hmm (Option.some.inj h)
        next hj => exact hj (((hc.lookup_iff j mold).mp h).2.symm.trans hi)
      · rw [(hothers q hqm hqo).1, (hothers q hqm hqo).2]
        split
        next hj =>
          refine iff_of_false (fun h => hqm (Option.some.inj h).symm) fun h => hqo ?_
          have hlook := (hc.lookup_iff j q).mpr h
          rw [hj, hmold] at hlook
          exact (Option.some.inj hlook).symm
        next => exact hc.lookup_iff j q
  · change x.residentPageCount = ((TailQueue.insertAfter x.memq mold m).erase mold).length
    rw [hmemq, hc.count, hl]
    simp
  · change x.held = if _ ∧ (TailQueue.insertAfter x.memq mold m).erase mold ≠ [] then 1 else 0
    rw [hmemq, hc.held, hl]
    simp

end Coherent

end FreeBSDEdits
