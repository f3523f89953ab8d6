import FreeBSDEdits.SchedIdle

namespace FreeBSDEdits

/-- Of several threads only the first one may be stolen. -/
def OnlyFirst (ok : Nat → Bool) (l : List Nat) : Prop :=
  ∃ x rest, l = x :: rest ∧ rest ≠ [] ∧ ok x = true ∧ ∀ y ∈ rest, ok y = false

/-- Once `first` is set, the loops find what there is. -/
theorem stealScan_found {ok : Nat → Bool} {l : List Nat} (f : Nat) (h : ∃ td ∈ l, ok td = true) :
    ∃ td first, stealScan ok (some f) l = (some td, first) ∧ td ∈ l ∧ ok td = true := by
  induction l generalizing f with
  | nil =>
    obtain ⟨td, hm, _⟩ := h
    exact absurd hm List.not_mem_nil
  | cons x rest ih =>
    by_cases hx : ok x = true
    · exact ⟨x, some f, by simp [stealScan, hx], List.mem_cons_self, hx⟩
    · obtain ⟨td, hm, htd⟩ := h
      rcases List.mem_cons.mp hm with rfl | hm
      · exact absurd htd hx
      · obtain ⟨w, first, hs, hw, hok⟩ := ih x ⟨td, hm, htd⟩
        exact ⟨w, first, by simpa [stealScan, hx] using hs, List.mem_cons_of_mem x hw, hok⟩

/-- When they find nothing, `first` is the last thread they came to. -/
theorem stealScan_missed {ok : Nat → Bool} {l : List Nat} (f : Nat) (h : ∀ td ∈ l, ok td = false) :
    stealScan ok (some f) l = (none, some ((f :: l).getLast (List.cons_ne_nil f l))) := by
  induction l generalizing f with
  | nil => rfl
  | cons x rest ih =>
    have hx := h x List.mem_cons_self
    simp only [stealScan, hx, Bool.false_eq_true, and_false, if_false]
    rw [ih x (fun td hm => h td (List.mem_cons_of_mem x hm)), List.getLast_cons_cons]

namespace Runq

/-- The threads runq_steal_from comes to, some of them twice. -/
def passes (rq : Runq) (start : Nat) : List Nat :=
  rq.listed start ++ if start = 0 then [] else rq.listed 0

variable {ok : Nat → Bool} {rq : Runq} {start td : Nat}

theorem stealFrom_nil (h : rq.passes start = []) : runqStealFrom ok rq start = none := by
  unfold passes at h
  simp [runqStealFrom, h, stealScan]

/-- The first thread is taken only if it is the last one as well. -/
theorem stealFrom_cons (ok : Nat → Bool) {x : Nat} {rest : List Nat}
    (h : rq.passes start = x :: rest) :
    (∃ w ∈ rest, ok w = true ∧ runqStealFrom ok rq start = some w) ∨
      (∀ y ∈ rest, ok y = false) ∧
        runqStealFrom ok rq start = if rest = [] ∧ ok x = true then some x else none := by
  have hscan : stealScan ok none (x :: rest) = stealScan ok (some x) rest := by
    simp [stealScan]
  unfold passes at h
  unfold runqStealFrom
  simp only [h, hscan]
  by_cases hrest : ∃ td ∈ rest, ok td = true
  · obtain ⟨w, first, hs, hw, hok⟩ := stealScan_found x hrest
    exact Or.inl ⟨w, hw, hok, by rw [hs]⟩
  · have hno : ∀ y ∈ rest, ok y = false := fun y hm =>
      Bool.eq_false_iff.mpr (fun hy => hrest ⟨y, hm, hy⟩)
    refine Or.inr ⟨hno, ?_⟩
    rw [stealScan_missed x hno]
    by_cases he : rest = []
    · subst rest
      cases hx : ok x <;> simp [Option.filter, hx]
    · have hlast : ok ((x :: rest).getLast (List.cons_ne_nil x rest)) = false := by
        rw [List.getLast_cons he]
        exact hno _ (List.getLast_mem he)
      rw [if_neg (fun hh => he hh.1)]
      exact Option.filter_some_neg (by simp [hlast])

/-- runq_steal_from returns a thread that may be stolen. -/
theorem stealFrom_sound (h : runqStealFrom ok rq start = some td) :
    td ∈ rq.passes start ∧ ok td = true := by
  cases hp : rq.passes start with
  | nil => cases (stealFrom_nil hp).symm.trans h
  | cons x rest =>
    rcases stealFrom_cons ok hp with ⟨w, hw, hok, hs⟩ | ⟨_, hs⟩
    · cases hs.symm.trans h
      exact ⟨List.mem_cons_of_mem x hw, hok⟩
    · rw [hs] at h
      split at h
      next hx =>
        cases h
        exact ⟨List.mem_cons_self, hx.2⟩
      next => cases h

/-- It returns NULL if no thread may be stolen, and if only the first of several may. -/
theorem stealFrom_eq_none : runqStealFrom ok rq start = none ↔
    (∀ td ∈ rq.passes start, ok td = false) ∨ OnlyFirst ok (rq.passes start) := by
  cases hp : rq.passes start with
  | nil => exact iff_of_true (stealFrom_nil hp) (Or.inl (fun _ hm => absurd hm List.not_mem_nil))
  | cons x rest =>
    rcases stealFrom_cons ok hp with ⟨w, hw, hok, hs⟩ | ⟨hno, hs⟩
    · rw [hs]
      refine iff_of_false (Option.some_ne_none w) ?_
      rintro (hall | ⟨y, ys, he, _, _, hys⟩)
      · rw [hall w (List.mem_cons_of_mem x hw)] at hok
        cases hok
      · cases he
        rw [hys w hw] at hok
        cases hok
    · rw [hs, ite_eq_right_iff]
      constructor
      · intro h
        by_cases hx : ok x = true
        · exact Or.inr ⟨x, rest, rfl, fun he => Option.some_ne_none x (h ⟨he, hx⟩), hx, hno⟩
        · refine Or.inl (fun td hm => ?_)
          rcases List.mem_cons.mp hm with rfl | hm
          · exact Bool.eq_false_iff.mpr hx
          · exact hno td hm
      · rintro (hall | ⟨y, ys, he, hne, _⟩) ⟨he', hx⟩
        · rw [hall x List.mem_cons_self] at hx
          cases hx
        · cases he
          exact absurd he' hne

def Holds (rq : Runq) (td : Nat) : Prop := ∃ i < rqNqs, td ∈ rq.queues i

theorem mem_listed (hm : BitmapMarks rq.status rq.queues) :
    td ∈ rq.listed start ↔ ∃ i, start ≤ i ∧ i < rqNqs ∧ td ∈ rq.queues i := by
  rw [listed, List.mem_flatMap]
  constructor
  · rintro ⟨i, hi, htd⟩
    obtain ⟨hlo, hhi⟩ := List.mem_range'_1.mp hi
    split at htd
    next => exact ⟨i, hlo, by omega, htd⟩
    next => exact absurd htd List.not_mem_nil
  · rintro ⟨i, hlo, hhi, htd⟩
    refine ⟨i, List.mem_range'_1.mpr ⟨hlo, by omega⟩, ?_⟩
    rwa [if_pos ((hm i hhi).mpr (List.ne_nil_of_mem htd))]

theorem mem_listed_zero (hm : BitmapMarks rq.status rq.queues) :
    td ∈ rq.listed 0 ↔ rq.Holds td := by
  rw [mem_listed hm]
  exact ⟨fun ⟨i, _, hi, htd⟩ => ⟨i, hi, htd⟩, fun ⟨i, hi, htd⟩ => ⟨i, i.zero_le, hi, htd⟩⟩

theorem listed_eq_nil (hm : BitmapMarks rq.status rq.queues) :
    rq.listed start = [] ↔ ∀ i, start ≤ i → i < rqNqs → rq.queues i = [] := by
  rw [List.eq_nil_iff_forall_not_mem]
  simp only [mem_listed hm, not_exists, not_and]
  constructor
  · intro h i hlo hhi
    exact List.eq_nil_iff_forall_not_mem.mpr (fun td => h td i hlo hhi)
  · intro h td i hlo hhi htd
    rw [h i hlo hhi] at htd
    exact absurd htd List.not_mem_nil

/-- The only thread that may be stolen is the first of several, and runq_steal_from comes to it only
once: it starts with bucket 0, or finds the buckets from `start` on empty. -/
def Hides (ok : Nat → Bool) (rq : Runq) (start : Nat) : Prop :=
  OnlyFirst ok (rq.listed 0) ∧
    (start = 0 ∨ ∀ i, start ≤ i → i < rqNqs → rq.queues i = [])

theorem mem_passes (hm : BitmapMarks rq.status rq.queues) : td ∈ rq.passes start ↔ rq.Holds td := by
  rw [passes]
  by_cases h0 : start = 0
  · rw [if_pos h0, List.append_nil, h0, mem_listed_zero hm]
  · rw [if_neg h0, List.mem_append, mem_listed_zero hm, mem_listed hm]
    refine or_iff_right_of_imp ?_
    rintro ⟨i, _, hi, htd⟩
    exact ⟨i, hi, htd⟩

theorem onlyFirst_passes (hm : BitmapMarks rq.status rq.queues) :
    OnlyFirst ok (rq.passes start) ↔ rq.Hides ok start := by
  rw [passes, Hides, ← listed_eq_nil hm]
  by_cases h0 : start = 0
  · rw [if_pos h0, List.append_nil, h0]
    exact (and_iff_left (Or.inl rfl)).symm
  · rw [if_neg h0]
    constructor
    · rintro ⟨x, rest, he, hne, hx, hrest⟩
      cases hl : rq.listed start with
      | nil =>
        rw [hl, List.nil_append] at he
        exact ⟨⟨x, rest, he, hne, hx, hrest⟩, Or.inr rfl⟩
      | cons y ys =>
        -- a thread behind `start` is passed a second time
        rw [hl, List.cons_append] at he
        obtain ⟨rfl, rfl⟩ := List.cons.inj he
        have hy : y ∈ rq.listed start := by rw [hl]; exact List.mem_cons_self
        obtain ⟨i, _, hi, hq⟩ := (mem_listed hm).mp hy
        have hy0 := (mem_listed_zero hm).mpr ⟨i, hi, hq⟩
        rw [hrest y (List.mem_append_right ys hy0)] at hx
        cases hx
    · rintro ⟨honly, h | h⟩
      · exact absurd h h0
      · rwa [h, List.nil_append]

theorem steal_eq_none (hm : BitmapMarks rq.status rq.queues) :
    runqSteal ok rq = none ↔ ∀ td, rq.Holds td → ok td = false := by
  rw [runqSteal, List.find?_eq_none]
  simp only [mem_listed_zero hm, Bool.not_eq_true]

theorem stealFrom_none_iff (hm : BitmapMarks rq.status rq.queues) :
    runqStealFrom ok rq start = none ↔
      (∀ td, rq.Holds td → ok td = false) ∨ rq.Hides ok start := by
  rw [stealFrom_eq_none, onlyFirst_passes hm]
  simp only [mem_passes hm]

end Runq

/-- THREAD_CAN_MIGRATE and THREAD_CAN_SCHED -/
def maySteal (thread : Nat → Thread) (cpu td : Nat) : Bool :=
  (thread td).canMigrate && (thread td).canSched cpu

/-- What tdq_steal returns may be stolen, and it returns NULL only if nothing may be. -/
structure Tdq.StealFinds (thread : Nat → Thread) (d : Tdq) (cpu : Nat) : Prop where
  sound : ∀ td, tdqSteal thread d cpu = some td →
    (∃ k, (d.runq k).Holds td) ∧ maySteal thread cpu td = true
  complete : tdqSteal thread d cpu = none →
    ∀ k td, (d.runq k).Holds td → maySteal thread cpu td = false

namespace Tdq

variable {thread : Nat → Thread} {d : Tdq} {cpu : Nat}

theorem steal_eq (thread : Nat → Thread) (d : Tdq) (cpu : Nat) : tdqSteal thread d cpu =
    (runqSteal (maySteal thread cpu) (d.runq .realtime)).or
      ((runqStealFrom (maySteal thread cpu) (d.runq .timeshare) d.ridx.toNat).or
        ((runqStealFrom (maySteal thread cpu) (d.runq .lottery) d.ridx.toNat).or
          (runqSteal (maySteal thread cpu) (d.runq .idle)))) := by
  have hok : (fun td => (thread td).canMigrate && (thread td).canSched cpu) =
      maySteal thread cpu := rfl
  unfold tdqSteal
  simp only [hok]
  cases runqSteal (maySteal thread cpu) (d.runq .realtime) with
  | some td => rfl
  | none =>
    cases runqStealFrom (maySteal thread cpu) (d.runq .timeshare) d.ridx.toNat with
    | some td => rfl
    | none =>
      cases runqStealFrom (maySteal thread cpu) (d.runq .lottery) d.ridx.toNat <;> rfl

theorem steal_sound (hm : ∀ k, BitmapMarks (d.runq k).status (d.runq k).queues) {td : Nat}
    (h : tdqSteal thread d cpu = some td) :
    (∃ k, (d.runq k).Holds td) ∧ maySteal thread cpu td = true := by
  have hlinear : ∀ k, runqSteal (maySteal thread cpu) (d.runq k) = some td →
      (∃ k, (d.runq k).Holds td) ∧ maySteal thread cpu td = true := fun k hs =>
    ⟨⟨k, (Runq.mem_listed_zero (hm k)).mp (List.mem_of_find?_eq_some hs)⟩, List.find?_some hs⟩
  have hrotating : ∀ k, runqStealFrom (maySteal thread cpu) (d.runq k) d.ridx.toNat = some td →
      (∃ k, (d.runq k).Holds td) ∧ maySteal thread cpu td = true := by
    intro k hs
    obtain ⟨hp, hok⟩ := Runq.stealFrom_sound hs
    exact ⟨⟨k, (Runq.mem_passes (hm k)).mp hp⟩, hok⟩
  rw [steal_eq, Option.or_eq_some_iff, Option.or_eq_some_iff, Option.or_eq_some_iff] at h
  rcases h with h | ⟨_, h | ⟨_, h | ⟨_, h⟩⟩⟩
  · exact hlinear _ h
  · exact hrotating _ h
  · exact hrotating _ h
  · exact hlinear _ h

/-- tdq_steal returns NULL if each queue holds nothing that may be stolen, or hides it. -/
theorem steal_none_iff (hm : ∀ k, BitmapMarks (d.runq k).status (d.runq k).queues) :
    tdqSteal thread d cpu = none ↔
      ∀ k, (∀ td, (d.runq k).Holds td → maySteal thread cpu td = false) ∨
        k ∈ [RunqName.timeshare, .lottery] ∧
          (d.runq k).Hides (maySteal thread cpu) d.ridx.toNat := by
  rw [steal_eq]
  simp only [Option.or_eq_none_iff, Runq.steal_eq_none (hm _), Runq.stealFrom_none_iff (hm _)]
  constructor
  · rintro ⟨hr, ht, hl, hi⟩ k
    cases k with
    | realtime => exact Or.inl hr
    | timeshare => exact ht.imp_right (fun h => ⟨by decide, h⟩)
    | lottery => exact hl.imp_right (fun h => ⟨by decide, h⟩)
    | idle => exact Or.inl hi
  · intro h
    refine ⟨(h .realtime).resolve_right (fun hk => absurd hk.1 (by decide)),
      (h .timeshare).imp_right And.right, (h .lottery).imp_right And.right,
      (h .idle).resolve_right (fun hk => absurd hk.1 (by decide))⟩

end Tdq

/-- tdq_steal finds a thread exactly if there is none to find or one is not hidden. -/
theorem stealFinds_iff {thread : Nat → Thread} {d : Tdq} {cpu : Nat}
    (hm : ∀ k, BitmapMarks (d.runq k).status (d.runq k).queues) :
    d.StealFinds thread cpu ↔
      (∀ k td, (d.runq k).Holds td → maySteal thread cpu td = false) ∨
      ∃ k td, (d.runq k).Holds td ∧ maySteal thread cpu td = true ∧
        (k ∈ [RunqName.timeshare, .lottery] →
          ¬(d.runq k).Hides (maySteal thread cpu) d.ridx.toNat) := by
  constructor
  · intro h
    by_contra hcond
    obtain ⟨hsome, hall⟩ := not_or.mp hcond
    refine hsome (h.complete ((Tdq.steal_none_iff hm).mpr (fun k => ?_)))
    by_cases hk : ∀ td, (d.runq k).Holds td → maySteal thread cpu td = false
    · exact Or.inl hk
    · push Not at hk
      obtain ⟨td, htd, hok⟩ := hk
      have hok : maySteal thread cpu td = true := Bool.eq_true_of_not_eq_false hok
      refine Or.inr ?_
      by_contra hhid
      exact hall ⟨k, td, htd, hok, fun hmem hh => hhid ⟨hmem, hh⟩⟩
  · intro hcond
    refine ⟨fun td h => Tdq.steal_sound hm h, fun hnone => ?_⟩
    rcases hcond with hall | ⟨k, td, htd, hok, hvisible⟩
    · exact hall
    · rcases (Tdq.steal_none_iff hm).mp hnone k with hno | ⟨hmem, hh⟩
      · rw [hno td htd] at hok
        cases hok
      · exact absurd hh (hvisible hmem)

/-- Batch threads of one user, of which one is pinned. -/
def pinnedThread (pin td : Nat) : Thread :=
  { batchThread 1001 0 with pinned := if td = pin then 1 else 0 }

theorem stealFinds_iff_second : ∃ h s,
    SchedRun amd64Priorities properOp (pinnedThread 1) (fun _ => 0) h s ∧
    s.lotteryQueue 0 = [1, 2] ∧ (s.tdq 0).StealFinds s.thread 7 := by
  obtain ⟨h, s, hr, hc⟩ := schedRun_of_replay amd64Priorities properOp (pinnedThread 1)
    [.runqAdd 1 noFlags, .runqAdd 2 noFlags]
    (fun _ s => s.lotteryQueue 0 = [1, 2] ∧ ((s.tdq 0).runq .lottery).listed 0 = [1, 2] ∧
      maySteal s.thread 7 1 = false ∧ maySteal s.thread 7 2 = true) (by decide +kernel)
  obtain ⟨hq, hl, h1, h2⟩ := of_decide_eq_true hc
  have hrep := hr.represents (fun _ _ _ hp => hp)
  refine ⟨h, s, hr, hq, ?_⟩
  refine (stealFinds_iff (fun k => hrep.marks ⟨0, k⟩)).mpr (Or.inr ?_)
  refine ⟨.lottery, 2, ⟨0, by decide, ?_⟩, h2, ?_⟩
  · rw [Sched.lotteryQueue] at hq
    simp [hq]
  · rintro - ⟨⟨x, rest, he, _, hx, _⟩, _⟩
    rw [hl] at he
    cases he
    rw [h1] at hx
    cases hx

/-- Of two threads on the lottery queue the first could be stolen, and tdq_steal returns NULL. -/
theorem steal_misses_first : ∃ h s,
    SchedRun amd64Priorities properOp (pinnedThread 2) (fun _ => 0) h s ∧
    s.lotteryQueue 0 = [1, 2] ∧ maySteal s.thread 7 1 = true ∧
      tdqSteal s.thread (s.tdq 0) 7 = none ∧ ¬(s.tdq 0).StealFinds s.thread 7 := by
  obtain ⟨h, s, hr, hc⟩ := schedRun_of_replay amd64Priorities properOp (pinnedThread 2)
    [.runqAdd 1 noFlags, .runqAdd 2 noFlags]
    (fun _ s => s.lotteryQueue 0 = [1, 2] ∧ maySteal s.thread 7 1 = true ∧
      tdqSteal s.thread (s.tdq 0) 7 = none) (by decide +kernel)
  obtain ⟨hq, h1, hnone⟩ := of_decide_eq_true hc
  refine ⟨h, s, hr, hq, h1, hnone, fun hf => ?_⟩
  have hheld : ((s.tdq 0).runq .lottery).Holds 1 := by
    refine ⟨0, by decide, ?_⟩
    rw [Sched.lotteryQueue] at hq
    simp [hq]
  rw [hf.complete hnone .lottery 1 hheld] at h1
  cases h1

end FreeBSDEdits
