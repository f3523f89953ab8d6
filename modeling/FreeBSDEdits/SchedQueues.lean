import FreeBSDEdits.SchedSpecs
import FreeBSDEdits.BitmapBuckets
import Mathlib.Data.List.ProdSigma
import Mathlib.Logic.Relation

namespace FreeBSDEdits

namespace Sched

variable (s : Sched)

@[simp] theorem setTdq_thread (c : Nat) (d : Tdq) : (s.setTdq c d).thread = s.thread := rfl

@[simp] theorem setTdq_tdq_self (c : Nat) (d : Tdq) : (s.setTdq c d).tdq c = d :=
  Function.update_self _ _ _

theorem setTdq_tdq_of_ne {c c' : Nat} (h : c' ≠ c) (d : Tdq) : (s.setTdq c d).tdq c' = s.tdq c' :=
  Function.update_of_ne h _ _

@[simp] theorem setThread_tdq (td : Nat) (t : Thread) : (s.setThread td t).tdq = s.tdq := rfl

@[simp] theorem setThread_runq (td : Nat) (t : Thread) : (s.setThread td t).runq = s.runq := rfl

@[simp] theorem setThread_thread_self (td : Nat) (t : Thread) : (s.setThread td t).thread td = t :=
  Function.update_self _ _ _

theorem setThread_thread_of_ne {td x : Nat} (h : x ≠ td) (t : Thread) :
    (s.setThread td t).thread x = s.thread x := Function.update_of_ne h _ _

@[simp] theorem setTdq_runq_self (c : Nat) (d : Tdq) (k : RunqName) :
    (s.setTdq c d).runq ⟨c, k⟩ = d.runq k := by
  rw [runq, setTdq_tdq_self]

theorem setTdq_runq_of_ne {c : Nat} {r : RunqRef} (h : r.cpu ≠ c) (d : Tdq) :
    (s.setTdq c d).runq r = s.runq r := by
  rw [runq, setTdq_tdq_of_ne s h, runq]

@[simp] theorem setTdq_setTdq (c : Nat) (d d' : Tdq) :
    (s.setTdq c d).setTdq c d' = s.setTdq c d' := by
  simp [setTdq]

end Sched

/-- Queues, status bits and the count of transferable threads are the same. -/
structure Tdq.SameQueues (d d' : Tdq) : Prop where
  status : ∀ k, (d'.runq k).status = (d.runq k).status
  queues : ∀ k, (d'.runq k).queues = (d.runq k).queues
  transferable : d'.transferable = d.transferable

/-- The indices are the same as well. -/
structure Tdq.Same (d d' : Tdq) : Prop extends Tdq.SameQueues d d' where
  idx : d'.idx = d.idx
  ridx : d'.ridx = d.ridx

/-- Only loads, switch counts and the lowest priority differ. -/
structure Tdq.Quiet (d d' : Tdq) : Prop where
  runq : d'.runq = d.runq
  idx : d'.idx = d.idx
  ridx : d'.ridx = d.ridx
  transferable : d'.transferable = d.transferable

theorem Tdq.Quiet.same {d d' : Tdq} (h : d.Quiet d') : d.Same d' :=
  ⟨⟨fun k => by rw [h.runq], fun k => by rw [h.runq], h.transferable⟩, h.idx, h.ridx⟩

theorem Tdq.same_setLottery (d : Tdq) {rq : Runq} (hs : rq.status = (d.runq .lottery).status)
    (hq : rq.queues = (d.runq .lottery).queues) : d.Same (d.setRunq .lottery rq) := by
  refine ⟨⟨fun k => ?_, fun k => ?_, rfl⟩, rfl, rfl⟩
  · cases k <;> first | exact hs | rfl
  · cases k <;> first | exact hq | rfl

theorem Tdq.Chooses.same {tickets : Nat → UInt64} {d d' : Tdq} {random : UInt64} {o : Option Nat}
    (h : d.Chooses tickets random d' o) : d.Same d' := by
  cases h with
  | realtime | timeshare | unused | missed => exact ⟨⟨fun _ => rfl, fun _ => rfl, rfl⟩, rfl, rfl⟩
  | last | draw => exact d.same_setLottery rfl rfl

/-- The fields the run queues rely on are the same. -/
structure Thread.Same (t t' : Thread) : Prop where
  runq : t'.runq = t.runq
  rqindex : t'.rqindex = t.rqindex
  tickets : t'.tickets = t.tickets
  xferable : t'.xferable = t.xferable

/-- The insert index is the removal index or the bucket after it. -/
structure Tdq.Rotates (d : Tdq) : Prop where
  ridx : d.ridx < 64
  idx : d.idx = d.ridx ∨ d.idx = (d.ridx + 1) % 64

def Tdq.slots : List (RunqName × Nat) :=
  [.realtime, .timeshare, .lottery, .idle] ×ˢ List.range rqNqs

theorem tdqClock_runq (d : Tdq) : (tdqClock d).runq = d.runq := by
  unfold tdqClock
  dsimp only
  split
  next => split <;> split <;> rfl
  next => rfl

theorem tdqClock_idx (d : Tdq) :
    (tdqClock d).idx = if d.idx = d.ridx then (d.idx + 1) % 64 else d.idx := by
  unfold tdqClock
  dsimp only
  split
  next => split <;> split <;> rfl
  next => rfl

/-- A tick moves the removal index along when either of the two buckets is empty. -/
theorem tdqClock_ridx (d : Tdq) :
    (tdqClock d).ridx = if d.idx = d.ridx ∧ ((d.runq .timeshare).queues d.ridx.toNat = [] ∨
      (d.runq .lottery).queues d.ridx.toNat = []) then (d.idx + 1) % 64 else d.ridx := by
  unfold tdqClock
  dsimp only
  by_cases h : d.idx = d.ridx
  · by_cases ht : (d.runq .timeshare).queues d.ridx.toNat = []
    · simp [h, ht]
    · by_cases hl : (d.runq .lottery).queues d.ridx.toNat = [] <;> simp [h, ht, hl]
  · simp [h]

theorem tdqClock_transferable (d : Tdq) : (tdqClock d).transferable = d.transferable := by
  unfold tdqClock
  dsimp only
  split
  next => split <;> split <;> rfl
  next => rfl

theorem Tdq.Rotates.clock {d : Tdq} (h : d.Rotates) : (tdqClock d).Rotates := by
  have hmod : (d.idx + 1) % 64 < 64 := by
    rw [UInt8.lt_iff_toNat_lt, UInt8.toNat_mod]
    exact Nat.mod_lt _ (by decide)
  have hidx := tdqClock_idx d
  have hridx := tdqClock_ridx d
  split at hridx
  next hadv =>
    rw [if_pos hadv.1] at hidx
    exact ⟨hridx ▸ hmod, Or.inl (hidx.trans hridx.symm)⟩
  next =>
    refine ⟨hridx ▸ h.ridx, ?_⟩
    rw [hidx, hridx]
    split
    next he => exact Or.inr (by rw [he])
    next he => exact Or.inr (h.idx.resolve_left he)

/-- All threads of the four queues. -/
def Tdq.threads (d : Tdq) : List Nat := slots.flatMap (fun p => (d.runq p.1).queues p.2)

theorem Tdq.slots_nodup : slots.Nodup := List.Nodup.product (by decide) List.nodup_range

theorem Tdq.mem_slots {k : RunqName} {i : Nat} : (k, i) ∈ slots ↔ i < 64 := by
  simp only [slots, List.mem_product, List.mem_range, and_iff_right_iff_imp]
  intro _
  cases k <;> simp

theorem Tdq.mem_threads {d : Tdq} {td : Nat} :
    td ∈ d.threads ↔ ∃ k i, i < 64 ∧ td ∈ (d.runq k).queues i := by
  simp only [threads, List.mem_flatMap, Prod.exists, mem_slots]

theorem Tdq.SameQueues.threads {d d' : Tdq} (h : d.SameQueues d') : d'.threads = d.threads := by
  simp only [Tdq.threads, h.queues]

/-- One bucket has one thread more. -/
theorem Tdq.threads_perm {d d' : Tdq} {k : RunqName} {i td : Nat} (hi : i < 64)
    (hoff : ∀ j m, ¬(j = k ∧ m = i) → (d'.runq j).queues m = (d.runq j).queues m)
    (hat : ((d'.runq k).queues i).Perm (td :: (d.runq k).queues i)) :
    d'.threads.Perm (td :: d.threads) :=
  flatMap_perm_cons slots_nodup (mem_slots.mpr hi)
    (fun q hq => hoff q.1 q.2 (fun he => hq (Prod.ext he.1 he.2))) hat

/-- The run queues as data structures, with the threads they hold. -/
structure Sched.Represents (s : Sched) : Prop where
  marks : ∀ r, BitmapMarks (s.runq r).status (s.runq r).queues
  place : ∀ r i td, td ∈ (s.runq r).queues i → (s.thread td).runq = some r ∧
    (s.thread td).rqindex.toNat = i ∧ i < 64 ∧ (r.name = .lottery → i = 0) ∧
    (s.thread td).cpu = r.cpu
  nodup : ∀ r i, ((s.runq r).queues i).Nodup
  flag : ∀ td, ¬s.Queued td → (s.thread td).xferable = false
  transferable : ∀ c, (s.tdq c).transferable =
    ((s.tdq c).threads.countP (fun td => (s.thread td).xferable) : Nat)
  rotates : ∀ c, (s.tdq c).Rotates

namespace Sched

variable {s s' : Sched}

theorem Represents.queued_iff (h : s.Represents) {td : Nat} :
    s.Queued td ↔ ∃ r i, td ∈ (s.runq r).queues i := by
  constructor
  · rintro ⟨r, _, hq⟩
    exact ⟨r, _, hq⟩
  · rintro ⟨r, i, hq⟩
    obtain ⟨hr, hi, _⟩ := h.place r i td hq
    exact ⟨r, hr, hi.symm ▸ hq⟩

theorem Represents.mem_threads (h : s.Represents) {c td : Nat} :
    td ∈ (s.tdq c).threads ↔ ∃ k i, td ∈ (s.runq ⟨c, k⟩).queues i := by
  rw [Tdq.mem_threads]
  refine exists₂_congr (fun k i => and_iff_right_of_imp (fun hq => ?_))
  exact (h.place ⟨c, k⟩ i td hq).2.2.1

/-- Changes that leave queues and the relevant fields of threads alone. -/
theorem queued_congr {td : Nat} (hq : ∀ r, (s'.runq r).queues = (s.runq r).queues)
    (hr : (s'.thread td).runq = (s.thread td).runq)
    (hi : (s'.thread td).rqindex = (s.thread td).rqindex) : s'.Queued td ↔ s.Queued td := by
  simp only [Queued, hr, hi, hq]

theorem runq_same {c : Nat} {d : Tdq} (h : (s.tdq c).SameQueues d) (r : RunqRef) :
    ((s.setTdq c d).runq r).status = (s.runq r).status ∧
      ((s.setTdq c d).runq r).queues = (s.runq r).queues := by
  by_cases hc : r.cpu = c
  · subst c
    exact ⟨by rw [runq, setTdq_tdq_self]; exact h.status r.name,
      by rw [runq, setTdq_tdq_self]; exact h.queues r.name⟩
  · rw [setTdq_runq_of_ne s hc]
    exact ⟨rfl, rfl⟩

theorem queued_setTdq {c : Nat} {d : Tdq} (h : (s.tdq c).SameQueues d) (td : Nat) :
    (s.setTdq c d).Queued td ↔ s.Queued td :=
  queued_congr (fun r => (runq_same h r).2) rfl rfl

theorem queued_setThread {td : Nat} {t : Thread} (h : (s.thread td).Same t) (x : Nat) :
    (s.setThread td t).Queued x ↔ s.Queued x := by
  by_cases hx : x = td
  · subst x
    exact queued_congr (fun _ => rfl) (by simp [h.runq]) (by simp [h.rqindex])
  · exact queued_congr (fun _ => rfl) (by rw [setThread_thread_of_ne s hx])
      (by rw [setThread_thread_of_ne s hx])

theorem Represents.setQueues (h : s.Represents) {c : Nat} {d : Tdq} (hd : (s.tdq c).SameQueues d)
    (hr : d.Rotates) : (s.setTdq c d).Represents := by
  refine ⟨fun r => ?_, fun r i td hq => ?_, fun r i => ?_, fun td hn => ?_, fun c' => ?_,
    fun c' => ?_⟩
  · obtain ⟨hs, hq⟩ := runq_same hd r
    rw [hs, hq]
    exact h.marks r
  · rw [(runq_same hd r).2] at hq
    exact h.place r i td hq
  · rw [(runq_same hd r).2]
    exact h.nodup r i
  · exact h.flag td (fun hq => hn ((queued_setTdq hd td).mpr hq))
  · by_cases hc : c' = c
    · subst c'
      rw [setTdq_tdq_self, hd.threads, hd.transferable]
      exact h.transferable c
    · rw [setTdq_tdq_of_ne s hc]
      exact h.transferable c'
  · by_cases hc : c' = c
    · subst c'
      rwa [setTdq_tdq_self]
    · rw [setTdq_tdq_of_ne s hc]
      exact h.rotates c'

theorem Represents.setTdq (h : s.Represents) {c : Nat} {d : Tdq} (hd : (s.tdq c).Same d) :
    (s.setTdq c d).Represents :=
  h.setQueues hd.toSameQueues
    ⟨hd.ridx.symm ▸ (h.rotates c).ridx, by rw [hd.idx, hd.ridx]; exact (h.rotates c).idx⟩

theorem Represents.setThread (h : s.Represents) {td : Nat} {t : Thread}
    (ht : (s.thread td).Same t) (hc : t.cpu = (s.thread td).cpu ∨ ¬s.Queued td) :
    (s.setThread td t).Represents := by
  have hflag : ∀ x, ((s.setThread td t).thread x).xferable = (s.thread x).xferable := by
    intro x
    by_cases hx : x = td
    · subst x
      simp [ht.xferable]
    · rw [setThread_thread_of_ne s hx]
  refine ⟨h.marks, fun r i x hq => ?_, h.nodup, fun x hn => ?_, fun c => ?_, h.rotates⟩
  · have hp := h.place r i x hq
    by_cases hx : x = td
    · subst x
      have hqd : s.Queued td := h.queued_iff.mpr ⟨r, i, hq⟩
      rw [setThread_thread_self, ht.runq, ht.rqindex, hc.resolve_right (fun hn => hn hqd)]
      exact hp
    · rw [setThread_thread_of_ne s hx]
      exact hp
  · rw [hflag]
    exact h.flag x (fun hq => hn ((queued_setThread ht x).mpr hq))
  · simp only [setThread_tdq, hflag]
    exact h.transferable c

theorem Represents.tick (h : s.Represents) (c : Nat) :
    (s.setTdq c (tdqClock (s.tdq c))).Represents :=
  h.setQueues ⟨fun _ => by rw [tdqClock_runq], fun _ => by rw [tdqClock_runq],
    tdqClock_transferable _⟩ (h.rotates c).clock

theorem setup_represents (thread : Nat → Thread) (curthread : Nat → Nat) :
    (setup thread curthread).Represents := by
  refine ⟨fun _ => BitmapMarks.empty, fun r i td hq => ?_, fun _ _ => List.nodup_nil,
    fun _ _ => rfl, fun c => ?_, fun c => ⟨?_, Or.inl rfl⟩⟩
  · exact absurd hq List.not_mem_nil
  · have ht : ((setup thread curthread).tdq c).threads = [] :=
      List.flatMap_eq_nil_iff.mpr (fun _ _ => rfl)
    rw [ht]
    rfl
  · change (0 : UInt8) < 64
    decide

section Enter

variable {R : Priorities} {c td : Nat} {flags : SrqFlags} {d : Tdq} {t : Thread}

theorem enter_perm (he : (s.tdq c).Enters R c td (s.thread td) flags d t) :
    ((d.runq (R.route (s.thread td))).queues t.rqindex.toNat).Perm
      (td :: ((s.tdq c).runq (R.route (s.thread td))).queues t.rqindex.toNat) := by
  rw [he.gains.queues, Function.update_self]
  split
  next => exact .refl _
  next => exact List.perm_append_comm

theorem enter_bucket (he : (s.tdq c).Enters R c td (s.thread td) flags d t) (k : RunqName) (i : Nat)
    (hne : ¬(k = R.route (s.thread td) ∧ i = t.rqindex.toNat)) :
    (d.runq k).queues i = ((s.tdq c).runq k).queues i := by
  by_cases hk : k = R.route (s.thread td)
  · subst k
    rw [he.gains.queues, Function.update_of_ne (fun hi => hne ⟨rfl, hi⟩)]
  · rw [he.others k hk]

theorem enter_other (he : (s.tdq c).Enters R c td (s.thread td) flags d t) {r : RunqRef} {i : Nat}
    (hne : ¬(r = ⟨c, R.route (s.thread td)⟩ ∧ i = t.rqindex.toNat)) :
    ((s.setTdq c d).runq r).queues i = (s.runq r).queues i := by
  by_cases hc : r.cpu = c
  · obtain ⟨c', k⟩ := r
    obtain rfl : c = c' := hc.symm
    rw [setTdq_runq_self]
    exact enter_bucket he k i (fun hk => hne ⟨by rw [hk.1], hk.2⟩)
  · rw [setTdq_runq_of_ne s hc]

theorem enter_mem (he : (s.tdq c).Enters R c td (s.thread td) flags d t) (x : Nat) (r : RunqRef)
    (i : Nat) : x ∈ ((s.setTdq c d).runq r).queues i ↔ x ∈ (s.runq r).queues i ∨
      x = td ∧ r = ⟨c, R.route (s.thread td)⟩ ∧ i = t.rqindex.toNat := by
  by_cases hne : r = ⟨c, R.route (s.thread td)⟩ ∧ i = t.rqindex.toNat
  · obtain ⟨rfl, rfl⟩ := hne
    rw [setTdq_runq_self, (enter_perm he).mem_iff, List.mem_cons, or_comm]
    simp [runq]
  · rw [enter_other he hne]
    tauto

theorem enter_queued (he : (s.tdq c).Enters R c td (s.thread td) flags d t) (x : Nat) :
    ((s.setTdq c d).setThread td t).Queued x ↔ s.Queued x ∨ x = td := by
  by_cases hx : x = td
  · subst x
    refine iff_of_true ⟨⟨c, R.route (s.thread td)⟩, ?_, ?_⟩ (Or.inr rfl)
    · rw [setThread_thread_self]
      exact he.named
    · rw [setThread_thread_self, setThread_runq, enter_mem he]
      exact Or.inr ⟨rfl, rfl, rfl⟩
  · simp only [hx, or_false, Queued, setThread_thread_of_ne _ hx, setThread_runq, setTdq_thread,
      enter_mem he, false_and]

theorem Represents.enter (h : s.Represents) (hn : ¬s.Queued td) (hc : (s.thread td).cpu = c)
    (he : (s.tdq c).Enters R c td (s.thread td) flags d t) :
    ((s.setTdq c d).setThread td t).Represents := by
  have hoff : ∀ r i, td ∉ (s.runq r).queues i := fun r i hq => hn (h.queued_iff.mpr ⟨r, i, hq⟩)
  have hlt := he.index (h.rotates c).ridx
  rw [UInt8.lt_iff_toNat_lt] at hlt
  refine ⟨fun r => ?_, fun r i x hq => ?_, fun r i => ?_, fun x hx => ?_, fun c' => ?_, fun c' => ?_⟩
  · rw [setThread_runq]
    by_cases hr : r.cpu = c
    · obtain ⟨c', k⟩ := r
      obtain rfl : c = c' := hr.symm
      rw [setTdq_runq_self]
      by_cases hk : k = R.route (s.thread td)
      · have hm := h.marks ⟨c, k⟩
        subst k
        rw [he.gains.status, he.gains.queues]
        refine BitmapMarks.fill hm ?_
        split <;> simp
      · rw [he.others k hk]
        exact h.marks ⟨c, k⟩
    · rw [setTdq_runq_of_ne s hr]
      exact h.marks r
  · rcases (enter_mem he x r i).mp hq with hq | ⟨rfl, rfl, rfl⟩
    · have hx : x ≠ td := fun hx => hoff r i (hx ▸ hq)
      rw [setThread_thread_of_ne _ hx]
      exact h.place r i x hq
    · rw [setThread_thread_self]
      refine ⟨he.named, rfl, hlt, fun hk => ?_, he.cpu.trans hc⟩
      rw [he.lotteryIndex hk]
      rfl
  · rw [setThread_runq]
    by_cases hne : r = ⟨c, R.route (s.thread td)⟩ ∧ i = t.rqindex.toNat
    · obtain ⟨rfl, rfl⟩ := hne
      rw [setTdq_runq_self, (enter_perm he).nodup_iff, List.nodup_cons]
      exact ⟨hoff ⟨c, _⟩ _, h.nodup ⟨c, _⟩ _⟩
    · rw [enter_other he hne]
      exact h.nodup r i
  · rw [enter_queued he, not_or] at hx
    rw [setThread_thread_of_ne _ hx.2]
    exact h.flag x hx.1
  · have hsame : ∀ c', (s.tdq c').threads.countP
        (fun x => (((s.setTdq c d).setThread td t).thread x).xferable) =
          (s.tdq c').threads.countP (fun x => (s.thread x).xferable) := by
      refine fun c' => List.countP_congr (fun x hx => ?_)
      obtain ⟨k, i, hq⟩ := h.mem_threads.mp hx
      rw [setThread_thread_of_ne _ (fun he => hoff _ i (he ▸ hq))]
      rfl
    by_cases hc' : c' = c
    · subst c'
      have hperm := Tdq.threads_perm hlt (enter_bucket he) (enter_perm he)
      rw [setThread_tdq, setTdq_tdq_self, he.transferable, hperm.countP_eq, List.countP_cons, hsame,
        h.transferable, setThread_thread_self, he.flag, h.flag td hn, Bool.false_or]
      cases (s.thread td).canMigrate <;> simp
    · rw [setThread_tdq, setTdq_tdq_of_ne _ hc', hsame]
      exact h.transferable c'
  · by_cases hc' : c' = c
    · subst c'
      rw [setThread_tdq, setTdq_tdq_self]
      refine ⟨he.ridx.symm ▸ (h.rotates c).ridx, ?_⟩
      rw [he.idx, he.ridx]
      exact (h.rotates c).idx
    · rw [setThread_tdq, setTdq_tdq_of_ne _ hc']
      exact h.rotates c'

end Enter

section Leave

variable {td : Nat} {k : RunqName} {d : Tdq}

/-- The removal of a queued thread concerns the queue and the bucket its own fields name. -/
structure Leaving (s : Sched) (td : Nat) (k : RunqName) (d : Tdq) : Prop where
  named : (s.thread td).runq = some ⟨(s.thread td).cpu, k⟩
  mem : td ∈ ((s.tdq (s.thread td).cpu).runq k).queues (s.thread td).rqindex.toNat
  lt : (s.thread td).rqindex.toNat < 64
  leaves : (s.tdq (s.thread td).cpu).Leaves td (s.thread td) k d
  eq_some : s.runqRem (s.thread td).cpu td = some
    ((s.setTdq (s.thread td).cpu d).setThread td { s.thread td with xferable := false })

theorem Represents.leaving (h : s.Represents) (hq : s.Queued td) : ∃ k d, s.Leaving td k d := by
  obtain ⟨⟨c, k⟩, hn, hmem⟩ := hq
  obtain ⟨hn', _, hlt, _, hc⟩ := h.place _ _ _ hmem
  obtain ⟨d, hd, hl⟩ := tdqRunqRem_leaves (s.tdq (s.thread td).cpu) td hn'
  have hc' : (s.thread td).cpu = c := hc
  exact ⟨k, d, by rw [hc']; exact hn, by rw [hc']; exact hmem, hlt, hl, by rw [runqRem, hd]; rfl⟩

theorem Leaving.perm (hl : s.Leaving td k d) :
    (((s.tdq (s.thread td).cpu).runq k).queues (s.thread td).rqindex.toNat).Perm
      (td :: (d.runq k).queues (s.thread td).rqindex.toNat) := by
  rw [hl.leaves.loses.queues, Function.update_self]
  exact List.perm_cons_erase hl.mem

theorem Leaving.bucket (hl : s.Leaving td k d) (j : RunqName) (i : Nat)
    (hne : ¬(j = k ∧ i = (s.thread td).rqindex.toNat)) :
    ((s.tdq (s.thread td).cpu).runq j).queues i = (d.runq j).queues i := by
  by_cases hj : j = k
  · subst j
    rw [hl.leaves.loses.queues, Function.update_of_ne (fun hi => hne ⟨rfl, hi⟩)]
  · rw [hl.leaves.others j hj]

theorem Leaving.other (hl : s.Leaving td k d) {r : RunqRef} {i : Nat}
    (hne : ¬(r = ⟨(s.thread td).cpu, k⟩ ∧ i = (s.thread td).rqindex.toNat)) :
    ((s.setTdq (s.thread td).cpu d).runq r).queues i = (s.runq r).queues i := by
  by_cases hc : r.cpu = (s.thread td).cpu
  · obtain ⟨c, j⟩ := r
    cases hc
    rw [setTdq_runq_self]
    exact (hl.bucket j i (fun hj => hne ⟨by rw [hj.1], hj.2⟩)).symm
  · rw [setTdq_runq_of_ne s hc]

theorem Leaving.queue (hl : s.Leaving td k d) :
    ((s.setTdq (s.thread td).cpu d).runq ⟨(s.thread td).cpu, k⟩).queues
        (s.thread td).rqindex.toNat =
      ((s.runq ⟨(s.thread td).cpu, k⟩).queues (s.thread td).rqindex.toNat).erase td := by
  rw [setTdq_runq_self, hl.leaves.loses.queues, Function.update_self]
  rfl

/-- Every bucket loses the thread and nothing else. -/
theorem Represents.leave_queues (h : s.Represents) (hl : s.Leaving td k d) (r : RunqRef) (i : Nat) :
    ((s.setTdq (s.thread td).cpu d).runq r).queues i = ((s.runq r).queues i).erase td := by
  by_cases hne : r = ⟨(s.thread td).cpu, k⟩ ∧ i = (s.thread td).rqindex.toNat
  · obtain ⟨rfl, rfl⟩ := hne
    exact hl.queue
  · rw [hl.other hne, List.erase_of_not_mem]
    intro hq
    obtain ⟨hr, hi, _⟩ := h.place r i td hq
    exact hne ⟨Option.some.inj (hr.symm.trans hl.named), hi.symm⟩

theorem Represents.leave_mem (h : s.Represents) (hl : s.Leaving td k d) (x : Nat) (r : RunqRef)
    (i : Nat) : x ∈ ((s.setTdq (s.thread td).cpu d).runq r).queues i ↔
      x ≠ td ∧ x ∈ (s.runq r).queues i := by
  rw [h.leave_queues hl]
  exact (h.nodup r i).mem_erase_iff

theorem Represents.leave_queued (h : s.Represents) (hl : s.Leaving td k d) (x : Nat) :
    ((s.setTdq (s.thread td).cpu d).setThread td { s.thread td with xferable := false }).Queued x ↔
      x ≠ td ∧ s.Queued x := by
  by_cases hx : x = td
  · subst x
    refine iff_of_false ?_ (fun hq => hq.1 rfl)
    rintro ⟨r, _, hq⟩
    rw [setThread_runq, h.leave_mem hl] at hq
    exact hq.1 rfl
  · simp only [Queued, setThread_thread_of_ne _ hx, setThread_runq, setTdq_thread,
      h.leave_mem hl, ne_eq, hx, not_false_eq_true, true_and]

theorem Represents.leave (h : s.Represents) (hl : s.Leaving td k d) :
    ((s.setTdq (s.thread td).cpu d).setThread td
      { s.thread td with xferable := false }).Represents := by
  refine ⟨fun r => ?_, fun r i x hq => ?_, fun r i => ?_, fun x hx => ?_, fun c => ?_, fun c => ?_⟩
  · rw [setThread_runq]
    by_cases hr : r.cpu = (s.thread td).cpu
    · obtain ⟨c, j⟩ := r
      cases hr
      rw [setTdq_runq_self]
      have hm := h.marks ⟨(s.thread td).cpu, j⟩
      by_cases hj : j = k
      · subst j
        rw [hl.leaves.loses.status, hl.leaves.loses.queues]
        split
        next he =>
          rw [he]
          exact BitmapMarks.clear hm _
        next he => exact BitmapMarks.keep hm he (List.ne_nil_of_mem hl.mem)
      · rw [hl.leaves.others j hj]
        exact hm
    · rw [setTdq_runq_of_ne s hr]
      exact h.marks r
  · obtain ⟨hx, hq⟩ := (h.leave_mem hl x r i).mp hq
    rw [setThread_thread_of_ne _ hx]
    exact h.place r i x hq
  · rw [setThread_runq, h.leave_queues hl]
    exact (h.nodup r i).erase td
  · by_cases hxt : x = td
    · subst x
      rw [setThread_thread_self]
    · rw [setThread_thread_of_ne _ hxt]
      exact h.flag x (fun hq => hx ((h.leave_queued hl x).mpr ⟨hxt, hq⟩))
  · have hsame : ∀ l : List Nat, td ∉ l → l.countP (fun x => (((s.setTdq (s.thread td).cpu d).setThread
        td { s.thread td with xferable := false }).thread x).xferable) =
          l.countP (fun x => (s.thread x).xferable) := by
      refine fun l hoff => List.countP_congr (fun x hx => ?_)
      rw [setThread_thread_of_ne _ (ne_of_mem_of_not_mem hx hoff)]
      rfl
    by_cases hc : c = (s.thread td).cpu
    · subst c
      have hperm := Tdq.threads_perm hl.lt hl.bucket hl.perm
      have hoff : td ∉ d.threads := by
        rw [Tdq.mem_threads]
        rintro ⟨j, i, _, hq⟩
        have hq' : td ∈ ((s.setTdq (s.thread td).cpu d).runq ⟨(s.thread td).cpu, j⟩).queues i := by
          rwa [setTdq_runq_self]
        exact ((h.leave_mem hl td _ i).mp hq').1 rfl
      have ht := h.transferable (s.thread td).cpu
      rw [hperm.countP_eq, List.countP_cons] at ht
      rw [setThread_tdq, setTdq_tdq_self, hl.leaves.transferable, hsame _ hoff, ht]
      cases (s.thread td).xferable <;> simp
    · have hoff : td ∉ (s.tdq c).threads := by
        rw [h.mem_threads]
        rintro ⟨j, i, hq⟩
        exact hc (h.place _ i td hq).2.2.2.2.symm
      rw [setThread_tdq, setTdq_tdq_of_ne _ hc, hsame _ hoff]
      exact h.transferable c
  · by_cases hc : c = (s.thread td).cpu
    · subst c
      rw [setThread_tdq, setTdq_tdq_self]
      have hrot := h.rotates (s.thread td).cpu
      have hidx := hl.leaves.idx
      have hridx := hl.leaves.ridx
      split at hridx
      next hadv =>
        have hnext := hrot.idx.resolve_left hadv.2.1
        rw [← hadv.2.2.2, ← hnext] at hridx
        refine ⟨?_, Or.inl (hidx.trans hridx.symm)⟩
        rw [hridx, hnext, UInt8.lt_iff_toNat_lt, UInt8.toNat_mod]
        exact Nat.mod_lt _ (by decide)
      next => exact ⟨hridx.symm ▸ hrot.ridx, by rw [hidx, hridx]; exact hrot.idx⟩
    · rw [setThread_tdq, setTdq_tdq_of_ne _ hc]
      exact h.rotates c

end Leave

end Sched

end FreeBSDEdits
