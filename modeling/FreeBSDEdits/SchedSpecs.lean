import FreeBSDEdits.SchedOps

namespace FreeBSDEdits

/-- The queue tdq_runq_add chooses for a thread. -/
def Priorities.route (R : Priorities) (t : Thread) : RunqName :=
  if t.priority.toNat < R.minBatch then .realtime
  else if t.priority.toNat ≤ R.maxBatch then
    if (sysGetuid t).retval ≠ 0 then .lottery else .timeshare
  else .idle

/-- The tickets tdq_runq_add gives to a thread of the lottery queue. -/
def Thread.startTickets (t : Thread) : UInt64 := .ofInt (20 + t.nice.toInt)

/-- What a queue looks like when a thread has been inserted. -/
structure Runq.Gains (rq : Runq) (td : Nat) (pri : UInt8) (flags : SrqFlags) (rq' : Runq) : Prop where
  status : rq'.status = rq.status ||| BitVec.twoPow 64 pri.toNat
  queues : rq'.queues = Function.update rq.queues pri.toNat
    (if flags.preempted then td :: rq.queues pri.toNat else rq.queues pri.toNat ++ [td])

/-- What tdq_runq_add does. -/
structure Tdq.Enters (R : Priorities) (c : Nat) (d : Tdq) (td : Nat) (t : Thread)
    (flags : SrqFlags) (d' : Tdq) (t' : Thread) : Prop where
  named : t'.runq = some ⟨c, R.route t⟩
  index : d.ridx < 64 → t'.rqindex < 64
  lotteryIndex : R.route t = .lottery → t'.rqindex = 0
  cpu : t'.cpu = t.cpu
  flag : t'.xferable = (t.xferable || t.canMigrate)
  tickets : t'.tickets = if R.route t = .lottery then t.startTickets else t.tickets
  transferable : d'.transferable = d.transferable + if t.canMigrate then 1 else 0
  idx : d'.idx = d.idx
  ridx : d'.ridx = d.ridx
  gains : (d.runq (R.route t)).Gains td t'.rqindex flags (d'.runq (R.route t))
  others : ∀ k, k ≠ R.route t → d'.runq k = d.runq k
  numTickets : R.route t = .lottery → (d'.runq .lottery).numTickets =
    (d.runq .lottery).numTickets + t.startTickets
  totalProc : R.route t = .lottery → (d'.runq .lottery).totalProc = (d.runq .lottery).totalProc + 1
  maxTickets : R.route t = .lottery → (d'.runq .lottery).maxTickets =
    if t.startTickets > (d.runq .lottery).maxTickets ∨ (d.runq .lottery).maxTickets = 0 then
      t.startTickets else (d.runq .lottery).maxTickets
  minTickets : R.route t = .lottery → (d'.runq .lottery).minTickets =
    if t.startTickets < (d.runq .lottery).minTickets ∨ (d.runq .lottery).minTickets = 0 then
      t.startTickets else (d.runq .lottery).minTickets

theorem priority_bucket_lt (p : UInt8) : p / rqPpq < 64 := by
  rw [UInt8.lt_iff_toNat_lt, UInt8.toNat_div]
  have h := p.toNat_lt
  change p.toNat / 4 < 64
  omega

theorem timesharePri_lt (R : Priorities) {d : Tdq} (hr : d.ridx < 64) (pri : UInt8)
    (flags : SrqFlags) : timesharePri R d pri flags < 64 := by
  have hmod : ∀ x : UInt8, x % 64 < 64 := by
    intro x
    rw [UInt8.lt_iff_toNat_lt, UInt8.toNat_mod]
    exact Nat.mod_lt _ (by decide)
  unfold timesharePri
  split
  next =>
    simp only
    split
    next => exact hmod _
    next =>
      rw [UInt8.lt_iff_toNat_lt, UInt8.toNat_ofNat']
      have h := Nat.mod_lt ((rqNqs * (pri.toNat - R.minBatch) / R.batchRange + d.idx.toNat))
        (show 0 < rqNqs by decide)
      exact Nat.lt_of_le_of_lt (Nat.mod_le _ _) h
  next => exact hr

/-- The queues other than the lottery queue only gain the thread. -/
theorem runqAddPri_enters (R : Priorities) (c td : Nat) (flags : SrqFlags) {d d₁ : Tdq}
    {t t₁ : Thread} {pri : UInt8} {k : RunqName} (hk : R.route t = k) (hne : k ≠ .lottery)
    (hpri : d.ridx < 64 → pri < 64)
    (hd : d₁ = { d with transferable := d.transferable + if t.canMigrate then 1 else 0 })
    (ht : t₁.cpu = t.cpu ∧ t₁.xferable = (t.xferable || t.canMigrate) ∧ t₁.tickets = t.tickets)
    (hn : t₁.runq = some ⟨c, k⟩) :
    d.Enters R c td t flags (d₁.setRunq k (runqAddPri (d₁.runq k) td t₁ pri flags).1)
      (runqAddPri (d₁.runq k) td t₁ pri flags).2 := by
  subst hd
  subst hk
  refine ⟨hn, hpri, fun h => absurd h hne, ht.1, ht.2.1, ?_, rfl, rfl, rfl, ?_, fun k hk => ?_,
    fun h => absurd h hne, fun h => absurd h hne, fun h => absurd h hne, fun h => absurd h hne⟩
  · rw [if_neg hne]
    exact ht.2.2
  · constructor <;> simp [Tdq.setRunq, runqAddPri, Runq.setbit]
  · exact Function.update_of_ne hk _ _

theorem lotteryAdd_enters (R : Priorities) (c td : Nat) (flags : SrqFlags) {d d₁ : Tdq}
    {t t₁ : Thread} (hk : R.route t = .lottery)
    (hd : d₁ = { d with transferable := d.transferable + if t.canMigrate then 1 else 0 })
    (ht : t₁.cpu = t.cpu ∧ t₁.xferable = (t.xferable || t.canMigrate) ∧ t₁.nice = t.nice)
    (hn : t₁.runq = some ⟨c, .lottery⟩) :
    d.Enters R c td t flags (d₁.setRunq .lottery (lotteryAdd (d₁.runq .lottery) td t₁ flags).1)
      (lotteryAdd (d₁.runq .lottery) td t₁ flags).2 := by
  subst hd
  have h0 : (0 : UInt8) < 64 := by decide
  refine ⟨hk ▸ hn, fun _ => h0, fun _ => rfl, ht.1, ht.2.1, ?_, rfl, rfl, rfl, ?_,
    fun k hne => ?_, fun _ => ?_, fun _ => ?_, fun _ => ?_, fun _ => ?_⟩
  · rw [if_pos hk, Thread.startTickets, ← ht.2.2]
    rfl
  · rw [hk]
    constructor <;> simp [Tdq.setRunq, lotteryAdd, runqAddPri, Runq.setbit]
  · exact Function.update_of_ne (hk ▸ hne) _ _
  all_goals simp [Tdq.setRunq, lotteryAdd, runqAddPri, Runq.setbit, Thread.startTickets, ht.2.2]

theorem tdqRunqAdd_enters (R : Priorities) (c : Nat) (d : Tdq) (td : Nat) (t : Thread)
    (flags : SrqFlags) : d.Enters R c td t flags (tdqRunqAdd R c d td t flags).1
      (tdqRunqAdd R c d td t flags).2 := by
  obtain ⟨d₁, t₁, he, hd, ht⟩ : ∃ d₁ t₁, (if t.canMigrate then
      ({ d with transferable := d.transferable + 1 },
        { t with state := .runq, xferable := true }) else (d, { t with state := .runq })) = (d₁, t₁) ∧
      d₁ = { d with transferable := d.transferable + if t.canMigrate then 1 else 0 } ∧
      t₁ = { t with state := .runq, xferable := t.xferable || t.canMigrate } := by
    cases hm : t.canMigrate <;> simp
  have hm : ({ t with state := TdState.runq } : Thread).canMigrate = t.canMigrate := rfl
  have hp : t₁.priority = t.priority := by rw [ht]
  have hr : (sysGetuid t₁).retval = (sysGetuid t).retval := by rw [ht]; rfl
  simp only [tdqRunqAdd, hm, he, hr]
  by_cases h1 : t.priority.toNat < R.minBatch
  · simp only [if_pos h1]
    exact runqAddPri_enters R c td flags (by simp [Priorities.route, h1]) (by simp)
      (fun _ => priority_bucket_lt _) hd (by simp [ht]) rfl
  · by_cases h2 : t.priority.toNat ≤ R.maxBatch
    · by_cases h3 : (sysGetuid t).retval ≠ 0
      · simp only [if_neg h1, if_pos h2, if_pos h3]
        exact lotteryAdd_enters R c td flags (by simp [Priorities.route, h1, h2, h3]) hd
          (by simp [ht, sysGetuid]) rfl
      · simp only [if_neg h1, if_pos h2, if_neg h3]
        refine runqAddPri_enters R c td flags (by simp [Priorities.route, h1, h2, h3]) (by simp)
          (fun hlt => timesharePri_lt R ?_ _ _) hd (by simp [ht, sysGetuid]) rfl
        rwa [hd]
    · simp only [if_neg h1, if_neg h2]
      exact runqAddPri_enters R c td flags (by simp [Priorities.route, h1, h2]) (by simp)
        (fun _ => priority_bucket_lt _) hd (by simp [ht]) rfl

/-- What a queue looks like when a thread has been removed. -/
structure Runq.Loses (rq : Runq) (td : Nat) (pri : UInt8) (rq' : Runq) : Prop where
  status : rq'.status = if (rq.queues pri.toNat).erase td = [] then
    rq.status &&& ~~~BitVec.twoPow 64 pri.toNat else rq.status
  queues : rq'.queues = Function.update rq.queues pri.toNat ((rq.queues pri.toNat).erase td)
  numTickets : rq'.numTickets = rq.numTickets
  totalProc : rq'.totalProc = rq.totalProc
  maxTickets : rq'.maxTickets = rq.maxTickets
  minTickets : rq'.minTickets = rq.minTickets

/-- What tdq_runq_rem does. -/
structure Tdq.Leaves (d : Tdq) (td : Nat) (t : Thread) (k : RunqName) (d' : Tdq) : Prop where
  transferable : d'.transferable = d.transferable - if t.xferable then 1 else 0
  idx : d'.idx = d.idx
  ridx : d'.ridx = if k = .timeshare ∧ d.idx ≠ d.ridx ∧
    ((d.runq k).queues t.rqindex.toNat).erase td = [] ∧ d.ridx = t.rqindex then
      (t.rqindex + 1) % 64 else d.ridx
  lowpri : d'.lowpri = d.lowpri
  loses : (d.runq k).Loses td t.rqindex (d'.runq k)
  others : ∀ j, j ≠ k → d'.runq j = d.runq j

theorem runqRemoveIdx_loses (rq : Runq) (td : Nat) (t : Thread) (idx : Option UInt8) :
    rq.Loses td t.rqindex (runqRemoveIdx rq td t idx).1 := by
  unfold runqRemoveIdx
  simp only
  split
  next he => exact ⟨(if_pos he).symm, rfl, rfl, rfl, rfl, rfl⟩
  next he => exact ⟨(if_neg he).symm, rfl, rfl, rfl, rfl, rfl⟩

theorem runqRemoveIdx_some (rq : Runq) (td : Nat) (t : Thread) (i : UInt8) :
    (runqRemoveIdx rq td t (some i)).2 = some
      (if (rq.queues t.rqindex.toNat).erase td = [] ∧ i = t.rqindex then (t.rqindex + 1) % 64
        else i) := by
  unfold runqRemoveIdx
  simp only
  split
  next he => simp [he]
  next he => simp [he]

theorem tdqRunqRem_leaves (d : Tdq) (td : Nat) {t : Thread} {r : RunqRef} (h : t.runq = some r) :
    ∃ d', tdqRunqRem d td t = some (d', { t with xferable := false }) ∧ d.Leaves td t r.name d' := by
  obtain ⟨d₁, he, hd⟩ : ∃ d₁, (if t.xferable then
      ({ d with transferable := d.transferable - 1 }, { t with xferable := false }) else (d, t)) =
        (d₁, { t with xferable := false }) ∧
      d₁ = { d with transferable := d.transferable - if t.xferable then 1 else 0 } := by
    cases hx : t.xferable <;> simp
    rw [← hx]
  unfold tdqRunqRem
  split
  next hn => simp [h] at hn
  next r' hr =>
    cases h.symm.trans hr
    have hl := fun idx => runqRemoveIdx_loses (d.runq r.name) td { t with xferable := false } idx
    simp only [he]
    subst hd
    by_cases hk : r.name = .timeshare
    · rw [if_pos hk]
      by_cases hne : d.idx ≠ d.ridx
      · rw [if_pos hne]
        refine ⟨_, rfl, rfl, rfl, ?_, rfl, ?_, fun j hj => ?_⟩
        · rw [runqRemoveIdx_some, hk]
          simp [hne]
        · simpa [Tdq.setRunq, hk] using hk ▸ hl (some d.ridx)
        · exact Function.update_of_ne (hk ▸ hj) _ _
      · rw [if_neg hne]
        refine ⟨_, rfl, rfl, rfl, ?_, rfl, ?_, fun j hj => ?_⟩
        · simp [hne, Tdq.setRunq]
        · simpa [Tdq.setRunq, hk] using hk ▸ hl none
        · exact Function.update_of_ne (hk ▸ hj) _ _
    · rw [if_neg hk]
      refine ⟨_, rfl, rfl, rfl, ?_, rfl, ?_, fun j hj => ?_⟩
      · simp [hk, Tdq.setRunq]
      · simpa [Tdq.setRunq] using hl none
      · exact Function.update_of_ne hj _ _

/-- By the status bits no thread of the realtime or the timeshare queue is ready. -/
def Tdq.Waits (d : Tdq) : Prop :=
  (d.runq .realtime).choose = none ∧ (d.runq .timeshare).chooseFrom d.ridx.toNat = none

/-- All that a call of tdq_choose can do. -/
inductive Tdq.Chooses (tickets : Nat → UInt64) (d : Tdq) (random : UInt64) :
    Tdq → Option Nat → Prop
  | realtime {td} : (d.runq .realtime).choose = some td → Chooses tickets d random d (some td)
  | timeshare {td} : (d.runq .realtime).choose = none →
      (d.runq .timeshare).chooseFrom d.ridx.toNat = some td → Chooses tickets d random d (some td)
  | unused : d.Waits → (d.runq .lottery).totalProc = 0 →
      Chooses tickets d random d (d.runq .idle).choose
  | missed {winner} : d.Waits → (d.runq .lottery).totalProc ≠ 0 →
      rng random (d.runq .lottery).numTickets = some winner →
      lotteryScan tickets winner 0 ((d.runq .lottery).queues 0) = none →
      Chooses tickets d random d (d.runq .idle).choose
  | last {winner td} : d.Waits → (d.runq .lottery).totalProc = 1 →
      rng random (d.runq .lottery).numTickets = some winner →
      lotteryScan tickets winner 0 ((d.runq .lottery).queues 0) = some td →
      Chooses tickets d random
        (d.setRunq .lottery { d.runq .lottery with
          totalProc := 0
          numTickets := (d.runq .lottery).numTickets - tickets td
          maxTickets := 0
          minTickets := 0 })
        (some td)
  | draw {winner td} : d.Waits → (d.runq .lottery).totalProc ≠ 0 → (d.runq .lottery).totalProc ≠ 1 →
      rng random (d.runq .lottery).numTickets = some winner →
      lotteryScan tickets winner 0 ((d.runq .lottery).queues 0) = some td →
      tickets td ≠ (d.runq .lottery).maxTickets → (d.runq .lottery).maxTickets ≠ 0 →
      tickets td ≠ (d.runq .lottery).minTickets →
      Chooses tickets d random
        (d.setRunq .lottery { d.runq .lottery with
          totalProc := (d.runq .lottery).totalProc - 1
          numTickets := (d.runq .lottery).numTickets - tickets td })
        (some td)

theorem Tdq.setRunq_self (d : Tdq) (k : RunqName) : d.setRunq k (d.runq k) = d := by
  simp [setRunq]

/-- The statistics are refreshed without a trap when the last thread was drawn, or when no scan runs. -/
theorem lotteryDrawn_eq_some {tickets : Nat → UInt64} {rq : Runq} {td : Nat}
    {r : Runq × Option Nat} : lotteryDrawn tickets rq (some td) = some r ↔
      rq.totalProc = 0 ∧ r = ({ rq with maxTickets := 0, minTickets := 0 }, some td) ∨
      rq.totalProc ≠ 0 ∧ tickets td ≠ rq.maxTickets ∧ rq.maxTickets ≠ 0 ∧
        tickets td ≠ rq.minTickets ∧ r = (rq, some td) := by
  unfold lotteryDrawn
  by_cases h0 : rq.totalProc = 0
  · simp [h0, eq_comm]
  · rw [if_neg h0]
    by_cases hmax : tickets td = rq.maxTickets ∨ rq.maxTickets = 0
    · have hscan : refreshMax tickets rq (some td) =
          some ({ rq with maxTickets := maxScan tickets (rq.queues 0) }, none) := by
        rw [refreshMax, Option.map_some, if_pos hmax]
      have hne : ¬(tickets td ≠ rq.maxTickets ∧ rq.maxTickets ≠ 0) := by tauto
      rw [hscan]
      simp only [refreshMin, h0, Option.bind_eq_bind, Option.bind_some, Option.map_none,
        Option.bind_none, reduceCtorEq, false_and, ne_eq, not_false_eq_true, true_and, false_or,
        false_iff]
      tauto
    · have hne := not_or.mp hmax
      have hkeep : refreshMax tickets rq (some td) = some (rq, some td) := by
        rw [refreshMax, Option.map_some, if_neg hmax]
      rw [hkeep]
      by_cases hmin : tickets td = rq.minTickets
      · have hscan : refreshMin tickets rq (some td) =
            some ({ rq with minTickets := minScan tickets (rq.queues 0) }, none) := by
          rw [refreshMin, Option.map_some, if_pos hmin]
        simp [hscan, h0, hmin]
      · have hkeep' : refreshMin tickets rq (some td) = some (rq, some td) := by
          rw [refreshMin, Option.map_some, if_neg hmin]
        simp [hkeep', h0, hmin, hne, eq_comm]

theorem tdqChoose_iff {tickets : Nat → UInt64} {d d' : Tdq} {random : UInt64} {o : Option Nat} :
    tdqChoose tickets d random = some (d', o) ↔ d.Chooses tickets random d' o := by
  constructor
  · intro h
    unfold tdqChoose at h
    split at h
    next td hr =>
      cases h
      exact .realtime hr
    next hr =>
      split at h
      next td ht =>
        cases h
        exact .timeshare hr ht
      next ht =>
        by_cases h0 : (d.runq .lottery).totalProc = 0
        · simp only [lotteryqChoose, h0, ne_eq, not_true_eq_false, if_false, Tdq.setRunq_self] at h
          cases h
          exact .unused ⟨hr, ht⟩ h0
        · simp only [lotteryqChoose, if_pos h0] at h
          cases hrng : rng random (d.runq .lottery).numTickets with
          | none => simp [hrng] at h
          | some winner =>
            simp only [hrng] at h
            cases hscan : lotteryScan tickets winner 0 ((d.runq .lottery).queues 0) with
            | none =>
              simp only [hscan, Tdq.setRunq_self] at h
              cases h
              exact .missed ⟨hr, ht⟩ h0 hrng hscan
            | some td =>
              simp only [hscan] at h
              obtain ⟨r, hd, he⟩ := Option.map_eq_some_iff.mp h
              rcases lotteryDrawn_eq_some.mp hd with ⟨h1, rfl⟩ | ⟨h1, hmax, hmax0, hmin, rfl⟩
              · have hone : (d.runq .lottery).totalProc = 1 := by
                  change (d.runq .lottery).totalProc - 1 = 0 at h1
                  omega
                cases he
                rw [hone]
                exact .last ⟨hr, ht⟩ hone hrng hscan
              · cases he
                refine .draw ⟨hr, ht⟩ h0 (fun hone => h1 ?_) hrng hscan hmax hmax0 hmin
                change (d.runq .lottery).totalProc - 1 = 0
                omega
  · intro h
    cases h with
    | realtime hr => simp [tdqChoose, hr]
    | timeshare hr ht => simp [tdqChoose, hr, ht]
    | unused hw h0 => simp [tdqChoose, hw.1, hw.2, lotteryqChoose, h0, Tdq.setRunq_self]
    | missed hw h0 hr hs => simp [tdqChoose, hw.1, hw.2, lotteryqChoose, h0, hr, hs, Tdq.setRunq_self]
    | last hw h0 hr hs =>
      simp [tdqChoose, hw.1, hw.2, lotteryqChoose, h0, hr, hs, lotteryDrawn_eq_some]
    | draw hw h0 h1 hr hs hmax hmax0 hmin =>
      have hleft : (d.runq .lottery).totalProc - 1 ≠ 0 := by omega
      simp [tdqChoose, hw.1, hw.2, lotteryqChoose, h0, hr, hs, lotteryDrawn_eq_some, hleft, hmax,
        hmax0, hmin]

end FreeBSDEdits
