import FreeBSDEdits.PageActiveScan
import FreeBSDEdits.PageFate

namespace FreeBSDEdits

namespace Vm

variable {v v' : Vm} {d : Nat}

/-- The other queues do not have the page that is taken. -/
theorem Takes.erase_there (h : v.Represents) {k : PageQueue} {m d' : Nat} {j : PageQueue}
    (hp : (v.page m).Lined d k) (hd : ¬(d' = d ∧ j = k)) :
    (v.queue d' j).pl.erase (.page m) = (v.queue d' j).pl := by
  refine h.erase_pl ?_
  rw [hp.queue]
  rintro ⟨hj, hd'⟩
  cases hj
  exact hd ⟨hd'.symm.trans hp.home, rfl⟩

/-- A page that is taken and put nowhere goes off the queues. -/
theorem Takes.drops (h : v.Represents) {k : PageQueue} {t : Taken} (ht : v.Takes d k t v')
    (hp : (v.page t.page).Lined d k) (hq : t.state.queue = none) : v.Drops t.page v' := by
  refine ⟨fun d' j => ?_, by rw [ht.self, hq], by rw [ht.self, ht.domain], fun x hx => ht.of_ne hx⟩
  by_cases hd : d' = d ∧ j = k
  · obtain ⟨rfl, rfl⟩ := hd
    rw [ht.here]
    rfl
  · have hnot : ¬t.SentTo d' j := fun hs => absurd (hq.symm.trans hs.1) (by simp)
    rw [ht.there d' j hd, if_neg hnot, Takes.erase_there h hp hd]

/-- A page that is taken and put on another queue goes to its tail. -/
theorem Takes.moved (h : v.Represents) {k k' : PageQueue} {m : Nat} {p : Page}
    (ht : v.Takes d k ⟨m, p, false⟩ v') (hp : (v.page m).Lined d k) (hk : k' ≠ k)
    (hq : p.queue = some k') (hidle : p.Idle) : v.Moved m k' v' := by
  have hself : v'.page m = p := ht.self
  have hhome : v.home m k' = p.home k' := by
    unfold home Page.home
    rw [ht.domain]
  refine ⟨fun d' j => ?_, by rw [hself]; exact hidle, by rw [hself]; exact ht.domain,
    fun x hx => ht.of_ne hx, v.clock, ?_⟩
  · by_cases hd : d' = d ∧ j = k
    · obtain ⟨rfl, rfl⟩ := hd
      rw [ht.here, if_neg (fun hc => hk hc.2.symm)]
      rfl
    · have hsent : Taken.SentTo d' j ⟨m, p, false⟩ ↔ d' = v.home m k' ∧ j = k' := by
        rw [hhome]
        constructor
        · rintro ⟨hj, hd'⟩
          cases hq.symm.trans hj
          exact ⟨hd'.symm, rfl⟩
        · rintro ⟨rfl, rfl⟩
          exact ⟨hq, rfl⟩
      rw [ht.there d' j hd, Takes.erase_there h hp hd]
      by_cases hs : d' = v.home m k' ∧ j = k'
      · rw [if_pos (hsent.mpr hs), if_pos hs]
        rfl
      · rw [if_neg (fun hc => hs (hsent.mp hc)), if_neg hs]
  · rw [ht.log, Taken.event, hq]
    rfl

end Vm

/-- An idle page that is not written is freed. -/
theorem Page.Idle.fate {p : Page} (hp : p.Idle) {o : Nat} (ho : p.object = some o)
    (object : Nat → VmObject) : p.fate object false = .freed := by
  have htested : p.tested (object o) false = p := if_neg (by simp)
  unfold Page.fate
  rw [ho]
  simp only [htested, hp.dirty, hp.holdCount, hp.busyLock, ne_eq, not_true_eq_false, or_self, or_true,
    if_true, if_false]

namespace InactiveScan

variable {s s' : InactiveScan} {m d o : Nat} {w : Visit}

/-- A turn over an idle page frees it, and the element behind it comes next. -/
theorem take_idle (h : s.vm.Represents) (hw : w.Free) (hp : (s.vm.page m).Idle)
    (ho : (s.vm.page m).object = some o) (hl : (s.vm.page m).Lined d .inactive)
    {pre post : List Link} (hpl : (s.vm.queue d .inactive).pl = pre ++ .page m :: post)
    (hm : .page m ∉ pre) (hmk : .marker d ∉ pre) (hs : s.take d m o w = some s') :
    s.vm.Drops m s'.vm ∧ s'.vm.log = .freed m :: s.vm.log ∧ s'.next = post.head? := by
  have hquiet : w.Quiet := ⟨hw.pageLock, hw.objectLock, hw.meanwhile⟩
  obtain ⟨v', ht, htake⟩ := take_takes hl hpl hm hmk hquiet ho hp.busyLock hp.holdCount
  rw [hw.modified, hp.fate ho] at ht
  rw [htake] at hs
  cases hs
  exact ⟨ht.drops h hl (Vm.freedState_place _).2, ht.log, rfl⟩

/-- With free locks an idle page is taken. -/
theorem visit_idle (hw : w.Free) (hp : (s.vm.page m).Idle) (hs : s.visit d m w = some s') :
    (s.vm.page m).queue = some .inactive ∧ (s.vm.page m).fictitious = false ∧
      ∃ o, (s.vm.page m).object = some o ∧ s.take d m o w = some s' := by
  unfold visit vmPageoutPageLock at hs
  simp only [hw.pageLock, hw.objectLock] at hs
  split at hs
  next => cases hs
  next hok =>
    simp only [not_or, not_not, Bool.not_eq_true] at hok
    rw [Option.bind_some] at hs
    simp only [hp.holdCount, Bool.true_eq_false, ne_eq, not_true_eq_false, if_false] at hs
    split at hs
    next => cases hs
    next o ho _ =>
      unfold examine at hs
      rw [if_neg (not_not.mpr hp.busyLock), if_neg (not_not.mpr hp.holdCount)] at hs
      exact ⟨hok.1, hok.2.1, o, ho, hs⟩
    next hc => cases hc

/-- The scan frees the pages from the first on, as many as it takes. -/
theorem loop_frees {n : Nat} {visits : List Visit} (hw : ∀ w ∈ visits, w.Free)
    (hv : s.vm.OneFifo)
    (hnext : s.next = some (.inacthead d) ∨
      s.next = ((s.vm.pages d .inactive).map Link.page).head?)
    (hs : loop d n visits s = some s') : s.vm.Frees d s'.vm := by
  induction n generalizing visits s with
  | zero =>
    cases hs
    exact hv.refl d
  | succ n ih =>
    have htail : ∀ w ∈ visits.tail, w.Free := fun w hm => hw w (List.mem_of_mem_tail hm)
    have hhead := Visit.free_headD hw
    have hpl := hv.straight.inactive_pl d
    simp only [loop] at hs
    split at hs
    next =>
      cases hs
      exact hv.refl d
    next x hx =>
      split at hs
      next =>
        rw [hx] at hnext
        rcases hnext with hnext | hnext
        · cases hnext
          refine ih htail (s := { s with
            next := TailQueue.next (s.vm.queue d .inactive).pl (.inacthead d) }) hv (Or.inr ?_) hs
          have hne : Link.inacthead d ∉ ([] : List Link) := by simp
          rw [hpl]
          exact TailQueue.next_append hne
        · cases hl : s.vm.pages d .inactive with
          | nil =>
            rw [hl] at hnext
            cases hnext
          | cons m l =>
            rw [hl] at hnext
            cases hnext
            obtain ⟨s₁, h₁, h₂⟩ := Option.bind_eq_some_iff.mp hs
            have hm : m ∈ s.vm.pages d .inactive := hl ▸ List.mem_cons_self
            obtain ⟨hq, hd⟩ := hv.represents.mem_pages.mp hm
            have hidle := hv.idle m (by simp [hq])
            have hpl₁ : (s.vm.queue d .inactive).pl = [.inacthead d] ++ .page m :: l.map .page := by
              rw [hpl, hl]
              rfl
            have hrep : s₁.vm.Represents := Vm.Moves.represents (visit_moves (s := { s with
              next := TailQueue.next (s.vm.queue d .inactive).pl (.page m) })
                (T := fun _ _ => True) hv.represents (fun _ => trivial) (hhead.within _) h₁)
                  hv.represents
            obtain ⟨_, hf, o, ho, ht⟩ := visit_idle (s := { s with
              next := TailQueue.next (s.vm.queue d .inactive).pl (.page m) }) hhead hidle h₁
            have hlined : (s.vm.page m).Lined d .inactive :=
              ⟨hq, hd, hidle.wireCount, hidle.unmanaged, hf⟩
            obtain ⟨hdrop, hlog, hnext₁⟩ := take_idle (s := { s with
              next := TailQueue.next (s.vm.queue d .inactive).pl (.page m) }) hv.represents hhead
                hidle ho hlined hpl₁ (by simp) (by simp) ht
            have hfree : s.vm.Frees d s₁.vm := hv.free hrep hl hdrop hlog
            refine hfree.trans (ih htail hfree.oneFifo (Or.inr ?_) h₂)
            rw [hnext₁, hdrop.pages, hl, List.erase_cons_head]
      next =>
        cases hs
        exact hv.refl d

end InactiveScan

namespace ActiveScan

variable {s s' : ActiveScan} {m d : Nat} {w : Visit} {weight : Int}

/-- A clean page in hand is deactivated whatever the shortage. -/
theorem take_idle (h : s.vm.Represents) (hp : (s.vm.page m).Idle)
    (hl : (s.vm.page m).Lined d .active) (hs : s.take m weight = some s') :
    s.vm.Moved m .inactive s'.vm ∧ s'.next = s.next := by
  obtain ⟨v', ht, htake⟩ := take_eq weight hl
  have htarget : target s.inactqShortage (s.vm.page m) = .inactive :=
    if_neg (fun hc => hc.1 hp.dirty)
  rw [htake] at hs
  cases hs
  rw [htarget] at ht
  exact ⟨ht.moved h hl (by simp) rfl
    ⟨hp.wireCount, hp.unmanaged, hp.holdCount, hp.busyLock, hp.valid, hp.dirty⟩, rfl⟩

theorem visit_idle (hw : w.Free) (hs : s.visit m weight w = some s') :
    (s.vm.page m).fictitious = false ∧ s.take m weight = some s' := by
  unfold visit vmPageoutPageLock at hs
  simp only [hw.pageLock] at hs
  split at hs
  next => cases hs
  next hok =>
    simp only [not_or, Bool.not_eq_true] at hok
    exact ⟨hok.2.1, hs⟩

/-- The scan turns active pages into inactive ones at their place in the one queue. -/
theorem loop_frees {n : Nat} {visits : List Visit} {minScan maxScan : Int}
    (hw : ∀ w ∈ visits, w.Free) (hv : s.vm.OneFifo)
    (hnext : s.next = ((s.vm.pages d .active).map Link.page).head?)
    (hs : loop d minScan maxScan weight n visits s = some s') : s.vm.Frees d s'.vm := by
  induction n generalizing visits s with
  | zero =>
    cases hs
    exact hv.refl d
  | succ n ih =>
    have htail : ∀ w ∈ visits.tail, w.Free := fun w hm => hw w (List.mem_of_mem_tail hm)
    have hhead := Visit.free_headD hw
    have hpl := hv.straight.active_pl d
    simp only [loop] at hs
    split at hs
    next =>
      cases hs
      exact hv.refl d
    next x hx =>
      split at hs
      next =>
        rw [hx] at hnext
        cases hl : s.vm.pages d .active with
        | nil =>
          rw [hl] at hnext
          cases hnext
        | cons m l =>
          rw [hl] at hnext hpl
          cases hnext
          obtain ⟨s₁, h₁, h₂⟩ := Option.bind_eq_some_iff.mp hs
          obtain ⟨hq, hd⟩ := hv.represents.mem_pages.mp (hl ▸ List.mem_cons_self)
          have hdom : (s.vm.page m).domain = d := hd
          have hidle := hv.idle m (by simp [hq])
          have hrep : s₁.vm.Represents := Vm.Moves.represents (visit_moves (s := { s with
            next := TailQueue.next (s.vm.queue d .active).pl (.page m) })
              (T := fun _ _ => True) hv.represents (fun _ => trivial) (hhead.within _) h₁)
                hv.represents
          obtain ⟨hf, ht⟩ := visit_idle hhead h₁
          have hlined : (s.vm.page m).Lined d .active :=
            ⟨hq, hd, hidle.wireCount, hidle.unmanaged, hf⟩
          obtain ⟨hmoved, hnext₁⟩ := take_idle (s := { s with
            next := TailQueue.next (s.vm.queue d .active).pl (.page m) }) hv.represents hidle
              hlined ht
          obtain ⟨hfifo, hsame⟩ := hv.turn hrep (hdom.symm ▸ hl) hmoved
          have hfree : s.vm.Frees d s₁.vm := ⟨hfifo, [], (hsame d).1.symm, (hsame d).2⟩
          refine hfree.trans (ih htail (s := { s₁ with scanned := s₁.scanned + 1 }) hfifo ?_ h₂)
          have hne : Link.page m ∉ ([] : List Link) := by simp
          change s₁.next = ((s₁.vm.pages d .active).map Link.page).head?
          rw [hnext₁, hmoved.pages, if_neg (by simp), hl, List.erase_cons_head]
          change TailQueue.next (s.vm.queue d .active).pl (.page m) = _
          rw [hpl]
          exact TailQueue.next_append hne
      next =>
        cases hs
        exact hv.refl d

end ActiveScan

/-- The pages concerned are idle, and the scans find every lock free. -/
def VmOp.Undisturbed (v : Vm) : VmOp → Prop
  | .page (.activate m) => (v.page m).Idle
  | .page (.outside m p) => (v.page m).queue ≠ none → ((v.page m).adopt p).Idle
  | .page (.tick _) | .page (.offQueue _ _) | .page (.outsideObject _ _) => True
  | .page _ => False
  | .inactiveScan _ _ visits | .activeScan _ _ _ _ visits => ∀ w ∈ visits, w.Free
  | .pageoutScan _ a => (∀ w ∈ a.inactiveVisits, w.Free) ∧ ∀ w ∈ a.activeVisits, w.Free

def undisturbed (_ : VmHistory) (v : Vm) (op : VmOp) : Prop := op.Undisturbed v

instance (v : Vm) (op : VmOp) : Decidable (op.Undisturbed v) := by
  rcases op with op | _ | _ | _
  · rcases op <;> unfold VmOp.Undisturbed <;> infer_instance
  · unfold VmOp.Undisturbed
    infer_instance
  · unfold VmOp.Undisturbed
    infer_instance
  · unfold VmOp.Undisturbed
    infer_instance

instance : ∀ h v op, Decidable (undisturbed h v op) := fun _ v op =>
  inferInstanceAs (Decidable (op.Undisturbed v))

namespace Vm

variable {v v' : Vm} {d : Nat}

theorem inactiveScan_frees (hv : v.OneFifo) {pageShortage : Int} {visits : List Visit}
    (hw : ∀ w ∈ visits, w.Free) {s : InactiveScan}
    (hs : inactiveScan v d pageShortage visits = some s) : v.Frees d s.vm :=
  InactiveScan.loop_frees hw hv (Or.inl (by rw [hv.straight.inactive_pl]; rfl)) hs

theorem activeScan_frees (hv : v.OneFifo) {minScan inactqShortage weight : Int}
    {visits : List Visit} (hw : ∀ w ∈ visits, w.Free) {s : ActiveScan}
    (hs : activeScan v d minScan inactqShortage weight visits = some s) : v.Frees d s.vm :=
  ActiveScan.loop_frees hw hv (by rw [hv.straight.active_pl]) hs

theorem pageoutScan_frees (hv : v.OneFifo) {a : ScanArgs}
    (hw : (∀ w ∈ a.inactiveVisits, w.Free) ∧ ∀ w ∈ a.activeVisits, w.Free) {b : Bool}
    (hs : vmPageoutScan v d a = some (v', b)) : v.Frees d v' := by
  obtain ⟨r, h₁, he⟩ := Option.bind_eq_some_iff.mp hs
  obtain ⟨r', h₂, he⟩ := Option.map_eq_some_iff.mp he
  cases he
  have hfree := inactiveScan_frees hv hw.1 h₁
  exact hfree.trans (activeScan_frees hfree.oneFifo hw.2 h₂)

/-- What the rest of the kernel does leaves both queues alone. -/
theorem OneFifo.of_same (hv : v.OneFifo) (hr : v'.Represents) (hp : v'.page = v.page)
    (hq : v'.queue = v.queue) (hl : v'.log = v.log) : v'.OneFifo := by
  refine ⟨hr, ⟨fun d => ?_, fun d => ?_⟩, fun m => ?_, fun d => ?_⟩
  · rw [hq]
    exact hv.straight.inactive d
  · rw [hq]
    exact hv.straight.active d
  · rw [hp]
    exact hv.idle m
  · rw [fifoLog, fifo, pages, pages, hp, hq, hl]
    exact hv.runs d

theorem OneFifo.step (hv : v.OneFifo) {op : VmOp} (hop : op.Undisturbed v) {r : Option Bool}
    (hs : v.step op = some (v', r)) : v'.OneFifo := by
  have hr : v'.Represents := Moves.represents
    (Vm.step_moves hv.represents (fun _ => trivial) (op.within_any v) hs) hv.represents
  cases op with
  | inactiveScan d pageShortage visits =>
    obtain ⟨s, h₁, he⟩ := Option.map_eq_some_iff.mp hs
    cases he
    exact (inactiveScan_frees hv hop h₁).oneFifo
  | activeScan d minScan inactqShortage weight visits =>
    obtain ⟨s, h₁, he⟩ := Option.map_eq_some_iff.mp hs
    cases he
    exact (activeScan_frees hv hop h₁).oneFifo
  | pageoutScan d a =>
    obtain ⟨q, h₁, he⟩ := Option.map_eq_some_iff.mp hs
    cases he
    exact (pageoutScan_frees hv hop h₁).oneFifo
  | page op =>
    obtain ⟨v₁, h₁, he⟩ := Option.map_eq_some_iff.mp hs
    cases he
    cases op with
    | activate m =>
      rcases activate_idle hv.represents hop h₁ with ⟨_, rfl⟩ | ⟨hn, hm⟩
      · exact hv.setPage hr (initAct_idle hop).2 (fun _ => (initAct_idle hop).1)
      · exact hv.enter hr hn hm
    | outside m p =>
      cases h₁
      exact hv.setPage hr rfl hop
    | offQueue m p =>
      simp only [PageOp.run] at h₁
      split at h₁
      next hn =>
        cases h₁
        exact hv.setPage hr rfl (fun hq => absurd hn hq)
      next => cases h₁
    | tick now =>
      simp only [PageOp.run] at h₁
      split at h₁
      next =>
        cases h₁
        exact hv.of_same hr rfl rfl rfl
      next => cases h₁
    | outsideObject o x =>
      cases h₁
      exact hv.of_same hr rfl rfl rfl
    | deactivate | deactivateNoreuse | launder | wire | unwire | requeue | free =>
      exact absurd hop (by simp [VmOp.Undisturbed])

theorem boot_oneFifo (page : Nat → Page) (object : Nat → VmObject) (clock : Nanotime) :
    (boot page object clock).OneFifo :=
  ⟨boot_represents page object clock, ⟨fun _ => ⟨[], rfl⟩, fun _ => ⟨[], rfl⟩⟩,
    fun _ hq => absurd rfl hq, fun _ => .nil⟩

end Vm

section

variable {page : Nat → Page} {object : Nat → VmObject} {clock : Nanotime} {h : VmHistory} {v : Vm}

theorem VmRun.oneFifo (hr : VmRun undisturbed page object clock h v) : v.OneFifo := by
  unfold VmRun at hr
  exact GuardedRun.invariant (P := fun _ v => v.OneFifo) (Vm.boot_oneFifo page object clock)
    (fun _ _ _ _ _ _ hv hok hs => hv.step hok hs) hr

/-- The inactive and the active queue of a domain are one queue ordered by the last transitions into
the active one, and vm_pageout_scan frees its front. -/
theorem page_queues_one_fifo (hr : VmRun undisturbed page object clock h v) (d : Nat) :
    ((EntryFifo.left (v.fifoLog d)).map Prod.snd ++
      (v.fifo d).map (EntryFifo.lastEntered (v.fifoLog d))).Pairwise (· < ·) ∧
    ∀ a v' r, (VmOp.pageoutScan d a).Undisturbed v → v.step (.pageoutScan d a) = some (v', r) →
      ∃ l, v.fifo d = l ++ v'.fifo d ∧ v'.fifoLog d = (l.map .leave).reverse ++ v.fifoLog d := by
  refine ⟨(hr.oneFifo.runs d).ordered, fun a v' r hop hs => ?_⟩
  obtain ⟨q, h₁, he⟩ := Option.map_eq_some_iff.mp hs
  cases he
  exact (Vm.pageoutScan_frees hr.oneFifo hop h₁).front

end

/-- A pass with a shortage of one page. -/
def onePage : ScanArgs := ⟨1, 1, 0, 1, 3, [], []⟩

/-- Page 1 is activated once more from the inactive queue, and the next pass frees page 2. -/
theorem page_queues_one_fifo_pass : ∃ h v v' r,
    VmRun undisturbed (fun _ => plainPage) (fun _ => plainObject) ⟨1, 0⟩ h v ∧
    v.fifo 0 = [2, 3, 1] ∧
    ([2, 3, 1].map (EntryFifo.lastEntered (v.fifoLog 0))).Pairwise (· < ·) ∧
    v.step (.pageoutScan 0 onePage) = some (v', r) ∧ v'.fifo 0 = [3, 1] ∧
    ∃ l, v.fifo 0 = l ++ v'.fifo 0 ∧ v'.fifoLog 0 = (l.map .leave).reverse ++ v.fifoLog 0 := by
  obtain ⟨h, v, hr, hc⟩ := vmRun_of_replay undisturbed (fun _ => plainPage) (fun _ => plainObject)
    [.page (.activate 1), .page (.activate 2), .page (.activate 3), .activeScan 0 1 0 3 [],
      .page (.activate 1), .activeScan 0 2 0 3 []]
    (fun v => v.fifo 0 = [2, 3, 1] ∧
      (v.step (.pageoutScan 0 onePage)).any (fun r => decide (r.1.fifo 0 = [3, 1])))
    (by decide +kernel)
  obtain ⟨hf, hs⟩ := of_decide_eq_true hc
  obtain ⟨⟨v', r⟩, he, hf'⟩ := (Option.any_eq_true _ _).mp hs
  obtain ⟨hord, hpass⟩ := page_queues_one_fifo hr 0
  refine ⟨h, v, v', r, hr, hf, ?_, he, of_decide_eq_true hf', hpass onePage v' r ?_ he⟩
  · rw [← hf]
    exact (List.pairwise_append.mp hord).2.1
  · exact ⟨by simp [onePage], by simp [onePage]⟩

end FreeBSDEdits
