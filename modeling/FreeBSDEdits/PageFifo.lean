import FreeBSDEdits.EntryFifo
import FreeBSDEdits.PageRuns

namespace FreeBSDEdits

theorem mem_linkPages {m : Nat} {pl : List Link} : m ∈ linkPages pl ↔ .page m ∈ pl := by
  rw [linkPages, List.mem_filterMap]
  constructor
  · rintro ⟨x, hx, he⟩
    cases x with
    | page n =>
      cases he
      exact hx
    | marker | inacthead | lockMarker => cases he
  · intro hm
    exact ⟨.page m, hm, rfl⟩

theorem linkPages_map (l : List Nat) : linkPages (l.map .page) = l := by
  induction l with
  | nil => rfl
  | cons m l ih => rw [List.map_cons, linkPages_page, ih]

theorem erase_map_page (l : List Nat) (m : Nat) :
    (l.map Link.page).erase (.page m) = (l.erase m).map .page :=
  (List.map_erase (fun _ _ h => Link.page.inj h) l).symm

/-- A page that the scans take: unwired, managed, unheld, unbusied, valid and clean. -/
structure Page.Idle (p : Page) : Prop where
  wireCount : p.wireCount = 0
  unmanaged : p.unmanaged = false
  holdCount : p.holdCount = 0
  busyLock : p.busyLock = .unbusied
  valid : p.valid ≠ 0
  dirty : p.dirty = 0

instance (p : Page) : Decidable p.Idle :=
  decidable_of_iff (p.wireCount = 0 ∧ p.unmanaged = false ∧ p.holdCount = 0 ∧
      p.busyLock = .unbusied ∧ p.valid ≠ 0 ∧ p.dirty = 0)
    ⟨fun ⟨hw, hu, hh, hb, hv, hd⟩ => ⟨hw, hu, hh, hb, hv, hd⟩, fun hp =>
      ⟨hp.wireCount, hp.unmanaged, hp.holdCount, hp.busyLock, hp.valid, hp.dirty⟩⟩

/-- Both locks are free, no other thread calls anything, and the page has not been written. -/
structure Visit.Free (w : Visit) : Prop where
  pageLock : w.pageLock = none
  objectLock : w.objectLock = none
  meanwhile : w.meanwhile = []
  modified : w.modified = false

instance (w : Visit) : Decidable w.Free :=
  decidable_of_iff (w.pageLock = none ∧ w.objectLock = none ∧ w.meanwhile = [] ∧
      w.modified = false)
    ⟨fun ⟨hp, ho, hm, hd⟩ => ⟨hp, ho, hm, hd⟩, fun hw =>
      ⟨hw.pageLock, hw.objectLock, hw.meanwhile, hw.modified⟩⟩

theorem Visit.free_headD {visits : List Visit} (hw : ∀ w ∈ visits, w.Free) :
    (visits.headD .plain).Free := by
  cases visits with
  | nil => exact ⟨rfl, rfl, rfl, rfl⟩
  | cons w ws => exact hw w List.mem_cons_self

theorem Visit.Free.within {w : Visit} (hw : w.Free) (T : Nanotime → Nanotime → Prop) :
    CallsWithin T w.calls := by
  intro op hop
  rw [calls, hw.pageLock, hw.objectLock, hw.meanwhile] at hop
  exact absurd hop (by simp)

namespace Vm

/-- The queues hold pages alone behind vmd_inacthead. -/
structure Straight (v : Vm) : Prop where
  inactive : ∀ d, ∃ l : List Nat, (v.queue d .inactive).pl = .inacthead d :: l.map .page
  active : ∀ d, ∃ l : List Nat, (v.queue d .active).pl = l.map .page

variable {v v' : Vm} {m : Nat}

theorem Straight.inactive_pl (hv : v.Straight) (d : Nat) :
    (v.queue d .inactive).pl = .inacthead d :: (v.pages d .inactive).map .page := by
  obtain ⟨l, hl⟩ := hv.inactive d
  rw [pages, hl, linkPages_marker rfl, linkPages_map]

theorem Straight.active_pl (hv : v.Straight) (d : Nat) :
    (v.queue d .active).pl = (v.pages d .active).map .page := by
  obtain ⟨l, hl⟩ := hv.active d
  rw [pages, hl, linkPages_map]

/-- A page goes off the queues. -/
structure Drops (v : Vm) (m : Nat) (v' : Vm) : Prop where
  pl : ∀ d k, (v'.queue d k).pl = (v.queue d k).pl.erase (.page m)
  queue : (v'.page m).queue = none
  domain : (v'.page m).domain = (v.page m).domain
  other : ∀ x, x ≠ m → v'.page x = v.page x

theorem Drops.pages (hd : v.Drops m v') (d : Nat) (k : PageQueue) :
    v'.pages d k = (v.pages d k).erase m := by
  rw [Vm.pages, hd.pl, linkPages_erase]
  rfl

theorem Drops.straight (hd : v.Drops m v') (hv : v.Straight) : v'.Straight := by
  refine ⟨fun d => ⟨(v.pages d .inactive).erase m, ?_⟩, fun d => ⟨(v.pages d .active).erase m, ?_⟩⟩
  · rw [hd.pl, hv.inactive_pl, List.erase_cons_tail (by simp), erase_map_page]
  · rw [hd.pl, hv.active_pl, erase_map_page]

theorem Drops.domains (hd : v.Drops m v') (x : Nat) :
    (v'.page x).domain = (v.page x).domain := by
  by_cases hx : x = m
  · rw [hx, hd.domain]
  · rw [hd.other x hx]

/-- A page that is not on a queue is not there to be erased. -/
theorem Represents.erase_pl (h : v.Represents) {d : Nat} {k : PageQueue}
    (hm : ¬((v.page m).queue = some k ∧ v.home m k = d)) :
    (v.queue d k).pl.erase (.page m) = (v.queue d k).pl :=
  List.erase_of_not_mem (fun hin => hm (h.mem_pages.mp (mem_linkPages.mpr hin)))

theorem dequeueLocked_drops (h : v.Represents) (hs : vmPageDequeueLocked v m = some v') :
    v.Drops m v' ∧ v'.page m = { v.page m with queue := none } ∧ v'.log = v.log ∧
      v'.clock = v.clock := by
  obtain ⟨k, hu⟩ := dequeueLocked_unlinks hs
  have hm : v'.page m = { v.page m with queue := none } := by rw [hu.page, Function.update_self]
  refine ⟨⟨fun d j => ?_, hu.self, by rw [hm], fun x hx => hu.of_ne hx⟩, hm, hu.log, hu.clock⟩
  by_cases hd : d = v.home m k ∧ j = k
  · obtain ⟨rfl, rfl⟩ := hd
    rw [hu.here]
  · rw [hu.there d j hd, h.erase_pl]
    rw [hu.queued]
    rintro ⟨hj, rfl⟩
    cases hj
    exact hd ⟨rfl, rfl⟩

theorem remque_drops (h : v.Represents) (hs : vmPageRemque v m = some v') :
    v.Drops m v' ∧ v'.page m = { v.page m with queue := none } ∧ v'.log = v.log ∧
      v'.clock = v.clock := by
  unfold vmPageRemque at hs
  split at hs
  next => exact dequeueLocked_drops h hs
  next hn =>
    cases hs
    have hq : (v.page m).queue = none := not_not.mp hn
    refine ⟨⟨fun d k => ?_, hq, rfl, fun _ _ => rfl⟩, ?_, rfl, rfl⟩
    · rw [h.erase_pl]
      simp [hq]
    · rw [← hq]

theorem initAct_idle {p : Page} (hp : p.Idle) : p.initAct.Idle ∧ p.initAct.domain = p.domain := by
  unfold Page.initAct
  split
  next => exact ⟨⟨hp.wireCount, hp.unmanaged, hp.holdCount, hp.busyLock, hp.valid, hp.dirty⟩, rfl⟩
  next => exact ⟨hp, rfl⟩

/-- A page goes to the tail of a queue, from wherever it was. -/
structure Moved (v : Vm) (m : Nat) (k : PageQueue) (v' : Vm) : Prop where
  pl : ∀ d j, (v'.queue d j).pl = if d = v.home m k ∧ j = k then
    (v.queue d j).pl.erase (.page m) ++ [.page m] else (v.queue d j).pl.erase (.page m)
  idle : (v'.page m).Idle
  domain : (v'.page m).domain = (v.page m).domain
  other : ∀ x, x ≠ m → v'.page x = v.page x
  log : ∃ now, v'.log = .tail m k now :: v.log

/-- A page off the queues, perhaps changed meanwhile, is enqueued. -/
theorem Drops.moved {v₁ : Vm} (hd : v.Drops m v₁) (hl : v₁.log = v.log) {p : Page} (hp : p.Idle)
    (hpd : p.domain = (v.page m).domain) (k : PageQueue) :
    v.Moved m k (vmPageEnqueue (v₁.setPage m p) k m) := by
  have hhome : (v₁.setPage m p).home m k = v.home m k := by
    rw [home, home, setPage_page_self, hpd]
  refine ⟨fun d j => ?_, ?_, ?_, fun x hx => ?_, v₁.clock, by rw [← hl]; rfl⟩
  · rw [enqueue_pl, hhome, setPage_queue, hd.pl]
  · simp only [vmPageEnqueue, note_page, setQueue_page, setPage_page_self]
    exact ⟨hp.wireCount, hp.unmanaged, hp.holdCount, hp.busyLock, hp.valid, hp.dirty⟩
  · simp only [vmPageEnqueue, note_page, setQueue_page, setPage_page_self]
    exact hpd
  · simp only [vmPageEnqueue, note_page, setQueue_page]
    rw [setPage_page_of_ne _ hx, setPage_page_of_ne _ hx, hd.other x hx]

/-- vm_page_activate leaves an active page where it is and puts another at the tail. -/
theorem activate_idle (h : v.Represents) (hp : (v.page m).Idle) (hs : vmPageActivate v m = some v') :
    (v.page m).queue = some .active ∧ v' = v.setPage m (v.page m).initAct ∨
      (v.page m).queue ≠ some .active ∧ v.Moved m .active v' := by
  obtain ⟨hidle, hdom⟩ := initAct_idle hp
  unfold vmPageActivate at hs
  split at hs
  next hn =>
    rw [if_pos ⟨hp.wireCount, hp.unmanaged⟩] at hs
    obtain ⟨v₁, hv₁, he⟩ := Option.bind_eq_some_iff.mp hs
    cases he
    have hact : (v.setPage m (v.page m).initAct).Represents :=
      Move.represents (T := fun _ _ => True) (.page (samePlace_initAct _)) h
    obtain ⟨hd, hm, hl, _⟩ := remque_drops hact hv₁
    rw [setPage_page_self] at hm
    have hd' : v.Drops m v₁ := by
      refine ⟨hd.pl, hd.queue, ?_, fun x hx => ?_⟩
      · rw [hm, ← hdom]
      · rw [hd.other x hx, setPage_page_of_ne v hx]
    refine Or.inr ⟨hn, hd'.moved hl ?_ ?_ .active⟩
    · rw [hm]
      exact ⟨hidle.wireCount, hidle.unmanaged, hidle.holdCount, hidle.busyLock, hidle.valid,
        hidle.dirty⟩
    · rw [hm]
      exact hdom
  next hn =>
    cases hs
    exact Or.inl ⟨not_not.mp hn, rfl⟩

theorem Moved.pages {k : PageQueue} (hm : v.Moved m k v') (d : Nat) (j : PageQueue) :
    v'.pages d j = if d = v.home m k ∧ j = k then (v.pages d j).erase m ++ [m]
      else (v.pages d j).erase m := by
  rw [Vm.pages, hm.pl]
  split
  next => rw [linkPages_append, linkPages_erase]; rfl
  next => rw [linkPages_erase]; rfl

theorem Moved.straight {k : PageQueue} (hm : v.Moved m k v') (hv : v.Straight) : v'.Straight := by
  have hin : ∀ d, (v.queue d .inactive).pl.erase (.page m) =
      .inacthead d :: ((v.pages d .inactive).erase m).map .page := by
    intro d
    rw [hv.inactive_pl, List.erase_cons_tail (by simp), erase_map_page]
  have hact : ∀ d, (v.queue d .active).pl.erase (.page m) =
      ((v.pages d .active).erase m).map .page := by
    intro d
    rw [hv.active_pl, erase_map_page]
  refine ⟨fun d => ?_, fun d => ?_⟩
  · rw [hm.pl, hin]
    split
    next => exact ⟨(v.pages d .inactive).erase m ++ [m], by rw [List.map_append]; rfl⟩
    next => exact ⟨_, rfl⟩
  · rw [hm.pl, hact]
    split
    next => exact ⟨(v.pages d .active).erase m ++ [m], by rw [List.map_append]; rfl⟩
    next => exact ⟨_, rfl⟩

theorem Moved.domains {k : PageQueue} (hm : v.Moved m k v') (x : Nat) :
    (v'.page x).domain = (v.page x).domain := by
  by_cases hx : x = m
  · rw [hx, hm.domain]
  · rw [hm.other x hx]

end Vm

/-- What an event means for the pages of a domain. -/
def PageEvent.toFifo (domain : Nat → Nat) (d : Nat) : PageEvent → Option (EntryFifo.Event Nat)
  | .tail m .active _ => if domain m = d then some (.enter m) else none
  | .freed m => if domain m = d then some (.leave m) else none
  | _ => none

namespace Vm

/-- The inactive and the active queue of a domain, head to tail. -/
def fifo (v : Vm) (d : Nat) : List Nat := v.pages d .inactive ++ v.pages d .active

/-- The transitions into the active queue and the frees of a domain. -/
def fifoLog (v : Vm) (d : Nat) : List (EntryFifo.Event Nat) :=
  v.log.filterMap (PageEvent.toFifo (fun m => (v.page m).domain) d)

/-- Both queues of each domain are what one queue would be after the same history. -/
structure OneFifo (v : Vm) : Prop where
  represents : v.Represents
  straight : v.Straight
  idle : ∀ m, (v.page m).queue ≠ none → (v.page m).Idle
  runs : ∀ d, EntryFifo.Runs (v.fifoLog d) (v.fifo d)

/-- Pages of domain `d` are freed from the front of its queue. -/
structure Frees (v : Vm) (d : Nat) (v' : Vm) : Prop where
  oneFifo : v'.OneFifo
  front : ∃ l, v.fifo d = l ++ v'.fifo d ∧ v'.fifoLog d = (l.map .leave).reverse ++ v.fifoLog d

variable {v v' : Vm} {m d : Nat}

theorem OneFifo.refl (hv : v.OneFifo) (d : Nat) : v.Frees d v := ⟨hv, [], rfl, rfl⟩

theorem Frees.trans {v'' : Vm} (h₁ : v.Frees d v') (h₂ : v'.Frees d v'') : v.Frees d v'' := by
  obtain ⟨l₁, hf₁, hl₁⟩ := h₁.front
  obtain ⟨l₂, hf₂, hl₂⟩ := h₂.front
  refine ⟨h₂.oneFifo, l₁ ++ l₂, ?_, ?_⟩
  · rw [hf₁, hf₂, List.append_assoc]
  · rw [hl₂, hl₁, List.map_append, List.reverse_append, List.append_assoc]

theorem fifoLog_cons (hd : ∀ x, (v'.page x).domain = (v.page x).domain) {e : PageEvent}
    (hl : v'.log = e :: v.log) (d : Nat) : v'.fifoLog d =
      (e.toFifo (fun x => (v.page x).domain) d).toList ++ v.fifoLog d := by
  rw [fifoLog, hl, funext hd, List.filterMap_cons]
  split
  next he => rw [he]; rfl
  next he => rw [he]; rfl

theorem fifoLog_congr (hd : ∀ x, (v'.page x).domain = (v.page x).domain) (hl : v'.log = v.log)
    (d : Nat) : v'.fifoLog d = v.fifoLog d := by
  rw [fifoLog, hl, funext hd]
  rfl

theorem Represents.not_mem (h : v.Represents) {k : PageQueue}
    (hm : ¬((v.page m).queue = some k ∧ v.home m k = d)) : m ∉ v.pages d k :=
  fun hin => hm (h.mem_pages.mp hin)

/-- A page that becomes active goes to the back of the one queue. -/
theorem OneFifo.enter (hv : v.OneFifo) (hr : v'.Represents) (hn : (v.page m).queue ≠ some .active)
    (hm : v.Moved m .active v') : v'.OneFifo := by
  obtain ⟨now, hlog⟩ := hm.log
  refine ⟨hr, hm.straight hv.straight, fun x hx => ?_, fun d => ?_⟩
  · by_cases hxm : x = m
    · exact hxm ▸ hm.idle
    · rw [hm.other x hxm] at hx ⊢
      exact hv.idle x hx
  · have hact : m ∉ v.pages d .active := hv.represents.not_mem (fun hc => hn hc.1)
    have hfifo : (v.fifo d).erase m = (v.pages d .inactive).erase m ++ v.pages d .active := by
      rw [fifo, List.erase_append]
      split
      next => rfl
      next hin => rw [List.erase_of_not_mem hact, List.erase_of_not_mem hin]
    rw [fifoLog_cons hm.domains hlog, fifo, hm.pages, hm.pages, if_neg (by simp),
      List.erase_of_not_mem hact]
    by_cases hd : (v.page m).domain = d
    · have hto : (PageEvent.tail m .active now).toFifo (fun x => (v.page x).domain) d =
          some (.enter m) := if_pos hd
      rw [hto, if_pos ⟨hd.symm, rfl⟩, ← List.append_assoc, ← hfifo]
      exact .enter m (hv.runs d)
    · have hto : (PageEvent.tail m .active now).toFifo (fun x => (v.page x).domain) d = none :=
        if_neg hd
      have hin : m ∉ v.pages d .inactive := hv.represents.not_mem (fun hc => hd hc.2)
      rw [hto, if_neg (fun hc => hd hc.1.symm), List.erase_of_not_mem hin]
      exact hv.runs d

/-- The first active page becomes the last inactive one: the one queue stays as it is. -/
theorem OneFifo.turn (hv : v.OneFifo) (hr : v'.Represents) {l : List Nat}
    (hhead : v.pages (v.page m).domain .active = m :: l) (hm : v.Moved m .inactive v') :
    v'.OneFifo ∧ ∀ d, v'.fifo d = v.fifo d ∧ v'.fifoLog d = v.fifoLog d := by
  obtain ⟨now, hlog⟩ := hm.log
  have hmem : m ∈ v.pages (v.page m).domain .active := hhead ▸ List.mem_cons_self
  obtain ⟨hq, _⟩ := hv.represents.mem_pages.mp hmem
  have hin : ∀ d, m ∉ v.pages d .inactive := fun d =>
    hv.represents.not_mem (fun hc => by rw [hq] at hc; exact absurd hc.1 (by simp))
  have hsame : ∀ d, v'.fifo d = v.fifo d ∧ v'.fifoLog d = v.fifoLog d := by
    intro d
    refine ⟨?_, by rw [fifoLog_cons hm.domains hlog]; rfl⟩
    have hact : v'.pages d .active = (v.pages d .active).erase m := by
      rw [hm.pages, if_neg (by simp)]
    rw [fifo, fifo, hact, hm.pages, List.erase_of_not_mem (hin d)]
    by_cases hd : (v.page m).domain = d
    · subst d
      rw [if_pos ⟨rfl, rfl⟩, hhead, List.erase_cons_head, List.append_assoc]
      rfl
    · have hout : m ∉ v.pages d .active := hv.represents.not_mem (fun hc => hd hc.2)
      rw [if_neg (fun hc => hd hc.1.symm), List.erase_of_not_mem hout]
  refine ⟨⟨hr, hm.straight hv.straight, fun x hx => ?_, fun d => ?_⟩, hsame⟩
  · by_cases hxm : x = m
    · exact hxm ▸ hm.idle
    · rw [hm.other x hxm] at hx ⊢
      exact hv.idle x hx
  · rw [(hsame d).1, (hsame d).2]
    exact hv.runs d

/-- The first inactive page is freed. -/
theorem OneFifo.free (hv : v.OneFifo) (hr : v'.Represents) {l : List Nat}
    (hhead : v.pages d .inactive = m :: l) (hm : v.Drops m v') (hlog : v'.log = .freed m :: v.log) :
    v.Frees d v' := by
  have hmem : m ∈ v.pages d .inactive := hhead ▸ List.mem_cons_self
  obtain ⟨hq, hd⟩ := hv.represents.mem_pages.mp hmem
  have hdom : (v.page m).domain = d := hd
  have hfifo : v.fifo d = m :: v'.fifo d := by
    have hact : m ∉ v.pages d .active :=
      hv.represents.not_mem (fun hc => by rw [hq] at hc; exact absurd hc.1 (by simp))
    rw [fifo, fifo, hm.pages, hm.pages, List.erase_of_not_mem hact, hhead, List.erase_cons_head]
    rfl
  have hhere : v'.fifoLog d = .leave m :: v.fifoLog d := by
    have hto : (PageEvent.freed m).toFifo (fun x => (v.page x).domain) d = some (.leave m) :=
      if_pos hdom
    rw [fifoLog_cons hm.domains hlog, hto]
    rfl
  refine ⟨⟨hr, hm.straight hv.straight, fun x hx => ?_, fun e => ?_⟩, [m], hfifo, hhere⟩
  · have hxm : x ≠ m := by
      rintro rfl
      exact hx hm.queue
    rw [hm.other x hxm] at hx ⊢
    exact hv.idle x hx
  · by_cases he : e = d
    · subst e
      rw [hhere]
      exact .leave (hfifo ▸ hv.runs d)
    · have hto : (PageEvent.freed m).toFifo (fun x => (v.page x).domain) e = none :=
        if_neg (fun hc => he (hc.symm.trans hdom))
      have hout : ∀ k, m ∉ v.pages e k := by
        intro k hin
        obtain ⟨hk, hh⟩ := hv.represents.mem_pages.mp hin
        rw [hq] at hk
        cases hk
        exact he (hh.symm.trans hd)
      rw [fifoLog_cons hm.domains hlog, hto, fifo, hm.pages, hm.pages,
        List.erase_of_not_mem (hout _), List.erase_of_not_mem (hout _)]
      exact hv.runs e

/-- Changes of pages that stay where they are. -/
theorem OneFifo.setPage (hv : v.OneFifo) {p : Page} (hr : (v.setPage m p).Represents)
    (hd : p.domain = (v.page m).domain) (hi : p.queue ≠ none → p.Idle) :
    (v.setPage m p).OneFifo := by
  have hdom : ∀ x, ((v.setPage m p).page x).domain = (v.page x).domain := by
    intro x
    by_cases hx : x = m
    · rw [hx, setPage_page_self, hd]
    · rw [setPage_page_of_ne v hx]
  refine ⟨hr, ⟨hv.straight.inactive, hv.straight.active⟩, fun x hx => ?_, fun d => ?_⟩
  · by_cases hxm : x = m
    · subst x
      rw [setPage_page_self] at hx ⊢
      exact hi hx
    · rw [setPage_page_of_ne v hxm] at hx ⊢
      exact hv.idle x hx
  · rw [fifoLog_congr hdom rfl]
    exact hv.runs d

end Vm

end FreeBSDEdits
