import FreeBSDEdits.VmPageout
import Mathlib.Data.List.Nodup
import Mathlib.Logic.Relation

namespace FreeBSDEdits

namespace Vm

variable (v : Vm)

@[simp] theorem setPage_queue (m : Nat) (p : Page) : (v.setPage m p).queue = v.queue := rfl

@[simp] theorem setPage_page_self (m : Nat) (p : Page) : (v.setPage m p).page m = p :=
  Function.update_self _ _ _

theorem setPage_page_of_ne {m x : Nat} (h : x ≠ m) (p : Page) :
    (v.setPage m p).page x = v.page x := Function.update_of_ne h _ _

@[simp] theorem setPage_clock (m : Nat) (p : Page) : (v.setPage m p).clock = v.clock := rfl

@[simp] theorem setPage_log (m : Nat) (p : Page) : (v.setPage m p).log = v.log := rfl

@[simp] theorem setPage_object (m : Nat) (p : Page) : (v.setPage m p).object = v.object := rfl

@[simp] theorem setPage_setPage (m : Nat) (p p' : Page) :
    (v.setPage m p).setPage m p' = v.setPage m p' := by
  simp [setPage]

@[simp] theorem setQueue_page (d : Nat) (k : PageQueue) (q : Pagequeue) :
    (v.setQueue d k q).page = v.page := rfl

@[simp] theorem setQueue_queue_self (d : Nat) (k : PageQueue) (q : Pagequeue) :
    (v.setQueue d k q).queue d k = q := by
  simp [setQueue]

theorem setQueue_queue_of_ne {d d' : Nat} {k k' : PageQueue} (h : ¬(d' = d ∧ k' = k))
    (q : Pagequeue) : (v.setQueue d k q).queue d' k' = v.queue d' k' := by
  by_cases hd : d' = d
  · subst d'
    have hk : k' ≠ k := fun hk => h ⟨rfl, hk⟩
    simp [setQueue, Function.update_of_ne hk]
  · simp [setQueue, Function.update_of_ne hd]

@[simp] theorem setQueue_clock (d : Nat) (k : PageQueue) (q : Pagequeue) :
    (v.setQueue d k q).clock = v.clock := rfl

@[simp] theorem setQueue_log (d : Nat) (k : PageQueue) (q : Pagequeue) :
    (v.setQueue d k q).log = v.log := rfl

@[simp] theorem setPl_page (d : Nat) (k : PageQueue) (pl : List Link) :
    (v.setPl d k pl).page = v.page := rfl

@[simp] theorem setPl_log (d : Nat) (k : PageQueue) (pl : List Link) :
    (v.setPl d k pl).log = v.log := rfl

@[simp] theorem note_page (e : PageEvent) : (v.note e).page = v.page := rfl

@[simp] theorem note_queue (e : PageEvent) : (v.note e).queue = v.queue := rfl

@[simp] theorem note_clock (e : PageEvent) : (v.note e).clock = v.clock := rfl

end Vm

theorem linkPages_append (l l' : List Link) : linkPages (l ++ l') = linkPages l ++ linkPages l' :=
  List.filterMap_append

theorem linkPages_perm {l l' : List Link} (h : l.Perm l') : (linkPages l).Perm (linkPages l') :=
  h.filterMap _

theorem linkPages_page (m : Nat) (l : List Link) : linkPages (.page m :: l) = m :: linkPages l := rfl

theorem linkPages_marker {x : Link} (hx : x.toPage = none) (l : List Link) :
    linkPages (x :: l) = linkPages l := List.filterMap_cons_none hx

theorem linkPages_erase (l : List Link) (m : Nat) :
    linkPages (l.erase (.page m)) = (linkPages l).erase m := by
  induction l with
  | nil => rfl
  | cons x l ih =>
    by_cases hx : x = .page m
    · subst x
      rw [List.erase_cons_head, linkPages_page, List.erase_cons_head]
    · rw [List.erase_cons_tail (by simpa using hx)]
      cases x with
      | page n =>
        have hn : n ≠ m := fun he => hx (he ▸ rfl)
        rw [linkPages_page, linkPages_page, ih, List.erase_cons_tail (by simpa using hn)]
      | marker | inacthead | lockMarker => exact ih

/-- A marker makes no difference to the pages. -/
theorem linkPages_erase_marker {x : Link} (hx : x.toPage = none) (l : List Link) :
    linkPages (l.erase x) = linkPages l := by
  induction l with
  | nil => rfl
  | cons y l ih =>
    by_cases hy : y = x
    · subst y
      rw [List.erase_cons_head, linkPages_marker hx]
    · rw [List.erase_cons_tail (by simpa using hy)]
      cases y with
      | page n => rw [linkPages_page, linkPages_page, ih]
      | marker | inacthead | lockMarker => exact ih

theorem linkPages_insertAfter_marker {x y : Link} (hx : x.toPage = none) (l : List Link) :
    linkPages (TailQueue.insertAfter l y x) = linkPages l := by
  induction l with
  | nil => rfl
  | cons z l ih =>
    rw [TailQueue.insertAfter]
    split
    next =>
      cases z with
      | page n => rw [linkPages_page, linkPages_page, linkPages_marker hx]
      | marker | inacthead | lockMarker => exact linkPages_marker hx l
    next =>
      cases z with
      | page n => rw [linkPages_page, linkPages_page, ih]
      | marker | inacthead | lockMarker => exact ih

/-- The page queues as data structures, with the pages they hold. -/
structure Vm.Represents (v : Vm) : Prop where
  place : ∀ d k m, (v.pages d k).count m =
    if (v.page m).queue = some k ∧ v.home m k = d then 1 else 0
  off : ∀ m, (v.page m).wireCount ≠ 0 ∨ (v.page m).unmanaged → (v.page m).queue = none
  cnt : ∀ d k, (v.queue d k).cnt = (v.pages d k).length
  inacthead : ∀ d, .inacthead d ∈ (v.queue d .inactive).pl

namespace Vm

/-- The fields that decide where a page is queued, and its stamps. -/
structure SamePlace (p p' : Page) : Prop where
  wireCount : p'.wireCount = p.wireCount
  unmanaged : p'.unmanaged = p.unmanaged
  queue : p'.queue = p.queue
  domain : p'.domain = p.domain
  timestampSec : p'.timestampSec = p.timestampSec
  timestampNsec : p'.timestampNsec = p.timestampNsec

/-- The pieces every call is made of. `T` limits the stamp that a page may have and the time at
which it is put at the tail of an active queue. -/
inductive Move (T : Nanotime → Nanotime → Prop) : Vm → Vm → Prop
  | page {v m p} : SamePlace (v.page m) p → Move T v (v.setPage m p)
  | offQueue {v m p} : (v.page m).queue = none → p.queue = none → p.domain = (v.page m).domain →
      Move T v (v.setPage m p)
  | dequeue {v v' m} : vmPageDequeueLocked v m = some v' → Move T v v'
  | enqueue {v m k} : (v.page m).queue = none → (v.page m).wireCount = 0 →
      (v.page m).unmanaged = false → (k = .active → T (v.page m).stamp v.clock) →
      Move T v (vmPageEnqueue v k m)
  | noreuse {v m} : (v.page m).queue = none → (v.page m).wireCount = 0 →
      (v.page m).unmanaged = false → Move T v
        ((v.setPage m { v.page m with queue := some .inactive }).setQueue (v.page m).domain .inactive
          (.cntAdd { v.queue (v.page m).domain .inactive with
            pl := TailQueue.insertBefore (v.queue (v.page m).domain .inactive).pl
              (.inacthead (v.page m).domain) (.page m) } 1))
  | requeue {v v' m} : ((v.page m).queue = some .active → T (v.page m).stamp v.clock) →
      vmPageRequeue v m = some v' → Move T v v'
  | mark {v d k pl} : linkPages pl = v.pages d k →
      (∀ c, .inacthead c ∈ (v.queue d k).pl → .inacthead c ∈ pl) → Move T v (v.setPl d k pl)
  | freed {v m} : Move T v (v.note (.freed m))
  | tick {v now} : v.clock.nanos ≤ now.nanos → Move T v { v with clock := now }
  | object {v f} : Move T v { v with object := f }

abbrev Moves (T : Nanotime → Nanotime → Prop) : Vm → Vm → Prop := Relation.ReflTransGen (Move T)

variable {T : Nanotime → Nanotime → Prop} {v v' : Vm} {m : Nat}

theorem Represents.mem_pages (h : v.Represents) {d : Nat} {k : PageQueue} :
    m ∈ v.pages d k ↔ (v.page m).queue = some k ∧ v.home m k = d := by
  rw [← List.count_pos_iff, h.place]
  split <;> simp [*]

theorem Represents.nodup (h : v.Represents) (d : Nat) (k : PageQueue) : (v.pages d k).Nodup := by
  rw [List.nodup_iff_count_le_one]
  intro m
  rw [h.place]
  split <;> omega

/-- Changes of a page that concern no queue. -/
theorem Represents.setPage (h : v.Represents) {p : Page} (hd : p.domain = (v.page m).domain)
    (hq : p.queue = (v.page m).queue)
    (ho : p.wireCount ≠ 0 ∨ p.unmanaged = true → p.queue = none) : (v.setPage m p).Represents := by
  have hpage : ∀ x, ((v.setPage m p).page x).queue = (v.page x).queue ∧
      ((v.setPage m p).page x).domain = (v.page x).domain := by
    intro x
    by_cases hx : x = m
    · subst x
      rw [setPage_page_self]
      exact ⟨hq, hd⟩
    · rw [setPage_page_of_ne v hx]
      exact ⟨rfl, rfl⟩
  refine ⟨fun d k x => ?_, fun x hx => ?_, h.cnt, h.inacthead⟩
  · rw [home, (hpage x).1, (hpage x).2]
    exact h.place d k x
  · by_cases hxm : x = m
    · subst x
      rw [setPage_page_self] at hx ⊢
      exact ho hx
    · rw [setPage_page_of_ne v hxm] at hx ⊢
      exact h.off x hx

/-- A page is linked where it is not yet. -/
theorem Represents.link (h : v.Represents) {k : PageQueue} (hn : (v.page m).queue = none)
    (hw : (v.page m).wireCount = 0) (hu : (v.page m).unmanaged = false) {pl : List Link}
    (hpl : (linkPages pl).Perm (m :: v.pages (v.home m k) k))
    (hi : ∀ c, .inacthead c ∈ (v.queue (v.home m k) k).pl → .inacthead c ∈ pl) :
    ((v.setPage m { v.page m with queue := some k }).setQueue (v.home m k) k
      (.cntAdd { v.queue (v.home m k) k with pl := pl } 1)).Represents := by
  generalize hv' : (v.setPage m { v.page m with queue := some k }).setQueue (v.home m k) k
      (.cntAdd { v.queue (v.home m k) k with pl := pl } 1) = v'
  have hself : (v'.page m).queue = some k := by simp [← hv']
  have hpage : ∀ x, x ≠ m → v'.page x = v.page x := by
    intro x hx
    rw [← hv', setQueue_page, setPage_page_of_ne v hx]
  have hhome : ∀ x j, v'.home x j = v.home x j := by
    intro x j
    by_cases hx : x = m
    · subst x
      rw [← hv', home, setQueue_page, setPage_page_self]
      rfl
    · rw [home, home, hpage x hx]
  have hhere : v'.pages (v.home m k) k = linkPages pl := by
    rw [← hv', pages, setQueue_queue_self]
    rfl
  have hthere : ∀ d j, ¬(d = v.home m k ∧ j = k) → v'.queue d j = v.queue d j := by
    intro d j hd
    rw [← hv', setQueue_queue_of_ne _ hd, setPage_queue]
  have hzero : ∀ d j, (v.pages d j).count m = 0 := by
    intro d j
    rw [h.place, hn]
    exact if_neg (by simp)
  refine ⟨fun d j x => ?_, fun x hx => ?_, fun d j => ?_, fun d => ?_⟩
  · have hcount : (v'.pages d j).count x =
        (v.pages d j).count x + if x = m ∧ d = v.home m k ∧ j = k then 1 else 0 := by
      by_cases hd : d = v.home m k ∧ j = k
      · obtain ⟨rfl, rfl⟩ := hd
        rw [hhere, hpl.count_eq, List.count_cons]
        by_cases hx : x = m
        · subst x
          simp
        · simp [hx, Ne.symm hx]
      · rw [pages, hthere d j hd, if_neg (fun hc => hd hc.2)]
        rfl
    by_cases hx : x = m
    · subst x
      rw [hcount, hzero, hself, hhome]
      by_cases hd : d = v.home m k ∧ j = k
      · obtain ⟨rfl, rfl⟩ := hd
        simp
      · rw [if_neg (fun hc => hd hc.2), if_neg]
        rintro ⟨hj, rfl⟩
        cases hj
        exact hd ⟨rfl, rfl⟩
    · have h0 : (if x = m ∧ d = v.home m k ∧ j = k then 1 else 0) = 0 := if_neg (fun hc => hx hc.1)
      rw [hcount, h0, Nat.add_zero, h.place, hpage x hx, hhome]
  · by_cases hxm : x = m
    · subst x
      rw [← hv', setQueue_page, setPage_page_self] at hx
      simp [hw, hu] at hx
    · rw [hpage x hxm] at hx ⊢
      exact h.off x hx
  · by_cases hd : d = v.home m k ∧ j = k
    · obtain ⟨rfl, rfl⟩ := hd
      rw [hhere, hpl.length_eq, List.length_cons, ← hv', setQueue_queue_self]
      change (v.queue (v.home m j) j).cnt + 1 = _
      rw [h.cnt]
      rfl
    · rw [pages, hthere d j hd]
      exact h.cnt d j
  · by_cases hd : d = v.home m k ∧ PageQueue.inactive = k
    · obtain ⟨rfl, rfl⟩ := hd
      rw [← hv', setQueue_queue_self]
      exact hi _ (h.inacthead _)
    · rw [hthere d .inactive hd]
      exact h.inacthead d

/-- What vm_page_dequeue does. -/
structure Unlinks (v : Vm) (m : Nat) (k : PageQueue) (v' : Vm) : Prop where
  queued : (v.page m).queue = some k
  page : v'.page = Function.update v.page m { v.page m with queue := none }
  here : v'.queue (v.home m k) k =
    ⟨(v.queue (v.home m k) k).pl.erase (.page m), (v.queue (v.home m k) k).cnt - 1⟩
  there : ∀ d j, ¬(d = v.home m k ∧ j = k) → v'.queue d j = v.queue d j
  clock : v'.clock = v.clock
  log : v'.log = v.log
  object : v'.object = v.object

theorem dequeueLocked_unlinks (hs : vmPageDequeueLocked v m = some v') : ∃ k, v.Unlinks m k v' := by
  unfold vmPageDequeueLocked at hs
  split at hs
  next => cases hs
  next k hk =>
    cases hs
    refine ⟨k, hk, rfl, ?_, fun d j hd => ?_, rfl, rfl, rfl⟩
    · rw [setQueue_queue_self]
      rfl
    · rw [setQueue_queue_of_ne _ hd, setPage_queue]

theorem dequeueLocked_some {k : PageQueue} (hq : (v.page m).queue = some k) :
    ∃ v', vmPageDequeueLocked v m = some v' ∧ v.Unlinks m k v' := by
  have hs : ∃ v', vmPageDequeueLocked v m = some v' := by
    unfold vmPageDequeueLocked
    rw [hq]
    exact ⟨_, rfl⟩
  obtain ⟨v', hs⟩ := hs
  obtain ⟨k', hu⟩ := dequeueLocked_unlinks hs
  obtain rfl : k' = k := Option.some.inj (hu.queued.symm.trans hq)
  exact ⟨v', hs, hu⟩

theorem deactivate_off (hq : (v.page m).queue = none) (hw : (v.page m).wireCount = 0)
    (hu : (v.page m).unmanaged = false) :
    vmPageDeactivate v m = some (vmPageEnqueue v .inactive m) := by
  unfold vmPageDeactivate vmPageDeactivateTo vmPageRemque
  rw [if_neg (by simp [hq]), if_pos ⟨hw, hu⟩, if_neg (not_not.mpr hq)]
  rfl

theorem launder_off (hq : (v.page m).queue = none) (hw : (v.page m).wireCount = 0)
    (hu : (v.page m).unmanaged = false) :
    vmPageLaunder v m = some (vmPageEnqueue v .laundry m) := by
  unfold vmPageLaunder vmPageRemque
  rw [if_pos (by simp [hq]), if_pos ⟨hw, hu⟩, if_neg (not_not.mpr hq)]
  rfl

/-- A page as vm_page_free_prep leaves it. -/
def freedState (p : Page) : Page :=
  { p.remove with valid := 0, dirty := 0, memattr := vmMemattrDefault }

/-- A page on no queue that is not wired, held or busied is freed. -/
theorem free_off (hq : (v.page m).queue = none) (hw : (v.page m).wireCount = 0)
    (hf : (v.page m).fictitious = false) (hb : (v.page m).busyLock = .unbusied)
    (hh : (v.page m).holdCount = 0) :
    vmPageFree v m = some ((v.setPage m (freedState (v.page m))).note (.freed m)) := by
  have hrem : (v.page m).remove.wireCount = 0 ∧ (v.page m).remove.fictitious = false ∧
      (v.page m).remove.holdCount = 0 := by
    unfold Page.remove
    split
    next => exact ⟨hw, hf, hh⟩
    next => exact ⟨hw, hf, hh⟩
  unfold vmPageFree vmPageFreePrep vmPageRemque
  rw [if_neg (by simp [hq]), if_neg (by simp [hb]), if_neg (not_not.mpr hq)]
  simp [hrem, freedState, Page.restoreMemattr_eq]

theorem Unlinks.self {k : PageQueue} (hu : v.Unlinks m k v') : (v'.page m).queue = none := by
  rw [hu.page, Function.update_self]

theorem Unlinks.of_ne {k : PageQueue} (hu : v.Unlinks m k v') {x : Nat} (hx : x ≠ m) :
    v'.page x = v.page x := by
  rw [hu.page, Function.update_of_ne hx]

theorem Represents.unlink (h : v.Represents) {k : PageQueue} (hu : v.Unlinks m k v') :
    v'.Represents := by
  refine ⟨fun d j x => ?_, fun x hx => ?_, fun d j => ?_, fun d => ?_⟩
  · have hcount : (v'.pages d j).count x =
        (v.pages d j).count x - if x = m ∧ d = v.home m k ∧ j = k then 1 else 0 := by
      by_cases hd : d = v.home m k ∧ j = k
      · obtain ⟨rfl, rfl⟩ := hd
        rw [pages, hu.here, linkPages_erase]
        by_cases hx : x = m
        · subst x
          rw [List.count_erase_self]
          simp [pages]
        · rw [List.count_erase_of_ne hx]
          simp [pages, hx]
      · rw [pages, hu.there d j hd, if_neg (fun hc => hd hc.2)]
        rfl
    by_cases hx : x = m
    · subst x
      rw [hcount, h.place, hu.self, hu.queued]
      by_cases hd : d = v.home m k ∧ j = k
      · obtain ⟨rfl, rfl⟩ := hd
        simp
      · have h1 : ¬(some k = some j ∧ v.home m j = d) := by
          rintro ⟨hj, rfl⟩
          cases hj
          exact hd ⟨rfl, rfl⟩
        rw [if_neg h1, Nat.zero_sub, if_neg (by simp)]
    · have h0 : (if x = m ∧ d = v.home m k ∧ j = k then 1 else 0) = 0 :=
        if_neg (fun hc => hx hc.1)
      rw [hcount, h0, Nat.sub_zero, h.place, home, home, hu.of_ne hx]
  · by_cases hxm : x = m
    · exact hxm ▸ hu.self
    · rw [hu.of_ne hxm] at hx ⊢
      exact h.off x hx
  · by_cases hd : d = v.home m k ∧ j = k
    · obtain ⟨rfl, rfl⟩ := hd
      have hm : m ∈ v.pages (v.home m j) j := h.mem_pages.mpr ⟨hu.queued, rfl⟩
      have hpos := List.length_pos_of_mem hm
      have hlen : (v'.pages (v.home m j) j).length = (v.pages (v.home m j) j).length - 1 := by
        rw [pages, hu.here, linkPages_erase]
        exact List.length_erase_of_mem hm
      rw [hlen, hu.here]
      change (v.queue (v.home m j) j).cnt - 1 = _
      rw [h.cnt]
      omega
    · rw [pages, hu.there d j hd]
      exact h.cnt d j
  · by_cases hd : d = v.home m k ∧ PageQueue.inactive = k
    · obtain ⟨rfl, rfl⟩ := hd
      rw [hu.here]
      exact (List.mem_erase_of_ne (by simp)).mpr (h.inacthead _)
    · rw [hu.there d .inactive hd]
      exact h.inacthead d

/-- A page keeps its queue and goes to the tail of it. -/
theorem Represents.permute (h : v.Represents) {d : Nat} {k : PageQueue} {pl : List Link}
    (hpl : (linkPages pl).Perm (v.pages d k))
    (hi : ∀ c, .inacthead c ∈ (v.queue d k).pl → .inacthead c ∈ pl) : (v.setPl d k pl).Represents := by
  have hperm : ∀ d' j, ((v.setPl d k pl).pages d' j).Perm (v.pages d' j) ∧
      ((v.setPl d k pl).queue d' j).cnt = (v.queue d' j).cnt := by
    intro d' j
    by_cases hd : d' = d ∧ j = k
    · obtain ⟨rfl, rfl⟩ := hd
      simpa [pages, setPl] using hpl
    · rw [pages, setPl, setQueue_queue_of_ne _ hd]
      exact ⟨.refl _, rfl⟩
  refine ⟨fun d' j x => ?_, h.off, fun d' j => ?_, fun d' => ?_⟩
  · rw [(hperm d' j).1.count_eq]
    exact h.place d' j x
  · rw [(hperm d' j).1.length_eq, (hperm d' j).2]
    exact h.cnt d' j
  · by_cases hd : d' = d ∧ PageQueue.inactive = k
    · obtain ⟨rfl, rfl⟩ := hd
      rw [setPl, setQueue_queue_self]
      exact hi _ (h.inacthead d')
    · rw [setPl, setQueue_queue_of_ne _ hd]
      exact h.inacthead d'

theorem requeue_eq (hs : vmPageRequeue v m = some v') : ∃ k, (v.page m).queue = some k ∧
    v' = (v.setPl (v.home m k) k ((v.queue (v.home m k) k).pl.erase (.page m) ++ [.page m])).note
      (.tail m k v.clock) := by
  unfold vmPageRequeue at hs
  split at hs
  next => cases hs
  next k hk =>
    cases hs
    exact ⟨k, hk, rfl⟩

theorem Move.represents (hm : Move T v v') (h : v.Represents) : v'.Represents := by
  cases hm with
  | @page m p hp =>
    refine h.setPage hp.domain hp.queue (fun ho => ?_)
    rw [hp.wireCount, hp.unmanaged] at ho
    exact hp.queue.trans (h.off m ho)
  | offQueue hn hn' hd => exact h.setPage hd (hn'.trans hn.symm) (fun _ => hn')
  | dequeue hs =>
    obtain ⟨k, hu⟩ := dequeueLocked_unlinks hs
    exact h.unlink hu
  | @enqueue m k hn hw hu _ =>
    have hpl : (linkPages ((v.queue (v.home m k) k).pl ++ [.page m])).Perm
        (m :: v.pages (v.home m k) k) := by
      rw [linkPages_append]
      exact List.perm_append_comm
    have hl := h.link hn hw hu hpl (fun c hc => List.mem_append_left _ hc)
    exact ⟨hl.place, hl.off, hl.cnt, hl.inacthead⟩
  | @noreuse m hn hw hu =>
    have hperm : (TailQueue.insertBefore (v.queue (v.home m .inactive) .inactive).pl
        (.inacthead (v.page m).domain) (.page m)).Perm
          (.page m :: (v.queue (v.home m .inactive) .inactive).pl) :=
      TailQueue.insertBefore_perm (h.inacthead (v.page m).domain)
    exact h.link hn hw hu (linkPages_perm hperm)
      (fun c hc => hperm.mem_iff.mpr (List.mem_cons_of_mem _ hc))
  | @requeue _ m _ hs =>
    obtain ⟨k, hk, rfl⟩ := requeue_eq hs
    generalize hd : v.home m k = d at *
    have hm := h.mem_pages.mpr ⟨hk, hd⟩
    have hpl : (linkPages ((v.queue d k).pl.erase (.page m) ++ [.page m])).Perm (v.pages d k) := by
      rw [linkPages_append, linkPages_erase]
      exact List.perm_append_comm.trans (List.perm_cons_erase hm).symm
    have hl := h.permute hpl (fun c hc =>
      List.mem_append_left _ ((List.mem_erase_of_ne (by simp)).mpr hc))
    exact ⟨hl.place, hl.off, hl.cnt, hl.inacthead⟩
  | mark hpl hi => exact h.permute (hpl ▸ .refl _) hi
  | freed => exact ⟨h.place, h.off, h.cnt, h.inacthead⟩
  | tick => exact ⟨h.place, h.off, h.cnt, h.inacthead⟩
  | object => exact ⟨h.place, h.off, h.cnt, h.inacthead⟩

theorem Moves.represents (hm : Moves T v v') (h : v.Represents) : v'.Represents := by
  induction hm with
  | refl => exact h
  | tail _ hm ih => exact hm.represents ih

theorem enqueue_pl (v : Vm) (m : Nat) (k : PageQueue) (d : Nat) (j : PageQueue) :
    ((vmPageEnqueue v k m).queue d j).pl =
      if d = v.home m k ∧ j = k then (v.queue d j).pl ++ [.page m] else (v.queue d j).pl := by
  unfold vmPageEnqueue
  simp only [note_queue]
  split
  next hd =>
    obtain ⟨rfl, rfl⟩ := hd
    rw [setQueue_queue_self]
    rfl
  next hd => rw [setQueue_queue_of_ne _ hd, setPage_queue]

theorem enqueue_pages (v : Vm) (m : Nat) (k : PageQueue) (d : Nat) (j : PageQueue) :
    (vmPageEnqueue v k m).pages d j =
      if d = v.home m k ∧ j = k then v.pages d j ++ [m] else v.pages d j := by
  rw [pages, enqueue_pl]
  split
  next => exact linkPages_append _ _
  next => rfl

theorem remque_moves (hs : vmPageRemque v m = some v') : Moves T v v' ∧
    v'.page m = { v.page m with queue := none } ∧ v'.clock = v.clock := by
  unfold vmPageRemque at hs
  split at hs
  next =>
    obtain ⟨k, hu⟩ := dequeueLocked_unlinks hs
    exact ⟨.single (.dequeue hs), by rw [hu.page, Function.update_self], hu.clock⟩
  next hn =>
    cases hs
    have hq : (v.page m).queue = none := not_not.mp hn
    refine ⟨.refl, ?_, rfl⟩
    rw [← hq]

theorem samePlace_initAct (p : Page) : SamePlace p p.initAct := by
  unfold Page.initAct
  split <;> exact ⟨rfl, rfl, rfl, rfl, rfl, rfl⟩

theorem activate_moves (hT : ∀ t, T t t) (hs : vmPageActivate v m = some v') : Moves T v v' := by
  have hact : Moves T v (v.setPage m (v.page m).initAct) := .single (.page (samePlace_initAct _))
  unfold vmPageActivate at hs
  split at hs
  next =>
    split at hs
    next hok =>
      obtain ⟨v₁, hv₁, he⟩ := Option.bind_eq_some_iff.mp hs
      cases he
      obtain ⟨hm, hp, _⟩ := remque_moves (T := T) hv₁
      rw [setPage_page_self] at hp
      have hsame := samePlace_initAct (v.page m)
      have hq : (v₁.page m).queue = none := by rw [hp]
      have hset : ∀ p : Page, p.queue = none → p.domain = (v₁.page m).domain →
          Moves T v (v₁.setPage m p) := fun p hn hd => hact.trans (hm.tail (.offQueue hq hn hd))
      refine (hset _ ?_ ?_).tail (.enqueue ?_ ?_ ?_ (fun _ => ?_))
      · exact hq
      · rfl
      · rw [setPage_page_self]
        exact hq
      · rw [setPage_page_self, hp]
        exact hsame.wireCount.trans hok.1
      · rw [setPage_page_self, hp]
        exact hsame.unmanaged.trans hok.2
      · rw [setPage_page_self]
        exact hT v₁.clock
    next =>
      split at hs
      next =>
        cases hs
        exact .refl
      next => cases hs
  next =>
    cases hs
    exact hact

theorem deactivateTo_moves {noreuse : Bool} (hs : vmPageDeactivateTo v m noreuse = some v') :
    Moves T v v' := by
  unfold vmPageDeactivateTo at hs
  split at hs
  next =>
    cases hs
    exact .refl
  next =>
    split at hs
    next hok =>
      obtain ⟨v₁, hv₁, he⟩ := Option.bind_eq_some_iff.mp hs
      obtain ⟨hm, hp, _⟩ := remque_moves (T := T) hv₁
      have hq : (v₁.page m).queue = none := by rw [hp]
      have hw : (v₁.page m).wireCount = 0 := by rw [hp]; exact hok.1
      have hu : (v₁.page m).unmanaged = false := by rw [hp]; exact hok.2
      split at he
      next =>
        cases he
        exact hm.tail (.noreuse hq hw hu)
      next =>
        cases he
        exact hm.tail (.enqueue hq hw hu (by simp))
    next =>
      cases hs
      exact .refl

theorem launder_moves (hs : vmPageLaunder v m = some v') : Moves T v v' := by
  unfold vmPageLaunder at hs
  split at hs
  next =>
    split at hs
    next hok =>
      obtain ⟨v₁, hv₁, he⟩ := Option.map_eq_some_iff.mp hs
      cases he
      obtain ⟨hm, hp, _⟩ := remque_moves (T := T) hv₁
      have hq : (v₁.page m).queue = none := by rw [hp]
      exact hm.tail (.enqueue hq (by rw [hp]; exact hok.1) (by rw [hp]; exact hok.2) (by simp))
    next =>
      split at hs
      next =>
        cases hs
        exact .refl
      next => cases hs
  next =>
    cases hs
    exact .refl

theorem freePrep_moves {b : Bool} (hs : vmPageFreePrep v m = some (v', b)) :
    Moves T v v' ∧ (v'.page m).queue = none := by
  unfold vmPageFreePrep at hs
  split at hs
  next => cases hs
  next =>
    split at hs
    next => cases hs
    next =>
      obtain ⟨v₁, hv₁, he⟩ := Option.bind_eq_some_iff.mp hs
      obtain ⟨hm, hp, _⟩ := remque_moves (T := T) hv₁
      have hq : (v₁.page m).queue = none := by rw [hp]
      -- the page is on no queue from here on
      have hrem : (v₁.page m).remove.queue = none ∧
          (v₁.page m).remove.domain = (v₁.page m).domain := by
        unfold Page.remove
        split
        next => exact ⟨hq, rfl⟩
        next => exact ⟨hq, rfl⟩
      have hoff : ∀ p : Page, p.queue = none → p.domain = (v₁.page m).domain →
          Moves T v (v₁.setPage m p) ∧ ((v₁.setPage m p).page m).queue = none := fun p hp hd =>
        ⟨hm.tail (.offQueue hq hp hd), by rwa [setPage_page_self]⟩
      simp only [setPage_page_self, setPage_setPage, Page.restoreMemattr_eq] at he
      split at he
      next =>
        cases he
        exact hoff _ hrem.1 hrem.2
      next =>
        split at he
        next => cases he
        next =>
          split at he
          next =>
            split at he
            next => cases he
            next =>
              cases he
              exact hoff _ hrem.1 hrem.2
          next =>
            cases he
            exact hoff _ hrem.1 hrem.2

theorem free_moves (hs : vmPageFree v m = some v') : Moves T v v' := by
  obtain ⟨⟨v₁, b⟩, hf, he⟩ := Option.map_eq_some_iff.mp hs
  have hm := (freePrep_moves (T := T) hf).1
  cases b with
  | true =>
    cases he
    exact hm.tail .freed
  | false =>
    cases he
    exact hm

theorem wire_moves (h : v.Represents) (hs : vmPageWire v m = some v') : Moves T v v' := by
  unfold vmPageWire at hs
  split at hs
  next =>
    split at hs
    next =>
      cases hs
      exact .refl
    next => cases hs
  next =>
    obtain ⟨v₁, hv₁, he⟩ := Option.bind_eq_some_iff.mp hs
    have hq : Moves T v v₁ ∧ (v₁.page m).queue = none := by
      split at hv₁
      next =>
        split at hv₁
        next => cases hv₁
        next =>
          obtain ⟨hm, hp, _⟩ := remque_moves (T := T) hv₁
          exact ⟨hm, by rw [hp]⟩
      next hw =>
        cases hv₁
        exact ⟨.refl, h.off m (Or.inl hw)⟩
    simp only [setPage_page_self] at he
    split at he
    next =>
      cases he
      exact hq.1.tail (.offQueue hq.2 hq.2 rfl)
    next => cases he

theorem unwire_moves (h : v.Represents) {queue : Option PageQueue}
    (hT : queue = some .active → (v.page m).fictitious = false → (v.page m).wireCount - 1 = 0 →
      (v.page m).unmanaged = false → (v.page m).object ≠ none → T (v.page m).stamp v.clock)
    (hs : vmPageUnwire v m queue = some v') : Moves T v v' := by
  unfold vmPageUnwire at hs
  split at hs
  next =>
    split at hs
    next =>
      cases hs
      exact .refl
    next => cases hs
  next hf =>
    split at hs
    next hw =>
      have hne : (v.page m).wireCount ≠ 0 := by
        intro h0
        rw [h0] at hw
        exact absurd hw (by decide)
      have hq := h.off m (Or.inl hne)
      have hdec : Moves T v (v.setPage m { v.page m with wireCount := (v.page m).wireCount - 1 }) :=
        .single (.offQueue hq hq rfl)
      simp only [setPage_page_self] at hs
      split at hs
      next hok =>
        split at hs
        next k =>
          cases hs
          refine hdec.tail (.enqueue ?_ ?_ ?_ (fun hk => ?_))
          · rw [setPage_page_self]
            exact hq
          · rw [setPage_page_self]
            exact hok.1
          · rw [setPage_page_self]
            exact hok.2.1
          · rw [setPage_page_self]
            exact hT (by rw [hk]) (by simpa using hf) hok.1 hok.2.1 hok.2.2
        next =>
          cases hs
          exact hdec
      next =>
        cases hs
        exact hdec
    next => cases hs

end Vm

/-- What `T` has to allow for a call. -/
def PageOp.Within (T : Nanotime → Nanotime → Prop) (v : Vm) : PageOp → Prop
  | .unwire m queue => queue = some .active → (v.page m).fictitious = false →
      (v.page m).wireCount - 1 = 0 → (v.page m).unmanaged = false → (v.page m).object ≠ none →
        T (v.page m).stamp v.clock
  | .requeue m => (v.page m).queue = some .active → T (v.page m).stamp v.clock
  | _ => True

theorem PageOp.run_moves {T : Nanotime → Nanotime → Prop} {v v' : Vm} {op : PageOp}
    (h : v.Represents) (hT : ∀ t, T t t) (hw : op.Within T v) (hs : op.run v = some v') :
    v.Moves T v' := by
  cases op with
  | activate m => exact Vm.activate_moves hT hs
  | deactivate m | deactivateNoreuse m => exact Vm.deactivateTo_moves hs
  | launder m => exact Vm.launder_moves hs
  | wire m => exact Vm.wire_moves h hs
  | unwire m queue => exact Vm.unwire_moves h hw hs
  | requeue m => exact .single (.requeue hw hs)
  | free m => exact Vm.free_moves hs
  | tick now =>
    simp only [PageOp.run] at hs
    split at hs
    next hle =>
      cases hs
      exact .single (.tick hle)
    next => cases hs
  | outside m p =>
    cases hs
    exact .single (.page ⟨rfl, rfl, rfl, rfl, rfl, rfl⟩)
  | offQueue m p =>
    simp only [PageOp.run] at hs
    split at hs
    next hn =>
      cases hs
      exact .single (.offQueue hn hn rfl)
    next => cases hs
  | outsideObject o x =>
    cases hs
    exact .single .object

end FreeBSDEdits
