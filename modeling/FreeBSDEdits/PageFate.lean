import FreeBSDEdits.PageSweep

namespace FreeBSDEdits

/-- What becomes of a page that the scan of an inactive queue examines. -/
inductive Fate
  | freed
  | laundered
  /-- left on no queue -/
  | orphaned
  | kept
  deriving DecidableEq

/-- The page after the dirty test. -/
def Page.tested (p : Page) (x : VmObject) (modified : Bool) : Page :=
  if x.refCount ≠ 0 ∧ p.dirty ≠ vmPageBitsAll ∧ modified then { p with dirty := vmPageBitsAll }
  else p

def Page.fate (p : Page) (object : Nat → VmObject) (modified : Bool) : Fate :=
  match p.object with
  | none => .kept
  | some o =>
    if p.holdCount ≠ 0 ∨ p.busyLock ≠ .unbusied then .kept
    else if p.valid = 0 ∨ (p.tested (object o) modified).dirty = 0 then .freed
    else if (object o).dead then .orphaned
    else .laundered

/-- The page with this fate behind it. -/
def Page.after (p : Page) (object : Nat → VmObject) (modified : Bool) : Fate → Page
  | .kept => p
  | .freed => Vm.freedState { p with queue := none }
  | .orphaned =>
    match p.object with
    | none => p
    | some o => { p.tested (object o) modified with queue := none }
  | .laundered =>
    match p.object with
    | none => p
    | some o => { p.tested (object o) modified with queue := some .laundry }

/-- No lock is missed, and no other thread moves pages. -/
structure Visit.Quiet (w : Visit) : Prop where
  pageLock : w.pageLock = none
  objectLock : w.objectLock = none
  meanwhile : w.meanwhile = []

theorem Visit.quiet_headD {visits : List Visit} (hw : ∀ w ∈ visits, w.Quiet) :
    (visits.headD .plain).Quiet := by
  cases visits with
  | nil => exact ⟨rfl, rfl, rfl⟩
  | cons w ws => exact hw w List.mem_cons_self

namespace Vm

variable {v v₁ v' : Vm} {d m o : Nat} {p : Page} {modified : Bool}

/-- An inactive queue as the scan finds it: vmd_marker is not linked, and a page that is not held
has an object. -/
structure Scannable (v : Vm) (d : Nat) : Prop where
  lined : v.Lined d .inactive
  marker : .marker d ∉ (v.queue d .inactive).pl
  object : ∀ m ∈ v.pages d .inactive, (v.page m).holdCount = 0 → (v.page m).object ≠ none

theorem test_eq (v : Vm) (m o : Nat) (modified : Bool) :
    (if (v.object o).refCount ≠ 0 then vmPageTestDirty v m modified else v) =
      v.setPage m ((v.page m).tested (v.object o) modified) := by
  have hset : v.setPage m (v.page m) = v := by simp [setPage]
  unfold Page.tested vmPageTestDirty
  by_cases hr : (v.object o).refCount ≠ 0
  · by_cases hd : (v.page m).dirty ≠ vmPageBitsAll ∧ modified = true
    · rw [if_pos hr, if_pos hd, if_pos ⟨hr, hd⟩]
    · rw [if_pos hr, if_neg hd, if_neg (fun hc => hd hc.2), hset]
  · rw [if_neg hr, if_neg (fun hc => hr hc.1), hset]

/-- A page that is clean after the test was clean before it. -/
theorem tested_clean {p : Page} {x : VmObject} (h : (p.tested x modified).dirty = 0) :
    p.tested x modified = p := by
  unfold Page.tested at h ⊢
  split at h
  next => exact absurd h (show vmPageBitsAll ≠ 0 by decide)
  next hc => rw [if_neg hc]

theorem tested_place (p : Page) (x : VmObject) (modified : Bool) :
    (p.tested x modified).wireCount = p.wireCount ∧
      (p.tested x modified).unmanaged = p.unmanaged ∧
      (p.tested x modified).domain = p.domain := by
  unfold Page.tested
  split <;> exact ⟨rfl, rfl, rfl⟩

theorem tested_queue (p : Page) (x : VmObject) (modified : Bool) :
    ({ p with queue := none } : Page).tested x modified =
      { p.tested x modified with queue := none } := by
  unfold Page.tested
  split <;> rfl

theorem freedState_place (p : Page) :
    (freedState p).domain = p.domain ∧ (freedState p).queue = p.queue := by
  unfold freedState Page.remove
  split <;> exact ⟨rfl, rfl⟩

theorem dispose_eq (hvalid : (v.page m).valid ≠ 0)
    (hp : (v.page m).tested (v.object o) modified = p) : InactiveScan.dispose v m o modified =
      if p.dirty = 0 then (vmPageFree (v.setPage m p) m).map (·, true)
      else if (v.object o).dead = false then (vmPageLaunder (v.setPage m p) m).map (·, false)
      else some (v.setPage m p, false) := by
  unfold InactiveScan.dispose
  rw [if_neg hvalid]
  simp only [test_eq, hp, setPage_page_self, setPage_object]

theorem dispose_takes (hu : v.Unlinks m .inactive v₁) (hp : (v.page m).Lined d .inactive)
    (ho : (v.page m).object = some o) (hb : (v.page m).busyLock = .unbusied)
    (hh : (v.page m).holdCount = 0) (modified : Bool) : ∃ v',
      v.Takes d .inactive ⟨m, (v.page m).after v.object modified ((v.page m).fate v.object modified),
        (v.page m).fate v.object modified = .freed⟩ v' ∧
      InactiveScan.dispose v₁ m o modified =
        some (v', decide ((v.page m).fate v.object modified = .freed)) := by
  have hpage : v₁.page m = { v.page m with queue := none } := by
    rw [hu.page, Function.update_self]
  have hfate : (v.page m).fate v.object modified =
      if (v.page m).valid = 0 ∨ ((v.page m).tested (v.object o) modified).dirty = 0 then .freed
      else if (v.object o).dead then .orphaned else .laundered := by
    unfold Page.fate
    rw [ho]
    exact if_neg (by simp [hb, hh])
  have hset : v₁.setPage m { v.page m with queue := none } = v₁ := by
    rw [← hpage]
    simp [setPage]
  have hfree : vmPageFree v₁ m =
      some ((v₁.setPage m (freedState { v.page m with queue := none })).note (.freed m)) := by
    rw [free_off hu.self (by rw [hpage]; exact hp.wireCount) (by rw [hpage]; exact hp.fictitious)
      (by rw [hpage]; exact hb) (by rw [hpage]; exact hh), hpage]
  obtain ⟨hfd, hfq⟩ := freedState_place { v.page m with queue := none }
  have hfreed : v.Takes d .inactive ⟨m, freedState { v.page m with queue := none }, true⟩
      ((v₁.setPage m (freedState { v.page m with queue := none })).note (.freed m)) :=
    hu.takes_free hp.home hfd hfq
  by_cases hvalid : (v.page m).valid = 0
  · unfold InactiveScan.dispose
    rw [hfate, if_pos (Or.inl hvalid), if_pos (by rw [hpage]; exact hvalid), hfree]
    exact ⟨_, hfreed, rfl⟩
  · have htest : (v₁.page m).tested (v₁.object o) modified =
        { (v.page m).tested (v.object o) modified with queue := none } := by
      rw [hu.object, hpage, tested_queue]
    rw [dispose_eq (by rw [hpage]; exact hvalid) htest, hu.object, hfate]
    by_cases hclean : ((v.page m).tested (v.object o) modified).dirty = 0
    · rw [if_pos (Or.inr hclean), if_pos hclean, tested_clean hclean, hset, hfree]
      exact ⟨_, hfreed, rfl⟩
    · rw [if_neg (not_or.mpr ⟨hvalid, hclean⟩), if_neg hclean]
      obtain ⟨htw, htu, htd⟩ := tested_place (v.page m) (v.object o) modified
      by_cases hdead : (v.object o).dead = true
      · have hafter : (v.page m).after v.object modified .orphaned =
            { (v.page m).tested (v.object o) modified with queue := none } := by
          unfold Page.after
          rw [ho]
        rw [if_pos hdead, if_neg (by simp [hdead]), hafter]
        exact ⟨_, hu.takes_off hp.home htd rfl, rfl⟩
      · have hafter : (v.page m).after v.object modified .laundered =
            { (v.page m).tested (v.object o) modified with queue := some .laundry } := by
          unfold Page.after
          rw [ho]
        rw [if_neg hdead, if_pos (by simpa using hdead), hafter, launder_off]
        · exact ⟨_, hu.takes_tail
            (p := { (v.page m).tested (v.object o) modified with queue := none })
              hp.home htd (by simp), rfl⟩
        · rw [setPage_page_self]
        · rw [setPage_page_self]
          exact htw.trans hp.wireCount
        · rw [setPage_page_self]
          exact htu.trans hp.unmanaged

/-- The marker that holds the place of the page makes no difference in the end. -/
theorem Takes.unmark {k : PageQueue} {t : Taken} {x : Link} {pre post : List Link}
    (htm : t.page = m) (hs : (v.setPl d k (pre ++ .page m :: x :: post)).Takes d k t v₁)
    (hpl : (v.queue d k).pl = pre ++ .page m :: post) (ht : .page m ∉ pre) (hx : x ∉ pre) :
    (v₁.queue d k).pl = pre ++ x :: post ∧
      v.Takes d k t (v₁.setPl d k ((v₁.queue d k).pl.erase x)) := by
  subst htm
  have hq := hs.here
  rw [Taken.link, setPl, setQueue_queue_self, List.erase_append_right _ ht,
    List.erase_cons_head] at hq
  have hpl₁ : (v₁.queue d k).pl = pre ++ x :: post := by rw [hq]
  refine ⟨hpl₁, hs.page, hs.domain, ?_, fun d' j hd => ?_, hs.object, hs.clock, hs.log⟩
  · rw [setPl, setQueue_queue_self, hpl₁, hpl, Taken.link, List.erase_append_right _ hx,
      List.erase_append_right _ ht, List.erase_cons_head, List.erase_cons_head, hq]
  · have hthere := hs.there d' j hd
    rw [setPl, setQueue_queue_of_ne _ hd] at hthere
    rw [setPl, setQueue_queue_of_ne _ hd]
    exact hthere

theorem Scannable.takes {t : Taken} (hv : v.Scannable d) (ht : v.Takes d .inactive t v') :
    v'.Scannable d := by
  refine ⟨ht.lined hv.lined, ?_, fun m hm => ?_⟩
  · rw [ht.here]
    exact fun hin => hv.marker (List.mem_of_mem_erase hin)
  · have hpages : m ∈ v.pages d .inactive ∧ m ≠ t.page := ht.mem_pages hv.lined hm
    rw [ht.of_ne hpages.2]
    exact hv.object m hpages.1

end Vm

namespace InactiveScan

variable {s : InactiveScan} {d m o : Nat} {w : Visit}

/-- The turn over a page that is neither held nor busied. -/
theorem take_takes (hp : (s.vm.page m).Lined d .inactive) {pre post : List Link}
    (hpl : (s.vm.queue d .inactive).pl = pre ++ .page m :: post) (hm : .page m ∉ pre)
    (hmark : .marker d ∉ pre) (hw : w.Quiet) (ho : (s.vm.page m).object = some o)
    (hb : (s.vm.page m).busyLock = .unbusied) (hh : (s.vm.page m).holdCount = 0) : ∃ v',
      s.vm.Takes d .inactive
        ⟨m, (s.vm.page m).after s.vm.object w.modified ((s.vm.page m).fate s.vm.object w.modified),
          (s.vm.page m).fate s.vm.object w.modified = .freed⟩ v' ∧
      s.take d m o w = some ⟨v', post.head?,
        if (s.vm.page m).fate s.vm.object w.modified = .freed then s.pageShortage - 1
          else s.pageShortage, s.addlPageShortage⟩ := by
  have hins : TailQueue.insertAfter (s.vm.queue d .inactive).pl (.page m) (.marker d) =
      pre ++ .page m :: .marker d :: post := by
    rw [hpl]
    exact TailQueue.insertAfter_append hm
  generalize hva : s.vm.setPl d .inactive (pre ++ .page m :: .marker d :: post) = va
  have hpage : va.page = s.vm.page ∧ va.object = s.vm.object := by
    rw [← hva]
    exact ⟨rfl, rfl⟩
  have hpa : (va.page m).Lined d .inactive := by rwa [hpage.1]
  obtain ⟨v₁, hv₁, hu⟩ := Vm.dequeueLocked_some hpa.queue
  obtain ⟨v₂, ht, hdispose⟩ := Vm.dispose_takes hu hpa (by rw [hpage.1]; exact ho)
    (by rw [hpage.1]; exact hb) (by rw [hpage.1]; exact hh) w.modified
  rw [hpage.1, hpage.2] at ht hdispose
  rw [← hva] at ht
  obtain ⟨hpl₂, ht⟩ := Vm.Takes.unmark (m := m) rfl ht hpl hm hmark
  refine ⟨_, ht, ?_⟩
  unfold take
  simp only [hins, hva, hv₁, hw.meanwhile, runOps, Option.bind_some, hdispose, Option.map_some]
  have hnext : TailQueue.next (v₂.queue d .inactive).pl (.marker d) = post.head? := by
    rw [hpl₂]
    exact TailQueue.next_append hmark
  simp only [hnext, decide_eq_true_eq]

theorem visit_eq (hp : (s.vm.page m).Lined d .inactive) (hw : w.Quiet) : s.visit d m w =
    if (s.vm.page m).holdCount ≠ 0 then some s.stuck
    else (s.vm.page m).object.bind fun o => s.examine d m o w := by
  unfold visit vmPageoutPageLock
  simp only [hw.pageLock, hw.objectLock]
  rw [if_neg (by simp [hp.queue, hp.fictitious, hp.unmanaged]), Option.bind_some]
  cases (s.vm.page m).object with
  | none => rfl
  | some o => rfl

/-- A held or busied page is passed over. -/
theorem visit_kept (hv : s.vm.Scannable d) (hm : m ∈ s.vm.pages d .inactive) (hw : w.Quiet)
    (hf : (s.vm.page m).fate s.vm.object w.modified = .kept) : s.visit d m w = some s.stuck := by
  rw [visit_eq (hv.lined.page m hm) hw]
  by_cases hh : (s.vm.page m).holdCount ≠ 0
  · exact if_pos hh
  · rw [if_neg hh]
    obtain ⟨o, ho⟩ := Option.ne_none_iff_exists'.mp (hv.object m hm (not_not.mp hh))
    have hb : (s.vm.page m).busyLock ≠ .unbusied := by
      intro hb
      unfold Page.fate at hf
      rw [ho] at hf
      simp only [hh, hb, false_or, ne_eq, not_true_eq_false, if_false] at hf
      split at hf
      next => cases hf
      next =>
        split at hf
        next => cases hf
        next => cases hf
    rw [ho]
    exact if_pos hb

theorem visit_takes (hv : s.vm.Scannable d) {pre post : List Link}
    (hpl : (s.vm.queue d .inactive).pl = pre ++ .page m :: post) (hw : w.Quiet)
    (hf : (s.vm.page m).fate s.vm.object w.modified ≠ .kept) : ∃ v',
      s.vm.Takes d .inactive
        ⟨m, (s.vm.page m).after s.vm.object w.modified ((s.vm.page m).fate s.vm.object w.modified),
          (s.vm.page m).fate s.vm.object w.modified = .freed⟩ v' ∧
      s.visit d m w = some ⟨v', post.head?,
        if (s.vm.page m).fate s.vm.object w.modified = .freed then s.pageShortage - 1
          else s.pageShortage, s.addlPageShortage⟩ := by
  have hfree : ∃ o, (s.vm.page m).object = some o ∧ (s.vm.page m).holdCount = 0 ∧
      (s.vm.page m).busyLock = .unbusied := by
    unfold Page.fate at hf
    split at hf
    next => exact absurd rfl hf
    next o ho =>
      split at hf
      next => exact absurd rfl hf
      next hc =>
        obtain ⟨hh, hb⟩ := not_or.mp hc
        exact ⟨o, ho, not_not.mp hh, not_not.mp hb⟩
  obtain ⟨o, ho, hh, hb⟩ := hfree
  have hmark : Link.marker d ∉ pre := fun hin => hv.marker (by
    rw [hpl]
    exact List.mem_append_left _ hin)
  have hp := hv.lined.mem hpl
  obtain ⟨v', ht, htake⟩ := take_takes hp hpl (hv.lined.not_mem_around hpl).1 hmark hw ho hb hh
  refine ⟨v', ht, ?_⟩
  rw [visit_eq hp hw, if_neg (not_not.mpr hh), ho, Option.bind_some, examine,
    if_neg (not_not.mpr hb), if_neg (not_not.mpr hh)]
  exact htake

end InactiveScan

end FreeBSDEdits
