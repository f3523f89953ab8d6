import FreeBSDEdits.PageFifo

namespace FreeBSDEdits

/-- The domain whose page queue takes a page in this state. -/
def Page.home (p : Page) (k : PageQueue) : Nat := if k = .laundry then 0 else p.domain

/-- A page on a queue as the scans assert it. -/
structure Page.Lined (p : Page) (d : Nat) (k : PageQueue) : Prop where
  queue : p.queue = some k
  home : p.home k = d
  wireCount : p.wireCount = 0
  unmanaged : p.unmanaged = false
  fictitious : p.fictitious = false

instance (p : Page) (d : Nat) (k : PageQueue) : Decidable (p.Lined d k) :=
  decidable_of_iff (p.queue = some k ∧ p.home k = d ∧ p.wireCount = 0 ∧ p.unmanaged = false ∧
      p.fictitious = false)
    ⟨fun ⟨hq, hd, hw, hu, hf⟩ => ⟨hq, hd, hw, hu, hf⟩, fun hp =>
      ⟨hp.queue, hp.home, hp.wireCount, hp.unmanaged, hp.fictitious⟩⟩

/-- A page queue, with markers anywhere. -/
structure Vm.Lined (v : Vm) (d : Nat) (k : PageQueue) : Prop where
  nodup : (v.queue d k).pl.Nodup
  page : ∀ m ∈ v.pages d k, (v.page m).Lined d k

/-- A page that a scan takes off its queue, and what becomes of it. -/
structure Taken where
  page : Nat
  state : Page
  freed : Bool

def Taken.link (t : Taken) : Link := .page t.page

def Taken.event (now : Nanotime) (t : Taken) : Option PageEvent :=
  if t.freed then some (.freed t.page) else t.state.queue.map fun k => .tail t.page k now

/-- The page goes to the tail of this queue. -/
def Taken.SentTo (d : Nat) (k : PageQueue) (t : Taken) : Prop :=
  t.state.queue = some k ∧ t.state.home k = d

instance (d : Nat) (k : PageQueue) : DecidablePred (Taken.SentTo d k) := fun t =>
  inferInstanceAs (Decidable (t.state.queue = some k ∧ t.state.home k = d))

theorem linkPages_nodup {pl : List Link} (hn : pl.Nodup) : (linkPages pl).Nodup := by
  refine hn.filterMap (fun x y m hx hy => ?_)
  cases x with
  | page a =>
    cases y with
    | page b =>
      cases hx
      cases hy
      rfl
    | marker | inacthead | lockMarker => cases hy
  | marker | inacthead | lockMarker => cases hx

theorem not_mem_map_page {pl : List Link} {x : Link} (hx : x ∈ pl) :
    x ∉ (linkPages pl).map .page ↔ x.toPage = none := by
  cases x with
  | page m => simp [mem_linkPages, hx, Link.toPage]
  | marker | inacthead | lockMarker => simp [Link.toPage]

/-- Pages of the front are removed. -/
theorem diff_front {front back : List Link} (hn : (front ++ back).Nodup) {ms : List Nat}
    (hm : ∀ m ∈ ms, m ∈ linkPages front) :
    (front ++ back).diff (ms.map .page) =
      front.filter (fun x => x ∉ ms.map Link.page) ++ back := by
  have hback : ∀ x ∈ back, x ∉ ms.map Link.page := by
    intro x hx hin
    obtain ⟨m, hms, rfl⟩ := List.mem_map.mp hin
    exact (List.nodup_append.mp hn).2.2 _ (mem_linkPages.mp (hm m hms)) _ hx rfl
  rw [hn.sdiff_eq_filter, List.filter_append]
  congr 1
  exact List.filter_eq_self.mpr (fun x hx => by simpa using hback x hx)

theorem Visit.pageLock_headD {visits : List Visit} (hw : ∀ w ∈ visits, w.pageLock = none) :
    (visits.headD .plain).pageLock = none := by
  cases visits with
  | nil => rfl
  | cons w ws => exact hw w List.mem_cons_self

namespace Vm

variable {v v' : Vm} {d : Nat} {k : PageQueue} {m : Nat}

theorem Lined.mem (hv : v.Lined d k) {l l' : List Link}
    (hpl : (v.queue d k).pl = l ++ .page m :: l') : (v.page m).Lined d k := by
  refine hv.page m (mem_linkPages.mpr ?_)
  rw [hpl]
  simp

/-- Nothing is linked twice. -/
theorem Lined.not_mem_around (hv : v.Lined d k) {l l' : List Link} {x : Link}
    (hpl : (v.queue d k).pl = l ++ x :: l') : x ∉ l ∧ x ∉ l' := by
  have hn := hv.nodup
  rw [hpl] at hn
  obtain ⟨_, hn', hdisj⟩ := List.nodup_append.mp hn
  exact ⟨fun hl => hdisj x hl x List.mem_cons_self rfl, (List.nodup_cons.mp hn').1⟩

theorem Lined.front_pages (hv : v.Lined d k) {front back : List Link}
    (hpl : (v.queue d k).pl = front ++ back) :
    (linkPages front).Nodup ∧ ∀ m ∈ linkPages front, m ∈ v.pages d k := by
  have hn := hv.nodup
  rw [hpl] at hn
  refine ⟨linkPages_nodup (List.nodup_append.mp hn).1, fun m hm => ?_⟩
  rw [pages, hpl, linkPages_append]
  exact List.mem_append_left _ hm

/-- A page is taken off queue `k`; it may be put at the tail of another one. -/
structure Takes (v : Vm) (d : Nat) (k : PageQueue) (t : Taken) (v' : Vm) : Prop where
  page : v'.page = Function.update v.page t.page t.state
  domain : t.state.domain = (v.page t.page).domain
  here : v'.queue d k = ⟨(v.queue d k).pl.erase t.link, (v.queue d k).cnt - 1⟩
  there : ∀ d' j, ¬(d' = d ∧ j = k) → v'.queue d' j =
    if t.SentTo d' j then ⟨(v.queue d' j).pl ++ [t.link], (v.queue d' j).cnt + 1⟩
    else v.queue d' j
  object : v'.object = v.object
  clock : v'.clock = v.clock
  log : v'.log = (t.event v.clock).toList ++ v.log

/-- Several pages, one after the other. -/
inductive Sweeps (d : Nat) (k : PageQueue) : List Taken → Vm → Vm → Prop
  | nil (v : Vm) : Sweeps d k [] v v
  | cons {t ts v v₁ v'} : v.Takes d k t v₁ → Sweeps d k ts v₁ v' → Sweeps d k (t :: ts) v v'

variable {t : Taken} {ts : List Taken}

theorem Takes.self (ht : v.Takes d k t v') : v'.page t.page = t.state := by
  rw [ht.page, Function.update_self]

theorem Takes.of_ne (ht : v.Takes d k t v') {x : Nat} (hx : x ≠ t.page) :
    v'.page x = v.page x := by
  rw [ht.page, Function.update_of_ne hx]

theorem Takes.mem_pages (ht : v.Takes d k t v') (hv : v.Lined d k) (hm : m ∈ v'.pages d k) :
    m ∈ v.pages d k ∧ m ≠ t.page := by
  have hin := mem_linkPages.mp hm
  rw [ht.here] at hin
  obtain ⟨hne, hin⟩ := hv.nodup.mem_erase_iff.mp hin
  exact ⟨mem_linkPages.mpr hin, fun he => hne (congrArg Link.page he)⟩

theorem Takes.lined (ht : v.Takes d k t v') (hv : v.Lined d k) : v'.Lined d k := by
  refine ⟨?_, fun x hx => ?_⟩
  · rw [ht.here]
    exact hv.nodup.erase _
  · obtain ⟨hin, hne⟩ := ht.mem_pages hv hx
    rw [ht.of_ne hne]
    exact hv.page x hin

/-- The other pages stay as they are. -/
theorem Sweeps.other (hs : Sweeps d k ts v v') (hm : m ∉ ts.map Taken.page) :
    v'.page m = v.page m := by
  induction hs with
  | nil => rfl
  | cons ht _ ih =>
    obtain ⟨hne, hm⟩ := List.ne_and_not_mem_of_not_mem_cons hm
    rw [ih hm, ht.of_ne hne]

theorem Sweeps.taken (hs : Sweeps d k ts v v') (hn : (ts.map Taken.page).Nodup)
    (ht : t ∈ ts) : v'.page t.page = t.state := by
  induction hs with
  | nil => cases ht
  | cons h₁ hs ih =>
    obtain ⟨hfirst, hn⟩ := List.nodup_cons.mp hn
    rcases List.mem_cons.mp ht with rfl | ht
    · rw [hs.other hfirst, h₁.self]
    · exact ih hn ht

/-- What is left on the queue of the scan. -/
theorem Sweeps.here (hs : Sweeps d k ts v v') : v'.queue d k =
    ⟨(v.queue d k).pl.diff (ts.map Taken.link), (v.queue d k).cnt - ts.length⟩ := by
  induction hs with
  | nil => simp
  | @cons t ts v v₁ v' ht _ ih =>
    rw [ih, ht.here, List.map_cons, List.diff_cons, List.length_cons]
    congr 1
    change (v.queue d k).cnt - 1 - (ts.length : Int) = _
    omega

/-- The other queues get their pages at the tail, in the order in which they were taken. -/
theorem Sweeps.there (hs : Sweeps d k ts v v') {d' : Nat} {j : PageQueue}
    (hd : ¬(d' = d ∧ j = k)) : v'.queue d' j =
      ⟨(v.queue d' j).pl ++ (ts.filter (Taken.SentTo d' j ·)).map Taken.link,
        (v.queue d' j).cnt + (ts.filter (Taken.SentTo d' j ·)).length⟩ := by
  induction hs with
  | nil => simp
  | @cons t ts v v₁ v' ht _ ih =>
    rw [ih, ht.there d' j hd]
    by_cases hsent : t.SentTo d' j
    · rw [if_pos hsent, List.filter_cons_of_pos (by simpa using hsent), List.map_cons,
        List.length_cons]
      congr 1
      · simp
      · change (v.queue d' j).cnt + 1 + _ = _
        omega
    · rw [if_neg hsent, List.filter_cons_of_neg (by simpa using hsent)]

theorem Sweeps.log (hs : Sweeps d k ts v v') :
    v'.log = (ts.filterMap (Taken.event v.clock)).reverse ++ v.log := by
  induction hs with
  | nil => rfl
  | @cons t ts v v₁ v' ht _ ih =>
    rw [ih, ht.log, ht.clock, List.filterMap_cons]
    cases t.event v.clock with
    | none => rfl
    | some e =>
      show _ ++ ([e] ++ v.log) = _
      simp

variable {v₁ : Vm} {p : Page}

theorem Unlinks.setPage_page (hu : v.Unlinks m k v₁) (p : Page) :
    (v₁.setPage m p).page = Function.update v.page m p := by
  change Function.update v₁.page m p = _
  rw [hu.page, Function.update_idem]

/-- A page taken off a queue stays off. -/
theorem Unlinks.takes_off (hu : v.Unlinks m k v₁) (hd : v.home m k = d)
    (hp : p.domain = (v.page m).domain) (hq : p.queue = none) :
    v.Takes d k ⟨m, p, false⟩ (v₁.setPage m p) := by
  subst hd
  refine ⟨hu.setPage_page p, hp, hu.here, fun d' j hd => ?_, hu.object, hu.clock, ?_⟩
  · rw [if_neg (fun hs => absurd (hq.symm.trans hs.1) (by simp))]
    exact hu.there d' j hd
  · simp [Taken.event, hq, hu.log]

theorem Unlinks.takes_free (hu : v.Unlinks m k v₁) (hd : v.home m k = d)
    (hp : p.domain = (v.page m).domain) (hq : p.queue = none) :
    v.Takes d k ⟨m, p, true⟩ ((v₁.setPage m p).note (.freed m)) := by
  have ht := hu.takes_off hd hp hq
  refine ⟨ht.page, hp, ht.here, ht.there, ht.object, ht.clock, ?_⟩
  simp [note, Taken.event, hu.log]

/-- A page taken off a queue is put at the tail of another one. -/
theorem Unlinks.takes_tail (hu : v.Unlinks m k v₁) (hd : v.home m k = d)
    (hp : p.domain = (v.page m).domain) {k' : PageQueue} (hk : k' ≠ k) :
    v.Takes d k ⟨m, { p with queue := some k' }, false⟩
      (vmPageEnqueue (v₁.setPage m p) k' m) := by
  subst hd
  have hhome : (v₁.setPage m p).home m k' = p.home k' := by
    rw [home, setPage_page_self]
    rfl
  refine ⟨?_, hp, ?_, fun d' j hd => ?_, hu.object, hu.clock, ?_⟩
  · simp only [vmPageEnqueue, note_page, setQueue_page, setPage_page_self, setPage_setPage]
    exact hu.setPage_page _
  · simp only [vmPageEnqueue, note_queue]
    rw [setQueue_queue_of_ne _ (fun hc => hk hc.2.symm)]
    exact hu.here
  · simp only [vmPageEnqueue, note_queue, hhome]
    by_cases hs : Taken.SentTo d' j ⟨m, { p with queue := some k' }, false⟩
    · obtain ⟨hj, hd'⟩ := hs
      cases hj
      rw [if_pos ⟨rfl, hd'⟩, ← hu.there d' k' hd, ← hd']
      exact setQueue_queue_self _ _ _ _
    · rw [if_neg hs, setQueue_queue_of_ne, ← hu.there d' j hd]
      · rfl
      · rintro ⟨rfl, rfl⟩
        exact hs ⟨rfl, rfl⟩
  · change .tail m k' v₁.clock :: v₁.log = _
    rw [hu.log, hu.clock]
    rfl

end Vm

/-- Only queue `k` of domain `d` has pages. -/
def lineVm (d : Nat) (k : PageQueue) (pl : List Link) (page : Nat → Page)
    (object : Nat → VmObject) : Vm where
  page m := { page m with
    queue := if .page m ∈ pl then some k else none
    domain := d }
  object := object
  queue d' k' := if d' = d ∧ k' = k then ⟨pl, (linkPages pl).length⟩ else ⟨[], 0⟩
  clock := ⟨1, 0⟩
  log := []

end FreeBSDEdits
