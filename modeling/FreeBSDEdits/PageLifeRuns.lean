import FreeBSDEdits.PageLifeSteps

namespace FreeBSDEdits

/-- A physical page with a wiring. -/
def Page.Wired (p : Page) : Prop := p.fictitious = false ∧ p.wireCount ≠ 0

instance Page.decidableWired (p : Page) : Decidable p.Wired := by
  unfold Page.Wired
  infer_instance

/-- The wired pages among the first `n`. -/
def wiredPages (n : Nat) (page : Nat → Page) : Finset Nat :=
  (Finset.range n).filter fun m => (page m).Wired

theorem wiredPages_update {n m : Nat} (page : Nat → Page) {p : Page}
    (hm : n ≤ m → ¬p.Wired ∧ ¬(page m).Wired) :
    ((wiredPages n (Function.update page m p)).card : Int) =
      (wiredPages n page).card + (if p.Wired then 1 else 0) - if (page m).Wired then 1 else 0 := by
  have hne : ∀ x, x ≠ m → (x ∈ wiredPages n (Function.update page m p) ↔ x ∈ wiredPages n page) := by
    intro x hx
    simp [wiredPages, Function.update_of_ne hx]
  have hm' : m ∈ wiredPages n (Function.update page m p) ↔ m < n ∧ p.Wired := by
    simp [wiredPages]
  have hm₀ : m ∈ wiredPages n page ↔ m < n ∧ (page m).Wired := by simp [wiredPages]
  have herase : (wiredPages n (Function.update page m p)).erase m = (wiredPages n page).erase m := by
    ext x
    by_cases hx : x = m
    · simp [hx]
    · simp [hx, hne x hx]
  have hcard : ∀ s : Finset Nat, (s.card : Int) = (s.erase m).card + if m ∈ s then 1 else 0 := by
    intro s
    split
    next h => exact_mod_cast (Finset.card_erase_add_one h).symm
    next h => rw [Finset.erase_eq_of_notMem h, Int.add_zero]
  rw [hcard (wiredPages n (Function.update page m p)), hcard (wiredPages n page), herase]
  by_cases hlt : m < n
  · simp only [hm', hm₀, hlt, true_and]
    omega
  · obtain ⟨h1, h2⟩ := hm (Nat.not_lt.mp hlt)
    simp only [hm', hm₀, hlt, false_and, h1, h2, if_false]
    omega

namespace PageLife

/-- The free lists hold each free page once, and every page on them can be handed out; the counts
are exact; a page whose free was put off is held. -/
structure Sound (n : Nat) (s : PageLife) : Prop where
  nodup : s.free.Nodup
  freeCount : s.freeCount = s.free.length
  ready : ∀ m ∈ s.free, (s.page m).allocCheck ∧ (s.page m).fictitious = false
  fake : ∀ m, n ≤ m → (s.page m).fictitious = true
  wired : s.wireCount = (wiredPages n s.vm.page).card
  busy : ∀ m, (s.page m).fictitious = false → (s.page m).busyLock = .exclusive →
    (s.page m).object ≠ none
  plain : ∀ m, (s.page m).fictitious = true → (s.page m).unholdfree = false
  delayed : ∀ m, m ∉ s.free → (s.page m).unholdfree = true → (s.page m).holdCount ≠ 0

variable {n m : Nat} {s s' : PageLife}

/-- A step that changes one page, v_wire_count, and whether that page is free. -/
theorem Sound.update (h : s.Sound n) {vm : Vm} {p : Page} {free : List Nat} {count w : Int}
    (hp : vm.page = Function.update s.vm.page m p) (hf : p.fictitious = (s.page m).fictitious)
    (hb : p.fictitious = false → p.busyLock = .exclusive → p.object ≠ none)
    (hpl : p.fictitious = true → p.unholdfree = false)
    (hfree : ∀ x, x ≠ m → (x ∈ free ↔ x ∈ s.free)) (hnodup : free.Nodup)
    (hcount : count = free.length) (hin : m ∈ free → p.allocCheck ∧ p.fictitious = false)
    (hout : m ∉ free → p.unholdfree = true → p.holdCount ≠ 0)
    (hw : w = s.wireCount + (if p.Wired then 1 else 0) - if (s.page m).Wired then 1 else 0) :
    Sound n ⟨vm, free, count, w⟩ := by
  have hself : vm.page m = p := by rw [hp, Function.update_self]
  have hne : ∀ x, x ≠ m → vm.page x = s.page x := fun x hx => by
    rw [hp, Function.update_of_ne hx]
    rfl
  have hfake : ∀ x, (vm.page x).fictitious = (s.page x).fictitious := by
    intro x
    by_cases hx : x = m
    · rw [hx, hself, hf]
    · rw [hne x hx]
  refine ⟨hnodup, hcount, fun x hx => ?_, fun x hx => (hfake x).trans (h.fake x hx), ?_,
    fun x => ?_, fun x => ?_, fun x hx => ?_⟩
  · change (vm.page x).allocCheck ∧ (vm.page x).fictitious = false
    by_cases hxm : x = m
    · rw [hxm, hself]
      exact hin (hxm ▸ hx)
    · rw [hne x hxm]
      exact h.ready x ((hfree x hxm).mp hx)
  · have hno : n ≤ m → ¬p.Wired ∧ ¬(s.vm.page m).Wired := by
      intro hnm
      have hfm := h.fake m hnm
      exact ⟨fun hwd => absurd ((hf.trans hfm).symm.trans hwd.1) Bool.noConfusion,
        fun hwd => absurd (hfm.symm.trans hwd.1) Bool.noConfusion⟩
    change w = (wiredPages n vm.page).card
    rw [hp, wiredPages_update s.vm.page hno, hw, h.wired]
    rfl
  · change (vm.page x).fictitious = false → (vm.page x).busyLock = .exclusive →
      (vm.page x).object ≠ none
    by_cases hx : x = m
    · rw [hx, hself]
      exact hb
    · rw [hne x hx]
      exact h.busy x
  · change (vm.page x).fictitious = true → (vm.page x).unholdfree = false
    by_cases hx : x = m
    · rw [hx, hself]
      exact hpl
    · rw [hne x hx]
      exact h.plain x
  · change (vm.page x).unholdfree = true → (vm.page x).holdCount ≠ 0
    by_cases hxm : x = m
    · rw [hxm, hself]
      exact hout (hxm ▸ hx)
    · rw [hne x hxm]
      exact h.delayed x (fun hin => hx ((hfree x hxm).mpr hin))

/-- What a page that is not on a free list must satisfy. -/
structure InUse (p : Page) : Prop where
  busy : p.fictitious = false → p.busyLock = .exclusive → p.object ≠ none
  plain : p.fictitious = true → p.unholdfree = false
  delayed : p.unholdfree = true → p.holdCount ≠ 0

theorem Sound.inUse (h : s.Sound n) (hm : m ∉ s.free) : InUse (s.page m) :=
  ⟨h.busy m, h.plain m, h.delayed m hm⟩

theorem InUse.of_same {p p' : Page} (h : InUse p) (hs : SameHolds p p') : InUse p' := by
  refine ⟨fun hf hb => ?_, fun hf => ?_, fun hu => ?_⟩
  · rw [hs.object]
    exact h.busy (hs.fictitious ▸ hf) (hs.busyLock ▸ hb)
  · rw [hs.unholdfree]
    exact h.plain (hs.fictitious ▸ hf)
  · rw [hs.holdCount]
    exact h.delayed (hs.unholdfree ▸ hu)

theorem InUse.remove {p : Page} (h : InUse p) :
    p.remove.fictitious = p.fictitious ∧ p.remove.wireCount = p.wireCount ∧ InUse p.remove := by
  unfold Page.remove
  split
  next => exact ⟨rfl, rfl, h⟩
  next =>
    refine ⟨rfl, rfl, fun _ hb => ?_, h.plain, h.delayed⟩
    dsimp only at hb
    split at hb
    next => exact BusyLock.noConfusion hb
    next hne => exact absurd hb hne

/-- One page changes that is not free. -/
theorem Sound.change (h : s.Sound n) (hm : m ∉ s.free) {vm : Vm} {p : Page} {w : Int}
    (hp : vm.page = Function.update s.vm.page m p) (hf : p.fictitious = (s.page m).fictitious)
    (hu : InUse p)
    (hw : w = s.wireCount + (if p.Wired then 1 else 0) - if (s.page m).Wired then 1 else 0) :
    Sound n { s with vm := vm, wireCount := w } :=
  h.update hp hf hu.busy hu.plain (fun _ _ => Iff.rfl) h.nodup h.freeCount (fun hin => absurd hin hm)
    (fun _ => hu.delayed) hw

theorem wired_delta {p p' : Page} {w : Int} (hf : p'.fictitious = p.fictitious)
    (hw : p'.wireCount = p.wireCount) :
    w = w + (if p'.Wired then 1 else 0) - if p.Wired then 1 else 0 := by
  have : p'.Wired ↔ p.Wired := by
    unfold Page.Wired
    rw [hf, hw]
  simp only [this]
  omega

/-- The same, when the page keeps its wirings. -/
theorem Sound.setPage (h : s.Sound n) (hm : m ∉ s.free) {vm : Vm} {p : Page}
    (hp : vm.page = Function.update s.vm.page m p) (hf : p.fictitious = (s.page m).fictitious)
    (hwc : p.wireCount = (s.page m).wireCount) (hu : InUse p) :
    Sound n { s with vm := vm } :=
  h.change hm hp hf hu (wired_delta hf hwc)

/-- A call that only moves the page between the queues. -/
theorem Sound.queueCall (h : s.Sound n) (hm : m ∉ s.free) {call : Option Vm}
    (ht : ∀ vm, call = some vm → s.vm.Touches m vm)
    (hs : call.map (fun vm => { s with vm := vm }) = some s') : s'.Sound n := by
  obtain ⟨vm, hvm, rfl⟩ := Option.map_eq_some_iff.mp hs
  obtain ⟨p, hp, hsame, hw⟩ := ht vm hvm
  exact h.setPage hm hp hsame.fictitious hw ((h.inUse hm).of_same hsame)

/-- vm_page_free_toq puts a page on the free lists or, while it is held, only marks it. The page
may have just lost its last hold. -/
theorem Sound.freeToq (h : s.Sound n) (hm : m ∉ s.free) {q : Page}
    (hf : q.fictitious = (s.page m).fictitious) (hwc : q.wireCount = (s.page m).wireCount)
    (hb : q.fictitious = false → q.busyLock = .exclusive → q.object ≠ none)
    (hq : q.fictitious = true → q.unholdfree = false)
    (hs : (s.setPage m q).freeToq m = some s') : s'.Sound n ∧
      ∃ p b, s'.vm.page = Function.update s.vm.page m p ∧ Vm.PreparesFree q p b ∧
        s'.free = if b = true then m :: s.free else s.free := by
  obtain ⟨⟨vm, b⟩, hprep, he⟩ := Option.map_eq_some_iff.mp hs
  obtain ⟨p, hp, hfree⟩ := Vm.freePrep_prepares hprep
  have hqm : ((s.setPage m q).vm.page m) = q := Vm.setPage_page_self ..
  have hpage : vm.page = Function.update s.vm.page m p := by
    rw [hp]
    exact Function.update_idem ..
  rw [hqm] at hfree
  have hbusy : p.fictitious = false → p.busyLock ≠ .unbusied → False := by
    intro hpf hpb
    obtain ⟨hx, ho⟩ := hfree.busyLock hpb
    exact hb (hfree.fictitious ▸ hpf) hx ho
  have hbusy' : p.fictitious = false → p.busyLock = .exclusive → p.object ≠ none :=
    fun hpf hpb => (hbusy hpf (by rw [hpb]; exact BusyLock.noConfusion)).elim
  have hplain : p.fictitious = true → p.unholdfree = false := fun hpf =>
    have hqf := hfree.fictitious ▸ hpf
    (hfree.fake hqf).2.trans (hq hqf)
  have hfict := hfree.fictitious.trans hf
  have hdelta := wired_delta (w := s.wireCount) hfict (hfree.wireCount.trans hwc)
  have hmem : ∀ x, x ≠ m → (x ∈ m :: s.free ↔ x ∈ s.free) := fun x hx => by simp [hx]
  cases b with
  | true =>
    cases he
    refine ⟨h.update hpage hfict hbusy' hplain hmem
      (List.nodup_cons.mpr ⟨hm, h.nodup⟩) ?_ (fun _ => ?_)
      (fun hno => absurd List.mem_cons_self hno) hdelta, p, true, hpage, hfree, rfl⟩
    · change s.freeCount + 1 = ((m :: s.free).length : Int)
      rw [h.freeCount]
      simp
    · have hpf : q.fictitious = false := by
        cases hqf : q.fictitious with
        | false => rfl
        | true => exact absurd (hfree.fake hqf).1 Bool.noConfusion
      obtain ⟨hw0, hv, hd, hh, _, hattr⟩ := hfree.real hpf
      have hpf' := hfree.fictitious.trans hpf
      exact ⟨⟨hfree.object, hfree.queue, hfree.wireCount.trans hw0,
        hfree.holdCount.trans (hh.mp rfl), Decidable.not_not.mp (hbusy hpf'), hd, hattr rfl, hv⟩,
        hpf'⟩
  | false =>
    cases he
    refine ⟨h.change hm hpage hfict ⟨hbusy', hplain, fun hu => ?_⟩ hdelta, p, false, hpage,
      hfree, rfl⟩
    rw [hfree.holdCount]
    cases hqf : q.fictitious with
    | true =>
      exact absurd ((hplain (hfree.fictitious.trans hqf)).symm.trans hu) Bool.noConfusion
    | false =>
      intro h0
      exact Bool.noConfusion ((hfree.real hqf).2.2.2.1.mpr h0)

/-- A page is taken from the free lists. -/
theorem Sound.take (h : s.Sound n) (hm : m ∈ s.free) {p : Page} {w : Int}
    (hf : p.fictitious = false) (hu : InUse p)
    (hw : w = s.wireCount + (if p.Wired then 1 else 0) - if (s.page m).Wired then 1 else 0) :
    Sound n ⟨s.vm.setPage m p, s.free.erase m, s.freeCount - 1, w⟩ := by
  have hout : m ∉ s.free.erase m := h.nodup.not_mem_erase
  refine h.update rfl (hf.trans (h.ready m hm).2.symm) hu.busy hu.plain
    (fun x hx => List.mem_erase_of_ne hx) (h.nodup.erase m) ?_ (fun hin => absurd hin hout)
    (fun _ => hu.delayed) hw
  have hlen := List.length_erase_of_mem hm
  have hpos := List.length_pos_of_mem hm
  rw [h.freeCount]
  omega

theorem takeFree_cases (hs : s.takeFree m = some s') : m ∈ s.free ∧ (s.page m).allocCheck ∧
    s' = { s with free := s.free.erase m, freeCount := s.freeCount - 1 } := by
  unfold takeFree at hs
  split at hs
  next hm =>
    cases hs
    exact ⟨hm.1, hm.2, rfl⟩
  next => cases hs

theorem setPage_page (s : PageLife) (m : Nat) (p : Page) : (s.setPage m p).page m = p :=
  Vm.setPage_page_self ..

end PageLife

/-- The page that vm_page_alloc hands out. -/
theorem AllocReq.init_inUse {req : AllocReq} {p : Page} (hreq : req.consistent)
    (ho : req.object = none) : PageLife.InUse (req.init p) := by
  refine ⟨fun _ hb => ?_, fun _ => rfl, fun hu => Bool.noConfusion hu⟩
  have hsb := hreq.1 ho
  unfold AllocReq.init AllocReq.busyLock at hb
  simp [ho, hsb] at hb

namespace PageLife

variable {n m : Nat} {s s' : PageLife}

theorem wired_alloc (p p' : Page) (wired : Bool) (w : Int) (hp : p.wireCount = 0)
    (hf : p'.fictitious = false) (hp' : p'.wireCount = if wired then 1 else p.wireCount) :
    (if wired = true then w + 1 else w) =
      w + (if p'.Wired then 1 else 0) - if p.Wired then 1 else 0 := by
  have hno : ¬p.Wired := fun h => h.2 hp
  have hiff : p'.Wired ↔ wired = true := by
    unfold Page.Wired
    rw [hf, hp', hp]
    cases wired <;> simp
  simp only [hno, hiff, if_false]
  split <;> omega

theorem Sound.alloc {req : AllocReq} {inserted : Bool} (h : s.Sound n)
    (hs : s.alloc m req inserted = some s') : s'.Sound n := by
  unfold PageLife.alloc at hs
  split at hs
  next hreq =>
    obtain ⟨s₁, h₁, he⟩ := Option.bind_eq_some_iff.mp hs
    obtain ⟨hm, hcheck, rfl⟩ := takeFree_cases h₁
    have hdelta := fun p' => wired_alloc (s.page m) p' req.wired s.wireCount hcheck.2.2.1
    simp only [PageLife.setPage, PageLife.page, Vm.setPage_setPage, Vm.setPage_page_self] at he
    split at he
    next ho =>
      cases he
      exact h.take hm rfl (AllocReq.init_inUse hreq ho) (hdelta _ rfl rfl)
    next o ho =>
      split at he
      next =>
        obtain ⟨attr, hattr⟩ := Page.inheritMemattr_eq
          { req.init (s.vm.page m) with object := some o } (s.vm.object o)
        have hobj : ∀ p, (s.vm.setPage m p).object o = s.vm.object o := fun _ => rfl
        rw [hobj, hattr] at he
        cases he
        exact h.take hm rfl
          ⟨fun _ _ => Option.some_ne_none o, fun _ => rfl, fun hu => Bool.noConfusion hu⟩
          (hdelta _ rfl rfl)
      next =>
        -- the insertion failed, and the page goes back
        have hw0 : (if req.wired = true then 0 else (req.init (s.vm.page m)).wireCount) = 0 := by
          cases hwd : req.wired with
          | true => rfl
          | false =>
            have : (req.init (s.vm.page m)).wireCount = (s.vm.page m).wireCount := by
              simp [AllocReq.init, hwd]
            rw [this]
            exact hcheck.2.2.1
        have hback : (if req.wired = true then
            (if req.wired = true then s.wireCount + 1 else s.wireCount) - 1
            else if req.wired = true then s.wireCount + 1 else s.wireCount) = s.wireCount := by
          cases req.wired <;> simp
        rw [hback] at he
        have hback := h.take (w := s.wireCount) (p := { req.init (s.vm.page m) with
            wireCount := if req.wired then 0 else (req.init (s.vm.page m)).wireCount
            unmanaged := true
            busyLock := .unbusied }) hm rfl
          ⟨fun _ hb => BusyLock.noConfusion hb, fun _ => rfl, fun hu => Bool.noConfusion hu⟩
          (wired_alloc _ _ false _ hcheck.2.2.1 rfl (hw0.trans hcheck.2.2.1.symm))
        refine (hback.freeToq h.nodup.not_mem_erase (q := { req.init (s.vm.page m) with
            wireCount := if req.wired then 0 else (req.init (s.vm.page m)).wireCount
            unmanaged := true
            busyLock := .unbusied }) ?_ ?_ (fun _ hb => BusyLock.noConfusion hb)
          (fun _ => rfl) ?_).1
        · exact (congrArg Page.fictitious (Vm.setPage_page_self ..)).symm
        · exact (congrArg Page.wireCount (Vm.setPage_page_self ..)).symm
        · simpa only [PageLife.setPage, Vm.setPage_setPage] using he
  next => cases hs

theorem Sound.allocFreelist {wired : Bool} (h : s.Sound n)
    (hs : s.allocFreelist m wired = some s') : s'.Sound n := by
  obtain ⟨s₁, h₁, he⟩ := Option.map_eq_some_iff.mp hs
  obtain ⟨hm, hcheck, rfl⟩ := takeFree_cases h₁
  cases he
  refine h.take hm rfl ⟨fun _ hb => ?_, fun _ => rfl, fun hu => Bool.noConfusion hu⟩
    (wired_alloc _ _ wired _ hcheck.2.2.1 rfl rfl)
  have hfree : (s.page m).busyLock = .exclusive := hb
  rw [hcheck.2.2.2.2.1] at hfree
  exact BusyLock.noConfusion hfree

theorem Sound.free (h : s.Sound n) (hm : m ∉ s.free) (hs : s.freeToq m = some s') :
    s'.Sound n ∧ ∃ p b, s'.vm.page = Function.update s.vm.page m p ∧
      Vm.PreparesFree (s.page m) p b ∧ s'.free = if b = true then m :: s.free else s.free := by
  have hself : s.setPage m (s.page m) = s := by
    unfold PageLife.setPage PageLife.page Vm.setPage
    rw [Function.update_eq_self]
  exact h.freeToq hm rfl rfl (h.busy m) (h.plain m) (hself.symm ▸ hs)

theorem Sound.hold (h : s.Sound n) (hm : m ∉ s.free) (hmax : (s.page m).holdCount ≠ 65535) :
    (s.hold m).Sound n := by
  refine h.setPage hm rfl rfl rfl ⟨h.busy m, h.plain m, fun _ h0 => hmax ?_⟩
  have h1 : (s.page m).holdCount + 1 = 0 := h0
  have h2 : (s.page m).holdCount = 0 - 1 := by rw [← h1, UInt16.add_sub_cancel]
  rw [h2]
  rfl

/-- A page on the free lists is not held, so nobody can let go of it. -/
theorem unhold_cases (h : s.Sound n) (hs : s.unhold m = some s') :
    m ∉ s.free ∧ s'.Sound n ∧ (s.page m).holdCount ≠ 0 ∧
      (((s.page m).holdCount - 1 ≠ 0 ∨ (s.page m).unholdfree = false) ∧
        s' = s.setPage m { s.page m with holdCount := (s.page m).holdCount - 1 } ∨
      (s.page m).holdCount - 1 = 0 ∧ (s.page m).unholdfree = true ∧
        ∃ p b, s'.vm.page = Function.update s.vm.page m p ∧
          Vm.PreparesFree { s.page m with holdCount := (s.page m).holdCount - 1 } p b ∧
          s'.free = if b = true then m :: s.free else s.free) := by
  unfold PageLife.unhold at hs
  split at hs
  next => cases hs
  next hne =>
    have hm : m ∉ s.free := fun hin => hne (h.ready m hin).1.2.2.2.1
    refine ⟨hm, ?_⟩
    simp only [setPage_page] at hs
    split at hs
    next hlast =>
      have hfree := h.freeToq (q := { s.page m with holdCount := (s.page m).holdCount - 1 }) hm
        rfl rfl (h.busy m) (h.plain m) hs
      exact ⟨hfree.1, hne, .inr ⟨hlast.1, hlast.2, hfree.2⟩⟩
    next hlast =>
      cases hs
      have hor : (s.page m).holdCount - 1 ≠ 0 ∨ (s.page m).unholdfree = false := by
        by_cases h0 : (s.page m).holdCount - 1 = 0
        · exact .inr (by simpa [h0] using hlast)
        · exact .inl h0
      refine ⟨h.setPage hm rfl rfl rfl ⟨h.busy m, h.plain m, fun hu => ?_⟩, hne, .inl ⟨hor, rfl⟩⟩
      rcases hor with h0 | hno
      · exact h0
      · exact absurd (hno.symm.trans hu) Bool.noConfusion

theorem Sound.unholdPages {ms : List Nat} (h : s.Sound n) (hs : s.unholdPages ms = some s') :
    s'.Sound n := by
  induction ms generalizing s with
  | nil =>
    cases hs
    exact h
  | cons m ms ih =>
    obtain ⟨s₁, h₁, h₂⟩ := Option.bind_eq_some_iff.mp hs
    exact ih (unhold_cases h h₁).2.1 h₂

theorem Sound.wire (h : s.Sound n) (hm : m ∉ s.free) (hs : s.wire m = some s') : s'.Sound n := by
  obtain ⟨vm, hvm, rfl⟩ := Option.map_eq_some_iff.mp hs
  dsimp only
  rcases Vm.wire_touches hvm with ⟨hf, rfl⟩ | ⟨hf, p, hp, hsame, hw⟩
  · rw [if_neg (fun hc => absurd (hf.symm.trans hc.1) Bool.noConfusion)]
    exact h
  · refine h.change hm hp hsame.fictitious ((h.inUse hm).of_same hsame) ?_
    have hf' : (s.page m).fictitious = false := hf
    have hnew : p.Wired := ⟨hsame.fictitious.trans hf, hw⟩
    rw [if_pos hnew]
    by_cases h0 : (s.page m).wireCount = 0
    · rw [if_pos ⟨hf', h0⟩, if_neg (fun hold => hold.2 h0)]
      omega
    · rw [if_neg (fun hc => h0 hc.2), if_pos ⟨hf', h0⟩]
      omega

theorem sub_one_eq_zero {x : UInt32} : x - 1 = 0 ↔ x = 1 := by
  refine ⟨fun h => ?_, fun h => by rw [h]; rfl⟩
  rw [← UInt32.sub_add_cancel x 1, h]
  rfl

theorem Sound.unwire {queue : Option PageQueue} (h : s.Sound n) (hm : m ∉ s.free)
    (hs : s.unwire m queue = some s') : s'.Sound n := by
  obtain ⟨vm, hvm, rfl⟩ := Option.map_eq_some_iff.mp hs
  dsimp only
  rcases Vm.unwire_touches hvm with ⟨hf, rfl⟩ | ⟨hf, hne, p, hp, hsame, hw⟩
  · rw [if_neg (fun hc => absurd (hf.symm.trans hc.1) Bool.noConfusion)]
    exact h
  · refine h.change hm hp hsame.fictitious ((h.inUse hm).of_same hsame) ?_
    have hold : (s.page m).Wired := ⟨hf, hne⟩
    have hw' : p.wireCount = (s.page m).wireCount - 1 := hw
    rw [if_pos hold]
    by_cases h1 : (s.page m).wireCount = 1
    · rw [if_pos ⟨hf, h1⟩, if_neg (fun hnew => hnew.2 (hw'.trans (sub_one_eq_zero.mpr h1)))]
      omega
    · have hnew : p.Wired := ⟨hsame.fictitious.trans hf,
        fun h0 => h1 (sub_one_eq_zero.mp (hw'.symm.trans h0))⟩
      rw [if_neg (fun hc => h1 hc.2), if_pos hnew]
      omega

theorem Sound.tryToFree {modified : Bool} (h : s.Sound n) (hm : m ∉ s.free)
    (hs : s.tryToFree m modified = some s') : s'.Sound n := by
  unfold PageLife.tryToFree at hs
  dsimp only at hs
  split at hs
  next =>
    cases hs
    exact h
  next =>
    split at hs
    next =>
      cases hs
      exact h.setPage hm rfl rfl rfl ⟨h.busy m, h.plain m, h.delayed m hm⟩
    next => exact (h.free hm hs).1

/-- What one operation does to the free lists and the counts. -/
theorem Sound.next {op : LifeOp} (h : s.Sound n) (hop : op.Proper s)
    (hs : s.next op = some s') : s'.Sound n := by
  cases op with
  | alloc m req inserted => exact h.alloc hs
  | allocFreelist m wired => exact h.allocFreelist hs
  | free m => exact (h.free hop hs).1
  | tryToFree m modified => exact h.tryToFree hop hs
  | hold m =>
    cases hs
    exact h.hold hop.1 hop.2
  | unhold m => exact (unhold_cases h hs).2.1
  | unholdPages ms => exact h.unholdPages hs
  | wire m => exact h.wire hop hs
  | unwire m queue => exact h.unwire hop hs
  | activate m => exact h.queueCall hop (fun _ => Vm.activate_touches) hs
  | deactivate m noreuse => exact h.queueCall hop (fun _ => Vm.deactivateTo_touches) hs
  | launder m => exact h.queueCall hop (fun _ => Vm.launder_touches) hs
  | requeue m => exact h.queueCall hop (fun _ => Vm.requeue_touches) hs
  | insert m o =>
    cases hs
    exact h.setPage hop rfl rfl rfl
      ⟨fun _ _ => Option.some_ne_none o, h.plain m, h.delayed m hop⟩
  | remove m =>
    cases hs
    obtain ⟨hf, hw, hu⟩ := (h.inUse hop).remove
    exact h.setPage hop rfl hf hw hu
  | busy m b =>
    cases hs
    exact h.setPage hop.1 rfl rfl rfl ⟨fun _ hb => hop.2 hb, h.plain m, h.delayed m hop.1⟩
  | contents m valid dirty =>
    cases hs
    exact h.setPage hop rfl rfl rfl ⟨h.busy m, h.plain m, h.delayed m hop⟩
  | memattr m attr =>
    cases hs
    exact h.setPage hop rfl rfl rfl ⟨h.busy m, h.plain m, h.delayed m hop⟩

theorem boot_sound (n : Nat) (domain : Nat → Nat) (object : Nat → VmObject) (clock : Nanotime) :
    (boot n domain object clock).Sound n := by
  have hpage : ∀ m, (boot n domain object clock).page m =
      if m < n then initPage (domain m) else initFake (domain m) vmMemattrDefault := by
    intro m
    unfold boot page Vm.boot
    dsimp only
    split
    next => rfl
    next => rfl
  refine ⟨List.nodup_range, (by simp [boot]), fun m hm => ?_, fun m hm => ?_, ?_, fun m => ?_,
    fun m => ?_, fun m hm => ?_⟩
  · rw [hpage, if_pos (List.mem_range.mp hm)]
    exact ⟨⟨rfl, rfl, rfl, rfl, rfl, rfl, rfl, rfl⟩, rfl⟩
  · rw [hpage, if_neg (Nat.not_lt.mpr hm)]
    rfl
  · have hnone : wiredPages n (boot n domain object clock).vm.page = ∅ := by
      refine Finset.filter_eq_empty_iff.mpr fun m hm hw => ?_
      have hp := hpage m
      rw [if_pos (Finset.mem_range.mp hm)] at hp
      exact hw.2 (congrArg Page.wireCount hp)
    rw [hnone]
    rfl
  · rw [hpage]
    split
    next => exact fun _ hb => BusyLock.noConfusion hb
    next => exact fun hf => Bool.noConfusion hf
  · rw [hpage]
    split
    next => exact fun _ => rfl
    next => exact fun _ => rfl
  · rw [hpage, if_neg (fun hlt => hm (List.mem_range.mpr hlt))]
    exact fun hu => Bool.noConfusion hu

theorem LifeRun.sound {n : Nat} {s₀ s : PageLife} {h : List (LifeOp × Unit)}
    {ok : List (LifeOp × Unit) → PageLife → LifeOp → Prop} (h0 : s₀.Sound n)
    (hok : ∀ h s op, ok h s op → op.Proper s) (hr : LifeRun ok s₀ h s) : s.Sound n := by
  unfold LifeRun at hr
  refine GuardedRun.invariant (P := fun _ s => s.Sound n) h0 (fun h s op s' r _ hs hop hstep => ?_) hr
  obtain ⟨s₁, h₁, he⟩ := Option.map_eq_some_iff.mp hstep
  cases he
  exact hs.next (hok h s op hop) h₁

theorem freeToq_isSome {s : PageLife} {m : Nat} {p : Page} (hp : s.page m = p)
    (hq : p.queue = none) (hw : p.wireCount = 0) (hf : p.fictitious = false)
    (hb : p.busyLock = .unbusied) (hh : p.holdCount = 0) : (s.freeToq m).isSome := by
  subst hp
  obtain ⟨r, hr, _⟩ := Option.map_eq_some_iff.mp (Vm.free_off hq hw hf hb hh)
  unfold PageLife.freeToq
  rw [hr]
  rfl

/-- Every page on the free lists can be handed out, whether it is then inserted or not. -/
theorem Sound.alloc_isSome {n m : Nat} {s : PageLife} {req : AllocReq} (inserted : Bool)
    (h : s.Sound n) (hm : m ∈ s.free) (hreq : req.consistent) :
    (s.alloc m req inserted).isSome := by
  obtain ⟨hcheck, hf⟩ := h.ready m hm
  have htake : s.takeFree m =
      some { s with free := s.free.erase m, freeCount := s.freeCount - 1 } := by
    unfold takeFree
    rw [if_pos ⟨hm, hcheck⟩]
  unfold PageLife.alloc
  rw [if_pos hreq, htake, Option.bind_some]
  dsimp only
  split
  next => rfl
  next =>
    split
    next => rfl
    next =>
      simp only [PageLife.setPage, PageLife.page, Vm.setPage_setPage, Vm.setPage_page_self]
      refine freeToq_isSome (Vm.setPage_page_self ..) hcheck.2.1 ?_ rfl rfl hcheck.2.2.2.1
      cases hwd : req.wired with
      | true => rfl
      | false =>
        have : (req.init (s.vm.page m)).wireCount = (s.vm.page m).wireCount := by
          simp [AllocReq.init, hwd]
        exact this.trans hcheck.2.2.1

end PageLife

/-- Whatever was done to the pages since the boot, the counts of free and of wired pages are exact,
no page is free twice, and every free page passes vm_page_alloc_check: handing it out, and taking
it back when it cannot be inserted, fails no assertion. -/
theorem free_pages_ready {n : Nat} {domain : Nat → Nat} {object : Nat → VmObject}
    {clock : Nanotime} {h : List (LifeOp × Unit)} {s : PageLife}
    (hr : LifeRun properLife (.boot n domain object clock) h s) :
    s.freeCount = s.free.length ∧ s.free.Nodup ∧ s.wireCount = (wiredPages n s.page).card ∧
      ∀ m ∈ s.free, (s.page m).allocCheck ∧ ∀ req inserted, req.consistent →
        (s.next (.alloc m req inserted)).isSome := by
  have hs := PageLife.LifeRun.sound (PageLife.boot_sound n domain object clock)
    (fun _ _ _ hop => hop) hr
  exact ⟨hs.freeCount, hs.nodup, hs.wired, fun m hm =>
    ⟨(hs.ready m hm).1, fun _ inserted hreq => hs.alloc_isSome inserted hm hreq⟩⟩

/-- The pages of object 7 are mapped uncached. -/
def uncachedSeventh (o : Nat) : VmObject where
  refCount := 1
  dead := false
  fictitious := false
  memattr := if o = 7 then 0 else vmMemattrDefault

/-- A wired and uncached page is held and let go of, and can be handed out again. -/
theorem free_pages_ready_wired : ∃ h s,
    LifeRun properLife (.boot 2 (fun _ => 0) uncachedSeventh ⟨0, 0⟩) h s ∧ h.length = 6 ∧
      s.wireCount = (wiredPages 2 s.page).card ∧ (s.page 0).allocCheck := by
  obtain ⟨h, s, hr, hc⟩ := lifeRun_of_replay properLife (.boot 2 (fun _ => 0) uncachedSeventh ⟨0, 0⟩)
    [.alloc 0 ⟨some 7, false, false, false, true⟩ true, .allocFreelist 1 true, .hold 0,
      .unwire 0 (some .active), .free 0, .unhold 0]
    (fun h s => h.length = 6 ∧ 0 ∈ s.free) (by decide)
  obtain ⟨hlen, hfree⟩ := of_decide_eq_true hc
  obtain ⟨-, -, hwired, hready⟩ := free_pages_ready hr
  exact ⟨h, s, hr, hlen, hwired, (hready 0 hfree).1⟩

end FreeBSDEdits
