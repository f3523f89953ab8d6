import FreeBSDEdits.PageSweep

namespace FreeBSDEdits

namespace ActiveScan

/-- The shortage that is left when a page has been met. -/
def meet (weight short : Int) (p : Page) : Int :=
  if short ≤ 0 then short else if p.dirty = 0 then short - weight else short - 1

/-- The queue for a page that is met with this shortage left. -/
def target (short : Int) (p : Page) : PageQueue :=
  if p.dirty ≠ 0 ∧ 0 < short then .laundry else .inactive

/-- The shortage behind part of the queue. -/
def shortageAfter (page : Nat → Page) (weight : Int) : Int → List Link → Int
  | short, [] => short
  | short, .page m :: l => shortageAfter page weight (meet weight short (page m)) l
  | short, _ :: l => shortageAfter page weight short l

/-- What is taken off part of the queue. -/
def takings (page : Nat → Page) (weight : Int) : Int → List Link → List Taken
  | _, [] => []
  | short, .page m :: l =>
    ⟨m, { page m with queue := some (target short (page m)) }, false⟩ ::
      takings page weight (meet weight short (page m)) l
  | short, _ :: l => takings page weight short l

/-- The test of the loop. -/
def Continues (s : ActiveScan) (minScan maxScan : Int) : Prop :=
  s.next ≠ none ∧ (s.scanned < minScan ∨ s.inactqShortage > 0 ∧ s.scanned < maxScan)

variable {s : ActiveScan} {m d : Nat} {w : Visit} {weight minScan maxScan : Int}

theorem target_ne_active (short : Int) (p : Page) : target short p ≠ .active := by
  unfold target
  split <;> simp

/-- A page in hand is dequeued and queued again; none is lost. -/
theorem take_eq (weight : Int) (hp : (s.vm.page m).Lined d .active) : ∃ v',
    s.vm.Takes d .active
      ⟨m, { s.vm.page m with queue := some (target s.inactqShortage (s.vm.page m)) }, false⟩ v' ∧
    s.take m weight = some ⟨v', s.next, s.scanned, meet weight s.inactqShortage (s.vm.page m)⟩ := by
  obtain ⟨v₁, hv₁, hu⟩ := Vm.dequeueLocked_some hp.queue
  have hpage : v₁.page m = { s.vm.page m with queue := none } := by
    rw [hu.page, Function.update_self]
  have hset : v₁.setPage m (v₁.page m) = v₁ := by simp [Vm.setPage]
  have htail : ∀ k : PageQueue, k ≠ .active →
      s.vm.Takes d .active ⟨m, { s.vm.page m with queue := some k }, false⟩
        (vmPageEnqueue v₁ k m) := by
    intro k hk
    have ht := hu.takes_tail hp.home (p := v₁.page m) (by rw [hpage]) hk
    rw [hset, hpage] at ht
    exact ht
  have hoff : (v₁.page m).queue = none ∧ (v₁.page m).wireCount = 0 ∧
      (v₁.page m).unmanaged = false ∧ (v₁.page m).dirty = (s.vm.page m).dirty := by
    rw [hpage]
    exact ⟨rfl, hp.wireCount, hp.unmanaged, rfl⟩
  obtain ⟨hq, hw, hm, hdirty⟩ := hoff
  have hdeact := Vm.deactivate_off hq hw hm
  have hlaunder := Vm.launder_off hq hw hm
  refine ⟨_, htail _ (target_ne_active _ _), ?_⟩
  unfold take
  rw [hv₁, Option.bind_some, hdirty, hdeact, hlaunder]
  by_cases hshort : s.inactqShortage ≤ 0
  · have hnot : ¬((s.vm.page m).dirty ≠ 0 ∧ 0 < s.inactqShortage) := by omega
    rw [if_pos hshort, target, if_neg hnot, meet, if_pos hshort]
    rfl
  · by_cases hclean : (s.vm.page m).dirty = 0
    · rw [if_neg hshort, if_pos hclean, target, if_neg (by simp [hclean]), meet, if_neg hshort,
        if_pos hclean]
      rfl
    · rw [if_neg hshort, if_neg hclean, target, if_pos ⟨hclean, by omega⟩, meet, if_neg hshort,
        if_neg hclean]
      rfl

theorem visit_takes (weight : Int) (hp : (s.vm.page m).Lined d .active)
    (hw : w.pageLock = none) : ∃ v',
    s.vm.Takes d .active
      ⟨m, { s.vm.page m with queue := some (target s.inactqShortage (s.vm.page m)) }, false⟩ v' ∧
    s.visit m weight w =
      some ⟨v', s.next, s.scanned, meet weight s.inactqShortage (s.vm.page m)⟩ := by
  obtain ⟨v', ht, htake⟩ := take_eq weight hp
  refine ⟨v', ht, ?_⟩
  unfold visit vmPageoutPageLock
  rw [hw, if_neg (by simp [hp.queue, hp.fictitious, hp.unmanaged])]
  exact htake

theorem shortageAfter_congr {page page' : Nat → Page} {l : List Link}
    (h : ∀ x ∈ linkPages l, page' x = page x) (short : Int) :
    shortageAfter page' weight short l = shortageAfter page weight short l := by
  induction l generalizing short with
  | nil => rfl
  | cons x l ih =>
    cases x with
    | page m =>
      rw [linkPages_page] at h
      rw [shortageAfter, shortageAfter, h m List.mem_cons_self]
      exact ih (fun x hx => h x (List.mem_cons_of_mem _ hx)) _
    | marker | inacthead | lockMarker => exact ih h short

theorem takings_congr {page page' : Nat → Page} {l : List Link}
    (h : ∀ x ∈ linkPages l, page' x = page x) (short : Int) :
    takings page' weight short l = takings page weight short l := by
  induction l generalizing short with
  | nil => rfl
  | cons x l ih =>
    cases x with
    | page m =>
      rw [linkPages_page] at h
      rw [takings, takings, h m List.mem_cons_self,
        ih (fun x hx => h x (List.mem_cons_of_mem _ hx))]
    | marker | inacthead | lockMarker => exact ih h short

/-- The scan after a part of the queue, with the rest before it. -/
def behind (s : ActiveScan) (weight : Int) (front back : List Link) (v : Vm) : ActiveScan where
  vm := v
  next := back.head?
  scanned := s.scanned + front.length
  inactqShortage := shortageAfter s.vm.page weight s.inactqShortage front

theorem behind_nil {rest : List Link} (hnext : s.next = rest.head?) :
    s.behind weight [] rest s.vm = s := by
  unfold behind
  rw [← hnext]
  simp [shortageAfter]

section

variable {front : List Link} (back : List Link) {v v₁ : Vm} {next : Option Link} {x : Link}

theorem behind_marker (hx : x.toPage = none) :
    behind ⟨s.vm, next, s.scanned + 1, s.inactqShortage⟩ weight front back v =
      s.behind weight (x :: front) back v := by
  have hcount : s.scanned + 1 + (front.length : Int) = s.scanned + (x :: front).length := by
    rw [List.length_cons]
    omega
  cases x with
  | page m => cases hx
  | marker | inacthead | lockMarker =>
    unfold behind
    rw [hcount]
    rfl

theorem behind_page (hsame : ∀ x ∈ linkPages front, v₁.page x = s.vm.page x) :
    behind ⟨v₁, next, s.scanned + 1, meet weight s.inactqShortage (s.vm.page m)⟩ weight front back
      v = s.behind weight (.page m :: front) back v := by
  have hcount : s.scanned + 1 + (front.length : Int) =
      s.scanned + (Link.page m :: front).length := by
    rw [List.length_cons]
    omega
  unfold behind
  rw [hcount, shortageAfter_congr hsame]
  rfl

variable {n : Nat} {visits : List Visit}

theorem loop_stop (hstop : ¬s.Continues minScan maxScan) :
    loop d minScan maxScan weight n visits s = some s := by
  cases n with
  | zero => rfl
  | succ n =>
    unfold loop
    split
    next => rfl
    next x hx => rw [if_neg (fun hgo => hstop ⟨by simp [hx], hgo⟩)]

theorem loop_marker (hgo : s.Continues minScan maxScan) (hx : s.next = some x)
    (hm : x.toPage = none) : loop d minScan maxScan weight (n + 1) visits s =
      loop d minScan maxScan weight n visits.tail
        ⟨s.vm, TailQueue.next (s.vm.queue d .active).pl x, s.scanned + 1, s.inactqShortage⟩ := by
  rw [loop, hx]
  simp only [if_pos hgo.2]
  cases x with
  | page m => cases hm
  | marker | inacthead | lockMarker => rfl

theorem loop_page (hgo : s.Continues minScan maxScan) (hx : s.next = some (.page m)) :
    loop d minScan maxScan weight (n + 1) visits s =
      (visit { s with next := TailQueue.next (s.vm.queue d .active).pl (.page m) } m weight
        (visits.headD .plain)).bind fun s =>
          loop d minScan maxScan weight n visits.tail { s with scanned := s.scanned + 1 } := by
  rw [loop, hx]
  simp only [if_pos hgo.2]

end

/-- The loop takes a prefix of `rest`; it stops by its own test if it has turns left. -/
def TakesPrefix (s : ActiveScan) (d : Nat) (minScan maxScan weight : Int) (n : Nat)
    (visits : List Visit) (rest : List Link) : Prop :=
  ∃ front back v', rest = front ++ back ∧ front.length ≤ n ∧
    Vm.Sweeps d .active (takings s.vm.page weight s.inactqShortage front) s.vm v' ∧
    loop d minScan maxScan weight n visits s = some (s.behind weight front back v') ∧
    (front.length < n → ¬(s.behind weight front back v').Continues minScan maxScan)

theorem TakesPrefix.stop {n : Nat} {visits : List Visit} {rest : List Link}
    (hnext : s.next = rest.head?) (hstop : n = 0 ∨ ¬s.Continues minScan maxScan) :
    s.TakesPrefix d minScan maxScan weight n visits rest := by
  refine ⟨[], rest, s.vm, rfl, Nat.zero_le n, .nil _, ?_, fun hlt => ?_⟩
  · rw [behind_nil hnext]
    rcases hstop with rfl | hstop
    · rfl
    · exact loop_stop hstop
  · rw [behind_nil hnext]
    exact hstop.resolve_left (Nat.ne_of_gt hlt)

/-- A marker counts as scanned and stays. -/
theorem TakesPrefix.marker {n : Nat} {visits : List Visit} {rest : List Link} {x : Link}
    (hgo : s.Continues minScan maxScan) (hx : s.next = some x) (hm : x.toPage = none)
    (hr : TakesPrefix ⟨s.vm, TailQueue.next (s.vm.queue d .active).pl x, s.scanned + 1,
      s.inactqShortage⟩ d minScan maxScan weight n visits.tail rest) :
    s.TakesPrefix d minScan maxScan weight (n + 1) visits (x :: rest) := by
  obtain ⟨front, back, v', hsplit, hlen, hsweep, hloop, hstop⟩ := hr
  rw [behind_marker back hm] at hloop hstop
  refine ⟨x :: front, back, v', by rw [hsplit]; rfl, Nat.succ_le_succ hlen, ?_, ?_,
    fun hlt => hstop (Nat.lt_of_succ_lt_succ hlt)⟩
  · cases x with
    | page m => cases hm
    | marker | inacthead | lockMarker => exact hsweep
  · rw [loop_marker hgo hx hm, hloop]

/-- A page is taken off the queue and the scan goes on behind it. -/
theorem TakesPrefix.page {n : Nat} {visits : List Visit} {rest : List Link} {v₁ : Vm}
    (hgo : s.Continues minScan maxScan) (hx : s.next = some (.page m)) (hm : .page m ∉ rest)
    (hnext : TailQueue.next (s.vm.queue d .active).pl (.page m) = rest.head?)
    (ht : s.vm.Takes d .active
      ⟨m, { s.vm.page m with queue := some (target s.inactqShortage (s.vm.page m)) }, false⟩ v₁)
    (hvisit : visit { s with next := rest.head? } m weight (visits.headD .plain) =
      some ⟨v₁, rest.head?, s.scanned, meet weight s.inactqShortage (s.vm.page m)⟩)
    (hr : TakesPrefix ⟨v₁, rest.head?, s.scanned + 1, meet weight s.inactqShortage (s.vm.page m)⟩
      d minScan maxScan weight n visits.tail rest) :
    s.TakesPrefix d minScan maxScan weight (n + 1) visits (.page m :: rest) := by
  obtain ⟨front, back, v', hsplit, hlen, hsweep, hloop, hstop⟩ := hr
  have hsame : ∀ x ∈ linkPages front, v₁.page x = s.vm.page x := by
    intro x hin
    refine ht.of_ne (show x ≠ m from fun he => hm ?_)
    rw [hsplit, ← he]
    exact List.mem_append_left _ (mem_linkPages.mp hin)
  rw [behind_page back hsame] at hloop hstop
  refine ⟨.page m :: front, back, v', by rw [hsplit]; rfl, Nat.succ_le_succ hlen, ?_, ?_,
    fun hlt => hstop (Nat.lt_of_succ_lt_succ hlt)⟩
  · rw [takings_congr hsame] at hsweep
    exact .cons ht hsweep
  · rw [loop_page hgo hx, hnext, hvisit]
    exact hloop

theorem loop_takes_prefix {n : Nat} {visits : List Visit} (hw : ∀ w ∈ visits, w.pageLock = none)
    (hv : s.vm.Lined d .active) {keep rest : List Link}
    (hpl : (s.vm.queue d .active).pl = keep ++ rest) (hnext : s.next = rest.head?) :
    s.TakesPrefix d minScan maxScan weight n visits rest := by
  induction n generalizing visits s keep rest with
  | zero => exact .stop hnext (Or.inl rfl)
  | succ n ih =>
    by_cases hgo : s.Continues minScan maxScan
    · cases rest with
      | nil => exact absurd hnext hgo.1
      | cons x rest =>
        have htail : ∀ w ∈ visits.tail, w.pageLock = none := fun w hm =>
          hw w (List.mem_of_mem_tail hm)
        obtain ⟨hx, hrest⟩ := hv.not_mem_around hpl
        have hbehind : TailQueue.next (s.vm.queue d .active).pl x = rest.head? := by
          rw [hpl]
          exact TailQueue.next_append hx
        cases x with
        | marker | inacthead | lockMarker =>
          have hpl₁ : (s.vm.queue d .active).pl = (keep ++ [_]) ++ rest :=
            hpl.trans (List.append_assoc keep [_] rest).symm
          exact .marker hgo hnext rfl
            (ih (s := ⟨s.vm, _, s.scanned + 1, s.inactqShortage⟩) htail hv hpl₁ hbehind)
        | page m =>
          have hp := hv.mem hpl
          obtain ⟨v₁, ht, hvisit⟩ := visit_takes (s := { s with next := rest.head? }) weight
            hp (Visit.pageLock_headD hw)
          have hpl₁ : (v₁.queue d .active).pl = keep ++ rest := by
            rw [ht.here, hpl]
            show (keep ++ .page m :: rest).erase (.page m) = _
            rw [List.erase_append_right _ hx, List.erase_cons_head]
          exact .page hgo hnext hrest hbehind ht hvisit (ih htail (ht.lined hv) hpl₁ rfl)
    · exact .stop hnext (Or.inr hgo)

/-- More turns make no difference to a loop that has stopped by its own test. -/
theorem loop_more {n j : Nat} {visits : List Visit} {r : ActiveScan}
    (hs : loop d minScan maxScan weight n visits s = some r)
    (hstop : ¬r.Continues minScan maxScan) :
    loop d minScan maxScan weight (n + j) visits s = some r := by
  induction n generalizing visits s with
  | zero =>
    cases hs
    exact loop_stop hstop
  | succ n ih =>
    rw [Nat.succ_add]
    by_cases hgo : s.Continues minScan maxScan
    · cases hx : s.next with
      | none => exact absurd hx hgo.1
      | some x =>
        cases x with
        | page m =>
          rw [loop_page hgo hx] at hs ⊢
          obtain ⟨s₁, h₁, hs⟩ := Option.bind_eq_some_iff.mp hs
          rw [h₁]
          exact ih hs
        | marker | inacthead | lockMarker =>
          rw [loop_marker hgo hx rfl] at hs ⊢
          exact ih hs
    · rw [loop_stop hgo] at hs ⊢
      exact hs

theorem takings_pages (page : Nat → Page) (weight short : Int) (l : List Link) :
    (takings page weight short l).map Taken.page = linkPages l := by
  induction l generalizing short with
  | nil => rfl
  | cons x l ih =>
    cases x with
    | page m =>
      rw [takings, List.map_cons, linkPages_page, ih]
    | marker | inacthead | lockMarker => exact ih short

theorem takings_links (page : Nat → Page) (weight short : Int) (l : List Link) :
    (takings page weight short l).map Taken.link = (linkPages l).map .page := by
  rw [← takings_pages page weight short, List.map_map]
  rfl

/-- Each page is taken with the shortage that is left when it is reached. -/
theorem takings_append (page : Nat → Page) (weight short : Int) (l l' : List Link) :
    takings page weight short (l ++ l') = takings page weight short l ++
      takings page weight (shortageAfter page weight short l) l' := by
  induction l generalizing short with
  | nil => rfl
  | cons x l ih =>
    cases x with
    | page m =>
      rw [List.cons_append, takings, ih]
      rfl
    | marker | inacthead | lockMarker => exact ih short

/-- The pages of part of the queue that go to queue `k`. -/
def sentTo (page : Nat → Page) (weight short : Int) (k : PageQueue) (l : List Link) : List Link :=
  ((takings page weight short l).filter (fun t => t.state.queue = some k)).map Taken.link

/-- What the scan of the active queue of domain `d` does. -/
structure Outcome (v : Vm) (d : Nat) (minScan short weight : Int) (front back : List Link)
    (r : ActiveScan) : Prop where
  split : (v.queue d .active).pl = front ++ back
  /-- the turns of the loop, and why there are no more -/
  scanned : r.scanned = front.length
  bound : front.length ≤ (max minScan (v.queue d .active).cnt).toNat
  next : r.next = back.head?
  stopped : ¬r.Continues minScan (v.queue d .active).cnt
  active : r.vm.queue d .active =
    ⟨front.filter (fun x => x.toPage = none) ++ back,
      (v.queue d .active).cnt - (linkPages front).length⟩
  inactive : (r.vm.queue d .inactive).pl =
    (v.queue d .inactive).pl ++ sentTo v.page weight short .inactive front
  laundry : (r.vm.queue 0 .laundry).pl =
    (v.queue 0 .laundry).pl ++ sentTo v.page weight short .laundry front
  queues : ∀ d' k, ¬(d' = d ∧ k ≠ .laundry) → ¬(d' = 0 ∧ k = .laundry) →
    r.vm.queue d' k = v.queue d' k
  page : ∀ l m l', front = l ++ .page m :: l' → r.vm.page m = { v.page m with
    queue := some (target (shortageAfter v.page weight short l) (v.page m)) }
  pages : ∀ m ∉ linkPages front, r.vm.page m = v.page m
  shortage : r.inactqShortage = shortageAfter v.page weight short front

theorem mem_takings {page : Nat → Page} {short : Int} {l : List Link} {t : Taken}
    (ht : t ∈ takings page weight short l) : ∃ m ∈ linkPages l, ∃ left : Int,
      t = ⟨m, { page m with queue := some (target left (page m)) }, false⟩ := by
  induction l generalizing short with
  | nil => cases ht
  | cons x l ih =>
    cases x with
    | page m =>
      rw [linkPages_page]
      rcases List.mem_cons.mp ht with rfl | ht
      · exact ⟨m, List.mem_cons_self, short, rfl⟩
      · obtain ⟨n, hn, left, he⟩ := ih ht
        exact ⟨n, List.mem_cons_of_mem _ hn, left, he⟩
    | marker | inacthead | lockMarker => exact ih ht

section

variable {v v' : Vm} {short : Int} {front back : List Link}

/-- What is known of a page once it is taken. -/
theorem takings_home (hv : v.Lined d .active) (hpl : (v.queue d .active).pl = front ++ back)
    {t : Taken} (ht : t ∈ takings v.page weight short front) :
    t.state.home .inactive = d ∧ t.state.queue ≠ some .active := by
  obtain ⟨m, hm, left, rfl⟩ := mem_takings ht
  have hin := (hv.front_pages hpl).2 m hm
  refine ⟨(hv.page m hin).home, fun hc => ?_⟩
  exact target_ne_active _ _ (Option.some.inj hc)

theorem sent_eq (hv : v.Lined d .active) (hpl : (v.queue d .active).pl = front ++ back)
    (k : PageQueue) : ((takings v.page weight short front).filter
      (Taken.SentTo (if k = .laundry then 0 else d) k ·)).map Taken.link =
        sentTo v.page weight short k front := by
  unfold sentTo
  congr 1
  refine List.filter_congr (fun t ht =>
    decide_eq_decide.mpr ⟨fun hs => hs.1, fun hq => ⟨hq, ?_⟩⟩)
  obtain ⟨hd, -⟩ := takings_home hv hpl ht
  change t.state.domain = d at hd
  unfold Page.home
  rw [hd]

theorem not_sent (hv : v.Lined d .active) (hpl : (v.queue d .active).pl = front ++ back)
    {d' : Nat} {k : PageQueue} (hin : ¬(d' = d ∧ k ≠ .laundry))
    (hla : ¬(d' = 0 ∧ k = .laundry)) :
    (takings v.page weight short front).filter (Taken.SentTo d' k ·) = [] := by
  refine List.filter_eq_nil_iff.mpr (fun t ht hs => ?_)
  obtain ⟨hq, hd'⟩ := of_decide_eq_true hs
  obtain ⟨hd, -⟩ := takings_home hv hpl ht
  change t.state.domain = d at hd
  unfold Page.home at hd'
  split at hd'
  next hk => exact hla ⟨hd'.symm, hk⟩
  next hk => exact hin ⟨hd'.symm.trans hd, hk⟩

theorem Outcome.of_sweeps {minScan : Int} (hv : v.Lined d .active)
    (hpl : (v.queue d .active).pl = front ++ back)
    (hlen : front.length ≤ (max minScan (v.queue d .active).cnt).toNat)
    (hs : Vm.Sweeps d .active (takings v.page weight short front) v v')
    (hstop : ¬(behind ⟨v, (v.queue d .active).pl.head?, 0, short⟩ weight front back v').Continues
      minScan (v.queue d .active).cnt) :
    Outcome v d minScan short weight front back
      (behind ⟨v, (v.queue d .active).pl.head?, 0, short⟩ weight front back v') := by
  have hpages := takings_pages v.page weight short front
  have hnodup := (hv.front_pages hpl).1
  rw [← hpages] at hnodup
  refine ⟨hpl, Int.zero_add _, hlen, rfl, hstop, ?_, ?_, ?_, fun d' k hin hla => ?_,
    fun l m l' he => ?_, fun m hm => ?_, rfl⟩
  · have hn := hv.nodup
    rw [hpl] at hn
    have hcount : (takings v.page weight short front).length = (linkPages front).length := by
      rw [← hpages, List.length_map]
    change v'.queue d .active = _
    rw [hs.here, hpl, takings_links, diff_front hn (fun m hm => hm), hcount]
    congr 2
    exact List.filter_congr (fun x hx => decide_eq_decide.mpr (not_mem_map_page hx))
  · change (v'.queue d .inactive).pl = _
    rw [hs.there (by simp), ← sent_eq hv hpl]
    rfl
  · change (v'.queue 0 .laundry).pl = _
    rw [hs.there (by simp), ← sent_eq hv hpl]
    rfl
  · change v'.queue d' k = _
    by_cases hact : d' = d ∧ k = .active
    · exact absurd ⟨hact.1, by rw [hact.2]; simp⟩ hin
    · rw [hs.there hact, not_sent hv hpl hin hla]
      simp
  · have ht : ⟨m, { v.page m with
        queue := some (target (shortageAfter v.page weight short l) (v.page m)) }, false⟩ ∈
          takings v.page weight short front := by
      rw [he, takings_append]
      exact List.mem_append_right _ List.mem_cons_self
    exact hs.taken hnodup ht
  · rw [← hpages] at hm
    exact hs.other hm

end

end ActiveScan

/-- The scan of the active queue takes the pages of a prefix off it and queues all of them again. -/
theorem active_scan_takes_prefix {v : Vm} {d : Nat} (hv : v.Lined d .active) {visits : List Visit}
    (hw : ∀ w ∈ visits, w.pageLock = none) (minScan short weight : Int) :
    ∃ front back r, activeScan v d minScan short weight visits = some r ∧
      ActiveScan.Outcome v d minScan short weight front back r ∧
      ∀ n, (max minScan (v.queue d .active).cnt).toNat ≤ n →
        ActiveScan.loop d minScan (v.queue d .active).cnt weight n visits
          ⟨v, (v.queue d .active).pl.head?, 0, short⟩ = some r := by
  obtain ⟨front, back, v', hpl, hlen, hsweep, hloop, hstop⟩ : ActiveScan.TakesPrefix
      ⟨v, (v.queue d .active).pl.head?, 0, short⟩ d minScan (v.queue d .active).cnt weight
      (max minScan (v.queue d .active).cnt).toNat visits (v.queue d .active).pl :=
    ActiveScan.loop_takes_prefix hw hv (List.nil_append _).symm rfl
  generalize hr : ActiveScan.behind ⟨v, (v.queue d .active).pl.head?, 0, short⟩ weight front back
    v' = r at hloop hstop
  have hend : ¬r.Continues minScan (v.queue d .active).cnt := by
    by_cases hlt : front.length < (max minScan (v.queue d .active).cnt).toNat
    · exact hstop hlt
    · rintro ⟨-, hgo⟩
      have hscanned : r.scanned = front.length := by
        rw [← hr]
        exact Int.zero_add _
      omega
  refine ⟨front, back, r, hloop, ?_, fun n hn => ?_⟩
  · subst hr
    exact .of_sweeps hv hpl hlen hsweep hend
  · obtain ⟨j, rfl⟩ := Nat.exists_eq_add_of_le hn
    exact ActiveScan.loop_more hloop hend

def evenDirty (m : Nat) : Page := { plainPage with dirty := if m % 2 = 0 then 1 else 0 }

/-- A clean page, a marker and a dirty page meet the shortage; the dirty page 4 comes too late. -/
theorem active_scan_takes_prefix_marked : ∃ front back r,
    activeScan (lineVm 1 .active [.page 1, .marker 7, .page 2, .page 4, .page 3] evenDirty
      (fun _ => plainObject)) 1 4 4 3 [] = some r ∧
    ActiveScan.Outcome (lineVm 1 .active [.page 1, .marker 7, .page 2, .page 4, .page 3] evenDirty
      (fun _ => plainObject)) 1 4 4 3 front back r ∧
    (r.vm.queue 1 .active).pl = [.marker 7, .page 3] ∧
    (r.vm.queue 1 .inactive).pl = [.page 1, .page 4] ∧
    (r.vm.queue 0 .laundry).pl = [.page 2] ∧ r.inactqShortage = 0 := by
  generalize hv : lineVm 1 .active [.page 1, .marker 7, .page 2, .page 4, .page 3] evenDirty
    (fun _ => plainObject) = v
  have hl : v.Lined 1 .active := by
    subst hv
    exact ⟨by decide, by decide⟩
  have hw : ∀ w ∈ ([] : List Visit), w.pageLock = none := fun w hw => absurd hw List.not_mem_nil
  obtain ⟨front, back, r, hr, ho, -⟩ := active_scan_takes_prefix hl hw 4 4 3
  have hrun : (activeScan v 1 4 4 3 []).any (fun r => decide
      ((r.vm.queue 1 .active).pl = [.marker 7, .page 3] ∧
        (r.vm.queue 1 .inactive).pl = [.page 1, .page 4] ∧
        (r.vm.queue 0 .laundry).pl = [.page 2] ∧ r.inactqShortage = 0)) = true := by
    subst hv
    decide +kernel
  rw [hr] at hrun
  exact ⟨front, back, r, hr, ho, of_decide_eq_true hrun⟩

end FreeBSDEdits
