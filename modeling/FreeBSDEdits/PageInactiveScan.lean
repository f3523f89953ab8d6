import FreeBSDEdits.PageFate

namespace FreeBSDEdits

/-- The pages among the elements met, each with what pmap_is_modified says in its turn. -/
def met : List Visit → List Link → List (Nat × Bool)
  | _, [] => []
  | ws, .page m :: l => (m, (ws.headD .plain).modified) :: met ws.tail l
  | ws, _ :: l => met ws.tail l

theorem met_pages (ws : List Visit) (l : List Link) : (met ws l).map Prod.fst = linkPages l := by
  induction l generalizing ws with
  | nil => rfl
  | cons x l ih =>
    cases x with
    | page m => rw [met, List.map_cons, linkPages_page, ih]
    | marker | inacthead | lockMarker => exact ih ws.tail

namespace Vm

variable (v : Vm)

def fate (e : Nat × Bool) : Fate := (v.page e.1).fate v.object e.2

/-- What is taken off the queue; a kept page is not. -/
def taking (e : Nat × Bool) : Option Taken :=
  if v.fate e = .kept then none
  else some ⟨e.1, (v.page e.1).after v.object e.2 (v.fate e), v.fate e = .freed⟩

/-- The pages met that have this fate, in their order. -/
def withFate (f : Fate) (es : List (Nat × Bool)) : List Link :=
  (es.filter (fun e => v.fate e = f)).map fun e => .page e.1

variable {v} {v₁ : Vm} {e : Nat × Bool} {es : List (Nat × Bool)}

theorem fate_congr (ho : v₁.object = v.object) (hp : v₁.page e.1 = v.page e.1) :
    v₁.fate e = v.fate e := by
  unfold fate
  rw [ho, hp]

theorem withFate_congr (ho : v₁.object = v.object) (hp : ∀ e ∈ es, v₁.page e.1 = v.page e.1)
    (f : Fate) : v₁.withFate f es = v.withFate f es := by
  unfold withFate
  congr 1
  exact List.filter_congr (fun e he => by rw [fate_congr ho (hp e he)])

theorem takings_congr (ho : v₁.object = v.object) (hp : ∀ e ∈ es, v₁.page e.1 = v.page e.1) :
    es.filterMap v₁.taking = es.filterMap v.taking := by
  refine List.filterMap_congr (fun e he => ?_)
  unfold taking
  rw [fate_congr ho (hp e he), hp e he, ho]

theorem withFate_cons (f : Fate) : v.withFate f (e :: es) =
    if v.fate e = f then .page e.1 :: v.withFate f es else v.withFate f es := by
  unfold withFate
  by_cases hf : v.fate e = f
  · rw [List.filter_cons_of_pos (by simpa using hf), if_pos hf, List.map_cons]
  · rw [List.filter_cons_of_neg (by simpa using hf), if_neg hf]

/-- A page that is taken goes to the laundry or to no queue. -/
theorem after_queue (hf : v.fate e ≠ .kept) :
    ((v.page e.1).after v.object e.2 (v.fate e)).queue =
      if v.fate e = .laundered then some .laundry else none := by
  have ho : ∃ o, (v.page e.1).object = some o := by
    refine Option.ne_none_iff_exists'.mp (fun hn => hf ?_)
    unfold fate Page.fate
    rw [hn]
  obtain ⟨o, ho⟩ := ho
  unfold Page.after
  cases h : v.fate e with
  | kept => exact absurd h hf
  | freed => exact (freedState_place _).2
  | orphaned =>
    rw [ho]
    rfl
  | laundered =>
    rw [ho]
    rfl

variable {t : Taken}

theorem taking_eq_some : v.taking e = some t ↔ v.fate e ≠ .kept ∧
    t = ⟨e.1, (v.page e.1).after v.object e.2 (v.fate e), v.fate e = .freed⟩ := by
  unfold taking
  by_cases hf : v.fate e = .kept
  · simp [hf]
  · rw [if_neg hf, Option.some.injEq]
    exact ⟨fun h => ⟨hf, h.symm⟩, fun h => h.2.symm⟩

theorem sentTo_iff (ht : v.taking e = some t) {d : Nat} {k : PageQueue} :
    t.SentTo d k ↔ v.fate e = .laundered ∧ d = 0 ∧ k = .laundry := by
  obtain ⟨hf, rfl⟩ := taking_eq_some.mp ht
  unfold Taken.SentTo
  rw [after_queue hf]
  constructor
  · rintro ⟨hq, hd⟩
    split at hq
    next hl =>
      cases hq
      exact ⟨hl, hd.symm, rfl⟩
    next => cases hq
  · rintro ⟨hl, rfl, rfl⟩
    exact ⟨if_pos hl, rfl⟩

theorem takings_links (p : Taken → Prop) [DecidablePred p] {f : Fate} (hf : f ≠ .kept)
    (hp : ∀ e t, v.taking e = some t → (p t ↔ v.fate e = f)) (es : List (Nat × Bool)) :
    ((es.filterMap v.taking).filter (p ·)).map Taken.link = v.withFate f es := by
  induction es with
  | nil => rfl
  | cons e es ih =>
    rw [withFate_cons, ← ih]
    cases ht : v.taking e with
    | none =>
      have hk : v.fate e = .kept := by
        by_contra hk
        rw [taking, if_neg hk] at ht
        cases ht
      rw [List.filterMap_cons_none ht, if_neg (by rw [hk]; exact hf.symm)]
    | some t =>
      rw [List.filterMap_cons_some ht]
      have hlink : t.link = .page e.1 := by rw [(taking_eq_some.mp ht).2]; rfl
      by_cases hpt : p t
      · rw [if_pos ((hp e t ht).mp hpt), List.filter_cons_of_pos (by simpa using hpt), List.map_cons,
          hlink]
      · rw [if_neg (fun hfe => hpt ((hp e t ht).mpr hfe)),
          List.filter_cons_of_neg (by simpa using hpt)]

theorem takings_pages (es : List (Nat × Bool)) : (es.filterMap v.taking).map Taken.page =
    (es.filter (fun e => v.fate e ≠ .kept)).map Prod.fst := by
  induction es with
  | nil => rfl
  | cons e es ih =>
    by_cases hk : v.fate e = .kept
    · have ht : v.taking e = none := if_pos hk
      rw [List.filterMap_cons_none ht, ih, List.filter_cons_of_neg (by simpa using hk)]
    · have ht := taking_eq_some.mpr ⟨hk, rfl⟩
      rw [List.filterMap_cons_some ht, List.filter_cons_of_pos (by simpa using hk), List.map_cons,
        List.map_cons, ih]

end Vm

namespace InactiveScan

/-- The test of the loop, maxscan apart. -/
def Continues (s : InactiveScan) : Prop := s.next ≠ none ∧ s.pageShortage > 0

/-- The scan after some pages, with the rest of the queue before it. -/
def behind (s : InactiveScan) (es : List (Nat × Bool)) (back : List Link) (v : Vm) :
    InactiveScan where
  vm := v
  next := back.head?
  pageShortage := s.pageShortage - (s.vm.withFate .freed es).length
  addlPageShortage := s.addlPageShortage + (s.vm.withFate .kept es).length

variable {s : InactiveScan} {d m n : Nat} {visits : List Visit} {x : Link}

theorem behind_nil {rest : List Link} (hnext : s.next = rest.head?) :
    s.behind [] rest s.vm = s := by
  unfold behind
  rw [← hnext]
  simp [Vm.withFate]

theorem loop_stop (hstop : ¬s.Continues) : loop d n visits s = some s := by
  cases n with
  | zero => rfl
  | succ n =>
    unfold loop
    split
    next => rfl
    next x hx => rw [if_neg (fun hgo => hstop ⟨by simp [hx], hgo⟩)]

theorem loop_marker (hgo : s.Continues) (hx : s.next = some x) (hm : x.toPage = none) :
    loop d (n + 1) visits s =
      loop d n visits.tail { s with next := TailQueue.next (s.vm.queue d .inactive).pl x } := by
  rw [loop, hx]
  simp only [if_pos hgo.2]
  cases x with
  | page m => cases hm
  | marker | inacthead | lockMarker => rfl

theorem loop_page (hgo : s.Continues) (hx : s.next = some (.page m)) :
    loop d (n + 1) visits s =
      (visit { s with next := TailQueue.next (s.vm.queue d .inactive).pl (.page m) } d m
        (visits.headD .plain)).bind (loop d n visits.tail) := by
  rw [loop, hx]
  simp only [if_pos hgo.2]

/-- The loop goes through a prefix of `rest`; it stops by its own test if it has turns left. -/
def TakesPrefix (s : InactiveScan) (d n : Nat) (visits : List Visit) (rest : List Link) : Prop :=
  ∃ front back v', rest = front ++ back ∧ front.length ≤ n ∧
    Vm.Sweeps d .inactive ((met visits front).filterMap s.vm.taking) s.vm v' ∧
    loop d n visits s = some (s.behind (met visits front) back v') ∧
    (front.length < n → ¬(s.behind (met visits front) back v').Continues)

theorem TakesPrefix.stop {rest : List Link} (hnext : s.next = rest.head?)
    (hstop : n = 0 ∨ ¬s.Continues) : s.TakesPrefix d n visits rest := by
  refine ⟨[], rest, s.vm, rfl, Nat.zero_le n, .nil _, ?_, fun hlt => ?_⟩
  · rw [met, behind_nil hnext]
    rcases hstop with rfl | hstop
    · rfl
    · exact loop_stop hstop
  · rw [met, behind_nil hnext]
    exact hstop.resolve_left (Nat.ne_of_gt hlt)

theorem TakesPrefix.marker {rest : List Link} (hgo : s.Continues) (hx : s.next = some x)
    (hm : x.toPage = none) (hr : TakesPrefix { s with
      next := TailQueue.next (s.vm.queue d .inactive).pl x } d n visits.tail rest) :
    s.TakesPrefix d (n + 1) visits (x :: rest) := by
  obtain ⟨front, back, v', hsplit, hlen, hsweep, hloop, hstop⟩ := hr
  have hmet : met visits (x :: front) = met visits.tail front := by
    cases x with
    | page m => cases hm
    | marker | inacthead | lockMarker => rfl
  refine ⟨x :: front, back, v', by rw [hsplit]; rfl, Nat.succ_le_succ hlen, ?_, ?_,
    fun hlt => ?_⟩
  · rw [hmet]
    exact hsweep
  · rw [loop_marker hgo hx hm, hloop, hmet]
    rfl
  · rw [hmet]
    exact hstop (Nat.lt_of_succ_lt_succ hlt)

/-- A kept page counts for addl_page_shortage. -/
theorem TakesPrefix.kept {rest : List Link} (hgo : s.Continues) (hx : s.next = some (.page m))
    (hf : s.vm.fate (m, (visits.headD .plain).modified) = .kept)
    (hnext : TailQueue.next (s.vm.queue d .inactive).pl (.page m) = rest.head?)
    (hvisit : visit { s with next := rest.head? } d m (visits.headD .plain) =
      some (stuck { s with next := rest.head? }))
    (hr : TakesPrefix (stuck { s with next := rest.head? }) d n visits.tail rest) :
    s.TakesPrefix d (n + 1) visits (.page m :: rest) := by
  obtain ⟨front, back, v', hsplit, hlen, hsweep, hloop, hstop⟩ := hr
  have hbehind : behind (stuck { s with next := rest.head? }) (met visits.tail front) back v' =
      s.behind (met visits (.page m :: front)) back v' := by
    unfold behind
    rw [met, Vm.withFate_cons, Vm.withFate_cons, hf, if_neg (by simp), if_pos rfl,
      List.length_cons]
    have hcount : s.addlPageShortage +
        ((s.vm.withFate .kept (met visits.tail front)).length + 1 : Nat) =
          s.addlPageShortage + 1 + (s.vm.withFate .kept (met visits.tail front)).length := by
      omega
    rw [hcount]
    rfl
  rw [hbehind] at hloop hstop
  refine ⟨.page m :: front, back, v', by rw [hsplit]; rfl, Nat.succ_le_succ hlen, ?_, ?_,
    fun hlt => hstop (Nat.lt_of_succ_lt_succ hlt)⟩
  · have hnone : s.vm.taking (m, (visits.headD .plain).modified) = none := if_pos hf
    rw [met, List.filterMap_cons_none hnone]
    exact hsweep
  · rw [loop_page hgo hx, hnext, hvisit]
    exact hloop

/-- A page that is taken counts for page_shortage if it is freed. -/
theorem TakesPrefix.taken {rest : List Link} {v₁ : Vm} {modified : Bool}
    (hmod : (visits.headD .plain).modified = modified)
    (hgo : s.Continues) (hx : s.next = some (.page m)) (hm : .page m ∉ rest)
    (hf : s.vm.fate (m, modified) ≠ .kept)
    (hnext : TailQueue.next (s.vm.queue d .inactive).pl (.page m) = rest.head?)
    (ht : s.vm.Takes d .inactive
      ⟨m, (s.vm.page m).after s.vm.object modified (s.vm.fate (m, modified)),
        s.vm.fate (m, modified) = .freed⟩ v₁)
    (hvisit : visit { s with next := rest.head? } d m (visits.headD .plain) =
      some ⟨v₁, rest.head?, if s.vm.fate (m, modified) = .freed then s.pageShortage - 1
        else s.pageShortage, s.addlPageShortage⟩)
    (hr : TakesPrefix ⟨v₁, rest.head?, if s.vm.fate (m, modified) = .freed then s.pageShortage - 1
        else s.pageShortage, s.addlPageShortage⟩ d n visits.tail rest) :
    s.TakesPrefix d (n + 1) visits (.page m :: rest) := by
  obtain ⟨front, back, v', hsplit, hlen, hsweep, hloop, hstop⟩ := hr
  have hsame : ∀ e ∈ met visits.tail front, v₁.page e.1 = s.vm.page e.1 := by
    intro e he
    refine ht.of_ne (show e.1 ≠ m from fun hem => hm ?_)
    have hin : e.1 ∈ linkPages front := by
      rw [← met_pages visits.tail]
      exact List.mem_map_of_mem he
    rw [hsplit, ← hem]
    exact List.mem_append_left _ (mem_linkPages.mp hin)
  have hbehind : behind ⟨v₁, rest.head?, if s.vm.fate (m, modified) = .freed then
      s.pageShortage - 1 else s.pageShortage, s.addlPageShortage⟩ (met visits.tail front) back v' =
        s.behind (met visits (.page m :: front)) back v' := by
    unfold behind
    rw [met, hmod, Vm.withFate_cons, Vm.withFate_cons, if_neg hf,
      Vm.withFate_congr ht.object hsame, Vm.withFate_congr ht.object hsame]
    congr 1
    split
    next =>
      rw [List.length_cons]
      show s.pageShortage - 1 - _ = _
      omega
    next => rfl
  rw [hbehind] at hloop hstop
  refine ⟨.page m :: front, back, v', by rw [hsplit]; rfl, Nat.succ_le_succ hlen, ?_, ?_,
    fun hlt => hstop (Nat.lt_of_succ_lt_succ hlt)⟩
  · have hsome : s.vm.taking (m, modified) = some ⟨m, (s.vm.page m).after s.vm.object modified
        (s.vm.fate (m, modified)), s.vm.fate (m, modified) = .freed⟩ := if_neg hf
    rw [met, hmod, List.filterMap_cons_some hsome]
    rw [Vm.takings_congr ht.object hsame] at hsweep
    exact .cons ht hsweep
  · rw [loop_page hgo hx, hnext, hvisit]
    exact hloop

theorem loop_takes_prefix (hw : ∀ w ∈ visits, w.Quiet) (hv : s.vm.Scannable d)
    {keep rest : List Link} (hpl : (s.vm.queue d .inactive).pl = keep ++ rest)
    (hnext : s.next = rest.head?) : s.TakesPrefix d n visits rest := by
  induction n generalizing visits s keep rest with
  | zero => exact .stop hnext (Or.inl rfl)
  | succ n ih =>
    by_cases hgo : s.Continues
    · cases rest with
      | nil => exact absurd hnext hgo.1
      | cons x rest =>
        have htail : ∀ w ∈ visits.tail, w.Quiet := fun w hm => hw w (List.mem_of_mem_tail hm)
        obtain ⟨hx, hrest⟩ := hv.lined.not_mem_around hpl
        have hbehind : TailQueue.next (s.vm.queue d .inactive).pl x = rest.head? := by
          rw [hpl]
          exact TailQueue.next_append hx
        -- what is passed over is kept in front of the place of the scan
        have hkeep : (s.vm.queue d .inactive).pl = (keep ++ [x]) ++ rest :=
          hpl.trans (List.append_assoc keep [x] rest).symm
        cases x with
        | marker | inacthead | lockMarker =>
          exact .marker hgo hnext rfl
            (ih (s := { s with next := TailQueue.next (s.vm.queue d .inactive).pl _ }) htail hv hkeep
              hbehind)
        | page m =>
          have hquiet := Visit.quiet_headD hw
          by_cases hf : s.vm.fate (m, (visits.headD .plain).modified) = .kept
          · have hm : m ∈ s.vm.pages d .inactive := by
              rw [Vm.pages, hpl]
              exact mem_linkPages.mpr (List.mem_append_right _ List.mem_cons_self)
            exact .kept hgo hnext hf hbehind
              (visit_kept (s := { s with next := rest.head? }) hv hm hquiet hf)
              (ih (s := stuck { s with next := rest.head? }) htail hv hkeep rfl)
          · obtain ⟨v₁, ht, hvisit⟩ :=
              visit_takes (s := { s with next := rest.head? }) hv hpl hquiet hf
            have hpl₁ : (v₁.queue d .inactive).pl = keep ++ rest := by
              rw [ht.here, hpl]
              show (keep ++ .page m :: rest).erase (.page m) = _
              rw [List.erase_append_right _ hx, List.erase_cons_head]
            exact .taken rfl hgo hnext hrest hf hbehind ht hvisit
              (ih (s := ⟨v₁, _, _, _⟩) htail (hv.takes ht) hpl₁ rfl)
    · exact .stop hnext (Or.inr hgo)

/-- What the log has for a page with this fate. -/
def fateEvent (now : Nanotime) (m : Nat) : Fate → Option PageEvent
  | .freed => some (.freed m)
  | .laundered => some (.tail m .laundry now)
  | .orphaned | .kept => none

/-- What the scan of the inactive queue of domain `d` does; `front` is what it examines. -/
structure Outcome (v : Vm) (d : Nat) (pageShortage : Int) (visits : List Visit)
    (front back : List Link) (r : InactiveScan) : Prop where
  split : (v.queue d .inactive).pl = front ++ back
  once : (linkPages front).Nodup
  bound : front.length ≤ (v.queue d .inactive).cnt.toNat
  next : r.next = back.head?
  stopped : front.length < (v.queue d .inactive).cnt.toNat → ¬r.Continues
  inactive : r.vm.queue d .inactive =
    ⟨front.filter (fun x => x.toPage = none ∨ x ∈ v.withFate .kept (met visits front)) ++ back,
      (v.queue d .inactive).cnt -
        ((linkPages front).length - (v.withFate .kept (met visits front)).length)⟩
  marker : .marker d ∉ (r.vm.queue d .inactive).pl
  laundry : (r.vm.queue 0 .laundry).pl =
    (v.queue 0 .laundry).pl ++ v.withFate .laundered (met visits front)
  queues : ∀ d' k, ¬(d' = d ∧ k = .inactive) → ¬(d' = 0 ∧ k = .laundry) →
    r.vm.queue d' k = v.queue d' k
  page : ∀ e ∈ met visits front, r.vm.page e.1 = (v.page e.1).after v.object e.2 (v.fate e)
  pages : ∀ m ∉ linkPages front, r.vm.page m = v.page m
  log : r.vm.log =
    ((met visits front).filterMap fun e => fateEvent v.clock e.1 (v.fate e)).reverse ++ v.log
  pageShortage : r.pageShortage = pageShortage - (v.withFate .freed (met visits front)).length
  addlPageShortage : r.addlPageShortage = (v.withFate .kept (met visits front)).length

section

variable {v v' : Vm} {front back : List Link}

theorem met_nodup (hv : v.Scannable d) (hpl : (v.queue d .inactive).pl = front ++ back) :
    ((met visits front).map Prod.fst).Nodup := by
  rw [met_pages]
  exact (hv.lined.front_pages hpl).1

/-- What is met is taken or kept. -/
theorem not_taken_iff (hv : v.Scannable d) (hpl : (v.queue d .inactive).pl = front ++ back)
    {x : Link} (hx : x ∈ front) :
    x ∉ (((met visits front).filter (fun e => v.fate e ≠ .kept)).map Prod.fst).map Link.page ↔
      x.toPage = none ∨ x ∈ v.withFate .kept (met visits front) := by
  cases x with
  | marker | inacthead | lockMarker => simp [Link.toPage]
  | page m =>
    have hm : m ∈ (met visits front).map Prod.fst := by
      rw [met_pages]
      exact mem_linkPages.mpr hx
    obtain ⟨e, he, rfl⟩ := List.mem_map.mp hm
    have hone : ∀ e' ∈ met visits front, e'.1 = e.1 → e' = e := fun e' he' heq =>
      List.inj_on_of_nodup_map (met_nodup hv hpl) he' he heq
    constructor
    · intro hnot
      refine Or.inr (List.mem_map.mpr ⟨e, List.mem_filter.mpr ⟨he, ?_⟩, rfl⟩)
      by_contra hk
      refine hnot (List.mem_map_of_mem (List.mem_map_of_mem (List.mem_filter.mpr ⟨he, ?_⟩)))
      simpa using hk
    · rintro (hn | hk) hin
      · cases hn
      · obtain ⟨e₁, h₁, heq₁⟩ := List.mem_map.mp hk
        obtain ⟨m, hin, heq₂⟩ := List.mem_map.mp hin
        obtain ⟨e₂, h₂, rfl⟩ := List.mem_map.mp hin
        obtain ⟨h₁, hf₁⟩ := List.mem_filter.mp h₁
        obtain ⟨h₂, hf₂⟩ := List.mem_filter.mp h₂
        obtain rfl := hone e₁ h₁ (Link.page.inj heq₁)
        obtain rfl := hone e₂ h₂ (Link.page.inj heq₂)
        exact of_decide_eq_true hf₂ (of_decide_eq_true hf₁)

theorem swept_queue (hv : v.Scannable d) (hpl : (v.queue d .inactive).pl = front ++ back)
    (hs : Vm.Sweeps d .inactive ((met visits front).filterMap v.taking) v v') :
    v'.queue d .inactive =
      ⟨front.filter (fun x => x.toPage = none ∨ x ∈ v.withFate .kept (met visits front)) ++ back,
        (v.queue d .inactive).cnt -
          ((linkPages front).length - (v.withFate .kept (met visits front)).length)⟩ := by
  have hlink : ((met visits front).filterMap v.taking).map Taken.link =
      (((met visits front).filter (fun e => v.fate e ≠ .kept)).map Prod.fst).map Link.page := by
    rw [← Vm.takings_pages, List.map_map]
    rfl
  have hn := hv.lined.nodup
  rw [hpl] at hn
  have hfront : ∀ m ∈ ((met visits front).filter (fun e => v.fate e ≠ .kept)).map Prod.fst,
      m ∈ linkPages front := by
    intro m hm
    rw [← met_pages visits]
    exact (List.filter_sublist.map Prod.fst).subset hm
  have hcount : (((met visits front).filterMap v.taking).length : Int) =
      (linkPages front).length - (v.withFate .kept (met visits front)).length := by
    have hsplit := List.length_eq_length_filter_add (l := met visits front)
      (fun e => decide (v.fate e = .kept))
    have htaken := congrArg List.length (Vm.takings_pages (v := v) (met visits front))
    have hmet := congrArg List.length (met_pages visits front)
    have hkept : (v.withFate .kept (met visits front)).length =
        ((met visits front).filter (fun e => v.fate e = .kept)).length := List.length_map _
    have hnot : (met visits front).filter (fun e => !decide (v.fate e = .kept)) =
        (met visits front).filter (fun e => v.fate e ≠ .kept) :=
      List.filter_congr (fun e _ => by simp)
    rw [List.length_map] at hmet
    rw [List.length_map, List.length_map] at htaken
    rw [hnot] at hsplit
    omega
  rw [hs.here, hpl, hlink, diff_front hn hfront, hcount]
  congr 2
  exact List.filter_congr (fun x hx => decide_eq_decide.mpr (not_taken_iff hv hpl hx))

theorem taken_nodup (hv : v.Scannable d) (hpl : (v.queue d .inactive).pl = front ++ back) :
    (((met visits front).filterMap v.taking).map Taken.page).Nodup := by
  rw [Vm.takings_pages]
  exact (met_nodup hv hpl).sublist (List.filter_sublist.map Prod.fst)

theorem swept_page (hv : v.Scannable d) (hpl : (v.queue d .inactive).pl = front ++ back)
    (hs : Vm.Sweeps d .inactive ((met visits front).filterMap v.taking) v v')
    {e : Nat × Bool} (he : e ∈ met visits front) :
    v'.page e.1 = (v.page e.1).after v.object e.2 (v.fate e) := by
  by_cases hk : v.fate e = .kept
  · rw [hk, hs.other]
    · rfl
    · rw [Vm.takings_pages]
      intro hin
      obtain ⟨e', he', heq⟩ := List.mem_map.mp hin
      obtain ⟨he', hf⟩ := List.mem_filter.mp he'
      obtain rfl := List.inj_on_of_nodup_map (met_nodup hv hpl) he' he heq
      exact of_decide_eq_true hf hk
  · exact hs.taken (taken_nodup hv hpl)
      (List.mem_filterMap.mpr ⟨e, he, Vm.taking_eq_some.mpr ⟨hk, rfl⟩⟩)

theorem taking_event (v : Vm) (e : Nat × Bool) (now : Nanotime) :
    (v.taking e).bind (Taken.event now) = fateEvent now e.1 (v.fate e) := by
  by_cases hk : v.fate e = .kept
  · rw [Vm.taking, if_pos hk, hk]
    rfl
  · have hq := Vm.after_queue hk
    rw [Vm.taking, if_neg hk, Option.bind_some, Taken.event]
    cases hf : v.fate e with
    | kept => exact absurd hf hk
    | freed => rfl
    | laundered | orphaned =>
      rw [hf] at hq
      simp [hq, fateEvent]

end

end InactiveScan

/-- The scan of an inactive queue sorts the pages it examines. -/
theorem inactive_scan_sorts {v : Vm} {d : Nat} (hv : v.Scannable d) {visits : List Visit}
    (hw : ∀ w ∈ visits, w.Quiet) (pageShortage : Int) :
    ∃ front back r, inactiveScan v d pageShortage visits = some r ∧
      InactiveScan.Outcome v d pageShortage visits front back r := by
  obtain ⟨front, back, v', hpl, hlen, hsweep, hloop, hstop⟩ : InactiveScan.TakesPrefix
      ⟨v, (v.queue d .inactive).pl.head?, pageShortage, 0⟩ d (v.queue d .inactive).cnt.toNat visits
      (v.queue d .inactive).pl :=
    InactiveScan.loop_takes_prefix hw hv (List.nil_append _).symm rfl
  change (v.queue d .inactive).pl = front ++ back at hpl
  change Vm.Sweeps d .inactive ((met visits front).filterMap v.taking) v v' at hsweep
  have hqueue := InactiveScan.swept_queue hv hpl hsweep
  refine ⟨front, back, _, hloop, hpl, (hv.lined.front_pages hpl).1, hlen, rfl, hstop, hqueue,
    fun hin => hv.marker ?_, ?_, fun d' k hin hla => ?_,
    fun e he => InactiveScan.swept_page hv hpl hsweep he, fun m hm => hsweep.other ?_, ?_, rfl,
    Int.zero_add _⟩
  · change _ ∈ (v'.queue d .inactive).pl at hin
    rw [hqueue] at hin
    rw [hpl]
    exact (List.Sublist.append_right List.filter_sublist back).subset hin
  · change (v'.queue 0 .laundry).pl = _
    rw [hsweep.there (by simp), ← Vm.takings_links (Taken.SentTo 0 .laundry) (by simp)
      (fun e t ht => (Vm.sentTo_iff ht).trans ⟨fun h => h.1, fun h => ⟨h, rfl, rfl⟩⟩)]
  · change v'.queue d' k = _
    have hnil : ((met visits front).filterMap v.taking).filter (Taken.SentTo d' k ·) = [] := by
      refine List.filter_eq_nil_iff.mpr (fun t ht hs => ?_)
      obtain ⟨e, -, he⟩ := List.mem_filterMap.mp ht
      obtain ⟨-, hd', hk⟩ := (Vm.sentTo_iff he).mp (of_decide_eq_true hs)
      exact hla ⟨hd', hk⟩
    rw [hsweep.there hin, hnil]
    simp
  · rw [Vm.takings_pages]
    rw [← met_pages visits] at hm
    exact fun hin => hm ((List.filter_sublist.map Prod.fst).subset hin)
  · change v'.log = _
    rw [hsweep.log, List.filterMap_filterMap]
    congr 2
    exact List.filterMap_congr (fun e _ => InactiveScan.taking_event v e v.clock)

/-- Page 3 belongs to a dead object, page 4 is busied, page 5 held and page 7 invalid. -/
def mixedPage : Nat → Page
  | 3 => { plainPage with dirty := 1, object := some 1 }
  | 4 => { plainPage with busyLock := .exclusive }
  | 5 => { plainPage with holdCount := 1, object := none }
  | 7 => { plainPage with valid := 0 }
  | _ => plainPage

def mixedObject (o : Nat) : VmObject :=
  if o = 1 then { plainObject with refCount := 0, dead := true } else plainObject

/-- Page 2 turns out to be modified; the scan stops before page 6. -/
theorem inactive_scan_sorts_mixed : ∃ front back r,
    inactiveScan (lineVm 0 .inactive
      [.inacthead 0, .page 1, .page 2, .page 3, .page 4, .page 5, .page 7, .page 6] mixedPage
        mixedObject) 0 2 [.plain, .plain, ⟨none, none, [], true⟩] = some r ∧
    InactiveScan.Outcome (lineVm 0 .inactive
      [.inacthead 0, .page 1, .page 2, .page 3, .page 4, .page 5, .page 7, .page 6] mixedPage
        mixedObject) 0 2 [.plain, .plain, ⟨none, none, [], true⟩] front back r ∧
    (r.vm.queue 0 .inactive).pl = [.inacthead 0, .page 4, .page 5, .page 6] ∧
    (r.vm.queue 0 .laundry).pl = [.page 2] ∧ (r.vm.page 3).queue = none ∧
    r.pageShortage = 0 ∧ r.addlPageShortage = 2 := by
  generalize hv : lineVm 0 .inactive
    [.inacthead 0, .page 1, .page 2, .page 3, .page 4, .page 5, .page 7, .page 6] mixedPage
      mixedObject = v
  have hs : v.Scannable 0 := by
    subst hv
    exact ⟨⟨by decide, by decide⟩, by decide, by decide⟩
  have hw : ∀ w ∈ [Visit.plain, .plain, ⟨none, none, [], true⟩], w.Quiet := by
    intro w hw
    simp only [List.mem_cons, List.not_mem_nil, or_false] at hw
    rcases hw with rfl | rfl | rfl <;> exact ⟨rfl, rfl, rfl⟩
  obtain ⟨front, back, r, hr, ho⟩ := inactive_scan_sorts hs hw 2
  have hrun : (inactiveScan v 0 2 [Visit.plain, .plain, ⟨none, none, [], true⟩]).any (fun r =>
      decide ((r.vm.queue 0 .inactive).pl = [.inacthead 0, .page 4, .page 5, .page 6] ∧
        (r.vm.queue 0 .laundry).pl = [.page 2] ∧ (r.vm.page 3).queue = none ∧
        r.pageShortage = 0 ∧ r.addlPageShortage = 2)) = true := by
    subst hv
    decide +kernel
  rw [hr] at hrun
  exact ⟨front, back, r, hr, ho, of_decide_eq_true hrun⟩

end FreeBSDEdits
