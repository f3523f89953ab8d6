import FreeBSDEdits.PageLifeRuns

namespace FreeBSDEdits

/-- How many holds an operation adds to the page `m`. -/
def LifeOp.holds (m : Nat) : LifeOp → Int
  | .hold x => if x = m then 1 else 0
  | .unhold x => if x = m then -1 else 0
  | .unholdPages ms => -(ms.count m : Int)
  | _ => 0

def holdsSince (m : Nat) : List (LifeOp × Unit) → Int
  | [] => 0
  | (op, _) :: h => op.holds m + holdsSince m h

/-- The page of an operation that does more than to hold pages or to let go of them. -/
def LifeOp.page : LifeOp → Option Nat
  | .hold _ => none
  | .unhold _ => none
  | .unholdPages _ => none
  | .alloc m _ _ => some m
  | .allocFreelist m _ => some m
  | .free m => some m
  | .tryToFree m _ => some m
  | .wire m => some m
  | .unwire m _ => some m
  | .activate m => some m
  | .deactivate m _ => some m
  | .launder m => some m
  | .requeue m => some m
  | .insert m _ => some m
  | .remove m => some m
  | .busy m _ => some m
  | .contents m _ _ => some m
  | .memattr m _ => some m

/-- The page `m` is only held and let go of. -/
def leavesFreed (m : Nat) (_ : List (LifeOp × Unit)) (s : PageLife) (op : LifeOp) : Prop :=
  op.Proper s ∧ op.page ≠ some m

instance decidableLeavesFreed (m : Nat) (h : List (LifeOp × Unit)) (s : PageLife) (op : LifeOp) :
    Decidable (leavesFreed m h s op) := by
  unfold leavesFreed
  infer_instance

namespace PageLife

variable {n m x : Nat} {k : Int} {s s' s'' : PageLife} {p : Page}

/-- Only the page `x` is different, or free where it was not. -/
def Changes (s : PageLife) (x : Nat) (s' : PageLife) : Prop :=
  ∀ y, y ≠ x → s'.page y = s.page y ∧ (y ∈ s'.free ↔ y ∈ s.free)

theorem Changes.refl (s : PageLife) (x : Nat) : s.Changes x s := fun _ _ => ⟨rfl, Iff.rfl⟩

theorem Changes.trans (h : s.Changes x s') (h' : s'.Changes x s'') : s.Changes x s'' :=
  fun y hy => ⟨(h' y hy).1.trans (h y hy).1, (h' y hy).2.trans (h y hy).2⟩

theorem Changes.of_update {vm : Vm} {w : Int} (hp : vm.page = Function.update s.vm.page x p) :
    s.Changes x { s with vm := vm, wireCount := w } := by
  intro y hy
  refine ⟨?_, Iff.rfl⟩
  change vm.page y = s.vm.page y
  rw [hp, Function.update_of_ne hy]

theorem Changes.setPage (s : PageLife) (x : Nat) (p : Page) : s.Changes x (s.setPage x p) :=
  .of_update rfl

theorem queueCall_changes {call : Option Vm} (ht : ∀ vm, call = some vm → s.vm.Touches x vm)
    (hs : call.map (fun vm => { s with vm := vm }) = some s') : s.Changes x s' := by
  obtain ⟨vm, hvm, rfl⟩ := Option.map_eq_some_iff.mp hs
  obtain ⟨p, hp, _⟩ := ht vm hvm
  exact .of_update hp

theorem freeToq_changes (hs : s.freeToq x = some s') : s.Changes x s' := by
  obtain ⟨⟨vm, b⟩, hprep, he⟩ := Option.map_eq_some_iff.mp hs
  obtain ⟨p, hp, _⟩ := Vm.freePrep_prepares hprep
  have hvm : s.Changes x { s with vm := vm } := .of_update hp
  cases b with
  | true =>
    cases he
    exact hvm.trans fun y hy => ⟨rfl, List.mem_cons.trans (or_iff_right hy)⟩
  | false =>
    cases he
    exact hvm

theorem takeFree_changes (hs : s.takeFree x = some s') : s.Changes x s' := by
  obtain ⟨_, _, rfl⟩ := takeFree_cases hs
  exact fun y hy => ⟨rfl, List.mem_erase_of_ne hy⟩

theorem alloc_changes {req : AllocReq} {inserted : Bool} (hs : s.alloc x req inserted = some s') :
    s.Changes x s' := by
  unfold PageLife.alloc at hs
  split at hs
  next =>
    obtain ⟨s₁, h₁, he⟩ := Option.bind_eq_some_iff.mp hs
    have htake := takeFree_changes h₁
    have hinit := htake.trans (.setPage s₁ x (req.init (s₁.page x)))
    dsimp only at he
    split at he
    next =>
      cases he
      exact hinit
    next =>
      split at he
      next =>
        cases he
        exact (hinit.trans (.setPage _ x _)).trans (.setPage _ x _)
      next =>
        refine hinit.trans (Changes.trans ?_ (freeToq_changes he))
        exact .of_update rfl
  next => cases hs

theorem allocFreelist_changes {wired : Bool} (hs : s.allocFreelist x wired = some s') :
    s.Changes x s' := by
  obtain ⟨s₁, h₁, rfl⟩ := Option.map_eq_some_iff.mp hs
  exact (takeFree_changes h₁).trans (.setPage s₁ x _)

theorem wire_changes (hs : s.wire x = some s') : s.Changes x s' := by
  obtain ⟨vm, hvm, rfl⟩ := Option.map_eq_some_iff.mp hs
  rcases Vm.wire_touches hvm with ⟨_, rfl⟩ | ⟨_, p, hp, _⟩
  · exact .refl s x
  · exact .of_update hp

theorem unwire_changes {queue : Option PageQueue} (hs : s.unwire x queue = some s') :
    s.Changes x s' := by
  obtain ⟨vm, hvm, rfl⟩ := Option.map_eq_some_iff.mp hs
  rcases Vm.unwire_touches hvm with ⟨_, rfl⟩ | ⟨_, _, p, hp, _⟩
  · exact .refl s x
  · exact .of_update hp

theorem tryToFree_changes {modified : Bool} (hs : s.tryToFree x modified = some s') :
    s.Changes x s' := by
  unfold PageLife.tryToFree at hs
  dsimp only at hs
  split at hs
  next =>
    cases hs
    exact .refl s x
  next =>
    split at hs
    next =>
      cases hs
      exact .setPage s x _
    next => exact freeToq_changes hs

theorem unhold_changes (hs : s.unhold x = some s') : s.Changes x s' := by
  unfold PageLife.unhold at hs
  split at hs
  next => cases hs
  next =>
    have hset := Changes.setPage s x { s.page x with holdCount := (s.page x).holdCount - 1 }
    dsimp only at hs
    split at hs
    next => exact hset.trans (freeToq_changes hs)
    next =>
      cases hs
      exact hset

/-- An operation on a page changes no other. -/
theorem next_changes {op : LifeOp} (hop : op.page = some x) (hs : s.next op = some s') :
    s.Changes x s' := by
  cases op with
  | hold _ => cases hop
  | unhold _ => cases hop
  | unholdPages _ => cases hop
  | alloc m req inserted =>
    cases hop
    exact alloc_changes hs
  | allocFreelist m wired =>
    cases hop
    exact allocFreelist_changes hs
  | free m =>
    cases hop
    exact freeToq_changes hs
  | tryToFree m modified =>
    cases hop
    exact tryToFree_changes hs
  | wire m =>
    cases hop
    exact wire_changes hs
  | unwire m queue =>
    cases hop
    exact unwire_changes hs
  | activate m =>
    cases hop
    exact queueCall_changes (fun _ => Vm.activate_touches) hs
  | deactivate m noreuse =>
    cases hop
    exact queueCall_changes (fun _ => Vm.deactivateTo_touches) hs
  | launder m =>
    cases hop
    exact queueCall_changes (fun _ => Vm.launder_touches) hs
  | requeue m =>
    cases hop
    exact queueCall_changes (fun _ => Vm.requeue_touches) hs
  | insert m o =>
    cases hop
    cases hs
    exact .setPage s x _
  | remove m =>
    cases hop
    cases hs
    exact .setPage s x _
  | busy m b =>
    cases hop
    cases hs
    exact .setPage s x _
  | contents m valid dirty =>
    cases hop
    cases hs
    exact .setPage s x _
  | memattr m attr =>
    cases hop
    cases hs
    exact .setPage s x _

/-- A page that was freed while it was held. -/
structure AwaitsUnhold (p : Page) : Prop where
  real : p.fictitious = false
  marked : p.unholdfree = true
  queue : p.queue = none
  wireCount : p.wireCount = 0
  busyLock : p.busyLock = .unbusied

/-- The page `m` was freed, and `k` holds are left: it is free once there is none. -/
def Freed (k : Int) (m : Nat) (s : PageLife) : Prop :=
  (m ∈ s.free ∧ k = 0) ∨
    (m ∉ s.free ∧ AwaitsUnhold (s.page m) ∧ (s.page m).holdCount.toNat = k)

theorem Freed.changes (h : s.Freed k m) (hx : m ≠ x) (hc : s.Changes x s') : s'.Freed k m := by
  obtain ⟨hp, hfree⟩ := hc m hx
  unfold Freed
  rw [hp, hfree]
  exact h

theorem Freed.mem_iff (h : s.Freed k m) (hs : s.Sound n) : m ∈ s.free ↔ k = 0 := by
  rcases h with ⟨hm, hk⟩ | ⟨hm, ha, hk⟩
  · exact ⟨fun _ => hk, fun _ => hm⟩
  · refine ⟨fun hin => absurd hin hm, fun h0 => ?_⟩
    have hc : (s.page m).holdCount.toNat = 0 := by omega
    exact absurd (UInt16.toNat_inj.mp hc) (hs.delayed m hm ha.marked)

/-- vm_page_free of a page that is not on the free lists. -/
theorem freed_of_free (hs : s.Sound n) (hm : m ∉ s.free) (hp : (s.page m).fictitious = false)
    (hf : s.freeToq m = some s') : s'.Freed (s.page m).holdCount.toNat m := by
  obtain ⟨_, p, b, hpage, hprep, hfree⟩ := hs.free hm hf
  have hpm : s'.page m = p := by
    change s'.vm.page m = p
    rw [hpage, Function.update_self]
  obtain ⟨hw, _, _, hheld, hmark, _⟩ := hprep.real hp
  cases b with
  | true =>
    have h0 := hheld.mp rfl
    left
    rw [hfree, h0]
    exact ⟨List.mem_cons_self, rfl⟩
  | false =>
    right
    rw [hfree, hpm, hprep.holdCount]
    refine ⟨hm, ⟨hprep.fictitious.trans hp, hmark rfl, hprep.queue, hprep.wireCount.trans hw, ?_⟩,
      rfl⟩
    by_contra hb
    obtain ⟨hx, ho⟩ := hprep.busyLock hb
    exact hs.busy m hp hx ho

theorem AwaitsUnhold.withHolds (h : AwaitsUnhold p) (c : UInt16) :
    AwaitsUnhold { p with holdCount := c } :=
  ⟨h.real, h.marked, h.queue, h.wireCount, h.busyLock⟩

theorem Freed.hold (h : s.Freed k m) (hm : m ∉ s.free) (hmax : (s.page m).holdCount ≠ 65535) :
    (s.hold m).Freed (k + 1) m := by
  rcases h with ⟨hin, _⟩ | ⟨_, ha, hk⟩
  · exact absurd hin hm
  · right
    unfold PageLife.hold
    rw [setPage_page]
    refine ⟨hm, ha.withHolds _, ?_⟩
    have hne : (s.page m).holdCount.toNat ≠ 65535 := fun he => hmax (UInt16.toNat_inj.mp he)
    have hlt := (s.page m).holdCount.toNat_lt
    have hadd : ((s.page m).holdCount + 1).toNat = (s.page m).holdCount.toNat + 1 := by
      rw [UInt16.toNat_add]
      show ((s.page m).holdCount.toNat + 1) % 65536 = _
      omega
    show (((s.page m).holdCount + 1).toNat : Int) = k + 1
    omega

/-- Letting go of a freed page, which then is free if that was the last hold. -/
theorem Freed.unhold (h : s.Freed k m) (hs : s.Sound n) (hu : s.unhold m = some s') :
    s'.Freed (k - 1) m := by
  obtain ⟨hm, _, hne, hcase⟩ := unhold_cases hs hu
  rcases h with ⟨hin, _⟩ | ⟨_, ha, hk⟩
  · exact absurd hin hm
  · have hpos : (s.page m).holdCount.toNat ≠ 0 := fun he => hne (UInt16.toNat_inj.mp he)
    have hsub : ((s.page m).holdCount - 1).toNat = (s.page m).holdCount.toNat - 1 := by
      have hle : (1 : UInt16) ≤ (s.page m).holdCount := by
        rw [UInt16.le_iff_toNat_le]
        show 1 ≤ _
        omega
      rw [UInt16.toNat_sub_of_le _ _ hle]
      rfl
    rcases hcase with ⟨_, rfl⟩ | ⟨h0, _, p, b, hpage, hprep, hfree⟩
    · right
      rw [setPage_page]
      refine ⟨hm, ha.withHolds _, ?_⟩
      show (((s.page m).holdCount - 1).toNat : Int) = k - 1
      omega
    · -- the last hold
      have hb : b = true := (hprep.real ha.real).2.2.2.1.mpr h0
      left
      rw [hfree, if_pos hb]
      refine ⟨List.mem_cons_self, ?_⟩
      rw [h0] at hsub
      have hz : (0 : UInt16).toNat = 0 := rfl
      omega

theorem Freed.unhold_any (h : s.Freed k m) (hs : s.Sound n) (hu : s.unhold x = some s') :
    s'.Freed (k + (if x = m then -1 else 0)) m := by
  split
  next hx =>
    subst hx
    exact h.unhold hs hu
  next hx =>
    rw [Int.add_zero]
    exact h.changes (fun he => hx he.symm) (unhold_changes hu)

theorem Freed.unholdPages {ms : List Nat} (h : s.Freed k m) (hs : s.Sound n)
    (hu : s.unholdPages ms = some s') : s'.Freed (k - ms.count m) m := by
  induction ms generalizing s k with
  | nil =>
    cases hu
    rw [List.count_nil, Int.natCast_zero, Int.sub_zero]
    exact h
  | cons x ms ih =>
    obtain ⟨s₁, h₁, h₂⟩ := Option.bind_eq_some_iff.mp hu
    have hrest := ih (h.unhold_any hs h₁) (unhold_cases hs h₁).2.1 h₂
    have hcount : k - ((x :: ms).count m : Int) =
        k + (if x = m then -1 else 0) - (ms.count m : Int) := by
      rw [List.count_cons]
      by_cases hx : x = m
      · rw [if_pos hx, if_pos (beq_iff_eq.mpr hx)]
        omega
      · rw [if_neg hx, if_neg (fun he => hx (beq_iff_eq.mp he))]
        omega
    rw [hcount]
    exact hrest

/-- What one operation does to the holds of the freed page. -/
theorem Freed.next {op : LifeOp} (h : s.Freed k m) (hs : s.Sound n) (hop : op.Proper s)
    (hpage : op.page ≠ some m) (hn : s.next op = some s') : s'.Freed (k + op.holds m) m := by
  cases hq : op.page with
  | some x =>
    have hzero : op.holds m = 0 := by
      cases op <;> first | rfl | cases hq
    rw [hzero, Int.add_zero]
    exact h.changes (fun he => hpage (he ▸ hq)) (next_changes hq hn)
  | none =>
    cases op with
    | hold x =>
      cases hn
      show (s.hold x).Freed (k + if x = m then 1 else 0) m
      split
      next hx =>
        subst hx
        exact h.hold hop.1 hop.2
      next hx =>
        rw [Int.add_zero]
        exact h.changes (fun he => hx he.symm) (.setPage s x _)
    | unhold x => exact h.unhold_any hs hn
    | unholdPages ms => exact h.unholdPages hs hn
    | _ => cases hq

/-- A page whose free waits for the last hold can always be let go of. -/
theorem Freed.unhold_isSome (h : s.Freed k m) (hs : s.Sound n) (hm : m ∉ s.free) :
    (s.unhold m).isSome := by
  rcases h with ⟨hin, _⟩ | ⟨_, ha, _⟩
  · exact absurd hin hm
  · unfold PageLife.unhold
    rw [if_neg (hs.delayed m hm ha.marked)]
    dsimp only
    split
    next hlast =>
      rw [setPage_page] at hlast
      exact freeToq_isSome (setPage_page ..) ha.queue ha.wireCount ha.real ha.busyLock hlast.1
    next => rfl

end PageLife

/-- A page that is freed while it is held is on the free lists exactly when its last hold is gone,
and until then letting go of it never fails. -/
theorem freed_at_last_unhold {n m : Nat} {domain : Nat → Nat} {object : Nat → VmObject}
    {clock : Nanotime} {h h' : List (LifeOp × Unit)} {s s₁ s' : PageLife}
    (hr : LifeRun properLife (.boot n domain object clock) h s) (hm : m ∉ s.free)
    (hp : (s.page m).fictitious = false) (hf : s.next (.free m) = some s₁)
    (hr' : LifeRun (leavesFreed m) s₁ h' s') :
    (m ∈ s'.free ↔ (s.page m).holdCount.toNat + holdsSince m h' = 0) ∧
      (m ∉ s'.free → (s'.unhold m).isSome) := by
  have hs := PageLife.LifeRun.sound (PageLife.boot_sound n domain object clock)
    (fun _ _ _ hop => hop) hr
  have hop : LifeOp.Proper s (.free m) := hm
  have hs₁ : s₁.Sound n := hs.next hop hf
  have hboth : s'.Sound n ∧ s'.Freed ((s.page m).holdCount.toNat + holdsSince m h') m := by
    unfold LifeRun at hr'
    refine GuardedRun.invariant
      (P := fun h s' => s'.Sound n ∧ s'.Freed ((s.page m).holdCount.toNat + holdsSince m h) m)
      ⟨hs₁, ?_⟩ (fun h s₂ op s₃ r _ hP hop hstep => ?_) hr'
    · show s₁.Freed (_ + 0) m
      rw [Int.add_zero]
      exact PageLife.freed_of_free hs hm hp hf
    · obtain ⟨s₄, h₄, he⟩ := Option.map_eq_some_iff.mp hstep
      cases he
      refine ⟨hP.1.next hop.1 h₄, ?_⟩
      have hnext := hP.2.next hP.1 hop.1 hop.2 h₄
      have hsum : ((s.page m).holdCount.toNat : Int) + holdsSince m ((op, ()) :: h) =
          (s.page m).holdCount.toNat + holdsSince m h + op.holds m := by
        show _ + (op.holds m + holdsSince m h) = _
        omega
      rw [hsum]
      exact hnext
  exact ⟨hboth.2.mem_iff hboth.1, hboth.2.unhold_isSome hboth.1⟩

/-- A page is freed while it is held twice. -/
theorem freed_at_last_unhold_twice : ∃ h s s₁ h' s',
    LifeRun properLife (.boot 2 (fun _ => 0) uncachedSeventh ⟨0, 0⟩) h s ∧
      s.next (.free 0) = some s₁ ∧ LifeRun (leavesFreed 0) s₁ h' s' ∧ 0 ∈ s'.free := by
  obtain ⟨h, s, hr, hc⟩ := lifeRun_of_replay properLife (.boot 2 (fun _ => 0) uncachedSeventh ⟨0, 0⟩)
    [.alloc 0 ⟨some 7, false, true, false, false⟩ true, .hold 0, .hold 0]
    (fun _ s => ((0 ∉ s.free ∧ (s.page 0).fictitious = false) ∧ (s.page 0).holdCount = 2) &&
      (s.next (.free 0)).any fun s₁ =>
        (GuardedRun.replay (fun s op => (PageLife.next s op).map (·, ())) (leavesFreed 0) [] s₁
          [.unhold 0, .allocFreelist 1 false, .unhold 0]).any
            fun r => holdsSince 0 r.1 = -2) (by decide)
  obtain ⟨hfacts, hnext⟩ := (Bool.and_eq_true _ _).mp hc
  obtain ⟨⟨hm, hp⟩, hheld⟩ := of_decide_eq_true hfacts
  obtain ⟨s₁, hf, hrun⟩ := (Option.any_eq_true _ _).mp hnext
  obtain ⟨h', s', hr', hsince⟩ := lifeRun_of_replay (leavesFreed 0) s₁ _
    (fun h _ => holdsSince 0 h = -2) hrun
  refine ⟨h, s, s₁, h', s', hr, hf, hr', (freed_at_last_unhold hr hm hp hf hr').1.mpr ?_⟩
  rw [hheld, of_decide_eq_true hsince]
  rfl

end FreeBSDEdits
