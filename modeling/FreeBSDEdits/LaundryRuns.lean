import FreeBSDEdits.LaundryWorker

namespace FreeBSDEdits

theorem intOfUint_eq {x : UInt32} (h : x.toNat < 2 ^ 31) : intOfUint x = x.toNat := by
  change x.toBitVec.toInt = (x.toBitVec.toNat : Int)
  apply BitVec.toInt_eq_toNat_of_lt
  change 2 * x.toNat < 2 ^ 32
  omega

theorem ofInt_toNat {x : Int} (h0 : 0 ≤ x) (h : x < 2 ^ 32) : ((UInt32.ofInt x).toNat : Int) = x := by
  have hmod : x % 2 ^ 32 = x := Int.emod_eq_of_lt h0 h
  rw [UInt32.ofInt, hmod, UInt32.toNat_ofNat_of_lt' (by change x.toNat < 2 ^ 32; omega)]
  exact Int.toNat_of_nonneg h0

theorem intOfUint_min {x y : Int} (hx0 : 0 ≤ x) (hx : x < 2 ^ 32) (hy0 : 0 ≤ y) (hy : y < 2 ^ 31) :
    intOfUint (min (UInt32.ofInt x) (UInt32.ofInt y)) = min x y := by
  have hxn := ofInt_toNat hx0 hx
  have hyn := ofInt_toNat hy0 (by omega)
  by_cases hle : UInt32.ofInt x ≤ UInt32.ofInt y
  · have hmin : min (UInt32.ofInt x) (UInt32.ofInt y) = UInt32.ofInt x := if_pos hle
    have hle' := UInt32.le_iff_toNat_le.mp hle
    rw [hmin, intOfUint_eq (by omega), hxn]
    omega
  · have hmin : min (UInt32.ofInt x) (UInt32.ofInt y) = UInt32.ofInt y := if_neg hle
    have hgt := Nat.lt_of_not_le fun h => hle (UInt32.le_iff_toNat_le.mpr h)
    rw [hmin, intOfUint_eq (by omega), hyn]
    omega

theorem timesPageSize_lt (x : UInt32) : (timesPageSize x).toNat < 2 ^ 22 := by
  have h := (x * 4096).toNat_lt
  rw [timesPageSize, UInt32.toNat_div]
  change (x * 4096).toNat / 1024 < _
  omega

/-- The scan launders at most a cluster more than it was asked for, and never a negative number. -/
theorem launderScan_bounds {p : Nat} {vs : List LaundryVisit} (maxscan : Int) {launder : Int} (k : Nat)
    (hvs : ∀ n, .cleaned n ∈ vs → 1 ≤ n ∧ n ≤ (p : Int)) (h0 : 0 < launder) :
    (launderScan vs maxscan launder k).1 ≤ launder ∧
      1 ≤ (launderScan vs maxscan launder k).1 + p := by
  induction vs generalizing maxscan launder k with
  | nil =>
    rw [launderScan]
    omega
  | cons v vs ih =>
    have hvs' : ∀ n, .cleaned n ∈ vs → 1 ≤ n ∧ n ≤ (p : Int) :=
      fun n hn => hvs n (List.mem_cons_of_mem v hn)
    rw [launderScan.eq_def]
    dsimp only
    split
    next =>
      cases v with
      | cleaned n =>
        obtain ⟨h1, hp⟩ := hvs n List.mem_cons_self
        by_cases hleft : 0 < launder - n
        · obtain ⟨hle, hge⟩ := ih (maxscan - 1 - (n - 1)) k hvs' hleft
          exact ⟨by dsimp only; omega, hge⟩
        · -- The target is met: the scan ends here.
          have hdone : launderScan vs (maxscan - 1 - (n - 1)) (launder - n) k = (launder - n, k) := by
            cases vs with
            | nil => rfl
            | cons v' vs =>
              rw [launderScan.eq_def]
              exact if_neg fun h => hleft h.2
          dsimp only
          rw [hdone]
          dsimp only
          omega
      | failed deadlk => exact ih _ _ hvs' h0
      | passed => exact ih _ _ hvs' h0
      | freed => exact ih _ _ hvs' h0
      | requeued => exact ih _ _ hvs' h0
    next => omega

theorem vmPageoutLaunder_bounds {p : Nat} {vs : List LaundryVisit} (pqCnt : Int) {launder : Int}
    (hvs : ∀ n, .cleaned n ∈ vs → 1 ≤ n ∧ n ≤ (p : Int)) (h0 : 0 < launder) :
    0 ≤ (vmPageoutLaunder pqCnt vs launder).1 ∧
      (vmPageoutLaunder pqCnt vs launder).1 < launder + p := by
  obtain ⟨hle, hge⟩ := launderScan_bounds pqCnt 0 hvs h0
  change 0 ≤ launder - _ ∧ launder - _ < _
  omega

namespace LaundryWorker

variable {w : LaundryWorker} {i : LaundryInput}

/-- What every iteration of the worker starts and ends with. -/
structure Inv (w : LaundryWorker) : Prop where
  target_nonneg : 0 ≤ w.target
  target_lt : w.target < 2 ^ 31
  cycle_nonneg : 0 ≤ w.shortfallCycle
  cycle_le : w.shortfallCycle ≤ 5
  shortfall_lt : w.shortfall < 2 ^ 31
  -- A background run knows the target it had when the page daemon was last woken.
  background : w.inShortfall = false → 0 < w.target →
    ∃ l, w.lastTarget = some l ∧ w.target ≤ l ∧ l < 2 ^ 31

theorem start_inv : start.Inv :=
  ⟨by decide, by decide, by decide, by decide, by decide, fun _ h => absurd h (by decide)⟩

theorem launderShare_spec (h0 : 0 ≤ w.target) (hlt : w.target < 2 ^ 31)
    (hc : 0 < w.shortfallCycle) (hc5 : w.shortfallCycle ≤ 5) (hs : w.shortfall < 2 ^ 31)
    (hin : w.inShortfall = true) (i : LaundryInput) :
    ∃ w' launder, launderShare w i = some (w', launder) ∧ w'.Inv ∧ 0 ≤ launder ∧
      launder ≤ w'.target ∧ w'.inShortfall = true ∧ w'.lastLaunder = i.wakeups := by
  have hdiv : w.target.tdiv w.shortfallCycle = w.target / w.shortfallCycle :=
    Int.tdiv_eq_ediv_of_nonneg h0
  refine ⟨_, _, if_neg (by omega), ⟨h0, hlt, ?_, ?_, hs, fun hf => ?_⟩, ?_, ?_, hin, rfl⟩
  · change 0 ≤ w.shortfallCycle - 1
    omega
  · change w.shortfallCycle - 1 ≤ 5
    omega
  · change w.inShortfall = false at hf
    rw [hin] at hf
    cases hf
  · rw [hdiv]
    exact Int.ediv_nonneg h0 (by omega)
  · rw [hdiv]
    exact Int.ediv_le_self _ h0

/-- The pages of one share of a background run. -/
def share (t : LaundryTunables) : Int := (timesPageSize t.vmBackgroundLaunderRate).toNat / 10

theorem share_eq (t : LaundryTunables) :
    (intOfUint (timesPageSize t.vmBackgroundLaunderRate)).tdiv vmLaunderRate = share t := by
  have hlt := timesPageSize_lt t.vmBackgroundLaunderRate
  rw [intOfUint_eq (by omega)]
  exact Int.tdiv_eq_ediv_of_nonneg (Int.natCast_nonneg _)

theorem share_nonneg (t : LaundryTunables) : 0 ≤ share t :=
  Int.ediv_nonneg (Int.natCast_nonneg _) (by decide)

/-- The cap of a background run. -/
def cap (t : LaundryTunables) : Int := (timesPageSize t.vmBackgroundLaunderMax).toNat

/-- How `trybackground` ends: without a run, with the target of a run that the page daemon was
woken for, or on with a run that is below its cap. -/
inductive Background (i : LaundryInput) (w w' : LaundryWorker) (launder : Int) : Prop
  | rest (target : w'.target = 0) (last : w'.lastLaunder = w.lastLaunder) (none : launder = 0)
  | woken (target : 0 < w'.target) (target_lt : w'.target < 2 ^ 31)
      (wakeups : i.wakeups ≠ w.lastLaunder) (last : w'.lastLaunder = i.wakeups)
      (lastTarget : w'.lastTarget = some w'.target)
      (launder_eq : launder = min (share i.tunables) w'.target)
  | onward (target : 0 < w.target) (same : w'.target = w.target) (wakeups : i.wakeups = w.lastLaunder)
      (last : w'.lastLaunder = w.lastLaunder) (lastTarget : w'.lastTarget = w.lastTarget)
      (below : ∀ l, w.lastTarget = some l → w.target ≤ l → l < 2 ^ 31 →
        l - w.target < cap i.tunables)
      (launder_eq : launder = min (share i.tunables) w.target)

theorem trybackground_spec (ht : i.tunables.Ok) (h0 : 0 ≤ w.target)
    (hlt : w.target < 2 ^ 31)
    (hbg : 0 < w.target → ∃ l, w.lastTarget = some l ∧ w.target ≤ l ∧ l < 2 ^ 31) :
    ∃ w' launder, trybackground w i = some (w', launder) ∧ Background i w w' launder ∧
      w'.shortfall = w.shortfall ∧ w'.shortfallCycle = w.shortfallCycle ∧
      w'.inShortfall = w.inShortfall := by
  have htarget := intOfUint_eq ht.target
  have hnew := ht.target
  simp only [trybackground, share_eq]
  by_cases hstart : w.target = 0 ∧ i.wakeups ≠ w.lastLaunder ∧
      (i.vInactiveCount + i.vFreeCount).toUInt64 ≤
        i.vLaundryCount.toUInt64 * (isqrt (i.wakeups - w.lastLaunder)).toUInt64
  · rw [if_pos hstart]
    by_cases hpos : 0 < intOfUint i.tunables.vmBackgroundLaunderTarget
    · rw [if_pos hpos, if_pos hstart.2.1]
      refine ⟨_, _, rfl, .woken hpos ?_ hstart.2.1 rfl rfl rfl, rfl, rfl, rfl⟩
      change intOfUint i.tunables.vmBackgroundLaunderTarget < _
      omega
    · rw [if_neg hpos]
      refine ⟨_, _, rfl, .rest ?_ rfl rfl, rfl, rfl, rfl⟩
      change intOfUint i.tunables.vmBackgroundLaunderTarget = 0
      omega
  · rw [if_neg hstart]
    by_cases hpos : 0 < w.target
    · rw [if_pos hpos]
      by_cases hwake : i.wakeups ≠ w.lastLaunder
      · rw [if_pos hwake]
        exact ⟨_, _, rfl, .woken hpos hlt hwake rfl rfl rfl, rfl, rfl, rfl⟩
      · obtain ⟨l, hl, hle, hl31⟩ := hbg hpos
        rw [if_neg hwake, hl, Option.bind_some]
        have hdiff := ofInt_toNat (x := l - w.target) (by omega) (by omega)
        by_cases hcap : timesPageSize i.tunables.vmBackgroundLaunderMax ≤ UInt32.ofInt (l - w.target)
        · rw [if_pos hcap]
          exact ⟨_, _, rfl, .rest rfl rfl (min_eq_right (share_nonneg _)), rfl, rfl, rfl⟩
        · rw [if_neg hcap]
          refine ⟨_, _, rfl, .onward hpos rfl (not_not.mp hwake) rfl hl.symm (fun l' hl' _ _ => ?_)
            rfl, rfl, rfl, rfl⟩
          have hlt' := Nat.lt_of_not_le fun h => hcap (UInt32.le_iff_toNat_le.mpr h)
          have heq : l' = l := Option.some.inj (hl'.symm.trans hl)
          rw [cap, heq]
          omega
    · rw [if_neg hpos]
      exact ⟨_, _, rfl, .rest (by change w.target = 0; omega) rfl rfl, rfl, rfl, rfl⟩

theorem dolaundry_spec (hi : i.Ok) {launder : Int} (h0 : 0 ≤ launder)
    (hle : launder ≤ w.target) (hlt : w.target < 2 ^ 31) :
    ∃ n target shortfall, dolaundry w launder i =
        ({ w with target := target, shortfall := shortfall }, n) ∧
      0 ≤ n ∧ n ≤ launder + i.tunables.vmPageoutPageCount ∧ (launder = 0 → n = 0) ∧
      (target = 0 ∨ target = w.target - min n w.target) ∧ shortfall < 2 ^ 31 := by
  have hp := hi.tunables.pageCount
  obtain ⟨n, hn, hn0, hnle, hnz⟩ : ∃ n,
      (if 0 < launder then (vmPageoutLaunder i.pqCnt i.visits launder).1 else 0) = n ∧ 0 ≤ n ∧
        n ≤ launder + i.tunables.vmPageoutPageCount ∧ (launder = 0 → n = 0) := by
    by_cases hpos : 0 < launder
    · obtain ⟨hge, hless⟩ := vmPageoutLaunder_bounds i.pqCnt hi.visits hpos
      exact ⟨_, if_pos hpos, hge, by omega, fun h => by omega⟩
    · exact ⟨0, if_neg hpos, by omega, by omega, fun _ => rfl⟩
  have hmin := intOfUint_min hn0 (by omega : n < 2 ^ 32) (by omega : 0 ≤ w.target) hlt
  simp only [dolaundry, hn, hmin]
  split
  next => exact ⟨n, 0, _, rfl, hn0, hnle, hnz, .inl rfl, hi.shortfall⟩
  next => exact ⟨n, _, 0, rfl, hn0, hnle, hnz, .inr rfl, by omega⟩

/-- The wakeup count of the last iteration. -/
def lastWakeups (h : List (LaundryInput × Int)) : Option UInt32 := h.head?.map fun j => j.1.wakeups

theorem sinceWakeup_cons (i : LaundryInput) (n : Int) (h : List (LaundryInput × Int)) :
    sinceWakeup ((i, n) :: h) =
      n + if lastWakeups h = some i.wakeups then sinceWakeup h else 0 := by
  rw [sinceWakeup]
  change (if lastWakeups h = some i.wakeups then _ else _) = _
  split
  · rfl
  · exact (Int.add_zero n).symm

/-- The cap, the pages of a share and those of a cluster are no more than so many. -/
structure Within (c r p : Nat) (t : LaundryTunables) : Prop where
  max : cap t ≤ c
  rate : share t ≤ r
  pageCount : t.vmPageoutPageCount ≤ p

/-- The pages laundered in the background since the last wakeup are bounded, and told by the
variables while a background run lasts. -/
structure Bounded (c r p : Nat) (h : List (LaundryInput × Int)) (w : LaundryWorker) : Prop where
  inv : w.Inv
  nonneg : 0 ≤ sinceWakeup h
  le : sinceWakeup h ≤ c + r + p
  last : sinceWakeup h ≠ 0 → lastWakeups h = some w.lastLaunder
  running : w.inShortfall = false → 0 < w.target → lastWakeups h = some w.lastLaunder ∧
    ∀ l, w.lastTarget = some l → sinceWakeup h = l - w.target

variable {c r p : Nat} {h : List (LaundryInput × Int)}

/-- The iteration after `determine` in a shortfall: nothing is laundered in the background. -/
theorem Bounded.shortfall (hb : Bounded c r p h w) (hi : i.Ok) {w₁ : LaundryWorker} {launder : Int}
    (hinv : w₁.Inv) (h0 : 0 ≤ launder) (hle : launder ≤ w₁.target)
    (hin : w₁.inShortfall = true) (hlast : w₁.lastLaunder = i.wakeups) :
    Bounded c r p ((i, 0) :: h) (dolaundry w₁ launder i).1 := by
  obtain ⟨n, target, shortfall, heq, hn0, -, -, htarget, hs⟩ :=
    dolaundry_spec hi h0 hle hinv.target_lt
  have h1 := hinv.target_nonneg
  have h2 := hinv.target_lt
  have hnone : ∀ {q : Prop}, w₁.inShortfall = false → q := by
    intro q hf
    rw [hin] at hf
    cases hf
  rw [heq]
  refine ⟨⟨?_, ?_, hinv.cycle_nonneg, hinv.cycle_le, hs, hnone⟩, ?_, ?_, fun _ => ?_, hnone⟩
  · change 0 ≤ target
    omega
  · change target < _
    omega
  · rw [sinceWakeup_cons]
    have := hb.nonneg
    split <;> omega
  · have := hb.le
    have := hb.nonneg
    rw [sinceWakeup_cons]
    split <;> omega
  · change some i.wakeups = some w₁.lastLaunder
    rw [hlast]

theorem cap_nonneg (t : LaundryTunables) : 0 ≤ cap t := Int.natCast_nonneg _

/-- The iteration after `trybackground`. -/
theorem Bounded.background (hb : Bounded c r p h w) (hi : i.Ok) (hin : Within c r p i.tunables)
    {w₀ w₁ : LaundryWorker} {launder : Int} (hbg : Background i w₀ w₁ launder)
    (hfrom : w₀ = w ∧ w.inShortfall = false ∨ w₀.target = 0 ∧ w₀.lastLaunder = w.lastLaunder)
    (hc0 : 0 ≤ w₁.shortfallCycle) (hc5 : w₁.shortfallCycle ≤ 5) :
    Bounded c r p ((i, (dolaundry w₁ launder i).2) :: h) (dolaundry w₁ launder i).1 := by
  have hlast₀ : w₀.lastLaunder = w.lastLaunder := by
    rcases hfrom with ⟨rfl, -⟩ | ⟨-, hl⟩
    · rfl
    · exact hl
  have hS0 := hb.nonneg
  have hS := hb.le
  have hSlast := hb.last
  have hcap := hin.max
  have hrate := hin.rate
  have hpages := hin.pageCount
  have hc := cap_nonneg i.tunables
  have hr := share_nonneg i.tunables
  have hnew : ∀ n, sinceWakeup ((i, n) :: h) =
      n + if lastWakeups h = some i.wakeups then sinceWakeup h else 0 :=
    fun n => sinceWakeup_cons i n h
  have h₁ : 0 ≤ launder ∧ launder ≤ w₁.target ∧ w₁.target < 2 ^ 31 ∧ 0 ≤ w₁.target := by
    cases hbg with
    | rest target last none => omega
    | woken target target_lt wakeups last lastTarget launder_eq => omega
    | onward target same wakeups last lastTarget below launder_eq =>
      rcases hfrom with ⟨rfl, -⟩ | ⟨h0, -⟩
      · have := hb.inv.target_lt
        omega
      · omega
  obtain ⟨n, target, shortfall, heq, hn0, hnle, hnz, htarget, hs⟩ :=
    dolaundry_spec hi h₁.1 h₁.2.1 h₁.2.2.1
  rw [heq]
  generalize hnow : (if lastWakeups h = some i.wakeups then sinceWakeup h else 0) = now at hnew
  have hnow0 : 0 ≤ now ∧ now ≤ sinceWakeup h := by
    rw [← hnow]
    split <;> omega
  have hnowlast : now ≠ 0 → i.wakeups = w.lastLaunder := by
    intro hne
    rw [← hnow] at hne
    split at hne
    next he => exact Option.some.inj (he.symm.trans (hSlast hne))
    next => exact absurd rfl hne
  have htarget0 : 0 ≤ target ∧ target < 2 ^ 31 ∧ target ≤ w₁.target := by omega
  cases hbg with
  | rest hzero last none =>
    have hn : n = 0 := hnz none
    subst hn
    refine ⟨⟨htarget0.1, htarget0.2.1, hc0, hc5, hs, fun _ hpos => ?_⟩, ?_, ?_, fun hne => ?_,
      fun _ hpos => ?_⟩
    · change 0 < target at hpos
      omega
    · rw [hnew]
      omega
    · rw [hnew]
      omega
    · rw [hnew, Int.zero_add] at hne
      exact congrArg some ((hnowlast hne).trans (hlast₀.symm.trans last.symm))
    · change 0 < target at hpos
      omega
  | woken hpos₁ target_lt wakeups last lastTarget launder_eq =>
    have hnow' : now = 0 := by
      by_contra hne
      exact wakeups ((hnowlast hne).trans hlast₀.symm)
    refine ⟨⟨htarget0.1, htarget0.2.1, hc0, hc5, hs,
      fun _ _ => ⟨w₁.target, lastTarget, htarget0.2.2, target_lt⟩⟩, ?_, ?_,
      fun _ => congrArg some last.symm, fun _ hpos => ⟨congrArg some last.symm, fun l hl => ?_⟩⟩
    · rw [hnew]
      omega
    · rw [hnew]
      omega
    · change 0 < target at hpos
      have hl' : w₁.target = l := Option.some.inj (lastTarget.symm.trans hl)
      change _ = l - target
      rw [hnew]
      omega
  | onward hpos₀ same wakeups last lastTarget below launder_eq =>
    obtain ⟨rfl, hout⟩ : w₀ = w ∧ w.inShortfall = false :=
      hfrom.resolve_right fun hz => by omega
    obtain ⟨hw, hsince⟩ := hb.running hout hpos₀
    obtain ⟨l, hl, hle, hl31⟩ := hb.inv.background hout hpos₀
    have hnow' : now = l - w₀.target := by
      rw [← hnow, if_pos (hw.trans (congrArg some wakeups.symm))]
      exact hsince l hl
    have hbelow := below l hl hle hl31
    have hlast : some i.wakeups = some w₁.lastLaunder := congrArg some (wakeups.trans last.symm)
    refine ⟨⟨htarget0.1, htarget0.2.1, hc0, hc5, hs, fun _ _ => ⟨l, lastTarget.trans hl, ?_, hl31⟩⟩,
      ?_, ?_, fun _ => hlast, fun _ hpos => ⟨hlast, fun l' hl' => ?_⟩⟩
    · change target ≤ l
      omega
    · rw [hnew]
      omega
    · rw [hnew]
      omega
    · change 0 < target at hpos
      have heq' : l' = l := Option.some.inj (hl'.symm.trans (lastTarget.trans hl))
      change _ = l' - target
      rw [hnew]
      omega

/-- Every iteration of the worker passes its assertions and keeps the bound. -/
theorem Bounded.iteration (hb : Bounded c r p h w) (hi : i.Ok) (hin : Within c r p i.tunables) :
    ∃ w' n, iteration w i = some (w', n) ∧ Bounded c r p ((i, n) :: h) w' := by
  have hinv := hb.inv
  -- A shortfall laundering with at least one cycle to go.
  have hshare : ∀ w₂ : LaundryWorker, determine w i = launderShare w₂ i → 0 ≤ w₂.target →
      w₂.target < 2 ^ 31 → 0 < w₂.shortfallCycle → w₂.shortfallCycle ≤ 5 → w₂.shortfall < 2 ^ 31 →
      w₂.inShortfall = true →
      ∃ w' n, LaundryWorker.iteration w i = some (w', n) ∧ Bounded c r p ((i, n) :: h) w' := by
    intro w₂ hdet h0 hlt hc hc5 hs hin
    obtain ⟨w₁, launder, heq, hinv₁, hl0, hle, hin₁, hlast⟩ :=
      launderShare_spec h0 hlt hc hc5 hs hin i
    refine ⟨(dolaundry w₁ launder i).1, 0, ?_, hb.shortfall hi hinv₁ hl0 hle hin₁ hlast⟩
    rw [LaundryWorker.iteration, if_pos ⟨hinv.target_nonneg, hinv.cycle_nonneg⟩, hdet, heq,
      Option.map_some, hin₁]
    rfl
  have hback : ∀ w₀ : LaundryWorker, determine w i = trybackground w₀ i →
      w₀ = w ∧ w.inShortfall = false ∨ w₀.target = 0 ∧ w₀.lastLaunder = w.lastLaunder →
      w₀.inShortfall = false → w₀.shortfallCycle = w.shortfallCycle →
      ∃ w' n, LaundryWorker.iteration w i = some (w', n) ∧ Bounded c r p ((i, n) :: h) w' := by
    intro w₀ hdet hfrom hout hcycle
    have htarget : 0 ≤ w₀.target ∧ w₀.target < 2 ^ 31 := by
      rcases hfrom with ⟨rfl, -⟩ | ⟨h0, -⟩
      · exact ⟨hinv.target_nonneg, hinv.target_lt⟩
      · omega
    have hbg₀ : 0 < w₀.target → ∃ l, w₀.lastTarget = some l ∧ w₀.target ≤ l ∧ l < 2 ^ 31 := by
      intro hpos
      rcases hfrom with ⟨rfl, hf⟩ | ⟨h0, -⟩
      · exact hinv.background hf hpos
      · omega
    obtain ⟨w₁, launder, heq, hbg, -, hc₁, hin₁⟩ :=
      trybackground_spec hi.tunables htarget.1 htarget.2 hbg₀
    have hcyc := hc₁.trans hcycle
    have hbound := hb.background hi hin hbg hfrom (hcyc ▸ hinv.cycle_nonneg) (hcyc ▸ hinv.cycle_le)
    refine ⟨_, _, ?_, hbound⟩
    rw [LaundryWorker.iteration, if_pos ⟨hinv.target_nonneg, hinv.cycle_nonneg⟩, hdet, heq,
      Option.map_some, hin₁, hout]
    rfl
  by_cases hshort : 0 < w.shortfall
  · have hcycle : vmLaunderRate / vmInactScanRate = 5 := by decide
    exact hshare _ (if_pos hshort) (Int.le_of_lt hshort) hinv.shortfall_lt
      (hcycle ▸ (by decide : (0 : Int) < 5)) (hcycle ▸ Int.le_refl 5) hinv.shortfall_lt rfl
  · cases hshortfall : w.inShortfall with
    | false =>
      have hdet : determine w i = trybackground w i := by
        rw [determine, if_neg hshort, hshortfall, if_pos rfl]
      exact hback w hdet (.inl ⟨rfl, hshortfall⟩) hshortfall rfl
    | true =>
      by_cases hover : w.shortfallCycle = 0 ∨ i.vmLaundryTarget ≤ 0
      · have hdet : determine w i =
            trybackground { w with inShortfall := false, target := 0 } i := by
          rw [determine, if_neg hshort, hshortfall, if_neg (by decide), if_pos hover]
        exact hback _ hdet (.inr ⟨rfl, rfl⟩) rfl rfl
      · have hdet : determine w i = launderShare w i := by
          rw [determine, if_neg hshort, hshortfall, if_neg (by decide), if_neg hover]
        have hc := hinv.cycle_nonneg
        exact hshare w hdet hinv.target_nonneg hinv.target_lt (by omega) hinv.cycle_le
          hinv.shortfall_lt hshortfall

theorem start_bounded (c r p : Nat) : Bounded c r p [] start := by
  refine ⟨start_inv, Int.le_refl 0, ?_, fun h => absurd rfl h, fun _ h => absurd h (by decide)⟩
  change (0 : Int) ≤ _
  omega

theorem Run.bounded (hr : Run h w) (ht : ∀ e ∈ h, Within c r p e.1.tunables) :
    Bounded c r p h w := by
  induction hr with
  | start => exact start_bounded c r p
  | next _ hi hs ih =>
    obtain ⟨hlast, ht⟩ := List.forall_mem_cons.mp ht
    obtain ⟨w', n, heq, hb⟩ := (ih ht).iteration hi hlast
    obtain ⟨rfl, rfl⟩ := Prod.mk.inj (Option.some.inj (hs.symm.trans heq))
    exact hb

/-- Numbers that no tunables exceed. -/
theorem within_any {t : LaundryTunables} (ht : t.Ok) : Within (2 ^ 22) (2 ^ 22) (2 ^ 31) t := by
  have hmax := timesPageSize_lt t.vmBackgroundLaunderMax
  have hrate := timesPageSize_lt t.vmBackgroundLaunderRate
  have hpages := ht.pageCount
  constructor
  · rw [cap]
    omega
  · rw [share]
    omega
  · omega

theorem Run.ok (hr : Run h w) : ∀ e ∈ h, e.1.Ok := by
  induction hr with
  | start => exact fun _ he => absurd he List.not_mem_nil
  | next _ hi _ ih => exact List.forall_mem_cons.mpr ⟨hi, ih⟩

/-- The defaults, with a target of 500 pages. -/
def defaultTunables : LaundryTunables := ⟨500, 4096, 20 * 1024, 32⟩

theorem defaultTunables_ok : defaultTunables.Ok := ⟨by decide, by decide⟩

/-- The page daemon was woken and there is much to launder: two clusters go out. -/
def wokenInput : LaundryInput where
  tunables := defaultTunables
  wakeups := 1
  vmLaundryTarget := 0
  vInactiveCount := 10
  vFreeCount := 10
  vLaundryCount := 100
  pqCnt := 100
  visits := [.cleaned 32, .passed, .cleaned 32]
  vmLaundryRequest := .idle
  vmLaundryTarget' := 0
  vmPageoutDeficit := 0

/-- In the next iteration the rate is lower and so is the target. -/
def slowedInput : LaundryInput :=
  { wokenInput with tunables := ⟨100, 20, 20 * 1024, 32⟩, visits := [.cleaned 32] }

theorem wokenInput_ok : wokenInput.Ok := by
  refine ⟨defaultTunables_ok, fun n hn => ?_, by decide⟩
  simp only [wokenInput, List.mem_cons, LaundryVisit.cleaned.injEq, reduceCtorEq, false_or,
    List.not_mem_nil, or_false, or_self] at hn
  subst hn
  decide

theorem slowedInput_ok : slowedInput.Ok := by
  refine ⟨⟨by decide, by decide⟩, fun n hn => ?_, by decide⟩
  simp only [slowedInput, List.mem_cons, LaundryVisit.cleaned.injEq, List.not_mem_nil,
    or_false] at hn
  subst hn
  decide

theorem exists_background : ∃ w, Run [(slowedInput, 32), (wokenInput, 64)] w ∧ w.target = 404 := by
  have hwoken : Run [(wokenInput, 64)] ⟨436, some 500, 0, 0, false, 1⟩ :=
    .next .start wokenInput_ok (by decide +kernel)
  exact ⟨⟨404, some 500, 0, 0, false, 1⟩, .next hwoken slowedInput_ok (by decide +kernel), rfl⟩

/-- Whatever the rest of the kernel does and whatever the tunables become, the laundry thread's
assertions hold, it never divides by zero and never reads `last_target` before it has a value. -/
theorem worker_goes_on (hr : Run h w) :
    0 ≤ w.target ∧ 0 ≤ w.shortfallCycle ∧ w.shortfallCycle ≤ vmLaunderRate / vmInactScanRate ∧
      ∀ i : LaundryInput, i.Ok → ∃ w' n, w.iteration i = some (w', n) := by
  have hb := hr.bounded (fun e he => within_any (hr.ok e he).tunables)
  refine ⟨hb.inv.target_nonneg, hb.inv.cycle_nonneg, hb.inv.cycle_le, fun i hi => ?_⟩
  obtain ⟨w', n, heq, -⟩ := hb.iteration hi (within_any hi.tunables)
  exact ⟨w', n, heq⟩

theorem worker_goes_on_slowed : ∃ w : LaundryWorker, w.target = 404 ∧
    ∃ w' n, w.iteration wokenInput = some (w', n) := by
  obtain ⟨w, hr, hw⟩ := exists_background
  exact ⟨w, hw, (worker_goes_on hr).2.2.2 _ wokenInput_ok⟩

/-- Background laundering is capped: while the page daemon is not woken, no more pages are
laundered than the cap, one share and one cluster, each the largest that the tunables allowed. -/
theorem background_capped (hr : Run h w)
    (ht : ∀ e ∈ h, (timesPageSize e.1.tunables.vmBackgroundLaunderMax).toNat ≤ c ∧
      (timesPageSize e.1.tunables.vmBackgroundLaunderRate).toNat / 10 ≤ r ∧
      e.1.tunables.vmPageoutPageCount ≤ p) :
    sinceWakeup h ≤ c + r + p := by
  refine (hr.bounded fun e he => ?_).le
  obtain ⟨hmax, hrate, hpages⟩ := ht e he
  refine ⟨?_, ?_, hpages⟩
  · rw [cap]
    omega
  · rw [share]
    omega

theorem background_capped_slowed : sinceWakeup [(slowedInput, 32), (wokenInput, 64)] = 96 ∧
    sinceWakeup [(slowedInput, 32), (wokenInput, 64)] ≤ 81920 + 1638 + 32 := by
  obtain ⟨w, hr, -⟩ := exists_background
  have ht : ∀ e ∈ [(slowedInput, (32 : Int)), (wokenInput, 64)],
      (timesPageSize e.1.tunables.vmBackgroundLaunderMax).toNat ≤ 81920 ∧
      (timesPageSize e.1.tunables.vmBackgroundLaunderRate).toNat / 10 ≤ 1638 ∧
      e.1.tunables.vmPageoutPageCount ≤ 32 := by
    decide
  exact ⟨by decide, background_capped hr ht⟩

end LaundryWorker

end FreeBSDEdits
