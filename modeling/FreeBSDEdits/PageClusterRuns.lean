import FreeBSDEdits.PageCluster

namespace FreeBSDEdits

namespace ClusterCall

variable {R Mem P O : Type} {v : VmRadix R Mem P} {k : ClusterCall R P O} {o : O} {c : Cluster P}

/-- `p` is the page of the object at index `i`. -/
def At (k : ClusterCall R P O) (o : O) (i : Nat) (p : P) : Prop :=
  (k.pages.page p).object = some o ∧ (k.pages.page p).pindex.toNat = i

section

variable [DecidableEq P] {i : Nat} {p q : P}

theorem At.prev (hs : k.pages.AllCoherent v) (hp : k.At o i p) :
    k.pages.vmPagePrev p = some q ↔ ∃ j, i = j + 1 ∧ k.At o j q := by
  obtain ⟨ho, rfl⟩ := hp
  rw [hs.prev_eq ho]
  by_cases h0 : (k.pages.page p).pindex = 0
  · rw [if_pos h0, h0]
    simp
  · have hpos : (k.pages.page p).pindex.toNat ≠ 0 := fun h => h0 (UInt64.toNat_inj.mp h)
    have hle : (1 : UInt64) ≤ (k.pages.page p).pindex := by
      rw [UInt64.le_iff_toNat_le]
      exact Nat.pos_of_ne_zero hpos
    have hsub : ((k.pages.page p).pindex - 1).toNat = (k.pages.page p).pindex.toNat - 1 :=
      UInt64.toNat_sub_of_le _ _ hle
    rw [if_neg h0, hs.places o]
    constructor
    · rintro ⟨hq, hidx⟩
      refine ⟨(k.pages.page p).pindex.toNat - 1, by omega, hq, ?_⟩
      rw [hidx, hsub]
    · rintro ⟨j, hj, hq, hidx⟩
      refine ⟨hq, UInt64.toNat_inj.mp ?_⟩
      omega

theorem At.next (hs : k.pages.AllCoherent v) (hp : k.At o i p) :
    k.pages.vmPageNext p = some q ↔ k.At o (i + 1) q := by
  obtain ⟨ho, rfl⟩ := hp
  have hlt := (k.pages.page p).pindex.toNat_lt
  have hadd : ((k.pages.page p).pindex + 1).toNat = ((k.pages.page p).pindex.toNat + 1) % 2 ^ 64 :=
    UInt64.toNat_add ..
  rw [hs.next_eq ho]
  by_cases h0 : (k.pages.page p).pindex + 1 = 0
  · rw [if_pos h0]
    have hq := (k.pages.page q).pindex.toNat_lt
    rw [h0] at hadd
    change 0 = _ at hadd
    refine iff_of_false (by simp) fun h => ?_
    have := h.2
    omega
  · have hne : ((k.pages.page p).pindex + 1).toNat ≠ 0 := fun h => h0 (UInt64.toNat_inj.mp h)
    rw [if_neg h0, hs.places o]
    constructor
    · rintro ⟨hq, hidx⟩
      refine ⟨hq, ?_⟩
      rw [hidx]
      omega
    · rintro ⟨hq, hidx⟩
      exact ⟨hq, UInt64.toNat_inj.mp (by omega)⟩

end

/-- The index of the first page of the cluster. -/
def lo (k : ClusterCall R P O) (c : Cluster P) : Nat :=
  k.pindex.toNat - (k.vmPageoutPageCount - c.pageBase)

/-- The array holds a run of the object's pages around the page of the call, every other one of
which was found eligible. -/
structure Ok (k : ClusterCall R P O) (o : O) (c : Cluster P) : Prop where
  base_le : c.pageBase ≤ k.vmPageoutPageCount
  is_pos : 1 ≤ c.is
  count : c.pageoutCount = k.vmPageoutPageCount - c.pageBase + c.is
  count_le : c.pageoutCount ≤ k.vmPageoutPageCount
  ib : c.ib ≠ 0 → c.ib = k.vmPageoutPageCount - c.pageBase + 1
  low : k.vmPageoutPageCount - c.pageBase ≤ k.pindex.toNat
  pages : ∀ j < c.pageoutCount, ∃ p, c.mc (c.pageBase + j) = some p ∧ k.At o (k.lo c + j) p ∧
    (p = k.m ∨ ∃ t < c.tests, (k.look t p).eligible = true)
  pb : c.mc c.pageBase = some c.pb
  ps : c.mc (c.pageBase + (c.pageoutCount - 1)) = some c.ps

/-- There is no page at the index, or one of the first `tests` tests has turned it down. -/
def Blocked (k : ClusterCall R P O) (o : O) (tests j : Nat) : Prop :=
  ∀ q, k.At o j q → ∃ t < tests, (k.look t q).eligible = false

theorem Blocked.mono {tests tests' j : Nat} (hb : k.Blocked o tests j) (hle : tests ≤ tests') :
    k.Blocked o tests' j := by
  intro q hq
  obtain ⟨t, ht, he⟩ := hb q hq
  exact ⟨t, Nat.lt_of_lt_of_le ht hle, he⟩

/-- The forward scan cannot go to the index. -/
def EndAt (k : ClusterCall R P O) (o : O) (tests j : Nat) : Prop :=
  k.size.toNat ≤ j ∨ k.Blocked o tests j

theorem EndAt.mono {tests tests' j : Nat} (he : k.EndAt o tests j) (hle : tests ≤ tests') :
    k.EndAt o tests' j :=
  he.imp_right fun hb => hb.mono hle

namespace Ok

theorem pages_later (hc : k.Ok o c) {tests : Nat} (hle : c.tests ≤ tests) {j : Nat}
    (hj : j < c.pageoutCount) : ∃ p, c.mc (c.pageBase + j) = some p ∧ k.At o (k.lo c + j) p ∧
      (p = k.m ∨ ∃ t < tests, (k.look t p).eligible = true) := by
  obtain ⟨p, hp, hat, hself | ⟨t, ht, he⟩⟩ := hc.pages j hj
  · exact ⟨p, hp, hat, .inl hself⟩
  · exact ⟨p, hp, hat, .inr ⟨t, Nat.lt_of_lt_of_le ht hle, he⟩⟩

/-- A page goes in before the first. -/
theorem back (hc : k.Ok o c) {p : P} (hroom : c.pageoutCount < k.vmPageoutPageCount)
    (hib : c.ib ≠ 0) (hp : k.At o (k.lo c - 1) p) (hlo : 0 < k.lo c)
    (he : (k.look c.tests p).eligible = true) : 0 < c.pageBase ∧ k.Ok o (c.back p) := by
  have hcount := hc.count
  have his := hc.is_pos
  have hbase := hc.base_le
  have hlow := hc.low
  have hib' := hc.ib hib
  rw [lo] at hlo
  have hpos : 0 < c.pageBase := by omega
  have hlo' : ∀ c' : Cluster P, c'.pageBase = c.pageBase - 1 → k.lo c' = k.lo c - 1 := by
    intro c' hb
    rw [lo, lo, hb]
    omega
  refine ⟨hpos, ⟨Nat.le_trans (Nat.sub_le ..) hbase, his, ?_, hroom, fun _ => ?_, ?_,
    fun j hj => ?_, Function.update_self .., ?_⟩⟩
  · change c.pageoutCount + 1 = k.vmPageoutPageCount - (c.pageBase - 1) + c.is
    omega
  · change c.ib + 1 = k.vmPageoutPageCount - (c.pageBase - 1) + 1
    omega
  · change k.vmPageoutPageCount - (c.pageBase - 1) ≤ _
    omega
  · rw [hlo' _ rfl]
    change j < c.pageoutCount + 1 at hj
    change ∃ p', Function.update c.mc (c.pageBase - 1) (some p) (c.pageBase - 1 + j) = some p' ∧ _
    cases j with
    | zero => exact ⟨p, Function.update_self .., hp, .inr ⟨_, Nat.lt_succ_self _, he⟩⟩
    | succ j =>
      have hidx : c.pageBase - 1 + (j + 1) = c.pageBase + j := by omega
      have hne : c.pageBase + j ≠ c.pageBase - 1 := by omega
      have hat : k.lo c - 1 + (j + 1) = k.lo c + j := by
        rw [lo]
        omega
      rw [hidx, hat, Function.update_of_ne hne]
      exact hc.pages_later (Nat.le_succ _) (by omega)
  · change Function.update c.mc (c.pageBase - 1) (some p) (c.pageBase - 1 + (c.pageoutCount + 1 - 1)) =
      some c.ps
    have hidx : c.pageBase - 1 + (c.pageoutCount + 1 - 1) = c.pageBase + (c.pageoutCount - 1) := by omega
    have hne : c.pageBase + (c.pageoutCount - 1) ≠ c.pageBase - 1 := by omega
    rw [hidx, Function.update_of_ne hne]
    exact hc.ps

/-- A page goes in behind the last, within the array. -/
theorem front (hc : k.Ok o c) {p : P} (hroom : c.pageoutCount < k.vmPageoutPageCount)
    (hp : k.At o (k.pindex.toNat + c.is) p) (he : (k.look c.tests p).eligible = true) :
    c.pageBase + c.pageoutCount < 2 * k.vmPageoutPageCount ∧ k.Ok o (c.front p) := by
  have hcount := hc.count
  have his := hc.is_pos
  have hbase := hc.base_le
  have hlow := hc.low
  refine ⟨by omega, ⟨hbase, Nat.succ_le_succ (Nat.zero_le _), ?_, hroom, hc.ib, hlow, fun j hj => ?_,
    ?_, ?_⟩⟩
  · change c.pageoutCount + 1 = k.vmPageoutPageCount - c.pageBase + (c.is + 1)
    omega
  · change j < c.pageoutCount + 1 at hj
    change ∃ p', Function.update c.mc (c.pageBase + c.pageoutCount) (some p) (c.pageBase + j) =
      some p' ∧ k.At o (k.lo c + j) p' ∧ _
    by_cases hlast : j = c.pageoutCount
    · subst hlast
      have hidx : k.lo c + c.pageoutCount = k.pindex.toNat + c.is := by
        rw [lo]
        omega
      rw [hidx]
      exact ⟨p, Function.update_self .., hp, .inr ⟨_, Nat.lt_succ_self _, he⟩⟩
    · have hne : c.pageBase + j ≠ c.pageBase + c.pageoutCount := by omega
      rw [Function.update_of_ne hne]
      exact hc.pages_later (Nat.le_succ _) (by omega)
  · change Function.update c.mc (c.pageBase + c.pageoutCount) (some p) c.pageBase = some c.pb
    have hne : c.pageBase ≠ c.pageBase + c.pageoutCount := by omega
    rw [Function.update_of_ne hne]
    exact hc.pb
  · exact Function.update_self ..

theorem stop (hc : k.Ok o c) {tests : Nat} (hle : c.tests ≤ tests) :
    k.Ok o { c with ib := 0, tests := tests } :=
  ⟨hc.base_le, hc.is_pos, hc.count, hc.count_le, fun h => absurd rfl h, hc.low,
    fun _ hj => hc.pages_later hle hj, hc.pb, hc.ps⟩

end Ok

variable [DecidableEq P]

omit [DecidableEq P] in
theorem At.lt {i : Nat} {p : P} (hp : k.At o i p) : i < 2 ^ 64 :=
  hp.2 ▸ (k.pages.page p).pindex.toNat_lt

end ClusterCall

end FreeBSDEdits
