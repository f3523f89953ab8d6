import FreeBSDEdits.OomVote

namespace FreeBSDEdits

namespace OomVote

variable {T : Type} [DecidableEq T] {s : OomVote T} {h : List (OomLabel T × Bool)}

theorem streak_true (ps : List Bool) : streak (true :: ps) = streak ps + 1 := rfl

@[simp] theorem put_vmd (d : T) (v : OomDomain) :
    (s.put d v).vmd = Function.update s.vmd d v := rfl

/-- What a daemon's state owes to its passes, to the votes it has cast and to a lower bound `k`
of the tunable. -/
structure DomainOk (k : Nat) (ps : List Bool) (n : Nat) (v : OomDomain) : Prop where
  nonneg : 0 ≤ v.vmdOomSeq
  seq_le : v.vmdOomSeq ≤ streak ps
  voted : v.vmdOom = true → k ≤ streak ps
  counted : v.counted = true → ∃ j ≤ 1, k ≤ streak (ps.drop j)
  pending : v.pc = .fetchadd ∨ v.pc = .pageoutOom → v.vmdOom = true
  recalled : v.pc = .subtract → v.vmdOom = false
  paid : k * n + (if v.pc = .fetchadd then k else 0) + v.vmdOomSeq ≤ ps.count true

namespace DomainOk

variable {k n : Nat} {ps : List Bool} {v : OomDomain}

theorem init : DomainOk k [] 0 ⟨false, 0, .idle⟩ where
  nonneg := Int.le_refl 0
  seq_le := Int.le_refl 0
  voted h := by simp at h
  counted h := by simp [OomDomain.counted] at h
  pending h := by simp at h
  recalled h := by simp at h
  paid := by simp

/-- A pass adds one to the sequence, the streak and the stalled passes, or sets the sequence and
the streak back. -/
theorem sequence (hv : DomainOk k ps n v) (a b : Int) (seq : Int)
    (hseq : seq = if stalled a b then v.vmdOomSeq + 1 else 0) :
    0 ≤ seq ∧ seq ≤ streak (stalled a b :: ps) ∧
      (v.pc = .idle → k * n + seq ≤ (stalled a b :: ps).count true) := by
  have h0 := hv.nonneg
  have hle := hv.seq_le
  have hpaid := hv.paid
  cases hst : stalled a b with
  | true =>
    rw [if_pos hst] at hseq
    rw [streak_true, List.count_cons_self]
    refine ⟨by omega, by omega, fun hp => ?_⟩
    rw [hp, if_neg (by decide)] at hpaid
    omega
  | false =>
    rw [if_neg (by simp [hst])] at hseq
    subst hseq
    refine ⟨Int.le_refl 0, Int.natCast_nonneg _, fun hp => ?_⟩
    rw [hp, if_neg (by decide)] at hpaid
    rw [List.count_cons_of_ne (by decide)]
    omega

theorem mightbeOom (hv : DomainOk k ps n v) (hp : v.pc = .idle) {tunable : Int}
    (hk : k = 0 ∨ k ≤ tunable) (a b : Int) :
    DomainOk k (stalled a b :: ps) n (vmPageoutMightbeOom tunable v a b) := by
  obtain ⟨h0, hle, hpaid⟩ := hv.sequence a b _ rfl
  have hpaid := hpaid hp
  rw [vmPageoutMightbeOom]
  generalize (if stalled a b = true then v.vmdOomSeq + 1 else 0) = seq at h0 hle hpaid
  split
  next =>
    split
    next hoom =>
      have hvoted := hv.voted hoom
      exact ⟨h0, hle, by simp, fun _ => ⟨1, Nat.le_refl 1, hvoted⟩, by simp, fun _ => rfl,
        by simpa using hpaid⟩
    next =>
      exact ⟨h0, hle, by simp, by simp [OomDomain.counted], by simp, by simp, by simpa using hpaid⟩
  next hlt =>
    have hstreak : k ≤ streak (stalled a b :: ps) := by omega
    split
    next =>
      refine ⟨Int.le_refl 0, Int.natCast_nonneg _, fun _ => hstreak, fun _ => ⟨0, by decide, hstreak⟩,
        by simp, by simp, ?_⟩
      simp only [reduceCtorEq, if_false]
      omega
    next =>
      refine ⟨Int.le_refl 0, Int.natCast_nonneg _, fun _ => hstreak, by simp [OomDomain.counted],
        fun _ => rfl, by simp, ?_⟩
      simp only [if_true]
      omega

theorem fetchadd (hv : DomainOk k ps n v) (hp : v.pc = .fetchadd) {p : OomPc}
    (hq : p = .idle ∨ p = .pageoutOom) : DomainOk k ps (n + 1) { v with pc := p } := by
  have hoom := hv.pending (.inl hp)
  have hvoted := hv.voted hoom
  have hpaid := hv.paid
  rw [if_pos hp] at hpaid
  have hmul : k * (n + 1) = k * n + k := Nat.mul_succ k n
  refine ⟨hv.nonneg, hv.seq_le, hv.voted, fun _ => ⟨0, by decide, hvoted⟩, fun _ => hoom, ?_, ?_⟩
  · rcases hq with rfl | rfl <;> simp
  · have hne : p ≠ .fetchadd := by rcases hq with rfl | rfl <;> decide
    simp only [hne, if_false]
    push_cast at hmul ⊢
    rw [mul_add]
    omega

theorem pageoutOom (hv : DomainOk k ps n v) (hp : v.pc = .pageoutOom) :
    DomainOk k ps n { v with vmdOom := false, pc := .subtract } := by
  have hvoted := hv.voted (hv.pending (.inr hp))
  have hpaid := hv.paid
  rw [hp, if_neg (by decide)] at hpaid
  exact ⟨hv.nonneg, hv.seq_le, by simp, fun _ => ⟨0, by decide, hvoted⟩, by simp, fun _ => rfl,
    by simpa using hpaid⟩

theorem subtract (hv : DomainOk k ps n v) (hp : v.pc = .subtract) :
    DomainOk k ps n { v with pc := .idle } := by
  have hoom := hv.recalled hp
  have hpaid := hv.paid
  rw [hp, if_neg (by decide)] at hpaid
  exact ⟨hv.nonneg, hv.seq_le, hv.voted, by simp [OomDomain.counted, hoom], by simp, by simp,
    by simpa using hpaid⟩

end DomainOk

/-- One step, from the outside: a daemon goes on by itself, and the vote moves with it. -/
theorem step_cases [Fintype T] {s s' : OomVote T} {l : OomLabel T} {r : Bool}
    (hs : s.step l = some (s', r)) :
    (∃ d a b, l = .mightbeOom d a b ∧ (s.vmd d).pc = .idle ∧ r = false ∧
      s' = s.put d (vmPageoutMightbeOom s.vmPageoutOomSeq (s.vmd d) a b)) ∨
    (∃ d p, l = .fetchadd d ∧ (s.vmd d).pc = .fetchadd ∧
      r = decide (s.vmPageoutOomVote = Fintype.card T - 1) ∧
      p = (if r then OomPc.pageoutOom else OomPc.idle) ∧
      s' = { s with vmPageoutOomVote := s.vmPageoutOomVote + 1 }.put d { s.vmd d with pc := p }) ∨
    (∃ d, l = .pageoutOom d ∧ (s.vmd d).pc = .pageoutOom ∧ r = false ∧
      s' = s.put d { s.vmd d with vmdOom := false, pc := .subtract }) ∨
    (∃ d, l = .subtract d ∧ (s.vmd d).pc = .subtract ∧ r = false ∧
      s' = { s with vmPageoutOomVote := s.vmPageoutOomVote - 1 }.put d
        { s.vmd d with pc := .idle }) ∨
    ∃ v, l = .sysctl v ∧ r = false ∧ s' = { s with vmPageoutOomSeq := v } := by
  cases l with
  | mightbeOom d a b =>
    simp only [step, Option.ite_none_right_eq_some, Option.some.injEq, Prod.mk.injEq] at hs
    obtain ⟨hp, rfl, rfl⟩ := hs
    exact .inl ⟨d, a, b, rfl, hp, rfl, rfl⟩
  | fetchadd d =>
    simp only [step, Option.ite_none_right_eq_some] at hs
    obtain ⟨hp, hs⟩ := hs
    refine .inr (.inl ?_)
    split at hs
    next hne =>
      obtain ⟨rfl, rfl⟩ := Prod.mk.inj (Option.some.inj hs)
      exact ⟨d, _, rfl, hp, (decide_eq_false hne).symm, rfl, rfl⟩
    next heq =>
      obtain ⟨rfl, rfl⟩ := Prod.mk.inj (Option.some.inj hs)
      exact ⟨d, _, rfl, hp, (decide_eq_true (not_not.mp heq)).symm, rfl, rfl⟩
  | pageoutOom d =>
    simp only [step, Option.ite_none_right_eq_some, Option.some.injEq, Prod.mk.injEq] at hs
    obtain ⟨hp, rfl, rfl⟩ := hs
    exact .inr (.inr (.inl ⟨d, rfl, hp, rfl, rfl⟩))
  | subtract d =>
    simp only [step, Option.ite_none_right_eq_some, Option.some.injEq, Prod.mk.injEq] at hs
    obtain ⟨hp, rfl, rfl⟩ := hs
    exact .inr (.inr (.inr (.inl ⟨d, rfl, hp, rfl, rfl⟩)))
  | sysctl v =>
    obtain ⟨rfl, rfl⟩ := Prod.mk.inj (Option.some.inj hs)
    exact .inr (.inr (.inr (.inr ⟨v, rfl, rfl, rfl⟩)))

section

variable [Fintype T]

def tally (s : OomVote T) : Int := ∑ d, if (s.vmd d).counted then 1 else 0

theorem tally_put {d : T} {v : OomDomain} {before after : Bool}
    (hb : (s.vmd d).counted = before) (ha : v.counted = after) :
    (s.put d v).tally + before.toInt = s.tally + after.toInt := by
  have h₁ := Finset.add_sum_erase Finset.univ
    (fun e => if ((s.put d v).vmd e).counted then (1 : Int) else 0) (Finset.mem_univ d)
  have h₂ := Finset.add_sum_erase Finset.univ
    (fun e => if (s.vmd e).counted then (1 : Int) else 0) (Finset.mem_univ d)
  have h₃ : ∑ e ∈ Finset.univ.erase d, (if ((s.put d v).vmd e).counted then (1 : Int) else 0) =
      ∑ e ∈ Finset.univ.erase d, if (s.vmd e).counted then 1 else 0 := by
    refine Finset.sum_congr rfl fun e he => ?_
    rw [put_vmd, Function.update_of_ne (Finset.ne_of_mem_erase he)]
  rw [h₃, put_vmd, Function.update_self, ha] at h₁
  rw [hb] at h₂
  change _ = (s.put d v).tally at h₁
  change _ = s.tally at h₂
  rw [Bool.toInt, Bool.toInt, Bool.cond_eq_ite, Bool.cond_eq_ite]
  omega

omit [DecidableEq T] in
theorem tally_eq_card : s.tally = ({d | (s.vmd d).counted} : Finset T).card := by
  rw [tally, Finset.sum_boole]

theorem counted_mightbeOom {v : OomDomain} (hp : v.pc = .idle) (tunable a b : Int) :
    (vmPageoutMightbeOom tunable v a b).counted = v.counted := by
  have hv : v.counted = v.vmdOom := by simp only [OomDomain.counted, hp]
  rw [hv, vmPageoutMightbeOom]
  generalize (if stalled a b = true then v.vmdOomSeq + 1 else 0) = seq
  cases v.vmdOom with
  | true =>
    rw [if_pos rfl, if_pos rfl]
    split <;> rfl
  | false =>
    rw [if_neg Bool.false_ne_true, if_neg Bool.false_ne_true]
    by_cases hlt : seq < tunable
    · rw [if_pos hlt]
      rfl
    · rw [if_neg hlt]
      rfl

/-- The vote counts the daemons whose vote was added and not yet taken away. -/
theorem vote_step {s' : OomVote T} {l : OomLabel T} {r : Bool} (hs : s.step l = some (s', r))
    (hok : ∀ d, (s.vmd d).pc = .fetchadd ∨ (s.vmd d).pc = .pageoutOom → (s.vmd d).vmdOom = true)
    (hrec : ∀ d, (s.vmd d).pc = .subtract → (s.vmd d).vmdOom = false)
    (hv : s.vmPageoutOomVote = s.tally) : s'.vmPageoutOomVote = s'.tally := by
  rcases step_cases hs with ⟨d, a, b, -, hp, -, rfl⟩ | ⟨d, p, -, hp, -, hq, rfl⟩ |
    ⟨d, -, hp, -, rfl⟩ | ⟨d, -, hp, -, rfl⟩ | ⟨v, -, -, rfl⟩
  · have h := s.tally_put (d := d) rfl (counted_mightbeOom hp s.vmPageoutOomSeq a b)
    change s.vmPageoutOomVote = _
    omega
  · have hbefore : (s.vmd d).counted = false := by simp [OomDomain.counted, hp]
    have hafter : OomDomain.counted { s.vmd d with pc := p } = true := by
      have hoom := hok d (.inl hp)
      rw [hq]
      cases r <;> simp [OomDomain.counted, hoom]
    have h := s.tally_put hbefore hafter
    change _ + 0 = _ + 1 at h
    exact (congrArg (· + 1) hv).trans (h.symm.trans (Int.add_zero _))
  · have hbefore : (s.vmd d).counted = true := by simp [OomDomain.counted, hp]
    have hafter : OomDomain.counted { s.vmd d with vmdOom := false, pc := .subtract } = true := rfl
    have h := s.tally_put hbefore hafter
    exact hv.trans (add_right_cancel h).symm
  · have hbefore : (s.vmd d).counted = true := by simp [OomDomain.counted, hp]
    have hafter : OomDomain.counted { s.vmd d with pc := .idle } = false := hrec d hp
    have h := s.tally_put hbefore hafter
    change _ + 1 = _ + 0 at h
    exact (congrArg (· - 1) hv).trans (sub_eq_of_eq_add (h.trans (Int.add_zero _)).symm)
  · exact hv

end

theorem passes_mightbeOom (d e : T) (a b : Int) (r : Bool) :
    passes ((.mightbeOom d a b, r) :: h) e =
      if d = e then stalled a b :: passes h e else passes h e := rfl

theorem votes_fetchadd (d e : T) (r : Bool) :
    votes ((.fetchadd d, r) :: h) e = votes h e + if d = e then 1 else 0 := rfl

omit [DecidableEq T] in
theorem Tuned.tail {k : Nat} {seq : Int} {x : OomLabel T × Bool} (ht : Tuned k seq (x :: h)) :
    Tuned k seq h := ⟨ht.1, fun v r hm => ht.2 v r (List.mem_cons_of_mem _ hm)⟩

/-- One daemon's step keeps what all daemons owe. -/
theorem domains_put (s : OomVote T) {k : Nat} {ps : T → List Bool} {n : T → Nat}
    (ps' : T → List Bool) (n' : T → Nat) {d : T} {v : OomDomain}
    (hall : ∀ e, DomainOk k (ps e) (n e) (s.vmd e)) (hd : DomainOk k (ps' d) (n' d) v)
    (hps : ∀ e, e ≠ d → ps' e = ps e) (hn : ∀ e, e ≠ d → n' e = n e) (e : T) :
    DomainOk k (ps' e) (n' e) ((s.put d v).vmd e) := by
  rw [put_vmd]
  by_cases he : e = d
  · subst he
    rwa [Function.update_self]
  · rw [Function.update_of_ne he, hps e he, hn e he]
    exact hall e

variable [Fintype T]

theorem domains_step {s' : OomVote T} {l : OomLabel T} {r : Bool} {k : Nat}
    (hs : s.step l = some (s', r)) (hk : k = 0 ∨ k ≤ s.vmPageoutOomSeq)
    (hall : ∀ e, DomainOk k (passes h e) (votes h e) (s.vmd e)) (e : T) :
    DomainOk k (passes ((l, r) :: h) e) (votes ((l, r) :: h) e) (s'.vmd e) := by
  rcases step_cases hs with ⟨d, a, b, rfl, hp, rfl, rfl⟩ | ⟨d, p, rfl, hp, -, hq, rfl⟩ |
    ⟨d, rfl, hp, rfl, rfl⟩ | ⟨d, rfl, hp, rfl, rfl⟩ | ⟨v, rfl, rfl, rfl⟩
  · have hd := (hall d).mightbeOom hp hk a b
    refine domains_put s (passes ((.mightbeOom d a b, false) :: h)) (votes h) hall ?_ ?_ ?_ e
    · rw [passes_mightbeOom, if_pos rfl]
      exact hd
    · exact fun e he => (passes_mightbeOom ..).trans (if_neg he.symm)
    · exact fun _ _ => rfl
  · have hp' : p = .idle ∨ p = .pageoutOom := by
      rw [hq]
      cases r <;> simp
    have hd := (hall d).fetchadd hp hp'
    refine domains_put { s with vmPageoutOomVote := s.vmPageoutOomVote + 1 } (passes h)
      (votes ((.fetchadd d, r) :: h)) hall ?_ ?_ ?_ e
    · rw [votes_fetchadd, if_pos rfl]
      exact hd
    · exact fun _ _ => rfl
    · intro e he
      rw [votes_fetchadd, if_neg he.symm]
      rfl
  · exact domains_put s (passes h) (votes h) hall ((hall d).pageoutOom hp) (fun _ _ => rfl)
      (fun _ _ => rfl) e
  · exact domains_put { s with vmPageoutOomVote := s.vmPageoutOomVote - 1 } (passes h) (votes h) hall
      ((hall d).subtract hp) (fun _ _ => rfl) (fun _ _ => rfl) e
  · exact hall e

namespace Run

variable {seq : Int} {k : Nat}

theorem tunable_ge (hr : Run seq h s) (ht : Tuned k seq h) : k ≤ s.vmPageoutOomSeq := by
  induction hr with
  | start => exact ht.1
  | next hr _ hs ih =>
    have hk := ih ht.tail
    rcases step_cases hs with ⟨d, a, b, -, -, -, rfl⟩ | ⟨d, p, -, -, -, -, rfl⟩ |
      ⟨d, -, -, -, rfl⟩ | ⟨d, -, -, -, rfl⟩ | ⟨v, rfl, -, rfl⟩
    · exact hk
    · exact hk
    · exact hk
    · exact hk
    · exact ht.2 v _ List.mem_cons_self

theorem domains (hr : Run seq h s) (ht : k = 0 ∨ Tuned k seq h) (e : T) :
    DomainOk k (passes h e) (votes h e) (s.vmd e) := by
  induction hr generalizing e with
  | start => exact .init
  | next hr _ hs ih =>
    have ht' := ht.imp_right Tuned.tail
    exact domains_step hs (ht'.imp_right (tunable_ge hr)) (ih ht') e

theorem vote_eq_tally (hr : Run seq h s) : s.vmPageoutOomVote = s.tally := by
  induction hr with
  | start => exact Finset.sum_const_zero.symm
  | next hr _ hs ih =>
    have hall := domains (k := 0) hr (.inl rfl)
    exact vote_step hs (fun d => (hall d).pending) (fun d => (hall d).recalled) ih

end Run

variable {seq : Int}

theorem run_of_replay (seq : Int) (ls : List (OomLabel T))
    (check : List (OomLabel T × Bool) → OomVote T → Bool)
    (hp : (GuardedRun.replay step (fun _ _ _ => True) [] (start seq) ls).any
      (fun r => check r.1 r.2) = true) : ∃ h s, Run seq h s ∧ check h s = true :=
  GuardedRun.exists_of_replay hp

/-- Two daemons stall once each and vote. -/
def twoVotes : List (OomLabel (Fin 2) × Bool) :=
  [(.mightbeOom 1 7 7, false), (.fetchadd 0, false), (.mightbeOom 0 5 5, false)]

theorem exists_twoVotes : ∃ s, Run 1 ((.fetchadd 1, true) :: twoVotes) s := by
  obtain ⟨h, s, hr, hc⟩ := run_of_replay 1
    [.mightbeOom (0 : Fin 2) 5 5, .fetchadd 0, .mightbeOom 1 7 7, .fetchadd 1]
    (fun h _ => decide (h = (.fetchadd 1, true) :: twoVotes)) (by decide +kernel)
  exact ⟨s, of_decide_eq_true hc ▸ hr⟩

theorem exists_lone : ∃ s : OomVote (Fin 1),
    Run (2 : Nat) [(.mightbeOom 0 5 5, false), (.mightbeOom 0 5 5, false)] s := by
  obtain ⟨h, s, hr, hc⟩ := run_of_replay (2 : Nat)
    [.mightbeOom (0 : Fin 1) 5 5, .mightbeOom 0 5 5]
    (fun h _ => decide (h = [(.mightbeOom 0 5 5, false), (.mightbeOom 0 5 5, false)]))
    (by decide +kernel)
  exact ⟨s, of_decide_eq_true hc ▸ hr⟩

/-- The shared vote is the number of daemons whose vote stands, whatever the interleaving, and no
vote is taken away that was not added. -/
theorem vote_exact (hr : Run seq h s) :
    s.vmPageoutOomVote = ({d | (s.vmd d).counted} : Finset T).card ∧
      s.vmPageoutOomVote ≤ Fintype.card T ∧
      ∀ d, (s.vmd d).pc = .subtract → 0 < s.vmPageoutOomVote := by
  have hv := hr.vote_eq_tally.trans tally_eq_card
  refine ⟨hv, ?_, fun d hp => ?_⟩
  · rw [hv]
    exact Int.ofNat_le.mpr (Finset.card_le_univ _)
  · have hd : (s.vmd d).counted = true := by simp [OomDomain.counted, hp]
    have hpos : 0 < ({d | (s.vmd d).counted} : Finset T).card :=
      Finset.card_pos.mpr ⟨d, Finset.mem_filter.mpr ⟨Finset.mem_univ d, hd⟩⟩
    rw [hv]
    exact Int.natCast_pos.mpr hpos

theorem vote_exact_two : ∃ s : OomVote (Fin 2), s.vmPageoutOomVote ≤ 2 ∧
    s.vmPageoutOomVote = ({d | (s.vmd d).counted} : Finset (Fin 2)).card := by
  obtain ⟨s, hr⟩ := exists_twoVotes
  obtain ⟨heq, hle, -⟩ := vote_exact hr
  exact ⟨s, hle, heq⟩

/-- When `vm_pageout_oom` is started, the last passes of every daemon stalled, as many as the
tunable asks for, but for the pass in which a daemon takes its vote back just then; and no
daemon's votes so far outnumber the stalls that paid for them. -/
theorem quorum_stalled {d : T} {k : Nat} (hr : Run seq ((.fetchadd d, true) :: h) s)
    (ht : Tuned k seq h) (e : T) :
    s.vmPageoutOomVote = Fintype.card T ∧ (∃ j ≤ 1, k ≤ streak ((passes h e).drop j)) ∧
      k * votes ((.fetchadd d, true) :: h) e ≤ (passes h e).count true := by
  obtain ⟨s₀, hr₀, -, hs⟩ := hr.of_cons
  have ht' : Tuned k seq ((.fetchadd d, true) :: h) :=
    ⟨ht.1, fun v r hm => ht.2 v r ((List.mem_cons.mp hm).resolve_left (by simp))⟩
  have hok := hr.domains (.inr ht') e
  have hvote : s.vmPageoutOomVote = Fintype.card T := by
    rcases step_cases hs with ⟨_, _, _, hl, -⟩ | ⟨d', p, -, -, hq, -, rfl⟩ | ⟨_, hl, -⟩ |
      ⟨_, hl, -⟩ | ⟨_, hl, -⟩
    · cases hl
    · have hold := of_decide_eq_true hq.symm
      change s₀.vmPageoutOomVote + 1 = _
      omega
    · cases hl
    · cases hl
    · cases hl
  refine ⟨hvote, ?_, ?_⟩
  · have hall : ({d | (s.vmd d).counted} : Finset T) = Finset.univ := by
      apply Finset.eq_univ_of_card
      exact Int.ofNat_inj.mp ((vote_exact hr).1.symm.trans hvote)
    have he : e ∈ ({d | (s.vmd d).counted} : Finset T) := by
      rw [hall]
      exact Finset.mem_univ e
    exact hok.counted (Finset.mem_filter.mp he).2
  · have hpaid := hok.paid
    have h0 := hok.nonneg
    change _ ≤ ((passes h e).count true : Int) at hpaid
    have hle : ((k * votes ((.fetchadd d, true) :: h) e : Nat) : Int) ≤
        (passes h e).count true := by
      push_cast at hpaid ⊢
      split at hpaid <;> omega
    exact Int.ofNat_le.mp hle

theorem quorum_stalled_two : ∃ s : OomVote (Fin 2), s.vmPageoutOomVote = 2 ∧
    ∀ e, ∃ j ≤ 1, 1 ≤ streak ((passes twoVotes e).drop j) := by
  obtain ⟨s, hr⟩ := exists_twoVotes
  have ht : Tuned 1 1 twoVotes := by
    refine ⟨by decide, fun v r hm => ?_⟩
    simp [twoVotes] at hm
  exact ⟨s, (quorum_stalled hr ht 0).1, fun e => (quorum_stalled hr ht e).2.1⟩

/-- A daemon whose vote is a quorum by itself: it never leaves the function with the vote cast,
and its sequence counts the streak modulo the tunable. -/
structure Lone (k : Nat) (ps : List Bool) (v : OomDomain) : Prop where
  idle : v.pc = .idle → v.vmdOom = false
  seq : v.vmdOomSeq = (streak ps % k : Nat)

namespace Lone

variable {k : Nat} {ps : List Bool} {v : OomDomain}

/-- After a pass the daemon votes exactly when the streak is a multiple of the tunable. -/
theorem mightbeOom (hv : Lone k ps v) (hk : 0 < k) (hp : v.pc = .idle) (a b : Int) :
    Lone k (stalled a b :: ps) (vmPageoutMightbeOom k v a b) ∧
      ((vmPageoutMightbeOom k v a b).pc = .fetchadd ↔
        0 < streak (stalled a b :: ps) ∧ k ∣ streak (stalled a b :: ps)) := by
  have hoom := hv.idle hp
  have hseq := hv.seq
  have hlt : streak ps % k < k := Nat.mod_lt _ hk
  rw [vmPageoutMightbeOom, hoom, if_neg Bool.false_ne_true, if_neg Bool.false_ne_true, hseq]
  cases hst : stalled a b with
  | true =>
    rw [if_pos rfl, streak_true]
    have hmod : (streak ps + 1) % k = (streak ps % k + 1) % k := (Nat.mod_add_mod ..).symm
    split
    next hless =>
      have hless' : streak ps % k + 1 < k := by omega
      rw [Nat.mod_eq_of_lt hless'] at hmod
      refine ⟨⟨fun _ => rfl, ?_⟩, by simp, fun hd => ?_⟩
      · rw [streak_true, hmod]
        push_cast
        rfl
      · have h0 := Nat.mod_eq_zero_of_dvd hd.2
        omega
    next hge =>
      have hfull : streak ps % k + 1 = k := by omega
      rw [hfull, Nat.mod_self] at hmod
      refine ⟨⟨by simp, ?_⟩, fun _ => ⟨Nat.succ_pos _, Nat.dvd_of_mod_eq_zero hmod⟩, fun _ => rfl⟩
      rw [streak_true, hmod]
      rfl
  | false =>
    have hpos : (0 : Int) < k := by omega
    rw [if_neg Bool.false_ne_true, if_pos hpos]
    have h0 : streak (false :: ps) = 0 := rfl
    refine ⟨⟨fun _ => rfl, ?_⟩, by simp, fun hd => ?_⟩
    · rw [h0, Nat.zero_mod]
      rfl
    · rw [h0] at hd
      exact absurd hd.1 (Nat.lt_irrefl 0)

end Lone

theorem Run.tunable_eq (hr : Run seq h s) (hno : ∀ v r, (.sysctl v, r) ∉ h) :
    s.vmPageoutOomSeq = seq := by
  induction hr with
  | start => rfl
  | next _ _ hs ih =>
    have heq := ih fun v r hm => hno v r (List.mem_cons_of_mem _ hm)
    rcases step_cases hs with ⟨d, a, b, -, -, -, rfl⟩ | ⟨d, p, -, -, -, -, rfl⟩ |
      ⟨d, -, -, -, rfl⟩ | ⟨d, -, -, -, rfl⟩ | ⟨v, rfl, -, rfl⟩
    · exact heq
    · exact heq
    · exact heq
    · exact heq
    · exact absurd List.mem_cons_self (hno v _)

theorem Run.fetchadd_started (hT : Fintype.card T = 1) (hr : Run seq h s) {d : T}
    {s' : OomVote T} {r : Bool} (hs : s.step (.fetchadd d) = some (s', r)) : r = true := by
  rcases step_cases hs with ⟨_, _, _, hl, -⟩ | ⟨d', p, -, hp, hr', -⟩ | ⟨_, hl, -⟩ |
    ⟨_, hl, -⟩ | ⟨_, hl, -⟩
  · cases hl
  · have hnone : ({d | (s.vmd d).counted} : Finset T) = ∅ := by
      refine Finset.filter_eq_empty_iff.mpr fun e _ => ?_
      rw [(Fintype.card_le_one_iff.mp (Nat.le_of_eq hT)) e d']
      simp [OomDomain.counted, hp]
    have hvote := (vote_exact hr).1
    rw [hnone, Finset.card_empty] at hvote
    rw [hr', hvote, hT]
    rfl
  · cases hl
  · cases hl
  · cases hl

theorem Run.lone {k : Nat} (hT : Fintype.card T = 1) (hk : 0 < k) (hr : Run k h s)
    (hno : ∀ v r, (.sysctl v, r) ∉ h) (e : T) : Lone k (passes h e) (s.vmd e) := by
  have hone := Fintype.card_le_one_iff.mp (Nat.le_of_eq hT)
  induction hr with
  | start => exact ⟨fun _ => rfl, by rw [passes]; simp [streak, start]⟩
  | next hr _ hs ih =>
    have hno' := fun v r hm => hno v r (List.mem_cons_of_mem _ hm)
    have hl := ih hno'
    rcases step_cases hs with ⟨d, a, b, rfl, hp, rfl, rfl⟩ | ⟨d, p, rfl, hp, -, hq, rfl⟩ |
      ⟨d, rfl, hp, -, rfl⟩ | ⟨d, rfl, hp, -, rfl⟩ | ⟨v, rfl, -, rfl⟩
    · cases hone d e
      rw [put_vmd, Function.update_self, passes_mightbeOom, if_pos rfl, Run.tunable_eq hr hno']
      exact (hl.mightbeOom hk hp a b).1
    · cases hone d e
      rw [put_vmd, Function.update_self, hq, Run.fetchadd_started hT hr hs]
      exact ⟨by simp, hl.seq⟩
    · cases hone d e
      rw [put_vmd, Function.update_self]
      exact ⟨by simp, hl.seq⟩
    · cases hone d e
      have hrec := (Run.domains (k := 0) hr (.inl rfl) _).recalled hp
      rw [put_vmd, Function.update_self]
      exact ⟨fun _ => hrec, hl.seq⟩
    · exact hl

/-- On a machine with one memory domain the daemon starts `vm_pageout_oom` at every `k`th of its
stalled passes in a row, for a tunable of `k`, and at no other. -/
theorem lone_daemon_started {d : T} {a b : Int} {r : Bool} {k : Nat} (hT : Fintype.card T = 1)
    (hk : 0 < k) (hr : Run k ((.mightbeOom d a b, r) :: h) s) (hno : ∀ v r, (.sysctl v, r) ∉ h) :
    ((s.vmd d).pc = .fetchadd ↔ 0 < streak (passes ((.mightbeOom d a b, r) :: h) d) ∧
        k ∣ streak (passes ((.mightbeOom d a b, r) :: h) d)) ∧
      ∀ s' started, s.step (.fetchadd d) = some (s', started) → started = true := by
  refine ⟨?_, fun s' started hs => hr.fetchadd_started hT hs⟩
  obtain ⟨s₀, hr₀, -, hs⟩ := hr.of_cons
  rcases step_cases hs with ⟨d', a', b', hl, hp, -, rfl⟩ | ⟨_, _, hl, -⟩ | ⟨_, hl, -⟩ |
    ⟨_, hl, -⟩ | ⟨_, hl, -⟩
  · cases hl
    rw [put_vmd, Function.update_self, passes_mightbeOom, if_pos rfl, Run.tunable_eq hr₀ hno]
    exact ((Run.lone hT hk hr₀ hno d).mightbeOom hk hp a b).2
  · cases hl
  · cases hl
  · cases hl
  · cases hl

theorem lone_daemon_started_second : ∃ s : OomVote (Fin 1), (s.vmd 0).pc = .fetchadd := by
  obtain ⟨s, hr⟩ := exists_lone
  have hno : ∀ v r, ((.sysctl v, r) : OomLabel (Fin 1) × Bool) ∉
      [((.mightbeOom 0 5 5, false) : OomLabel (Fin 1) × Bool)] := by simp
  exact ⟨s, (lone_daemon_started rfl (by decide) hr hno).1.mpr (by decide)⟩

end OomVote

end FreeBSDEdits
