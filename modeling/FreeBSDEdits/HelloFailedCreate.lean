import FreeBSDEdits.HelloAnyVolume

namespace FreeBSDEdits

/-- A volume file of the size that main gives it with a terminated name in every header. Behind a name
without its NUL strcmp would read on into the rest of the header. -/
structure World.Terminated (w : World) : Prop where
  size : w.file.size = blockSize * numBlocks
  name : ∀ b, 1 ≤ b → b < numBlocks → (w.view.hdr b).NulTerminated

/-- Creates that all fail, one after the other; the last path comes first. -/
inductive FailedCreates (w : World) : List Path → World → Prop
  | none : FailedCreates w [] w
  | more {ps : List Path} {w' w'' : World} {env : Env} {p : Path} {e : Errno} :
      FailedCreates w ps w' → fuseCall w' (env, .create p) = some (w'', .err e) →
        FailedCreates w (p :: ps) w''

/-- The volume on disk, its free blocks and its listing are the same. -/
structure World.SameVolume (w w' : World) : Prop where
  bit : w'.view.bit = w.view.bit
  hdr : w'.view.hdr = w.view.hdr
  dat : w'.view.dat = w.view.dat
  free : (freeBlocks w'.view.bit).length = (freeBlocks w.view.bit).length
  listing : ∀ env, w'.answers (env, .readdir none) = w.answers (env, .readdir none)

namespace Blocks

variable {s t u : Blocks}

/-- A create of this path would not reserve a block. -/
def Refuses (s : Blocks) (p : Path) : Prop :=
  s.lookup s.bit p.chars = none → firstFree s.bit = none

/-- Both bitmaps list the same names. -/
def ListsAlike (s : Blocks) : Prop := names { s with mem := s.bit } = s.names

instance (s : Blocks) (p : Path) : Decidable (s.Refuses p) := by
  unfold Refuses
  infer_instance

instance (s : Blocks) : Decidable s.ListsAlike := by
  unfold ListsAlike
  infer_instance

/-- A create that fails has refused the path, or has reserved a block for a name that is too long. -/
theorem create_error {env : Env} {p : Path} {e : Errno}
    (h : s.create env p.chars = (t, .err e)) :
    t = { s with mem := s.bit } ∧ s.Refuses p ∨
      ∃ i, t = { s with mem := mark s.bit [i] 1, bit := mark s.bit [i] 1 } ∧
        s.lookup s.bit p.chars = none ∧ firstFree s.bit = some i := by
  unfold create at h
  split at h
  next b hf =>
    refine Or.inl ⟨(congrArg Prod.fst h).symm, fun hnone => ?_⟩
    rw [hf] at hnone
    cases hnone
  next hf =>
    split at h
    next hfree => exact Or.inl ⟨(congrArg Prod.fst h).symm, fun _ => hfree⟩
    next i hi =>
      simp only at h
      split at h
      next => exact Or.inr ⟨i, (congrArg Prod.fst h).symm, hf, hi⟩
      next => cases congrArg Prod.snd h

/-- What failing creates leave of a volume: they never free a block, and the bitmap is as it was
exactly if every path was refused. -/
structure Survives (s t : Blocks) (ps : List Path) : Prop where
  hdr : t.hdr = s.hdr
  dat : t.dat = s.dat
  kept : ∀ i, s.bit i ≠ 0 → t.bit i = s.bit i
  bit : t.bit = s.bit ↔ ∀ p ∈ ps, s.Refuses p
  mem : ps ≠ [] → t.mem = t.bit

theorem Survives.none : s.Survives s [] :=
  ⟨rfl, rfl, fun _ _ => rfl, iff_of_true rfl (by simp), fun h => absurd rfl h⟩

theorem Refuses.congr (hb : t.bit = s.bit) (hh : t.hdr = s.hdr) (p : Path) :
    t.Refuses p ↔ s.Refuses p := by
  rw [Refuses, Refuses, hb, lookup_congr hh]

theorem Survives.more {ps : List Path} {env : Env} {p : Path} {e : Errno} (h : s.Survives t ps)
    (hc : t.create env p.chars = (u, .err e)) : s.Survives u (p :: ps) := by
  rcases create_error hc with ⟨rfl, hrefuse⟩ | ⟨i, rfl, hf, hi⟩
  · refine ⟨h.hdr, h.dat, h.kept, ?_, fun _ => rfl⟩
    show t.bit = s.bit ↔ _
    rw [List.forall_mem_cons, ← h.bit]
    exact ⟨fun hb => ⟨(Refuses.congr hb h.hdr p).mp hrefuse, hb⟩, fun hb => hb.2⟩
  · obtain ⟨_, _, h0⟩ := firstFree_some hi
    have hold : s.bit i = 0 := by
      by_contra hne
      exact hne ((h.kept i hne).symm.trans h0)
    have hnew : mark t.bit [i] 1 i = 1 := mark_one_iff.mpr (Or.inl List.mem_cons_self)
    refine ⟨h.hdr, h.dat, fun j hj => ?_, ?_, fun _ => rfl⟩
    · have hji : j ∉ [i] := fun hm => hj (List.mem_singleton.mp hm ▸ hold)
      show mark t.bit [i] 1 j = _
      rw [mark, if_neg hji]
      exact h.kept j hj
    · refine iff_of_false (fun hb => ?_) (fun hall => ?_)
      · have hbi := congrFun hb i
        change mark t.bit [i] 1 i = s.bit i at hbi
        rw [hnew, hold] at hbi
        exact absurd hbi (by decide)
      · rw [List.forall_mem_cons, ← h.bit] at hall
        have hfree := (Refuses.congr hall.2 h.hdr p).mpr hall.1 hf
        rw [hi] at hfree
        cases hfree

end Blocks

/-- The block level of a volume after creates that failed. -/
theorem FailedCreates.survives {w w' : World} {ps : List Path}
    (hs : w.file.size = blockSize * numBlocks) (h : FailedCreates w ps w') :
    w.view.Survives w'.view ps ∧ w'.file.size = blockSize * numBlocks := by
  induction h with
  | none => exact ⟨.none, hs⟩
  | @more ps w' w'' env p e _ hc ih =>
    obtain ⟨hsv, hsize⟩ := ih
    have hl := helloCreate_view hsize rfl env p.chars
    rw [Option.some.inj hc] at hl
    exact ⟨hsv.more (Prod.ext hl.view.symm hl.reply.symm), hl.size⟩

/-- On whatever volume with terminated names: failing creates leave it alone exactly if none of them gets
as far as to reserve a block, and the listing does not depend on which bitmap is used. -/
theorem failed_creates_keep_iff {w w' : World} {ps : List Path} (hw : w.Terminated)
    (h : FailedCreates w ps w') :
    w.SameVolume w' ↔ (∀ p ∈ ps, w.view.Refuses p) ∧ (ps ≠ [] → w.view.ListsAlike) := by
  have hs := hw.size
  obtain ⟨hsv, hs'⟩ := h.survives hs
  have hlist : ∀ env, w'.answers (env, .readdir none) = w.answers (env, .readdir none) ↔
      w'.view.names = w.view.names := by
    intro env
    rw [answers_readdir hs', answers_readdir hs]
    show some (Reply.entries ([46] :: [46, 46] :: w'.view.names)) =
      some (Reply.entries ([46] :: [46, 46] :: w.view.names)) ↔ _
    simp only [Option.some.injEq, Reply.entries.injEq, List.cons.injEq, true_and]
  have hnames : ps ≠ [] → w'.view.bit = w.view.bit →
      (w'.view.names = w.view.names ↔ w.view.ListsAlike) := by
    intro hne hb
    have hn : w'.view.names = Blocks.names { w.view with mem := w.view.bit } := by
      simp only [Blocks.names, hsv.mem hne, hb, hsv.hdr]
    rw [hn]
    exact Iff.rfl
  constructor
  · intro hk
    exact ⟨hsv.bit.mp hk.bit,
      fun hne => (hnames hne hk.bit).mp ((hlist (plain (.readdir none)).1).mp (hk.listing _))⟩
  · rintro ⟨hall, halike⟩
    have hb := hsv.bit.mpr hall
    refine ⟨hb, hsv.hdr, hsv.dat, by rw [hb], fun env => (hlist env).mpr ?_⟩
    by_cases hne : ps = []
    · subst hne
      cases h
      rfl
    · exact (hnames hne hb).mpr (halike hne)

set_option maxRecDepth 100000 in
theorem failed_creates_keep_iff_twice : ∃ w w', w.Terminated ∧
    FailedCreates w [pathA, pathA] w' ∧ w.SameVolume w' := by
  obtain ⟨h, s, hr, hc⟩ := blockRun_of_plays boundedWrites [plain (.create pathA)]
    (fun _ s => s.Refuses pathA ∧ s.ListsAlike ∧
      (s.call (plain (.create pathA))).any (fun t => t.2 = .err .eexist ∧
        (t.1.call (plain (.create pathA))).any (fun u => u.2 = .err .eexist)))
    (by decide +kernel)
  obtain ⟨hrefuse, hlist, hsome⟩ := of_decide_eq_true hc
  obtain ⟨⟨t, r⟩, hcall, hmore⟩ := (Option.any_eq_true _ _).mp hsome
  obtain ⟨hr1, hmore⟩ := of_decide_eq_true hmore
  obtain ⟨⟨u, r'⟩, hcall', hr2⟩ := (Option.any_eq_true _ _).mp hmore
  obtain rfl : r = .err .eexist := hr1
  obtain rfl : r' = .err .eexist := of_decide_eq_true hr2
  obtain ⟨w, mode, hs, _⟩ := hr.reaches
  obtain ⟨_, w', hw', hs'⟩ := call_some hs hcall
  obtain ⟨_, w'', hw'', _⟩ := call_some hs' hcall'
  have hrun : FailedCreates w [pathA, pathA] w'' := .more (.more .none hw') hw''
  have hw : w.Terminated := by
    refine ⟨hs.size, fun b _ _ => ?_⟩
    rw [hs.view]
    exact (hr.ranged.header b).name
  rw [← hs.view] at hrefuse hlist
  refine ⟨w, w'', hw, hrun, (failed_creates_keep_iff hw hrun).mpr ⟨?_, fun _ => hlist⟩⟩
  simpa using hrefuse

set_option maxRecDepth 100000 in
/-- A name that is too long costs a block. -/
theorem long_create_reserves : ¬∀ (w w' : World) ps, w.Terminated → FailedCreates w ps w' →
    w.SameVolume w' := by
  intro hall
  have hcall : (Blocks.fresh.call (plain (.create pathLong))).any (fun t =>
      t.2 = .err .enametoolong ∧ t.1.bit 1 = 1) = true := by decide +kernel
  obtain ⟨⟨t, r⟩, hcall, hc⟩ := (Option.any_eq_true _ _).mp hcall
  obtain ⟨hr, hbit⟩ := of_decide_eq_true hc
  obtain rfl : r = .err .enametoolong := hr
  obtain ⟨_, w', hw', hs'⟩ := call_some formatted_shows hcall
  have hterm : formatted.Terminated := by
    refine ⟨formatted_shows.size, fun b _ _ => ?_⟩
    rw [formatted_shows.view]
    exact (Blocks.fresh_ranged.header b).name
  have hsame := hall formatted w' [pathLong] hterm (.more .none hw')
  have hb := congrFun hsame.bit 1
  rw [hs'.view, formatted_shows.view] at hb
  exact absurd (hbit.symm.trans hb) (by decide)

end FreeBSDEdits
