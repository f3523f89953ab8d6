import FreeBSDEdits.HelloAnyVolume

namespace FreeBSDEdits

namespace Blocks

variable {s t : Blocks}

/-- The chains of the files are finite, disjoint and on the volume; the bitmap on disk marks them and
block 0 and nothing else; the heads have different names, the blocks behind them none. -/
structure WellFormed (s : Blocks) : Prop where
  chained : s.Chained
  inside : ∀ i l x, s.Heads i → LinkedChain s.next i l → x ∈ l → 1 ≤ x ∧ x < numBlocks
  owned : s.Owned
  differ : s.HeadsDiffer
  zero : s.bit 0 = 1
  words : ∀ i, s.bit i = 0 ∨ s.bit i = 1

theorem fresh_wellFormed : fresh.WellFormed where
  chained := fresh_chained
  inside i _ _ hi := absurd hi (fresh_heads i)
  owned := fresh_volume.owned
  differ i _ hi := absurd hi (fresh_heads i)
  zero := rfl
  words i := by
    by_cases hi : i = 0 <;> simp [fresh, hi]

/-- Volumes whose blocks have owners are well formed. -/
theorem Volume.wellFormed {ps : List Path} (hv : s.Volume ps) (hr : s.InRange) (h0 : s.bit 0 = 1) :
    s.WellFormed where
  chained := hv.chained
  inside _ _ _ hi hl hx := hr.chain_mem hl hi.1 hi.2.1 hx
  owned := hv.owned
  differ := hv.lists.unique
  zero := h0
  words := hr.bit

theorem WellFormed.chain_inside (hw : s.WellFormed) {b : Nat} (hb : s.Heads b) :
    ∃ l, LinkedChain s.next b l ∧ ∀ x ∈ l, 1 ≤ x ∧ x < numBlocks := by
  obtain ⟨l, hl, _⟩ := hw.chained.chain b hb
  exact ⟨l, hl, fun x hx => hw.inside b l x hb hl hx⟩

theorem WellFormed.create (hw : s.WellFormed) (env : Env) {p : Path} {i : Nat}
    (hf : s.lookup s.bit p.chars = none) (hi : firstFree s.bit = some i)
    (hlen : p.chars.length < maxFilenameLength) : (s.created env p.chars i).WellFormed where
  chained := hw.chained.create env hi hlen
  inside j l x hj hl hx := by
    obtain ⟨h1, hlt, _⟩ := firstFree_some hi
    rcases (created_heads env hi hlen j).mp hj with rfl | hj
    · rw [hl.unique (created_chain_self env p.chars j), List.mem_singleton] at hx
      exact hx ▸ ⟨h1, hlt⟩
    · exact hw.inside j l x hj (hw.chained.chain_of_created env p.chars hi hj hl).2 hx
  owned := hw.owned.create hw.chained env hi hlen
  differ := hw.differ.create env hf hi hlen
  zero := (created_bit env p.chars i 0).mpr (Or.inr hw.zero)
  words j := by
    show mark s.bit [i] 1 j = 0 ∨ mark s.bit [i] 1 j = 1
    rw [mark]
    split
    next => exact Or.inr rfl
    next => exact hw.words j

theorem WellFormed.unlink (hw : s.WellFormed) {b : Nat} {l : List Nat} (hb : s.Heads b)
    (hl : LinkedChain s.next b l) : (s.unlinked l).WellFormed where
  chained := hw.chained.unlink hb hl
  inside i m x hi hm hx :=
    hw.inside i m x ((hw.chained.unlinked_heads hb hl i).mp hi).1 hm hx
  owned := hw.owned.unlink hw.chained hb hl
  differ i j hi hj he :=
    hw.differ i j ((hw.chained.unlinked_heads hb hl i).mp hi).1
      ((hw.chained.unlinked_heads hb hl j).mp hj).1 he
  zero := mark_zero_iff.mpr ⟨fun h0 => absurd (hw.inside b l 0 hb hl h0).1 (by decide), hw.zero⟩
  words j := by
    show mark s.bit l 0 j = 0 ∨ mark s.bit l 0 j = 1
    rw [mark]
    split
    next => exact Or.inl rfl
    next => exact hw.words j

/-- One free block more is marked, and it is a file `p` of size 0. -/
structure Gains (s t : Blocks) (p : Path) : Prop where
  block : ∃ i, 1 ≤ i ∧ i < numBlocks ∧ s.bit i = 0 ∧ t.bit = Function.update s.bit i 1 ∧
    t.FileAt p i [i] ∧ (t.hdr i).fileSize = 0 ∧ ∀ j, t.Heads j ↔ j = i ∨ s.Heads j
  wellFormed : t.WellFormed

/-- The marks of the chain of `p` are cleared, and `p` is gone. -/
structure Loses (s t : Blocks) (p : Path) : Prop where
  chain : ∃ b l, s.FileAt p b l ∧ t.bit = mark s.bit l 0 ∧ ∀ j, t.Heads j ↔ s.Heads j ∧ j ≠ b
  gone : t.lookup t.bit p.chars = none
  wellFormed : t.WellFormed

/-- Every file of another name is kept, and no other one appears. -/
structure SparesOthers (s t : Blocks) (p : Path) : Prop where
  before : s.WellFormed
  after : t.WellFormed
  kept : ∀ i m, s.Heads i → (s.hdr i).name ≠ p.chars → LinkedChain s.next i m → s.KeepsFile t i m
  old : ∀ i, t.Heads i → (t.hdr i).name ≠ p.chars → s.Heads i ∧ t.hdr i = s.hdr i

theorem WellFormed.create_step (hw : s.WellFormed) {env : Env} {p : Path}
    (hs : s.Step (env, .create p) t .ok) :
    s.Gains t p ∧ s.SparesOthers t p ∧ t.mem = t.bit ∧ ∃ i, t.FileAt p i [i] ∧
      mark t.bit [i] 0 = s.bit := by
  cases hs with
  | look hl => exact hl.elim
  | reload _ hq => exact hq.elim
  | @create _ _ i hf hi hlen =>
    obtain ⟨h1, hlt, h0⟩ := firstFree_some hi
    have hheads := created_heads (s := s) env hi hlen
    have hwf := hw.create env hf hi hlen
    have hfile : (s.created env p.chars i).FileAt p i [i] :=
      ⟨(hheads i).mpr (Or.inl rfl), created_name env hlen i, created_chain_self env p.chars i⟩
    have hbit : mark s.bit [i] 1 = Function.update s.bit i 1 := by
      funext j
      by_cases hj : j = i
      · simp [mark, hj]
      · simp [mark, hj]
    have hself : (s.created env p.chars i).hdr i = s.createHead env p.chars :=
      Function.update_self ..
    refine ⟨⟨⟨i, h1, hlt, h0, hbit, hfile, congrArg Metadata.fileSize hself, hheads⟩, hwf⟩, ?_, rfl,
      i, hfile, ?_⟩
    · refine ⟨hw, hwf, fun j m hj _ hm => hw.chained.create_keeps env _ hi hj hm, fun j hj hne => ?_⟩
      rcases (hheads j).mp hj with rfl | hj
      · exact absurd (created_name env hlen j) hne
      · exact ⟨hj, (created_other env hf hi hj).2.1⟩
    · funext j
      show mark (mark s.bit [i] 1) [i] 0 j = s.bit j
      by_cases hj : j = i
      · simp [mark, hj, h0]
      · simp [mark, hj]

theorem WellFormed.unlink_step (hw : s.WellFormed) {env : Env} {p : Path}
    (hs : s.Step (env, .unlink p) t .ok) :
    s.Loses t p ∧ s.SparesOthers t p ∧ t.mem = t.bit := by
  cases hs with
  | look hl => exact hl.elim
  | reload _ hq => exact hq.elim
  | @unlink _ _ b l hf hl =>
    obtain ⟨hb, hn⟩ := heads_of_lookup hf
    have hl := LinkedChain.of_follow hl
    have hheads := hw.chained.unlinked_heads hb hl
    have hwf := hw.unlink hb hl
    refine ⟨⟨⟨b, l, ⟨hb, hn, hl⟩, rfl, hheads⟩, ?_, hwf⟩, ?_, rfl⟩
    · by_contra hc
      obtain ⟨c, hc⟩ := Option.ne_none_iff_exists'.mp hc
      obtain ⟨hch, hcn⟩ := heads_of_lookup (s := s.unlinked l) hc
      obtain ⟨hch, hne⟩ := (hheads c).mp hch
      exact hne (hw.differ c b hch hb (hcn.trans hn.symm))
    · refine ⟨hw, hwf, fun j m hj hne hm =>
        hw.chained.unlink_keeps hb hl hj (fun he => hne (he ▸ hn)) hm, fun j hj _ => ?_⟩
      exact ⟨((hheads j).mp hj).1, rfl⟩

theorem SparesOthers.lookup_eq {p q : Path} (h : s.SparesOthers t p) (hne : q ≠ p) :
    t.lookup t.bit q.chars = s.lookup s.bit q.chars := by
  cases hf : s.lookup s.bit q.chars with
  | some b =>
    obtain ⟨hb, hn⟩ := heads_of_lookup hf
    obtain ⟨l, hl, _⟩ := h.before.chained.chain b hb
    have hk := h.kept b l hb (fun he => hne (Path.chars_inj (hn.symm.trans he))) hl
    exact (h.after.differ.lookup_iff q b).mpr ⟨hk.heads, by rw [hk.header]; exact hn⟩
  | none =>
    by_contra hc
    obtain ⟨c, hc⟩ := Option.ne_none_iff_exists'.mp hc
    obtain ⟨hch, hcn⟩ := heads_of_lookup hc
    obtain ⟨hco, hhdr⟩ := h.old c hch (fun he => hne (Path.chars_inj (hcn.symm.trans he)))
    rw [hhdr] at hcn
    rw [(h.before.differ.lookup_iff q c).mpr ⟨hco, hcn⟩] at hf
    cases hf

theorem SparesOthers.getattr_eq {p : Path} (h : s.SparesOthers t p) {q : Option Path}
    (hne : q ≠ some p) : (t.getattr (dirChars q)).2 = (s.getattr (dirChars q)).2 := by
  cases q with
  | none => rfl
  | some q =>
    have hne : q ≠ p := fun he => hne (congrArg some he)
    have hsame := h.lookup_eq hne
    cases hf : s.lookup s.bit q.chars with
    | some b =>
      obtain ⟨hb, hn⟩ := heads_of_lookup hf
      obtain ⟨l, hl, _⟩ := h.before.chained.chain b hb
      have hk := h.kept b l hb (fun he => hne (Path.chars_inj (hn.symm.trans he))) hl
      exact hk.getattr_eq hf (hsame.trans hf)
    | none => exact getattr_eq_of_none hf (hsame.trans hf)

theorem SparesOthers.read_eq {p q : Path} (h : s.SparesOthers t p) (hne : q ≠ p)
    (hm : s.lookup s.mem q.chars = s.lookup s.bit q.chars) (hm' : t.mem = t.bit) (env : Env)
    (size : UInt64) (offset : Int64) :
    (t.read env q.chars size offset).map Prod.snd =
      (s.read env q.chars size offset).map Prod.snd := by
  have hsame := h.lookup_eq hne
  cases hf : s.lookup s.bit q.chars with
  | some b =>
    obtain ⟨hb, hn⟩ := heads_of_lookup hf
    obtain ⟨l, hl, hin⟩ := h.before.chain_inside hb
    have hk := h.kept b l hb (fun he => hne (Path.chars_inj (hn.symm.trans he))) hl
    exact hk.read_eq (hm.trans hf) (by rw [hm']; exact hsame.trans hf) (chain_of_inside hl hin).2
      (chain_of_inside hk.chain hin).2 env size offset
  | none => exact read_eq_of_none (hm.trans hf) (by rw [hm']; exact hsame.trans hf) env size offset

theorem FileAt.unlink_eq {p : Path} {b : Nat} {l : List Nat} (h : s.FileAt p b l)
    (hw : s.WellFormed) :
    s.unlink p.chars = some (s.unlinked l, .ok) := by
  have hf : s.lookup s.bit p.chars = some b := (hw.differ.lookup_iff p b).mpr ⟨h.head, h.name⟩
  have hc := (chain_of_inside h.chain (fun x hx => hw.inside b l x h.head h.chain hx)).2
  simp only [unlink, hf, hc, Option.map_some]
  rfl

end Blocks

/-- What getattr and read say about every other path than `p`. A read relies on the bitmap in memory: it
says the same if that led to the file on disk before. -/
structure World.RepliesAlike (w w' : World) (p : Path) : Prop where
  getattr : ∀ q, q ≠ some p → ∀ env, w'.answers (env, .getattr q) = w.answers (env, .getattr q)
  read : ∀ q, q ≠ p → w.view.lookup w.view.mem q.chars = w.view.lookup w.view.bit q.chars →
    ∀ env size offset, w'.answers (env, .read q size offset) = w.answers (env, .read q size offset)

section

variable {w w' : World}

theorem Blocks.SparesOthers.alike {p : Path} (h : w.view.SparesOthers w'.view p)
    (hs : w.file.size = blockSize * numBlocks) (hs' : w'.file.size = blockSize * numBlocks)
    (hm' : w'.view.mem = w'.view.bit) : w.RepliesAlike w' p := by
  refine ⟨fun q hne env => ?_, fun q hne hm env size offset => ?_⟩
  · rw [answers_getattr hs' env q, answers_getattr hs env q]
    exact congrArg some (h.getattr_eq hne)
  · rw [answers_read hs' env q size offset, answers_read hs env q size offset]
    · exact h.read_eq hne hm hm' env size offset
    · intro b hb
      rw [hm] at hb
      exact h.before.chain_inside (Blocks.heads_of_lookup hb).1
    · intro b hb
      rw [hm'] at hb
      exact h.after.chain_inside (Blocks.heads_of_lookup hb).1

theorem fuseCall_create (hs : w.file.size = blockSize * numBlocks) {env : Env} {p : Path} {r : Reply}
    (hc : fuseCall w (env, .create p) = some (w', r)) :
    w.view.Step (env, .create p) w'.view r ∧ w'.file.size = blockSize * numBlocks := by
  have hl := helloCreate_view hs rfl env p.chars
  rw [Option.some.inj hc] at hl
  have hstep := w.view.step_create env p
  rw [← hl.view, ← hl.reply] at hstep
  exact ⟨hstep, hl.size⟩

theorem fuseCall_unlink (hs : w.file.size = blockSize * numBlocks) (hw : w.view.WellFormed)
    (env : Env) (p : Path) : ∃ w' r, fuseCall w (env, .unlink p) = some (w', r) ∧
      w.view.unlink p.chars = some (w'.view, r) ∧ w'.file.size = blockSize * numBlocks := by
  obtain ⟨r, t, hr, ht, hl⟩ := helloUnlink_view hs rfl env p.chars
    (fun b hb => hw.chain_inside (Blocks.heads_of_lookup hb).1)
  refine ⟨r.1, r.2, hr, ?_, hl.size⟩
  rw [ht, hl.view, hl.reply]

/-- On every well-formed volume, with whatever bitmap in memory. -/
theorem create_unlink_keep_wellFormed (hs : w.file.size = blockSize * numBlocks)
    (hw : w.view.WellFormed) (p : Path) :
    (∀ env w', fuseCall w (env, .create p) = some (w', .ok) →
      w.view.Gains w'.view p ∧ w.RepliesAlike w' p ∧
        ∀ env', ∃ w'', fuseCall w' (env', .unlink p) = some (w'', .ok) ∧
          w''.view.bit = w.view.bit) ∧
    ∀ env w', fuseCall w (env, .unlink p) = some (w', .ok) →
      w.view.Loses w'.view p ∧ w.RepliesAlike w' p := by
  constructor
  · intro env w' hc
    obtain ⟨hstep, hs'⟩ := fuseCall_create hs hc
    obtain ⟨hgain, hspare, hm, i, hfile, hback⟩ := hw.create_step hstep
    refine ⟨hgain, hspare.alike hs hs' hm, fun env' => ?_⟩
    obtain ⟨w'', r, hu, hview, _⟩ := fuseCall_unlink hs' hgain.wellFormed env' p
    rw [hfile.unlink_eq hgain.wellFormed] at hview
    obtain ⟨hv, hr⟩ := Prod.mk.inj (Option.some.inj hview)
    refine ⟨w'', hr ▸ hu, ?_⟩
    rw [← hv]
    exact hback
  · intro env w' hc
    obtain ⟨w₁, r, hu, hview, hs'⟩ := fuseCall_unlink hs hw env p
    rw [hc] at hu
    cases hu
    have hstep : w.view.Step (env, .unlink p) w'.view .ok := Blocks.step_unlink hview
    obtain ⟨hlose, hspare, hm⟩ := hw.unlink_step hstep
    exact ⟨hlose, hspare.alike hs hs' hm⟩

end

set_option maxRecDepth 100000 in
/-- Two files whose blocks alternate: a third one is created, and the longer one of the two unlinked. -/
theorem create_unlink_keep_wellFormed_two_files : ∃ w w₁ w₂ : World,
    w.view.FileAt pathA 1 [1, 3] ∧ w.view.FileAt pathB 2 [2, 4, 5] ∧
    fuseCall w (plain (.create pathX)) = some (w₁, .ok) ∧ w.view.Gains w₁.view pathX ∧
    w.RepliesAlike w₁ pathX ∧
    (∃ w₃, fuseCall w₁ (plain (.unlink pathX)) = some (w₃, .ok) ∧ w₃.view.bit = w.view.bit) ∧
    fuseCall w (plain (.unlink pathB)) = some (w₂, .ok) ∧ w.view.Loses w₂.view pathB ∧
    w.RepliesAlike w₂ pathB := by
  obtain ⟨h, s, hr, hc⟩ := blockRun_of_plays ownsBlocks
    [plain (.create pathA), plain (.create pathB), plain (.write pathA (fun _ => 88) 5000 0),
      plain (.write pathB (fun _ => 89) 9000 0)]
    (fun _ s => s.bit 0 = 1 ∧ s.lookup s.bit pathA.chars = some 1 ∧ s.chain 1 = some [1, 3] ∧
      s.lookup s.bit pathB.chars = some 2 ∧ s.chain 2 = some [2, 4, 5] ∧
      (s.call (plain (.create pathX))).any (fun t => t.2 = .ok) ∧
      (s.call (plain (.unlink pathB))).any (fun t => t.2 = .ok))
    (by decide +kernel)
  obtain ⟨h0, hfa, hla, hfb, hlb, hcreate, hunlink⟩ := of_decide_eq_true hc
  obtain ⟨⟨t₁, r₁⟩, hcall₁, hok₁⟩ := (Option.any_eq_true _ _).mp hcreate
  obtain ⟨⟨t₂, r₂⟩, hcall₂, hok₂⟩ := (Option.any_eq_true _ _).mp hunlink
  obtain rfl : r₁ = .ok := of_decide_eq_true hok₁
  obtain rfl : r₂ = .ok := of_decide_eq_true hok₂
  obtain ⟨w, mode, hs, _⟩ := hr.reaches
  obtain ⟨_, w₁, hw₁, _⟩ := call_some hs hcall₁
  obtain ⟨_, w₂, hw₂, _⟩ := call_some hs hcall₂
  have hwf : w.view.WellFormed := by
    rw [hs.view]
    exact hr.volume.wellFormed hr.range h0
  have hfile : ∀ {p : Path} {b : Nat} {l : List Nat}, s.lookup s.bit p.chars = some b →
      s.chain b = some l → w.view.FileAt p b l := by
    intro p b l hf hl
    rw [hs.view]
    obtain ⟨hb, hn⟩ := Blocks.heads_of_lookup hf
    exact ⟨hb, hn, .of_follow hl⟩
  obtain ⟨hgain, halike, hback⟩ := (create_unlink_keep_wellFormed hs.size hwf pathX).1 _ w₁ hw₁
  obtain ⟨hlose, halike'⟩ := (create_unlink_keep_wellFormed hs.size hwf pathB).2 _ w₂ hw₂
  exact ⟨w, w₁, w₂, hfile hfa hla, hfile hfb hlb, hw₁, hgain, halike, hback _, hw₂, hlose, halike'⟩

/-- Another bitmap in memory. -/
theorem World.Shows.forget {w : World} {mode : OpenMode} {s : Blocks} (h : w.Shows mode s) :
    World.Shows { w with bitmap := fun _ => 0 } mode { s with mem := fun _ => 0 } := by
  refine ⟨h.size, h.magic, h.log, h.mode, ?_, h.range.next, fun _ => Or.inl rfl, h.range.bit⟩
  rw [← h.view]
  simp [World.view]

set_option maxRecDepth 100000 in
/-- With an empty bitmap in memory a read finds no file; after a create of another path it does. -/
theorem create_brings_file_back : ¬∀ w w' : World, w.file.size = blockSize * numBlocks →
    w.view.WellFormed → ∀ p q env, q ≠ p → fuseCall w (env, .create p) = some (w', .ok) →
      ∀ env size offset, w'.answers (env, .read q size offset) =
        w.answers (env, .read q size offset) := by
  intro hall
  obtain ⟨h, s, hr, hc⟩ := blockRun_of_plays ownsBlocks [plain (.create pathB)]
    (fun _ s => s.bit 0 = 1 ∧
      Blocks.answers { s with mem := fun _ => 0 } (plain (.read pathB 1 0)) =
        some (.err .enoent) ∧
      (Blocks.call { s with mem := fun _ => 0 } (plain (.create pathA))).any (fun t =>
        t.2 = .ok ∧ t.1.answers (plain (.read pathB 1 0)) = some (.data 0 [])))
    (by decide +kernel)
  obtain ⟨h0, hbefore, hsome⟩ := of_decide_eq_true hc
  obtain ⟨⟨t, r⟩, hcall, hafter⟩ := (Option.any_eq_true _ _).mp hsome
  obtain ⟨hok, hafter⟩ := of_decide_eq_true hafter
  obtain rfl : r = .ok := hok
  have hwf := hr.volume.wellFormed hr.range h0
  obtain ⟨w, mode, hs, _⟩ := hr.reaches
  have hs₀ := hs.forget
  obtain ⟨_, w', hw', hs'⟩ := call_some hs₀ hcall
  have hwf₀ : Blocks.WellFormed { s with mem := fun _ => 0 } :=
    ⟨⟨hwf.chained.chain, hwf.chained.disjoint⟩, hwf.inside, hwf.owned, hwf.differ, hwf.zero, hwf.words⟩
  have hsame := hall _ w' hs₀.size (by rw [hs₀.view]; exact hwf₀) pathA pathB _ (by decide) hw'
    (plain (.read pathB 1 0)).1 1 0
  rw [hs'.answers_eq, hs₀.answers_eq] at hsame
  exact absurd (hafter.symm.trans (hsame.trans hbefore)) (by decide)

end FreeBSDEdits
