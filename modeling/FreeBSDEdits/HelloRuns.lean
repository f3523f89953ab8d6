import FreeBSDEdits.HelloRefines
import FreeBSDEdits.GuardedRun

namespace FreeBSDEdits

namespace World

/-- The same volume with an empty trace. -/
def clear (w : World) : World := { w with log := [] }

theorem Shows.clear {w : World} {mode : OpenMode} {s : Blocks} (h : w.Shows mode s) :
    w.clear.Shows mode s :=
  ⟨h.size, h.magic, by simp [World.clear], h.mode, h.view, h.range⟩

theorem clear_lseek (w : World) (k : Int) : (w.clear.lseek k).clear = (w.lseek k).clear := rfl

theorem clear_readBitmap (w : World) : w.clear.readBitmap.clear = w.readBitmap.clear := rfl

theorem clear_write (w : World) (n : Nat) (src : Nat → UInt8) :
    (w.clear.write n src).clear = (w.write n src).clear := by
  obtain ⟨file, ⟨mode, pos⟩, bitmap, log⟩ := w
  cases mode <;> rfl

theorem clear_reload {u w : World} (h : u.clear = w.clear) :
    ((u.writeBitmap.lseek 4).readBitmap).clear = ((w.writeBitmap.lseek 4).readBitmap).clear := by
  have hc : ∀ v : World, ((v.writeBitmap.lseek 4).readBitmap).clear =
      (((v.clear.write sizeofBitmap
        (bitmapBytes v.clear.bitmap)).clear.lseek 4).clear.readBitmap).clear := by
    intro v
    rw [clear_write, clear_lseek, clear_readBitmap]
    rfl
  rw [hc u, hc w, h]

end World

/-- The volume when `main` has written the magic number but not yet the bitmap. -/
def stamped : World where
  file := (ByteFile.empty.resize (blockSize * numBlocks)).write 0 4 (LittleEndian.byteAt magicNumber)
  fd := ⟨.rdwr, 4⟩
  bitmap i := if i = 0 then 1 else 0
  log := []

theorem stamped_shows : stamped.Shows .rdwr { Blocks.fresh with bit := fun _ => 0 } := by
  have hz : ∀ k, 4 ≤ k → stamped.file.byte k = 0 := by
    intro k hk
    refine (ByteFile.write_outside (Or.inr (by omega))).trans ?_
    simp [ByteFile.resize, ByteFile.empty]
  refine ⟨ByteFile.write_size (by decide), fun k hk => ?_, by simp [stamped], rfl, ?_, ?_⟩
  · have h : stamped.file.byte (0 + k) = LittleEndian.byteAt magicNumber k :=
      ByteFile.write_inside hk
    rwa [Nat.zero_add] at h
  · have hw : ∀ i, int32At stamped.file.byte (4 + 4 * i) = 0 := by
      intro i
      have hc : int32At stamped.file.byte (4 + 4 * i) = int32At (fun _ => 0) 0 :=
        int32At_congr (fun k _ => hz _ (by omega))
      rw [hc]
      decide
    simp only [World.view, Blocks.fresh, Blocks.mk.injEq]
    refine ⟨?_, ?_, ?_, ?_⟩
    · funext i
      by_cases hi : i = 0 <;> simp [stamped, hi]
    · funext i
      simp [hw]
    · funext b
      split
      next hb =>
        rw [← Metadata.ofBytes_zero]
        exact Metadata.ofBytes_congr (fun k _ => hz _ (by omega))
      next => rfl
    · funext b k
      split
      next hb => exact hz _ (by omega)
      next => rfl
  · refine ⟨fun b => ⟨Int.le_refl 0, Int.natCast_pos.mpr (by decide)⟩, fun i => ?_, fun i => Or.inl rfl⟩
    by_cases hi : i = 0 <;> simp [Blocks.fresh, hi]

theorem formatted_eq :
    formatted = (((stamped.lseek 4).writeBitmap.lseek 4).readBitmap).clear := by
  have hm : int32At (ByteFile.empty.resize (blockSize * numBlocks)).byte 0 = 0 := by decide
  unfold formatted mount
  simp only [hm, if_true]
  refine World.clear_reload (w := stamped.lseek 4) ?_
  have hb : (fun j : Nat => if (j : Int) = 0 ∧ j < numBlocks then (1 : Int32) else 0) =
      stamped.bitmap := by
    funext j
    by_cases hj : j = 0 <;> simp [stamped, hj]
  exact congrArg (fun b => World.mk stamped.file ⟨.rdwr, 4⟩ b []) hb

theorem formatted_shows : formatted.Shows .rdwr .fresh := by
  rw [formatted_eq]
  exact (stamped_shows.storeBitmap.loadBitmap).clear

theorem fuseCall_some {w w' : World} {mode : OpenMode} {s : Blocks} {c : Env × Call} {r : Reply}
    (h : w.Shows mode s) (hc : fuseCall w c = some (w', r)) :
    ∃ mode' s', w'.Shows mode' s' ∧ s.call c = some (s', r) := by
  have hrel := fuseCall_refines h c
  rw [hc] at hrel
  cases ht : s.call c with
  | none =>
    rw [ht] at hrel
    cases hrel
  | some t =>
    rw [ht] at hrel
    cases hrel with
    | some hl =>
      obtain ⟨⟨mode', h'⟩, he⟩ := hl
      exact ⟨mode', t.1, h', congrArg (fun x => some (t.1, x)) he.symm⟩

theorem call_some {w : World} {mode : OpenMode} {s s' : Blocks} {c : Env × Call} {r : Reply}
    (h : w.Shows mode s) (hc : s.call c = some (s', r)) :
    ∃ mode' w', fuseCall w c = some (w', r) ∧ w'.Shows mode' s' := by
  have hrel := fuseCall_refines h c
  rw [hc] at hrel
  cases ht : fuseCall w c with
  | none =>
    rw [ht] at hrel
    cases hrel
  | some t =>
    rw [ht] at hrel
    cases hrel with
    | some hl =>
      obtain ⟨⟨mode', h'⟩, he⟩ := hl
      exact ⟨mode', t.1, congrArg (fun x => some (t.1, x)) he, h'⟩

/-- The calls made so far and what they returned, the newest first. -/
abbrev History := List ((Env × Call) × Reply)

/-- The states a freshly formatted volume can be brought to by completed calls that all satisfy
`ok`, a condition on the history, the blocks before the call, and the call. -/
def Reaches (ok : History → Blocks → Env × Call → Prop) : History → World → Prop :=
  GuardedRun fuseCall (fun h w c => ok h w.view c) formatted

/-- The same runs on the block level. -/
def BlockRun (ok : History → Blocks → Env × Call → Prop) : History → Blocks → Prop :=
  GuardedRun Blocks.call ok .fresh

def anyCall (_ : History) (_ : Blocks) (_ : Env × Call) : Prop := True

variable {ok : History → Blocks → Env × Call → Prop} {h : History} {w : World} {s : Blocks}

theorem Reaches.blockRun (hr : Reaches ok h w) :
    (∃ mode, w.Shows mode w.view) ∧ BlockRun ok h w.view := by
  have hlift : ∃ s, (∃ mode, w.Shows mode s) ∧ BlockRun ok h s :=
    GuardedRun.lift (fun w s => ∃ mode, w.Shows mode s) ⟨_, formatted_shows⟩
      (fun w s c w' r ⟨_, hs⟩ hc => by
        obtain ⟨mode', s', hs', he⟩ := fuseCall_some hs hc
        exact ⟨s', he, mode', hs'⟩)
      (fun h w s c ⟨_, hs⟩ hg => hs.view ▸ hg) hr
  obtain ⟨s, ⟨mode, hs⟩, hrun⟩ := hlift
  have hv := hs.view
  subst hv
  exact ⟨⟨mode, hs⟩, hrun⟩

theorem BlockRun.reaches (hr : BlockRun ok h s) :
    ∃ w mode, w.Shows mode s ∧ Reaches ok h w := by
  have hlift : ∃ w, (∃ mode, w.Shows mode s) ∧ Reaches ok h w :=
    GuardedRun.lift (fun s (w : World) => ∃ mode, w.Shows mode s) ⟨_, formatted_shows⟩
      (fun s w c s' r ⟨_, hs⟩ hc => by
        obtain ⟨mode', w', he, hs'⟩ := call_some hs hc
        exact ⟨w', he, mode', hs'⟩)
      (fun h s w c ⟨_, hs⟩ hg => hs.view.symm ▸ hg) hr
  obtain ⟨w, ⟨mode, hs⟩, hrun⟩ := hlift
  exact ⟨w, mode, hs, hrun⟩

theorem BlockRun.range (hr : BlockRun ok h s) : s.InRange := by
  obtain ⟨_, _, hs, _⟩ := hr.reaches
  exact hs.range

/-- A property of histories and blocks that every allowed call keeps. -/
theorem BlockRun.invariant {P : History → Blocks → Prop} (h0 : P [] .fresh)
    (hstep : ∀ h s c s' r, s.InRange → P h s → ok h s c → s.call c = some (s', r) →
      P ((c, r) :: h) s') (hr : BlockRun ok h s) : P h s :=
  GuardedRun.invariant h0 (fun h s c s' r hrun => hstep h s c s' r (BlockRun.range hrun)) hr

/-- Whether a list of calls can be made on a fresh volume with `ok` at every call, and leaves
something that satisfies `check`. -/
def plays (ok : History → Blocks → Env × Call → Prop) [∀ h s c, Decidable (ok h s c)]
    (cs : List (Env × Call)) (check : History → Blocks → Bool) : Bool :=
  (GuardedRun.replay Blocks.call ok [] .fresh cs).any (fun r => check r.1 r.2)

theorem blockRun_of_plays (ok : History → Blocks → Env × Call → Prop)
    [∀ h s c, Decidable (ok h s c)] (cs : List (Env × Call))
    (check : History → Blocks → Bool) (hp : plays ok cs check = true) :
    ∃ h s, BlockRun ok h s ∧ check h s = true :=
  GuardedRun.exists_of_replay hp

/-- The same with the history spelt out. -/
theorem blockRun_of_replies (ok : History → Blocks → Env × Call → Prop)
    [∀ h s c, Decidable (ok h s c)] (cs : List (Env × Call)) (rs : List Reply)
    (check : Blocks → Bool)
    (hp : plays ok cs (fun h s => h.map Prod.snd = rs ∧ check s = true) = true) :
    ∃ s, BlockRun ok (cs.reverse.zip rs) s ∧ check s = true := by
  obtain ⟨⟨h, s⟩, he, hc⟩ := (Option.any_eq_true _ _).mp hp
  obtain ⟨hrs, hc⟩ := of_decide_eq_true hc
  have hcs : h.map Prod.fst = cs.reverse := by simpa using GuardedRun.replay_labels he
  have hzip : h = cs.reverse.zip rs := by
    rw [← hcs, ← hrs]
    exact List.zip_of_prod rfl rfl
  exact ⟨s, hzip ▸ GuardedRun.of_replay .start he, hc⟩

theorem reaches_of_plays (ok : History → Blocks → Env × Call → Prop)
    [∀ h s c, Decidable (ok h s c)] (cs : List (Env × Call))
    (check : History → Blocks → Bool) (hp : plays ok cs check = true) :
    ∃ h w, Reaches ok h w ∧ check h w.view = true := by
  obtain ⟨h, s, hr, hc⟩ := blockRun_of_plays ok cs check hp
  obtain ⟨w, mode, hs, hrun⟩ := hr.reaches
  exact ⟨h, w, hrun, by rw [hs.view]; exact hc⟩

instance : ∀ h s c, Decidable (anyCall h s c) := fun _ _ _ => instDecidableTrue

/-- `/a` -/
def pathA : Path := ⟨[97], by decide, by decide⟩

/-- `/b` -/
def pathB : Path := ⟨[98], by decide, by decide⟩

/-- `/x` -/
def pathX : Path := ⟨[120], by decide, by decide⟩

/-- A name that does not fit `filename`. -/
def pathLong : Path := ⟨List.replicate 24 99, by decide, by decide⟩

/-- A call with a zeroed stack and a stopped clock. -/
def plain (c : Call) : Env × Call := (⟨.zero, fun _ => 0, fun _ => ⟨0, 0⟩⟩, c)

end FreeBSDEdits
