import FreeBSDEdits.HelloWriteLaw

namespace FreeBSDEdits

/-- The writing loop of hello_write, given up after a number of rounds. -/
def writeLoopWithin (buffer : Int → UInt8) :
    Nat → World → Metadata → Int32 → Int32 → Nat → Option (World × Option Errno)
  | 0, _, _, _, _, _ => none
  | rounds + 1, w, md, currentBlock, newFileSize, bytesWritten =>
    let data := fun k : Nat => buffer (bytesWritten + k)
    if cSize newFileSize.toInt > usableSpace then
      let (w, next) :=
        if md.next = 0 then linkFree w md currentBlock
        else
          let (w, md) := (w.lseek (blockOffset currentBlock)).readMd md
          let nextBlock := md.next
          let (w, md) := (w.lseek (blockOffset nextBlock)).readMd md
          (w, some (md, nextBlock))
      match next with
      | none => some (w, some .enomem)
      | some (md, nextBlock) =>
        let w := (w.lseek (blockOffset currentBlock + sizeofMetadata)).write usableSpace data
        writeLoopWithin buffer rounds w md nextBlock (lowerInt newFileSize)
          (bytesWritten + usableSpace)
    else
      let w := w.lseek (blockOffset currentBlock + sizeofMetadata)
      some (w.write (cSize newFileSize.toInt) data, none)

/-- The loop makes at most one round for each block that the size, read as an unsigned int, takes. -/
theorem writeLoopWithin_eq (buffer : Int → UInt8) {rounds : Nat} {x : Int32}
    (h : blocksFor (loopSize x) ≤ rounds) (w : World) (md : Metadata) (cb : Int32) (pos : Nat) :
    writeLoopWithin buffer rounds w md cb x pos = some (writeLoop buffer w md cb x pos) := by
  induction rounds generalizing x w md cb pos with
  | zero =>
    have := blocksFor_pos (loopSize x)
    omega
  | succ rounds ih =>
    rw [writeLoopWithin, writeLoop]
    by_cases hx : cSize x.toInt > usableSpace
    · have hlower := blocksFor_lower ((cSize_gt_iff x).mp hx)
      rw [← loopSize_lowerInt hx] at hlower
      simp only [if_pos hx, dif_pos hx]
      -- what the two loops find out about the next block is the same term
      generalize (if md.next = 0 then linkFree w md cb else _) = found
      obtain ⟨w', next⟩ := found
      cases next with
      | none => rfl
      | some next => exact ih (by omega) _ _ _ _
    · simp only [if_neg hx, dif_neg hx]

/-- What the check of the new size is there for: the rest of a write to the file of block `b`. -/
structure WriteFits (w' : World) (b : Nat) (size : UInt64) (offset : Int64) : Prop where
  sum : offset.toInt + size.toNat ≤ maxRequestSize
  copy : ∀ (buffer : Int → UInt8) (buf : Nat → UInt8) (k : Int),
    copyIn buffer offset.toInt size.toNat buf k ≠ buffer k → 0 ≤ k ∧ k < maxRequestSize
  stored : 0 ≤ (w'.view.hdr b).fileSize.toInt
  rounds : ∀ (buffer : Int → UInt8) (w : World) (md : Metadata) (currentBlock : Int32) (pos : Nat),
    writeLoopWithin buffer (maxRequestSize / usableSpace + 1) w md currentBlock
      (newSize size offset) pos = some (writeLoop buffer w md currentBlock (newSize size offset) pos)

theorem copyIn_ne {buffer : Int → UInt8} {buf : Nat → UInt8} {offset : Int} {size : Nat} {k : Int}
    (h : copyIn buffer offset size buf k ≠ buffer k) : offset ≤ k ∧ k < offset + size := by
  by_contra hk
  exact h (if_neg hk)

/-- The check passes for every sum whose low 32 bits are small or have the sign bit. -/
theorem newSize_le_iff (size : UInt64) (offset : Int64) :
    (newSize size offset).toInt ≤ maxRequestSize ↔
      (offset.toInt + size.toNat) % 2 ^ 32 ≤ maxRequestSize ∨
        2 ^ 31 ≤ (offset.toInt + size.toNat) % 2 ^ 32 := by
  rw [newSize, Int32.toInt_ofInt, Int32.size]
  show Int.bmod _ _ ≤ 131072 ↔ _ % 2 ^ 32 ≤ 131072 ∨ _
  rw [Int.bmod]
  omega

namespace Blocks

variable {s t : Blocks}

/-- A write that is answered by anything but ENOBUFS stores the new size in the head of the file. -/
theorem write_stores {b : Nat} {env : Env} {p : Path} {buf : Nat → UInt8} {size : UInt64}
    {offset : Int64} {r : Reply} (hf : s.lookup s.mem p.chars = some b)
    (h : s.write env p.chars buf size offset = some (t, r)) :
    r = .err .enobufs ∧ maxRequestSize < (newSize size offset).toInt ∨
      r ≠ .err .enobufs ∧ (newSize size offset).toInt ≤ maxRequestSize ∧
        (t.hdr b).fileSize = newSize size offset := by
  have hout : ∀ l : List Nat, b ∉ s.taken l (newSize size offset) := by
    intro l hb
    have hfree := (mem_freeBlocks.mp (List.mem_of_mem_take hb)).2.2
    rw [(lookup_some hf).2.2.1] at hfree
    exact absurd hfree (by decide)
  have hstored : ∀ (l filled : List Nat) (buffer : Int → UInt8),
      ((s.written env b l (newSize size offset) buffer filled).hdr b).fileSize =
        newSize size offset := by
    intro l filled buffer
    obtain ⟨x, hx⟩ := written_head (hout l) env buffer filled
    exact congrArg Metadata.fileSize hx
  have hs := step_write h
  cases hs with
  | look hl => exact hl.elim
  | reload hl => exact hl.elim
  | writeNone hn => cases hn.symm.trans hf
  | writeBig _ _ hbig => exact Or.inl ⟨rfl, hbig⟩
  | @write _ _ _ _ _ _ l hf' _ hle _ =>
    cases hf.symm.trans hf'
    exact Or.inr ⟨Reply.noConfusion, hle, hstored l (l ++ s.taken l (newSize size offset))
      (copyIn (stageBlocks s.dat l 0 env.buffer) offset.toInt size.toNat buf)⟩
  | @starve _ _ _ _ _ _ l hf' _ hle _ =>
    cases hf.symm.trans hf'
    refine Or.inr ⟨fun he => ?_, hle, hstored l _ _⟩
    cases he

end Blocks

/-- The check keeps the rest of hello_write in its bounds exactly if the sum is small enough, or is
refused because its low 32 bits are large and have no sign bit. -/
theorem write_fits_iff {h : History} {w w' : World} {env : Env} {p : Path} {buf : Nat → UInt8}
    {size : UInt64} {offset : Int64} {r : Reply} {b : Nat} (hr : Reaches anyCall h w)
    (h0 : 0 ≤ offset.toInt) (hf : w.view.lookup w.view.mem p.chars = some b)
    (hc : fuseCall w (env, .write p buf size offset) = some (w', r)) :
    (r ≠ .err .enobufs → WriteFits w' b size offset) ↔
      offset.toInt + size.toNat ≤ maxRequestSize ∨
        maxRequestSize < (offset.toInt + size.toNat) % 2 ^ 32 ∧
          (offset.toInt + size.toNat) % 2 ^ 32 < 2 ^ 31 := by
  obtain ⟨⟨mode, hs⟩, _⟩ := hr.blockRun
  obtain ⟨mode', t, hs', hcall⟩ := fuseCall_some hs hc
  have hcheck := newSize_le_iff size offset
  have hcases := Blocks.write_stores hf hcall
  rw [← hs'.view] at hcases
  constructor
  · intro hsafe
    rcases hcases with ⟨_, hbig⟩ | ⟨hne, _, _⟩
    · exact Or.inr (by omega)
    · exact Or.inl (hsafe hne).sum
  · rintro (hsum | hlow) hne
    · have hnew := newSize_toInt h0 hsum
      have hloop := loopSize_newSize h0 hsum
      rcases hcases with ⟨he, _⟩ | ⟨_, _, hstored⟩
      · exact absurd he hne
      · refine ⟨hsum, fun buffer buf k hk => ?_, ?_, fun buffer w md cb pos => ?_⟩
        · have hin := copyIn_ne hk
          omega
        · rw [hstored]
          omega
        · apply writeLoopWithin_eq
          have hmax : loopSize (newSize size offset) ≤ 131072 := by
            have : offset.toInt + size.toNat ≤ 131072 := hsum
            omega
          show (loopSize (newSize size offset) - 1) / 4016 + 1 ≤ 131072 / 4016 + 1
          omega
    · rcases hcases with ⟨he, _⟩ | ⟨_, hle, _⟩
      · exact absurd he hne
      · omega

set_option maxRecDepth 100000 in
theorem write_fits_iff_ten : ∃ h w w', Reaches anyCall h w ∧
    fuseCall w (plain (.write pathA (fun _ => 88) 10 0)) = some (w', .written 10) ∧
      WriteFits w' 1 10 0 := by
  obtain ⟨h, s, hr, hc⟩ := blockRun_of_plays anyCall [plain (.create pathA)]
    (fun _ s => s.lookup s.mem pathA.chars = some 1 ∧
      (s.call (plain (.write pathA (fun _ => 88) 10 0))).any (fun t => t.2 = .written 10))
    (by decide +kernel)
  obtain ⟨hf, hsome⟩ := of_decide_eq_true hc
  obtain ⟨⟨t, r⟩, hcall, hok⟩ := (Option.any_eq_true _ _).mp hsome
  obtain rfl : r = .written 10 := of_decide_eq_true hok
  obtain ⟨w, mode, hs, hrun⟩ := hr.reaches
  obtain ⟨_, w', hw, _⟩ := call_some hs hcall
  rw [← hs.view] at hf
  exact ⟨h, w, w', hrun, hw,
    (write_fits_iff hrun (by decide) hf hw).mpr (Or.inl (by decide)) Reply.noConfusion⟩

set_option maxRecDepth 100000 in
/-- One byte at offset 2^32 passes the check: its new size is 1. -/
theorem far_write_passes_check : ¬∀ h w w' env p buf (size : UInt64) (offset : Int64) r b,
    Reaches anyCall h w → 0 ≤ offset.toInt → size.toNat ≤ maxRequestSize →
      w.view.lookup w.view.mem p.chars = some b →
        fuseCall w (env, .write p buf size offset) = some (w', r) → r ≠ .err .enobufs →
          WriteFits w' b size offset := by
  intro hall
  obtain ⟨h, s, hr, hc⟩ := blockRun_of_plays anyCall [plain (.create pathA)]
    (fun _ s => s.lookup s.mem pathA.chars = some 1 ∧
      (s.call (plain (.write pathA (fun _ => 88) 1 4294967296))).any (fun t => t.2 = .written 1))
    (by decide +kernel)
  obtain ⟨hf, hsome⟩ := of_decide_eq_true hc
  obtain ⟨⟨t, r⟩, hcall, hok⟩ := (Option.any_eq_true _ _).mp hsome
  obtain rfl : r = .written 1 := of_decide_eq_true hok
  obtain ⟨w, mode, hs, hrun⟩ := hr.reaches
  obtain ⟨_, w', hw, _⟩ := call_some hs hcall
  rw [← hs.view] at hf
  have hfits := hall h w w' _ pathA _ 1 4294967296 _ 1 hrun (by decide) (by decide) hf hw
    Reply.noConfusion
  exact absurd hfits.sum (by decide)

end FreeBSDEdits
