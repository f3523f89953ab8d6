import FreeBSDEdits.HelloSteps

namespace FreeBSDEdits

/-- A header whose name ends inside the array and whose size is one a request may have. -/
structure Metadata.Ranged (md : Metadata) : Prop where
  name : md.NulTerminated
  nonneg : 0 ≤ md.fileSize.toInt
  le : md.fileSize.toInt ≤ maxRequestSize

theorem Metadata.zero_ranged : Metadata.zero.Ranged :=
  ⟨zero_nulTerminated, Int.le_refl 0, Int.natCast_nonneg _⟩

/-- A property of headers that does not look at `next` survives the linking of blocks. -/
theorem linkBlocks_forall {P : Metadata → Prop} (hz : P .zero)
    (hnext : ∀ md x, P md → P { md with next := x }) {hdr : Nat → Metadata} {md : Metadata}
    {current : Nat} {l : List Nat} (hhdr : ∀ b, P (hdr b)) (hmd : P md) (b : Nat) :
    P (linkBlocks hdr md current l b) := by
  induction l generalizing hdr md current with
  | nil => exact hhdr b
  | cons c l ih =>
    refine ih (fun b => ?_) hz
    by_cases hb : b = current
    · subst b
      simpa using hnext md _ hmd
    · simpa [hb] using hhdr b

/-- A growing truncate sets words of the bitmap to 1 and changes no others. -/
theorem growMarks_eq (next : Nat → Option Nat) (more : Nat) (mem : Nat → Int32) (b i : Nat) :
    (growMarks next more mem b).1 i = mem i ∨ (growMarks next more mem b).1 i = 1 := by
  induction more generalizing mem b with
  | zero => exact Or.inl rfl
  | succ more ih =>
    simp only [growMarks]
    split
    next => exact ih mem _
    next =>
      split
      next => exact Or.inl rfl
      next j _ =>
        rcases ih (mark mem [j] 1) j with h | h
        · rw [h, mark]
          split
          · exact Or.inr rfl
          · exact Or.inl rfl
        · exact Or.inr h

namespace Blocks

structure Ranged (s : Blocks) : Prop where
  header : ∀ b, (s.hdr b).Ranged
  mem : s.mem 0 = 1
  bit : s.bit 0 = 1

variable {s s' : Blocks}

theorem mark_of_eq_one {marks : Nat → Int32} {i : Nat} (h : marks i = 1) (l : List Nat) :
    mark marks l 1 i = 1 := by
  rw [mark]
  split
  · rfl
  · exact h

/-- Clearing the blocks of a chain leaves the word of block 0. -/
theorem mark_chain_zero (hr : s.InRange) (marks : Nat → Int32) {a : Nat} {l : List Nat}
    (hl : s.chain a = some l) (h1 : 1 ≤ a) (ha : a < numBlocks) (v : Int32) :
    mark marks l v 0 = marks 0 := by
  rw [mark, if_neg]
  intro h0
  have := (hr.chain_mem (LinkedChain.of_follow hl) h1 ha h0).1
  omega

end Blocks

/-- Writes that fit the request size from the start of the file on. -/
def boundedWrites (_ : History) (_ : Blocks) : Env × Call → Prop
  | (_, .write _ _ size offset) => 0 ≤ offset.toInt ∧ offset.toInt + size.toNat ≤ maxRequestSize
  | _ => True

instance : ∀ h s c, Decidable (boundedWrites h s c) := by
  intro h s c
  obtain ⟨_, c⟩ := c
  rcases c <;> unfold boundedWrites <;> infer_instance

theorem newSize_toInt {size : UInt64} {offset : Int64} (h0 : 0 ≤ offset.toInt)
    (h1 : offset.toInt + size.toNat ≤ maxRequestSize) :
    (newSize size offset).toInt = offset.toInt + size.toNat := by
  have h1' : offset.toInt + size.toNat ≤ 131072 := h1
  rw [newSize, Int32.toInt_ofInt, Int32.size]
  exact Int.bmod_eq_of_le (by omega) (by omega)

namespace Blocks

variable {s s' : Blocks}

theorem writeHead_ranged (h : s.Ranged) (env : Env) (b : Nat) {size : UInt64} {offset : Int64}
    (h0 : 0 ≤ offset.toInt) (h1 : offset.toInt + size.toNat ≤ maxRequestSize) :
    (s.writeHead env b (newSize size offset)).Ranged := by
  have he := newSize_toInt h0 h1
  refine ⟨(h.header b).name, ?_, ?_⟩
  · change 0 ≤ (newSize size offset).toInt
    omega
  · change (newSize size offset).toInt ≤ _
    omega

theorem createHead_ranged (s : Blocks) (env : Env) {path : CString}
    (hlen : path.length < maxFilenameLength) : (s.createHead env path).Ranged :=
  ⟨Metadata.strcpyFilename_nulTerminated _ hlen, Int.le_refl 0, Int.natCast_nonneg _⟩

theorem Ranged.update (h : s.Ranged) {b : Nat} {md : Metadata} (hmd : md.Ranged) (c : Nat) :
    (Function.update s.hdr b md c).Ranged := by
  by_cases hc : c = b
  · subst c
    simpa using hmd
  · simpa [hc] using h.header c

theorem Ranged.written (h : s.Ranged) (env : Env) (b : Nat) (l : List Nat) {size : UInt64}
    {offset : Int64} (h0 : 0 ≤ offset.toInt) (h1 : offset.toInt + size.toNat ≤ maxRequestSize)
    (buffer : Int → UInt8) (filled : List Nat) :
    (s.written env b l (newSize size offset) buffer filled).Ranged := by
  have hup := h.update (b := b) (writeHead_ranged h env b h0 h1)
  exact ⟨linkBlocks_forall Metadata.zero_ranged (fun _ _ hm => ⟨hm.name, hm.nonneg, hm.le⟩) hup (hup _),
    mark_of_eq_one h.mem _, h.bit⟩

theorem fresh_ranged : fresh.Ranged := ⟨fun _ => Metadata.zero_ranged, rfl, rfl⟩

theorem Ranged.step (h : s.Ranged) (hr : s.InRange) {hist : History} {c : Env × Call} {r : Reply}
    (hok : boundedWrites hist s c) (hs : s.Step c s' r) : s'.Ranged := by
  cases hs with
  | look | writeNone | writeBig | truncateNone | keep => exact h
  | reload => exact ⟨h.header, h.bit, h.bit⟩
  | touch _ _ =>
    exact ⟨h.update ⟨(h.header _).name, (h.header _).nonneg, (h.header _).le⟩, h.mem, h.bit⟩
  | @write env _ _ _ _ b l =>
    have hw := h.written env b l hok.1 hok.2 env.buffer []
    exact ⟨hw.header, hw.mem, hw.mem⟩
  | @starve env _ _ _ _ b l =>
    have hw := h.written env b l hok.1 hok.2 env.buffer []
    exact ⟨hw.header, hw.mem, hw.bit⟩
  | @shrink _ _ size _ _ hf _ h0 hl =>
    refine ⟨h.header, (mark_chain_zero hr s.mem hl (Nat.pos_of_ne_zero h0) ?_ 0).trans h.mem, h.bit⟩
    obtain ⟨n, hn⟩ : ∃ n, blocksFor (cSize size.toInt) = n + 1 := ⟨_, rfl⟩
    rw [hn, Function.iterate_succ_apply']
    exact hr.rawNext_lt _
  | grow _ _ _ =>
    refine ⟨h.header, ?_, h.bit⟩
    rcases growMarks_eq s.next _ s.mem _ 0 with he | he
    · exact he.trans h.mem
    · exact he
  | unlink hf hl =>
    obtain ⟨h1, hb, _, _⟩ := lookup_some hf
    have h0 := (mark_chain_zero hr s.bit hl h1 hb 0).trans h.bit
    exact ⟨h.header, h0, h0⟩
  | leak _ _ _ => exact ⟨h.header, mark_of_eq_one h.bit _, mark_of_eq_one h.bit _⟩
  | create _ _ hlen =>
    exact ⟨h.update (createHead_ranged s _ hlen), mark_of_eq_one h.bit _, mark_of_eq_one h.bit _⟩

end Blocks

theorem BlockRun.ranged {h : History} {s : Blocks} (hr : BlockRun boundedWrites h s) : s.Ranged :=
  hr.invariant (P := fun _ s => s.Ranged) Blocks.fresh_ranged
    (fun _ _ _ _ _ hrange hp hok hc => hp.step hrange hok (Blocks.step_of_call hc))

/-- However chains have come to overlap, the metadata stay in range and every access in bounds. -/
theorem metadata_in_range {h : History} {w : World} (hr : Reaches boundedWrites h w) :
    (∀ k < 4, w.file.byte k = LittleEndian.byteAt magicNumber k) ∧
    (∀ i < numBlocks, (w.bitmap i = 0 ∨ w.bitmap i = 1) ∧
      (w.view.bit i = 0 ∨ w.view.bit i = 1)) ∧
    w.bitmap 0 = 1 ∧ w.view.bit 0 = 1 ∧
    (∀ b, 1 ≤ b → b < numBlocks →
      (0 ≤ (w.view.hdr b).next.toInt ∧ (w.view.hdr b).next.toInt < numBlocks) ∧
      (w.view.hdr b).NulTerminated ∧
      0 ≤ (w.view.hdr b).fileSize.toInt ∧ (w.view.hdr b).fileSize.toInt ≤ maxRequestSize) ∧
    ∀ a ∈ w.log, a.InBounds := by
  obtain ⟨⟨mode, hs⟩, hrun⟩ := hr.blockRun
  have hi := hrun.ranged
  have hmem : ∀ i < numBlocks, w.view.mem i = w.bitmap i := fun i hlt => World.mem_of_view rfl hlt
  refine ⟨hs.magic, fun i hlt => ⟨?_, hs.range.bit i⟩, ?_, hi.bit, fun b _ _ => ?_, hs.log⟩
  · rw [← hmem i hlt]
    exact hs.range.mem i
  · rw [← hmem 0 (by decide)]
    exact hi.mem
  · exact ⟨hs.range.next b, (hi.header b).name, (hi.header b).nonneg, (hi.header b).le⟩

set_option maxRecDepth 100000 in
theorem metadata_in_range_two_blocks : ∃ h w, Reaches boundedWrites h w ∧
    (w.view.hdr 1).fileSize = 5000 ∧ (w.view.hdr 1).next = 2 ∧ w.bitmap 0 = 1 ∧
    ∀ a ∈ w.log, a.InBounds := by
  obtain ⟨h, w, hr, hc⟩ := reaches_of_plays boundedWrites
    [plain (.create pathA), plain (.write pathA (fun _ => 88) 5000 0)]
    (fun _ s => (s.hdr 1).fileSize = 5000 ∧ (s.hdr 1).next = 2) (by decide +kernel)
  obtain ⟨hsize, hnext⟩ := of_decide_eq_true hc
  obtain ⟨_, _, hmem, _, _, hlog⟩ := metadata_in_range hr
  exact ⟨h, w, hr, hsize, hnext, hmem, hlog⟩

end FreeBSDEdits
