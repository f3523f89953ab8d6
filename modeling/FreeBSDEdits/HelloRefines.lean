import FreeBSDEdits.HelloWriteRefines

namespace FreeBSDEdits

namespace Blocks

variable {s : Blocks}

theorem InRange.chain_mem (hr : s.InRange) {a : Nat} {l : List Nat} (h : LinkedChain s.next a l)
    (h1 : 1 ≤ a) (ha : a < numBlocks) {b : Nat} (hb : b ∈ l) : 1 ≤ b ∧ b < numBlocks := by
  induction h with
  | @last a _ =>
    have he : b = a := by simpa using hb
    exact he ▸ ⟨h1, ha⟩
  | @link a c l hn _ ih =>
    obtain ⟨hc1, hc⟩ := hr.next_mem hn
    rcases List.mem_cons.mp hb with rfl | hb
    · exact ⟨h1, ha⟩
    · exact ih hc1 hc hb

/-- A chain that ends has no more blocks than there are on the volume. -/
theorem InRange.chain_length (hr : s.InRange) {a : Nat} {l : List Nat} (h : LinkedChain s.next a l)
    (h1 : 1 ≤ a) (ha : a < numBlocks) : l.length < numBlocks := by
  have hle := h.length_le_of_subset (u := blockRange)
    (fun b hb => mem_blockRange.mpr (hr.chain_mem h h1 ha hb))
  have hlen : blockRange.length = numBlocks - 1 := List.length_range'
  rw [hlen] at hle
  exact Nat.lt_of_le_of_lt hle (by decide)

theorem InRange.chain_iff (hr : s.InRange) {a : Nat} {l : List Nat} (h1 : 1 ≤ a)
    (ha : a < numBlocks) : s.chain a = some l ↔ LinkedChain s.next a l :=
  ⟨LinkedChain.of_follow,
    fun h => h.follow_complete numBlocks (Nat.le_of_lt (hr.chain_length h h1 ha))⟩

theorem InRange.rawNext_lt (hr : s.InRange) (b : Nat) : s.rawNext b < numBlocks := by
  have hn := hr.next b
  unfold rawNext
  split
  · rcases hr.bit 17 with h | h <;> rw [h] <;> decide
  · omega

theorem rawNext_eq {b : Nat} (hb : b ≠ 0) : s.rawNext b = (s.next b).getD 0 := by
  rw [rawNext, if_neg hb, Blocks.next]
  split
  next h => rw [h]; rfl
  next => rfl

end Blocks

section

variable {w : World} {mode : OpenMode} {s : Blocks}

/-- hello_unlink clears the bits of the chain behind the head. -/
theorem clearChain_spec (fuel : Nat) {w : World} {s : Blocks} {a : Nat} (h : w.Shows mode s) :
    match LinkedChain.follow s.next fuel a with
    | none => clearChain fuel w (s.hdr a) = none
    | some l => ∃ w', clearChain fuel w (s.hdr a) = some w' ∧
        w'.Shows mode { s with mem := mark s.mem l.tail 0 } := by
  induction fuel generalizing w s a with
  | zero => rfl
  | succ fuel ih =>
    cases hn : s.next a with
    | none =>
      simp only [LinkedChain.follow, hn, clearChain, Blocks.next_none hn, ne_eq, not_true_eq_false,
        if_false]
      exact ⟨w, rfl, by simpa using h⟩
    | some b =>
      obtain ⟨hb1, hb⟩ := h.range.next_mem hn
      obtain ⟨hbi, h0⟩ := h.range.next_toInt hn
      have h₁ := h.setMark hb (v := 0) (Or.inl rfl)
      rw [← hbi] at h₁
      obtain ⟨w₂, hr, h₂, _⟩ := h₁.readHeader hbi hb1 hb (s.hdr a)
      have hh := ih (a := b) h₂
      change match LinkedChain.follow s.next fuel b with
        | none => clearChain fuel w₂ (s.hdr b) = none
        | some l => _ at hh
      simp only [LinkedChain.follow, hn, clearChain, if_pos h0, hr]
      cases hf : LinkedChain.follow s.next fuel b with
      | none =>
        rw [hf] at hh
        simpa using hh
      | some l =>
        rw [hf] at hh
        obtain ⟨w₃, he, h₃⟩ := hh
        refine ⟨w₃, he, ?_⟩
        have hl := (LinkedChain.of_follow hf).cons_tail
        simp only [List.tail_cons]
        rw [hl, mark_cons]
        exact h₃

theorem loaded (h : w.Shows mode s) (mode' : OpenMode) :
    ∃ w', ((w.openFile mode').lseek 4).readBitmap = w' ∧ w'.Shows mode' { s with mem := s.bit } :=
  ⟨_, rfl, (h.opened mode').loadBitmap⟩

theorem helloUnlink_refines (h : w.Shows mode s) (env : Env) (path : CString) :
    Option.Rel Lands (helloUnlink w env path) (s.unlink path) := by
  obtain ⟨w₀, hw, h₀⟩ := loaded h .rdwr
  rw [helloUnlink, hw, Blocks.unlink]
  cases hf : s.lookup s.bit path with
  | none =>
    obtain ⟨w₁, he, h₁⟩ := findFile_none h₀ env.md hf
    rw [he, unlinkFound]
    exact .some ⟨⟨_, h₁⟩, rfl⟩
  | some b =>
    obtain ⟨h1, hb, _, _⟩ := Blocks.lookup_some hf
    obtain ⟨w₁, he, h₁⟩ := findFile_found h₀ env.md hf
    have h₂ := h₁.setMark hb (v := 0) (Or.inl rfl)
    have hcl := clearChain_spec numBlocks (a := b) h₂
    change match LinkedChain.follow s.next numBlocks b with
      | none => clearChain numBlocks (w₁.setBitmap b 0) (s.hdr b) = none
      | some l => _ at hcl
    simp only [he, unlinkFound]
    cases hc : s.chain b with
    | none =>
      have hc' : LinkedChain.follow s.next numBlocks b = none := hc
      rw [hc'] at hcl
      simp only [hcl]
      exact .none
    | some l =>
      have hc' : LinkedChain.follow s.next numBlocks b = some l := hc
      rw [hc'] at hcl
      obtain ⟨w₃, hw, h₃⟩ := hcl
      have hl := (LinkedChain.of_follow hc').cons_tail
      simp only [hw, Option.bind_eq_bind, Option.bind_some, Option.map_some]
      refine .some ⟨⟨.rdwr, ?_⟩, rfl⟩
      rw [hl, mark_cons]
      exact h₃.storeBitmap

theorem helloCreate_refines (h : w.Shows mode s) (env : Env) (path : CString) :
    Lands (helloCreate w env path) (s.create env path) := by
  obtain ⟨w₀, hw, h₀⟩ := loaded h .rdwr
  rw [helloCreate, hw, Blocks.create]
  cases hf : s.lookup s.bit path with
  | some b =>
    obtain ⟨w₁, he, h₁⟩ := findFile_found h₀ env.md hf
    rw [he, createFound]
    exact ⟨⟨_, h₁⟩, rfl⟩
  | none =>
    obtain ⟨w₁, he, h₁⟩ := findFile_none h₀ env.md hf
    have hfree := firstFree_view h₁.view
    rw [he]
    simp only [createFound, hfree]
    cases hi : firstFree s.bit with
    | none => exact ⟨⟨_, h₁⟩, rfl⟩
    | some i =>
      rw [firstFree_eq_head] at hi
      obtain ⟨hi1, hlt, _⟩ := mem_freeBlocks.mp (List.mem_of_mem_head? hi)
      have h₂ := (h₁.setMark hlt (v := 1) (Or.inr rfl)).storeBitmap
      by_cases hlen : path.length ≥ maxFilenameLength
      · simp only [if_pos hlen]
        exact ⟨⟨_, h₂⟩, rfl⟩
      · simp only [if_neg hlen]
        have hn : 0 ≤ (0 : Int32).toInt ∧ (0 : Int32).toInt < numBlocks := by decide
        have h₃ := h₂.storeHeader (toInt_ofNat hlt) hi1 hlt (s.createHead env path) hn
        exact ⟨⟨_, h₃⟩, rfl⟩

theorem readAny (h : w.Shows mode s) {cb : Int32} {c : Nat} (hc : cb.toInt = c)
    (hlt : c < numBlocks) (md : Metadata) :
    ∃ w' md', (w.lseek (blockOffset cb)).readMd md = (w', md') ∧ w'.Shows mode s ∧
      md'.next.toInt = s.rawNext c := by
  by_cases h0 : c = 0
  · obtain ⟨w', md', hr, h', hn⟩ := h.readBlockZero (b := cb) (by simpa [h0] using hc) md
    refine ⟨w', md', hr, h', ?_⟩
    rw [Blocks.rawNext, if_pos h0, hn]
    rcases h.range.bit 17 with hb | hb <;> rw [hb] <;> rfl
  · obtain ⟨w', hr, h', _⟩ := h.readHeader hc (by omega) hlt md
    refine ⟨w', _, hr, h', ?_⟩
    have hn := h.range.next c
    rw [Blocks.rawNext, if_neg h0]
    omega

/-- The walk over the blocks that are kept, which may pass block 0. -/
theorem keepBlocks_spec (more : Nat) {w : World} (md : Metadata) {cb : Int32} {c size : Nat}
    (h : w.Shows mode s) (hc : cb.toInt = c) (hlt : c < numBlocks) (hs : blocksFor size = more + 1) :
    ∃ w' md' next, keepBlocks w md cb size = (w', md', next) ∧ w'.Shows mode s ∧
      next.toInt = s.rawNext^[more + 1] c := by
  induction more generalizing w md cb c size with
  | zero =>
    obtain ⟨w₁, md₁, hr, h₁, hn⟩ := readAny h hc hlt md
    have hle : ¬size > usableSpace := by
      intro hgt
      have := blocksFor_pos (size - usableSpace)
      rw [blocksFor_lower hgt] at hs
      omega
    rw [keepBlocks, hr]
    simp only [if_neg hle]
    exact ⟨w₁, md₁, md₁.next, rfl, h₁, hn⟩
  | succ more ih =>
    obtain ⟨w₁, md₁, hr, h₁, hn⟩ := readAny h hc hlt md
    have hgt : size > usableSpace := by
      by_contra hle
      rw [blocksFor_one hle] at hs
      omega
    have hs' : blocksFor (size - usableSpace) = more + 1 := by
      rw [blocksFor_lower hgt] at hs
      omega
    obtain ⟨w₂, md₂, next, hk, h₂, hn₂⟩ := ih md₁ h₁ hn (h.range.rawNext_lt c) hs'
    rw [keepBlocks, hr]
    simp only [if_pos hgt]
    exact ⟨w₂, md₂, next, hk, h₂, by rw [hn₂, ← Function.iterate_succ_apply]⟩

/-- Dropping a chain takes one round more than it has blocks. -/
theorem dropBlocks_spec (fuel : Nat) {w : World} {s : Blocks} (md : Metadata) {cb : Int32} {a : Nat}
    (h : w.Shows mode s) (ha : cb.toInt = a) (h1 : 1 ≤ a) (hlt : a < numBlocks) :
    match LinkedChain.follow s.next fuel a with
    | none => dropBlocks fuel w md cb = none
    | some l => l.length < fuel → ∃ w', dropBlocks fuel w md cb = some w' ∧
        w'.Shows mode { s with mem := mark s.mem l 0 } := by
  induction fuel generalizing w s md cb a with
  | zero => rfl
  | succ fuel ih =>
    have h0 : cb ≠ 0 := fun he => by
      rw [int32_eq_zero_iff] at he
      omega
    obtain ⟨w₁, hr, h₁, _⟩ := h.readHeader ha h1 hlt md
    have h₂ := h₁.setMark hlt (v := 0) (Or.inl rfl)
    rw [← ha] at h₂
    cases hn : s.next a with
    | none =>
      simp only [LinkedChain.follow, hn, dropBlocks, if_neg h0, hr, Blocks.next_none hn]
      intro hlen
      cases fuel with
      | zero => simp at hlen
      | succ fuel => exact ⟨_, by rw [dropBlocks, if_pos rfl], h₂⟩
    | some b =>
      obtain ⟨hb1, hb⟩ := h.range.next_mem hn
      obtain ⟨hbi, _⟩ := h.range.next_toInt hn
      have hh := ih (s.hdr a) h₂ hbi hb1 hb
      change match LinkedChain.follow s.next fuel b with
        | none => dropBlocks fuel (w₁.setBitmap cb.toInt 0) (s.hdr a) (s.hdr a).next = none
        | some l => _ at hh
      simp only [LinkedChain.follow, hn, dropBlocks, if_neg h0, hr]
      cases hf : LinkedChain.follow s.next fuel b with
      | none =>
        rw [hf] at hh
        simpa using hh
      | some l =>
        rw [hf] at hh
        intro hlen
        obtain ⟨w₃, he, h₃⟩ := hh (by simpa using hlen)
        refine ⟨w₃, he, ?_⟩
        rw [mark_cons]
        exact h₃

theorem linkFree_rdonly (h : w.Shows .rdonly s) {i : Nat} (hi : firstFree s.mem = some i)
    (md : Metadata) {cb : Int32} {c : Nat} (hc : cb.toInt = c) (hlt : c < numBlocks) :
    ∃ w', linkFree w md cb = (w', some (.zero, .ofNat i)) ∧
      w'.Shows .rdonly { s with mem := mark s.mem [i] 1 } := by
  rw [firstFree_eq_head] at hi
  obtain ⟨_, hilt, _⟩ := mem_freeBlocks.mp (List.mem_of_mem_head? hi)
  have hff : firstFree w.bitmap = some i := by rw [firstFree_view h.view, firstFree_eq_head, hi]
  obtain ⟨h₁, _⟩ := (h.setMark hilt (v := 1) (Or.inr rfl)).seekBlock hc hlt
  refine ⟨(w.setBitmap i 1).lseek (blockOffset cb), ?_, h₁⟩
  simp only [linkFree, hff]
  exact Prod.ext (h₁.write_rdonly _ _) rfl

/-- A growing truncate only changes the bitmap in memory. -/
theorem growBlocks_spec (more : Nat) {w : World} {s : Blocks} (md : Metadata) {cb : Int32}
    {c size rounds : Nat} (h : w.Shows .rdonly s) (hc : cb.toInt = c) (h1 : 1 ≤ c)
    (hlt : c < numBlocks) (hs : blocksFor size = more + 1) (hr : more < rounds) :
    ∃ w', growBlocks rounds w md cb size =
        (w', if (growMarks s.next more s.mem c).2 then none else some .enomem) ∧
      w'.Shows .rdonly { s with mem := (growMarks s.next more s.mem c).1 } := by
  induction more generalizing w s md cb c size rounds with
  | zero =>
    obtain ⟨rounds, rfl⟩ : ∃ n, rounds = n + 1 := ⟨rounds - 1, by omega⟩
    obtain ⟨w₁, he, h₁, _⟩ := h.readHeader hc h1 hlt md
    have hle : ¬size > usableSpace := by
      intro hgt
      have := blocksFor_pos (size - usableSpace)
      rw [blocksFor_lower hgt] at hs
      omega
    simp only [growBlocks, he, if_neg hle, growMarks]
    exact ⟨w₁, rfl, h₁⟩
  | succ more ih =>
    obtain ⟨rounds, rfl⟩ : ∃ n, rounds = n + 1 := ⟨rounds - 1, by omega⟩
    obtain ⟨w₁, he, h₁, _⟩ := h.readHeader hc h1 hlt md
    have hgt : size > usableSpace := by
      by_contra hle
      rw [blocksFor_one hle] at hs
      omega
    have hs' : blocksFor (size - usableSpace) = more + 1 := by
      rw [blocksFor_lower hgt] at hs
      omega
    cases hn : s.next c with
    | none =>
      simp only [growBlocks, he, if_pos hgt, Blocks.next_none hn, if_true, growMarks, hn]
      cases hf : firstFree s.mem with
      | none =>
        have hff : firstFree w₁.bitmap = none := by rw [firstFree_view h₁.view, hf]
        simp only [linkFree, hff]
        exact ⟨w₁, rfl, h₁⟩
      | some i =>
        obtain ⟨w₂, hl, h₂⟩ := linkFree_rdonly h₁ hf (s.hdr c) hc hlt
        rw [firstFree_eq_head] at hf
        obtain ⟨hi1, hi, _⟩ := mem_freeBlocks.mp (List.mem_of_mem_head? hf)
        simp only [hl]
        exact ih .zero h₂ (toInt_ofNat hi) hi1 hi hs' (by omega)
    | some b =>
      obtain ⟨hb1, hb⟩ := h.range.next_mem hn
      obtain ⟨hbi, h0⟩ := h.range.next_toInt hn
      obtain ⟨h₂, _⟩ := h₁.seekBlock hbi hb
      simp only [growBlocks, he, if_pos hgt, if_neg h0, growMarks, hn]
      exact ih (s.hdr c) h₂ hbi hb1 hb hs' (by omega)

theorem storeBitmap_rdonly (h : w.Shows .rdonly s) : ((w.lseek 4).writeBitmap).Shows .rdonly s := by
  obtain ⟨h', _⟩ := h.seekBitmap
  rw [World.writeBitmap, h'.write_rdonly]
  exact h'

theorem helloTruncate_refines (h : w.Shows mode s) (env : Env) (path : CString) (size : Int64) :
    Option.Rel Lands (helloTruncate w env path size) (s.truncate path size) := by
  have h₀ := h.opened .rdonly
  unfold helloTruncate Blocks.truncate
  cases hf : s.lookup s.mem path with
  | none =>
    obtain ⟨w₁, he, h₁⟩ := findFile_none h₀ env.md hf
    rw [he]
    exact .some ⟨⟨_, h₁⟩, rfl⟩
  | some b =>
    obtain ⟨h1, hb, _, _⟩ := Blocks.lookup_some hf
    obtain ⟨w₁, he, h₁⟩ := findFile_found h₀ env.md hf
    obtain ⟨h₂, _⟩ := h₁.seekBlock (toInt_ofNat hb) hb
    have hwr := h₂.write_rdonly sizeofMetadata (s.writeHead env b (.ofInt size.toInt)).toBytes
    have hpos := blocksFor_pos (cSize size.toInt)
    have hs : blocksFor (cSize size.toInt) = blocksFor (cSize size.toInt) - 1 + 1 := by omega
    simp only [Blocks.writeHead] at hwr
    rw [he]
    simp only [World.writeMd, hwr]
    by_cases hlt : size.toInt < (s.hdr b).fileSize.toInt
    · obtain ⟨w₃, md₃, next, hk, h₃, hn⟩ := keepBlocks_spec (blocksFor (cSize size.toInt) - 1)
        (s.writeHead env b (.ofInt size.toInt)) h₂ (toInt_ofNat hb) hb hs
      rw [← hs] at hn
      simp only [Blocks.writeHead] at hk
      simp only [if_pos hlt, hk]
      have hfirst : s.rawNext^[blocksFor (cSize size.toInt)] b < numBlocks := by
        rw [hs, Function.iterate_succ_apply']
        exact h.range.rawNext_lt _
      generalize s.rawNext^[blocksFor (cSize size.toInt)] b = first at hn hfirst
      by_cases h0 : first = 0
      · have hz : next = 0 := int32_eq_zero_iff.mpr (by rw [hn, h0]; rfl)
        have hd : dropBlocks numBlocks w₃ md₃ next = some w₃ := by
          rw [show numBlocks = 399 + 1 from rfl, dropBlocks, if_pos hz]
        simp only [hd, h0, if_true, Option.bind_eq_bind, Option.bind_some]
        exact .some ⟨⟨_, storeBitmap_rdonly h₃⟩, rfl⟩
      · have hd := dropBlocks_spec numBlocks md₃ h₃ hn (Nat.pos_of_ne_zero h0) hfirst
        simp only [if_neg h0]
        cases hc : s.chain first with
        | none =>
          have hc' : LinkedChain.follow s.next numBlocks first = none := hc
          rw [hc'] at hd
          simp only [hd]
          exact .none
        | some l =>
          have hc' : LinkedChain.follow s.next numBlocks first = some l := hc
          rw [hc'] at hd
          obtain ⟨w₄, hw, h₄⟩ := hd (h.range.chain_length (LinkedChain.of_follow hc')
            (Nat.pos_of_ne_zero h0) hfirst)
          simp only [hw, Option.bind_eq_bind, Option.bind_some, Option.map_some]
          exact .some ⟨⟨_, storeBitmap_rdonly h₄⟩, rfl⟩
    · by_cases hgt : size.toInt > (s.hdr b).fileSize.toInt
      · have hrounds : blocksFor (cSize size.toInt) - 1 < cSize size.toInt + 1 := by
          have := blocksFor_le (cSize size.toInt)
          omega
        obtain ⟨w₃, hg, h₃⟩ := growBlocks_spec (blocksFor (cSize size.toInt) - 1)
          (s.writeHead env b (.ofInt size.toInt)) h₂ (toInt_ofNat hb) h1 hb hs hrounds
        simp only [Blocks.writeHead] at hg
        simp only [if_neg hlt, if_pos hgt, hg]
        generalize growMarks s.next (blocksFor (cSize size.toInt) - 1) s.mem b = r at h₃
        obtain ⟨mem, found⟩ := r
        cases found with
        | false => exact .some ⟨⟨_, h₃⟩, rfl⟩
        | true => exact .some ⟨⟨_, storeBitmap_rdonly h₃⟩, rfl⟩
      · simp only [if_neg hlt, if_neg hgt]
        exact .some ⟨⟨_, storeBitmap_rdonly h₂⟩, rfl⟩

/-- Every call of hello.c is the call of the block level. -/
theorem fuseCall_refines (h : w.Shows mode s) (c : Env × Call) :
    Option.Rel Lands (fuseCall w c) (s.call c) := by
  obtain ⟨env, c⟩ := c
  cases c with
  | getattr path => exact .some (helloGetattr_refines h env (dirChars path))
  | readdir path => exact .some (helloReaddir_refines h env (dirChars path))
  | «open» path => exact .some (helloOpen_refines h env path.chars)
  | read path size offset => exact helloRead_refines h env path.chars size offset
  | write path buf size offset => exact helloWrite_refines h env path.chars buf size offset
  | truncate path size => exact helloTruncate_refines h env path.chars size
  | unlink path => exact helloUnlink_refines h env path.chars
  | create path => exact .some (helloCreate_refines h env path.chars)

end

end FreeBSDEdits
