import FreeBSDEdits.HelloAnswers

namespace FreeBSDEdits

namespace World

variable {w w' : World}

theorem storeBitmap_view (hm : w.fd.mode = .rdwr) :
    ((w.lseek 4).writeBitmap).view = { w.view with bit := w.view.mem } := by
  have hm' : (w.lseek 4).fd.mode = .rdwr := ((w.untouched_lseek 4).mode).trans hm
  have hp : (w.lseek 4).fd.pos = 4 := w.lseek_pos 4
  simp only [writeBitmap, write, hm', hp]
  exact view_writeBitmap (w.lseek 4)

theorem storeHeader_view (hm : w.fd.mode = .rdwr) {b : Int32} {k : Nat} (hb : b.toInt = k)
    (h1 : 1 ≤ k) (hk : k < numBlocks) (md : Metadata) :
    ((w.lseek (blockOffset b)).writeMd md).view =
      { w.view with hdr := Function.update w.view.hdr k md } := by
  have hm' : (w.lseek (blockOffset b)).fd.mode = .rdwr := ((w.untouched_lseek _).mode).trans hm
  have hp := w.lseek_block hb hk
  simp only [writeMd, write, hm', hp]
  exact view_writeHeader (w.lseek (blockOffset b)) h1 hk md

theorem write_size (hs : w.file.size = blockSize * numBlocks) {pos : Nat} (hp : w.fd.pos = pos)
    {n : Nat} (hend : pos + n ≤ blockSize * numBlocks) (src : Nat → UInt8) :
    (w.write n src).file.size = blockSize * numBlocks := by
  simp only [write]
  split
  next => exact hs
  next =>
    rw [hp]
    exact (ByteFile.write_size (by rw [hs]; exact hend)).trans hs

theorem storeBitmap_size (hs : w.file.size = blockSize * numBlocks) :
    ((w.lseek 4).writeBitmap).file.size = blockSize * numBlocks :=
  write_size (w := w.lseek 4) hs (w.lseek_pos 4) (by decide) _

theorem storeHeader_size (hs : w.file.size = blockSize * numBlocks) {b : Int32} {k : Nat}
    (hb : b.toInt = k) (hk : k < numBlocks) (md : Metadata) :
    ((w.lseek (blockOffset b)).writeMd md).file.size = blockSize * numBlocks := by
  have hk' : k < 400 := hk
  apply write_size (w := w.lseek (blockOffset b)) hs (w.lseek_block hb hk)
  simp only [blockSize, numBlocks, sizeofMetadata]
  omega

end World

/-- A call on whatever volume, against the same call on the block level. -/
structure LandsOn (r : World × Reply) (t : Blocks × Reply) : Prop where
  size : r.1.file.size = blockSize * numBlocks
  view : r.1.view = t.1
  reply : r.2 = t.2

section

variable {w : World} {s : Blocks}

/-- The search behind the loading of the bitmap. -/
theorem findFile_loaded (path : CString) (mode : OpenMode) (md : Metadata)
    (hs : w.file.size = blockSize * numBlocks) (hv : w.view = s) :
    ∃ w₁, w₁.view = { s with mem := s.bit } ∧ w₁.file = w.file ∧ w₁.fd.mode = mode ∧
      findFile path blockRange ((w.openFile mode).lseek 4).readBitmap md =
        (w₁, match s.lookup s.bit path with
          | some b => (s.hdr b, some b)
          | none => (s.lastRead s.bit md, none)) := by
  have hload := World.view_loadBitmap (w := w.openFile mode) hs
  have hopen : (w.openFile mode).view = s := hv
  rw [hopen] at hload
  obtain ⟨w₁, hu, he⟩ := findFile_lookup path
    (w := ((w.openFile mode).lseek 4).readBitmap) md hs
  rw [hload] at he
  exact ⟨w₁, hu.view.trans hload, hu.file, hu.mode, he⟩

theorem helloCreate_view (hs : w.file.size = blockSize * numBlocks) (hv : w.view = s) (env : Env)
    (path : CString) : LandsOn (helloCreate w env path) (s.create env path) := by
  obtain ⟨w₁, hv₁, hfile, hm, he⟩ := findFile_loaded path .rdwr env.md hs hv
  have hs₁ : w₁.file.size = blockSize * numBlocks := hfile ▸ hs
  unfold helloCreate Blocks.create
  rw [he]
  cases s.lookup s.bit path with
  | some b => exact ⟨hs₁, hv₁, rfl⟩
  | none =>
    have hfree := firstFree_view hv₁
    simp only [createFound, hfree]
    cases hi : firstFree s.bit with
    | none => exact ⟨hs₁, hv₁, rfl⟩
    | some i =>
      rw [firstFree_eq_head] at hi
      obtain ⟨h1, hlt, _⟩ := mem_freeBlocks.mp (List.mem_of_mem_head? hi)
      have hstore := World.storeBitmap_view (w := w₁.setBitmap i 1) hm
      rw [w₁.view_setBitmap hlt, hv₁] at hstore
      have hs₂ := World.storeBitmap_size (w := w₁.setBitmap i 1) hs₁
      by_cases hlen : path.length ≥ maxFilenameLength
      · simp only [if_pos hlen]
        exact ⟨hs₂, hstore, rfl⟩
      · simp only [if_neg hlen]
        have hm₂ : (((w₁.setBitmap i 1).lseek 4).writeBitmap).fd.mode = .rdwr := by
          have hm₁ : ((w₁.setBitmap i 1).lseek 4).fd.mode = .rdwr :=
            ((World.untouched_lseek (w₁.setBitmap i 1) 4).mode).trans hm
          simp only [World.writeBitmap, World.write, hm₁]
        have hhead := World.storeHeader_view hm₂ (toInt_ofNat hlt) h1 hlt (s.createHead env path)
        rw [hstore] at hhead
        exact ⟨World.storeHeader_size hs₂ (toInt_ofNat hlt) hlt _, hhead, rfl⟩

theorem listFiles_view {is : List Nat} {w : World} (md : Metadata)
    (hs : w.file.size = blockSize * numBlocks) (his : ∀ i ∈ is, 1 ≤ i ∧ i < numBlocks) :
    (listFiles is w md).2 =
      (is.filter (fun i => w.view.mem i = 1 ∧ (w.view.hdr i).name ≠ [])).map
        (fun i => (w.view.hdr i).name.drop 1) := by
  induction is generalizing w md with
  | nil => rfl
  | cons i is ih =>
    obtain ⟨h1, hi⟩ := his i (by simp)
    have his' : ∀ j ∈ is, 1 ≤ j ∧ j < numBlocks := fun j hj => his j (List.mem_cons_of_mem i hj)
    have hbit := World.mem_of_view (w := w) rfl hi
    by_cases hm : w.view.mem i = 1
    · have hr := w.readMd_header hs (toInt_ofNat hi) h1 hi md
      have hv := ((w.untouched_lseek (blockOffset (.ofNat i))).trans
        (World.untouched_advance _ sizeofMetadata)).view
      have he := ih (w := (w.lseek (blockOffset (.ofNat i))).advance sizeofMetadata)
        (w.view.hdr i) hs his'
      simp only [listFiles, ← hbit, hm, if_true, hr, he, hv]
      by_cases hn : (w.view.hdr i).name = []
      · simp [hm, hn]
      · simp [hm, hn]
    · rw [listFiles, if_neg (by rwa [← hbit]), ih (w := w) md hs his',
        List.filter_cons_of_neg (by simp [hm])]

theorem answers_readdir (hs : w.file.size = blockSize * numBlocks) (env : Env)
    (path : Option Path) :
    w.answers (env, .readdir path) = w.view.answers (env, .readdir path) := by
  have hin : ∀ i ∈ blockRange, 1 ≤ i ∧ i < numBlocks := fun _ hi => mem_blockRange.mp hi
  have hs' : (w.openFile .rdonly).file.size = blockSize * numBlocks := hs
  have he := listFiles_view env.md hs' hin
  refine congrArg some ?_
  show (helloReaddir w env (dirChars path)).2 = (w.view.readdir (dirChars path)).2
  unfold helloReaddir Blocks.readdir
  by_cases hp : dirChars path ≠ rootPath
  · simp only [if_pos hp]
  · simp only [if_neg hp, he]
    rfl

theorem answers_getattr (hs : w.file.size = blockSize * numBlocks) (env : Env)
    (path : Option Path) :
    w.answers (env, .getattr path) = w.view.answers (env, .getattr path) := by
  obtain ⟨s, hv⟩ : ∃ s, w.view = s := ⟨_, rfl⟩
  obtain ⟨w₁, _, _, _, he⟩ := findFile_loaded (dirChars path) .rdonly env.md hs hv
  rw [hv]
  refine congrArg some ?_
  show (helloGetattr w env (dirChars path)).2 = (s.getattr (dirChars path)).2
  unfold helloGetattr Blocks.getattr
  by_cases hp : dirChars path = rootPath
  · simp only [if_pos hp]
  · simp only [if_neg hp, he]
    show _ = (match s.lookup s.bit (dirChars path) with
      | some b => (({ s with mem := s.bit } : Blocks), Reply.attr (fileStat (s.hdr b)))
      | none => ({ s with mem := s.bit }, .err .enoent)).2
    cases s.lookup s.bit (dirChars path) <;> rfl

theorem Blocks.next_toInt {a b : Nat} (h : s.next a = some b) (h1 : 1 ≤ b) :
    (s.hdr a).next.toInt = b ∧ (s.hdr a).next ≠ 0 := by
  unfold Blocks.next at h
  split at h
  next => cases h
  next h0 =>
    have he := Option.some.inj h
    exact ⟨by omega, h0⟩

theorem Blocks.chain_of_inside {b : Nat} {l : List Nat} (hl : LinkedChain s.next b l)
    (hin : ∀ x ∈ l, 1 ≤ x ∧ x < numBlocks) : l.length ≤ numBlocks ∧ s.chain b = some l := by
  have hle := hl.length_le_of_subset (u := blockRange) (fun x hx => mem_blockRange.mpr (hin x hx))
  have hlen : blockRange.length = numBlocks - 1 := List.length_range'
  have hfit : l.length ≤ numBlocks := by omega
  exact ⟨hfit, hl.follow_complete numBlocks hfit⟩

/-- hello_unlink clears the bits behind the head of any chain that stays on the volume. -/
theorem clearChain_view {a : Nat} {l : List Nat} (hl : LinkedChain s.next a l)
    (hin : ∀ x ∈ l, 1 ≤ x ∧ x < numBlocks) {fuel : Nat} (hlen : l.length ≤ fuel) {w : World}
    {mem : Nat → Int32} (hs : w.file.size = blockSize * numBlocks)
    (hv : w.view = { s with mem := mem }) :
    ∃ w', clearChain fuel w (s.hdr a) = some w' ∧ w'.file = w.file ∧ w'.fd.mode = w.fd.mode ∧
      w'.view = { s with mem := mark mem l.tail 0 } := by
  induction hl generalizing fuel w mem with
  | @last a hn =>
    obtain ⟨fuel, rfl⟩ : ∃ n, fuel = n + 1 := ⟨fuel - 1, by simp at hlen; omega⟩
    refine ⟨w, ?_, rfl, rfl, by simpa using hv⟩
    simp only [clearChain, Blocks.next_none hn, ne_eq, not_true_eq_false, if_false]
  | @link a b l hn hl ih =>
    obtain ⟨fuel, rfl⟩ : ∃ n, fuel = n + 1 := ⟨fuel - 1, by simp at hlen; omega⟩
    obtain ⟨hb1, hb⟩ := hin b (List.mem_cons_of_mem a hl.head_mem)
    obtain ⟨hbi, h0⟩ := Blocks.next_toInt hn hb1
    have hv₁ : (w.setBitmap b 0).view = { s with mem := mark mem [b] 0 } := by
      rw [w.view_setBitmap hb, hv]
    have hr := (w.setBitmap b 0).readMd_header hs hbi hb1 hb (s.hdr a)
    have hu := (World.untouched_lseek (w.setBitmap b 0) (blockOffset (s.hdr a).next)).trans
      (World.untouched_advance _ sizeofMetadata)
    rw [hv₁, ← hbi] at hr
    obtain ⟨w', he, hf, hm, hv'⟩ := ih (fun x hx => hin x (List.mem_cons_of_mem a hx))
      (Nat.le_of_succ_le_succ hlen) (hu.file ▸ hs) (hu.view.trans hv₁)
    refine ⟨w', ?_, hf.trans hu.file, hm.trans hu.mode, ?_⟩
    · simp only [clearChain, if_pos h0]
      rw [hr]
      rw [← hbi] at he
      exact he
    · have hmark : mark (mark mem [b] 0) l.tail 0 = mark mem l 0 := by
        rw [← mark_cons, ← hl.cons_tail]
      rw [hv', hmark, List.tail_cons]

theorem helloUnlink_view (hs : w.file.size = blockSize * numBlocks) (hv : w.view = s) (env : Env)
    (path : CString) (hin : ∀ b, s.lookup s.bit path = some b → ∃ l, LinkedChain s.next b l ∧
      ∀ x ∈ l, 1 ≤ x ∧ x < numBlocks) :
    ∃ r t, helloUnlink w env path = some r ∧ s.unlink path = some t ∧ LandsOn r t := by
  obtain ⟨w₁, hv₁, hfile, hm, he⟩ := findFile_loaded path .rdwr env.md hs hv
  have hs₁ : w₁.file.size = blockSize * numBlocks := hfile ▸ hs
  unfold helloUnlink Blocks.unlink
  rw [he]
  cases hf : s.lookup s.bit path with
  | none => exact ⟨_, _, rfl, rfl, hs₁, hv₁, rfl⟩
  | some b =>
    obtain ⟨l, hl, hlin⟩ := hin b hf
    obtain ⟨_, hb, _, _⟩ := Blocks.lookup_some hf
    obtain ⟨hlen, hchain⟩ := Blocks.chain_of_inside hl hlin
    have hv₂ : (w₁.setBitmap b 0).view = { s with mem := mark s.bit [b] 0 } := by
      rw [w₁.view_setBitmap hb, hv₁]
    obtain ⟨w₃, hw, hf₃, hm₃, hv₃⟩ :=
      clearChain_view hl hlin hlen (w := w₁.setBitmap b 0) hs₁ hv₂
    have hstore := World.storeBitmap_view (hm₃.trans hm)
    rw [hv₃, ← mark_cons, ← hl.cons_tail] at hstore
    have hsize : w₃.file.size = blockSize * numBlocks := by
      rw [hf₃]
      exact hs₁
    refine ⟨((w₃.lseek 4).writeBitmap, .ok), _, ?_, congrArg (Option.map _) hchain,
      World.storeBitmap_size hsize, hstore, rfl⟩
    simp only [unlinkFound, hw, Option.bind_eq_bind, Option.bind_some]

/-- Staging follows any chain that stays on the volume. -/
theorem stageChain_view {a : Nat} {l : List Nat} (hl : LinkedChain s.next a l)
    (hin : ∀ x ∈ l, 1 ≤ x ∧ x < numBlocks) {fuel : Nat} (hlen : l.length ≤ fuel) {w : World}
    (hs : w.file.size = blockSize * numBlocks) (hv : w.view = s) (hp : w.fd.pos = 4096 * a + 80)
    (pos : Nat) (buffer : Int → UInt8) :
    ∃ w' n, w.Untouched w' ∧
      stageChain fuel w (s.hdr a) buffer pos = some (w', stageBlocks s.dat l pos buffer, n) := by
  induction hl generalizing fuel w pos buffer with
  | @last a hn =>
    obtain ⟨fuel, rfl⟩ : ∃ n, fuel = n + 1 := ⟨fuel - 1, by simp at hlen; omega⟩
    obtain ⟨ha1, ha⟩ := hin a List.mem_cons_self
    have hr := readBuffer_data hs ha1 ha hp buffer pos
    rw [hv] at hr
    refine ⟨w.advance usableSpace, pos + usableSpace, w.untouched_advance usableSpace, ?_⟩
    simp only [stageChain, hr, Blocks.next_none hn, ne_eq, not_true_eq_false, if_false]
    rfl
  | @link a b l hn hl ih =>
    obtain ⟨fuel, rfl⟩ : ∃ n, fuel = n + 1 := ⟨fuel - 1, by simp at hlen; omega⟩
    obtain ⟨ha1, ha⟩ := hin a List.mem_cons_self
    obtain ⟨hb1, hb⟩ := hin b (List.mem_cons_of_mem a hl.head_mem)
    obtain ⟨hbi, h0⟩ := Blocks.next_toInt hn hb1
    have hb' : b < 400 := hb
    have hr := readBuffer_data hs ha1 ha hp buffer pos
    rw [hv] at hr
    have hu₁ := w.untouched_advance usableSpace
    have hr₂ := (w.advance usableSpace).readMd_header hs hbi hb1 hb (s.hdr a)
    rw [hu₁.view.trans hv] at hr₂
    have hpos := (w.advance usableSpace).lseek_block hbi hb
    have hu := (hu₁.trans ((w.advance usableSpace).untouched_lseek
      (blockOffset (s.hdr a).next))).trans (World.untouched_advance _ sizeofMetadata)
    have hp₂ : (((w.advance usableSpace).lseek (blockOffset (s.hdr a).next)).advance
        sizeofMetadata).fd.pos = 4096 * b + 80 := by
      have hs' : w.file.size = 1638400 := hs
      show ((w.advance usableSpace).lseek (blockOffset (s.hdr a).next)).fd.pos + min 80
        (w.file.size - ((w.advance usableSpace).lseek (blockOffset (s.hdr a).next)).fd.pos) = _
      omega
    obtain ⟨w', n, hu', he⟩ := ih (fun x hx => hin x (List.mem_cons_of_mem a hx))
      (Nat.le_of_succ_le_succ hlen) (hu.file ▸ hs) (hu.view.trans hv) hp₂
      (pos + usableSpace) (fun k : Int =>
        if pos ≤ k ∧ k < pos + usableSpace then s.dat a (k - pos).toNat else buffer k)
    refine ⟨w', n, hu.trans hu', ?_⟩
    simp only [stageChain, hr, if_pos h0, hr₂]
    exact he

theorem answers_read (hs : w.file.size = blockSize * numBlocks) (env : Env) (path : Path)
    (size : UInt64) (offset : Int64)
    (hin : ∀ b, w.view.lookup w.view.mem path.chars = some b → ∃ l,
      LinkedChain w.view.next b l ∧ ∀ x ∈ l, 1 ≤ x ∧ x < numBlocks) :
    w.answers (env, .read path size offset) = w.view.answers (env, .read path size offset) := by
  obtain ⟨s, hv⟩ : ∃ s, w.view = s := ⟨_, rfl⟩
  obtain ⟨w₁, hu, he⟩ := findFile_lookup path.chars (w := w.openFile .rdwr) env.md hs
  have hopen : (w.openFile .rdwr).view = s := hv
  have hv₁ : w₁.view = s := hu.view.trans hopen
  have hs₁ : w₁.file.size = blockSize * numBlocks := by
    rw [hu.file]
    exact hs
  rw [hopen] at he
  rw [hv] at hin ⊢
  show (helloRead w env path.chars size offset).map Prod.snd =
    (s.read env path.chars size offset).map Prod.snd
  unfold helloRead Blocks.read
  rw [he]
  cases hf : s.lookup s.mem path.chars with
  | none => rfl
  | some b =>
    obtain ⟨l, hl, hlin⟩ := hin b hf
    obtain ⟨h1, hb, _, _⟩ := Blocks.lookup_some hf
    obtain ⟨hlen, hchain⟩ := Blocks.chain_of_inside hl hlin
    have hu₂ := w₁.untouched_lseek (blockOffset (.ofNat b) + sizeofMetadata)
    have hp : (w₁.lseek (blockOffset (.ofNat b) + sizeofMetadata)).fd.pos = 4096 * b + 80 := by
      rw [blockOffset_eq (toInt_ofNat hb) hb]
      exact w₁.lseek_pos (4096 * b + 80)
    obtain ⟨w₂, n, hu₃, hst⟩ := stageChain_view hl hlin hlen
      (w := w₁.lseek (blockOffset (.ofNat b) + sizeofMetadata)) hs₁ (hu₂.view.trans hv₁) hp 0
      env.buffer
    simp only [hst, hchain, Option.bind_eq_bind, Option.bind_some, Option.map_some]

end

end FreeBSDEdits
