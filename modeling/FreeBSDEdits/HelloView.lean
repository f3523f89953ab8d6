import FreeBSDEdits.HelloBlocks

namespace FreeBSDEdits

/-- What an access has to respect: seeks stay on the volume, and a write is either the bitmap
or one header or lies in one data area. -/
def Access.InBounds : Access → Prop
  | .seek offset => 0 ≤ offset ∧ offset < blockSize * numBlocks
  | .store pos len => (pos = 4 ∧ len = sizeofBitmap) ∨
      ∃ b, 1 ≤ b ∧ b < numBlocks ∧ ((pos = blockSize * b ∧ len = sizeofMetadata) ∨
        (pos = blockSize * b + sizeofMetadata ∧ len ≤ usableSpace))
  | .bitmapAt i => 0 ≤ i ∧ i < numBlocks

/-- The block level of a volume. -/
def World.view (w : World) : Blocks where
  mem i := if i < 400 then w.bitmap i else 0
  bit i := if i < 400 then int32At w.file.byte (4 + 4 * i) else 0
  hdr b := if 1 ≤ b ∧ b < 400 then Metadata.ofBytes (fun k => w.file.byte (4096 * b + k)) else .zero
  dat b k := if 1 ≤ b ∧ b < 400 ∧ k < 4016 then w.file.byte (4096 * b + 80 + k) else 0

/-- An open volume, its block level `s` with everything in range, and no access out of bounds
so far. -/
structure World.Shows (w : World) (mode : OpenMode) (s : Blocks) : Prop where
  size : w.file.size = blockSize * numBlocks
  magic : ∀ k < 4, w.file.byte k = LittleEndian.byteAt magicNumber k
  log : ∀ a ∈ w.log, a.InBounds
  mode : w.fd.mode = mode
  view : w.view = s
  range : s.InRange

theorem toInt_ofNat {i : Nat} (hi : i < numBlocks) : (Int32.ofNat i).toInt = i :=
  Int32.toInt_ofNat_of_lt (Nat.lt_trans hi (by decide))

theorem int32_eq_zero_iff {x : Int32} : x = 0 ↔ x.toInt = 0 := by
  rw [← Int32.toInt_inj]
  rfl

theorem blockOffset_eq {b : Int32} {k : Nat} (hb : b.toInt = k) (hk : k < numBlocks) :
    blockOffset b = ((4096 * k : Nat) : Int) := by
  have hk' : k < 400 := hk
  have h4 : (4096 : Int32).toInt = 4096 := by decide
  rw [blockOffset, Int32.toInt_mul, hb, h4, Int.bmod_eq_of_le (by omega) (by omega)]
  omega

namespace World

variable {w : World} {mode : OpenMode} {s : Blocks}

theorem mem_of_view (h : w.view = s) {i : Nat} (hi : i < numBlocks) : s.mem i = w.bitmap i := by
  subst h
  exact if_pos hi

theorem bit_of_view (h : w.view = s) {i : Nat} (hi : i < numBlocks) :
    s.bit i = int32At w.file.byte (4 + 4 * i) := by
  subst h
  exact if_pos hi

theorem hdr_of_view (h : w.view = s) {k : Nat} (h1 : 1 ≤ k) (hk : k < numBlocks) :
    s.hdr k = Metadata.ofBytes (fun j => w.file.byte (4096 * k + j)) := by
  subst h
  exact if_pos ⟨h1, hk⟩

theorem dat_of_view (h : w.view = s) {k j : Nat} (h1 : 1 ≤ k) (hk : k < numBlocks)
    (hj : j < usableSpace) : s.dat k j = w.file.byte (4096 * k + 80 + j) := by
  subst h
  exact if_pos ⟨h1, hk, hj⟩

/-- Seeks and reads: the file, the bitmap in memory and the mode stay. -/
theorem Shows.of_eq (h : w.Shows mode s) {w' : World} (hf : w'.file = w.file)
    (hb : w'.bitmap = w.bitmap) (hm : w'.fd.mode = w.fd.mode)
    (hl : ∀ a ∈ w'.log, a ∈ w.log ∨ a.InBounds) : w'.Shows mode s := by
  refine ⟨by rw [hf]; exact h.size, by rw [hf]; exact h.magic, ?_, hm.trans h.mode, ?_, h.range⟩
  · intro a ha
    exact (hl a ha).elim (h.log a) id
  · rw [← h.view]
    simp only [World.view, hf, hb]

theorem Shows.seek (h : w.Shows mode s) {k : Nat} (hk : k < blockSize * numBlocks) :
    (w.lseek k).Shows mode s ∧ (w.lseek k).fd.pos = k := by
  have h0 : ¬(k : Int) < 0 := by omega
  refine ⟨h.of_eq rfl rfl (by simp [lseek, h0]) ?_, by simp [lseek, h0]⟩
  intro a ha
  rcases List.mem_cons.mp ha with rfl | ha
  · exact Or.inr ⟨by omega, by exact_mod_cast hk⟩
  · exact Or.inl ha

theorem Shows.seekBitmap (h : w.Shows mode s) :
    (w.lseek 4).Shows mode s ∧ (w.lseek 4).fd.pos = 4 :=
  h.seek (k := 4) (by decide)

theorem Shows.seekBlock (h : w.Shows mode s) {b : Int32} {k : Nat} (hb : b.toInt = k)
    (hk : k < numBlocks) :
    (w.lseek (blockOffset b)).Shows mode s ∧ (w.lseek (blockOffset b)).fd.pos = 4096 * k := by
  have hk' : k < 400 := hk
  rw [blockOffset_eq hb hk]
  exact h.seek (by simp only [blockSize, numBlocks]; omega)

theorem Shows.seekData (h : w.Shows mode s) {b : Int32} {k : Nat} (hb : b.toInt = k)
    (hk : k < numBlocks) :
    (w.lseek (blockOffset b + sizeofMetadata)).Shows mode s ∧
      (w.lseek (blockOffset b + sizeofMetadata)).fd.pos = 4096 * k + 80 := by
  have hk' : k < 400 := hk
  rw [blockOffset_eq hb hk]
  exact h.seek (k := 4096 * k + 80) (by simp only [blockSize, numBlocks]; omega)

theorem Shows.advance (h : w.Shows mode s) (n : Nat) : (w.advance n).Shows mode s :=
  h.of_eq rfl rfl rfl (fun _ ha => Or.inl ha)

/-- The fields of the struct at the start of a block; for block 0 they are words of the bitmap. -/
theorem readMd_block (hs : w.file.size = blockSize * numBlocks) {k : Nat} (hk : k < numBlocks)
    (hp : w.fd.pos = 4096 * k) (md : Metadata) :
    w.readMd md =
      (w.advance sizeofMetadata, Metadata.ofBytes (fun j => w.file.byte (4096 * k + j))) := by
  have hk' : k < 400 := hk
  have hs' : w.file.size = 1638400 := hs
  refine Prod.ext rfl ?_
  change Metadata.ofBytes (w.file.read w.fd.pos sizeofMetadata md.toBytes) =
    Metadata.ofBytes (fun j => w.file.byte (4096 * k + j))
  refine Metadata.ofBytes_congr (fun j hj => ?_)
  rw [ByteFile.read_inside hj (by rw [hp, hs']; omega), hp]

theorem Shows.readMd (h : w.Shows mode s) {k : Nat} (hk : k < numBlocks)
    (hp : w.fd.pos = 4096 * k) (md : Metadata) :
    ∃ w', w.readMd md = (w', Metadata.ofBytes (fun j => w.file.byte (4096 * k + j))) ∧
      w'.Shows mode s ∧ w'.fd.pos = 4096 * k + 80 := by
  have hk' : k < 400 := hk
  have hs : w.file.size = 1638400 := h.size
  refine ⟨w.advance sizeofMetadata, readMd_block h.size hk hp md, h.advance sizeofMetadata, ?_⟩
  change w.fd.pos + min 80 (w.file.size - w.fd.pos) = 4096 * k + 80
  omega

theorem Shows.readHeader (h : w.Shows mode s) {b : Int32} {k : Nat} (hb : b.toInt = k)
    (h1 : 1 ≤ k) (hk : k < numBlocks) (md : Metadata) :
    ∃ w', (w.lseek (blockOffset b)).readMd md = (w', s.hdr k) ∧ w'.Shows mode s ∧
      w'.fd.pos = 4096 * k + 80 := by
  obtain ⟨h', hpos⟩ := h.seekBlock hb hk
  obtain ⟨w', hr, hw'⟩ := h'.readMd hk hpos md
  rw [hdr_of_view h'.view h1 hk]
  exact ⟨w', hr, hw'⟩

/-- The 18th word of the bitmap lies where block 0, taken for a header, has its `next`. -/
theorem Shows.readBlockZero (h : w.Shows mode s) {b : Int32} (hb : b.toInt = 0) (md : Metadata) :
    ∃ w' md', (w.lseek (blockOffset b)).readMd md = (w', md') ∧ w'.Shows mode s ∧
      md'.next = s.bit 17 := by
  obtain ⟨h', hpos⟩ := h.seekBlock (k := 0) (by simpa using hb) (by decide)
  obtain ⟨w', hr, hw', _⟩ := h'.readMd (by decide) hpos md
  refine ⟨w', _, hr, hw', ?_⟩
  rw [bit_of_view h'.view (by decide)]
  exact int32At_congr (fun k _ => congrArg _ (by omega))

theorem lseek_pos (w : World) (k : Nat) : (w.lseek k).fd.pos = k := by
  have h0 : ¬(k : Int) < 0 := by omega
  simp only [lseek, if_neg h0, Int.toNat_natCast]

/-- The bitmap on disk gets into memory. -/
theorem view_loadBitmap (hs : w.file.size = blockSize * numBlocks) :
    ((w.lseek 4).readBitmap).view = { w.view with mem := w.view.bit } := by
  have hs' : w.file.size = 1638400 := hs
  have hpos : (w.lseek 4).fd.pos = 4 := w.lseek_pos 4
  have hword : ∀ i < 400, ((w.lseek 4).readBitmap).bitmap i = int32At w.file.byte (4 + 4 * i) := by
    intro i hi
    simp only [readBitmap, if_pos hi]
    refine int32At_congr (fun k hk => ?_)
    rw [ByteFile.read_inside (by simp only [sizeofBitmap, numBlocks]; omega)
      (by rw [hpos]; change 4 + 1600 ≤ w.file.size; omega), hpos]
    exact congrArg _ (by omega)
  simp only [World.view, Blocks.mk.injEq]
  refine ⟨?_, rfl, rfl, rfl⟩
  funext i
  by_cases hi : i < 400
  · rw [if_pos hi, hword i hi, if_pos hi]
  · simp only [if_neg hi]

theorem Shows.loadBitmap (h : w.Shows mode s) :
    ((w.lseek 4).readBitmap).Shows mode { s with mem := s.bit } := by
  obtain ⟨h', _⟩ := h.seekBitmap
  have hv := view_loadBitmap h.size
  rw [h.view] at hv
  exact ⟨h.size, h.magic, h'.log, h'.mode, hv, ⟨h.range.next, h.range.bit, h.range.bit⟩⟩

/-- A write on a descriptor opened O_RDONLY. -/
theorem Shows.write_rdonly (h : w.Shows .rdonly s) (n : Nat) (src : Nat → UInt8) :
    w.write n src = w := by
  simp only [write, h.mode]

theorem Shows.write_rdwr (h : w.Shows .rdwr s) {pos : Nat} (hp : w.fd.pos = pos) (n : Nat)
    (src : Nat → UInt8) :
    w.write n src = { w with
      file := w.file.write pos n src
      fd := { w.fd with pos := pos + n }
      log := .store pos n :: w.log } := by
  simp only [write, h.mode, hp]

/-- A write in bounds that leaves the magic number alone and gives the block level `t`. -/
theorem Shows.write (h : w.Shows .rdwr s) {pos n : Nat} {src : Nat → UInt8} {t : Blocks}
    (hp : w.fd.pos = pos) (h4 : 4 ≤ pos) (hend : pos + n ≤ blockSize * numBlocks)
    (hin : (Access.store pos n).InBounds)
    (hv : World.view { w with file := w.file.write pos n src } = t) (ht : t.InRange) :
    (w.write n src).Shows .rdwr t := by
  have hs := h.size
  rw [h.write_rdwr hp]
  refine ⟨?_, ?_, ?_, h.mode, hv, ht⟩
  · exact (ByteFile.write_size (by rw [hs]; exact hend)).trans hs
  · exact fun j hj => (ByteFile.write_outside (by omega)).trans (h.magic j hj)
  · intro a ha
    rcases List.mem_cons.mp ha with rfl | ha
    · exact hin
    · exact h.log a ha

/-- A write behind the bitmap leaves the words of the bitmap alone. -/
theorem int32At_write_behind {f : ByteFile} {pos n i : Nat} {src : Nat → UInt8} (hp : 4096 ≤ pos)
    (hi : i < 400) : int32At (f.write pos n src).byte (4 + 4 * i) = int32At f.byte (4 + 4 * i) :=
  int32At_congr (fun _ _ => ByteFile.write_outside (by omega))

/-- A write of a whole header changes that header and nothing else. -/
theorem view_writeHeader (w : World) {k : Nat} (h1 : 1 ≤ k) (hk : k < numBlocks) (md : Metadata) :
    World.view { w with file := w.file.write (4096 * k) sizeofMetadata md.toBytes } =
      { w.view with hdr := Function.update w.view.hdr k md } := by
  have hk' : k < 400 := hk
  simp only [World.view, Blocks.mk.injEq]
  refine ⟨trivial, ?_, ?_, ?_⟩
  · funext i
    split
    next hi => exact int32At_write_behind (by omega) hi
    next => rfl
  · funext c
    by_cases hc : c = k
    · subst c
      rw [Function.update_self, if_pos ⟨h1, hk⟩]
      refine Eq.trans (Metadata.ofBytes_congr (g := md.toBytes) fun j hj => ?_) md.ofBytes_toBytes
      exact ByteFile.write_inside hj
    · rw [Function.update_of_ne hc]
      split
      next hr =>
        exact Metadata.ofBytes_congr fun j hj =>
          ByteFile.write_outside (by simp only [sizeofMetadata]; omega)
      next => rfl
  · funext c j
    split
    next hr => exact ByteFile.write_outside (by simp only [sizeofMetadata]; omega)
    next => rfl

theorem Shows.storeHeader (h : w.Shows .rdwr s) {b : Int32} {k : Nat} (hb : b.toInt = k)
    (h1 : 1 ≤ k) (hk : k < numBlocks) (md : Metadata)
    (hn : 0 ≤ md.next.toInt ∧ md.next.toInt < numBlocks) :
    ((w.lseek (blockOffset b)).writeMd md).Shows .rdwr
      { s with hdr := Function.update s.hdr k md } := by
  have hk' : k < 400 := hk
  obtain ⟨h', hpos⟩ := h.seekBlock hb hk
  have hv := view_writeHeader (w.lseek (blockOffset b)) h1 hk md
  rw [h'.view] at hv
  refine h'.write hpos (by omega) (by simp only [blockSize, numBlocks, sizeofMetadata]; omega)
    (Or.inr ⟨k, h1, hk, Or.inl ⟨rfl, rfl⟩⟩) hv ⟨fun c => ?_, h.range.mem, h.range.bit⟩
  by_cases hc : c = k
  · subst c
    simpa using hn
  · simpa [Function.update_of_ne hc] using h.range.next c

theorem Shows.storeData (h : w.Shows .rdwr s) {b : Int32} {k n : Nat} (hb : b.toInt = k)
    (h1 : 1 ≤ k) (hk : k < numBlocks) (hn : n ≤ usableSpace) (src : Nat → UInt8) :
    ((w.lseek (blockOffset b + sizeofMetadata)).write n src).Shows .rdwr
      { s with dat := Function.update s.dat k (fun j => if j < n then src j else s.dat k j) } := by
  have hk' : k < 400 := hk
  have hn' : n ≤ 4016 := hn
  obtain ⟨h', hpos⟩ := h.seekData hb hk
  refine h'.write hpos (by omega) (by simp only [blockSize, numBlocks]; omega)
    (Or.inr ⟨k, h1, hk, Or.inr ⟨rfl, hn⟩⟩) ?_ ⟨h.range.next, h.range.mem, h.range.bit⟩
  have hv := h.view
  subst hv
  simp only [World.view, Blocks.mk.injEq]
  refine ⟨rfl, ?_, ?_, ?_⟩
  · funext i
    split
    next hi => exact int32At_write_behind (by omega) hi
    next => rfl
  · funext c
    split
    next hr => exact Metadata.ofBytes_congr fun j hj => ByteFile.write_outside (by omega)
    next => rfl
  · funext c j
    by_cases hc : c = k
    · subst c
      rw [Function.update_self]
      by_cases hj : j < n
      · rw [if_pos (⟨h1, hk, by omega⟩ : 1 ≤ k ∧ k < 400 ∧ j < 4016), if_pos hj]
        exact ByteFile.write_inside hj
      · rw [if_neg hj]
        split
        next hr => exact ByteFile.write_outside (by omega)
        next => rfl
    · rw [Function.update_of_ne hc]
      split
      next hr => exact ByteFile.write_outside (by omega)
      next => rfl

/-- The bitmap in memory gets onto the disk. -/
theorem view_writeBitmap (w : World) :
    World.view { w with file := w.file.write 4 sizeofBitmap (bitmapBytes w.bitmap) } =
      { w.view with bit := w.view.mem } := by
  simp only [World.view, Blocks.mk.injEq]
  refine ⟨trivial, ?_, ?_, ?_⟩
  · funext i
    split
    next hi =>
      apply int32At_int32Byte
      intro j hj
      have hin : (w.file.write 4 1600 (bitmapBytes w.bitmap)).byte (4 + (4 * i + j)) =
          bitmapBytes w.bitmap (4 * i + j) := ByteFile.write_inside (by omega)
      rw [← Nat.add_assoc] at hin
      refine hin.trans ?_
      rw [bitmapBytes, show (4 * i + j) / 4 = i by omega, show (4 * i + j) % 4 = j by omega]
    next => rfl
  · funext c
    split
    next hr =>
      exact Metadata.ofBytes_congr fun j hj =>
        ByteFile.write_outside (by simp only [sizeofBitmap, numBlocks]; omega)
    next => rfl
  · funext c j
    split
    next hr => exact ByteFile.write_outside (by simp only [sizeofBitmap, numBlocks]; omega)
    next => rfl

theorem Shows.storeBitmap (h : w.Shows .rdwr s) :
    ((w.lseek 4).writeBitmap).Shows .rdwr { s with bit := s.mem } := by
  obtain ⟨h', hpos⟩ := h.seekBitmap
  have hv := view_writeBitmap (w.lseek 4)
  rw [h'.view] at hv
  exact h'.write hpos (by omega) (by decide) (Or.inl ⟨rfl, rfl⟩) hv
    ⟨h.range.next, h.range.mem, h.range.mem⟩

theorem view_setBitmap (w : World) {k : Nat} (hk : k < numBlocks) (v : Int32) :
    (w.setBitmap k v).view = { w.view with mem := mark w.view.mem [k] v } := by
  have hk' : k < 400 := hk
  simp only [World.view, setBitmap, Blocks.mk.injEq, and_true]
  funext i
  by_cases hi : i = k
  · simp [mark, hi, hk']
  · simp [mark, hi]

theorem Shows.setMark (h : w.Shows mode s) {k : Nat} (hk : k < numBlocks) {v : Int32}
    (hv : v = 0 ∨ v = 1) :
    (w.setBitmap k v).Shows mode { s with mem := mark s.mem [k] v } := by
  have hview := w.view_setBitmap hk v
  rw [h.view] at hview
  refine ⟨h.size, h.magic, ?_, h.mode, hview, h.range.next, fun i => ?_, h.range.bit⟩
  · intro a ha
    rcases List.mem_cons.mp ha with rfl | ha
    · exact ⟨by omega, by exact_mod_cast hk⟩
    · exact h.log a ha
  · simp only [mark]
    split
    · exact hv
    · exact h.range.mem i

theorem Shows.opened (h : w.Shows mode s) (mode' : OpenMode) : (w.openFile mode').Shows mode' s :=
  ⟨h.size, h.magic, h.log, rfl, h.view, h.range⟩

end World

end FreeBSDEdits
