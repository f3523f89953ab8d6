import FreeBSDEdits.HelloStaging

namespace FreeBSDEdits

/-- The same file, bitmap in memory and open mode; the position may differ. -/
structure World.Untouched (w w' : World) : Prop where
  file : w'.file = w.file
  bitmap : w'.bitmap = w.bitmap
  mode : w'.fd.mode = w.fd.mode

namespace World

variable {w w' w'' : World}

theorem Untouched.trans (h : w.Untouched w') (h' : w'.Untouched w'') : w.Untouched w'' :=
  ⟨h'.file.trans h.file, h'.bitmap.trans h.bitmap, h'.mode.trans h.mode⟩

theorem Untouched.view (h : w.Untouched w') : w'.view = w.view := by
  simp only [World.view, h.file, h.bitmap]

theorem untouched_lseek (w : World) (k : Int) : w.Untouched (w.lseek k) := by
  refine ⟨rfl, rfl, ?_⟩
  simp only [lseek]
  split <;> rfl

theorem untouched_advance (w : World) (n : Nat) : w.Untouched (w.advance n) := ⟨rfl, rfl, rfl⟩

theorem lseek_block (w : World) {b : Int32} {k : Nat} (hb : b.toInt = k) (hk : k < numBlocks) :
    (w.lseek (blockOffset b)).fd.pos = 4096 * k := by
  rw [blockOffset_eq hb hk]
  exact w.lseek_pos (4096 * k)

theorem readMd_header (w : World) (hs : w.file.size = blockSize * numBlocks) {b : Int32} {k : Nat}
    (hb : b.toInt = k) (h1 : 1 ≤ k) (hk : k < numBlocks) (md : Metadata) :
    (w.lseek (blockOffset b)).readMd md =
      ((w.lseek (blockOffset b)).advance sizeofMetadata, w.view.hdr k) := by
  rw [readMd_block (w := w.lseek (blockOffset b)) hs hk (w.lseek_block hb hk) md,
    hdr_of_view rfl h1 hk]
  rfl

end World

/-- The search on whatever volume touches nothing and leaves the header it read last. -/
theorem findFile_view (path : CString) {is : List Nat} {w : World} (md : Metadata)
    (hs : w.file.size = blockSize * numBlocks) (his : ∀ i ∈ is, 1 ≤ i ∧ i < numBlocks) :
    ∃ w', w.Untouched w' ∧ findFile path is w md =
      (w', match is.find? (fun i => w.view.mem i = 1 ∧ (w.view.hdr i).name = path) with
        | some b => (w.view.hdr b, some b)
        | none => (((is.filter (fun i => w.view.mem i = 1)).getLast?.map w.view.hdr).getD md,
            none)) := by
  induction is generalizing w md with
  | nil => exact ⟨w, ⟨rfl, rfl, rfl⟩, rfl⟩
  | cons i is ih =>
    obtain ⟨h1, hi⟩ := his i (by simp)
    have his' : ∀ j ∈ is, 1 ≤ j ∧ j < numBlocks := fun j hj => his j (List.mem_cons_of_mem i hj)
    have hbit := World.mem_of_view (w := w) rfl hi
    by_cases hm : w.view.mem i = 1
    · have hr := w.readMd_header hs (toInt_ofNat hi) h1 hi md
      have hu := (w.untouched_lseek (blockOffset (.ofNat i))).trans
        (World.untouched_advance _ sizeofMetadata)
      have hv := hu.view
      simp only [findFile, ← hbit, hm, if_true, hr]
      by_cases hn : (w.view.hdr i).name = path
      · exact ⟨_, hu, by simp [hm, hn]⟩
      · obtain ⟨w₂, hu₂, he⟩ := ih (w := (w.lseek (blockOffset (.ofNat i))).advance sizeofMetadata)
          (w.view.hdr i) hs his'
        refine ⟨w₂, hu.trans hu₂, ?_⟩
        rw [if_neg hn, he, hv, List.find?_cons_of_neg (by simp [hn]),
          List.filter_cons_of_pos (by simpa using hm), List.getLast?_cons]
        cases (is.filter (fun i => w.view.mem i = 1)).getLast? <;> rfl
    · obtain ⟨w₂, hu, he⟩ := ih (w := w) md hs his'
      refine ⟨w₂, hu, ?_⟩
      rw [findFile, if_neg (by rwa [← hbit]), he, List.find?_cons_of_neg (by simp [hm]),
        List.filter_cons_of_neg (by simpa using hm)]

/-- The search through all blocks is the lookup of the block level. -/
theorem findFile_lookup (path : CString) {w : World} (md : Metadata)
    (hs : w.file.size = blockSize * numBlocks) :
    ∃ w', w.Untouched w' ∧ findFile path blockRange w md =
      (w', match w.view.lookup w.view.mem path with
        | some b => (w.view.hdr b, some b)
        | none => (w.view.lastRead w.view.mem md, none)) :=
  findFile_view path md hs (fun _ hi => mem_blockRange.mp hi)

/-- The header of a block of whatever volume. -/
def headerAt (f : ByteFile) (b : Nat) : Metadata := Metadata.ofBytes (fun j => f.byte (4096 * b + j))

theorem stageChain_untouched {fuel : Nat} {w : World} {md : Metadata} {buffer : Int → UInt8}
    {n : Nat} {r : World × (Int → UInt8) × Nat} (h : stageChain fuel w md buffer n = some r) :
    w.Untouched r.1 := by
  induction fuel generalizing w md buffer n with
  | zero => simp [stageChain] at h
  | succ fuel ih =>
    simp only [stageChain] at h
    split at h
    next =>
      exact ((World.untouched_advance w usableSpace).trans
        ((World.untouched_lseek _ _).trans (World.untouched_advance _ sizeofMetadata))).trans (ih h)
    next =>
      cases Option.some.inj h
      exact World.untouched_advance w usableSpace

/-- Where the staging loop goes from a block of whatever volume; 400 and more lie behind the end. -/
def Metadata.jump (a : Nat) (md : Metadata) : Option Nat :=
  if md.next = 0 then none
  else some (if blockOffset md.next < 0 then a + 1 else (blockOffset md.next / 4096).toNat)

theorem blockOffset_emod (b : Int32) : blockOffset b % 4096 = 0 := by
  rw [blockOffset, Int32.toInt_mul]
  have h4 : (4096 : Int32).toInt = 4096 := by decide
  rw [h4, Int.bmod]
  split <;> omega

theorem readMd_behind {w : World} (hp : w.file.size ≤ w.fd.pos) (md : Metadata) :
    w.readMd md = (w.advance sizeofMetadata, md) := by
  refine Prod.ext rfl ?_
  have hbytes : ∀ k < 80, w.file.read w.fd.pos sizeofMetadata md.toBytes k = md.toBytes k := by
    intro k _
    simp only [ByteFile.read]
    exact if_neg (by omega)
  exact (Metadata.ofBytes_congr hbytes).trans md.ofBytes_toBytes

/-- Behind the end of the file nothing is read any more, so that the loop stays where it is. -/
theorem stageChain_stuck {w : World} {md : Metadata} (hp : w.file.size ≤ w.fd.pos)
    (h0 : md.next ≠ 0) (hb : blockOffset md.next < 0 ∨ w.file.size ≤ (blockOffset md.next).toNat)
    (fuel : Nat) (buffer : Int → UInt8) (n : Nat) : stageChain fuel w md buffer n = none := by
  induction fuel generalizing w buffer n with
  | zero => rfl
  | succ fuel ih =>
    have hadv : (w.advance usableSpace).fd.pos = w.fd.pos := by
      simp only [World.advance]
      omega
    have hp₂ : w.file.size ≤ ((w.advance usableSpace).lseek (blockOffset md.next)).fd.pos := by
      simp only [World.lseek]
      split
      next => rwa [hadv]
      next hn => exact hb.resolve_left hn
    simp only [stageChain, World.readBuffer, if_pos h0]
    rw [readMd_behind hp₂]
    refine ih (w := ((w.advance usableSpace).lseek (blockOffset md.next)).advance sizeofMetadata)
      ?_ hb _ _
    change w.file.size ≤ ((w.advance usableSpace).lseek (blockOffset md.next)).fd.pos + _
    omega

/-- The seek of the staging loop, from the end of block `a`. -/
theorem lseek_jump {w : World} {a c : Nat} {md : Metadata} (hp : w.fd.pos = 4096 * (a + 1))
    (hc : md.jump a = some c) : (w.lseek (blockOffset md.next)).fd.pos = 4096 * c := by
  have hmod := blockOffset_emod md.next
  unfold Metadata.jump at hc
  split at hc
  next => cases hc
  next =>
    have he := Option.some.inj hc
    simp only [World.lseek]
    split at he
    next hneg => rw [if_pos hneg, hp, he]
    next hneg =>
      rw [if_neg hneg]
      change (blockOffset md.next).toNat = 4096 * c
      omega

/-- A staging loop that ends has followed a chain of jumps, and needs one round for each of its
blocks. -/
theorem stageChain_jumps {f : ByteFile} (hs : f.size = blockSize * numBlocks) {fuel : Nat}
    {w : World} {md : Metadata} {a : Nat} {buffer : Int → UInt8} {n : Nat}
    {r : World × (Int → UInt8) × Nat} (hw : w.file = f) (ha : a < numBlocks)
    (hp : w.fd.pos = 4096 * a + 80) (hmd : headerAt f a = md)
    (h : stageChain fuel w md buffer n = some r) :
    ∃ l, LinkedChain (fun b => (headerAt f b).jump b) a l ∧ (∀ x ∈ l, x < numBlocks) ∧
      ∀ rounds, l.length ≤ rounds → stageChain rounds w md buffer n = some r := by
  induction fuel generalizing w md a buffer n with
  | zero => simp [stageChain] at h
  | succ fuel ih =>
    have ha' : a < 400 := ha
    have hs' : w.file.size = 1638400 := by rw [hw]; exact hs
    have hadv : (w.advance usableSpace).fd.pos = 4096 * (a + 1) := by
      change w.fd.pos + min 4016 (w.file.size - w.fd.pos) = 4096 * (a + 1)
      omega
    by_cases h0 : md.next = 0
    · refine ⟨[a], .last ?_, by simpa using ha, fun rounds hr => ?_⟩
      · rw [hmd, Metadata.jump, if_pos h0]
      · obtain ⟨k, rfl⟩ : ∃ k, rounds = k + 1 := ⟨rounds - 1, by simp at hr; omega⟩
        simpa only [stageChain, h0, ne_eq, not_true_eq_false, if_false] using h
    · obtain ⟨c, hc⟩ : ∃ c, md.jump a = some c := ⟨_, by rw [Metadata.jump, if_neg h0]⟩
      have hpos : ((w.advance usableSpace).lseek (blockOffset md.next)).fd.pos = 4096 * c :=
        lseek_jump hadv hc
      simp only [stageChain, World.readBuffer, if_pos h0] at h
      by_cases hlt : c < numBlocks
      · have hlt' : c < 400 := hlt
        have hr := World.readMd_block (w := (w.advance usableSpace).lseek (blockOffset md.next))
          (by rw [← hs, ← hw]; rfl) hlt hpos md
        have hh : Metadata.ofBytes (fun j => ((w.advance usableSpace).lseek
            (blockOffset md.next)).file.byte (4096 * c + j)) = headerAt f c := by
          rw [headerAt, ← hw]
          rfl
        rw [hh] at hr
        rw [hr] at h
        have hp₂ : (((w.advance usableSpace).lseek (blockOffset md.next)).advance
            sizeofMetadata).fd.pos = 4096 * c + 80 := by
          change ((w.advance usableSpace).lseek (blockOffset md.next)).fd.pos +
            min 80 (w.file.size - ((w.advance usableSpace).lseek (blockOffset md.next)).fd.pos) = _
          omega
        obtain ⟨l, hl, hin, hrounds⟩ := ih (w := ((w.advance usableSpace).lseek
          (blockOffset md.next)).advance sizeofMetadata) hw hlt hp₂ rfl h
        refine ⟨a :: l, .link (by rw [hmd]; exact hc) hl, ?_, fun rounds hlen => ?_⟩
        · intro x hx
          rcases List.mem_cons.mp hx with rfl | hx
          · exact ha
          · exact hin x hx
        · obtain ⟨k, rfl⟩ : ∃ k, rounds = k + 1 := ⟨rounds - 1, by simp at hlen; omega⟩
          simp only [stageChain, World.readBuffer, if_pos h0]
          rw [hr]
          exact hrounds k (by simpa using hlen)
      · have hge : 400 ≤ c := Nat.le_of_not_lt hlt
        have hbehind : w.file.size ≤ ((w.advance usableSpace).lseek (blockOffset md.next)).fd.pos := by
          omega
        have hb : blockOffset md.next < 0 ∨ w.file.size ≤ (blockOffset md.next).toNat := by
          simp only [World.lseek] at hpos
          split at hpos
          next hneg => exact Or.inl hneg
          next =>
            refine Or.inr ?_
            have : (blockOffset md.next).toNat = 4096 * c := hpos
            omega
        rw [readMd_behind hbehind] at h
        have hstuck := stageChain_stuck (w := ((w.advance usableSpace).lseek
          (blockOffset md.next)).advance sizeofMetadata) (by
            change w.file.size ≤ ((w.advance usableSpace).lseek (blockOffset md.next)).fd.pos + _
            omega) h0 hb
        rw [hstuck] at h
        cases h

/-- On whatever volume, a staging loop that ends at all ends within NUM_BLOCKS rounds. -/
theorem stageChain_budget {fuel : Nat} {w : World} {a : Nat} {buffer : Int → UInt8} {n : Nat}
    {r : World × (Int → UInt8) × Nat} (hs : w.file.size = blockSize * numBlocks)
    (ha : a < numBlocks) (hp : w.fd.pos = 4096 * a + 80)
    (h : stageChain fuel w (headerAt w.file a) buffer n = some r) :
    stageChain numBlocks w (headerAt w.file a) buffer n = some r := by
  obtain ⟨l, hl, hin, hrounds⟩ := stageChain_jumps hs rfl ha hp rfl h
  have hle := hl.length_le_of_subset (u := List.range numBlocks)
    (fun x hx => List.mem_range.mpr (hin x hx))
  rw [List.length_range] at hle
  exact hrounds numBlocks hle

theorem listFiles_untouched (is : List Nat) (w : World) (md : Metadata) :
    w.Untouched (listFiles is w md).1 := by
  induction is generalizing w md with
  | nil => exact ⟨rfl, rfl, rfl⟩
  | cons i is ih =>
    simp only [listFiles]
    split
    next =>
      exact ((w.untouched_lseek _).trans (World.untouched_advance _ sizeofMetadata)).trans (ih _ _)
    next => exact ih w md

theorem helloGetattr_file (w : World) (env : Env) (path : CString)
    (hs : w.file.size = blockSize * numBlocks) : (helloGetattr w env path).1.file = w.file := by
  unfold helloGetattr
  obtain ⟨w₁, hu, he⟩ := findFile_lookup path (w := ((w.openFile .rdonly).lseek 4).readBitmap)
    env.md hs
  by_cases hp : path = rootPath
  · simp only [if_pos hp]
    rfl
  · simp only [if_neg hp, he]
    cases (((w.openFile .rdonly).lseek 4).readBitmap.view.lookup
      ((w.openFile .rdonly).lseek 4).readBitmap.view.mem path) <;> exact hu.file

theorem helloReaddir_file (w : World) (env : Env) (path : CString) :
    (helloReaddir w env path).1.file = w.file := by
  unfold helloReaddir
  by_cases hp : path ≠ rootPath
  · simp only [if_pos hp]
    rfl
  · simp only [if_neg hp]
    exact (listFiles_untouched blockRange (w.openFile .rdonly) env.md).file

theorem helloOpen_file (w : World) (env : Env) (path : CString)
    (hs : w.file.size = blockSize * numBlocks) : (helloOpen w env path).1.file = w.file := by
  unfold helloOpen
  obtain ⟨w₁, hu, he⟩ := findFile_lookup path (w := w.openFile .rdonly) env.md hs
  have hm : w₁.fd.mode = .rdonly := hu.mode
  rw [he]
  cases (w.openFile .rdonly).view.lookup (w.openFile .rdonly).view.mem path with
  | none => exact hu.file
  | some b =>
    simp only [World.writeMd, World.write, hm]
    exact hu.file

/-- What hello_read leaves of a volume, whatever is on it. -/
theorem helloRead_view {w w' : World} {env : Env} {path : CString} {size : UInt64} {offset : Int64}
    {r : Reply} (hs : w.file.size = blockSize * numBlocks)
    (h : helloRead w env path size offset = some (w', r)) :
    w'.view = w.view ∨ ∃ b, w.view.lookup w.view.mem path = some b ∧
      w'.view = { w.view with
        hdr := Function.update w.view.hdr b { w.view.hdr b with accessTime := env.now 0 } } := by
  unfold helloRead at h
  obtain ⟨w₁, hu, he⟩ := findFile_lookup path (w := w.openFile .rdwr) env.md hs
  have hv₁ : (w.openFile .rdwr).view = w.view := rfl
  rw [he, hv₁] at h
  cases hf : w.view.lookup w.view.mem path with
  | none =>
    rw [hf] at h
    cases Option.some.inj h
    exact Or.inl hu.view
  | some b =>
    rw [hf] at h
    obtain ⟨h1, hb, _, _⟩ := Blocks.lookup_some hf
    obtain ⟨⟨w₂, buffer, n⟩, hst, he⟩ := Option.bind_eq_some_iff.mp h
    have hu₂ := (hu.trans (World.untouched_lseek w₁ _)).trans (stageChain_untouched hst)
    have hv₂ : w₂.view = w.view := hu₂.view
    have hs₂ : w₂.file.size = blockSize * numBlocks := by
      rw [hu₂.file]
      exact hs
    have hr := w₂.readMd_header hs₂ (toInt_ofNat hb) h1 hb (w.view.hdr b)
    rw [hv₂] at hr
    simp only [hr] at he
    have hu₃ := (hu₂.trans (World.untouched_lseek w₂ (blockOffset (.ofNat b)))).trans
      ((World.untouched_advance _ sizeofMetadata).trans (World.untouched_lseek _
        (blockOffset (.ofNat b))))
    have hpos := (World.advance (w₂.lseek (blockOffset (.ofNat b))) sizeofMetadata).lseek_block
      (toInt_ofNat hb) hb
    generalize (World.advance (w₂.lseek (blockOffset (.ofNat b))) sizeofMetadata).lseek
      (blockOffset (.ofNat b)) = w₃ at he hu₃ hpos
    have hm : w₃.fd.mode = .rdwr := hu₃.mode
    have hview := World.view_writeHeader w₃ h1 hb { w.view.hdr b with accessTime := env.now 0 }
    have hv₃ : w₃.view = w.view := hu₃.view
    rw [hv₃] at hview
    refine Or.inr ⟨b, rfl, ?_⟩
    have hw : w₃.writeMd { w.view.hdr b with accessTime := env.now 0 } = w' :=
      congrArg Prod.fst (Option.some.inj he)
    rw [← hw, ← hview]
    simp only [World.writeMd, World.write, hm, hpos]
    rfl

/-- The calls that are not meant to change anything. -/
def Call.ReadsOnly : Call → Prop
  | .getattr _ | .readdir _ | .open _ | .read _ _ _ => True
  | _ => False

/-- On whatever volume, a call that only reads changes at most the access time of the file found. -/
theorem readsOnly_keeps_files {w w' : World} {env : Env} {c : Call} {r : Reply}
    (hs : w.file.size = blockSize * numBlocks) (hc : c.ReadsOnly)
    (h : fuseCall w (env, c) = some (w', r)) :
    w'.view.bit = w.view.bit ∧ w'.view.dat = w.view.dat ∧
      ∀ b, w'.view.hdr b = w.view.hdr b ∨
        w'.view.hdr b = { w.view.hdr b with accessTime := env.now 0 } ∧
          ∃ path size offset, c = .read path size offset ∧
            w.view.lookup w.view.mem path.chars = some b := by
  have hfile : w'.file = w.file → w'.view.bit = w.view.bit ∧ w'.view.dat = w.view.dat ∧
      ∀ b, w'.view.hdr b = w.view.hdr b ∨
        w'.view.hdr b = { w.view.hdr b with accessTime := env.now 0 } ∧
          ∃ path size offset, c = .read path size offset ∧
            w.view.lookup w.view.mem path.chars = some b := by
    intro hf
    have hh : w'.view.hdr = w.view.hdr := by simp only [World.view, hf]
    exact ⟨by simp only [World.view, hf], by simp only [World.view, hf],
      fun b => Or.inl (congrFun hh b)⟩
  cases c with
  | getattr path =>
    have he : (helloGetattr w env (dirChars path)).1 = w' := congrArg Prod.fst (Option.some.inj h)
    exact hfile (he ▸ helloGetattr_file w env (dirChars path) hs)
  | readdir path =>
    have he : (helloReaddir w env (dirChars path)).1 = w' := congrArg Prod.fst (Option.some.inj h)
    exact hfile (he ▸ helloReaddir_file w env (dirChars path))
  | «open» path =>
    have he : (helloOpen w env path.chars).1 = w' := congrArg Prod.fst (Option.some.inj h)
    exact hfile (he ▸ helloOpen_file w env path.chars hs)
  | read path size offset =>
    rcases helloRead_view hs h with hv | ⟨a, hf, hv⟩
    · rw [hv]
      exact ⟨rfl, rfl, fun b => Or.inl rfl⟩
    · rw [hv]
      refine ⟨rfl, rfl, fun b => ?_⟩
      by_cases hb : b = a
      · subst b
        exact Or.inr ⟨Function.update_self _ _ _, path, size, offset, rfl, hf⟩
      · exact Or.inl (Function.update_of_ne hb _ _)
  | write | truncate | unlink | create => exact hc.elim

set_option maxRecDepth 100000 in
theorem readsOnly_keeps_files_read : ∃ w w' : World, ∃ b,
    fuseCall w (plain (.read pathA 10 0)) = some (w', .data 1 [88]) ∧
      w'.view.bit = w.view.bit ∧ w'.view.dat = w.view.dat ∧
      (w'.view.hdr b).fileSize = (w.view.hdr b).fileSize := by
  obtain ⟨h, w, hr, hc⟩ := reaches_of_plays anyCall
    [plain (.create pathA), plain (.write pathA (fun _ => 88) 1 0)]
    (fun _ s => (s.call (plain (.read pathA 10 0))).map Prod.snd = some (.data 1 [88]))
    (by decide +kernel)
  obtain ⟨⟨mode, hs⟩, _⟩ := hr.blockRun
  obtain ⟨⟨s', r⟩, he, hreply⟩ := Option.map_eq_some_iff.mp (of_decide_eq_true hc)
  obtain ⟨_, w', hw, _⟩ := call_some hs he
  have hr' : r = .data 1 [88] := hreply
  subst hr'
  obtain ⟨hb, hd, hh⟩ := readsOnly_keeps_files (c := .read pathA 10 0) hs.size trivial hw
  refine ⟨w, w', 1, hw, hb, hd, ?_⟩
  rcases hh 1 with he | ⟨he, _⟩ <;> rw [he]

/-- A write that finds no block at all, to a file that has the size, the times and the bytes already. -/
def Blocks.WriteIsIdle (s : Blocks) (env : Env) (path : CString) (buf : Nat → UInt8) (size : UInt64)
    (offset : Int64) : Prop :=
  ∀ b ∈ s.lookup s.mem path, ∀ l ∈ s.chain b, (newSize size offset).toInt ≤ maxRequestSize →
    (freeBlocks s.mem).length < Blocks.lacking l (newSize size offset) →
      freeBlocks s.mem = [] ∧ (s.hdr b).fileSize = newSize size offset ∧
        (s.hdr b).accessTime = env.now 0 ∧ (s.hdr b).modifyTime = env.now 1 ∧
        ∀ k < usableSpace * (l.length - 1), offset.toInt ≤ k → (k : Int) < offset.toInt + size.toNat →
          buf (k - offset.toInt).toNat = chainByte s.dat l k

namespace Blocks

variable {s s' : Blocks}

theorem size_gt_of_lacking {l : List Nat} {x : Int32} (hl : l ≠ []) (h : 0 < lacking l x) :
    usableSpace * l.length < loopSize x := by
  have h' : 0 < (loopSize x - 1) / 4016 + 1 - l.length := h
  have hpos : 0 < l.length := List.length_pos_iff.mpr hl
  change 4016 * l.length < loopSize x
  omega

/-- The staged and patched buffer, at a byte of the old chain. -/
theorem copyIn_stage {l : List Nat} (buffer : Int → UInt8) (buf : Nat → UInt8) (size : Nat)
    (offset : Int) {k : Nat} (hk : k < usableSpace * l.length) :
    copyIn (stageBlocks s.dat l 0 buffer) offset size buf k =
      if offset ≤ k ∧ (k : Int) < offset + size then buf (k - offset).toNat
      else chainByte s.dat l k := by
  have hst := stageBlocks_inside s.dat 0 buffer hk
  rw [Nat.zero_add] at hst
  rw [copyIn, hst]

/-- What a write that runs out of blocks leaves behind. -/
theorem starved_eq_self_iff {env : Env} {b : Nat} {l : List Nat} {size : UInt64} {offset : Int64}
    {buf : Nat → UInt8} (hl : LinkedChain s.next b l)
    (hroom : (freeBlocks s.mem).length < lacking l (newSize size offset)) :
    s.written env b l (newSize size offset)
        (copyIn (stageBlocks s.dat l 0 env.buffer) offset.toInt size.toNat buf)
        (l ++ s.taken l (newSize size offset)).dropLast = s ↔
      freeBlocks s.mem = [] ∧ (s.hdr b).fileSize = newSize size offset ∧
        (s.hdr b).accessTime = env.now 0 ∧ (s.hdr b).modifyTime = env.now 1 ∧
        ∀ k < usableSpace * (l.length - 1), offset.toInt ≤ k → (k : Int) < offset.toInt + size.toNat →
          buf (k - offset.toInt).toNat = chainByte s.dat l k := by
  have hsize := size_gt_of_lacking hl.ne_nil (Nat.zero_lt_of_lt hroom)
  have htaken := taken_starved hroom
  have hin : ∀ k < usableSpace * (l.length - 1), k < usableSpace * l.length := fun k hk =>
    Nat.lt_of_lt_of_le hk (Nat.mul_le_mul_left _ (Nat.sub_le _ _))
  have hd : l.dropLast.Nodup := hl.nodup.sublist (List.dropLast_sublist l)
  constructor
  · intro he
    have hmem : mark s.mem (s.taken l (newSize size offset)) 1 = s.mem := congrArg Blocks.mem he
    rw [htaken] at hmem
    have hfree := (mark_free_eq_self_iff (fun _ hi => hi)).mp hmem
    have hhdr := congrArg (fun t => Blocks.hdr t b) he
    have hdat := congrArg Blocks.dat he
    simp only [written, htaken, hfree, linkBlocks, Function.update_self, List.append_nil] at hhdr hdat
    refine ⟨hfree, ?_, ?_, ?_, fun k hk h0 h1 => ?_⟩
    · rw [← hhdr]
      rfl
    · rw [← hhdr]
      rfl
    · rw [← hhdr]
      rfl
    · have hs := spreadBlocks_chainByte
        (copyIn (stageBlocks s.dat l 0 env.buffer) offset.toInt size.toNat buf) hd 0
        (loopSize (newSize size offset)) s.dat (k := k) (by rwa [List.length_dropLast])
      rw [hdat, if_pos (Nat.lt_trans (hin k hk) hsize), chainByte_dropLast s.dat hk] at hs
      rw [hs]
      have hz : ((0 : Nat) : Int) + k = k := by omega
      rw [hz, copyIn_stage _ _ _ _ (hin k hk), if_pos ⟨h0, h1⟩]
  · rintro ⟨hfree, hfs, hat, hmt, hbytes⟩
    have hhead : s.writeHead env b (newSize size offset) = s.hdr b := by
      rw [writeHead, ← hfs, ← hat, ← hmt]
    simp only [written, htaken, hfree, mark_nil, linkBlocks, hhead, Function.update_eq_self,
      List.append_nil]
    have hdat := spreadBlocks_eq_self
      (copyIn (stageBlocks s.dat l 0 env.buffer) offset.toInt size.toNat buf) hd
      (loopSize (newSize size offset)) s.dat (by
        intro k hk _
        rw [List.length_dropLast] at hk
        rw [copyIn_stage _ _ _ _ (hin k hk), chainByte_dropLast s.dat hk]
        split
        next hh => exact hbytes k hk hh.1 hh.2
        next => rfl)
    rw [hdat]

end Blocks

/-- In every reachable state: the exact cases in which a failed write leaves no trace. -/
theorem failed_write_keeps_iff {h : History} {w w' : World} {env : Env} {path : Path}
    {buf : Nat → UInt8} {size : UInt64} {offset : Int64} {e : Errno} (hr : Reaches anyCall h w)
    (hc : fuseCall w (env, .write path buf size offset) = some (w', .err e)) :
    w'.view = w.view ↔ w.view.WriteIsIdle env path.chars buf size offset := by
  obtain ⟨⟨mode, hs⟩, _⟩ := hr.blockRun
  obtain ⟨mode', s', hs', hcall⟩ := fuseCall_some hs hc
  rw [hs'.view]
  cases Blocks.step_of_call hcall with
  | look hl => exact hl.elim
  | reload hl => exact hl.elim
  | writeNone hf =>
    refine iff_of_true rfl (fun b hb => ?_)
    rw [hf] at hb
    cases hb
  | writeBig hf hl hmax =>
    refine iff_of_true rfl (fun b hb l hl' hle => ?_)
    cases hf.symm.trans hb
    cases hl.symm.trans hl'
    exact absurd hmax (Int.not_lt.mpr hle)
  | starve hf hl hle hroom =>
    refine (Blocks.starved_eq_self_iff (.of_follow hl) hroom).trans ?_
    constructor
    · intro hidle b hb l hl' _ _
      cases hf.symm.trans hb
      cases hl.symm.trans hl'
      exact hidle
    · intro hidle
      exact hidle _ hf _ hl hle hroom

set_option maxRecDepth 100000 in
theorem failed_write_keeps_iff_big : ∃ w w' : World,
    fuseCall w (plain (.write pathA (fun _ => 88) 200000 0)) = some (w', .err .enobufs) ∧
      w'.view = w.view := by
  obtain ⟨h, w, hr, hc⟩ := reaches_of_plays anyCall [plain (.create pathA)]
    (fun _ s => s.lookup s.mem pathA.chars = some 1 ∧ s.chain 1 = some [1])
    (by decide +kernel)
  obtain ⟨⟨mode, hs⟩, _⟩ := hr.blockRun
  obtain ⟨hf, hl⟩ := of_decide_eq_true hc
  have hcall : w.view.call (plain (.write pathA (fun _ => 88) 200000 0)) =
      some (w.view, .err .enobufs) := by
    have hmax : maxRequestSize < (newSize 200000 0).toInt := by decide
    simp only [plain, Blocks.call, Blocks.write, hf, hl, Option.map_some, if_pos hmax]
  obtain ⟨_, w', hw, _⟩ := call_some hs hcall
  refine ⟨w, w', hw, (failed_write_keeps_iff hr hw).mpr (fun b hb l _ hle => ?_)⟩
  exact absurd hle (by decide)

/-- Where no block has a successor, a growing truncate takes the first free blocks. -/
theorem growMarks_unlinked {next : Nat → Option Nat} (hn : ∀ b < numBlocks, next b = none)
    (more : Nat) (mem : Nat → Int32) {b : Nat} (hb : b < numBlocks) :
    (growMarks next more mem b).1 = mark mem ((freeBlocks mem).take more) 1 := by
  induction more generalizing mem b with
  | zero => simp [growMarks]
  | succ more ih =>
    simp only [growMarks, hn b hb, firstFree_eq_head]
    cases hf : freeBlocks mem with
    | nil => simp
    | cons i rest =>
      have hi : i < numBlocks := (mem_freeBlocks.mp (hf ▸ List.mem_cons_self)).2.1
      simp only [List.head?_cons, List.take_succ_cons]
      rw [ih _ hi, freeBlocks_mark_head hf]
      exact (mark_cons mem i _ 1).symm

/-- A growing truncate to a size that no volume holds takes every free block. -/
theorem Blocks.truncate_takes_all {s : Blocks} {path : CString} {b : Nat} (size : Int64)
    (hf : s.lookup s.mem path = some b) (hgt : (s.hdr b).fileSize.toInt < size.toInt)
    (hn : ∀ b < numBlocks, s.next b = none)
    (hlen : (freeBlocks s.mem).length ≤ blocksFor (cSize size.toInt) - 1) :
    ∃ r, s.truncate path size = some ({ s with mem := mark s.mem (freeBlocks s.mem) 1 }, r) := by
  have hb := (lookup_some hf).2.1
  have hg := growMarks_unlinked hn (blocksFor (cSize size.toInt) - 1) s.mem hb
  rw [List.take_of_length_le hlen] at hg
  simp only [truncate, hf, if_neg (Int.not_lt.mpr (Int.le_of_lt hgt)), if_pos hgt]
  generalize growMarks s.next (blocksFor (cSize size.toInt) - 1) s.mem b = p at hg
  obtain ⟨mem, _ | _⟩ := p
  · exact ⟨_, by rw [← hg]⟩
  · exact ⟨_, by rw [← hg]⟩

theorem freeBlocks_all_marked (marks : Nat → Int32) :
    freeBlocks (mark marks (freeBlocks marks) 1) = [] := by
  rw [freeBlocks_mark, List.filter_eq_nil_iff]
  simp

set_option maxRecDepth 100000 in
/-- A write that runs out of blocks has stored the new size already. -/
theorem starved_write_stores_size : ∃ h w w',
    Reaches anyCall h w ∧
      fuseCall w (plain (.write pathA (fun _ => 88) 5000 0)) = some (w', .err .enomem) ∧
      (w.view.hdr 1).fileSize = 0 ∧ (w'.view.hdr 1).fileSize = 5000 ∧ w'.view ≠ w.view := by
  obtain ⟨h, s, hr, hc⟩ := blockRun_of_plays anyCall [plain (.create pathA)]
    (fun _ s => s.lookup s.mem pathA.chars = some 1 ∧ s.chain 1 = some [1] ∧
      (s.hdr 1).fileSize = 0 ∧ (∀ b < numBlocks, s.next b = none) ∧
      (freeBlocks s.mem).length ≤ 398)
    (by decide +kernel)
  obtain ⟨hf, hl, hfs, hn, hlen⟩ := of_decide_eq_true hc
  obtain ⟨r, ht⟩ := Blocks.truncate_takes_all 1602384 hf (by rw [hfs]; decide) hn hlen
  have hr₂ := GuardedRun.next (l := plain (.truncate pathA 1602384)) hr trivial ht
  obtain ⟨s₂, hs₂⟩ : ∃ s₂ : Blocks, s₂ = { s with mem := mark s.mem (freeBlocks s.mem) 1 } := ⟨_, rfl⟩
  rw [← hs₂] at hr₂
  have hf₂ : s₂.lookup s₂.mem pathA.chars = some 1 := by
    obtain ⟨_, _, h1, hname⟩ := Blocks.lookup_some hf
    have hcons : blockRange = 1 :: List.range' 2 398 := rfl
    rw [Blocks.lookup, hcons, List.find?_cons_of_pos]
    simp [hs₂, Blocks.mark_of_eq_one h1, hname]
  have hl₂ : s₂.chain 1 = some [1] := by rw [hs₂]; exact hl
  have hfree : freeBlocks s₂.mem = [] := by rw [hs₂]; exact freeBlocks_all_marked s.mem
  have hlack : Blocks.lacking [1] (newSize 5000 0) = 1 := by decide
  have hroom : (freeBlocks s₂.mem).length < Blocks.lacking [1] (newSize 5000 0) := by
    rw [hfree, hlack]
    exact Nat.one_pos
  obtain ⟨w, mode, hs, hrun⟩ := BlockRun.reaches hr₂
  have hmax : ¬maxRequestSize < (newSize 5000 0).toInt := by decide
  have hcall : ∃ s₃ : Blocks, s₂.call (plain (.write pathA (fun _ => 88) 5000 0)) =
      some (s₃, .err .enomem) ∧ (s₃.hdr 1).fileSize = 5000 := by
    simp only [plain, Blocks.call, Blocks.write, hf₂, hl₂, Option.map_some, if_neg hmax,
      if_neg (Nat.not_le.mpr hroom)]
    refine ⟨_, rfl, ?_⟩
    simp only [Blocks.written, Blocks.taken_starved hroom, hfree, linkBlocks, Function.update_self]
    rfl
  obtain ⟨s₃, hcall, h3⟩ := hcall
  obtain ⟨_, w', hw, hs'⟩ := call_some hs hcall
  have h0 : (w.view.hdr 1).fileSize = 0 := by rw [hs.view, hs₂]; exact hfs
  have h5 : (w'.view.hdr 1).fileSize = 5000 := by rw [hs'.view]; exact h3
  refine ⟨_, w, w', hrun, hw, h0, h5, fun hv => ?_⟩
  rw [hv, h0] at h5
  exact absurd h5 (by decide)

end FreeBSDEdits
