import FreeBSDEdits.HelloView
import Mathlib.Data.Option.Defs

namespace FreeBSDEdits

theorem mem_blockRange {i : Nat} : i ∈ blockRange ↔ 1 ≤ i ∧ i < numBlocks := by
  simp [blockRange, List.mem_range'_1]

/-- A call on the volume ends as the call on the block level does. -/
def Lands (r : World × Reply) (t : Blocks × Reply) : Prop :=
  (∃ mode, r.1.Shows mode t.1) ∧ r.2 = t.2

namespace Blocks

variable {s : Blocks}

theorem lookup_some {marks : Nat → Int32} {path : CString} {b : Nat}
    (h : s.lookup marks path = some b) :
    1 ≤ b ∧ b < numBlocks ∧ marks b = 1 ∧ (s.hdr b).name = path := by
  obtain ⟨h1, hb⟩ := mem_blockRange.mp (List.mem_of_find?_eq_some h)
  have hp := List.find?_some h
  simp only [decide_eq_true_eq] at hp
  exact ⟨h1, hb, hp⟩

/-- The successor of a block lies on the volume and is not block 0. -/
theorem InRange.next_mem (hr : s.InRange) {a b : Nat} (h : s.next a = some b) :
    1 ≤ b ∧ b < numBlocks := by
  have hn := hr.next a
  unfold Blocks.next at h
  split at h
  next => simp at h
  next h0 =>
    have hb := Option.some.inj h
    have hne : (s.hdr a).next.toInt ≠ 0 := fun he => h0 (int32_eq_zero_iff.mpr he)
    omega

theorem InRange.next_toInt (hr : s.InRange) {a b : Nat} (h : s.next a = some b) :
    (s.hdr a).next.toInt = b ∧ (s.hdr a).next ≠ 0 := by
  have hn := hr.next a
  unfold Blocks.next at h
  split at h
  next => simp at h
  next h0 =>
    have hb := Option.some.inj h
    exact ⟨by omega, h0⟩

theorem next_none {a : Nat} (h : s.next a = none) : (s.hdr a).next = 0 := by
  unfold Blocks.next at h
  split at h
  next h0 => exact h0
  next => simp at h

theorem lookup_congr {t : Blocks} (h : s.hdr = t.hdr) (marks : Nat → Int32) (path : CString) :
    s.lookup marks path = t.lookup marks path := by
  unfold lookup
  rw [h]

end Blocks

section

variable {w : World} {mode : OpenMode} {s : Blocks}

/-- The search loop is the lookup of the block level, over any part of the block range. -/
theorem findFile_spec (path : CString) {is : List Nat} (h : w.Shows mode s) (md : Metadata)
    (his : ∀ i ∈ is, 1 ≤ i ∧ i < numBlocks) :
    ∃ w', w'.Shows mode s ∧ findFile path is w md =
      (w', match is.find? (fun i => s.mem i = 1 ∧ (s.hdr i).name = path) with
        | some b => (s.hdr b, some b)
        | none => (((is.filter (fun i => s.mem i = 1)).getLast?.map s.hdr).getD md, none)) := by
  induction is generalizing w md with
  | nil => exact ⟨w, h, rfl⟩
  | cons i is ih =>
    obtain ⟨h1, hi⟩ := his i (by simp)
    have his' : ∀ j ∈ is, 1 ≤ j ∧ j < numBlocks := fun j hj => his j (List.mem_cons_of_mem i hj)
    have hbit := World.mem_of_view h.view hi
    by_cases hm : s.mem i = 1
    · obtain ⟨w₁, hr, h₁, _⟩ := h.readHeader (toInt_ofNat hi) h1 hi md
      simp only [findFile, ← hbit, hm, if_true, hr]
      by_cases hn : (s.hdr i).name = path
      · exact ⟨w₁, h₁, by simp [hm, hn]⟩
      · obtain ⟨w₂, h₂, he⟩ := ih h₁ (s.hdr i) his'
        refine ⟨w₂, h₂, ?_⟩
        rw [if_neg hn, he, List.find?_cons_of_neg (by simp [hn]),
          List.filter_cons_of_pos (by simpa using hm), List.getLast?_cons]
        cases (is.filter (fun i => s.mem i = 1)).getLast? <;> rfl
    · obtain ⟨w₁, h₁, he⟩ := ih h md his'
      refine ⟨w₁, h₁, ?_⟩
      rw [findFile, if_neg (by rwa [← hbit]), he, List.find?_cons_of_neg (by simp [hm]),
        List.filter_cons_of_neg (by simpa using hm)]

theorem findFile_found {path : CString} (h : w.Shows mode s) (md : Metadata) {b : Nat}
    (hf : s.lookup s.mem path = some b) :
    ∃ w', findFile path blockRange w md = (w', s.hdr b, some b) ∧ w'.Shows mode s := by
  obtain ⟨w', h', he⟩ := findFile_spec path h md (fun i hi => mem_blockRange.mp hi)
  have hf' : blockRange.find? (fun i => s.mem i = 1 ∧ (s.hdr i).name = path) = some b := hf
  rw [hf'] at he
  exact ⟨w', he, h'⟩

theorem findFile_none {path : CString} (h : w.Shows mode s) (md : Metadata)
    (hf : s.lookup s.mem path = none) :
    ∃ w', findFile path blockRange w md = (w', s.lastRead s.mem md, none) ∧ w'.Shows mode s := by
  obtain ⟨w', h', he⟩ := findFile_spec path h md (fun i hi => mem_blockRange.mp hi)
  have hf' : blockRange.find? (fun i => s.mem i = 1 ∧ (s.hdr i).name = path) = none := hf
  rw [hf'] at he
  exact ⟨w', he, h'⟩

theorem helloGetattr_refines (h : w.Shows mode s) (env : Env) (path : CString) :
    Lands (helloGetattr w env path) (s.getattr path) := by
  have h₀ := (h.opened .rdonly).loadBitmap
  unfold helloGetattr Blocks.getattr
  generalize ((w.openFile .rdonly).lseek 4).readBitmap = w₀ at h₀
  by_cases hp : path = rootPath
  · simp only [if_pos hp]
    exact ⟨⟨_, h₀⟩, rfl⟩
  · simp only [if_neg hp]
    cases hf : Blocks.lookup { s with mem := s.bit } s.bit path with
    | some b =>
      obtain ⟨w', he, h'⟩ := findFile_found h₀ env.md hf
      rw [he]
      exact ⟨⟨_, h'⟩, rfl⟩
    | none =>
      obtain ⟨w', he, h'⟩ := findFile_none h₀ env.md hf
      rw [he]
      exact ⟨⟨_, h'⟩, rfl⟩

theorem listFiles_spec {is : List Nat} (h : w.Shows mode s) (md : Metadata)
    (his : ∀ i ∈ is, 1 ≤ i ∧ i < numBlocks) :
    ∃ w', w'.Shows mode s ∧ listFiles is w md =
      (w', (is.filter (fun i => s.mem i = 1 ∧ (s.hdr i).name ≠ [])).map
        (fun i => (s.hdr i).name.drop 1)) := by
  induction is generalizing w md with
  | nil => exact ⟨w, h, rfl⟩
  | cons i is ih =>
    obtain ⟨h1, hi⟩ := his i (by simp)
    have his' : ∀ j ∈ is, 1 ≤ j ∧ j < numBlocks := fun j hj => his j (List.mem_cons_of_mem i hj)
    have hbit := World.mem_of_view h.view hi
    by_cases hm : s.mem i = 1
    · obtain ⟨w₁, hr, h₁, _⟩ := h.readHeader (toInt_ofNat hi) h1 hi md
      obtain ⟨w₂, h₂, he⟩ := ih h₁ (s.hdr i) his'
      refine ⟨w₂, h₂, ?_⟩
      simp only [listFiles, ← hbit, hm, if_true, hr, he]
      by_cases hn : (s.hdr i).name = []
      · simp [hm, hn]
      · simp [hm, hn]
    · obtain ⟨w₁, h₁, he⟩ := ih h md his'
      refine ⟨w₁, h₁, ?_⟩
      rw [listFiles, if_neg (by rwa [← hbit]), he, List.filter_cons_of_neg (by simp [hm])]

theorem helloReaddir_refines (h : w.Shows mode s) (env : Env) (path : CString) :
    Lands (helloReaddir w env path) (s.readdir path) := by
  have h₀ := h.opened .rdonly
  unfold helloReaddir Blocks.readdir
  by_cases hp : path ≠ rootPath
  · simp only [hp, if_true, ne_eq, not_false_eq_true]
    exact ⟨⟨_, h₀⟩, rfl⟩
  · obtain ⟨w', h', he⟩ := listFiles_spec h₀ env.md (fun i hi => mem_blockRange.mp hi)
    simp only [hp, if_false]
    rw [he]
    exact ⟨⟨_, h'⟩, rfl⟩

theorem helloOpen_refines (h : w.Shows mode s) (env : Env) (path : CString) :
    Lands (helloOpen w env path) (s.openFile path) := by
  have h₀ := h.opened .rdonly
  unfold helloOpen Blocks.openFile
  cases hf : s.lookup s.mem path with
  | some b =>
    obtain ⟨w', he, h'⟩ := findFile_found h₀ env.md hf
    rw [he]
    have hw : w'.writeMd { s.hdr b with accessTime := env.now 0 } = w' := h'.write_rdonly _ _
    simp only [hw]
    exact ⟨⟨_, h'⟩, rfl⟩
  | none =>
    obtain ⟨w', he, h'⟩ := findFile_none h₀ env.md hf
    rw [he]
    exact ⟨⟨_, h'⟩, rfl⟩

theorem readBuffer_data (hs : w.file.size = blockSize * numBlocks) {a : Nat} (h1 : 1 ≤ a)
    (ha : a < numBlocks) (hp : w.fd.pos = 4096 * a + 80) (buffer : Int → UInt8) (pos : Nat) :
    w.readBuffer buffer pos usableSpace =
      (w.advance usableSpace, fun k : Int =>
        if pos ≤ k ∧ k < pos + usableSpace then w.view.dat a (k - pos).toNat else buffer k) := by
  have ha' : a < 400 := ha
  have hs' : w.file.size = 1638400 := hs
  refine Prod.ext rfl (funext fun k => ?_)
  simp only [World.readBuffer]
  split
  next hk =>
    have hu : (usableSpace : Int) = 4016 := rfl
    have hk' : (k - pos).toNat < 4016 := by omega
    rw [World.dat_of_view rfl h1 ha hk', ← hp]
    exact ByteFile.read_inside hk' (by rw [hp]; change 4096 * a + 80 + 4016 ≤ _; omega)
  next => rfl

theorem readBuffer_spec (h : w.Shows mode s) {a : Nat} (h1 : 1 ≤ a) (ha : a < numBlocks)
    (hp : w.fd.pos = 4096 * a + 80) (buffer : Int → UInt8) (pos : Nat) :
    ∃ w', w'.Shows mode s ∧ w.readBuffer buffer pos usableSpace =
      (w', fun k : Int => if pos ≤ k ∧ k < pos + usableSpace then s.dat a (k - pos).toNat
        else buffer k) := by
  have hr := readBuffer_data h.size h1 ha hp buffer pos
  rw [h.view] at hr
  exact ⟨w.advance usableSpace, h.advance usableSpace, hr⟩

/-- Staging follows the chain of the block level, and never ends when that does not. -/
theorem stageChain_spec (fuel : Nat) {w : World} (md : Metadata) {a : Nat} (pos : Nat)
    (buffer : Int → UInt8) (h : w.Shows mode s) (h1 : 1 ≤ a) (ha : a < numBlocks)
    (hp : w.fd.pos = 4096 * a + 80) (hmd : md.next = (s.hdr a).next) :
    match LinkedChain.follow s.next fuel a with
    | none => stageChain fuel w md buffer pos = none
    | some l => ∃ w', w'.Shows mode s ∧ stageChain fuel w md buffer pos =
        some (w', stageBlocks s.dat l pos buffer, pos + usableSpace * l.length) := by
  induction fuel generalizing w md a pos buffer with
  | zero => rfl
  | succ fuel ih =>
    obtain ⟨w₁, h₁, hr⟩ := readBuffer_spec h h1 ha hp buffer pos
    cases hn : s.next a with
    | none =>
      have h0 := Blocks.next_none hn
      simp only [LinkedChain.follow, hn, stageChain, hr, hmd, h0]
      exact ⟨w₁, h₁, rfl⟩
    | some b =>
      obtain ⟨hb1, hb⟩ := h.range.next_mem hn
      obtain ⟨hbi, h0⟩ := h.range.next_toInt hn
      obtain ⟨w₂, hr₂, h₂, hp₂⟩ := h₁.readHeader (hmd ▸ hbi) hb1 hb md
      have hne : md.next ≠ 0 := hmd ▸ h0
      have hh := ih (s.hdr b) (pos + usableSpace)
        (fun k : Int => if pos ≤ k ∧ k < pos + usableSpace then s.dat a (k - pos).toNat
          else buffer k) h₂ hb1 hb hp₂ rfl
      simp only [LinkedChain.follow, hn, stageChain, hr, if_pos hne, hr₂]
      cases hf : LinkedChain.follow s.next fuel b with
      | none =>
        rw [hf] at hh
        simpa using hh
      | some l =>
        rw [hf] at hh
        obtain ⟨w₃, h₃, he⟩ := hh
        refine ⟨w₃, h₃, ?_⟩
        rw [he]
        simp only [stageBlocks, List.length_cons, Option.some.injEq, Prod.mk.injEq, true_and,
          Nat.mul_add_one]
        omega

/-- The search and the staging that open hello_read and hello_write, for a file whose chain ends. -/
theorem stage_found (h : w.Shows mode s) {b : Nat} (h1 : 1 ≤ b) (hb : b < numBlocks)
    (buffer : Int → UInt8) :
    match s.chain b with
    | none => stageChain numBlocks (w.lseek (blockOffset (.ofNat b) + sizeofMetadata)) (s.hdr b)
        buffer 0 = none
    | some l => ∃ w' n, w'.Shows mode s ∧
        stageChain numBlocks (w.lseek (blockOffset (.ofNat b) + sizeofMetadata)) (s.hdr b)
          buffer 0 = some (w', stageBlocks s.dat l 0 buffer, n) := by
  obtain ⟨h₁, hp₁⟩ := h.seekData (toInt_ofNat hb) hb
  have hst := stageChain_spec numBlocks (s.hdr b) 0 buffer h₁ h1 hb hp₁ rfl
  change match LinkedChain.follow s.next numBlocks b with
    | none => _
    | some l => _
  cases hc : LinkedChain.follow s.next numBlocks b with
  | none =>
    rw [hc] at hst
    exact hst
  | some l =>
    rw [hc] at hst
    obtain ⟨w', h', he⟩ := hst
    exact ⟨w', _, h', he⟩

theorem helloRead_refines (h : w.Shows mode s) (env : Env) (path : CString) (size : UInt64)
    (offset : Int64) :
    Option.Rel Lands (helloRead w env path size offset) (s.read env path size offset) := by
  have h₀ := h.opened .rdwr
  unfold helloRead Blocks.read
  cases hf : s.lookup s.mem path with
  | none =>
    obtain ⟨w₁, he, h₁⟩ := findFile_none h₀ env.md hf
    rw [he]
    exact .some ⟨⟨_, h₁⟩, rfl⟩
  | some b =>
    obtain ⟨h1, hb, _, _⟩ := Blocks.lookup_some hf
    obtain ⟨w₁, he, h₁⟩ := findFile_found h₀ env.md hf
    have hst := stage_found h₁ h1 hb env.buffer
    simp only [he]
    cases hc : s.chain b with
    | none =>
      rw [hc] at hst
      simp only [hst]
      exact .none
    | some l =>
      rw [hc] at hst
      obtain ⟨w₂, _, h₂, hs⟩ := hst
      obtain ⟨w₃, hr, h₃, _⟩ := h₂.readHeader (toInt_ofNat hb) h1 hb (s.hdr b)
      have h₄ := h₃.storeHeader (toInt_ofNat hb) h1 hb
        { s.hdr b with accessTime := env.now 0 } (h.range.next b)
      simp only [hs, Option.bind_eq_bind, Option.bind_some, hr]
      exact .some ⟨⟨_, h₄⟩, rfl⟩

end

end FreeBSDEdits
