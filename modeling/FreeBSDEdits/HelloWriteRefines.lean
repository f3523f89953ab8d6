import FreeBSDEdits.HelloReadRefines

namespace FreeBSDEdits

theorem blockRange_nodup : blockRange.Nodup := List.nodup_range'

theorem mem_freeBlocks {marks : Nat → Int32} {i : Nat} :
    i ∈ freeBlocks marks ↔ 1 ≤ i ∧ i < numBlocks ∧ marks i = 0 := by
  simp [freeBlocks, mem_blockRange, and_assoc]

theorem freeBlocks_nodup (marks : Nat → Int32) : (freeBlocks marks).Nodup :=
  blockRange_nodup.filter _

theorem firstFree_eq_head (marks : Nat → Int32) : firstFree marks = (freeBlocks marks).head? :=
  List.head?_filter.symm

theorem freeBlocks_mark (marks : Nat → Int32) (l : List Nat) :
    freeBlocks (mark marks l 1) = (freeBlocks marks).filter (· ∉ l) := by
  rw [freeBlocks, freeBlocks, List.filter_filter]
  refine List.filter_congr (fun i _ => ?_)
  by_cases hi : i ∈ l <;> simp [mark, hi]

/-- Taking the first free block leaves the others. -/
theorem freeBlocks_mark_head {marks : Nat → Int32} {i : Nat} {rest : List Nat}
    (h : freeBlocks marks = i :: rest) : freeBlocks (mark marks [i] 1) = rest := by
  have hd := freeBlocks_nodup marks
  rw [h, List.nodup_cons] at hd
  rw [freeBlocks_mark, h, List.filter_cons_of_neg (by simp)]
  refine List.filter_eq_self.mpr (fun j hj => ?_)
  simpa using fun he : j = i => hd.1 (he ▸ hj)

@[simp] theorem mark_nil (marks : Nat → Int32) (v : Int32) : mark marks [] v = marks := by
  funext i
  simp [mark]

theorem mark_cons (marks : Nat → Int32) (i : Nat) (l : List Nat) (v : Int32) :
    mark marks (i :: l) v = mark (mark marks [i] v) l v := by
  funext j
  by_cases hl : j ∈ l <;> by_cases hj : j = i <;> simp [mark, hl, hj]

theorem cSize_gt_iff (x : Int32) : cSize x.toInt > usableSpace ↔ loopSize x > usableSpace := by
  have hl := x.le_toInt
  have hu := x.toInt_lt
  change (x.toInt % 2 ^ 64).toNat > 4016 ↔ (x.toInt % 2 ^ 32).toNat > 4016
  omega

theorem cSize_eq_loopSize {x : Int32} (h : ¬cSize x.toInt > usableSpace) :
    cSize x.toInt = loopSize x := by
  have hl := x.le_toInt
  have hu := x.toInt_lt
  have h' : ¬(x.toInt % 2 ^ 64).toNat > 4016 := h
  change (x.toInt % 2 ^ 64).toNat = (x.toInt % 2 ^ 32).toNat
  omega

theorem loopSize_lowerInt {x : Int32} (h : cSize x.toInt > usableSpace) :
    loopSize (lowerInt x) = loopSize x - usableSpace := lowerInt_emod h

theorem blocksFor_lower {u : Nat} (h : u > usableSpace) :
    blocksFor u = blocksFor (u - usableSpace) + 1 := by
  have h' : u > 4016 := h
  change (u - 1) / 4016 + 1 = (u - 4016 - 1) / 4016 + 1 + 1
  omega

theorem blocksFor_one {u : Nat} (h : ¬u > usableSpace) : blocksFor u = 1 := by
  have h' : ¬u > 4016 := h
  change (u - 1) / 4016 + 1 = 1
  omega

theorem blocksFor_pos (u : Nat) : 1 ≤ blocksFor u := Nat.le_add_left 1 _

theorem blocksFor_le (u : Nat) : blocksFor u ≤ u + 1 := by
  change (u - 1) / 4016 + 1 ≤ u + 1
  omega

theorem le_blocksFor (size : Nat) : size ≤ usableSpace * blocksFor size := by
  rw [blocksFor]
  show size ≤ 4016 * ((size - 1) / 4016 + 1)
  omega

theorem spreadBlocks_zero (buffer : Int → UInt8) (l : List Nat) (pos : Nat)
    (dat : Nat → Nat → UInt8) : spreadBlocks buffer l pos 0 dat = dat := by
  induction l generalizing pos with
  | nil => rfl
  | cons b bs ih => simp [spreadBlocks, ih]

/-- Blocks behind the last one that the bytes reach are left alone. -/
theorem spreadBlocks_short (buffer : Int → UInt8) {b : Nat} {l : List Nat} {pos u : Nat}
    (h : ¬u > usableSpace) (dat : Nat → Nat → UInt8) :
    spreadBlocks buffer (b :: l) pos u dat = spreadBlocks buffer [b] pos u dat := by
  have h0 : u - usableSpace = 0 := by omega
  simp only [spreadBlocks, h0, spreadBlocks_zero]

section

variable {w : World} {s : Blocks}

theorem firstFree_view (hv : w.view = s) : firstFree w.bitmap = firstFree s.mem := by
  rw [firstFree_eq_head, firstFree_eq_head, freeBlocks, freeBlocks]
  refine congrArg _ (List.filter_congr (fun i hi => ?_))
  rw [World.mem_of_view hv (mem_blockRange.mp hi).2]

theorem linkFree_none (hv : w.view = s) (hf : freeBlocks s.mem = []) (md : Metadata) (cb : Int32) :
    linkFree w md cb = (w, none) := by
  have hff : firstFree w.bitmap = none := by rw [firstFree_view hv, firstFree_eq_head, hf]; rfl
  simp only [linkFree, hff]

theorem linkFree_some (h : w.Shows .rdwr s) {i : Nat} {rest : List Nat}
    (hf : freeBlocks s.mem = i :: rest) (md : Metadata) {cb : Int32} {c : Nat}
    (hc : cb.toInt = c) (h1 : 1 ≤ c) (hlt : c < numBlocks) :
    ∃ w', linkFree w md cb = (w', some (.zero, .ofNat i)) ∧ w'.Shows .rdwr
      { s with
        mem := mark s.mem [i] 1
        hdr := Function.update s.hdr c { md with next := .ofNat i } } := by
  obtain ⟨_, hi, _⟩ := mem_freeBlocks.mp (show i ∈ freeBlocks s.mem by simp [hf])
  have hff : firstFree w.bitmap = some i := by rw [firstFree_view h.view, firstFree_eq_head, hf]; rfl
  have hn : (Int32.ofNat i).toInt = i := toInt_ofNat hi
  have h₁ := h.setMark hi (v := 1) (Or.inr rfl)
  have h₂ := h₁.storeHeader hc h1 hlt { md with next := .ofNat i } (by
    change 0 ≤ (Int32.ofNat i).toInt ∧ (Int32.ofNat i).toInt < numBlocks
    rw [hn]
    omega)
  exact ⟨_, by simp only [linkFree, hff], h₂⟩

/-- What the writing loop makes of a volume when it fills the blocks of `filled` with the bytes from
`pos` on and links those of `got` behind `c`. -/
def Blocks.looped (s : Blocks) (buffer : Int → UInt8) (md : Metadata) (c : Nat) (got filled : List Nat)
    (pos size : Nat) : Blocks where
  mem := mark s.mem got 1
  bit := s.bit
  hdr := linkBlocks s.hdr md c got
  dat := spreadBlocks buffer filled pos size s.dat

theorem storeFull (h : w.Shows .rdwr s) {cb : Int32} {c : Nat} (hc : cb.toInt = c) (h1 : 1 ≤ c)
    (hlt : c < numBlocks) (buffer : Int → UInt8) (pos : Nat) {u : Nat} (hu : u > usableSpace) :
    ((w.lseek (blockOffset cb + sizeofMetadata)).write usableSpace
        (fun k : Nat => buffer (pos + k))).Shows .rdwr
      { s with dat := spreadBlocks buffer [c] pos u s.dat } := by
  have h₁ := h.storeData hc h1 hlt (Nat.le_refl usableSpace) (fun k : Nat => buffer (pos + k))
  have he : spreadBlocks buffer [c] pos u s.dat = Function.update s.dat c
      (fun j => if j < usableSpace then buffer (pos + j) else s.dat c j) := by
    simp only [spreadBlocks]
    refine congrArg _ (funext fun j => ?_)
    by_cases hj : j < usableSpace
    · rw [if_pos ⟨by omega, hj⟩, if_pos hj]
    · rw [if_neg (fun hh => hj hh.2), if_neg hj]
  rw [he]
  exact h₁

theorem storeLast (h : w.Shows .rdwr s) {cb x : Int32} {c : Nat} (hc : cb.toInt = c) (h1 : 1 ≤ c)
    (hlt : c < numBlocks) (buffer : Int → UInt8) (pos : Nat) (hx : ¬cSize x.toInt > usableSpace) :
    ((w.lseek (blockOffset cb + sizeofMetadata)).write (cSize x.toInt)
        (fun k : Nat => buffer (pos + k))).Shows .rdwr
      { s with dat := spreadBlocks buffer [c] pos (loopSize x) s.dat } := by
  have h₁ := h.storeData hc h1 hlt (Nat.le_of_not_lt hx) (fun k : Nat => buffer (pos + k))
  have hle : loopSize x ≤ usableSpace := by
    rw [← cSize_eq_loopSize hx]
    omega
  rw [cSize_eq_loopSize hx] at h₁ ⊢
  have he : spreadBlocks buffer [c] pos (loopSize x) s.dat = Function.update s.dat c
      (fun j => if j < loopSize x then buffer (pos + j) else s.dat c j) := by
    simp only [spreadBlocks]
    refine congrArg _ (funext fun j => ?_)
    by_cases hj : j < loopSize x
    · rw [if_pos ⟨hj, by omega⟩, if_pos hj]
    · rw [if_neg (fun hh => hj hh.1), if_neg hj]
  rw [he]
  exact h₁

/-- The writing loop past the end of the chain, which wants `want` more blocks. -/
theorem writeLoop_extend (buffer : Int → UInt8) (want : Nat) {w : World} {s : Blocks}
    (md : Metadata) {cb x : Int32} {c : Nat} (pos : Nat) (h : w.Shows .rdwr s) (hc : cb.toInt = c)
    (h1 : 1 ≤ c) (hlt : c < numBlocks) (hmd : md.next = 0) (hw : blocksFor (loopSize x) = want + 1) :
    ∃ w', writeLoop buffer w md cb x pos =
        (w', if want ≤ (freeBlocks s.mem).length then none else some .enomem) ∧
      w'.Shows .rdwr (s.looped buffer md c ((freeBlocks s.mem).take want)
        (if want ≤ (freeBlocks s.mem).length then c :: (freeBlocks s.mem).take want
          else (c :: (freeBlocks s.mem).take want).dropLast) pos (loopSize x)) := by
  induction want generalizing w s md cb x c pos with
  | zero =>
    have hx : ¬loopSize x > usableSpace := by
      intro hx
      have := blocksFor_pos (loopSize x - usableSpace)
      rw [blocksFor_lower hx] at hw
      omega
    have hcx := mt (cSize_gt_iff x).mp hx
    rw [writeLoop, dif_neg hcx]
    refine ⟨_, rfl, ?_⟩
    have h₁ := storeLast h hc h1 hlt buffer pos hcx
    simpa [Blocks.looped, linkBlocks] using h₁
  | succ want ih =>
    have hx : loopSize x > usableSpace := by
      by_contra hx
      rw [blocksFor_one hx] at hw
      omega
    have hcx := (cSize_gt_iff x).mpr hx
    rw [writeLoop, dif_pos hcx]
    simp only [hmd, if_true]
    cases hf : freeBlocks s.mem with
    | nil =>
      rw [linkFree_none h.view hf]
      refine ⟨w, rfl, ?_⟩
      simpa [Blocks.looped, linkBlocks, spreadBlocks] using h
    | cons i rest =>
      obtain ⟨hi1, hi, _⟩ := mem_freeBlocks.mp (show i ∈ freeBlocks s.mem by simp [hf])
      obtain ⟨w₁, hl, h₁⟩ := linkFree_some h hf md hc h1 hlt
      have h₂ := storeFull h₁ hc h1 hlt buffer pos hx
      have hw' : blocksFor (loopSize (lowerInt x)) = want + 1 := by
        rw [blocksFor_lower hx] at hw
        rw [loopSize_lowerInt hcx]
        omega
      obtain ⟨w₃, he, h₃⟩ := ih .zero (pos + usableSpace) h₂ (toInt_ofNat hi) hi1 hi rfl hw'
      rw [hl]
      refine ⟨w₃, ?_, ?_⟩
      · simp only [he, freeBlocks_mark_head hf, List.length_cons, Nat.add_le_add_iff_right]
      · rw [loopSize_lowerInt hcx] at h₃
        simp only [freeBlocks_mark_head hf] at h₃
        simp only [List.length_cons, Nat.add_le_add_iff_right, List.take_succ_cons,
          List.dropLast_cons_cons]
        have hs : (if want ≤ rest.length then c :: i :: rest.take want
            else c :: (i :: rest.take want).dropLast) =
            c :: (if want ≤ rest.length then i :: rest.take want
              else (i :: rest.take want).dropLast) := by split <;> rfl
        rw [hs, Blocks.looped, mark_cons]
        exact h₃

theorem lacking_lower {x : Int32} (h : cSize x.toInt > usableSpace) (c : Nat) (l : List Nat) :
    Blocks.lacking (c :: l) x = Blocks.lacking l (lowerInt x) := by
  rw [Blocks.lacking, Blocks.lacking, blocksFor_lower ((cSize_gt_iff x).mp h), loopSize_lowerInt h,
    List.length_cons]
  omega

theorem lacking_short {x : Int32} (h : ¬loopSize x > usableSpace) (c : Nat) (l : List Nat) :
    Blocks.lacking (c :: l) x = 0 := by
  rw [Blocks.lacking, blocksFor_one h, List.length_cons]
  omega

/-- The writing loop on a chain: the blocks there are, then the blocks it wants behind the last. -/
theorem writeLoop_spec (buffer : Int → UInt8) {nxt : Nat → Option Nat} {c : Nat} {l : List Nat}
    (hl : LinkedChain nxt c l) {w : World} {s : Blocks} {cb x : Int32} (pos : Nat)
    (hn : s.next = nxt) (h : w.Shows .rdwr s) (hc : cb.toInt = c) (h1 : 1 ≤ c) (hlt : c < numBlocks) :
    ∃ w', writeLoop buffer w (s.hdr c) cb x pos =
        (w', if Blocks.lacking l x ≤ (freeBlocks s.mem).length then none else some .enomem) ∧
      w'.Shows .rdwr (s.looped buffer (s.hdr (l.getLastD c)) (l.getLastD c) (s.taken l x)
        (if Blocks.lacking l x ≤ (freeBlocks s.mem).length then l ++ s.taken l x
          else (l ++ s.taken l x).dropLast) pos (loopSize x)) := by
  induction hl generalizing w s cb x pos with
  | @last c he =>
    have hw : blocksFor (loopSize x) = Blocks.lacking [c] x + 1 := by
      have := blocksFor_pos (loopSize x)
      simp only [Blocks.lacking, List.length_singleton]
      omega
    have h0 := Blocks.next_none (s := s) (by rw [hn]; exact he)
    exact writeLoop_extend buffer _ (s.hdr c) pos h hc h1 hlt h0 hw
  | @link c b l he ht ih =>
    by_cases hcx : cSize x.toInt > usableSpace
    · have hb : s.next c = some b := by rw [hn]; exact he
      obtain ⟨hb1, hblt⟩ := h.range.next_mem hb
      obtain ⟨hbi, h0⟩ := h.range.next_toInt hb
      obtain ⟨w₁, hr₁, h₁, _⟩ := h.readHeader hc h1 hlt (s.hdr c)
      obtain ⟨w₂, hr₂, h₂, _⟩ := h₁.readHeader hbi hb1 hblt (s.hdr c)
      have h₃ := storeFull h₂ hc h1 hlt buffer pos ((cSize_gt_iff x).mp hcx)
      obtain ⟨w₄, hw₄, h₄⟩ := ih (s := { s with dat := spreadBlocks buffer [c] pos (loopSize x) s.dat })
        (x := lowerInt x) (pos + usableSpace) hn h₃ hbi hb1 hblt
      have hlast : (c :: l).getLastD c = l.getLastD b := by
        rw [ht.cons_tail]
        rfl
      rw [writeLoop, dif_pos hcx]
      simp only [if_neg h0, hr₁, hr₂]
      rw [lacking_lower hcx, hlast, Blocks.taken, lacking_lower hcx]
      refine ⟨w₄, hw₄, ?_⟩
      rw [loopSize_lowerInt hcx] at h₄
      have hs : ∀ got : List Nat, (if Blocks.lacking l (lowerInt x) ≤ (freeBlocks s.mem).length then
          c :: l ++ got else (c :: l ++ got).dropLast) =
          c :: (if Blocks.lacking l (lowerInt x) ≤ (freeBlocks s.mem).length then l ++ got
            else (l ++ got).dropLast) := by
        intro got
        rw [ht.cons_tail]
        split <;> rfl
      rw [hs]
      exact h₄
    · have hx := mt (cSize_gt_iff x).mpr hcx
      rw [writeLoop, dif_neg hcx, lacking_short hx, Blocks.taken, lacking_short hx]
      refine ⟨_, rfl, ?_⟩
      have h₁ := storeLast h hc h1 hlt buffer pos hcx
      simp only [Nat.zero_le, if_true, List.take_zero, List.append_nil, Blocks.looped, linkBlocks,
        mark_nil, spreadBlocks_short buffer hx]
      exact h₁

/-- Only the `next` of a header matters for the chains. -/
theorem Blocks.next_update {b : Nat} {md : Metadata} (h : md.next = (s.hdr b).next) :
    Blocks.next { s with hdr := Function.update s.hdr b md } = s.next := by
  funext a
  by_cases ha : a = b
  · subst a
    simp [Blocks.next, h]
  · simp [Blocks.next, ha]

/-- hello_write on the volume is the write of the block level. -/
theorem helloWrite_refines {mode : OpenMode} (h : w.Shows mode s) (env : Env) (path : CString)
    (buf : Nat → UInt8) (size : UInt64) (offset : Int64) :
    Option.Rel Lands (helloWrite w env path buf size offset) (s.write env path buf size offset) := by
  have h₀ := h.opened .rdwr
  unfold helloWrite Blocks.write
  cases hf : s.lookup s.mem path with
  | none =>
    obtain ⟨w₁, he, h₁⟩ := findFile_none h₀ env.md hf
    rw [he]
    exact .some ⟨⟨_, h₁⟩, rfl⟩
  | some b =>
    obtain ⟨h1, hb, _, _⟩ := Blocks.lookup_some hf
    obtain ⟨w₁, he, h₁⟩ := findFile_found h₀ env.md hf
    have hst := stage_found h₁ h1 hb env.buffer
    simp only [he]
    cases hc : s.chain b with
    | none =>
      rw [hc] at hst
      simp only [hst]
      exact .none
    | some l =>
      rw [hc] at hst
      obtain ⟨w₂, _, h₂, hs⟩ := hst
      simp only [hs, Option.bind_eq_bind, Option.bind_some, Option.map_some]
      change Option.Rel Lands (if (newSize size offset).toInt > maxRequestSize then _ else _) _
      by_cases hmax : (newSize size offset).toInt > maxRequestSize
      · rw [if_pos hmax, if_pos hmax]
        exact .some ⟨⟨_, h₂⟩, rfl⟩
      · rw [if_neg hmax, if_neg hmax]
        obtain ⟨w₃, hr, h₃, _⟩ := h₂.readHeader (toInt_ofNat hb) h1 hb (s.hdr b)
        have h₄ := h₃.storeHeader (toInt_ofNat hb) h1 hb
          (s.writeHead env b (newSize size offset)) (h.range.next b)
        have hn : Blocks.next { s with
            hdr := Function.update s.hdr b (s.writeHead env b (newSize size offset)) } = s.next :=
          Blocks.next_update rfl
        obtain ⟨w₅, hw, h₅⟩ := writeLoop_spec
          (copyIn (stageBlocks s.dat l 0 env.buffer) offset.toInt size.toNat buf)
          (x := newSize size offset) (LinkedChain.of_follow hc) 0 hn h₄ (toInt_ofNat hb) h1 hb
        simp only [Function.update_self] at hw
        have hsize : Int32.ofInt (offset.toInt + size.toNat) = newSize size offset := rfl
        have hhead : ({ s.hdr b with
            fileSize := newSize size offset
            accessTime := env.now 0
            modifyTime := env.now 1 } : Metadata) = s.writeHead env b (newSize size offset) := rfl
        simp only [hr]
        rw [hsize, hhead, hw]
        by_cases hroom : Blocks.lacking l (newSize size offset) ≤ (freeBlocks s.mem).length
        · simp only [if_pos hroom] at h₅ ⊢
          exact .some ⟨⟨_, h₅.storeBitmap⟩, rfl⟩
        · simp only [if_neg hroom] at h₅ ⊢
          exact .some ⟨⟨_, h₅⟩, rfl⟩

end

end FreeBSDEdits
