import FreeBSDEdits.HelloAnswers

namespace FreeBSDEdits

/-- The block that a chain is lengthened at keeps its header but for `next`. -/
theorem linkBlocks_current (hdr : Nat → Metadata) {got : List Nat} {current : Nat}
    (hc : current ∉ got) :
    ∃ x, linkBlocks hdr (hdr current) current got current = { hdr current with next := x } := by
  cases got with
  | nil => exact ⟨_, rfl⟩
  | cons g gs =>
    refine ⟨.ofNat g, ?_⟩
    rw [linkBlocks, linkBlocks_off (fun hd => hc (List.dropLast_subset _ hd)), Function.update_self]

theorem loopSize_newSize {size : UInt64} {offset : Int64} (h0 : 0 ≤ offset.toInt)
    (hmax : offset.toInt + size.toNat ≤ maxRequestSize) :
    (loopSize (newSize size offset) : Int) = offset.toInt + size.toNat := by
  have hlt := (newSize size offset).toInt_lt
  have hnew := newSize_toInt h0 hmax
  rw [loopSize]
  omega

namespace Blocks

variable {s s' : Blocks} {ps : List Path} {p : Path} {b : Nat} {l : List Nat}

/-- A write stores the new size in the head of the file. -/
theorem written_head {y : Int32} (hb : b ∉ s.taken l y) (env : Env) (buffer : Int → UInt8)
    (filled : List Nat) :
    ∃ x, (s.written env b l y buffer filled).hdr b = { s.writeHead env b y with next := x } := by
  have hself : Function.update s.hdr b (s.writeHead env b y) b = s.writeHead env b y :=
    Function.update_self ..
  by_cases hlast : l.getLastD b = b
  · obtain ⟨x, hx⟩ := linkBlocks_current (Function.update s.hdr b (s.writeHead env b y)) hb
    refine ⟨x, ?_⟩
    show linkBlocks _ _ (l.getLastD b) _ b = _
    rw [hlast, hx, hself]
  · refine ⟨(s.writeHead env b y).next, ?_⟩
    show linkBlocks _ _ (l.getLastD b) _ b = _
    rw [linkBlocks_off, hself]
    intro hd
    rcases List.mem_cons.mp (List.dropLast_subset _ hd) with he | he
    · exact hlast he.symm
    · exact hb he

theorem Separate.file_of_write (hs : s.Separate ps) {env : Env} {buf : Nat → UInt8} {size : UInt64}
    {offset : Int64} {m : Int32} (hstep : s.Step (env, .write p buf size offset) s' (.written m)) :
    ∃ b l, s.FileAt p b l := by
  cases hstep with
  | look hl => exact hl.elim
  | reload hl _ => exact hl.elim
  | write hf hl _ _ => exact ⟨_, _, hs.fileAt hf hl⟩

/-- A chain that is as long as its file needs has room for it. -/
theorem covers_of_length {l : List Nat} {m n : Nat} (h : l.length = max m (blocksFor n)) :
    n ≤ usableSpace * l.length := by
  rw [h]
  exact Nat.le_trans (le_blocksFor n) (Nat.mul_le_mul_left usableSpace (Nat.le_max_right ..))

/-- The file after a write that found all the blocks it lacked. -/
theorem Separate.write_file (hs : s.Separate ps) (hr : s.InRange) {env : Env} {buf : Nat → UInt8}
    {size : UInt64} {offset : Int64} {m : Int32} (hf : s.FileAt p b l)
    (hok : s.GrowsSafely (.write p buf size offset))
    (hstep : s.Step (env, .write p buf size offset) s' (.written m)) :
    s'.FileAt p b (l ++ s.taken l (newSize size offset)) ∧
      (s'.hdr b).fileSize = newSize size offset ∧
      (l ++ s.taken l (newSize size offset)).length =
        max l.length (blocksFor (loopSize (newSize size offset))) ∧
      ∀ k < loopSize (newSize size offset),
        chainByte s'.dat (l ++ s.taken l (newSize size offset)) k =
          copyIn (stageBlocks s.dat l 0 env.buffer) offset.toInt size.toNat buf k := by
  cases hstep with
  | look hl => exact hl.elim
  | reload hl _ => exact hl.elim
  | @write _ _ _ _ _ b' l' hlook hchain hmax hroom =>
    rw [hf.lookup_mem hs] at hlook
    cases hlook
    rw [hf.chain_some hr] at hchain
    cases hchain
    rcases hok b (hf.lookup_mem hs) l (hf.chain_some hr) hmax with ⟨hfree, hlack⟩ | ⟨_, hcover, hclean⟩
    · rw [hfree] at hroom
      exact absurd hroom (Nat.not_le.mpr hlack)
    · obtain ⟨hself, _⟩ := hs.chained.written_chains hr env
        (copyIn (stageBlocks s.dat l 0 env.buffer) offset.toInt size.toNat buf)
        (l ++ s.taken l (newSize size offset)) hf.head hf.chain hcover hclean
      have hout := hs.chained.not_taken hr hcover hf.head hf.chain hf.chain.head_mem l
        (newSize size offset)
      obtain ⟨x, hx⟩ := written_head hout env
        (copyIn (stageBlocks s.dat l 0 env.buffer) offset.toInt size.toNat buf)
        (l ++ s.taken l (newSize size offset))
      have hlen : (l ++ s.taken l (newSize size offset)).length =
          max l.length (blocksFor (loopSize (newSize size offset))) := by
        rw [List.length_append, taken_length hroom, lacking]
        omega
      have hfits := covers_of_length hlen
      refine ⟨⟨?_, ?_, hself⟩, ?_, hlen, fun k hk => ?_⟩
      · exact (hs.names.written_heads _ _ _ _ (fun t ht => (hclean t ht).1) (Or.inl rfl) b).mpr hf.head
      · exact (congrArg Metadata.name hx).trans hf.name
      · exact congrArg Metadata.fileSize hx
      · have hspread := spreadBlocks_chainByte
          (copyIn (stageBlocks s.dat l 0 env.buffer) offset.toInt size.toNat buf) hself.nodup 0
          (loopSize (newSize size offset)) s.dat (Nat.lt_of_lt_of_le hk hfits)
        rw [if_pos hk, Nat.cast_zero, Int.zero_add] at hspread
        exact hspread

end Blocks

/-- What a successful write of `size` bytes at `offset` does to a file of `n` bytes. A chain gets no
shorter, so the write and the reads before it stay in their arrays if those after it do. -/
structure WriteLaw (w w' : World) (p : Path) (n : Int) (buf : Nat → UInt8) (size : UInt64)
    (offset : Int64) : Prop where
  length : HasSize w'.answers p (max n (offset.toInt + size.toNat))
  staged : w'.view.StagesInside p
  inside : ∀ k : Nat, offset.toInt ≤ k → k < offset.toInt + size.toNat →
    ReadsByte w'.answers p k (buf (k - offset.toInt).toNat)
  kept : ∀ k : Nat, k < n → ¬(offset.toInt ≤ k ∧ k < offset.toInt + size.toNat) →
    ∀ x, ReadsByte w.answers p k x → ReadsByte w'.answers p k x
  gap : ∀ k : Nat, n ≤ k → k < offset.toInt → ReadsByte w'.answers p k 0

namespace Blocks

variable {s s' : Blocks}

/-- The write ends at the end of the file or behind it, the blocks of the file fit the array on the
stack before and after it, and the bytes it skips are zero on the chain, or behind the chain on the
stack. -/
def KeepsLaw (s : Blocks) (env : Env) (p : Path) (size : UInt64) (offset : Int64) : Prop :=
  ∀ b ∈ s.lookup s.mem p.chars, ∀ l ∈ s.chain b,
    (s.hdr b).fileSize.toInt ≤ offset.toInt + size.toNat ∧
    l.length ≤ maxRequestSize / usableSpace ∧
    offset.toInt + size.toNat ≤ (maxRequestSize / usableSpace * usableSpace : Nat) ∧
    ∀ k : Nat, (s.hdr b).fileSize.toInt ≤ k → k < offset.toInt →
      (if k < usableSpace * l.length then chainByte s.dat l k else env.buffer k) = 0

/-- The blocks of a file that a write left fit the array if those before it did and the new size does. -/
theorem fits_iff {l l' : List Nat} {n : Nat} (h : l'.length = max l.length (blocksFor n)) :
    l'.length ≤ maxRequestSize / usableSpace ↔
      l.length ≤ maxRequestSize / usableSpace ∧ n ≤ maxRequestSize / usableSpace * usableSpace := by
  rw [h]
  show max l.length ((n - 1) / 4016 + 1) ≤ 32 ↔ l.length ≤ 32 ∧ n ≤ 32 * 4016
  omega

theorem Separate.write_law {w w' : World} {mode mode' : OpenMode} (hw : w.Shows mode s)
    (hw' : w'.Shows mode' s') {h : History} (hs : s.Separate (livePaths h)) {env : Env} {p : Path}
    {buf : Nat → UInt8} {size : UInt64} {offset : Int64} {m : Int32} {b : Nat} {l : List Nat}
    (hf : s.FileAt p b l) (h0 : 0 ≤ offset.toInt)
    (hmax : offset.toInt + size.toNat ≤ maxRequestSize)
    (hok : separates h s (env, .write p buf size offset))
    (hstep : s.Step (env, .write p buf size offset) s' (.written m)) :
    WriteLaw w w' p (s.hdr b).fileSize.toInt buf size offset ↔ s.KeepsLaw env p size offset := by
  have hr := hw.range
  have hr' := hw'.range
  obtain ⟨hf', hsize, hlen, hbyte⟩ := hs.write_file hr hf hok.1 hstep
  have hfits := covers_of_length hlen
  have hs' := hs.step hr hok hstep
  have hend : (s'.hdr b).fileSize.toInt = offset.toInt + size.toNat := by
    rw [hsize, newSize_toInt h0 hmax]
  have hloop := loopSize_newSize h0 hmax
  have hroom := fits_iff hlen
  have hafter : ∀ k : Nat, k < offset.toInt + size.toNat → ∀ x, ReadsByte w'.answers p k x ↔
      copyIn (stageBlocks s.dat l 0 env.buffer) offset.toInt size.toNat buf k = x := by
    intro k hk x
    rw [hw'.answers_eq, hf'.readsByte_iff hs' hr' (by omega), hbyte k (by omega)]
    exact and_iff_right (by omega)
  have hgap : ∀ k : Nat, k < offset.toInt →
      copyIn (stageBlocks s.dat l 0 env.buffer) offset.toInt size.toNat buf k =
        if k < usableSpace * l.length then chainByte s.dat l k else env.buffer k := by
    intro k hk
    rw [copyIn, if_neg (by omega), stageBlocks_at]
  constructor
  · intro hlaw c hc m hm
    rw [hf.lookup_mem hs] at hc
    cases hc
    rw [hf.chain_some hr] at hm
    cases hm
    have hle : (s.hdr b).fileSize.toInt ≤ offset.toInt + size.toNat := by
      have hn := hlaw.length
      rw [hw'.answers_eq] at hn
      have he := HasSize.unique env hn (hf'.hasSize hs')
      omega
    obtain ⟨c', l', hc, hl', hstaged⟩ := hlaw.staged
    rw [hw'.view] at hc hl'
    cases hc.symm.trans (hf'.lookup_mem hs')
    cases hl'.symm.trans (hf'.chain_some hr')
    obtain ⟨hold, hnew⟩ := hroom.mp hstaged
    refine ⟨hle, hold, by omega, fun k hk hlt => ?_⟩
    rw [← hgap k hlt]
    exact (hafter k (by omega) 0).mp (hlaw.gap k hk hlt)
  · intro hkeep
    obtain ⟨hle, hold, hnew, hzero⟩ := hkeep b (hf.lookup_mem hs) l (hf.chain_some hr)
    constructor
    case length =>
      rw [hw'.answers_eq, Int.max_eq_right hle, ← hend]
      exact hf'.hasSize hs'
    case staged =>
      rw [hw'.view]
      exact ⟨b, _, hf'.lookup_mem hs', hf'.chain_some hr', hroom.mpr ⟨hold, by omega⟩⟩
    case inside =>
      intro k hk hlt
      rw [hafter k hlt, copyIn, if_pos ⟨hk, hlt⟩]
    case kept =>
      intro k hk hout x hx
      rw [hw.answers_eq] at hx
      obtain ⟨hin, hx⟩ := (hf.readsByte_iff hs hr hk).mp hx
      rw [hafter k (by omega), hgap k (by omega), if_pos hin, hx]
    case gap =>
      intro k hk hlt
      rw [hafter k (by omega), hgap k hlt, hzero k hk hlt]

end Blocks

/-- While every call meets `separates`, a write obeys the law exactly if it ends at the end of the file
or behind it, the file fits the array on the stack, and the write skips zero bytes only. -/
theorem write_law_iff {h : History} {w w' : World} {env : Env} {p : Path} {buf : Nat → UInt8}
    {size : UInt64} {offset : Int64} {m : Int32} (hr : Reaches separates h w)
    (hok : separates h w.view (env, .write p buf size offset)) (h0 : 0 ≤ offset.toInt)
    (hmax : offset.toInt + size.toNat ≤ maxRequestSize)
    (hcall : fuseCall w (env, .write p buf size offset) = some (w', .written m)) :
    ∃ n, HasSize w.answers p n ∧
      (WriteLaw w w' p n buf size offset ↔ w.view.KeepsLaw env p size offset) := by
  obtain ⟨⟨mode, hs⟩, hrun⟩ := hr.blockRun
  obtain ⟨mode', s', hs', hb⟩ := fuseCall_some hs hcall
  have hsep := hrun.separate (fun _ _ _ hg => hg)
  have hstep := Blocks.step_of_call hb
  obtain ⟨b, l, hf⟩ := hsep.file_of_write hstep
  have hlaw := hsep.write_law hs hs' hf h0 hmax hok hstep
  rw [← hs.view] at hlaw
  rw [hs.answers_eq]
  exact ⟨_, hf.hasSize hsep, hlaw⟩

set_option maxRecDepth 100000 in
theorem write_law_iff_append : ∃ h w w', Reaches separates h w ∧
    fuseCall w (plain (.write pathA (fun _ => 89) 5000 3)) = some (w', .written 5000) ∧
    HasSize w.answers pathA 3 ∧ WriteLaw w w' pathA 3 (fun _ => 89) 5000 3 := by
  obtain ⟨h, s, hr, hc⟩ := blockRun_of_plays separates
    [plain (.create pathA), plain (.write pathA (fun _ => 88) 3 0)]
    (fun h s => separates h s (plain (.write pathA (fun _ => 89) 5000 3)) ∧
      (s.call (plain (.write pathA (fun _ => 89) 5000 3))).any (fun t => t.2 = .written 5000) ∧
      s.lookup s.mem pathA.chars = some 1 ∧ s.chain 1 = some [1] ∧ (s.hdr 1).fileSize.toInt = 3 ∧
      s.answers (plain (.getattr (some pathA))) =
        some (.attr ⟨0o100666, 1, 3, ⟨0, 0⟩, ⟨0, 0⟩, ⟨0, 0⟩⟩))
    (by decide +kernel)
  obtain ⟨hok, hsome, hf, hl, hsize, hattr⟩ := of_decide_eq_true hc
  obtain ⟨⟨s', r⟩, hcall, hr5⟩ := (Option.any_eq_true _ _).mp hsome
  obtain rfl := of_decide_eq_true hr5
  obtain ⟨w, mode, hs, hrun⟩ := hr.reaches
  obtain ⟨_, w', hw, _⟩ := call_some hs hcall
  have hn : HasSize w.answers pathA 3 := by
    rw [hs.answers_eq]
    exact Blocks.hasSize_of_answer hattr
  have hkeep : w.view.KeepsLaw (plain (.create pathA)).1 pathA 5000 3 := by
    rw [hs.view]
    intro b hb l hc
    rw [hf] at hb
    cases hb
    rw [hl] at hc
    cases hc
    rw [hsize]
    refine ⟨by decide, by decide, by decide, fun k hk hlt => ?_⟩
    change (k : Int) < 3 at hlt
    omega
  rw [← hs.view] at hok
  obtain ⟨n, hn', hlaw⟩ := write_law_iff hrun hok (by decide) (by decide) hw
  obtain rfl := hn'.unique (plain (.create pathA)).1 hn
  exact ⟨h, w, w', hrun, hw, hn, hlaw.mpr hkeep⟩

set_option maxRecDepth 100000 in
/-- Rewriting the first byte of a file of ten bytes leaves a file of one byte. -/
theorem overwrite_shrinks_file : ¬∀ h w w' env p buf (size : UInt64) (offset : Int64) m n,
    Reaches anyCall h w → 0 ≤ offset.toInt → offset.toInt + size.toNat ≤ maxRequestSize →
      fuseCall w (env, .write p buf size offset) = some (w', .written m) →
        HasSize w.answers p n → WriteLaw w w' p n buf size offset := by
  intro hall
  obtain ⟨h, s, hr, hc⟩ := blockRun_of_plays anyCall
    [plain (.create pathA), plain (.write pathA (fun _ => 88) 10 0)]
    (fun _ s => s.answers (plain (.getattr (some pathA))) =
        some (.attr ⟨0o100666, 1, 10, ⟨0, 0⟩, ⟨0, 0⟩, ⟨0, 0⟩⟩) ∧
      (s.call (plain (.write pathA (fun _ => 89) 1 0))).any (fun t => t.2 = .written 1 ∧
        t.1.answers (plain (.getattr (some pathA))) =
          some (.attr ⟨0o100666, 1, 1, ⟨0, 0⟩, ⟨0, 0⟩, ⟨0, 0⟩⟩)))
    (by decide +kernel)
  obtain ⟨hbefore, hsome⟩ := of_decide_eq_true hc
  obtain ⟨⟨s', r⟩, hcall, hafter⟩ := (Option.any_eq_true _ _).mp hsome
  obtain ⟨hr1, hafter⟩ := of_decide_eq_true hafter
  cases hr1
  obtain ⟨w, mode, hs, hrun⟩ := hr.reaches
  obtain ⟨_, w', hw, hs'⟩ := call_some hs hcall
  have hlaw := hall h w w' _ pathA _ 1 0 1 10 hrun (by decide) (by decide) hw
    (by rw [hs.answers_eq]; exact Blocks.hasSize_of_answer hbefore)
  have hlen := hlaw.length
  rw [hs'.answers_eq] at hlen
  have he := hlen.unique (plain (.create pathA)).1 (Blocks.hasSize_of_answer hafter)
  exact absurd he (by decide)

end FreeBSDEdits
