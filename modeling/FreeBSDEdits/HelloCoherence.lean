import FreeBSDEdits.HelloRange

namespace FreeBSDEdits

theorem mark_eq_self_iff {marks : Nat → Int32} {l : List Nat} {v : Int32} :
    mark marks l v = marks ↔ ∀ i ∈ l, marks i = v := by
  constructor
  · intro h i hi
    have hm := congrFun h i
    rw [mark, if_pos hi] at hm
    exact hm.symm
  · intro h
    funext i
    rw [mark]
    split
    next hi => exact (h i hi).symm
    next => rfl

/-- Marking free blocks changes the bitmap unless there are none. -/
theorem mark_free_eq_self_iff {marks : Nat → Int32} {l : List Nat}
    (hl : ∀ i ∈ l, i ∈ freeBlocks marks) : mark marks l 1 = marks ↔ l = [] := by
  rw [mark_eq_self_iff]
  constructor
  · intro h
    refine List.eq_nil_iff_forall_not_mem.mpr (fun i hi => ?_)
    have h0 := (mem_freeBlocks.mp (hl i hi)).2.2
    rw [h i hi] at h0
    exact absurd h0 (by decide)
  · intro h
    simp [h]

theorem growMarks_mem_eq_one (next : Nat → Option Nat) (more : Nat) {mem : Nat → Int32} {i : Nat}
    (h : mem i = 1) (b : Nat) : (growMarks next more mem b).1 i = 1 :=
  (growMarks_eq next more mem b i).elim (fun he => he.trans h) id

/-- On a chain that ends, a growing truncate leaves the bitmap alone when the chain is long enough
or no block is free. -/
theorem growMarks_chain {next : Nat → Option Nat} {b : Nat} {l : List Nat}
    (hl : LinkedChain next b l) (more : Nat) (mem : Nat → Int32) :
    (growMarks next more mem b).1 = mem ↔ more + 1 ≤ l.length ∨ freeBlocks mem = [] := by
  induction hl generalizing more with
  | last hn =>
    cases more with
    | zero => simp [growMarks]
    | succ more =>
      simp only [growMarks, hn, firstFree_eq_head]
      cases hf : freeBlocks mem with
      | nil => simp
      | cons i rest =>
        simp only [List.head?_cons, List.length_singleton, reduceCtorEq, or_false]
        constructor
        · intro he
          have hm : mark mem [i] 1 i = 1 := by simp [mark]
          have h1 := growMarks_mem_eq_one next more hm i
          have h0 := (mem_freeBlocks.mp (show i ∈ freeBlocks mem by simp [hf])).2.2
          rw [he, h0] at h1
          exact absurd h1 (by decide)
        · omega
  | @link b c l hs _ ih =>
    cases more with
    | zero => simp [growMarks]
    | succ more =>
      simp only [growMarks, hs, List.length_cons]
      rw [ih more, Nat.add_le_add_iff_right]

/-- A chain that does not end is long enough for any size. -/
theorem growMarks_endless {next : Nat → Option Nat} {b : Nat} (h : ∀ l, ¬LinkedChain next b l)
    (more : Nat) (mem : Nat → Int32) : (growMarks next more mem b).1 = mem := by
  induction more generalizing b with
  | zero => rfl
  | succ more ih =>
    cases hn : next b with
    | none => exact absurd (.last hn) (h [b])
    | some c =>
      simp only [growMarks, hn]
      exact ih (fun l hl => h (b :: l) (.link hn hl))

/-- The bitmap in memory is the one on disk. -/
def World.Coherent (w : World) : Prop :=
  ∀ i < numBlocks, w.bitmap i = int32At w.file.byte (4 + 4 * i)

theorem World.coherent_iff (w : World) : w.Coherent ↔ w.view.mem = w.view.bit := by
  constructor
  · intro h
    funext i
    change (if i < 400 then w.bitmap i else 0) = if i < 400 then _ else 0
    split
    next hi => exact h i hi
    next => rfl
  · intro h i hi
    rw [← bit_of_view rfl hi, ← h, mem_of_view rfl hi]

/-- A write finds the blocks it lacks or none at all; a truncate gives no allocated block up and
takes no free one. -/
def keepsBitmap (_ : History) (s : Blocks) : Env × Call → Prop
  | (_, .write path _ size offset) => ∀ b ∈ s.lookup s.mem path.chars, ∀ l ∈ s.chain b,
      (newSize size offset).toInt ≤ maxRequestSize →
        Blocks.lacking l (newSize size offset) ≤ (freeBlocks s.mem).length ∨ freeBlocks s.mem = []
  | (_, .truncate path size) => ∀ b ∈ s.lookup s.mem path.chars,
      (size.toInt < (s.hdr b).fileSize.toInt →
        s.rawNext^[blocksFor (cSize size.toInt)] b ≠ 0 →
          ∀ l ∈ s.chain (s.rawNext^[blocksFor (cSize size.toInt)] b), ∀ i ∈ l, s.mem i = 0) ∧
      ((s.hdr b).fileSize.toInt < size.toInt →
        ∀ l ∈ s.chain b, blocksFor (cSize size.toInt) ≤ l.length ∨ freeBlocks s.mem = [])
  | _ => True

instance : ∀ h s c, Decidable (keepsBitmap h s c) := by
  intro h s c
  obtain ⟨_, c⟩ := c
  rcases c <;> unfold keepsBitmap <;> infer_instance

namespace Blocks

variable {s s' : Blocks}

theorem taken_free {l : List Nat} {x : Int32} {i : Nat} (hi : i ∈ s.taken l x) :
    i ∈ freeBlocks s.mem := List.mem_of_mem_take hi

/-- The write that runs out of blocks has marked every free block, but in memory only. -/
theorem taken_starved {l : List Nat} {x : Int32} (h : (freeBlocks s.mem).length < lacking l x) :
    s.taken l x = freeBlocks s.mem := List.take_of_length_le (Nat.le_of_lt h)

/-- From coherent bitmaps a call ends with coherent bitmaps exactly under `keepsBitmap`. -/
theorem Step.coherent_iff {c : Env × Call} {r : Reply} (hs : s.Step c s' r) (hr : s.InRange)
    (hc : s.mem = s.bit) (h : History) : s'.mem = s'.bit ↔ keepsBitmap h s c := by
  cases hs with
  | @look _ c _ hl =>
    refine iff_of_true hc ?_
    cases c <;> trivial
  | @reload _ c _ hl =>
    refine iff_of_true rfl ?_
    cases c <;> trivial
  | writeNone hf =>
    refine iff_of_true hc (fun b hb => ?_)
    rw [hf] at hb
    cases hb
  | writeBig hf hl hmax =>
    refine iff_of_true hc (fun b hb l' hl' hle => ?_)
    omega
  | truncateNone hf =>
    refine iff_of_true hc (fun b hb => ?_)
    rw [hf] at hb
    cases hb
  | keep hf hk =>
    refine iff_of_true hc (fun b hb => ?_)
    cases hf.symm.trans hb
    rcases hk with he | ⟨hlt, h0⟩
    · exact ⟨fun hlt => by omega, fun hgt => by omega⟩
    · exact ⟨fun _ hne => absurd h0 hne, fun hgt => by omega⟩
  | touch _ _ => exact iff_of_true hc trivial
  | write hf hl hmax hroom =>
    refine iff_of_true rfl (fun b hb l' hl' _ => Or.inl ?_)
    cases hf.symm.trans hb
    cases hl.symm.trans hl'
    exact hroom
  | @starve _ _ _ size offset b l hf hl hmax hroom =>
    have hm : mark s.mem (s.taken l (newSize size offset)) 1 = s.bit ↔ freeBlocks s.mem = [] := by
      rw [taken_starved hroom, ← hc]
      exact mark_free_eq_self_iff (fun _ hi => hi)
    refine hm.trans ⟨fun h0 b' _ l' _ _ => Or.inr h0, fun hk => ?_⟩
    rcases hk b hf l hl hmax with hle | h0
    · omega
    · exact h0
  | @shrink _ _ size b l hf hlt h0 hl =>
    have hm : mark s.mem l 0 = s.bit ↔ ∀ i ∈ l, s.mem i = 0 := by
      rw [← hc]
      exact mark_eq_self_iff
    refine hm.trans ⟨fun hz b' hb' => ?_, fun hk => (hk b hf).1 hlt h0 l hl⟩
    cases hf.symm.trans hb'
    refine ⟨fun _ _ l' hl' => ?_, fun hgt => by omega⟩
    cases hl.symm.trans hl'
    exact hz
  | @grow _ _ size b _ hf hgt _ =>
    obtain ⟨h1, hb, _, _⟩ := lookup_some hf
    have hp := blocksFor_pos (cSize size.toInt)
    have hm : (growMarks s.next (blocksFor (cSize size.toInt) - 1) s.mem b).1 = s.bit ↔
        ∀ l ∈ s.chain b, blocksFor (cSize size.toInt) ≤ l.length ∨ freeBlocks s.mem = [] := by
      rw [← hc]
      cases hl : s.chain b with
      | none =>
        refine iff_of_true (growMarks_endless (fun l hl' => ?_) _ _) (by simp)
        rw [(hr.chain_iff h1 hb).mpr hl'] at hl
        cases hl
      | some l =>
        rw [growMarks_chain ((hr.chain_iff h1 hb).mp hl), Nat.sub_add_cancel hp]
        simp
    refine hm.trans ⟨fun hk b' hb' => ?_, fun hk => (hk b hf).2 hgt⟩
    cases hf.symm.trans hb'
    exact ⟨fun hlt => by omega, fun _ => hk⟩
  | unlink hf hl => exact iff_of_true rfl trivial
  | leak _ _ _ => exact iff_of_true rfl trivial
  | create _ _ hlen => exact iff_of_true rfl trivial

end Blocks

/-- While every call meets `keepsBitmap` the bitmaps agree, and the first call that does not meet it
leaves them different. -/
theorem coherent_while_keepsBitmap {h : History} {w : World} (hr : Reaches keepsBitmap h w) :
    w.Coherent ∧ ∀ c w' r, fuseCall w c = some (w', r) →
      (w'.Coherent ↔ keepsBitmap h w.view c) := by
  obtain ⟨⟨mode, hs⟩, hrun⟩ := hr.blockRun
  have hc : w.view.mem = w.view.bit := hrun.invariant (P := fun _ s => s.mem = s.bit) rfl
    (fun h _ _ _ _ hrange hp hok hc =>
      ((Blocks.step_of_call hc).coherent_iff hrange hp h).mpr hok)
  refine ⟨w.coherent_iff.mpr hc, fun c w' r hcall => ?_⟩
  obtain ⟨_, s', hs', he⟩ := fuseCall_some hs hcall
  rw [World.coherent_iff, hs'.view]
  exact (Blocks.step_of_call he).coherent_iff hs.range hc h

set_option maxRecDepth 100000 in
theorem coherent_while_keepsBitmap_shrunk : ∃ h w, Reaches keepsBitmap h w ∧
    (w.view.hdr 1).next = 2 ∧ w.Coherent := by
  obtain ⟨h, w, hr, hc⟩ := reaches_of_plays keepsBitmap
    [plain (.create pathA), plain (.write pathA (fun _ => 88) 5000 0),
      plain (.truncate pathA 4500), plain (.getattr (some pathA))]
    (fun _ s => (s.hdr 1).next = 2) (by decide +kernel)
  exact ⟨h, w, hr, of_decide_eq_true hc, (coherent_while_keepsBitmap hr).1⟩

set_option maxRecDepth 100000 in
/-- A truncate that grows a file marks a block in memory only: its descriptor is opened O_RDONLY. -/
theorem truncate_breaks_coherence : ¬∀ h w, Reaches anyCall h w → w.Coherent := by
  intro hall
  obtain ⟨h, w, hr, hc⟩ := reaches_of_plays anyCall
    [plain (.create pathA), plain (.truncate pathA 5000)]
    (fun _ s => s.mem 2 ≠ s.bit 2) (by decide +kernel)
  exact of_decide_eq_true hc (congrFun (w.coherent_iff.mp (hall h w hr)) 2)

end FreeBSDEdits
