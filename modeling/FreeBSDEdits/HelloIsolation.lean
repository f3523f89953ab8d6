import FreeBSDEdits.HelloOwners

namespace FreeBSDEdits

/-- What keeps the files apart: writes that grow files safely and truncates that mark no other file. -/
def separates (_ : History) (s : Blocks) (c : Env × Call) : Prop :=
  s.GrowsSafely c.2 ∧ s.MarksSafely c.2

instance : ∀ h s c, Decidable (separates h s c) := fun _ s c =>
  inferInstanceAs (Decidable (s.GrowsSafely c.2 ∧ s.MarksSafely c.2))

namespace Blocks

variable {s s' : Blocks}

/-- The files of a volume share no block, and both bitmaps find them. -/
structure Separate (s : Blocks) (ps : List Path) : Prop where
  lists : s.Lists ps
  names : s.MemNames
  chained : s.Chained

theorem fresh_separate : fresh.Separate [] := ⟨fresh_lists, .of_eq rfl, fresh_chained⟩

theorem Separate.step {h : History} {c : Env × Call} {r : Reply} (hs : s.Separate (livePaths h))
    (hr : s.InRange) (hok : separates h s c) (hstep : s.Step c s' r) :
    s'.Separate (livePaths ((c, r) :: h)) :=
  ⟨hs.lists.step (fun _ => hs.names) (hs.chained.listsSafely hok.1) hstep,
    hs.names.step hr (hs.chained.listsSafely hok.1) hok.2 hstep,
    hs.chained.step hr (fun _ => hs.names) hok.1 hstep⟩

theorem Separate.lookup_mem {ps : List Path} (hs : s.Separate ps) (p : Path) (b : Nat) :
    s.lookup s.mem p.chars = some b ↔ s.Heads b ∧ (s.hdr b).name = p.chars := by
  rw [hs.names.lookup, hs.lists.lookup_iff]

end Blocks

theorem BlockRun.separate {ok : History → Blocks → Env × Call → Prop}
    (hok : ∀ h s c, ok h s c → separates h s c) {h : History} {s : Blocks} (hr : BlockRun ok h s) :
    s.Separate (livePaths h) :=
  hr.invariant (P := fun h s => s.Separate (livePaths h)) Blocks.fresh_separate
    (fun h s c _ _ hrange hp hg hc => hp.step hrange (hok h s c hg) (Blocks.step_of_call hc))

/-- The calls that are meant to change one file. -/
def Call.Changes (p : Path) : Call → Prop
  | .write path _ _ _ | .truncate path _ | .create path | .unlink path => path = p
  | _ => False

theorem livePaths_other {c : Env × Call} {p q : Path} (hc : c.2.Changes p) (hne : q ≠ p) (r : Reply)
    (h : History) : q ∈ livePaths ((c, r) :: h) ↔ q ∈ livePaths h := by
  obtain ⟨env, c⟩ := c
  cases c with
  | create path =>
    have hp : path = p := hc
    subst path
    cases r with
    | ok => simp [livePaths, hne]
    | err | attr | entries | data | written => exact Iff.rfl
  | unlink path =>
    have hp : path = p := hc
    subst path
    cases r with
    | ok => simp [livePaths, hne]
    | err | attr | entries | data | written => exact Iff.rfl
  | write | truncate => cases r <;> exact Iff.rfl
  | getattr | readdir | «open» | read => exact hc.elim

namespace Blocks

variable {s s' : Blocks}

/-- A write changes the headers of the head, of the last block and of the blocks it takes. -/
theorem written_hdr_other (env : Env) {b : Nat} {l : List Nat} {y : Int32} (buffer : Int → UInt8)
    (filled : List Nat) {x : Nat} (hb : x ≠ b) (hlast : x ≠ l.getLastD b) (ht : x ∉ s.taken l y) :
    (s.written env b l y buffer filled).hdr x = s.hdr x := by
  have hoff : x ∉ (l.getLastD b :: s.taken l y).dropLast := by
    intro hd
    rcases List.mem_cons.mp (List.dropLast_subset _ hd) with he | he
    · exact hlast he
    · exact ht he
  show linkBlocks _ _ _ _ x = s.hdr x
  rw [linkBlocks_off hoff, Function.update_of_ne hb]

/-- A write leaves the chains alone that it shares no block with. -/
theorem written_other {env : Env} {b : Nat} {l : List Nat} {y : Int32} {buffer : Int → UInt8}
    {filled : List Nat} (hl : LinkedChain s.next b l) (hfill : ∀ x ∈ filled, x ∈ l ∨ x ∈ s.taken l y)
    {i : Nat} {m : List Nat} (hm : LinkedChain s.next i m)
    (hout : ∀ x ∈ m, x ∉ l ∧ x ∉ s.taken l y) :
    (s.written env b l y buffer filled).hdr i = s.hdr i ∧
      LinkedChain (s.written env b l y buffer filled).next i m ∧
      ∀ x ∈ m, (s.written env b l y buffer filled).dat x = s.dat x := by
  have hlast : ∀ x ∈ m, x ≠ l.getLastD b := by
    rintro x hx rfl
    exact (hout _ hx).1 (hl.getLastD_mem b)
  refine ⟨?_, hm.congr (fun x hx => written_next_other (hlast x hx) (hout x hx).2), fun x hx => ?_⟩
  · refine written_hdr_other _ _ _ (fun he => ?_) (hlast i hm.head_mem) (hout i hm.head_mem).2
    exact (hout i hm.head_mem).1 (he ▸ hl.head_mem)
  · refine spreadBlocks_other buffer (fun hxf => ?_) 0 _ s.dat
    exact (hfill x hxf).elim (hout x hx).1 (hout x hx).2

/-- The file at head `i` with its chain `m` is as it was. -/
structure KeepsFile (s s' : Blocks) (i : Nat) (m : List Nat) : Prop where
  heads : s'.Heads i
  header : s'.hdr i = s.hdr i
  chain : LinkedChain s'.next i m
  data : ∀ x ∈ m, s'.dat x = s.dat x

theorem Chained.create_keeps (hc : s.Chained) (env : Env) (path : CString) {j : Nat}
    (hj : firstFree s.bit = some j) {i : Nat} {m : List Nat} (hi : s.Heads i)
    (hm : LinkedChain s.next i m) : s.KeepsFile (s.created env path j) i m := by
  obtain ⟨hjm, hm'⟩ := hc.created_chain env path hj hi hm
  have hself : (s.created env path j).hdr i = s.hdr i :=
    created_hdr env path (fun he => hjm (he ▸ hm.head_mem))
  refine ⟨⟨hi.1, hi.2.1, mark_of_eq_one hi.2.2.1 _, ?_⟩, hself, hm', fun _ _ => rfl⟩
  rw [hself]
  exact hi.2.2.2

theorem Chained.unlink_keeps (hc : s.Chained) {b : Nat} {l : List Nat} (hb : s.Heads b)
    (hl : LinkedChain s.next b l) {i : Nat} {m : List Nat} (hi : s.Heads i) (hne : i ≠ b)
    (hm : LinkedChain s.next i m) : s.KeepsFile (s.unlinked l) i m :=
  ⟨(hc.unlinked_heads hb hl i).mpr ⟨hi, hne⟩, rfl, hm, fun _ _ => rfl⟩

/-- A call on another file keeps this one. -/
theorem Separate.keepsFile {ps : List Path} (hs : s.Separate ps) (hr : s.InRange)
    {c : Env × Call} {r : Reply} {h : History} (hok : separates h s c) (hstep : s.Step c s' r)
    {p : Path} (hc : c.2.Changes p) {i : Nat} {m : List Nat} (hi : s.Heads i)
    (hne : (s.hdr i).name ≠ p.chars) (hm : LinkedChain s.next i m) : s.KeepsFile s' i m := by
  -- blocks of the file changed are not on this chain
  have hout : ∀ b l, s.Heads b → (s.hdr b).name = p.chars → LinkedChain s.next b l →
      ∀ x ∈ m, x ∉ l := by
    intro b l hb hn hl x hxm hxl
    rw [hs.chained.disjoint i b m l x hi hb hm hl hxm hxl] at hne
    exact hne hn
  have hsame : ∀ t : Blocks, t.bit = s.bit → t.hdr = s.hdr → t.dat = s.dat → s.KeepsFile t i m := by
    intro t hb hh hd
    refine ⟨?_, by rw [hh], ?_, fun x _ => by rw [hd]⟩
    · rw [Heads, hb, hh]
      exact hi
    · show LinkedChain (links t.hdr) i m
      rw [hh]
      exact hm
  cases hstep with
  | writeNone | writeBig | truncateNone | keep => exact hsame s rfl rfl rfl
  | reload | shrink | grow => exact hsame _ rfl rfl rfl
  | touch => exact hc.elim
  | look hl => exact hsame s rfl rfl rfl
  | @write env q _ size offset b l hf hl hmax hroom =>
    have hq : q = p := hc
    subst q
    obtain ⟨hb, hn⟩ := (hs.lookup_mem p b).mp hf
    have hl := LinkedChain.of_follow hl
    have hchain := (hr.chain_iff hb.1 hb.2.1).mpr hl
    rcases hok.1 b hf l hchain hmax with ⟨hfree, hlack⟩ | ⟨_, hcover, hclean⟩
    · rw [hfree] at hroom
      exact absurd hroom (Nat.not_le.mpr hlack)
    · obtain ⟨hhdr, hchain, hdat⟩ := written_other (y := newSize size offset) hl
        (fun x hx => List.mem_append.mp hx) hm
        (fun x hx => ⟨hout b l hb hn hl x hx, hs.chained.not_taken hr hcover hi hm hx l _⟩)
      refine ⟨?_, hhdr, hchain, hdat⟩
      exact (hs.names.written_heads _ _ _ _ (fun t ht => (hclean t ht).1) (Or.inl rfl) i).mpr hi
  | @starve env q _ size offset b l hf hl hmax hroom =>
    have hq : q = p := hc
    subst q
    obtain ⟨hb, hn⟩ := (hs.lookup_mem p b).mp hf
    have hl := LinkedChain.of_follow hl
    rcases hok.1 b hf l ((hr.chain_iff hb.1 hb.2.1).mpr hl) hmax with ⟨hfree, _⟩ | ⟨hle, _, _⟩
    · have htaken : s.taken l (newSize size offset) = [] := by rw [taken, hfree, List.take_nil]
      obtain ⟨hhdr, hchain, hdat⟩ := written_other (y := newSize size offset) hl
        (fun x hx => List.mem_append.mp (List.dropLast_subset _ hx)) hm
        (fun x hx => ⟨hout b l hb hn hl x hx, by rw [htaken]; exact List.not_mem_nil⟩)
      refine ⟨⟨hi.1, hi.2.1, hi.2.2.1, ?_⟩, hhdr, hchain, hdat⟩
      rw [hhdr]
      exact hi.2.2.2
    · exact absurd hroom (Nat.not_lt.mpr hle)
  | @unlink _ q b l hf hl =>
    have hq : q = p := hc
    subst q
    obtain ⟨hb, hn⟩ := heads_of_lookup hf
    exact hs.chained.unlink_keeps hb (.of_follow hl) hi (fun he => hne (he ▸ hn)) hm
  | leak => exact ⟨⟨hi.1, hi.2.1, mark_of_eq_one hi.2.2.1 _, hi.2.2.2⟩, rfl, hm, fun _ _ => rfl⟩
  | create hf hj hlen => exact hs.chained.create_keeps _ _ hj hi hm

theorem stageBlocks_congr {dat dat' : Nat → Nat → UInt8} {l : List Nat}
    (h : ∀ x ∈ l, dat' x = dat x) (pos : Nat) (buffer : Int → UInt8) :
    stageBlocks dat' l pos buffer = stageBlocks dat l pos buffer := by
  induction l generalizing pos buffer with
  | nil => rfl
  | cons b l ih =>
    rw [stageBlocks, stageBlocks, h b List.mem_cons_self]
    exact ih (fun x hx => h x (List.mem_cons_of_mem b hx)) _ _

/-- What getattr reports about a file depends on its head. -/
theorem KeepsFile.getattr_eq {q : Path} {b : Nat} {l : List Nat} (hk : s.KeepsFile s' b l)
    (hf : s.lookup s.bit q.chars = some b) (hf' : s'.lookup s'.bit q.chars = some b) :
    (s'.getattr q.chars).2 = (s.getattr q.chars).2 := by
  have hg : lookup { s with mem := s.bit } s.bit q.chars = some b := hf
  have hg' : lookup { s' with mem := s'.bit } s'.bit q.chars = some b := hf'
  simp only [getattr, if_neg q.chars_ne_root, hg, hg', hk.header]

/-- What read reports depends on the chain as well, and on the data on it. -/
theorem KeepsFile.read_eq {q : Path} {b : Nat} {l : List Nat} (hk : s.KeepsFile s' b l)
    (hf : s.lookup s.mem q.chars = some b) (hf' : s'.lookup s'.mem q.chars = some b)
    (hl : s.chain b = some l) (hl' : s'.chain b = some l) (env : Env) (size : UInt64)
    (offset : Int64) :
    (s'.read env q.chars size offset).map Prod.snd =
      (s.read env q.chars size offset).map Prod.snd := by
  have hstage : stageBlocks s'.dat l 0 env.buffer = stageBlocks s.dat l 0 env.buffer :=
    stageBlocks_congr hk.data 0 env.buffer
  simp only [read, hf, hf', hl, hl', Option.map_some, hk.header, hstage]

/-- Where no file has the name, getattr and read say so. -/
theorem getattr_eq_of_none {q : Path} (hf : s.lookup s.bit q.chars = none)
    (hf' : s'.lookup s'.bit q.chars = none) : (s'.getattr q.chars).2 = (s.getattr q.chars).2 := by
  have hg : lookup { s with mem := s.bit } s.bit q.chars = none := hf
  have hg' : lookup { s' with mem := s'.bit } s'.bit q.chars = none := hf'
  simp only [getattr, if_neg q.chars_ne_root, hg, hg']

theorem read_eq_of_none {q : Path} (hf : s.lookup s.mem q.chars = none)
    (hf' : s'.lookup s'.mem q.chars = none) (env : Env) (size : UInt64) (offset : Int64) :
    (s'.read env q.chars size offset).map Prod.snd =
      (s.read env q.chars size offset).map Prod.snd := by
  simp only [read, hf, hf', Option.map_some]

/-- What is reported about a file that is kept. -/
theorem KeepsFile.replies {ps ps' : List Path} (hs : s.Separate ps) (hs' : s'.Separate ps')
    (hr : s.InRange) (hr' : s'.InRange) {q : Path} {b : Nat} {l : List Nat}
    (hf : s.lookup s.bit q.chars = some b) (hl : LinkedChain s.next b l) (hk : s.KeepsFile s' b l) :
    (s'.getattr q.chars).2 = (s.getattr q.chars).2 ∧
      ∀ env size offset, (s'.read env q.chars size offset).map Prod.snd =
        (s.read env q.chars size offset).map Prod.snd := by
  obtain ⟨hb, hn⟩ := heads_of_lookup hf
  have hf' : s'.lookup s'.bit q.chars = some b :=
    (hs'.lists.lookup_iff q b).mpr ⟨hk.heads, by rw [hk.header]; exact hn⟩
  refine ⟨hk.getattr_eq hf hf', hk.read_eq ?_ ?_ ?_ ?_⟩
  · rw [hs.names.lookup, hf]
  · rw [hs'.names.lookup, hf']
  · exact (hr.chain_iff hb.1 hb.2.1).mpr hl
  · exact (hr'.chain_iff hb.1 hb.2.1).mpr hk.chain

/-- A call on one path leaves what is reported about another path as it was. -/
theorem Separate.isolated {c : Env × Call} {r : Reply} {h : History} (hs : s.Separate (livePaths h))
    (hr : s.InRange) (hr' : s'.InRange) (hok : separates h s c) (hstep : s.Step c s' r) {p q : Path}
    (hc : c.2.Changes p) (hne : q ≠ p) :
    (s'.getattr q.chars).2 = (s.getattr q.chars).2 ∧
      ∀ env size offset, (s'.read env q.chars size offset).map Prod.snd =
        (s.read env q.chars size offset).map Prod.snd := by
  have hs' := hs.step hr hok hstep
  have hlive := livePaths_other hc hne r h
  cases hf : s.lookup s.bit q.chars with
  | some b =>
    obtain ⟨hb, hn⟩ := heads_of_lookup hf
    obtain ⟨l, hl, _⟩ := hs.chained.chain b hb
    refine (hs.keepsFile hr hok hstep hc hb (fun he => hne ?_) hl).replies hs hs' hr hr' hf hl
    exact Path.chars_inj (hn.symm.trans he)
  | none =>
    have hout : q ∉ livePaths h := fun hq => (hs.lists.live_iff q).mpr hq hf
    have hf' : s'.lookup s'.bit q.chars = none := by
      by_contra hc'
      exact hout (hlive.mp ((hs'.lists.live_iff q).mp hc'))
    refine ⟨getattr_eq_of_none hf hf', read_eq_of_none ?_ ?_⟩
    · rw [hs.names.lookup, hf]
    · rw [hs'.names.lookup, hf']

end Blocks

/-- What a call hands back on the volume is what it hands back on the block level. -/
theorem replies_eq {w : World} {mode : OpenMode} {s : Blocks} (hs : w.Shows mode s) (c : Env × Call) :
    (fuseCall w c).map Prod.snd = (s.call c).map Prod.snd := by
  have hrel := fuseCall_refines hs c
  cases hw : fuseCall w c with
  | none =>
    rw [hw] at hrel
    cases hc : s.call c with
    | none => rfl
    | some t =>
      rw [hc] at hrel
      cases hrel
  | some t =>
    obtain ⟨_, s', _, hc⟩ := fuseCall_some hs hw
    rw [hc]
    rfl

/-- Files are isolated while every call meets `separates`. -/
theorem files_isolated {h : History} {w w' : World} {c : Env × Call} {r : Reply}
    (hr : Reaches separates h w) (hok : separates h w.view c) (hcall : fuseCall w c = some (w', r))
    {p q : Path} (hc : c.2.Changes p) (hne : q ≠ p) (env : Env) :
    (fuseCall w' (env, .getattr (some q))).map Prod.snd =
        (fuseCall w (env, .getattr (some q))).map Prod.snd ∧
      ∀ size offset, (fuseCall w' (env, .read q size offset)).map Prod.snd =
        (fuseCall w (env, .read q size offset)).map Prod.snd := by
  obtain ⟨⟨mode, hs⟩, hrun⟩ := hr.blockRun
  obtain ⟨mode', s', hs', hb⟩ := fuseCall_some hs hcall
  obtain ⟨hattr, hread⟩ := (hrun.separate (fun _ _ _ hg => hg)).isolated hs.range hs'.range hok
    (Blocks.step_of_call hb) hc hne
  refine ⟨?_, fun size offset => ?_⟩
  · rw [replies_eq hs, replies_eq hs']
    exact congrArg some hattr
  · rw [replies_eq hs, replies_eq hs']
    exact hread env size offset

set_option maxRecDepth 100000 in
theorem files_isolated_write : ∃ w w' r,
    fuseCall w (plain (.write pathA (fun _ => 88) 5000 3)) = some (w', r) ∧
      (fuseCall w (plain (.read pathB 10 0))).map Prod.snd = some (.data 2 [89, 89]) ∧
      (fuseCall w' (plain (.read pathB 10 0))).map Prod.snd = some (.data 2 [89, 89]) := by
  obtain ⟨h, s, hr, hc⟩ := blockRun_of_plays separates
    [plain (.create pathA), plain (.create pathB), plain (.write pathB (fun _ => 89) 2 0),
      plain (.write pathA (fun _ => 88) 5000 0), plain (.truncate pathA 9000)]
    (fun h s => separates h s (plain (.write pathA (fun _ => 88) 5000 3)) ∧
      (s.call (plain (.write pathA (fun _ => 88) 5000 3))).isSome ∧
      (s.call (plain (.read pathB 10 0))).map Prod.snd = some (.data 2 [89, 89]))
    (by decide +kernel)
  obtain ⟨hok, hsome, hread⟩ := of_decide_eq_true hc
  obtain ⟨⟨s', r⟩, hcall⟩ := Option.isSome_iff_exists.mp hsome
  obtain ⟨w, mode, hs, hrun⟩ := hr.reaches
  obtain ⟨_, w', hw, _⟩ := call_some hs hcall
  have hbefore := (replies_eq hs (plain (.read pathB 10 0))).trans hread
  rw [← hs.view] at hok
  have hiso := files_isolated (q := pathB) hrun hok hw rfl (by decide) (plain (.read pathB 10 0)).1
  exact ⟨w, w', r, hw, hbefore, (hiso.2 10 0).trans hbefore⟩

set_option maxRecDepth 100000 in
/-- A write to `/a` takes a block whose header still names `/x`, which was unlinked. -/
theorem write_revives_other_file : ¬∀ h w w' c r p q env, Reaches anyCall h w →
    fuseCall w c = some (w', r) → c.2.Changes p → q ≠ p →
      (fuseCall w' (env, .getattr (some q))).map Prod.snd =
        (fuseCall w (env, .getattr (some q))).map Prod.snd := by
  intro hall
  obtain ⟨h, s, hr, hc⟩ := blockRun_of_plays anyCall
    [plain (.create pathX), plain (.create pathA), plain (.unlink pathX)]
    (fun _ s => s.lookup s.bit pathX.chars = none ∧
      (s.call (plain (.write pathA (fun _ => 88) 5000 0))).any
        (fun t => t.1.lookup t.1.bit pathX.chars ≠ none))
    (by decide +kernel)
  obtain ⟨hf, hsome⟩ := of_decide_eq_true hc
  obtain ⟨⟨s', r⟩, hcall, hf'⟩ := (Option.any_eq_true _ _).mp hsome
  obtain ⟨w, mode, hs, hrun⟩ := hr.reaches
  obtain ⟨_, w', hw, hs'⟩ := call_some hs hcall
  have he := hall h w w' _ r pathA pathX (plain (.getattr (some pathX))).1 hrun hw rfl (by decide)
  rw [replies_eq hs, replies_eq hs'] at he
  have he : (s'.getattr pathX.chars).2 = (s.getattr pathX.chars).2 := Option.some.inj he
  rw [(s.getattr_enoent pathX).mpr hf, s'.getattr_enoent] at he
  exact of_decide_eq_true hf' he

/-- A write that takes blocks leaves the chain no longer than the staging buffer. -/
def Blocks.FitsBuffer (s : Blocks) : Call → Prop
  | .write path _ size offset => ∀ b ∈ s.lookup s.mem path.chars, ∀ l ∈ s.chain b,
      (newSize size offset).toInt ≤ maxRequestSize → 0 < Blocks.lacking l (newSize size offset) →
        freeBlocks s.mem = [] ∨
          blocksFor (loopSize (newSize size offset)) ≤ maxRequestSize / usableSpace
  | _ => True

def fitsBuffer (h : History) (s : Blocks) (c : Env × Call) : Prop :=
  separates h s c ∧ s.FitsBuffer c.2

instance (s : Blocks) (c : Call) : Decidable (s.FitsBuffer c) := by
  rcases c <;> unfold Blocks.FitsBuffer <;> infer_instance

instance : ∀ h s c, Decidable (fitsBuffer h s c) := fun h s c =>
  inferInstanceAs (Decidable (separates h s c ∧ s.FitsBuffer c.2))

namespace Blocks

variable {s s' : Blocks}

/-- The blocks of every file fit the staging buffer. -/
def Short (s : Blocks) : Prop :=
  ∀ i l, s.Heads i → LinkedChain s.next i l → l.length ≤ maxRequestSize / usableSpace

theorem Short.of_next (h : s.Short) (hh : ∀ i, s'.Heads i → s.Heads i) (hn : s'.next = s.next) :
    s'.Short := by
  intro i l hi hl
  rw [hn] at hl
  exact h i l (hh i hi) hl

theorem Short.of_names (h : s.Short) (hb : s'.bit = s.bit) (hn : s'.next = s.next)
    (hname : ∀ i, (s'.hdr i).name = (s.hdr i).name) : s'.Short :=
  h.of_next (fun i hi => (heads_congr hb hname i).mp hi) hn

theorem taken_length {l : List Nat} {y : Int32} (hroom : lacking l y ≤ (freeBlocks s.mem).length) :
    (s.taken l y).length = lacking l y := by
  rw [taken, List.length_take, Nat.min_eq_left hroom]

theorem Short.write (hsh : s.Short) {ps : List Path} (hs : s.Separate ps) (hr : s.InRange) {env : Env}
    {b : Nat} {l : List Nat} {y : Int32} {buffer : Int → UInt8} {filled : List Nat} (hb : s.Heads b)
    (hl : LinkedChain s.next b l) (hcover : ∀ i ∈ blockRange, s.bit i = 1 → s.mem i = 1)
    (hclean : ∀ t ∈ (s.taken l y).getLast?, (s.hdr t).name = [] ∧ (s.hdr t).next = 0)
    (hlen : (l ++ s.taken l y).length ≤ maxRequestSize / usableSpace) :
    { s.written env b l y buffer filled with bit := mark s.mem (s.taken l y) 1 }.Short := by
  obtain ⟨hself, hother⟩ := hs.chained.written_chains hr env buffer filled hb hl hcover hclean
  intro i m hi hm
  have hi : s.Heads i :=
    (hs.names.written_heads _ _ _ _ (fun t ht => (hclean t ht).1) (Or.inl rfl) i).mp hi
  by_cases hib : i = b
  · subst i
    rwa [LinkedChain.unique hm hself]
  · obtain ⟨k, hk, _⟩ := hs.chained.chain i hi
    rw [LinkedChain.unique hm (hother i k hi hib hk)]
    exact hsh i k hi hk

theorem Short.step {ps : List Path} {h : History} {c : Env × Call} {r : Reply} (hsh : s.Short)
    (hs : s.Separate ps) (hr : s.InRange) (hok : fitsBuffer h s c) (hstep : s.Step c s' r) :
    s'.Short := by
  cases hstep with
  | look | writeNone | writeBig | truncateNone | keep | reload | shrink | grow => exact hsh
  | @touch env _ _ _ b =>
    exact hsh.of_names rfl (s.touched_next env b) (s.touched_name env b)
  | @write env p _ size offset b l hf hl hmax hroom =>
    obtain ⟨hb, hn⟩ := (hs.lookup_mem p b).mp hf
    have hlc := LinkedChain.of_follow hl
    rcases hok.1.1 b hf l hl hmax with ⟨hfree, hlack⟩ | ⟨_, hcover, hclean⟩
    · rw [hfree] at hroom
      exact absurd hroom (Nat.not_le.mpr hlack)
    · refine hsh.write hs hr hb hlc hcover hclean ?_
      rw [List.length_append, taken_length hroom]
      rcases Nat.eq_zero_or_pos (lacking l (newSize size offset)) with h0 | hpos
      · rw [h0]
        exact hsh b l hb hlc
      · rcases hok.2 b hf l hl hmax hpos with hfree | hle
        · rw [hfree] at hroom
          exact absurd hroom (Nat.not_le.mpr hpos)
        · rw [lacking] at hpos ⊢
          omega
  | @starve env p _ size offset b l hf hl hmax hroom =>
    rcases hok.1.1 b hf l hl hmax with ⟨hfree, _⟩ | ⟨hle, _, _⟩
    · obtain ⟨hnext, hname⟩ := written_full hfree env b l (newSize size offset) _ _
      exact hsh.of_names rfl hnext hname
    · exact absurd hroom (Nat.not_lt.mpr hle)
  | unlink hf hl =>
    exact hsh.of_next (fun i hi => ⟨hi.1, hi.2.1, (mark_zero_iff.mp hi.2.2.1).2, hi.2.2.2⟩) rfl
  | @leak _ p j hf hj hlen =>
    refine hsh.of_next (fun i hi => ⟨hi.1, hi.2.1, ?_, hi.2.2.2⟩) rfl
    refine (mark_one_iff.mp hi.2.2.1).resolve_left (fun hij => hi.2.2.2 ?_)
    rw [List.mem_singleton.mp hij]
    exact hok.1.1 hlen hf j hj
  | @create env p j hf hj hlen =>
    obtain ⟨_, _, h0⟩ := firstFree_some hj
    intro i l hi hl
    by_cases hij : i = j
    · subst i
      have hnone : links (Function.update s.hdr j (s.createHead env p.chars)) j = none := by
        rw [links, Function.update_self]
        rfl
      rw [LinkedChain.unique hl (.last hnone)]
      show 1 ≤ maxRequestSize / usableSpace
      decide
    · have hold : s.Heads i := by
        obtain ⟨h1, hlt, hbi, hn⟩ := hi
        change (Function.update s.hdr j _ i).name ≠ [] at hn
        rw [Function.update_of_ne hij] at hn
        exact ⟨h1, hlt, (mark_one_iff.mp hbi).resolve_left (by simpa using hij), hn⟩
      obtain ⟨m, hm, hmark⟩ := hs.chained.chain i hold
      have hm' : LinkedChain (links (Function.update s.hdr j (s.createHead env p.chars))) i m := by
        refine hm.congr (fun x hx => links_update_of_ne ?_)
        rintro rfl
        have hbx := (hmark x hx).1
        rw [h0] at hbx
        exact absurd hbx (by decide)
      rw [LinkedChain.unique hl hm']
      exact hsh i m hold hm

end Blocks

/-- The chains that lookups return fit the staging buffer while every call meets `fitsBuffer`. -/
theorem chains_fit_buffer {h : History} {w : World} (hr : Reaches fitsBuffer h w) {p : Path} {b : Nat}
    (hf : w.view.lookup w.view.mem p.chars = some b ∨ w.view.lookup w.view.bit p.chars = some b) :
    ∃ l, LinkedChain w.view.next b l ∧ l.length ≤ maxRequestSize / usableSpace := by
  obtain ⟨_, hrun⟩ := hr.blockRun
  have hboth : w.view.Separate (livePaths h) ∧ w.view.Short := hrun.invariant
    (P := fun h s => s.Separate (livePaths h) ∧ s.Short)
    ⟨Blocks.fresh_separate, fun i _ hi => absurd hi (Blocks.fresh_heads i)⟩
    (fun h s c _ _ hrange hp hok hc => ⟨hp.1.step hrange hok.1 (Blocks.step_of_call hc),
      hp.2.step hp.1 hrange hok (Blocks.step_of_call hc)⟩)
  obtain ⟨hs, hsh⟩ := hboth
  rw [hs.names.lookup, or_self] at hf
  have hb := (Blocks.heads_of_lookup hf).1
  obtain ⟨l, hl, _⟩ := hs.chained.chain b hb
  exact ⟨l, hl, hsh b l hb hl⟩

set_option maxRecDepth 100000 in
theorem chains_fit_buffer_full : ∃ h w, Reaches fitsBuffer h w ∧
    w.view.lookup w.view.mem pathA.chars = some 1 ∧
    ∃ l, LinkedChain w.view.next 1 l ∧ l.length ≤ maxRequestSize / usableSpace := by
  obtain ⟨h, w, hr, hc⟩ := reaches_of_plays fitsBuffer
    [plain (.create pathA), plain (.write pathA (fun _ => 88) 5000 0)]
    (fun _ s => s.lookup s.mem pathA.chars = some 1) (by decide +kernel)
  have hf := of_decide_eq_true hc
  exact ⟨h, w, hr, hf, chains_fit_buffer hr (Or.inl hf)⟩

set_option maxRecDepth 100000 in
/-- A write of 130000 bytes builds a chain of 33 blocks. -/
theorem large_write_overruns_buffer : ¬∀ h w, Reaches anyCall h w → ∀ p : Path, ∀ b,
    w.view.lookup w.view.mem p.chars = some b ∨ w.view.lookup w.view.bit p.chars = some b →
      ∃ l, LinkedChain w.view.next b l ∧ l.length ≤ maxRequestSize / usableSpace := by
  intro hall
  obtain ⟨h, s, hr, hc⟩ := blockRun_of_plays anyCall
    [plain (.create pathA), plain (.write pathA (fun _ => 88) 130000 0)]
    (fun _ s => s.lookup s.mem pathA.chars = some 1 ∧
      (s.chain 1).any (fun l => decide (l.length = 33))) (by decide +kernel)
  obtain ⟨hf, hlen⟩ := of_decide_eq_true hc
  obtain ⟨m, hm, hlen⟩ := (Option.any_eq_true _ _).mp hlen
  obtain ⟨w, mode, hs, hrun⟩ := hr.reaches
  obtain ⟨l, hl, hle⟩ := hall h w hrun pathA 1 (Or.inl (by rw [hs.view]; exact hf))
  rw [hs.view] at hl
  rw [hl.unique (LinkedChain.of_follow hm), of_decide_eq_true hlen] at hle
  exact absurd hle (by decide)

end FreeBSDEdits
