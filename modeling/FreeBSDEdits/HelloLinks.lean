import FreeBSDEdits.HelloCoherence

namespace FreeBSDEdits

/-- The successor that a header names. -/
def Metadata.successor (md : Metadata) : Option Nat :=
  if md.next = 0 then none else some md.next.toInt.toNat

theorem Metadata.successor_eq {md : Metadata} {b : Nat} (h1 : 1 ≤ b) (hb : b < numBlocks)
    (hn : md.next = .ofNat b) : md.successor = some b := by
  have hi := toInt_ofNat hb
  have h0 : md.next ≠ 0 := by
    intro he
    rw [int32_eq_zero_iff, hn, hi] at he
    omega
  rw [successor, if_neg h0, hn, hi]
  rfl

/-- The links between blocks. -/
def links (hdr : Nat → Metadata) (b : Nat) : Option Nat := (hdr b).successor

theorem links_update_of_ne {hdr : Nat → Metadata} {a b : Nat} {md : Metadata} (h : a ≠ b) :
    links (Function.update hdr b md) a = links hdr a := by
  simp [links, h]

/-- Only `current` and the blocks before the last one get new headers. -/
theorem linkBlocks_off {got : List Nat} {hdr : Nat → Metadata} {md : Metadata} {current x : Nat}
    (hx : x ∉ (current :: got).dropLast) : linkBlocks hdr md current got x = hdr x := by
  induction got generalizing hdr md current with
  | nil => rfl
  | cons g gs ih =>
    rw [List.dropLast_cons_cons, List.mem_cons, not_or] at hx
    rw [linkBlocks, ih hx.2, Function.update_of_ne hx.1]

/-- The linked blocks form a chain, which goes on with the old chain of the last one. -/
theorem linkBlocks_chain {got : List Nat} {g : Nat} {hdr : Nat → Metadata} {md : Metadata}
    {current : Nat} {m : List Nat} (hin : ∀ x ∈ g :: got, 1 ≤ x ∧ x < numBlocks)
    (hd : (g :: got).Nodup)
    (hm : LinkedChain (links (linkBlocks hdr md current (g :: got))) ((g :: got).getLast (by simp)) m) :
    LinkedChain (links (linkBlocks hdr md current (g :: got))) g ((g :: got).dropLast ++ m) := by
  induction got generalizing g hdr md current with
  | nil => exact hm
  | cons g' gs ih =>
    obtain ⟨h1, hlt⟩ := hin g' (by simp)
    have hrest : LinkedChain (links (linkBlocks (Function.update hdr current
        { md with next := .ofNat g }) .zero g (g' :: gs))) g' ((g' :: gs).dropLast ++ m) :=
      ih (fun x hx => hin x (List.mem_cons_of_mem g hx)) hd.tail hm
    have hg : g ∉ (g' :: gs).dropLast := fun hh => (List.nodup_cons.mp hd).1 (List.dropLast_subset _ hh)
    refine .link ?_ hrest
    rw [links, linkBlocks, linkBlocks, linkBlocks_off hg, Function.update_self]
    exact Metadata.successor_eq h1 hlt rfl

theorem linkBlocks_first {got : List Nat} {g : Nat} {hdr : Nat → Metadata} {md : Metadata}
    {current : Nat} (h1 : 1 ≤ g) (hlt : g < numBlocks) (hc : current ∉ (g :: got).dropLast) :
    links (linkBlocks hdr md current (g :: got)) current = some g := by
  rw [links, linkBlocks, linkBlocks_off hc, Function.update_self]
  exact Metadata.successor_eq h1 hlt rfl

/-- Linking blocks leaves every chain ending if the old chain of the last block avoids the others. -/
theorem linkBlocks_ends {got : List Nat} {g : Nat} {hdr : Nat → Metadata} {md : Metadata}
    {current : Nat} {m : List Nat} (hin : ∀ x ∈ g :: got, 1 ≤ x ∧ x < numBlocks)
    (hd : (g :: got).Nodup) (hm : LinkedChain (links hdr) ((g :: got).getLast (by simp)) m)
    (havoid : ∀ x ∈ (current :: g :: got).dropLast, x ∉ m)
    (hends : ∀ b, ∃ l, LinkedChain (links hdr) b l) (b : Nat) :
    ∃ l, LinkedChain (links (linkBlocks hdr md current (g :: got))) b l := by
  have hoff : ∀ x, x ∉ (current :: g :: got).dropLast →
      links (linkBlocks hdr md current (g :: got)) x = links hdr x := by
    intro x hx
    rw [links, linkBlocks_off hx, links]
  have hlast : LinkedChain (links (linkBlocks hdr md current (g :: got)))
      ((g :: got).getLast (by simp)) m := hm.congr (fun x hx => hoff x (fun hr => havoid x hr hx))
  have hchain := linkBlocks_chain hin hd hlast
  -- the blocks taken lie on the chain of the first one
  have hgot : ∀ x ∈ (g :: got).dropLast,
      ∃ l, LinkedChain (links (linkBlocks hdr md current (g :: got))) x l := by
    intro x hx
    obtain ⟨_, back, _, hb⟩ := hchain.suffix_of_mem (List.mem_append_left m hx)
    exact ⟨back, hb⟩
  obtain ⟨l, hl⟩ := hends b
  refine hl.ends_of_redirect hoff (fun x hx => ?_)
  rw [List.dropLast_cons_cons] at hx
  by_cases hc : x ∈ (g :: got).dropLast
  · exact hgot x hc
  · rcases List.mem_cons.mp hx with rfl | hx
    · obtain ⟨h1, hlt⟩ := hin g (by simp)
      exact ⟨_, .link (linkBlocks_first h1 hlt hc) hchain⟩
    · exact absurd hx hc

/-- The block that becomes the last one of a chain has an old chain of its own that avoids the
blocks being linked. -/
def linksSafely (_ : History) (s : Blocks) : Env × Call → Prop
  | (_, .write path _ size offset) => ∀ b ∈ s.lookup s.mem path.chars, ∀ l ∈ s.chain b,
      (newSize size offset).toInt ≤ maxRequestSize →
        ∀ t ∈ (s.taken l (newSize size offset)).getLast?, ∀ m ∈ s.chain t,
          ∀ x ∈ (l.getLastD b :: s.taken l (newSize size offset)).dropLast, x ∉ m
  | _ => True

instance : ∀ h s c, Decidable (linksSafely h s c) := by
  intro h s c
  obtain ⟨_, c⟩ := c
  rcases c <;> unfold linksSafely <;> infer_instance

namespace Blocks

variable {s s' : Blocks}

/-- Every chain ends, also one that no lookup returns. -/
def Ends (s : Blocks) : Prop := ∀ b, ∃ l, LinkedChain s.next b l

theorem Ends.written (h : s.Ends) (hr : s.InRange) (env : Env) (b : Nat) (l : List Nat) (x : Int32)
    (buffer : Int → UInt8) (filled : List Nat)
    (hsafe : ∀ t ∈ (s.taken l x).getLast?, ∀ m ∈ s.chain t,
      ∀ y ∈ (l.getLastD b :: s.taken l x).dropLast, y ∉ m) :
    (s.written env b l x buffer filled).Ends := by
  have hhead : links (Function.update s.hdr b (s.writeHead env b x)) = s.next :=
    next_update (s := s) rfl
  intro c
  change ∃ m, LinkedChain (links (linkBlocks _ _ _ _)) c m
  cases hg : s.taken l x with
  | nil =>
    simp only [linkBlocks]
    rw [hhead]
    exact h c
  | cons g got =>
    have hfree : ∀ y ∈ g :: got, y ∈ freeBlocks s.mem := fun y hy => taken_free (hg ▸ hy)
    have hin : ∀ y ∈ g :: got, 1 ≤ y ∧ y < numBlocks :=
      fun y hy => ⟨(mem_freeBlocks.mp (hfree y hy)).1, (mem_freeBlocks.mp (hfree y hy)).2.1⟩
    have hd : (g :: got).Nodup := hg ▸ (freeBlocks_nodup s.mem).sublist (List.take_sublist _ _)
    obtain ⟨m, hm⟩ := h ((g :: got).getLast (by simp))
    have hlast := hin _ (List.getLast_mem (by simp : g :: got ≠ []))
    have hmc := (hr.chain_iff hlast.1 hlast.2).mpr hm
    rw [hg] at hsafe
    rw [← hhead] at hm
    exact linkBlocks_ends hin hd hm (hsafe _ (List.getLast?_eq_getLast_of_ne_nil (by simp)) m hmc)
      (by rw [hhead]; exact h) c

theorem Ends.step (h : s.Ends) (hr : s.InRange) {hist : History} {c : Env × Call} {r : Reply}
    (hok : linksSafely hist s c) (hs : s.Step c s' r) : s'.Ends := by
  cases hs with
  | look | writeNone | writeBig | truncateNone | keep | reload | shrink | grow | unlink | leak =>
    exact h
  | @touch env _ _ _ b =>
    have hn : next { s with
        hdr := Function.update s.hdr b { s.hdr b with accessTime := env.now 0 } } = s.next :=
      next_update rfl
    intro c
    rw [hn]
    exact h c
  | @write env _ _ _ _ b l hf hl hmax _ =>
    exact h.written hr env b l _ env.buffer [] (hok b hf l hl hmax)
  | @starve env _ _ _ _ b l hf hl hmax _ =>
    exact h.written hr env b l _ env.buffer [] (hok b hf l hl hmax)
  | @create env path i _ _ _ =>
    intro c
    obtain ⟨l, hl⟩ := h c
    refine hl.ends_of_redirect (r := [i]) (fun x hx => ?_) (fun x hx => ?_)
    · exact links_update_of_ne (by simpa using hx)
    · have hx' : x = i := by simpa using hx
      subst x
      refine ⟨[i], .last ?_⟩
      change (Function.update s.hdr i _ i).successor = none
      rw [Function.update_self]
      rfl

theorem Ends.chain_some (h : s.Ends) (hr : s.InRange) {b : Nat} (h1 : 1 ≤ b) (hb : b < numBlocks) :
    ∃ l, s.chain b = some l := by
  obtain ⟨l, hl⟩ := h b
  exact ⟨l, (hr.chain_iff h1 hb).mpr hl⟩

/-- Where every chain ends, every call comes to an end. -/
theorem Ends.call_ne_none (h : s.Ends) (hr : s.InRange) (c : Env × Call) : s.call c ≠ none := by
  have hmap : ∀ {marks path b} {f : List Nat → Blocks × Reply}, s.lookup marks path = some b →
      (s.chain b).map f ≠ none := by
    intro marks path b f hf
    obtain ⟨h1, hb, _, _⟩ := lookup_some hf
    obtain ⟨l, hl⟩ := h.chain_some hr h1 hb
    simp [hl]
  obtain ⟨env, c⟩ := c
  cases c with
  | getattr | readdir | «open» | create => exact Option.some_ne_none _
  | read path size offset =>
    change s.read env path.chars size offset ≠ none
    unfold read
    split
    next => exact Option.some_ne_none _
    next b hf => exact hmap hf
  | write path buf size offset =>
    change s.write env path.chars buf size offset ≠ none
    unfold write
    split
    next => exact Option.some_ne_none _
    next b hf => exact hmap hf
  | truncate path size =>
    change s.truncate path.chars size ≠ none
    unfold truncate
    split
    next => exact Option.some_ne_none _
    next b hf =>
      simp only
      split
      next =>
        split
        next => exact Option.some_ne_none _
        next h0 =>
          have hlt : s.rawNext^[blocksFor (cSize size.toInt)] b < numBlocks := by
            rw [blocksFor, Function.iterate_succ_apply']
            exact hr.rawNext_lt _
          obtain ⟨l, hl⟩ := h.chain_some hr (Nat.pos_of_ne_zero h0) hlt
          simp [hl]
      next =>
        split
        next => split <;> exact Option.some_ne_none _
        next => exact Option.some_ne_none _
  | unlink path =>
    change s.unlink path.chars ≠ none
    unfold unlink
    split
    next => exact Option.some_ne_none _
    next b hf => exact hmap hf

end Blocks

/-- The chain of every block that a lookup can return ends within the volume, and so does every
call, while no write makes a block with a bad old successor the last one of a chain. -/
theorem chains_end_while_linksSafely {h : History} {w : World} (hr : Reaches linksSafely h w) :
    (∀ path b, w.view.lookup w.view.mem path = some b ∨ w.view.lookup w.view.bit path = some b →
      ∃ l, LinkedChain w.view.next b l ∧ l.length ≤ numBlocks - 1) ∧
    ∀ c, fuseCall w c ≠ none := by
  obtain ⟨⟨mode, hs⟩, hrun⟩ := hr.blockRun
  have he : w.view.Ends := hrun.invariant (P := fun _ s => s.Ends) (fun b => ⟨[b], .last rfl⟩)
    (fun _ _ _ _ _ hrange hp hok hc => hp.step hrange hok (Blocks.step_of_call hc))
  refine ⟨fun path b hf => ?_, fun c hc => ?_⟩
  · obtain ⟨l, hl⟩ := he b
    have hin : 1 ≤ b ∧ b < numBlocks := by
      rcases hf with hf | hf
      · exact ⟨(Blocks.lookup_some hf).1, (Blocks.lookup_some hf).2.1⟩
      · exact ⟨(Blocks.lookup_some hf).1, (Blocks.lookup_some hf).2.1⟩
    exact ⟨l, hl, Nat.le_sub_one_of_lt (hs.range.chain_length hl hin.1 hin.2)⟩
  · have hrel := fuseCall_refines hs c
    rw [hc] at hrel
    cases hb : w.view.call c with
    | none => exact he.call_ne_none hs.range c hb
    | some t =>
      rw [hb] at hrel
      cases hrel

set_option maxRecDepth 100000 in
theorem chains_end_while_linksSafely_three_blocks : ∃ h w, Reaches linksSafely h w ∧
    w.view.chain 1 = some [1, 2, 3] ∧ ∀ c, fuseCall w c ≠ none := by
  obtain ⟨h, w, hr, hc⟩ := reaches_of_plays linksSafely
    [plain (.create pathA), plain (.write pathA (fun _ => 88) 5000 0),
      plain (.write pathA (fun _ => 89) 5000 5000)]
    (fun _ s => s.chain 1 = some [1, 2, 3]) (by decide +kernel)
  exact ⟨h, w, hr, of_decide_eq_true hc, (chains_end_while_linksSafely hr).2⟩

set_option maxRecDepth 100000 in
/-- Block 2 keeps `next = 1` from an earlier file and becomes the last block of a chain that starts
with block 1. -/
theorem stale_next_makes_a_cycle : ¬∀ h w, Reaches anyCall h w → ∀ path b,
    w.view.lookup w.view.mem path = some b ∨ w.view.lookup w.view.bit path = some b →
      ∃ l, LinkedChain w.view.next b l ∧ l.length ≤ numBlocks - 1 := by
  intro hall
  obtain ⟨h, w, hr, hc⟩ := reaches_of_plays anyCall
    [plain (.create pathX), plain (.create pathA), plain (.unlink pathX),
      plain (.write pathA (fun _ => 88) 9000 0), plain (.unlink pathA), plain (.create pathB),
      plain (.write pathB (fun _ => 89) 5000 0)]
    (fun _ s => s.lookup s.bit pathB.chars = some 1 ∧ s.chain 1 = none) (by decide +kernel)
  obtain ⟨hf, hn⟩ := of_decide_eq_true hc
  obtain ⟨l, hl, _⟩ := hall h w hr _ _ (Or.inr hf)
  obtain ⟨⟨mode, hs⟩, _⟩ := hr.blockRun
  have hsome := (hs.range.chain_iff (by decide) (by decide)).mpr hl
  rw [hn] at hsome
  cases hsome

end FreeBSDEdits
