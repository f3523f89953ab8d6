import FreeBSDEdits.HelloTwins

namespace FreeBSDEdits

namespace Blocks

/-- Byte `k` is none that the file had on its chain, a write makes it one, and the bytes written do
not cover it. -/
def Exposes (s : Blocks) (b : Nat) (l : List Nat) (size : UInt64) (offset : Int64) (k : Nat) : Prop :=
  ((s.hdr b).fileSize.toInt ≤ k ∨ usableSpace * l.length ≤ k) ∧
    (k < usableSpace * l.length ∨ lacking l (newSize size offset) ≤ (freeBlocks s.mem).length) ∧
      ¬(offset.toInt ≤ k ∧ k < offset.toInt + size.toNat ∧
        (lacking l (newSize size offset) ≤ (freeBlocks s.mem).length ∨
          k < usableSpace * (l.length - 1)))

/-- Of what the blocks held behind the end of the file, and of what the stack held behind the blocks,
a write makes only zeros a part of one of the files `ps`, and a read returns only zeros of the stack. -/
def Hides (s : Blocks) (ps : List Path) : Env × Call → Prop
  | (env, .write p _ size offset) => p ∈ ps → ∀ b ∈ s.lookup s.mem p.chars, ∀ l ∈ s.chain b,
      (newSize size offset).toInt ≤ maxRequestSize →
        ∀ k < (newSize size offset).toInt.toNat, s.Exposes b l size offset k →
          stageBlocks s.dat l 0 env.buffer k = 0
  | (env, .read p size offset) => p ∈ ps → ∀ b ∈ s.lookup s.mem p.chars, ∀ l ∈ s.chain b,
      ∀ k < (s.hdr b).fileSize.toInt.toNat, usableSpace * l.length ≤ k →
        offset.toInt ≤ k → (k : Int) < offset.toInt + size.toNat → env.buffer k = 0
  | _ => True

instance (s : Blocks) (b : Nat) (l : List Nat) (size : UInt64) (offset : Int64) (k : Nat) :
    Decidable (s.Exposes b l size offset k) := by
  unfold Exposes
  infer_instance

instance (s : Blocks) (ps : List Path) (c : Env × Call) : Decidable (s.Hides ps c) := by
  obtain ⟨env, c⟩ := c
  rcases c <;> unfold Hides <;> infer_instance

end Blocks

/-- The files stay apart and fit the staging buffer, and from the `n`-th call on writes and reads of
files created since then show no data but that of the file. -/
def hides (n : Nat) (h : History) (s : Blocks) (c : Env × Call) : Prop :=
  fitsBuffer h s c ∧ (n ≤ h.length → s.Hides (livePaths (h.take (h.length - n))) c)

instance (n : Nat) : ∀ h s c, Decidable (hides n h s c) := fun h s c =>
  inferInstanceAs (Decidable (fitsBuffer h s c ∧ (n ≤ h.length → _)))

theorem livePaths_append {p : Path} (post : History) {h : History} (hp : p ∈ livePaths post) :
    p ∈ livePaths (post ++ h) := by
  induction post with
  | nil => exact absurd hp List.not_mem_nil
  | cons e post ih =>
    obtain ⟨c, r⟩ := e
    by_cases hq : Quiet c r
    · rw [List.cons_append, livePaths_quiet hq]
      rw [livePaths_quiet hq] at hp
      exact ih hp
    · obtain ⟨rfl, env, q, rfl | rfl⟩ := of_not_quiet hq
      · rcases List.mem_cons.mp hp with rfl | hp
        · exact List.mem_cons_self
        · exact List.mem_cons_of_mem q (ih hp)
      · obtain ⟨hp, hne⟩ := List.mem_filter.mp hp
        exact List.mem_filter.mpr ⟨ih hp, hne⟩

/-- A path gets live by a create. -/
theorem created_of_live {p : Path} {c : Env × Call} {r : Reply} {h : History}
    (hp : p ∈ livePaths ((c, r) :: h)) (hnew : p ∉ livePaths h) :
    r = .ok ∧ ∃ env, c = (env, .create p) := by
  by_cases hq : Quiet c r
  · rw [livePaths_quiet hq] at hp
    exact absurd hp hnew
  · obtain ⟨rfl, env, q, rfl | rfl⟩ := of_not_quiet hq
    · rcases List.mem_cons.mp hp with rfl | hp
      · exact ⟨rfl, env, rfl⟩
      · exact absurd hp hnew
    · exact absurd (List.mem_filter.mp hp).1 hnew

namespace Blocks

variable {s s' t t' : Blocks} {ps : List Path} {p : Path} {b : Nat} {l : List Nat}

/-- A file of which `d` holds the same bytes as the volume, as far as its size goes. -/
structure SameBytes (s : Blocks) (d : Nat → Nat → UInt8) (p : Path) (b : Nat) (l : List Nat) : Prop where
  file : s.FileAt p b l
  bytes : ∀ k < usableSpace * l.length, (k : Int) < (s.hdr b).fileSize.toInt →
    chainByte d l k = chainByte s.dat l k

theorem Twin.fileAt (ht : s.Twin t) (h : s.FileAt p b l) : t.FileAt p b l :=
  h.congr ht.bit (fun i => (ht.hdr i).name) ht.next

/-- On twins whose file `p` holds the same bytes every read of it that hides the stack returns the
same. -/
theorem SameBytes.read_eq (h : s.SameBytes t.dat p b l) (ht : s.Twin t) {ps' : List Path}
    (hs : s.Separate ps) (hs' : t.Separate ps') (hr : s.InRange) (hr' : t.InRange) {env env' : Env}
    {size : UInt64} {offset : Int64} (h0 : 0 ≤ offset.toInt)
    (hend : offset.toInt + size.toNat < 2 ^ 64) {q : List Path} (hq : p ∈ q)
    (hx : s.Hides q (env, .read p size offset)) (hx' : t.Hides q (env', .read p size offset)) :
    s.answers (env, .read p size offset) = t.answers (env', .read p size offset) := by
  have hf' := ht.fileAt h.file
  rw [h.file.read_answer hs hr, hf'.read_answer hs' hr', (ht.hdr b).fileSize]
  refine congrArg (fun bytes => some (Reply.data _ bytes)) (List.map_congr_left (fun j hj => ?_))
  have hj := List.mem_range.mp hj
  rw [readSize_eq _ h0 hend] at hj
  have hpos : offset.toInt + (j : Int) = (offset.toInt.toNat + j : Nat) := by omega
  rw [hpos, stageBlocks_at, stageBlocks_at]
  split
  next hin => exact (h.bytes _ hin (by omega)).symm
  next hout =>
    have hz := hx hq b (h.file.lookup_mem hs) l (h.file.chain_some hr) (offset.toInt.toNat + j)
      (by omega) (Nat.not_lt.mp hout) (by omega) (by omega)
    have hz' := hx' hq b (hf'.lookup_mem hs') l (hf'.chain_some hr') (offset.toInt.toNat + j)
      (by rw [(ht.hdr b).fileSize]; omega) (Nat.not_lt.mp hout) (by omega) (by omega)
    rw [hz, hz']

theorem Step.dat_eq {c : Env × Call} {r : Reply} (hw : ¬c.2.Writes) (hstep : s.Step c s' r) :
    s'.dat = s.dat := by
  cases hstep with
  | writeNone | writeBig | write | starve => exact absurd trivial hw
  | look | truncateNone | keep | reload | touch | shrink | grow | unlink | leak | create => rfl

/-- A call other than a write leaves the files that stay. -/
theorem Separate.file_step {h : History} (hs : s.Separate (livePaths h)) (hr : s.InRange)
    {c : Env × Call} {r : Reply} (hsep : separates h s c) (hw : ¬c.2.Writes)
    (hstep : s.Step c s' r) (hf : s.FileAt p b l) (hp : p ∈ livePaths ((c, r) :: h)) :
    s'.FileAt p b l ∧ (s'.hdr b).fileSize = (s.hdr b).fileSize := by
  have hkept : ∀ q, c.2.Changes q → p ≠ q →
      s'.FileAt p b l ∧ (s'.hdr b).fileSize = (s.hdr b).fileSize := by
    intro q hc hne
    have hk := hs.keepsFile hr hsep hstep hc hf.head
      (fun he => hne (Path.chars_inj (hf.name.symm.trans he))) hf.chain
    exact ⟨hf.kept hk, by rw [hk.header]⟩
  cases hstep with
  | look | truncateNone | keep => exact ⟨hf, rfl⟩
  | reload | shrink | grow => exact ⟨hf.congr rfl (fun _ => rfl) rfl, rfl⟩
  | @touch env _ _ _ c =>
    exact ⟨hf.congr rfl (s.touched_name env c) (s.touched_next env c), s.touched_fileSize env c b⟩
  | writeNone | writeBig | write | starve => exact absurd trivial hw
  | @unlink _ q =>
    obtain ⟨_, hne⟩ := List.mem_filter.mp hp
    exact hkept q rfl (of_decide_eq_true hne)
  | @leak _ q _ hq =>
    refine hkept q rfl ?_
    rintro rfl
    exact Option.some_ne_none b ((hf.lookup_bit hs).symm.trans hq)
  | @create _ q _ hq =>
    refine hkept q rfl ?_
    rintro rfl
    exact Option.some_ne_none b ((hf.lookup_bit hs).symm.trans hq)

/-- Spread over all blocks of a chain but the last, bytes leave the last one alone. -/
theorem spread_dropLast_chainByte (buffer : Int → UInt8) {size : Nat} (dat : Nat → Nat → UInt8)
    (hd : l.Nodup) (hsize : usableSpace * (l.length - 1) ≤ size) {k : Nat}
    (hk : k < usableSpace * l.length) :
    chainByte (spreadBlocks buffer l.dropLast 0 size dat) l k =
      if k < usableSpace * (l.length - 1) then buffer k else chainByte dat l k := by
  have hne : l ≠ [] := by
    rintro rfl
    simp at hk
  have hsplit := List.dropLast_append_getLast hne
  have hlen : l.dropLast.length = l.length - 1 := List.length_dropLast
  have hnodup : l.dropLast.Nodup := hd.sublist (List.dropLast_sublist l)
  split
  next hlt =>
    have hlt' : k < usableSpace * l.dropLast.length := by rwa [hlen]
    have hspread := spreadBlocks_chainByte buffer hnodup 0 size dat hlt'
    rw [if_pos (Nat.lt_of_lt_of_le hlt hsize), Nat.cast_zero, Int.zero_add] at hspread
    rw [← hspread, ← chainByte_append _ [l.getLast hne] hlt', hsplit]
  next hge =>
    have hi : k / usableSpace = l.length - 1 := by
      have hpos : 0 < l.length := List.length_pos_iff.mpr hne
      have hu : usableSpace = 4016 := rfl
      rw [hu] at hk hge ⊢
      omega
    have hlast : l.getLast hne ∉ l.dropLast := by
      rw [← hsplit, List.nodup_append] at hd
      exact fun hm => hd.2.2 _ hm _ (List.mem_singleton_self _) rfl
    have hpos := List.length_pos_iff.mpr hne
    rw [chainByte, chainByte, hi, List.getD_eq_getElem _ _ (by omega), ← List.getLast_eq_getElem hne,
      spreadBlocks_other buffer hlast]

/-- The file after a write that found no block to take. -/
theorem Separate.starve_file (hs : s.Separate ps) (hr : s.InRange) {env : Env} {buf : Nat → UInt8}
    {size : UInt64} {offset : Int64} (hf : s.FileAt p b l)
    (hok : s.GrowsSafely (.write p buf size offset))
    (hstep : s.Step (env, .write p buf size offset) s' (.err .enomem)) :
    (freeBlocks s.mem).length < lacking l (newSize size offset) ∧ s'.FileAt p b l ∧
      (s'.hdr b).fileSize = newSize size offset ∧
      ∀ k < usableSpace * l.length, chainByte s'.dat l k =
        if k < usableSpace * (l.length - 1) then
          copyIn (stageBlocks s.dat l 0 env.buffer) offset.toInt size.toNat buf k
        else chainByte s.dat l k := by
  cases hstep with
  | look hl => exact hl.elim
  | reload hl _ => exact hl.elim
  | @starve _ _ _ _ _ b' l' hlook hchain hmax hroom =>
    rw [hf.lookup_mem hs] at hlook
    cases hlook
    rw [hf.chain_some hr] at hchain
    cases hchain
    rcases hok b (hf.lookup_mem hs) l (hf.chain_some hr) hmax with ⟨hfree, hlack⟩ | ⟨hle, _, _⟩
    · have htaken : s.taken l (newSize size offset) = [] := by rw [taken, hfree, List.take_nil]
      obtain ⟨hnext, hname⟩ := written_full hfree env b l (newSize size offset)
        (copyIn (stageBlocks s.dat l 0 env.buffer) offset.toInt size.toNat buf)
        (l ++ s.taken l (newSize size offset)).dropLast
      have hout : b ∉ s.taken l (newSize size offset) := by
        rw [htaken]
        exact List.not_mem_nil
      obtain ⟨x, hx⟩ := written_head hout env
        (copyIn (stageBlocks s.dat l 0 env.buffer) offset.toInt size.toNat buf)
        (l ++ s.taken l (newSize size offset)).dropLast
      refine ⟨hroom, hf.congr rfl hname hnext, congrArg Metadata.fileSize hx, fun k hk => ?_⟩
      have hsize : usableSpace * (l.length - 1) ≤ loopSize (newSize size offset) := by
        have hu : usableSpace = 4016 := rfl
        rw [lacking, blocksFor] at hlack
        rw [hu] at hlack ⊢
        omega
      have hspread := spread_dropLast_chainByte
        (copyIn (stageBlocks s.dat l 0 env.buffer) offset.toInt size.toNat buf) s.dat
        hf.chain.nodup hsize hk
      show chainByte (spreadBlocks _ (l ++ s.taken l _).dropLast 0 _ s.dat) l k = _
      rw [htaken, List.append_nil]
      exact hspread
    · exact absurd hroom (Nat.not_lt.mpr hle)

/-- A write that succeeds found all the blocks that it lacked. -/
theorem Separate.written_room {env : Env} {buf : Nat → UInt8} {size : UInt64} {offset : Int64}
    {m : Int32} (hs : s.Separate ps) (hr : s.InRange) (hf : s.FileAt p b l)
    (hstep : s.Step (env, .write p buf size offset) s' (.written m)) :
    lacking l (newSize size offset) ≤ (freeBlocks s.mem).length := by
  cases hstep with
  | look hl => exact hl.elim
  | reload hl _ => exact hl.elim
  | write hlook hchain _ hroom =>
    rw [hf.lookup_mem hs] at hlook
    cases hlook
    rw [hf.chain_some hr] at hchain
    cases hchain
    exact hroom

/-- A write to a file is refused for its size, starves or succeeds. -/
theorem Separate.write_reply {env : Env} {buf : Nat → UInt8} {size : UInt64} {offset : Int64}
    {r : Reply} (hs : s.Separate ps) (hf : s.FileAt p b l)
    (hstep : s.Step (env, .write p buf size offset) s' r) :
    r = .err .enobufs ∧ s' = s ∨
      (newSize size offset).toInt ≤ maxRequestSize ∧ (r = .err .enomem ∨ ∃ m, r = .written m) := by
  cases hstep with
  | look hl => exact hl.elim
  | reload hl _ => exact hl.elim
  | writeNone hnone =>
    rw [hf.lookup_mem hs] at hnone
    cases hnone
  | writeBig => exact Or.inl ⟨rfl, rfl⟩
  | write _ _ hmax _ => exact Or.inr ⟨hmax, Or.inr ⟨_, rfl⟩⟩
  | starve _ _ hmax _ => exact Or.inr ⟨hmax, Or.inl rfl⟩

/-- Behind the bytes that both volumes share a write that hides old data stages the same bytes. -/
theorem SameBytes.staged (h : s.SameBytes t.dat p b l) (ht : s.Twin t) {env env' : Env}
    {size : UInt64} {offset : Int64}
    (hx : ∀ k < (newSize size offset).toInt.toNat, s.Exposes b l size offset k →
      stageBlocks s.dat l 0 env.buffer k = 0)
    (hx' : ∀ k < (newSize size offset).toInt.toNat, t.Exposes b l size offset k →
      stageBlocks t.dat l 0 env'.buffer k = 0)
    {k : Nat} (hend : (k : Int) < (newSize size offset).toInt)
    (hpart : k < usableSpace * l.length ∨
      lacking l (newSize size offset) ≤ (freeBlocks s.mem).length)
    (hout : ¬(offset.toInt ≤ k ∧ k < offset.toInt + size.toNat ∧
      (lacking l (newSize size offset) ≤ (freeBlocks s.mem).length ∨
        k < usableSpace * (l.length - 1)))) :
    stageBlocks t.dat l 0 env'.buffer k = stageBlocks s.dat l 0 env.buffer k := by
  by_cases hown : (k : Int) < (s.hdr b).fileSize.toInt ∧ k < usableSpace * l.length
  · rw [stageBlocks_at, stageBlocks_at, if_pos hown.2, if_pos hown.2]
    exact h.bytes k hown.2 hown.1
  · have hnew : k < (newSize size offset).toInt.toNat := by omega
    have hexp : s.Exposes b l size offset k := ⟨by omega, hpart, hout⟩
    have hexp' : t.Exposes b l size offset k := by
      rw [Exposes, (ht.hdr b).fileSize, ht.mem]
      exact hexp
    rw [hx k hnew hexp, hx' k hnew hexp']

/-- Two twins after the same write to a file of which they hold the same bytes. -/
theorem SameBytes.write (h : s.SameBytes t.dat p b l) (ht : s.Twin t) {ps' : List Path}
    (hs : s.Separate ps) (hs' : t.Separate ps') (hr : s.InRange) (hr' : t.InRange) {env env' : Env}
    {buf : Nat → UInt8} {size : UInt64} {offset : Int64} {r : Reply} {q : List Path} (hq : p ∈ q)
    (hok : s.GrowsSafely (.write p buf size offset)) (hok' : t.GrowsSafely (.write p buf size offset))
    (hx : s.Hides q (env, .write p buf size offset))
    (hx' : t.Hides q (env', .write p buf size offset))
    (hstep : s.Step (env, .write p buf size offset) s' r)
    (hstep' : t.Step (env', .write p buf size offset) t' r) : ∃ m, s'.SameBytes t'.dat p b m := by
  have hf' := ht.fileAt h.file
  have hfit : ∀ k : Nat, (k : Int) < (newSize size offset).toInt →
      k < loopSize (newSize size offset) := by
    intro k hk
    have hlt := (newSize size offset).toInt_lt
    rw [loopSize]
    omega
  rcases hs.write_reply h.file hstep with ⟨rfl, rfl⟩ | ⟨hmax, rfl | ⟨m, rfl⟩⟩
  · rcases hs'.write_reply hf' hstep' with ⟨_, rfl⟩ | ⟨_, he | ⟨_, he⟩⟩
    · exact ⟨l, h⟩
    · cases he
    · cases he
  · have hz := hx hq b (h.file.lookup_mem hs) l (h.file.chain_some hr) hmax
    have hz' := hx' hq b (hf'.lookup_mem hs') l (hf'.chain_some hr') hmax
    obtain ⟨hroom, hfile, hsize, hbyte⟩ := hs.starve_file hr h.file hok hstep
    obtain ⟨_, _, _, hbyte'⟩ := hs'.starve_file hr' hf' hok' hstep'
    refine ⟨l, hfile, fun k hk hend => ?_⟩
    rw [hsize] at hend
    rw [hbyte k hk, hbyte' k hk]
    split
    next hlt =>
      rw [copyIn, copyIn]
      split
      next => rfl
      next hout =>
        exact h.staged ht hz hz' hend (.inl hk) (fun hh => hout ⟨hh.1, hh.2.1⟩)
    next hge =>
      -- The last block stays as it was.
      have hstaged := h.staged ht hz hz' hend (.inl hk) (fun hh =>
        hh.2.2.elim (fun hle => absurd hroom (Nat.not_lt.mpr hle)) hge)
      rwa [stageBlocks_at, stageBlocks_at, if_pos hk, if_pos hk] at hstaged
  · have hz := hx hq b (h.file.lookup_mem hs) l (h.file.chain_some hr) hmax
    have hz' := hx' hq b (hf'.lookup_mem hs') l (hf'.chain_some hr') hmax
    obtain ⟨hfile, hsize, hfits, hbyte⟩ := hs.write_file hr h.file hok hstep
    obtain ⟨_, _, _, hbyte'⟩ := hs'.write_file hr' hf' hok' hstep'
    have hroom := hs.written_room hr h.file hstep
    rw [ht.taken] at hbyte'
    refine ⟨_, hfile, fun k hk hend => ?_⟩
    rw [hsize] at hend
    rw [hbyte k (hfit k hend), hbyte' k (hfit k hend), copyIn, copyIn]
    split
    next => rfl
    next hout =>
      exact h.staged ht hz hz' hend (.inr hroom) (fun hh => hout ⟨hh.1, hh.2.1⟩)

/-- The files `ps` hold the same bytes in `d` as on the volume. -/
def SameFiles (s : Blocks) (d : Nat → Nat → UInt8) (ps : List Path) : Prop :=
  ∀ p ∈ ps, ∃ b l, s.SameBytes d p b l

theorem SameFiles.step {post h h' : History} (hf : s.SameFiles t.dat (livePaths post)) (ht : s.Twin t)
    (hs : s.Separate (livePaths (post ++ h))) (hs' : t.Separate (livePaths h')) (hr : s.InRange)
    (hr' : t.InRange) {env env' : Env} {c : Call} {r r' : Reply}
    (hsep : separates (post ++ h) s (env, c)) (hsep' : separates h' t (env', c))
    (hx : s.Hides (livePaths post) (env, c)) (hx' : t.Hides (livePaths post) (env', c))
    (hstep : s.Step (env, c) s' r) (hstep' : t.Step (env', c) t' r') (hw : c.Writes → r' = r) :
    s'.SameFiles t'.dat (livePaths (((env, c), r) :: post)) := by
  intro q hq
  by_cases hcw : c.Writes
  · cases c with
    | write p buf size offset =>
      obtain rfl := hw trivial
      have hq : q ∈ livePaths post := hq
      obtain ⟨b, l, hb⟩ := hf q hq
      by_cases hqp : q = p
      · subst q
        obtain ⟨m, hm⟩ := hb.write ht hs hs' hr hr' hq hsep.1 hsep'.1 hx hx' hstep hstep'
        exact ⟨b, m, hm⟩
      · have hne : (s.hdr b).name ≠ p.chars :=
          fun he => hqp (Path.chars_inj (hb.file.name.symm.trans he))
        have hf' := ht.fileAt hb.file
        have hk := hs.keepsFile hr hsep hstep rfl hb.file.head hne hb.file.chain
        have hk' := hs'.keepsFile hr' hsep' hstep' rfl hf'.head
          (fun he => hqp (Path.chars_inj (hf'.name.symm.trans he))) hf'.chain
        refine ⟨b, l, hb.file.kept hk, fun k hlt hend => ?_⟩
        rw [hk.header] at hend
        rw [chainByte_congr hk.data hlt, chainByte_congr hk'.data hlt]
        exact hb.bytes k hlt hend
    | getattr | readdir | «open» | read | truncate | unlink | create => exact hcw.elim
  · have hdat := hstep.dat_eq hcw
    have hdat' := hstep'.dat_eq hcw
    by_cases hold : q ∈ livePaths post
    · obtain ⟨b, l, hb⟩ := hf q hold
      obtain ⟨hfile, hsize⟩ := hs.file_step hr hsep hcw hstep hb.file (livePaths_append (_ :: post) hq)
      refine ⟨b, l, hfile, fun k hlt hend => ?_⟩
      rw [hsize] at hend
      rw [hdat, hdat']
      exact hb.bytes k hlt hend
    · obtain ⟨rfl, _, he⟩ := created_of_live hq hold
      cases he
      cases hstep with
      | look hl => exact hl.elim
      | reload _ hquiet => exact hquiet.elim
      | create _ hj hlen =>
        have hh := create_holds env hj hlen
        refine ⟨_, _, hh.file, fun k _ hend => ?_⟩
        rw [hh.size] at hend
        exact absurd hend (Int.not_lt.mpr (Int.natCast_nonneg k))

end Blocks

/-- Runs of calls that are alike end in twins. -/
theorem twins_of_alike {a : Path} {n : Nat} {pre pre' : History} {s t : Blocks}
    (ha : List.Forall₂ (fun e e' => Alike a e.1 e'.1) pre pre') (hr : BlockRun (hides n) pre s)
    (hr' : BlockRun (hides n) pre' t) : s.Twin t := by
  induction ha generalizing s t with
  | nil =>
    cases hr
    cases hr'
    exact ⟨rfl, rfl, fun _ => .refl _⟩
  | @cons e e' _ _ he _ ih =>
    obtain ⟨_, hr, _, hs⟩ := GuardedRun.of_cons hr
    obtain ⟨_, hr', _, hs'⟩ := GuardedRun.of_cons hr'
    exact ((ih hr hr').step he hs hs').1

theorem hides_since {n : Nat} {post h : History} {s : Blocks} {c : Env × Call} (hn : h.length = n)
    (hok : hides n (post ++ h) s c) : s.Hides (livePaths post) c := by
  have hlen : (post ++ h).length - n = post.length := by
    rw [List.length_append, hn]
    omega
  have hx := hok.2 (by rw [List.length_append]; omega)
  rwa [hlen, List.take_left] at hx

theorem separates_of_hides {n : Nat} (h : History) (s : Blocks) (c : Env × Call)
    (hok : hides n h s c) : separates h s c := hok.1.1

/-- From twins on, the same calls leave twins whose files created since then hold the same bytes. -/
theorem same_files_since {n : Nat} {pre pre' post post' : History} {s t : Blocks}
    (hn : pre.length = n) (hn' : pre'.length = n)
    (htwin : ∀ s t, BlockRun (hides n) pre s → BlockRun (hides n) pre' t → s.Twin t)
    (hpost : List.Forall₂ (fun e e' => e.1.2 = e'.1.2) post post')
    (hr : BlockRun (hides n) (post ++ pre) s) (hr' : BlockRun (hides n) (post' ++ pre') t) :
    s.Twin t ∧ livePaths post = livePaths post' ∧ s.SameFiles t.dat (livePaths post) := by
  induction hpost generalizing s t with
  | nil => exact ⟨htwin s t hr hr', rfl, fun p hp => absurd hp List.not_mem_nil⟩
  | @cons e e' post post' he _ ih =>
    obtain ⟨⟨env, c⟩, r⟩ := e
    obtain ⟨⟨env', c'⟩, r'⟩ := e'
    obtain rfl : c = c' := he
    obtain ⟨s₀, hr, hok, hs⟩ := GuardedRun.of_cons hr
    obtain ⟨t₀, hr', hok', hs'⟩ := GuardedRun.of_cons hr'
    obtain ⟨ht, hlive, hf⟩ := ih hr hr'
    obtain ⟨ht', hw, hnext⟩ := ht.step (.same (a := pathA) env env' c) hs hs'
    have hx' := hides_since hn' hok'
    rw [← hlive] at hx'
    refine ⟨ht', hnext _ _ hlive, ?_⟩
    exact hf.step ht (BlockRun.separate separates_of_hides hr)
      (BlockRun.separate separates_of_hides hr') (BlockRun.range hr) (BlockRun.range hr') hok.1.1
      hok'.1.1 (hides_since hn hok) hx' (Blocks.step_of_call hs) (Blocks.step_of_call hs') hw

theorem live_of_created {p : Path} {post h : History}
    (hc : ∃ env, ((env, Call.create p), Reply.ok) ∈ post) (hp : p ∈ livePaths (post ++ h)) :
    p ∈ livePaths post := by
  induction post with
  | nil =>
    obtain ⟨_, hc⟩ := hc
    cases hc
  | cons e post ih =>
    obtain ⟨c, r⟩ := e
    obtain ⟨env, hc⟩ := hc
    rcases List.mem_cons.mp hc with he | hin
    · cases he
      exact List.mem_cons_self
    · by_cases hq : Quiet c r
      · rw [List.cons_append, livePaths_quiet hq] at hp
        rw [livePaths_quiet hq]
        exact ih ⟨env, hin⟩ hp
      · obtain ⟨rfl, env, q, rfl | rfl⟩ := of_not_quiet hq
        · rcases List.mem_cons.mp hp with rfl | hp
          · exact List.mem_cons_self
          · exact List.mem_cons_of_mem q (ih ⟨_, hin⟩ hp)
        · obtain ⟨hp, hne⟩ := List.mem_filter.mp hp
          exact List.mem_filter.mpr ⟨ih ⟨_, hin⟩ hp, hne⟩

/-- Two runs that differ in bytes written to `a` before an unlink of `a` answer reads of files created
afterwards alike, whatever their stacks and clocks hold, while their calls and the read meet `hides`. -/
theorem deleted_data_hidden {a p : Path} {pre pre' post post' : History} (env env' : Env)
    (r r' : Reply) {w w' : World}
    (hr : Reaches (hides (pre.length + 1)) (post ++ ((env, .unlink a), r) :: pre) w)
    (hr' : Reaches (hides (pre.length + 1)) (post' ++ ((env', .unlink a), r') :: pre') w')
    (hpre : List.Forall₂ (fun e e' => Alike a e.1 e'.1) pre pre')
    (hpost : List.Forall₂ (fun e e' => e.1.2 = e'.1.2) post post')
    (hp : ∃ env, ((env, Call.create p), Reply.ok) ∈ post) {size : UInt64} {offset : Int64}
    (h0 : 0 ≤ offset.toInt) (hend : offset.toInt + size.toNat < 2 ^ 64) {e e' : Env}
    (hread : hides (pre.length + 1) (post ++ ((env, .unlink a), r) :: pre) w.view
      (e, .read p size offset))
    (hread' : hides (pre.length + 1) (post' ++ ((env', .unlink a), r') :: pre') w'.view
      (e', .read p size offset)) :
    w.answers (e, .read p size offset) = w'.answers (e', .read p size offset) := by
  obtain ⟨⟨mode, hs⟩, hrun⟩ := hr.blockRun
  obtain ⟨⟨mode', hs'⟩, hrun'⟩ := hr'.blockRun
  have halike : List.Forall₂ (fun e e' => Alike a e.1 e'.1) (((env, .unlink a), r) :: pre)
      (((env', .unlink a), r') :: pre') := .cons (.same ..) hpre
  have hlen : (((env', Call.unlink a), r') :: pre').length = pre.length + 1 :=
    congrArg (· + 1) hpre.length_eq.symm
  obtain ⟨ht, hlive, hf⟩ := same_files_since rfl hlen
    (fun s t => twins_of_alike halike) hpost hrun hrun'
  have hsw := hrun.separate separates_of_hides
  have hsw' := hrun'.separate separates_of_hides
  rw [hs.answers_eq, hs'.answers_eq]
  cases hl : w.view.lookup w.view.mem p.chars with
  | none =>
    have hl' : w'.view.lookup w'.view.mem p.chars = none := by
      rw [ht.mem, ht.lookup]
      exact hl
    show (w.view.read e p.chars size offset).map Prod.snd =
      (w'.view.read e' p.chars size offset).map Prod.snd
    simp only [Blocks.read, hl, hl', Option.map_some]
  | some b =>
    have hmem : p ∈ livePaths (post ++ ((env, .unlink a), r) :: pre) := by
      apply (hsw.lists.live_iff p).mp
      rw [← hsw.names.lookup, hl]
      exact Option.some_ne_none b
    have hq := live_of_created hp hmem
    obtain ⟨_, _, hb⟩ := hf p hq
    have hx' := hides_since hlen hread'
    rw [← hlive] at hx'
    exact hb.read_eq ht hsw hsw' hs.range hs'.range h0 hend hq (hides_since rfl hread) hx'

/-- A call that finds the byte `x` all over its stack and on the clock. -/
def cluttered (x : UInt8) (c : Call) : Env × Call :=
  (⟨{ Metadata.zero with padding := .ofNat x.toNat }, fun _ => x, fun _ => ⟨.ofNat x.toNat, 0⟩⟩, c)

/-- The calls up to the unlink of `/a`, the newest first. -/
def beforeUnlink (x : UInt8) : History :=
  [(cluttered x (.write pathA (fun _ => x) 9 0), .written 9), (cluttered x (.create pathA), .ok)]

def afterUnlink (x : UInt8) : History :=
  [(cluttered x (.write pathB (fun _ => 66) 3 2), .written 3),
    (cluttered x (.write pathB (fun _ => 65) 3 0), .written 3), (cluttered x (.create pathB), .ok)]

set_option maxRecDepth 100000 in
theorem exists_rewritten (x : UInt8) (hx : x = 87 ∨ x = 88) : ∃ w : World,
    Reaches (hides 3) (afterUnlink x ++ (cluttered x (.unlink pathA), .ok) :: beforeUnlink x) w ∧
      w.view.dat 1 8 = x ∧ hides 3 (afterUnlink x ++ (cluttered x (.unlink pathA), .ok) ::
        beforeUnlink x) w.view (cluttered x (.read pathB 9 0)) := by
  obtain ⟨s, hr, hc⟩ := blockRun_of_replies (hides 3)
    [cluttered x (.create pathA), cluttered x (.write pathA (fun _ => x) 9 0),
      cluttered x (.unlink pathA), cluttered x (.create pathB),
      cluttered x (.write pathB (fun _ => 65) 3 0), cluttered x (.write pathB (fun _ => 66) 3 2)]
    [.written 3, .written 3, .ok, .ok, .written 9, .ok]
    (fun s => s.dat 1 8 = x ∧ fitsBuffer [] s (cluttered x (.read pathB 9 0)) ∧
      s.Hides [pathB] (cluttered x (.read pathB 9 0)))
    (by rcases hx with rfl | rfl <;> decide +kernel)
  obtain ⟨w, _, hs, hrun⟩ := hr.reaches
  obtain ⟨hdat, hfits, hhides⟩ := of_decide_eq_true hc
  refine ⟨w, hrun, ?_, ?_⟩
  · rw [hs.view]
    exact hdat
  · rw [hs.view]
    exact ⟨hfits, fun _ => hhides⟩

/-- The block of `/b` still holds bytes of `/a`, which no read shows. -/
theorem deleted_data_hidden_rewritten : ∃ h h' w w', Reaches (hides 3) h w ∧ Reaches (hides 3) h' w' ∧
    w.view.dat 1 8 = 88 ∧ w'.view.dat 1 8 = 87 ∧
    w.answers (cluttered 88 (.read pathB 9 0)) = w'.answers (cluttered 87 (.read pathB 9 0)) := by
  obtain ⟨w, hr, hdat, hread⟩ := exists_rewritten 88 (.inr rfl)
  obtain ⟨w', hr', hdat', hread'⟩ := exists_rewritten 87 (.inl rfl)
  have hpre : List.Forall₂ (fun e e' => Alike pathA e.1 e'.1) (beforeUnlink 88) (beforeUnlink 87) :=
    .cons (.bytes ..) (.cons (.same ..) .nil)
  have hpost : List.Forall₂ (fun e e' => e.1.2 = e'.1.2) (afterUnlink 88) (afterUnlink 87) :=
    .cons rfl (.cons rfl (.cons rfl .nil))
  have hcreated : ((cluttered 88 (.create pathB)), Reply.ok) ∈ afterUnlink 88 :=
    List.mem_cons_of_mem _ (List.mem_cons_of_mem _ List.mem_cons_self)
  refine ⟨_, _, w, w', hr, hr', hdat, hdat', ?_⟩
  refine deleted_data_hidden (cluttered 88 (.unlink pathA)).1 (cluttered 87 (.unlink pathA)).1 .ok .ok
    ?_ ?_ hpre hpost ⟨_, hcreated⟩ (by decide) (by decide) ?_ ?_
  · exact hr
  · exact hr'
  · exact hread
  · exact hread'

set_option maxRecDepth 100000 in
/-- A write behind the end of a new file keeps the byte that the block held for the deleted one. -/
theorem gap_shows_deleted_data : ¬∀ a p pre pre' post post' env r r' w w' (size : UInt64)
    (offset : Int64) e,
    Reaches anyCall (post ++ ((env, .unlink a), r) :: pre) w → r = .ok →
    Reaches anyCall (post' ++ ((env, .unlink a), r') :: pre') w' →
    List.Forall₂ (fun e e' => Alike a e.1 e'.1 ∧ e.1.1 = e'.1.1) pre pre' →
    List.Forall₂ (fun e e' => e.1 = e'.1) post post' →
    (∃ env, ((env, Call.create p), Reply.ok) ∈ post) → 0 ≤ offset.toInt →
    offset.toInt + size.toNat < 2 ^ 64 →
      w.answers (e, .read p size offset) = w'.answers (e, .read p size offset) := by
  intro hall
  obtain ⟨s, hr, hc⟩ := blockRun_of_replies anyCall
    [plain (.create pathA), plain (.write pathA (fun _ => 88) 1 0), plain (.unlink pathA),
      plain (.create pathB), plain (.write pathB (fun _ => 65) 1 1)]
    [.written 1, .ok, .ok, .written 1, .ok]
    (fun s => s.answers (plain (.read pathB 2 0)) = some (.data 2 [88, 65])) (by decide +kernel)
  obtain ⟨t, hr', hc'⟩ := blockRun_of_replies anyCall
    [plain (.create pathA), plain (.write pathA (fun _ => 87) 1 0), plain (.unlink pathA),
      plain (.create pathB), plain (.write pathB (fun _ => 65) 1 1)]
    [.written 1, .ok, .ok, .written 1, .ok]
    (fun s => s.answers (plain (.read pathB 2 0)) = some (.data 2 [87, 65])) (by decide +kernel)
  obtain ⟨w, mode, hs, hrun⟩ := hr.reaches
  obtain ⟨w', mode', hs', hrun'⟩ := hr'.reaches
  have he := hall pathA pathB [_, _] [_, _] [_, _] [_, _] _ _ _ w w' 2 0 (plain (.create pathB)).1
    hrun rfl hrun' (.cons ⟨.bytes .., rfl⟩ (.cons ⟨.same .., rfl⟩ .nil)) (.cons rfl (.cons rfl .nil))
    ⟨_, List.mem_cons_of_mem _ List.mem_cons_self⟩ (by decide) (by decide)
  rw [hs.answers_eq, hs'.answers_eq] at he
  have he := (of_decide_eq_true hc).symm.trans (he.trans (of_decide_eq_true hc'))
  exact absurd he (by decide)

end FreeBSDEdits
