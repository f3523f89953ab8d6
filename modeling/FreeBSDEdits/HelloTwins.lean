import FreeBSDEdits.HelloStore

namespace FreeBSDEdits

/-- Two calls that differ at most in the bytes they write to `a`. What each of them finds on its
stack and on the clock is its own. -/
inductive Alike (a : Path) : Env × Call → Env × Call → Prop
  | same (env env' : Env) (c : Call) : Alike a (env, c) (env', c)
  | bytes (env env' : Env) (buf buf' : Nat → UInt8) (size : UInt64) (offset : Int64) :
    Alike a (env, .write a buf size offset) (env', .write a buf' size offset)

/-- Two headers that tell the same of the file, apart from its times. -/
structure Metadata.Twin (m m' : Metadata) : Prop where
  name : m'.name = m.name
  fileSize : m'.fileSize = m.fileSize
  next : m'.next = m.next

theorem Metadata.Twin.refl (m : Metadata) : m.Twin m := ⟨rfl, rfl, rfl⟩

theorem linkBlocks_twin {got : List Nat} {hdr hdr' : Nat → Metadata} {md md' : Metadata}
    {current : Nat} (hh : ∀ i, (hdr i).Twin (hdr' i)) (hm : md.Twin md') (i : Nat) :
    (linkBlocks hdr md current got i).Twin (linkBlocks hdr' md' current got i) := by
  induction got generalizing hdr hdr' md md' current with
  | nil => exact hh i
  | cons b got ih =>
    refine ih (fun j => ?_) (.refl _)
    by_cases hj : j = current
    · rw [hj, Function.update_self, Function.update_self]
      exact ⟨hm.name, hm.fileSize, rfl⟩
    · rw [Function.update_of_ne hj, Function.update_of_ne hj]
      exact hh j

namespace Blocks

/-- Two volumes that differ at most in the data areas and in what the headers tell beside names,
sizes and links. -/
structure Twin (s t : Blocks) : Prop where
  mem : t.mem = s.mem
  bit : t.bit = s.bit
  hdr : ∀ b, (s.hdr b).Twin (t.hdr b)

variable {s s' t t' : Blocks} {r r' : Reply} {env env' : Env}

namespace Twin

theorem lookup (ht : s.Twin t) (marks : Nat → Int32) (path : CString) :
    t.lookup marks path = s.lookup marks path := by
  simp only [Blocks.lookup, (ht.hdr _).name]

theorem next (ht : s.Twin t) : t.next = s.next := by
  funext b
  simp only [Blocks.next, (ht.hdr b).next]

theorem chain (ht : s.Twin t) (b : Nat) : t.chain b = s.chain b := by
  rw [Blocks.chain, Blocks.chain, ht.next]

theorem rawNext (ht : s.Twin t) : t.rawNext = s.rawNext := by
  funext b
  simp only [Blocks.rawNext, ht.bit, (ht.hdr b).next]

theorem taken (ht : s.Twin t) (l : List Nat) (newFileSize : Int32) :
    t.taken l newFileSize = s.taken l newFileSize := by
  rw [Blocks.taken, Blocks.taken, ht.mem]

theorem setMarks (ht : s.Twin t) (mem bit : Nat → Int32) :
    Twin { s with mem := mem, bit := bit } { t with mem := mem, bit := bit } :=
  ⟨rfl, rfl, ht.hdr⟩

theorem setMem (ht : s.Twin t) (mem : Nat → Int32) :
    Twin { s with mem := mem } { t with mem := mem } := ⟨rfl, ht.bit, ht.hdr⟩

theorem update (ht : s.Twin t) (b : Nat) {m m' : Metadata} (hm : m.Twin m') (i : Nat) :
    (Function.update s.hdr b m i).Twin (Function.update t.hdr b m' i) := by
  by_cases hi : i = b
  · rw [hi, Function.update_self, Function.update_self]
    exact hm
  · rw [Function.update_of_ne hi, Function.update_of_ne hi]
    exact ht.hdr i

theorem getattr (ht : s.Twin t) (path : CString) :
    (s.getattr path).1.Twin (t.getattr path).1 := by
  have hfst : ∀ s : Blocks, (s.getattr path).1 = { s with mem := s.bit } := by
    intro s
    rw [Blocks.getattr]
    split
    next => rfl
    next =>
      dsimp only
      split <;> rfl
  rw [hfst, hfst, ht.bit]
  exact ht.setMarks _ _

theorem readdir (ht : s.Twin t) (path : CString) :
    (s.readdir path).1.Twin (t.readdir path).1 := by
  have hfst : ∀ s : Blocks, (s.readdir path).1 = s := by
    intro s
    rw [Blocks.readdir]
    split <;> rfl
  rw [hfst, hfst]
  exact ht

theorem openFile (ht : s.Twin t) (path : CString) :
    (s.openFile path).1.Twin (t.openFile path).1 := by
  have hfst : ∀ s : Blocks, (s.openFile path).1 = s := by
    intro s
    rw [Blocks.openFile]
    split <;> rfl
  rw [hfst, hfst]
  exact ht

theorem read (ht : s.Twin t) (env' : Env) {path : CString} {size : UInt64} {offset : Int64}
    (hs : s.read env path size offset = some (s', r)) :
    ∃ t' r', t.read env' path size offset = some (t', r') ∧ s'.Twin t' := by
  unfold Blocks.read at hs ⊢
  rw [ht.mem, ht.lookup]
  cases hf : s.lookup s.mem path with
  | none =>
    simp only [hf, Option.some.injEq, Prod.mk.injEq] at hs
    obtain ⟨rfl, -⟩ := hs
    exact ⟨t, _, rfl, ht⟩
  | some b =>
    cases hl : s.chain b with
    | none => simp [hf, hl] at hs
    | some l =>
      simp only [hf, hl, Option.map_some, Option.some.injEq, Prod.mk.injEq] at hs
      obtain ⟨rfl, -⟩ := hs
      simp only [ht.chain, hl, Option.map_some]
      exact ⟨_, _, rfl, rfl, ht.bit,
        ht.update b ⟨(ht.hdr b).name, (ht.hdr b).fileSize, (ht.hdr b).next⟩⟩

theorem truncate (ht : s.Twin t) {path : CString} {size : Int64}
    (hs : s.truncate path size = some (s', r)) :
    ∃ t', t.truncate path size = some (t', r) ∧ s'.Twin t' := by
  unfold Blocks.truncate at hs ⊢
  rw [ht.mem, ht.lookup]
  cases hf : s.lookup s.mem path with
  | none =>
    simp only [hf, Option.some.injEq, Prod.mk.injEq] at hs
    obtain ⟨rfl, rfl⟩ := hs
    exact ⟨t, rfl, ht⟩
  | some b =>
    simp only [hf] at hs
    simp only [(ht.hdr b).fileSize, ht.rawNext, ht.next]
    by_cases hlt : size.toInt < (s.hdr b).fileSize.toInt
    · rw [if_pos hlt] at hs ⊢
      by_cases h0 : s.rawNext^[blocksFor (cSize size.toInt)] b = 0
      · simp only [if_pos h0, Option.some.injEq, Prod.mk.injEq] at hs ⊢
        obtain ⟨rfl, rfl⟩ := hs
        exact ⟨t, ⟨rfl, rfl⟩, ht⟩
      · rw [if_neg h0] at hs ⊢
        cases hl : s.chain (s.rawNext^[blocksFor (cSize size.toInt)] b) with
        | none => simp [hl] at hs
        | some l =>
          simp only [ht.chain, hl, Option.map_some, Option.some.injEq, Prod.mk.injEq] at hs ⊢
          obtain ⟨rfl, rfl⟩ := hs
          exact ⟨_, ⟨rfl, rfl⟩, ht.setMem _⟩
    · rw [if_neg hlt] at hs ⊢
      by_cases hgt : size.toInt > (s.hdr b).fileSize.toInt
      · rw [if_pos hgt] at hs ⊢
        generalize growMarks s.next (blocksFor (cSize size.toInt) - 1) s.mem b = grown at hs ⊢
        obtain ⟨mem, _ | _⟩ := grown
        · obtain ⟨rfl, rfl⟩ := Prod.mk.inj (Option.some.inj hs)
          exact ⟨_, rfl, ht.setMem _⟩
        · obtain ⟨rfl, rfl⟩ := Prod.mk.inj (Option.some.inj hs)
          exact ⟨_, rfl, ht.setMem _⟩
      · simp only [if_neg hgt, Option.some.injEq, Prod.mk.injEq] at hs ⊢
        obtain ⟨rfl, rfl⟩ := hs
        exact ⟨t, ⟨rfl, rfl⟩, ht⟩

theorem unlink (ht : s.Twin t) {path : CString} (hs : s.unlink path = some (s', r)) :
    ∃ t', t.unlink path = some (t', r) ∧ s'.Twin t' := by
  unfold Blocks.unlink at hs ⊢
  rw [ht.bit, ht.lookup]
  cases hf : s.lookup s.bit path with
  | none =>
    simp only [hf, Option.some.injEq, Prod.mk.injEq] at hs
    obtain ⟨rfl, rfl⟩ := hs
    exact ⟨_, rfl, ht.setMarks _ _⟩
  | some b =>
    cases hl : s.chain b with
    | none => simp [hf, hl] at hs
    | some l =>
      simp only [hf, hl, Option.map_some, Option.some.injEq, Prod.mk.injEq] at hs
      obtain ⟨rfl, rfl⟩ := hs
      simp only [ht.chain, hl, Option.map_some]
      exact ⟨_, rfl, ht.setMarks _ _⟩

/-- The header that a create stores tells the same whatever the stack and the clock hold. -/
theorem createHead {p : Path} (hlen : p.chars.length < maxFilenameLength) :
    (s.createHead env p.chars).Twin (t.createHead env' p.chars) where
  name := (Metadata.name_strcpyFilename _ hlen p.nul_not_mem).trans
    (Metadata.name_strcpyFilename _ hlen p.nul_not_mem).symm
  fileSize := rfl
  next := rfl

theorem create (ht : s.Twin t) (env env' : Env) (p : Path) :
    (s.create env p.chars).1.Twin (t.create env' p.chars).1 ∧
      (t.create env' p.chars).2 = (s.create env p.chars).2 := by
  unfold Blocks.create
  rw [ht.bit, ht.lookup]
  cases s.lookup s.bit p.chars with
  | some b => exact ⟨ht.setMarks _ _, rfl⟩
  | none =>
    dsimp only
    cases firstFree s.bit with
    | none => exact ⟨ht.setMarks _ _, rfl⟩
    | some i =>
      dsimp only
      by_cases hlen : p.chars.length ≥ maxFilenameLength
      · rw [if_pos hlen, if_pos hlen]
        exact ⟨ht.setMarks _ _, rfl⟩
      · rw [if_neg hlen, if_neg hlen]
        exact ⟨⟨rfl, rfl, ht.update i (createHead (Nat.not_le.mp hlen))⟩, rfl⟩

theorem writeHead (ht : s.Twin t) (env env' : Env) (b : Nat) (newFileSize : Int32) :
    (s.writeHead env b newFileSize).Twin (t.writeHead env' b newFileSize) :=
  ⟨(ht.hdr b).name, rfl, (ht.hdr b).next⟩

theorem written (ht : s.Twin t) (env env' : Env) (b : Nat) (l : List Nat) (newFileSize : Int32)
    (buffer buffer' : Int → UInt8) (filled : List Nat) :
    (s.written env b l newFileSize buffer filled).Twin
      (t.written env' b l newFileSize buffer' filled) := by
  have hhead := ht.update b (ht.writeHead env env' b newFileSize)
  refine ⟨?_, ht.bit, ?_⟩
  · rw [Blocks.written, Blocks.written, ht.taken, ht.mem]
  · rw [Blocks.written, Blocks.written, ht.taken]
    exact linkBlocks_twin hhead (hhead _)

/-- What a write does apart from the data areas does not depend on any data. -/
theorem write (ht : s.Twin t) (env' : Env) {path : CString} {buf : Nat → UInt8}
    (buf' : Nat → UInt8) {size : UInt64} {offset : Int64}
    (hs : s.write env path buf size offset = some (s', r)) :
    ∃ t', t.write env' path buf' size offset = some (t', r) ∧ s'.Twin t' := by
  unfold Blocks.write at hs ⊢
  rw [ht.mem, ht.lookup]
  cases hf : s.lookup s.mem path with
  | none =>
    simp only [hf, Option.some.injEq, Prod.mk.injEq] at hs
    obtain ⟨rfl, rfl⟩ := hs
    exact ⟨t, rfl, ht⟩
  | some b =>
    cases hl : s.chain b with
    | none => simp [hf, hl] at hs
    | some l =>
      simp only [hf, hl, Option.map_some, Option.some.injEq] at hs
      simp only [ht.chain, ht.taken, hl, Option.map_some, Option.some.injEq]
      by_cases hmax : (newSize size offset).toInt > maxRequestSize
      · rw [if_pos hmax] at hs ⊢
        obtain ⟨rfl, rfl⟩ := Prod.mk.inj hs
        exact ⟨t, rfl, ht⟩
      · rw [if_neg hmax] at hs ⊢
        by_cases hroom : lacking l (newSize size offset) ≤ (freeBlocks s.mem).length
        · rw [if_pos hroom] at hs ⊢
          obtain ⟨rfl, rfl⟩ := Prod.mk.inj hs
          have hw := ht.written env env' b l (newSize size offset)
            (copyIn (stageBlocks s.dat l 0 env.buffer) offset.toInt size.toNat buf)
            (copyIn (stageBlocks t.dat l 0 env'.buffer) offset.toInt size.toNat buf')
            (l ++ s.taken l (newSize size offset))
          exact ⟨_, rfl, hw.mem, hw.mem, hw.hdr⟩
        · rw [if_neg hroom] at hs ⊢
          obtain ⟨rfl, rfl⟩ := Prod.mk.inj hs
          exact ⟨_, rfl, ht.written ..⟩

end Twin

end Blocks

theorem livePaths_congr {h h' : History} (he : livePaths h = livePaths h') (env env' : Env) (c : Call)
    (r : Reply) : livePaths (((env, c), r) :: h) = livePaths (((env', c), r) :: h') := by
  cases c <;> cases r <;> simp only [livePaths, he]

namespace Blocks

variable {s s' t t' : Blocks} {r r' : Reply}

/-- Calls that are alike act alike on twins and leave the same paths. -/
theorem Twin.step (ht : s.Twin t) {a : Path} {c c' : Env × Call} (ha : Alike a c c')
    (hs : s.call c = some (s', r)) (hc : t.call c' = some (t', r')) :
    s'.Twin t' ∧ (c.2.Writes → r' = r) ∧
      ∀ h h', livePaths h = livePaths h' → livePaths ((c, r) :: h) = livePaths ((c', r') :: h') := by
  cases ha with
  | bytes env env' buf buf' size offset =>
    obtain ⟨t₁, hc₁, ht₁⟩ := ht.write env' buf' hs
    obtain ⟨rfl, rfl⟩ := Prod.mk.inj (Option.some.inj (hc₁.symm.trans hc))
    exact ⟨ht₁, fun _ => rfl, fun h h' he => he⟩
  | same env env' c =>
    cases c with
    | write p buf size offset =>
      obtain ⟨t₁, hc₁, ht₁⟩ := ht.write env' buf hs
      obtain ⟨rfl, rfl⟩ := Prod.mk.inj (Option.some.inj (hc₁.symm.trans hc))
      exact ⟨ht₁, fun _ => rfl, fun h h' he => he⟩
    | read p size offset =>
      obtain ⟨t₁, r₁, hc₁, ht₁⟩ := ht.read env' hs
      obtain ⟨rfl, rfl⟩ := Prod.mk.inj (Option.some.inj (hc₁.symm.trans hc))
      exact ⟨ht₁, fun hw => hw.elim, fun h h' he => he⟩
    | getattr path =>
      obtain ⟨rfl, rfl⟩ := Prod.mk.inj (Option.some.inj hs)
      obtain ⟨rfl, rfl⟩ := Prod.mk.inj (Option.some.inj hc)
      exact ⟨ht.getattr _, fun hw => hw.elim, fun h h' he => he⟩
    | readdir path =>
      obtain ⟨rfl, rfl⟩ := Prod.mk.inj (Option.some.inj hs)
      obtain ⟨rfl, rfl⟩ := Prod.mk.inj (Option.some.inj hc)
      exact ⟨ht.readdir _, fun hw => hw.elim, fun h h' he => he⟩
    | «open» path =>
      obtain ⟨rfl, rfl⟩ := Prod.mk.inj (Option.some.inj hs)
      obtain ⟨rfl, rfl⟩ := Prod.mk.inj (Option.some.inj hc)
      exact ⟨ht.openFile _, fun hw => hw.elim, fun h h' he => he⟩
    | truncate p size =>
      obtain ⟨t₁, hc₁, ht₁⟩ := ht.truncate hs
      obtain ⟨rfl, rfl⟩ := Prod.mk.inj (Option.some.inj (hc₁.symm.trans hc))
      exact ⟨ht₁, fun hw => hw.elim, fun h h' he => he⟩
    | unlink p =>
      obtain ⟨t₁, hc₁, ht₁⟩ := ht.unlink hs
      obtain ⟨rfl, rfl⟩ := Prod.mk.inj (Option.some.inj (hc₁.symm.trans hc))
      exact ⟨ht₁, fun hw => hw.elim, fun h h' he => livePaths_congr he ..⟩
    | create p =>
      obtain ⟨ht₁, hr₁⟩ := ht.create env env' p
      have he : s.create env p.chars = (s', r) := Option.some.inj hs
      have he' : t.create env' p.chars = (t', r') := Option.some.inj hc
      rw [he, he'] at ht₁ hr₁
      dsimp only at ht₁ hr₁
      subst hr₁
      exact ⟨ht₁, fun hw => hw.elim, fun h h' hlive => livePaths_congr hlive ..⟩

end Blocks

end FreeBSDEdits
