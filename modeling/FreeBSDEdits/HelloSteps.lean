import FreeBSDEdits.HelloRuns

namespace FreeBSDEdits

instance : DecidableEq Path := fun p q =>
  decidable_of_iff (p.file = q.file) ⟨fun h => by cases p; cases q; simpa using h, fun h => h ▸ rfl⟩

/-- The paths created and not unlinked since. -/
def livePaths : History → List Path
  | [] => []
  | ((_, .create p), .ok) :: h => p :: livePaths h
  | ((_, .unlink p), .ok) :: h => (livePaths h).filter (· ≠ p)
  | _ :: h => livePaths h

/-- Neither a successful create nor a successful unlink. -/
def Quiet : Env × Call → Reply → Prop
  | (_, .create _), .ok => False
  | (_, .unlink _), .ok => False
  | _, _ => True

theorem livePaths_quiet {c : Env × Call} {r : Reply} (hq : Quiet c r) (h : History) :
    livePaths ((c, r) :: h) = livePaths h := by
  obtain ⟨env, c⟩ := c
  cases c <;> cases r <;> first | rfl | exact hq.elim

theorem of_not_quiet {c : Env × Call} {r : Reply} (hq : ¬Quiet c r) :
    r = .ok ∧ ∃ env p, c = (env, .create p) ∨ c = (env, .unlink p) := by
  obtain ⟨env, c⟩ := c
  cases c with
  | create p => cases r <;> first | exact ⟨rfl, env, p, Or.inl rfl⟩ | exact absurd trivial hq
  | unlink p => cases r <;> first | exact ⟨rfl, env, p, Or.inr rfl⟩ | exact absurd trivial hq
  | getattr | readdir | «open» | read | write | truncate => exact absurd trivial hq

/-- The calls that only look at the volume, with the bitmap in memory. -/
def Call.Looks : Call → Prop
  | .readdir _ | .open _ | .read _ _ _ => True
  | _ => False

/-- The calls that start by loading the bitmap. -/
def Call.Reloads : Call → Prop
  | .getattr _ | .unlink _ | .create _ => True
  | _ => False

theorem Call.Looks.quiet {c : Call} (h : c.Looks) (env : Env) (r : Reply) : Quiet (env, c) r := by
  cases c <;> cases r <;> trivial

namespace Blocks

/-- What one completed call does to the blocks. -/
inductive Step (s : Blocks) : Env × Call → Blocks → Reply → Prop
  | look {env c r} : c.Looks → Step s (env, c) s r
  | reload {env c r} : c.Reloads → Quiet (env, c) r → Step s (env, c) { s with mem := s.bit } r
  | writeNone {env path buf size offset} : s.lookup s.mem path.chars = none →
      Step s (env, .write path buf size offset) s (.err .enoent)
  | writeBig {env path buf size offset b l} : s.lookup s.mem path.chars = some b →
      s.chain b = some l → maxRequestSize < (newSize size offset).toInt →
      Step s (env, .write path buf size offset) s (.err .enobufs)
  | truncateNone {env path size} : s.lookup s.mem path.chars = none →
      Step s (env, .truncate path size) s (.err .enoent)
  | keep {env path size b} : s.lookup s.mem path.chars = some b →
      size.toInt = (s.hdr b).fileSize.toInt ∨ size.toInt < (s.hdr b).fileSize.toInt ∧
        s.rawNext^[blocksFor (cSize size.toInt)] b = 0 →
      Step s (env, .truncate path size) s .ok
  | touch {env path size offset b l bytes n} : s.lookup s.mem path.chars = some b →
      s.chain b = some l → Step s (env, .read path size offset)
        { s with hdr := Function.update s.hdr b { s.hdr b with accessTime := env.now 0 } }
        (.data n bytes)
  | write {env path buf size offset b l} : s.lookup s.mem path.chars = some b →
      s.chain b = some l → (newSize size offset).toInt ≤ maxRequestSize →
      lacking l (newSize size offset) ≤ (freeBlocks s.mem).length →
      Step s (env, .write path buf size offset)
        { s.written env b l (newSize size offset)
            (copyIn (stageBlocks s.dat l 0 env.buffer) offset.toInt size.toNat buf)
            (l ++ s.taken l (newSize size offset)) with
          bit := mark s.mem (s.taken l (newSize size offset)) 1 }
        (.written (.ofNat size.toNat))
  | starve {env path buf size offset b l} : s.lookup s.mem path.chars = some b →
      s.chain b = some l → (newSize size offset).toInt ≤ maxRequestSize →
      (freeBlocks s.mem).length < lacking l (newSize size offset) →
      Step s (env, .write path buf size offset)
        (s.written env b l (newSize size offset)
          (copyIn (stageBlocks s.dat l 0 env.buffer) offset.toInt size.toNat buf)
          (l ++ s.taken l (newSize size offset)).dropLast)
        (.err .enomem)
  | shrink {env path size b l} : s.lookup s.mem path.chars = some b →
      size.toInt < (s.hdr b).fileSize.toInt →
      s.rawNext^[blocksFor (cSize size.toInt)] b ≠ 0 →
      s.chain (s.rawNext^[blocksFor (cSize size.toInt)] b) = some l →
      Step s (env, .truncate path size) { s with mem := mark s.mem l 0 } .ok
  | grow {env path size b r} : s.lookup s.mem path.chars = some b →
      (s.hdr b).fileSize.toInt < size.toInt → r = .ok ∨ r = .err .enomem →
      Step s (env, .truncate path size)
        { s with mem := (growMarks s.next (blocksFor (cSize size.toInt) - 1) s.mem b).1 } r
  | unlink {env path b l} : s.lookup s.bit path.chars = some b → s.chain b = some l →
      Step s (env, .unlink path) { s with mem := mark s.bit l 0, bit := mark s.bit l 0 } .ok
  | leak {env path i} : s.lookup s.bit path.chars = none → firstFree s.bit = some i →
      maxFilenameLength ≤ path.chars.length → Step s (env, .create path)
        { s with mem := mark s.bit [i] 1, bit := mark s.bit [i] 1 } (.err .enametoolong)
  | create {env path i} : s.lookup s.bit path.chars = none → firstFree s.bit = some i →
      path.chars.length < maxFilenameLength → Step s (env, .create path)
        { s with
          mem := mark s.bit [i] 1
          bit := mark s.bit [i] 1
          hdr := Function.update s.hdr i (s.createHead env path.chars) } .ok

theorem step_read {s s' : Blocks} {env : Env} {path : Path} {size : UInt64} {offset : Int64}
    {r : Reply} (h : s.read env path.chars size offset = some (s', r)) :
    s.Step (env, .read path size offset) s' r := by
  unfold read at h
  split at h
  next =>
    cases h
    exact .look trivial
  next b hf =>
    obtain ⟨l, hl, he⟩ := Option.map_eq_some_iff.mp h
    cases he
    exact .touch hf hl

theorem step_write {s s' : Blocks} {env : Env} {path : Path} {buf : Nat → UInt8} {size : UInt64}
    {offset : Int64} {r : Reply} (h : s.write env path.chars buf size offset = some (s', r)) :
    s.Step (env, .write path buf size offset) s' r := by
  unfold write at h
  split at h
  next hf =>
    cases h
    exact .writeNone hf
  next b hf =>
    obtain ⟨l, hl, he⟩ := Option.map_eq_some_iff.mp h
    simp only at he
    split at he
    next hmax =>
      cases he
      exact .writeBig hf hl hmax
    next hmax =>
      split at he
      next hroom =>
        cases he
        exact .write hf hl (Int.not_lt.mp hmax) hroom
      next hroom =>
        cases he
        exact .starve hf hl (Int.not_lt.mp hmax) (Nat.lt_of_not_le hroom)

theorem step_truncate {s s' : Blocks} {env : Env} {path : Path} {size : Int64} {r : Reply}
    (h : s.truncate path.chars size = some (s', r)) : s.Step (env, .truncate path size) s' r := by
  unfold truncate at h
  split at h
  next hf =>
    cases h
    exact .truncateNone hf
  next b hf =>
    simp only at h
    split at h
    next hlt =>
      split at h
      next h0 =>
        cases h
        exact .keep hf (Or.inr ⟨hlt, h0⟩)
      next h0 =>
        obtain ⟨l, hl, he⟩ := Option.map_eq_some_iff.mp h
        cases he
        exact .shrink hf hlt h0 hl
    next hlt =>
      split at h
      next hgt =>
        split at h
        next mem hg =>
          cases h
          have hs : s.Step (env, .truncate path size) { s with
              mem := (growMarks s.next (blocksFor (cSize size.toInt) - 1) s.mem b).1 } .ok :=
            .grow hf hgt (Or.inl rfl)
          rwa [hg] at hs
        next mem hg =>
          cases h
          have hs : s.Step (env, .truncate path size) { s with
              mem := (growMarks s.next (blocksFor (cSize size.toInt) - 1) s.mem b).1 }
              (.err .enomem) := .grow hf hgt (Or.inr rfl)
          rwa [hg] at hs
      next hgt =>
        cases h
        exact .keep hf (Or.inl (by omega))

theorem step_unlink {s s' : Blocks} {env : Env} {path : Path} {r : Reply}
    (h : s.unlink path.chars = some (s', r)) : s.Step (env, .unlink path) s' r := by
  unfold unlink at h
  split at h
  next =>
    cases h
    exact .reload trivial trivial
  next b hf =>
    obtain ⟨l, hl, he⟩ := Option.map_eq_some_iff.mp h
    cases he
    exact .unlink hf hl

theorem step_create (s : Blocks) (env : Env) (path : Path) :
    s.Step (env, .create path) (s.create env path.chars).1 (s.create env path.chars).2 := by
  unfold create
  split
  next => exact .reload trivial trivial
  next hf =>
    split
    next => exact .reload trivial trivial
    next i hi =>
      simp only
      split
      next hlen => exact .leak hf hi hlen
      next hlen => exact .create hf hi (Nat.lt_of_not_le hlen)

theorem step_getattr (s : Blocks) (env : Env) (path : Option Path) :
    s.Step (env, .getattr path) (s.getattr (dirChars path)).1 (s.getattr (dirChars path)).2 := by
  unfold getattr
  simp only
  split
  next => exact .reload trivial trivial
  next => split <;> exact .reload trivial trivial

theorem step_of_call {s s' : Blocks} {c : Env × Call} {r : Reply} (h : s.call c = some (s', r)) :
    s.Step c s' r := by
  obtain ⟨env, c⟩ := c
  cases c with
  | getattr path =>
    have he : s.getattr (dirChars path) = (s', r) := Option.some.inj h
    have hs := s.step_getattr env path
    rwa [he] at hs
  | readdir path =>
    have he := Option.some.inj h
    unfold readdir at he
    split at he <;> cases he <;> exact .look trivial
  | «open» path =>
    have he := Option.some.inj h
    unfold openFile at he
    split at he <;> cases he <;> exact .look trivial
  | read path size offset => exact step_read h
  | write path buf size offset => exact step_write h
  | truncate path size => exact step_truncate h
  | unlink path => exact step_unlink h
  | create path =>
    have he : s.create env path.chars = (s', r) := Option.some.inj h
    have hs := s.step_create env path
    rwa [he] at hs

end Blocks

end FreeBSDEdits
