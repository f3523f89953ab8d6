import FreeBSDEdits.HelloIsolation

namespace FreeBSDEdits

/-- What a volume hands back for each call. -/
def World.answers (w : World) (c : Env × Call) : Option Reply := (fuseCall w c).map Prod.snd

def Blocks.answers (s : Blocks) (c : Env × Call) : Option Reply := (s.call c).map Prod.snd

theorem World.Shows.answers_eq {w : World} {mode : OpenMode} {s : Blocks} (hs : w.Shows mode s) :
    w.answers = s.answers := funext (replies_eq hs)

/-- Every read that covers position `k` of a file finds the byte `x` there. -/
def ReadsByte (answers : Env × Call → Option Reply) (p : Path) (k : Nat) (x : UInt8) : Prop :=
  ∀ env (size : UInt64) (offset : Int64), 0 ≤ offset.toInt → offset.toInt + size.toNat < 2 ^ 64 →
    offset.toInt ≤ k → k < offset.toInt + size.toNat →
      ∃ n bytes, answers (env, .read p size offset) = some (.data n bytes) ∧
        bytes[k - offset.toInt.toNat]? = some x

/-- hello_read and hello_write find the file `p`, and its blocks fit the array that they keep on their
stacks. Beyond it what they return is undefined. -/
def Blocks.StagesInside (s : Blocks) (p : Path) : Prop :=
  ∃ b l, s.lookup s.mem p.chars = some b ∧ s.chain b = some l ∧
    l.length ≤ maxRequestSize / usableSpace

/-- getattr reports a file of `n` bytes. -/
def HasSize (answers : Env × Call → Option Reply) (p : Path) (n : Int) : Prop :=
  ∀ env, ∃ st, answers (env, .getattr (some p)) = some (.attr st) ∧ st.stSize = n

theorem HasSize.unique {answers : Env × Call → Option Reply} {p : Path} {n m : Int} (env : Env)
    (h : HasSize answers p n) (h' : HasSize answers p m) : n = m := by
  obtain ⟨st, ha, hn⟩ := h env
  obtain ⟨st', ha', hm⟩ := h' env
  rw [ha] at ha'
  cases ha'
  exact hn.symm.trans hm

/-- What hello_read returns when the end of the read fits `size_t`. -/
theorem readSize_eq (fileSize : Int32) {size : UInt64} {offset : Int64} (h0 : 0 ≤ offset.toInt)
    (hend : offset.toInt + size.toNat < 2 ^ 64) :
    readSize fileSize size offset =
      (min (offset.toInt + size.toNat) fileSize.toInt - offset.toInt).toNat := by
  have hf := fileSize.toInt_lt
  rw [readSize]
  by_cases hlt : offset.toInt < fileSize.toInt
  · have hsum : cSize (offset.toInt + size.toNat) = (offset.toInt + size.toNat).toNat :=
      congrArg Int.toNat (Int.emod_eq_of_lt (by omega) hend)
    have hsize : cSize fileSize.toInt = fileSize.toInt.toNat :=
      congrArg Int.toNat (Int.emod_eq_of_lt (by omega) (by omega))
    have hrest : cSize (fileSize.toInt - offset.toInt) = (fileSize.toInt - offset.toInt).toNat :=
      congrArg Int.toNat (Int.emod_eq_of_lt (by omega) (by omega))
    rw [if_pos hlt, hsum, hsize, hrest]
    split <;> omega
  · rw [if_neg hlt]
    omega

theorem getElem?_copyOut (buffer : Int → UInt8) (offset : Int) {n j : Nat} (hj : j < n) :
    (copyOut buffer offset n)[j]? = some (buffer (offset + j)) := by
  rw [copyOut, List.getElem?_map, List.getElem?_range hj]
  rfl

namespace Blocks

variable {s s' : Blocks}

/-- The file `p` starts at block `b` and goes on along the chain `l`. -/
structure FileAt (s : Blocks) (p : Path) (b : Nat) (l : List Nat) : Prop where
  head : s.Heads b
  name : (s.hdr b).name = p.chars
  chain : LinkedChain s.next b l

variable {ps : List Path} {p : Path} {b : Nat} {l : List Nat}

theorem Separate.fileAt (hs : s.Separate ps) (hf : s.lookup s.mem p.chars = some b)
    (hl : s.chain b = some l) : s.FileAt p b l := by
  obtain ⟨hb, hn⟩ := (hs.lookup_mem p b).mp hf
  exact ⟨hb, hn, .of_follow hl⟩

theorem FileAt.lookup_mem (h : s.FileAt p b l) (hs : s.Separate ps) :
    s.lookup s.mem p.chars = some b := (hs.lookup_mem p b).mpr ⟨h.head, h.name⟩

theorem FileAt.lookup_bit (h : s.FileAt p b l) (hs : s.Separate ps) :
    s.lookup s.bit p.chars = some b := (hs.lists.lookup_iff p b).mpr ⟨h.head, h.name⟩

theorem FileAt.chain_some (h : s.FileAt p b l) (hr : s.InRange) : s.chain b = some l :=
  (hr.chain_iff h.head.1 h.head.2.1).mpr h.chain

theorem FileAt.getattr_answer (h : s.FileAt p b l) (hs : s.Separate ps) (env : Env) :
    s.answers (env, .getattr (some p)) = some (.attr (fileStat (s.hdr b))) := by
  have hf : lookup { s with mem := s.bit } s.bit p.chars = some b := h.lookup_bit hs
  show some (s.getattr p.chars).2 = _
  simp only [getattr, if_neg p.chars_ne_root, hf]

theorem read_answer (hf : s.lookup s.mem p.chars = some b) (hl : s.chain b = some l) (env : Env)
    (size : UInt64) (offset : Int64) :
    s.answers (env, .read p size offset) =
      some (.data (.ofNat (readSize (s.hdr b).fileSize size offset))
        (copyOut (stageBlocks s.dat l 0 env.buffer) offset.toInt
          (readSize (s.hdr b).fileSize size offset))) := by
  show (s.read env p.chars size offset).map Prod.snd = _
  simp only [read, hf, hl, Option.map_some]

theorem FileAt.read_answer (h : s.FileAt p b l) (hs : s.Separate ps) (hr : s.InRange) (env : Env)
    (size : UInt64) (offset : Int64) :
    s.answers (env, .read p size offset) =
      some (.data (.ofNat (readSize (s.hdr b).fileSize size offset))
        (copyOut (stageBlocks s.dat l 0 env.buffer) offset.toInt
          (readSize (s.hdr b).fileSize size offset))) :=
  Blocks.read_answer (h.lookup_mem hs) (h.chain_some hr) env size offset

/-- getattr reads nothing from its stack. -/
theorem hasSize_of_answer {env : Env} {st : Stat}
    (h : s.answers (env, .getattr (some p)) = some (.attr st)) : HasSize s.answers p st.stSize :=
  fun _ => ⟨st, h, rfl⟩

theorem FileAt.hasSize (h : s.FileAt p b l) (hs : s.Separate ps) :
    HasSize s.answers p (s.hdr b).fileSize.toInt :=
  fun env => ⟨_, h.getattr_answer hs env, rfl⟩

/-- The staging buffer holds the bytes of the chain, and behind them what the stack held. -/
theorem stageBlocks_at (dat : Nat → Nat → UInt8) (l : List Nat) (buffer : Int → UInt8) (k : Nat) :
    stageBlocks dat l 0 buffer k =
      if k < usableSpace * l.length then chainByte dat l k else buffer k := by
  split
  next hk =>
    have hin := stageBlocks_inside dat 0 buffer hk
    rwa [Nat.zero_add] at hin
  next hk => exact stageBlocks_outside dat buffer (Or.inr (by omega))

/-- Inside the file a read hands back the staged bytes. -/
theorem read_byte (hf : s.lookup s.mem p.chars = some b) (hl : s.chain b = some l) (env : Env)
    {size : UInt64} {offset : Int64} (h0 : 0 ≤ offset.toInt)
    (hend : offset.toInt + size.toNat < 2 ^ 64) {k : Nat} (hk : (k : Int) < (s.hdr b).fileSize.toInt)
    (hle : offset.toInt ≤ k) (hlt : k < offset.toInt + size.toNat) :
    ∃ n bytes, s.answers (env, .read p size offset) = some (.data n bytes) ∧
      bytes[k - offset.toInt.toNat]? =
        some (if k < usableSpace * l.length then chainByte s.dat l k else env.buffer k) := by
  refine ⟨_, _, read_answer hf hl env size offset, ?_⟩
  have hin : k - offset.toInt.toNat < readSize (s.hdr b).fileSize size offset := by
    rw [readSize_eq _ h0 hend]
    omega
  have hpos : offset.toInt + (k - offset.toInt.toNat : Nat) = k := by omega
  rw [getElem?_copyOut _ _ hin, hpos, stageBlocks_at]

/-- A read of one byte, with a stack full of another one. -/
theorem readsByte_one {answers : Env × Call → Option Reply} {k : Nat} {x : UInt8}
    (hx : ReadsByte answers p k x) (hk : k < 2 ^ 31) (y : UInt8) :
    ∃ n bytes, answers (⟨.zero, fun _ => y, fun _ => ⟨0, 0⟩⟩, .read p 1 (.ofInt k)) =
        some (.data n bytes) ∧ bytes[0]? = some x := by
  have hone : (1 : UInt64).toNat = 1 := rfl
  have hoff : (Int64.ofInt k).toInt = k := Int64.toInt_ofInt_of_le (by omega) (by omega)
  obtain ⟨n, bytes, ha, hb⟩ := hx ⟨.zero, fun _ => y, fun _ => ⟨0, 0⟩⟩ 1 (.ofInt k) (by omega)
    (by omega) (by omega) (by omega)
  have h0 : k - (Int64.ofInt k).toInt.toNat = 0 := by omega
  rw [h0] at hb
  exact ⟨n, bytes, ha, hb⟩

theorem readsByte_iff (hf : s.lookup s.mem p.chars = some b) (hl : s.chain b = some l) {k : Nat}
    (hk : (k : Int) < (s.hdr b).fileSize.toInt) {x : UInt8} :
    ReadsByte s.answers p k x ↔ k < usableSpace * l.length ∧ chainByte s.dat l k = x := by
  have hlt := (s.hdr b).fileSize.toInt_lt
  constructor
  · intro hx
    have hboth : ∀ y : UInt8, (if k < usableSpace * l.length then chainByte s.dat l k else y) = x := by
      intro y
      have hone : (1 : UInt64).toNat = 1 := rfl
      have hoff : (Int64.ofInt k).toInt = k := Int64.toInt_ofInt_of_le (by omega) (by omega)
      obtain ⟨n, bytes, ha, hb⟩ := readsByte_one hx (by omega) y
      obtain ⟨n', bytes', ha', hb'⟩ := read_byte hf hl ⟨.zero, fun _ => y, fun _ => ⟨0, 0⟩⟩
        (show 0 ≤ (Int64.ofInt k).toInt by omega)
        (show (Int64.ofInt k).toInt + (1 : UInt64).toNat < 2 ^ 64 by omega) hk (by omega) (by omega)
      have h0 : k - (Int64.ofInt k).toInt.toNat = 0 := by omega
      rw [ha] at ha'
      cases ha'
      rw [h0, hb] at hb'
      exact (Option.some.inj hb').symm
    by_cases hin : k < usableSpace * l.length
    · have hsame := hboth 0
      rw [if_pos hin] at hsame
      exact ⟨hin, hsame⟩
    · have h1 := hboth 0
      have h2 := hboth 1
      rw [if_neg hin] at h1 h2
      exact absurd (h1.trans h2.symm) (by decide)
  · rintro ⟨hin, hx⟩ env size offset h0 hend hle hcov
    obtain ⟨n, bytes, ha, hb⟩ := read_byte hf hl env h0 hend hk hle hcov
    refine ⟨n, bytes, ha, ?_⟩
    rw [hb, if_pos hin, hx]

theorem FileAt.readsByte_iff (h : s.FileAt p b l) (hs : s.Separate ps) (hr : s.InRange) {k : Nat}
    (hk : (k : Int) < (s.hdr b).fileSize.toInt) {x : UInt8} :
    ReadsByte s.answers p k x ↔ k < usableSpace * l.length ∧ chainByte s.dat l k = x :=
  Blocks.readsByte_iff (h.lookup_mem hs) (h.chain_some hr) hk

/-- Behind the end of the file there is nothing to read. -/
theorem readsByte_inside (hf : s.lookup s.mem p.chars = some b) {k : Nat} {x : UInt8}
    (hk : k < 2 ^ 31) (hx : ReadsByte s.answers p k x) : (k : Int) < (s.hdr b).fileSize.toInt := by
  have hone : (1 : UInt64).toNat = 1 := rfl
  have hoff : (Int64.ofInt k).toInt = k := Int64.toInt_ofInt_of_le (by omega) (by omega)
  obtain ⟨n, bytes, ha, hb⟩ := readsByte_one hx hk 0
  cases hl : s.chain b with
  | none =>
    have hnone : s.answers (⟨.zero, fun _ => 0, fun _ => ⟨0, 0⟩⟩, .read p 1 (.ofInt k)) = none := by
      show (s.read _ p.chars 1 (.ofInt k)).map Prod.snd = _
      simp only [read, hf, hl, Option.map_none]
    rw [hnone] at ha
    cases ha
  | some l =>
    rw [read_answer hf hl] at ha
    cases ha
    have hlen := (List.getElem?_eq_some_iff.mp hb).1
    rw [copyOut, List.length_map, List.length_range, readSize_eq _ (by omega) (by omega)] at hlen
    omega

end Blocks

end FreeBSDEdits
