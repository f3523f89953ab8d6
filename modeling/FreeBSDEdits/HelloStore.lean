import FreeBSDEdits.HelloWriteLaw

namespace FreeBSDEdits

/-- What the files are meant to hold. -/
abbrev Store := Path → Option (List UInt8)

/-- What a write leaves of the bytes before it, followed by the buffer. -/
def writeThrough (old : List UInt8) (buf : Nat → UInt8) (size : UInt64) (offset : Int64) : List UInt8 :=
  old.take offset.toInt.toNat ++ (List.range size.toNat).map buf

/-- A call with its reply, as an operation on the store. -/
def Store.apply (m : Store) : (Env × Call) × Reply → Store
  | ((_, .create p), .ok) => Function.update m p (some [])
  | ((_, .unlink p), .ok) => Function.update m p none
  | ((_, .write p buf size offset), .written _) =>
    Function.update m p ((m p).map (fun old => writeThrough old buf size offset))
  | _ => m

def contents : History → Store
  | [] => fun _ => none
  | e :: h => (contents h).apply e

theorem Store.apply_quiet {m : Store} {c : Env × Call} {r : Reply} (hq : Quiet c r) (p : Path) :
    m.apply (c, r) p = none ↔ m p = none := by
  obtain ⟨env, c⟩ := c
  cases c with
  | write q buf size offset =>
    cases r with
    | written n =>
      show Function.update m q _ p = none ↔ _
      by_cases hp : p = q
      · subst p
        rw [Function.update_self, Option.map_eq_none_iff]
      · rw [Function.update_of_ne hp]
    | err | ok | attr | entries | data => exact Iff.rfl
  | create => cases r <;> first | exact Iff.rfl | exact hq.elim
  | unlink => cases r <;> first | exact Iff.rfl | exact hq.elim
  | getattr | readdir | «open» | read | truncate => cases r <;> exact Iff.rfl

theorem contents_live (h : History) (p : Path) : contents h p = none ↔ p ∉ livePaths h := by
  induction h with
  | nil => exact iff_of_true rfl List.not_mem_nil
  | cons e h ih =>
    obtain ⟨c, r⟩ := e
    by_cases hq : Quiet c r
    · rw [livePaths_quiet hq, ← ih]
      exact Store.apply_quiet hq p
    · obtain ⟨rfl, env, q, rfl | rfl⟩ := of_not_quiet hq
      · show Function.update (contents h) q (some []) p = none ↔ p ∉ q :: livePaths h
        by_cases hp : p = q
        · subst p
          simp
        · rw [Function.update_of_ne hp, ih, List.mem_cons, not_or]
          exact (and_iff_right hp).symm
      · show Function.update (contents h) q none p = none ↔ p ∉ (livePaths h).filter (· ≠ q)
        by_cases hp : p = q
        · subst p
          simp
        · rw [Function.update_of_ne hp, ih, List.mem_filter]
          simp [hp]

/-- Creates, appends, rewrites through the end of a file, and calls that only look. No file gets longer
than the blocks that the staging buffer has room for. -/
def appends (h : History) (_ : Blocks) : Env × Call → Prop
  | (_, .write p _ size offset) => ∀ old ∈ contents h p,
      0 ≤ offset.toInt ∧ offset.toInt ≤ old.length ∧ old.length ≤ offset.toInt + size.toNat ∧
        offset.toInt + size.toNat ≤ (maxRequestSize / usableSpace * usableSpace : Nat)
  | (_, .truncate _ _) | (_, .unlink _) => False
  | _ => True

instance : ∀ h s c, Decidable (appends h s c) := by
  intro h s c
  obtain ⟨_, c⟩ := c
  rcases c <;> unfold appends <;> infer_instance

/-- A reply other than ENOMEM, ENOBUFS and ENAMETOOLONG. -/
def Reply.HasRoom (r : Reply) : Prop :=
  r ≠ .err .enomem ∧ r ≠ .err .enobufs ∧ r ≠ .err .enametoolong

instance (r : Reply) : Decidable r.HasRoom := by unfold Reply.HasRoom; infer_instance

namespace Blocks

variable {s s' : Blocks} {ps : List Path} {p : Path} {b : Nat} {l : List Nat}

/-- The volume holds the bytes `c` under the path `p`. -/
structure Holds (s : Blocks) (p : Path) (d : List UInt8) (b : Nat) (l : List Nat) : Prop where
  file : s.FileAt p b l
  size : (s.hdr b).fileSize.toInt = d.length
  room : d.length ≤ usableSpace * l.length
  bytes : ∀ k (hk : k < d.length), chainByte s.dat l k = d[k]

/-- Free blocks with clean headers, and on every path what the store says. -/
structure Refines (s : Blocks) (m : Store) : Prop where
  coherent : s.mem = s.bit
  clean : ∀ i, 1 ≤ i → i < numBlocks → s.bit i = 0 → (s.hdr i).name = [] ∧ (s.hdr i).next = 0
  holds : ∀ p c, m p = some c → ∃ b l, s.Holds p c b l

theorem FileAt.kept (h : s.FileAt p b l) (hk : s.KeepsFile s' b l) : s'.FileAt p b l :=
  ⟨hk.heads, by rw [hk.header]; exact h.name, hk.chain⟩

theorem Holds.kept {c : List UInt8} (h : s.Holds p c b l) (hk : s.KeepsFile s' b l) :
    s'.Holds p c b l := by
  refine ⟨h.file.kept hk, by rw [hk.header]; exact h.size, h.room, fun k hlt => ?_⟩
  rw [chainByte_congr hk.data (Nat.lt_of_lt_of_le hlt h.room)]
  exact h.bytes k hlt

/-- Only times differ in the headers. -/
theorem FileAt.congr (h : s.FileAt p b l) (hb : s'.bit = s.bit)
    (hn : ∀ i, (s'.hdr i).name = (s.hdr i).name) (hnext : s'.next = s.next) : s'.FileAt p b l :=
  ⟨(heads_congr hb hn b).mpr h.head, (hn b).trans h.name, by rw [hnext]; exact h.chain⟩

theorem Holds.congr {c : List UInt8} (h : s.Holds p c b l) (hb : s'.bit = s.bit)
    (hn : ∀ i, (s'.hdr i).name = (s.hdr i).name) (hnext : s'.next = s.next)
    (hsize : ∀ i, (s'.hdr i).fileSize = (s.hdr i).fileSize) (hd : s'.dat = s.dat) :
    s'.Holds p c b l := by
  refine ⟨h.file.congr hb hn hnext, by rw [hsize]; exact h.size, h.room, ?_⟩
  rw [hd]
  exact h.bytes

theorem touched_fileSize (s : Blocks) (env : Env) (b i : Nat) :
    (Function.update s.hdr b { s.hdr b with accessTime := env.now 0 } i).fileSize =
      (s.hdr i).fileSize := by
  by_cases hi : i = b
  · rw [hi, Function.update_self]
  · rw [Function.update_of_ne hi]

/-- The bytes of a file after a write that starts inside it and ends behind it. -/
theorem Holds.write {h : History} (hs : s.Separate ps) (hr : s.InRange) {env : Env}
    {buf : Nat → UInt8} {size : UInt64} {offset : Int64} {m : Int32} {old : List UInt8}
    (hh : s.Holds p old b l) (hold : contents h p = some old)
    (hok : s.GrowsSafely (.write p buf size offset))
    (happ : appends h s (env, .write p buf size offset))
    (hstep : s.Step (env, .write p buf size offset) s' (.written m)) :
    s'.Holds p (writeThrough old buf size offset) b (l ++ s.taken l (newSize size offset)) := by
  obtain ⟨hf, hsize, hchain, hbyte⟩ := hs.write_file hr hh.file hok hstep
  obtain ⟨h0, hin, hout, hmax⟩ := happ old hold
  have hmax : offset.toInt + size.toNat ≤ maxRequestSize := Int.le_trans hmax (by decide)
  have hnew := newSize_toInt h0 hmax
  have hloop := loopSize_newSize h0 hmax
  have hlen : (writeThrough old buf size offset).length = loopSize (newSize size offset) := by
    rw [writeThrough, List.length_append, List.length_take, List.length_map, List.length_range]
    omega
  refine ⟨hf, ?_, ?_, fun k hk => ?_⟩
  · rw [hsize, hlen, hnew, hloop]
  · rw [hlen]
    exact covers_of_length hchain
  · rw [hbyte k (hlen ▸ hk), copyIn]
    have htake : (old.take offset.toInt.toNat).length = offset.toInt.toNat := by
      rw [List.length_take]
      omega
    by_cases hlt : k < offset.toInt.toNat
    · have hroom := hh.room
      rw [if_neg (by omega), stageBlocks_at, if_pos (by omega), hh.bytes k (by omega)]
      simp only [writeThrough]
      rw [List.getElem_append_left (by omega), List.getElem_take]
    · rw [if_pos (by omega)]
      simp only [writeThrough]
      rw [List.getElem_append_right (by omega), List.getElem_map, List.getElem_range, htake]
      congr 1
      omega

theorem fresh_refines : fresh.Refines (contents []) :=
  ⟨rfl, fun _ _ _ _ => ⟨Metadata.name_zero, rfl⟩, fun _ _ hc => nomatch hc⟩

theorem Store.apply_reloads {m : Store} {c : Env × Call} {r : Reply} (hc : c.2.Reloads)
    (hq : Quiet c r) : m.apply (c, r) = m := by
  obtain ⟨env, c⟩ := c
  cases c <;> cases r <;> first | rfl | exact hq.elim | exact hc.elim

theorem Store.apply_looks {m : Store} {c : Env × Call} {r : Reply} (hc : c.2.Looks) :
    m.apply (c, r) = m := by
  obtain ⟨env, c⟩ := c
  cases c <;> cases r <;> first | rfl | exact hc.elim

/-- The calls of such a run keep the files apart. -/
theorem Refines.keeps_apart {m : Store} (hst : s.Refines m) {h : History} {c : Env × Call} {r : Reply}
    (hok : appends h s c) (hroom : r.HasRoom) (hstep : s.Step c s' r) : separates h s c := by
  have hfree : ∀ i ∈ freeBlocks s.mem, (s.hdr i).name = [] ∧ (s.hdr i).next = 0 := by
    intro i hi
    obtain ⟨h1, hlt, h0⟩ := mem_freeBlocks.mp hi
    exact hst.clean i h1 hlt (by rwa [hst.coherent] at h0)
  obtain ⟨env, c⟩ := c
  cases c with
  | write p buf size offset =>
    refine ⟨fun b hb l hl hmax => Or.inr ⟨?_, fun i _ hi => by rw [hst.coherent]; exact hi, ?_⟩, trivial⟩
    · cases hstep with
      | look hc => exact hc.elim
      | reload hc _ => exact hc.elim
      | writeNone hf =>
        rw [hf] at hb
        cases hb
      | writeBig _ _ _ => exact absurd rfl hroom.2.1
      | write hf hl' _ hle =>
        cases hf.symm.trans hb
        cases hl'.symm.trans hl
        exact hle
      | starve _ _ _ _ => exact absurd rfl hroom.1
    · intro t ht
      exact hfree t (taken_free (List.mem_of_getLast? ht))
  | create p =>
    refine ⟨fun _ _ i hi => ?_, trivial⟩
    obtain ⟨h1, hlt, h0⟩ := firstFree_some hi
    exact (hst.clean i h1 hlt h0).1
  | truncate => exact hok.elim
  | getattr | readdir | «open» | read | unlink => exact ⟨trivial, trivial⟩

theorem Refines.coherent_step {m : Store} (hst : s.Refines m) {h : History} {c : Env × Call}
    {r : Reply} (hok : appends h s c) (hroom : r.HasRoom) (hstep : s.Step c s' r) :
    s'.mem = s'.bit := by
  cases hstep with
  | look | writeNone | writeBig | truncateNone | keep => exact hst.coherent
  | touch => exact hst.coherent
  | reload | unlink | leak | create | write => rfl
  | starve => exact absurd rfl hroom.1
  | shrink | grow => exact hok.elim

/-- Free blocks keep their clean headers. -/
theorem Refines.clean_step {m : Store} (hst : s.Refines m) (hs : s.Separate ps) {h : History}
    {c : Env × Call} {r : Reply} (hok : appends h s c) (hroom : r.HasRoom) (hstep : s.Step c s' r)
    {i : Nat} (h1 : 1 ≤ i) (hlt : i < numBlocks) (h0 : s'.bit i = 0) :
    (s'.hdr i).name = [] ∧ (s'.hdr i).next = 0 := by
  -- a block that is free afterwards was free before; only its header may have changed
  have hold : ∀ marks l, s'.bit = mark marks l 1 → marks = s.bit → i ∉ l ∧ s.bit i = 0 := by
    rintro marks l he rfl
    rw [he, mark] at h0
    split at h0
    next => exact absurd h0 (by decide)
    next hi => exact ⟨hi, h0⟩
  cases hstep with
  | look | writeNone | writeBig | truncateNone | keep => exact hst.clean i h1 hlt h0
  | reload => exact hst.clean i h1 hlt h0
  | @touch env _ _ _ b =>
    obtain ⟨hn, hx⟩ := hst.clean i h1 hlt h0
    refine ⟨(s.touched_name env b i).trans hn, ?_⟩
    show (Function.update s.hdr b _ i).next = 0
    by_cases hi : i = b
    · subst i
      rw [Function.update_self]
      exact hx
    · rw [Function.update_of_ne hi]
      exact hx
  | @write env p buf size offset b l hf hl hmax hle =>
    obtain ⟨hi, hbi⟩ := hold s.mem _ rfl hst.coherent
    have hfile := hs.fileAt hf hl
    have hout : ∀ x ∈ l, i ≠ x := by
      rintro x hx rfl
      rw [(hs.chained.of_chain hfile.head hfile.chain hx).1] at hbi
      exact absurd hbi (by decide)
    have hsame := written_hdr_other env
      (copyIn (stageBlocks s.dat l 0 env.buffer) offset.toInt size.toNat buf)
      (l ++ s.taken l (newSize size offset)) (hout b hfile.chain.head_mem)
      (hout _ (hfile.chain.getLastD_mem b)) hi
    obtain ⟨hn, hx⟩ := hst.clean i h1 hlt hbi
    exact ⟨(congrArg Metadata.name hsame).trans hn, (congrArg Metadata.next hsame).trans hx⟩
  | starve => exact absurd rfl hroom.1
  | shrink | grow | unlink => exact hok.elim
  | leak => exact absurd rfl hroom.2.2
  | @create env p j hf hj hlen =>
    obtain ⟨hij, hbi⟩ := hold s.bit [j] rfl rfl
    show (Function.update s.hdr j _ i).name = [] ∧ (Function.update s.hdr j _ i).next = 0
    rw [Function.update_of_ne (by simpa using hij)]
    exact hst.clean i h1 hlt hbi

/-- A file that was just created is empty. -/
theorem create_holds (env : Env) {j : Nat} (hj : firstFree s.bit = some j)
    (hlen : p.chars.length < maxFilenameLength) :
    Holds { s with
      mem := mark s.bit [j] 1
      bit := mark s.bit [j] 1
      hdr := Function.update s.hdr j (s.createHead env p.chars) } p [] j [j] := by
  obtain ⟨h1, hlt, _⟩ := firstFree_some hj
  have hself : Function.update s.hdr j (s.createHead env p.chars) j = s.createHead env p.chars :=
    Function.update_self ..
  have hname : (s.createHead env p.chars).name = p.chars :=
    Metadata.name_strcpyFilename _ hlen p.nul_not_mem
  refine ⟨⟨⟨h1, hlt, mark_one_iff.mpr (Or.inl (by simp)), ?_⟩, ?_, .last ?_⟩, ?_, Nat.zero_le _, ?_⟩
  · show (Function.update s.hdr j _ j).name ≠ []
    rw [hself, hname]
    exact p.chars_ne_nil
  · show (Function.update s.hdr j _ j).name = p.chars
    rw [hself, hname]
  · show (Function.update s.hdr j _ j).successor = none
    rw [hself]
    rfl
  · show (Function.update s.hdr j _ j).fileSize.toInt = 0
    rw [hself]
    rfl
  · intro k hk
    exact absurd hk (Nat.not_lt_zero k)

/-- A call that changes `p` leaves what the other files hold. -/
theorem Refines.holds_other {h : History} (hst : s.Refines (contents h))
    (hs : s.Separate (livePaths h)) (hr : s.InRange) {c : Env × Call} {r : Reply}
    (hsep : separates h s c) (hstep : s.Step c s' r) (hc : c.2.Changes p) {q : Path} (hne : q ≠ p)
    {d : List UInt8} (hd : contents h q = some d) : ∃ b l, s'.Holds q d b l := by
  obtain ⟨b, l, hh⟩ := hst.holds q d hd
  refine ⟨b, l, hh.kept (hs.keepsFile hr hsep hstep hc hh.file.head (fun he => hne ?_) hh.file.chain)⟩
  exact Path.chars_inj (hh.file.name.symm.trans he)

theorem Refines.holds_step {h : History} (hst : s.Refines (contents h))
    (hs : s.Separate (livePaths h)) (hr : s.InRange) {c : Env × Call} {r : Reply}
    (hok : appends h s c) (hroom : r.HasRoom) (hstep : s.Step c s' r) {q : Path} {d : List UInt8}
    (hd : contents ((c, r) :: h) q = some d) : ∃ b l, s'.Holds q d b l := by
  have hsep := hst.keeps_apart hok hroom hstep
  change (contents h).apply (c, r) q = some d at hd
  cases hstep with
  | look hc =>
    rw [Store.apply_looks hc] at hd
    exact hst.holds q d hd
  | reload hc hq =>
    rw [Store.apply_reloads hc hq] at hd
    obtain ⟨b, l, hh⟩ := hst.holds q d hd
    exact ⟨b, l, hh.congr rfl (fun _ => rfl) rfl (fun _ => rfl) rfl⟩
  | @touch env _ _ _ b =>
    obtain ⟨i, l, hh⟩ := hst.holds q d hd
    exact ⟨i, l, hh.congr rfl (s.touched_name env b) (s.touched_next env b)
      (s.touched_fileSize env b) rfl⟩
  | writeNone | writeBig | truncateNone | keep => exact hst.holds q d hd
  | starve => exact absurd rfl hroom.1
  | leak => exact absurd rfl hroom.2.2
  | shrink | grow | unlink => exact hok.elim
  | @write env p buf size offset b l hf hl hmax hle =>
    have hwrite : s.Step (env, .write p buf size offset) _ _ := .write hf hl hmax hle
    by_cases hqp : q = p
    · subst q
      change Function.update (contents h) p _ p = some d at hd
      rw [Function.update_self] at hd
      obtain ⟨old, hold, rfl⟩ := Option.map_eq_some_iff.mp hd
      obtain ⟨i, m, hh⟩ := hst.holds p old hold
      exact ⟨i, _, hh.write hs hr hold hsep.1 hok hwrite⟩
    · change Function.update (contents h) p _ q = some d at hd
      rw [Function.update_of_ne hqp] at hd
      exact hst.holds_other hs hr hsep hwrite rfl hqp hd
  | @create env p j hf hj hlen =>
    by_cases hqp : q = p
    · subst q
      change Function.update (contents h) p _ p = some d at hd
      rw [Function.update_self] at hd
      cases hd
      exact ⟨j, [j], create_holds env hj hlen⟩
    · change Function.update (contents h) p _ q = some d at hd
      rw [Function.update_of_ne hqp] at hd
      exact hst.holds_other hs hr hsep (.create hf hj hlen) rfl hqp hd

end Blocks

/-- After every call of such a run the volume holds what the store says. -/
theorem BlockRun.refines {h : History} {s : Blocks} (hr : BlockRun appends h s)
    (hroom : ∀ e ∈ h, e.2.HasRoom) : s.Refines (contents h) ∧ s.Separate (livePaths h) := by
  have hinv : (∀ e ∈ h, e.2.HasRoom) → s.Refines (contents h) ∧ s.Separate (livePaths h) :=
    hr.invariant (P := fun h s => (∀ e ∈ h, e.2.HasRoom) →
        s.Refines (contents h) ∧ s.Separate (livePaths h))
      (fun _ => ⟨Blocks.fresh_refines, Blocks.fresh_separate⟩)
      (fun h s c s' r hrange hp hok hcall hall => by
        obtain ⟨hst, hs⟩ := hp (fun e he => hall e (List.mem_cons_of_mem _ he))
        have hr := hall (c, r) List.mem_cons_self
        have hstep := Blocks.step_of_call hcall
        exact ⟨⟨hst.coherent_step hok hr hstep, fun i => hst.clean_step hs hok hr hstep,
          fun _ _ => hst.holds_step hs hrange hok hr hstep⟩,
          hs.step hrange (hst.keeps_apart hok hr hstep) hstep⟩)
  exact hinv hroom

/-- The volume answers like a store that holds `m`. -/
structure Serves (answers : Env × Call → Option Reply) (m : Store) : Prop where
  length : ∀ p c, m p = some c → HasSize answers p c.length
  missing : ∀ p, m p = none → ∀ env, answers (env, .getattr (some p)) = some (.err .enoent)
  slice : ∀ p c, m p = some c → ∀ env (size : UInt64) (offset : Int64), 0 ≤ offset.toInt →
    offset.toInt + size.toNat < 2 ^ 64 →
      ∃ n : Int32, n.toInt = ((c.drop offset.toInt.toNat).take size.toNat).length ∧
        answers (env, .read p size offset) =
          some (.data n ((c.drop offset.toInt.toNat).take size.toNat))
  listed : ∀ env, ∃ names, answers (env, .readdir none) = some (.entries ([46] :: [46, 46] :: names)) ∧
    names.Nodup ∧ ∀ name, name ∈ names ↔ ∃ p : Path, m p ≠ none ∧ p.file = name

namespace Blocks

variable {s s' : Blocks} {ps : List Path} {p : Path} {b : Nat} {l : List Nat}

theorem Holds.slice {c : List UInt8} (h : s.Holds p c b l) (hs : s.Separate ps) (hr : s.InRange)
    (env : Env) {size : UInt64} {offset : Int64} (h0 : 0 ≤ offset.toInt)
    (hend : offset.toInt + size.toNat < 2 ^ 64) :
    ∃ n : Int32, n.toInt = ((c.drop offset.toInt.toNat).take size.toNat).length ∧
      s.answers (env, .read p size offset) =
        some (.data n ((c.drop offset.toInt.toNat).take size.toNat)) := by
  have hn := readSize_eq (s.hdr b).fileSize h0 hend
  have hlt := (s.hdr b).fileSize.toInt_lt
  have hsize := h.size
  have hlen : ((c.drop offset.toInt.toNat).take size.toNat).length =
      readSize (s.hdr b).fileSize size offset := by
    rw [List.length_take, List.length_drop, hn]
    omega
  have hbytes : copyOut (stageBlocks s.dat l 0 env.buffer) offset.toInt
      (readSize (s.hdr b).fileSize size offset) = (c.drop offset.toInt.toNat).take size.toNat := by
    refine List.ext_getElem (by rw [copyOut, List.length_map, List.length_range, hlen]) ?_
    intro i hi hi'
    rw [hlen] at hi'
    have hroom := h.room
    have hpos : offset.toInt + (i : Nat) = (offset.toInt.toNat + i : Nat) := by omega
    simp only [copyOut, List.getElem_map, List.getElem_range, List.getElem_take, List.getElem_drop]
    rw [hpos, stageBlocks_at, if_pos (by omega), h.bytes _ (by omega)]
  refine ⟨_, ?_, (h.file.read_answer hs hr env size offset).trans (by rw [hbytes])⟩
  rw [hlen]
  exact Int32.toInt_ofNat_of_lt (by omega)

/-- A volume that holds what the store says answers like it. -/
theorem Refines.serves {h : History} (hst : s.Refines (contents h)) (hs : s.Separate (livePaths h))
    (hr : s.InRange) : Serves s.answers (contents h) := by
  constructor
  case length =>
    intro p c hc
    obtain ⟨b, l, hh⟩ := hst.holds p c hc
    rw [← hh.size]
    exact hh.file.hasSize hs
  case missing =>
    intro p hp env
    have hnone : s.lookup s.bit p.chars = none := by
      by_contra hf
      exact (contents_live h p).mp hp ((hs.lists.live_iff p).mp hf)
    exact congrArg some ((s.getattr_enoent p).mpr hnone)
  case slice =>
    intro p c hc env size offset h0 hend
    obtain ⟨b, l, hh⟩ := hst.holds p c hc
    exact hh.slice hs hr env h0 hend
  case listed =>
    intro env
    have hperm := hs.lists.names_perm hs.names
    refine ⟨s.names, ?_, hperm.nodup_iff.mpr hs.lists.files_nodup, fun name => ?_⟩
    · show some (s.readdir rootPath).2 = _
      rw [readdir, if_neg (not_not.mpr rfl)]
    · rw [hperm.mem_iff, List.mem_map]
      constructor
      · rintro ⟨p, hp, he⟩
        exact ⟨p, fun hc => (contents_live h p).mp hc hp, he⟩
      · rintro ⟨p, hp, he⟩
        exact ⟨p, not_not.mp (fun hq => hp ((contents_live h p).mpr hq)), he⟩

/-- A write to a file of the store comes to an end and is refused for lack of blocks only. -/
theorem Refines.write_some {h : History} (hst : s.Refines (contents h))
    (hs : s.Separate (livePaths h)) (hr : s.InRange) {env : Env} {buf : Nat → UInt8} {size : UInt64}
    {offset : Int64} {old : List UInt8} (hold : contents h p = some old)
    (happ : appends h s (env, .write p buf size offset)) :
    ∃ s' r, s.call (env, .write p buf size offset) = some (s', r) ∧
      (r = .err .enomem ∨ r = .written (.ofNat size.toNat)) := by
  obtain ⟨b, l, hh⟩ := hst.holds p old hold
  obtain ⟨h0, hin, hout, hmax⟩ := happ old hold
  have hmax : offset.toInt + size.toNat ≤ maxRequestSize := Int.le_trans hmax (by decide)
  show ∃ s' r, s.write env p.chars buf size offset = some (s', r) ∧ _
  simp only [write, hh.file.lookup_mem hs, hh.file.chain_some hr, Option.map_some]
  rw [if_neg (by rw [newSize_toInt h0 hmax]; omega)]
  split
  next => exact ⟨_, _, rfl, Or.inr rfl⟩
  next => exact ⟨_, _, rfl, Or.inl rfl⟩

end Blocks

/-- Creates, appends and reads of files act on the volume as they act on a map from paths to byte
strings. -/
theorem append_workload_refines_store {h : History} {w : World} (hr : Reaches appends h w)
    (hroom : ∀ e ∈ h, e.2.HasRoom) :
    Serves w.answers (contents h) ∧
    ∀ env p buf size offset old, contents h p = some old →
      appends h w.view (env, .write p buf size offset) →
        ∃ w' r, fuseCall w (env, .write p buf size offset) = some (w', r) ∧
          (r.HasRoom → r = .written (.ofNat size.toNat) ∧
            Serves w'.answers (Function.update (contents h) p
              (some (writeThrough old buf size offset)))) := by
  obtain ⟨⟨mode, hs⟩, hrun⟩ := hr.blockRun
  obtain ⟨hst, hsep⟩ := hrun.refines hroom
  constructor
  · rw [hs.answers_eq]
    exact hst.serves hsep hs.range
  · intro env p buf size offset old hold happ
    obtain ⟨s', r, hcall, hr'⟩ := hst.write_some hsep hs.range hold happ
    obtain ⟨mode', w', hw, hs'⟩ := call_some hs hcall
    refine ⟨w', r, hw, fun hroom' => ?_⟩
    obtain rfl := hr'.resolve_left hroom'.1
    obtain ⟨hst', hsep'⟩ := BlockRun.refines (.next hrun happ hcall) (fun e he => by
      rcases List.mem_cons.mp he with rfl | he
      · exact hroom'
      · exact hroom e he)
    have hserves := hst'.serves hsep' hs'.range
    have happly : contents (((env, .write p buf size offset), .written (.ofNat size.toNat)) :: h) =
        Function.update (contents h) p (some (writeThrough old buf size offset)) := by
      show Function.update (contents h) p ((contents h p).map _) = _
      rw [hold, Option.map_some]
    rw [happly] at hserves
    rw [hs'.answers_eq]
    exact ⟨rfl, hserves⟩

set_option maxRecDepth 100000 in
/-- Two files that grow in turn. -/
theorem append_workload_refines_store_two : ∃ h w, Reaches appends h w ∧
    contents h pathB = some [89, 90, 90] ∧ (contents h pathA).map List.length = some 9500 ∧
    Serves w.answers (contents h) := by
  obtain ⟨h, w, hr, hc⟩ := reaches_of_plays appends
    [plain (.create pathA), plain (.create pathB), plain (.write pathA (fun _ => 88) 5000 0),
      plain (.write pathB (fun _ => 89) 2 0), plain (.read pathA 5000 0),
      plain (.write pathA (fun _ => 87) 5000 4500), plain (.write pathB (fun _ => 90) 2 1)]
    (fun h _ => (∀ e ∈ h, e.2.HasRoom) ∧ contents h pathB = some [89, 90, 90] ∧
      (contents h pathA).map List.length = some 9500) (by decide +kernel)
  obtain ⟨hroom, hb, ha⟩ := of_decide_eq_true hc
  exact ⟨h, w, hr, hb, ha, (append_workload_refines_store hr hroom).1⟩

end FreeBSDEdits
