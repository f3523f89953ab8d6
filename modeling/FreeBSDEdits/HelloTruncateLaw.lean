import FreeBSDEdits.HelloAnswers

namespace FreeBSDEdits

/-- The chain `l` ends with its first `m` blocks, and exactly the blocks behind them are released. -/
structure Blocks.CutsBehind (s t : Blocks) (l : List Nat) (m : Nat) : Prop where
  ends : ∀ x ∈ (l.take m).getLast?, (t.hdr x).next = 0
  freed : ∀ x ∈ l.drop m, t.mem x = 0 ∧ t.bit x = 0
  others : ∀ x ∈ blockRange, x ∉ l.drop m →
    (s.mem x = 1 → t.mem x = 1) ∧ (s.bit x = 1 → t.bit x = 1)

/-- What a successful truncate of `p` to `n` bytes does. -/
structure TruncateLaw (w w' : World) (p : Path) (n : Nat) : Prop where
  length : HasSize w'.answers p n
  staged : w'.view.StagesInside p
  bytes : ∃ old, HasSize w.answers p old ∧
    (∀ k : Nat, k < n → k < old → ∃ x, ReadsByte w.answers p k x ∧ ReadsByte w'.answers p k x) ∧
    ∀ k : Nat, old ≤ k → k < n → ReadsByte w'.answers p k 0
  blocks : ∃ b l, w.view.lookup w.view.mem p.chars = some b ∧ w.view.chain b = some l ∧
    w.view.CutsBehind w'.view l (blocksFor n)

namespace Blocks

variable {s t : Blocks} {p : Path}

/-- The file has `n` bytes already, on disk and for the bitmap in memory, and the blocks these take, no
more than the array on the stack of hello_read has room for. -/
def KeepsSize (s : Blocks) (p : Path) (n : Nat) : Prop :=
  n ≤ maxRequestSize / usableSpace * usableSpace ∧
  ∃ b c l, s.lookup s.mem p.chars = some b ∧ s.chain b = some l ∧ l.length = blocksFor n ∧
    (0 < n → n ≤ (s.hdr b).fileSize.toInt) ∧
    s.lookup s.bit p.chars = some c ∧ (s.hdr c).fileSize.toInt = n

theorem hasSize_iff {n : Int} : HasSize s.answers p n ↔
    ∃ c, s.lookup s.bit p.chars = some c ∧ (s.hdr c).fileSize.toInt = n := by
  have hans : ∀ env, s.answers (env, .getattr (some p)) = some (s.getattr p.chars).2 := fun _ => rfl
  cases hf : s.lookup s.bit p.chars with
  | some c =>
    have hg : lookup { s with mem := s.bit } s.bit p.chars = some c := hf
    have hreply : (s.getattr p.chars).2 = .attr (fileStat (s.hdr c)) := by
      simp only [getattr, if_neg p.chars_ne_root, hg]
    constructor
    · intro h
      obtain ⟨st, ha, hn⟩ := h (plain (.readdir none)).1
      rw [hans, hreply] at ha
      cases ha
      exact ⟨c, rfl, hn⟩
    · rintro ⟨c', he, hn⟩ env
      cases he
      exact ⟨_, by rw [hans, hreply], hn⟩
  | none =>
    have hg : lookup { s with mem := s.bit } s.bit p.chars = none := hf
    have hreply : (s.getattr p.chars).2 = .err .enoent := by
      simp only [getattr, if_neg p.chars_ne_root, hg]
    constructor
    · intro h
      obtain ⟨st, ha, _⟩ := h (plain (.readdir none)).1
      rw [hans, hreply] at ha
      cases ha
    · rintro ⟨c, hc, _⟩
      cases hc

/-- Behind its last block a chain leads to block 0. -/
theorem InRange.rawNext_chain (hr : s.InRange) {b : Nat} {l : List Nat}
    (hl : LinkedChain s.next b l) (h1 : 1 ≤ b) : s.rawNext^[l.length] b = 0 := by
  induction hl with
  | last hn =>
    rw [List.length_singleton, Function.iterate_one, rawNext_eq (by omega), hn]
    rfl
  | @link a c l hn _ ih =>
    rw [List.length_cons, Function.iterate_succ_apply, rawNext_eq (by omega), hn]
    exact ih (hr.next_mem hn).1

/-- hello_truncate stores nothing: its descriptor is opened O_RDONLY. -/
theorem truncate_disk {size : Int64} {r : Reply} (h : s.truncate p.chars size = some (t, r)) :
    t.bit = s.bit ∧ t.hdr = s.hdr ∧ t.dat = s.dat := by
  have hs : s.Step (⟨.zero, fun _ => 0, fun _ => ⟨0, 0⟩⟩, .truncate p size) t r := step_truncate h
  cases hs with
  | look hl => exact hl.elim
  | reload hl => exact hl.elim
  | truncateNone | keep | shrink | grow => exact ⟨rfl, rfl, rfl⟩

/-- A truncate to the size the file has. -/
theorem KeepsSize.truncate_eq {n : Nat} (hk : s.KeepsSize p n) (hr : s.InRange) {size : Int64}
    (hn : size.toInt = n) {r : Reply} (h : s.truncate p.chars size = some (t, r)) : t = s := by
  obtain ⟨_, b, c, l, hf, hc, hlen, hle, _, _⟩ := hk
  have hl := LinkedChain.of_follow hc
  have hsize : cSize size.toInt = n := by
    have hlt := size.toInt_lt
    rw [cSize]
    omega
  have hs : s.Step (⟨.zero, fun _ => 0, fun _ => ⟨0, 0⟩⟩, .truncate p size) t r := step_truncate h
  cases hs with
  | look hl => exact hl.elim
  | reload hl => exact hl.elim
  | truncateNone | keep => rfl
  | shrink hf' _ h0 =>
    cases hf.symm.trans hf'
    rw [hsize, ← hlen, hr.rawNext_chain hl (lookup_some hf).1] at h0
    exact absurd rfl h0
  | grow hf' hgt =>
    cases hf.symm.trans hf'
    have hn0 : n = 0 := by
      by_contra hne
      have := hle (Nat.pos_of_ne_zero hne)
      omega
    rw [hsize, hn0]
    rfl

/-- A chain that a truncate leaves as it is and that ends with its first `m` blocks has no more. -/
theorem CutsBehind.length_le {b m : Nat} {l : List Nat} (h : s.CutsBehind t l m)
    (hh : t.hdr = s.hdr) (hl : LinkedChain s.next b l) (hm : 0 < m) : l.length ≤ m := by
  apply (hl.next_take hm).mp
  intro x hx
  have hx0 := h.ends x hx
  rw [hh] at hx0
  exact if_pos hx0

theorem cutsBehind_self {b m : Nat} {l : List Nat} (hl : LinkedChain s.next b l) (hm : 0 < m)
    (hlen : l.length ≤ m) : s.CutsBehind s l m := by
  refine ⟨fun x hx => ?_, fun x hx => ?_, fun _ _ _ => ⟨id, id⟩⟩
  · exact next_none ((hl.next_take hm).mpr hlen x hx)
  · rw [List.drop_of_length_le hlen] at hx
    exact absurd hx List.not_mem_nil

/-- A file whose last byte can be read has a chain that is long enough. -/
theorem readsByte_last {b : Nat} {l : List Nat} {n : Nat} {x : UInt8}
    (hf : s.lookup s.mem p.chars = some b) (hl : s.chain b = some l) (hn : 0 < n)
    (hmax : n ≤ maxRequestSize) (hx : ReadsByte s.answers p (n - 1) x) :
    (n : Int) ≤ (s.hdr b).fileSize.toInt ∧ n ≤ usableSpace * l.length := by
  have hbig : maxRequestSize < 2 ^ 31 := by decide
  have hin := readsByte_inside hf (by omega) hx
  have hcov := ((readsByte_iff hf hl hin).mp hx).1
  exact ⟨by omega, by omega⟩

end Blocks

section

variable {w w' : World} {mode mode' : OpenMode} {s t : Blocks} {env : Env} {p : Path}
  {size : Int64} {n : Nat}

/-- A truncate that obeys the law had nothing to do: headers and links are not written. -/
theorem TruncateLaw.keepsSize (hlaw : TruncateLaw w w' p n) (hs : w.Shows mode s)
    (hs' : w'.Shows mode' t) (hmax : n ≤ maxRequestSize) {r : Reply}
    (hcall : s.call (env, .truncate p size) = some (t, r)) : s.KeepsSize p n := by
  have hpos := blocksFor_pos n
  obtain ⟨hbit, hhdr, _⟩ := Blocks.truncate_disk (p := p) hcall
  obtain ⟨b, l, hf, hl, hcut⟩ := hlaw.blocks
  obtain ⟨old, hold, hkept, _⟩ := hlaw.bytes
  rw [hs.view] at hf hl hcut
  have hlen := hlaw.length
  rw [hs'.answers_eq, Blocks.hasSize_iff, hbit, hhdr] at hlen
  rw [Blocks.lookup_congr hhdr] at hlen
  obtain ⟨c, hfc, hsize⟩ := hlen
  have hbefore : HasSize w.answers p n := by
    rw [hs.answers_eq, Blocks.hasSize_iff]
    exact ⟨c, hfc, hsize⟩
  obtain rfl := hold.unique env hbefore
  rw [hs'.view] at hcut
  have hle := hcut.length_le hhdr (.of_follow hl) hpos
  have hread : 0 < n → (n : Int) ≤ (s.hdr b).fileSize.toInt ∧ n ≤ usableSpace * l.length := by
    intro hn0
    obtain ⟨x, hx, _⟩ := hkept (n - 1) (by omega) (by omega)
    rw [hs.answers_eq] at hx
    exact Blocks.readsByte_last hf hl hn0 hmax hx
  refine ⟨?_, b, c, l, hf, hl, ?_, fun hn0 => (hread hn0).1, hfc, hsize⟩
  · -- the file that a read finds afterwards holds the last byte in one of its blocks
    by_contra hbig
    change ¬n ≤ 32 * 4016 at hbig
    obtain ⟨b', l', hf', hl', hfits⟩ := hlaw.staged
    rw [hs'.view] at hf' hl'
    obtain ⟨x, _, hx⟩ := hkept (n - 1) (by omega) (by omega)
    rw [hs'.answers_eq] at hx
    have hcov := (Blocks.readsByte_last hf' hl' (by omega) hmax hx).2
    change l'.length ≤ 32 at hfits
    change n ≤ 4016 * l'.length at hcov
    omega
  have hl1 := List.length_pos_iff.mpr (LinkedChain.of_follow hl).ne_nil
  apply Nat.le_antisymm hle
  by_cases hn0 : n = 0
  · subst n
    exact hl1
  · have hfit := (hread (Nat.pos_of_ne_zero hn0)).2
    have hu : usableSpace = 4016 := rfl
    rw [hu] at hfit
    show (n - 1) / 4016 + 1 ≤ l.length
    omega

theorem Blocks.KeepsSize.truncateLaw (hk : s.KeepsSize p n) (hs : w.Shows mode s)
    (hs' : w'.Shows mode' s) : TruncateLaw w w' p n := by
  obtain ⟨hmax, b, c, l, hf, hl, hlen, hle, hfc, hsize⟩ := hk
  have hbefore : HasSize w.answers p n := by
    rw [hs.answers_eq, Blocks.hasSize_iff]
    exact ⟨c, hfc, hsize⟩
  have hsame : w'.answers = w.answers := by rw [hs'.answers_eq, hs.answers_eq]
  refine ⟨by rw [hsame]; exact hbefore, ?_, ⟨n, hbefore, fun k hk _ => ?_, fun k h1 h2 => ?_⟩, ?_⟩
  · rw [hs'.view]
    refine ⟨b, l, hf, hl, ?_⟩
    change n ≤ 32 * 4016 at hmax
    rw [hlen]
    show (n - 1) / 4016 + 1 ≤ 32
    omega
  · have hcov := le_blocksFor n
    rw [hsame, hs.answers_eq]
    have hin : (k : Int) < (s.hdr b).fileSize.toInt := by
      have := hle (by omega)
      omega
    have hread : ReadsByte s.answers p k (chainByte s.dat l k) :=
      (Blocks.readsByte_iff hf hl hin).mpr ⟨by rw [hlen]; omega, rfl⟩
    exact ⟨_, hread, hread⟩
  · omega
  · rw [hs.view, hs'.view]
    exact ⟨b, l, hf, hl, Blocks.cutsBehind_self (.of_follow hl) (blocksFor_pos n) (Nat.le_of_eq hlen)⟩

end

/-- In every reachable state: a truncate that returns 0 obeys the law exactly if it has nothing to do and
the file fits the array on the stack. -/
theorem truncate_law_iff {h : History} {w w' : World} {env : Env} {p : Path} {size : Int64} {n : Nat}
    (hr : Reaches anyCall h w) (hn : size.toInt = n) (hmax : n ≤ maxRequestSize)
    (hc : fuseCall w (env, .truncate p size) = some (w', .ok)) :
    TruncateLaw w w' p n ↔ w.view.KeepsSize p n := by
  obtain ⟨⟨mode, hs⟩, _⟩ := hr.blockRun
  obtain ⟨mode', t, hs', hcall⟩ := fuseCall_some hs hc
  rw [hs.view]
  constructor
  · intro hlaw
    exact hlaw.keepsSize hs hs' hmax hcall
  · intro hk
    obtain rfl := hk.truncate_eq hs.range hn hcall
    exact hk.truncateLaw hs hs'

set_option maxRecDepth 100000 in
theorem truncate_law_iff_same_size : ∃ h w w', Reaches anyCall h w ∧
    fuseCall w (plain (.truncate pathA 10)) = some (w', .ok) ∧ TruncateLaw w w' pathA 10 := by
  obtain ⟨h, s, hr, hc⟩ := blockRun_of_plays anyCall
    [plain (.create pathA), plain (.write pathA (fun _ => 88) 10 0)]
    (fun _ s => s.lookup s.mem pathA.chars = some 1 ∧ s.lookup s.bit pathA.chars = some 1 ∧
      s.chain 1 = some [1] ∧ (s.hdr 1).fileSize = 10 ∧
      (s.call (plain (.truncate pathA 10))).any (fun t => t.2 = .ok))
    (by decide +kernel)
  obtain ⟨hf, hfc, hl, hsize, hsome⟩ := of_decide_eq_true hc
  obtain ⟨⟨t, r⟩, hcall, hok⟩ := (Option.any_eq_true _ _).mp hsome
  obtain rfl : r = .ok := of_decide_eq_true hok
  obtain ⟨w, mode, hs, hrun⟩ := hr.reaches
  obtain ⟨_, w', hw, _⟩ := call_some hs hcall
  refine ⟨h, w, w', hrun, hw, (truncate_law_iff hrun rfl (by decide) hw).mpr ?_⟩
  rw [hs.view]
  exact ⟨by decide, 1, 1, [1], hf, hl, rfl, fun _ => by rw [hsize]; decide, hfc, by rw [hsize]; rfl⟩

set_option maxRecDepth 100000 in
/-- A file of ten bytes that is truncated to three has ten bytes still. -/
theorem truncate_keeps_size : ¬∀ h w w' env p (size : Int64) (n : Nat), Reaches anyCall h w →
    size.toInt = n → n ≤ maxRequestSize →
      fuseCall w (env, .truncate p size) = some (w', .ok) → TruncateLaw w w' p n := by
  intro hall
  obtain ⟨h, s, hr, hc⟩ := blockRun_of_plays anyCall
    [plain (.create pathA), plain (.write pathA (fun _ => 88) 10 0)]
    (fun _ s => (s.call (plain (.truncate pathA 3))).any (fun t => t.2 = .ok ∧
      t.1.answers (plain (.getattr (some pathA))) =
        some (.attr ⟨0o100666, 1, 10, ⟨0, 0⟩, ⟨0, 0⟩, ⟨0, 0⟩⟩)))
    (by decide +kernel)
  obtain ⟨⟨t, r⟩, hcall, hafter⟩ := (Option.any_eq_true _ _).mp hc
  obtain ⟨hok, hafter⟩ := of_decide_eq_true hafter
  obtain rfl : r = .ok := hok
  obtain ⟨w, mode, hs, hrun⟩ := hr.reaches
  obtain ⟨_, w', hw, hs'⟩ := call_some hs hcall
  have hlaw := hall h w w' _ pathA 3 3 hrun rfl (by decide) hw
  have hlen := hlaw.length
  rw [hs'.answers_eq] at hlen
  have he := hlen.unique (plain (.create pathA)).1 (Blocks.hasSize_of_answer hafter)
  exact absurd he (by decide)

end FreeBSDEdits
