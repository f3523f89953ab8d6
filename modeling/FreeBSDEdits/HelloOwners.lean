import FreeBSDEdits.HelloNames

namespace FreeBSDEdits

namespace Blocks

variable {s s' : Blocks}

/-- Each file has a chain of marked blocks that starts with its head and holds no other name, and no
two files share a block. -/
structure Chained (s : Blocks) : Prop where
  chain : ∀ i, s.Heads i → ∃ l, LinkedChain s.next i l ∧
    ∀ x ∈ l, s.bit x = 1 ∧ (x ≠ i → (s.hdr x).name = [])
  disjoint : ∀ i j l m x, s.Heads i → s.Heads j → LinkedChain s.next i l → LinkedChain s.next j m →
    x ∈ l → x ∈ m → i = j

/-- Every marked block belongs to a file. -/
def Owned (s : Blocks) : Prop :=
  ∀ x, 1 ≤ x → x < numBlocks → s.bit x = 1 → ∃ i l, s.Heads i ∧ LinkedChain s.next i l ∧ x ∈ l

theorem Chained.of_chain (hc : s.Chained) {i : Nat} {l : List Nat} (hi : s.Heads i)
    (hl : LinkedChain s.next i l) {x : Nat} (hx : x ∈ l) :
    s.bit x = 1 ∧ (x ≠ i → (s.hdr x).name = []) := by
  obtain ⟨m, hm, hall⟩ := hc.chain i hi
  rw [hl.unique hm] at hx
  exact hall x hx

/-- Files whose chains and marks stay as they were. -/
theorem Chained.congr (hc : s.Chained) (hh : ∀ i, s'.Heads i → s.Heads i)
    (hsame : ∀ i l x, s'.Heads i → LinkedChain s.next i l → x ∈ l →
      s'.next x = s.next x ∧ s'.bit x = 1 ∧ (x ≠ i → (s'.hdr x).name = [])) : s'.Chained := by
  have hchain : ∀ i l, s'.Heads i → (LinkedChain s.next i l ↔ LinkedChain s'.next i l) := by
    intro i l hi
    obtain ⟨m, hm, _⟩ := hc.chain i (hh i hi)
    have hm' : LinkedChain s'.next i m := hm.congr (fun x hx => (hsame i m x hi hm hx).1)
    exact ⟨fun hl => hl.unique hm ▸ hm', fun hl => hl.unique hm' ▸ hm⟩
  refine ⟨fun i hi => ?_, fun i j l m x hi hj hl hm => ?_⟩
  · obtain ⟨l, hl, _⟩ := hc.chain i (hh i hi)
    exact ⟨l, (hchain i l hi).mp hl, fun x hx => (hsame i l x hi hl hx).2⟩
  · exact hc.disjoint i j l m x (hh i hi) (hh j hj) ((hchain i l hi).mpr hl)
      ((hchain j m hj).mpr hm)

/-- The same names and links under the same bitmap. -/
theorem Chained.of_names (hc : s.Chained) (hb : s'.bit = s.bit) (hnext : s'.next = s.next)
    (hn : ∀ i, (s'.hdr i).name = (s.hdr i).name) : s'.Chained := by
  have hh : ∀ i, s'.Heads i ↔ s.Heads i := heads_congr hb hn
  refine hc.congr (fun i hi => (hh i).mp hi) (fun i l x hi hl hx => ?_)
  obtain ⟨hbx, hnx⟩ := hc.of_chain ((hh i).mp hi) hl hx
  rw [hnext, hb, hn]
  exact ⟨rfl, hbx, hnx⟩

theorem touched_next (s : Blocks) (env : Env) (b : Nat) :
    next { s with hdr := Function.update s.hdr b { s.hdr b with accessTime := env.now 0 } } =
      s.next := next_update rfl

/-- The blocks that a write leaves alone keep their successors. -/
theorem written_next_other {env : Env} {b : Nat} {l : List Nat} {y : Int32} {buffer : Int → UInt8}
    {filled : List Nat} {x : Nat} (hx : x ≠ l.getLastD b) (ht : x ∉ s.taken l y) :
    (s.written env b l y buffer filled).next x = s.next x := by
  have hhead : links (Function.update s.hdr b (s.writeHead env b y)) = s.next :=
    next_update (s := s) rfl
  have hoff : x ∉ (l.getLastD b :: s.taken l y).dropLast := by
    intro hd
    rcases List.mem_cons.mp (List.dropLast_subset _ hd) with he | he
    · exact hx he
    · exact ht he
  show links (linkBlocks _ _ _ _) x = s.next x
  rw [links, linkBlocks_off hoff, ← hhead, links]

/-- The chain of the file grows by the blocks that a write takes. -/
theorem written_chain {env : Env} {b : Nat} {l : List Nat} {y : Int32} {buffer : Int → UInt8}
    {filled : List Nat} (hl : LinkedChain s.next b l) (hout : ∀ x ∈ s.taken l y, x ∉ l)
    (hlast : ∀ t ∈ (s.taken l y).getLast?, s.next t = none) :
    LinkedChain (s.written env b l y buffer filled).next b (l ++ s.taken l y) := by
  have hhead : links (Function.update s.hdr b (s.writeHead env b y)) = s.next :=
    next_update (s := s) rfl
  have hcur := hl.getLastD_eq b
  have hcm := hl.getLastD_mem b
  cases hg : s.taken l y with
  | nil =>
    rw [List.append_nil]
    show LinkedChain (links (linkBlocks _ _ _ (s.taken l y))) b l
    rw [hg, linkBlocks, hhead]
    exact hl
  | cons g got =>
    have hfree : ∀ x ∈ g :: got, 1 ≤ x ∧ x < numBlocks := by
      intro x hx
      obtain ⟨h1, hlt, _⟩ := mem_freeBlocks.mp (taken_free (hg ▸ hx))
      exact ⟨h1, hlt⟩
    have hd : (g :: got).Nodup := hg ▸ (freeBlocks_nodup s.mem).sublist (List.take_sublist _ _)
    have hcout : l.getLastD b ∉ g :: got := fun hx => hout _ (hg ▸ hx) hcm
    have hne : g :: got ≠ [] := List.cons_ne_nil g got
    have hoff : ∀ x, x ∉ (l.getLastD b :: g :: got).dropLast →
        (s.written env b l y buffer filled).next x = s.next x := by
      intro x hx
      show links (linkBlocks _ _ _ (s.taken l y)) x = s.next x
      rw [links, hg, linkBlocks_off hx, ← hhead, links]
    -- the last block taken has no successor, before and after
    have hend : (g :: got).getLast hne ∉ (l.getLastD b :: g :: got).dropLast := by
      rw [List.dropLast_cons_cons, List.mem_cons, not_or]
      refine ⟨fun he => hcout (he ▸ List.getLast_mem hne), fun hx => ?_⟩
      have hsplit := List.dropLast_append_getLast hne
      rw [← hsplit, List.nodup_append] at hd
      exact hd.2.2 _ hx _ List.mem_cons_self rfl
    have hnone : (s.written env b l y buffer filled).next ((g :: got).getLast hne) = none := by
      rw [hoff _ hend]
      exact hlast _ (by rw [hg]; exact List.getLast?_eq_getLast_of_ne_nil hne)
    have hnext : (s.written env b l y buffer filled).next = links (linkBlocks
        (Function.update s.hdr b (s.writeHead env b y))
        (Function.update s.hdr b (s.writeHead env b y) (l.getLastD b)) (l.getLastD b) (g :: got)) := by
      rw [← hg]
      rfl
    have hchain : LinkedChain (s.written env b l y buffer filled).next g (g :: got) := by
      rw [hnext] at hnone ⊢
      have hgo := linkBlocks_chain hfree hd (.last hnone)
      rwa [List.dropLast_append_getLast hne] at hgo
    refine hl.join (fun x hx hxl => hoff x (fun hm => ?_)) ?_ hchain
    · rcases List.mem_cons.mp (List.dropLast_subset _ hm) with he | he
      · exact hxl (he.trans hcur)
      · exact hout x (hg ▸ he) hx
    · obtain ⟨h1, hlt⟩ := hfree g List.mem_cons_self
      rw [hnext, ← hcur]
      exact linkBlocks_first h1 hlt (fun hx => hcout (List.dropLast_subset _ hx))

/-- A write that finds no free block links nothing. -/
theorem written_full (hfree : freeBlocks s.mem = []) (env : Env) (b : Nat) (l : List Nat) (y : Int32)
    (buffer : Int → UInt8) (filled : List Nat) :
    (s.written env b l y buffer filled).next = s.next ∧
      ∀ i, ((s.written env b l y buffer filled).hdr i).name = (s.hdr i).name := by
  have htaken : s.taken l y = [] := by rw [taken, hfree, List.take_nil]
  constructor
  · show links (linkBlocks _ _ _ (s.taken l y)) = s.next
    rw [htaken, linkBlocks]
    exact next_update (s := s) rfl
  · intro i
    rw [written_name, htaken, if_neg (by simp)]

end Blocks

/-- A write to a file finds no block at all, or all it lacks; then no block of a file is free in memory
and the last block taken has a clean header. A name that is too long costs no block with a name. -/
def Blocks.GrowsSafely (s : Blocks) : Call → Prop
  | .write path _ size offset => ∀ b ∈ s.lookup s.mem path.chars, ∀ l ∈ s.chain b,
      (newSize size offset).toInt ≤ maxRequestSize →
        freeBlocks s.mem = [] ∧ 0 < lacking l (newSize size offset) ∨
        lacking l (newSize size offset) ≤ (freeBlocks s.mem).length ∧
          (∀ i ∈ blockRange, s.bit i = 1 → s.mem i = 1) ∧
          ∀ t ∈ (s.taken l (newSize size offset)).getLast?, (s.hdr t).name = [] ∧ (s.hdr t).next = 0
  | .create path => maxFilenameLength ≤ path.chars.length →
      s.lookup s.bit path.chars = none → ∀ i ∈ firstFree s.bit, (s.hdr i).name = []
  | _ => True

instance (s : Blocks) (c : Call) : Decidable (s.GrowsSafely c) := by
  rcases c <;> unfold Blocks.GrowsSafely <;> infer_instance

namespace Blocks

variable {s s' : Blocks}

theorem Chained.head_alone (hc : s.Chained) {b i : Nat} {l : List Nat} (hb : s.Heads b)
    (hl : LinkedChain s.next b l) (hi : s.Heads i) (hm : i ∈ l) : i = b := by
  obtain ⟨m, hm', _⟩ := hc.chain i hi
  exact hc.disjoint i b m l i hi hb hm' hl hm'.head_mem hm

/-- Files that share no block are listed safely. -/
theorem Chained.listsSafely (hc : s.Chained) {c : Call} (hg : s.GrowsSafely c) :
    s.ListsSafely c := by
  cases c with
  | write path buf size offset =>
    intro b hb l hl hmax t ht
    rcases hg b hb l hl hmax with ⟨hfree, _⟩ | ⟨_, _, hclean⟩
    · rw [taken, hfree, List.take_nil] at ht
      cases ht
    · exact (hclean t ht).1
  | unlink path =>
    intro b hb l hl i hi hne _
    exact (hc.of_chain (heads_of_lookup hb).1 (LinkedChain.of_follow hl) hi).2 hne
  | create path => exact hg
  | getattr | readdir | «open» | read | truncate => trivial

/-- The chain of a file found in memory, which no write takes a block of. -/
theorem Chained.not_taken (hc : s.Chained) (hr : s.InRange)
    (hcover : ∀ i ∈ blockRange, s.bit i = 1 → s.mem i = 1) {i : Nat} {l : List Nat}
    (hi : s.Heads i) (hl : LinkedChain s.next i l) {x : Nat} (hx : x ∈ l) (k : List Nat) (y : Int32) :
    x ∉ s.taken k y := by
  intro hxt
  obtain ⟨h1, hlt⟩ := hr.chain_mem hl hi.1 hi.2.1 hx
  obtain ⟨_, _, h0⟩ := mem_freeBlocks.mp (taken_free hxt)
  rw [hcover x (mem_blockRange.mpr ⟨h1, hlt⟩) (hc.of_chain hi hl hx).1] at h0
  exact absurd h0 (by decide)

/-- A successful write to a file makes its chain longer and leaves the other chains alone. -/
theorem Chained.written_chains (hc : s.Chained) (hr : s.InRange) (env : Env) (buffer : Int → UInt8)
    (filled : List Nat) {b : Nat} {l : List Nat} {y : Int32} (hb : s.Heads b)
    (hl : LinkedChain s.next b l) (hcover : ∀ i ∈ blockRange, s.bit i = 1 → s.mem i = 1)
    (hclean : ∀ t ∈ (s.taken l y).getLast?, (s.hdr t).name = [] ∧ (s.hdr t).next = 0) :
    LinkedChain (s.written env b l y buffer filled).next b (l ++ s.taken l y) ∧
      ∀ i m, s.Heads i → i ≠ b → LinkedChain s.next i m →
        LinkedChain (s.written env b l y buffer filled).next i m := by
  refine ⟨written_chain hl (fun x hxt hx => hc.not_taken hr hcover hb hl hx l y hxt) (fun t ht => ?_),
    fun i m hi hne hm => hm.congr (fun x hx => ?_)⟩
  · rw [Blocks.next, if_pos (hclean t ht).2]
  · refine written_next_other (fun he => hne ?_) (hc.not_taken hr hcover hi hm hx l y)
    have hlast : x ∈ l := he ▸ hl.getLastD_mem b
    exact hc.disjoint i b m l x hi hb hm hl hx hlast

theorem Chained.write (hc : s.Chained) (hr : s.InRange) (hm : s.MemNames) {env : Env} {b : Nat}
    {l : List Nat} {y : Int32} {buffer : Int → UInt8} {filled : List Nat} (hb : s.Heads b)
    (hl : LinkedChain s.next b l) (hcover : ∀ i ∈ blockRange, s.bit i = 1 → s.mem i = 1)
    (hclean : ∀ t ∈ (s.taken l y).getLast?, (s.hdr t).name = [] ∧ (s.hdr t).next = 0) :
    { s.written env b l y buffer filled with bit := mark s.mem (s.taken l y) 1 }.Chained := by
  have hnames : ∀ t ∈ (s.taken l y).getLast?, (s.hdr t).name = [] := fun t ht => (hclean t ht).1
  obtain ⟨hself, hother⟩ := hc.written_chains hr env buffer filled hb hl
    hcover hclean
  generalize hs' : s.written env b l y buffer filled = s' at hself hother ⊢
  have hh : ∀ i, { s' with bit := mark s.mem (s.taken l y) 1 }.Heads i ↔ s.Heads i := by
    rw [← hs']
    exact hm.written_heads _ _ _ _ hnames (Or.inl rfl)
  have hmark : ∀ x, 1 ≤ x → x < numBlocks → s.bit x = 1 → mark s.mem (s.taken l y) 1 x = 1 :=
    fun x h1 hlt hbx => mark_one_iff.mpr (Or.inr (hcover x (mem_blockRange.mpr ⟨h1, hlt⟩) hbx))
  have hname : ∀ x, (s.hdr x).name = [] → (s'.hdr x).name = [] := by
    intro x hx
    rw [← hs']
    rcases s.written_name_cases env b l y buffer filled x with he | ⟨_, he⟩
    · rw [he, hx]
    · exact he
  -- the old chain of each file, with the new blocks for the file written
  have hnew : ∀ i, s.Heads i → ∃ m, LinkedChain s.next i m ∧
      LinkedChain s'.next i (if i = b then m ++ s.taken l y else m) := by
    intro i hi
    by_cases hib : i = b
    · rw [hib]
      exact ⟨l, hl, by rw [if_pos rfl]; exact hself⟩
    · obtain ⟨m, hm, _⟩ := hc.chain i hi
      exact ⟨m, hm, by rw [if_neg hib]; exact hother i m hi hib hm⟩
  have hmem : ∀ i m x, s.Heads i → LinkedChain s'.next i m → x ∈ m →
      (∃ k, LinkedChain s.next i k ∧ x ∈ k) ∨ i = b ∧ x ∈ s.taken l y := by
    intro i m x hi hm hx
    obtain ⟨k, hk, hk'⟩ := hnew i hi
    rw [hm.unique hk'] at hx
    split at hx
    next hib =>
      rcases List.mem_append.mp hx with hx | hx
      · exact Or.inl ⟨k, hk, hx⟩
      · exact Or.inr ⟨hib, hx⟩
    next => exact Or.inl ⟨k, hk, hx⟩
  refine ⟨fun i hi => ?_, fun i j m k x hi hj hm hk hx hx' => ?_⟩
  · have hi := (hh i).mp hi
    obtain ⟨k, _, hk'⟩ := hnew i hi
    refine ⟨_, hk', fun x hx => ?_⟩
    rcases hmem i _ x hi hk' hx with ⟨m, hm, hxm⟩ | ⟨_, hxt⟩
    · obtain ⟨h1, hlt⟩ := hr.chain_mem hm hi.1 hi.2.1 hxm
      obtain ⟨hbx, hnx⟩ := hc.of_chain hi hm hxm
      exact ⟨hmark x h1 hlt hbx, fun hne => hname x (hnx hne)⟩
    · refine ⟨mark_one_iff.mpr (Or.inl hxt), fun _ => ?_⟩
      show (s'.hdr x).name = []
      rw [← hs']
      exact written_taken_name buffer filled hnames hxt
  · have hi := (hh i).mp hi
    have hj := (hh j).mp hj
    rcases hmem i m x hi hm hx with ⟨m', hm', hx₁⟩ | ⟨hib, hxt⟩
    · rcases hmem j k x hj hk hx' with ⟨k', hk', hx₂⟩ | ⟨hjb, hxt⟩
      · exact hc.disjoint i j m' k' x hi hj hm' hk' hx₁ hx₂
      · exact absurd hxt (hc.not_taken hr hcover hi hm' hx₁ l y)
    · rcases hmem j k x hj hk hx' with ⟨k', hk', hx₂⟩ | ⟨hjb, _⟩
      · exact absurd hxt (hc.not_taken hr hcover hj hk' hx₂ l y)
      · rw [hib, hjb]

/-- A create leaves the chains that are there alone. -/
theorem Chained.created_chain (hc : s.Chained) (env : Env) (path : CString) {i : Nat}
    (hi : firstFree s.bit = some i) {j : Nat} {l : List Nat} (hj : s.Heads j)
    (hl : LinkedChain s.next j l) : i ∉ l ∧ LinkedChain (s.created env path i).next j l := by
  have hil : i ∉ l := by
    intro hm
    have hb := (hc.of_chain hj hl hm).1
    rw [(firstFree_some hi).2.2] at hb
    exact absurd hb (by decide)
  exact ⟨hil, hl.congr (fun x hx => links_update_of_ne (fun he => hil (he ▸ hx)))⟩

theorem created_chain_self (env : Env) (path : CString) (i : Nat) :
    LinkedChain (s.created env path i).next i [i] := by
  refine .last ?_
  show (Function.update s.hdr i _ i).successor = none
  rw [Function.update_self]
  rfl

theorem Chained.chain_of_created (hc : s.Chained) (env : Env) (path : CString) {i : Nat}
    (hi : firstFree s.bit = some i) {j : Nat} {m : List Nat} (hj : s.Heads j)
    (hm : LinkedChain (s.created env path i).next j m) : i ∉ m ∧ LinkedChain s.next j m := by
  obtain ⟨l, hl, _⟩ := hc.chain j hj
  obtain ⟨hil, hl'⟩ := hc.created_chain env path hi hj hl
  rw [hm.unique hl']
  exact ⟨hil, hl⟩

/-- A new file is a chain of its own. -/
theorem Chained.create (hc : s.Chained) (env : Env) {p : Path} {i : Nat}
    (hi : firstFree s.bit = some i) (hlen : p.chars.length < maxFilenameLength) :
    (s.created env p.chars i).Chained := by
  have hself := created_chain_self (s := s) env p.chars i
  have hold := fun j (m : List Nat) => hc.chain_of_created env p.chars hi (j := j) (m := m)
  refine ⟨fun j hj => ?_, fun j k l m x hj hk hl hm hxl hxm => ?_⟩
  · rcases (created_heads env hi hlen j).mp hj with rfl | hj
    · refine ⟨[j], hself, fun x hx => ?_⟩
      rw [List.mem_singleton.mp hx]
      exact ⟨(created_bit env _ j j).mpr (Or.inl rfl), fun hne => absurd rfl hne⟩
    · obtain ⟨l, hl, _⟩ := hc.chain j hj
      obtain ⟨hil, hl'⟩ := hc.created_chain env p.chars hi hj hl
      refine ⟨l, hl', fun x hx => ?_⟩
      obtain ⟨hbx, hnx⟩ := hc.of_chain hj hl hx
      have hxi : x ≠ i := fun he => hil (he ▸ hx)
      rw [created_bit, created_hdr env _ hxi]
      exact ⟨Or.inr hbx, hnx⟩
  · rcases (created_heads env hi hlen j).mp hj with rfl | hjo
    · rw [hl.unique hself, List.mem_singleton] at hxl
      subst x
      rcases (created_heads env hi hlen k).mp hk with rfl | hko
      · rfl
      · exact absurd hxm (hold k m hko hm).1
    · rcases (created_heads env hi hlen k).mp hk with rfl | hko
      · rw [hm.unique hself, List.mem_singleton] at hxm
        subst x
        exact absurd hxl (hold j l hjo hl).1
      · exact hc.disjoint j k l m x hjo hko (hold j l hjo hl).2 (hold k m hko hm).2 hxl hxm

/-- The volume after the blocks of a chain were released. -/
def unlinked (s : Blocks) (l : List Nat) : Blocks :=
  { s with mem := mark s.bit l 0, bit := mark s.bit l 0 }

theorem Chained.unlinked_heads (hc : s.Chained) {b : Nat} {l : List Nat} (hb : s.Heads b)
    (hl : LinkedChain s.next b l) (i : Nat) : (s.unlinked l).Heads i ↔ s.Heads i ∧ i ≠ b := by
  constructor
  · rintro ⟨h1, hlt, hbi, hn⟩
    obtain ⟨hil, hbi⟩ := mark_zero_iff.mp hbi
    exact ⟨⟨h1, hlt, hbi, hn⟩, fun he => hil (he ▸ hl.head_mem)⟩
  · rintro ⟨hi, hne⟩
    exact ⟨hi.1, hi.2.1, mark_zero_iff.mpr ⟨fun hil => hne (hc.head_alone hb hl hi hil), hi.2.2.1⟩,
      hi.2.2.2⟩

theorem Chained.unlink (hc : s.Chained) {b : Nat} {l : List Nat} (hb : s.Heads b)
    (hl : LinkedChain s.next b l) : (s.unlinked l).Chained := by
  have hold := hc.unlinked_heads hb hl
  refine hc.congr (fun i hi => ((hold i).mp hi).1) (fun i k x hi hk hx => ?_)
  obtain ⟨hi, hne⟩ := (hold i).mp hi
  obtain ⟨hbx, hnx⟩ := hc.of_chain hi hk hx
  exact ⟨rfl, mark_zero_iff.mpr ⟨fun hxl => hne (hc.disjoint i b k l x hi hb hk hl hx hxl), hbx⟩, hnx⟩

theorem Chained.step {c : Env × Call} {r : Reply} (hc : s.Chained) (hr : s.InRange)
    (hm : c.2.Writes → s.MemNames) (hg : s.GrowsSafely c.2) (hs : s.Step c s' r) : s'.Chained := by
  cases hs with
  | look | writeNone | writeBig | truncateNone | keep => exact hc
  | reload | shrink | grow => exact ⟨hc.chain, hc.disjoint⟩
  | @touch env _ _ _ b => exact hc.of_names rfl (s.touched_next env b) (s.touched_name env b)
  | @write env p _ size offset b l hf hl hmax hroom =>
    have hb := heads_of_lookup (((hm trivial).lookup p).symm.trans hf)
    rcases hg b hf l hl hmax with ⟨hfree, hlack⟩ | ⟨_, hcover, hclean⟩
    · rw [hfree] at hroom
      exact absurd hroom (Nat.not_le.mpr hlack)
    · exact hc.write hr (hm trivial) hb.1 (.of_follow hl) hcover hclean
  | @starve env p _ size offset b l hf hl hmax hroom =>
    rcases hg b hf l hl hmax with ⟨hfree, _⟩ | ⟨hle, _, _⟩
    · obtain ⟨hnext, hname⟩ := written_full hfree env b l (newSize size offset) _ _
      exact hc.of_names rfl hnext hname
    · exact absurd hroom (Nat.not_lt.mpr hle)
  | unlink hf hl => exact hc.unlink (heads_of_lookup hf).1 (.of_follow hl)
  | @leak _ p i hf hi hlen =>
    have hstale := hg hlen hf i hi
    have hold : ∀ j, Heads { s with mem := mark s.bit [i] 1, bit := mark s.bit [i] 1 } j →
        s.Heads j := by
      rintro j ⟨h1, hlt, hbj, hn⟩
      refine ⟨h1, hlt, (mark_one_iff.mp hbj).resolve_left (fun hji => hn ?_), hn⟩
      rw [List.mem_singleton.mp hji]
      exact hstale
    refine hc.congr hold (fun j k x hj hk hx => ?_)
    obtain ⟨hbx, hnx⟩ := hc.of_chain (hold j hj) hk hx
    exact ⟨rfl, mark_one_iff.mpr (Or.inr hbx), hnx⟩
  | create hf hi hlen => exact hc.create _ hi hlen

theorem Owned.of_names (ho : s.Owned) (hb : s'.bit = s.bit) (hnext : s'.next = s.next)
    (hn : ∀ i, (s'.hdr i).name = (s.hdr i).name) : s'.Owned := by
  intro x h1 hlt hx
  rw [hb] at hx
  obtain ⟨i, l, hi, hl, hxl⟩ := ho x h1 hlt hx
  exact ⟨i, l, (heads_congr hb hn i).mpr hi, hnext ▸ hl, hxl⟩

theorem Owned.unlink (ho : s.Owned) (hc : s.Chained) {b : Nat} {l : List Nat} (hb : s.Heads b)
    (hl : LinkedChain s.next b l) : (s.unlinked l).Owned := by
  intro x h1 hlt hx
  obtain ⟨hxl, hx⟩ := mark_zero_iff.mp hx
  obtain ⟨i, m, hi, hm, hxm⟩ := ho x h1 hlt hx
  refine ⟨i, m, (hc.unlinked_heads hb hl i).mpr ⟨hi, ?_⟩, hm, hxm⟩
  rintro rfl
  rw [hm.unique hl] at hxm
  exact hxl hxm

theorem Owned.create (ho : s.Owned) (hc : s.Chained) (env : Env) {p : Path} {i : Nat}
    (hi : firstFree s.bit = some i) (hlen : p.chars.length < maxFilenameLength) :
    (s.created env p.chars i).Owned := by
  intro x h1 hlt hx
  rcases (created_bit env _ i x).mp hx with rfl | hx
  · exact ⟨x, [x], (created_heads env hi hlen x).mpr (Or.inl rfl),
      created_chain_self env p.chars x, List.mem_cons_self⟩
  · obtain ⟨j, m, hj, hm, hxm⟩ := ho x h1 hlt hx
    exact ⟨j, m, (created_heads env hi hlen j).mpr (Or.inr hj),
      (hc.created_chain env p.chars hi hj hm).2, hxm⟩

/-- The file on whose chain a block lies. -/
def OnFile (s : Blocks) (p : Path) (x : Nat) : Prop :=
  ∃ b l, s.lookup s.bit p.chars = some b ∧ LinkedChain s.next b l ∧ x ∈ l

end Blocks

/-- A write to a file finds no block at all, or all it lacks; then the bitmap in memory is the one on
disk and the last block taken has a clean header. No block is lost to a name that is too long. -/
def ownsBlocks (_ : History) (s : Blocks) : Env × Call → Prop
  | (_, .write path _ size offset) => ∀ b ∈ s.lookup s.mem path.chars, ∀ l ∈ s.chain b,
      (newSize size offset).toInt ≤ maxRequestSize →
        freeBlocks s.mem = [] ∧ 0 < Blocks.lacking l (newSize size offset) ∨
        Blocks.lacking l (newSize size offset) ≤ (freeBlocks s.mem).length ∧
          (∀ i ∈ blockRange, s.mem i = s.bit i) ∧
          ∀ t ∈ (s.taken l (newSize size offset)).getLast?, (s.hdr t).name = [] ∧ (s.hdr t).next = 0
  | (_, .create path) => maxFilenameLength ≤ path.chars.length →
      s.lookup s.bit path.chars = none → firstFree s.bit = none
  | _ => True

instance : ∀ h s c, Decidable (ownsBlocks h s c) := by
  intro h s c
  obtain ⟨_, c⟩ := c
  rcases c <;> unfold ownsBlocks <;> infer_instance

namespace Blocks

variable {s s' : Blocks}

theorem growsSafely_of_owns {h : History} {c : Env × Call} (hok : ownsBlocks h s c) :
    s.GrowsSafely c.2 := by
  obtain ⟨env, c⟩ := c
  cases c with
  | write path buf size offset =>
    intro b hb l hl hmax
    rcases hok b hb l hl hmax with hfull | ⟨hroom, hsame, hclean⟩
    · exact Or.inl hfull
    · exact Or.inr ⟨hroom, fun i hi hbi => (hsame i hi).trans hbi, hclean⟩
  | create path =>
    intro hlen hf i hi
    rw [hok hlen hf] at hi
    cases hi
  | getattr | readdir | «open» | read | truncate | unlink => trivial

theorem MemNames.of_range (h : ∀ i ∈ blockRange, s.mem i = s.bit i) : s.MemNames :=
  fun i h1 hi _ => by rw [h i (mem_blockRange.mpr ⟨h1, hi⟩)]

/-- What the files own on disk. -/
structure Volume (s : Blocks) (ps : List Path) : Prop where
  lists : s.Lists ps
  chained : s.Chained
  owned : s.Owned

theorem Volume.of_names {ps : List Path} (hv : s.Volume ps) (hb : s'.bit = s.bit)
    (hnext : s'.next = s.next) (hn : ∀ i, (s'.hdr i).name = (s.hdr i).name) : s'.Volume ps :=
  ⟨hv.lists.of_names hb hn, hv.chained.of_names hb hnext hn, hv.owned.of_names hb hnext hn⟩

theorem Volume.write {ps : List Path} (hv : s.Volume ps) (hr : s.InRange) {env : Env} {b : Nat}
    {l : List Nat} {y : Int32} {buffer : Int → UInt8} {filled : List Nat} (hb : s.Heads b)
    (hl : LinkedChain s.next b l) (hsame : ∀ i ∈ blockRange, s.mem i = s.bit i)
    (hclean : ∀ t ∈ (s.taken l y).getLast?, (s.hdr t).name = [] ∧ (s.hdr t).next = 0) :
    { s.written env b l y buffer filled with bit := mark s.mem (s.taken l y) 1 }.Volume ps := by
  have hm : s.MemNames := .of_range hsame
  have hcover : ∀ i ∈ blockRange, s.bit i = 1 → s.mem i = 1 := fun i hi hbi => (hsame i hi).trans hbi
  have hnames : ∀ t ∈ (s.taken l y).getLast?, (s.hdr t).name = [] := fun t ht => (hclean t ht).1
  have hh := hm.written_heads env b buffer filled hnames (Or.inl rfl)
  obtain ⟨hself, hother⟩ := hv.chained.written_chains hr env buffer filled hb hl hcover hclean
  refine ⟨hv.lists.written hm hnames (Or.inl rfl), hv.chained.write hr hm hb hl hcover hclean, ?_⟩
  intro x h1 hlt hx
  rcases mark_one_iff.mp hx with hxt | hxm
  · exact ⟨b, _, (hh b).mpr hb, hself, List.mem_append_right l hxt⟩
  · rw [hsame x (mem_blockRange.mpr ⟨h1, hlt⟩)] at hxm
    obtain ⟨i, m, hi, hm, hxi⟩ := hv.owned x h1 hlt hxm
    by_cases hib : i = b
    · subst i
      rw [hm.unique hl] at hxi
      exact ⟨b, _, (hh b).mpr hb, hself, List.mem_append_left _ hxi⟩
    · exact ⟨i, m, (hh i).mpr hi, hother i m hi hib hm, hxi⟩

theorem Volume.step {h : History} {c : Env × Call} {r : Reply} (hv : s.Volume (livePaths h))
    (hr : s.InRange) (hok : ownsBlocks h s c) (hs : s.Step c s' r) :
    s'.Volume (livePaths ((c, r) :: h)) := by
  have hg := growsSafely_of_owns hok
  by_cases hw : c.2.Writes
  · cases hs with
    | writeNone | writeBig => exact hv
    | @write env p _ size offset b l hf hl hmax hroom =>
      rcases hok b hf l hl hmax with ⟨hfree, hlack⟩ | ⟨_, hsame, hclean⟩
      · rw [hfree] at hroom
        exact absurd hroom (Nat.not_le.mpr hlack)
      · have hb := heads_of_lookup (((MemNames.of_range hsame).lookup p).symm.trans hf)
        exact hv.write hr hb.1 (.of_follow hl) hsame hclean
    | @starve env p _ size offset b l hf hl hmax hroom =>
      rcases hok b hf l hl hmax with ⟨hfree, _⟩ | ⟨hle, _, _⟩
      · obtain ⟨hnext, hname⟩ := written_full hfree env b l (newSize size offset) _ _
        exact hv.of_names rfl hnext hname
      · exact absurd hroom (Nat.not_lt.mpr hle)
    | @look _ c _ hl | @reload _ c _ hl => cases c <;> first | exact hw.elim | exact hl.elim
    | truncateNone | keep | touch | shrink | grow | unlink | leak | create => exact hw.elim
  · have hlists := hv.lists.step (fun hc => absurd hc hw) (hv.chained.listsSafely hg) hs
    have hc := hv.chained.step hr (fun hc => absurd hc hw) hg hs
    refine ⟨hlists, hc, ?_⟩
    cases hs with
    | look | truncateNone | keep => exact hv.owned
    | reload | shrink | grow => exact hv.owned
    | touch => exact hv.owned.of_names rfl (s.touched_next _ _) (s.touched_name _ _)
    | writeNone | writeBig | write | starve => exact absurd trivial hw
    | unlink hf hl => exact hv.owned.unlink hv.chained (heads_of_lookup hf).1 (.of_follow hl)
    | leak hf hi hlen =>
      rw [hok hlen hf] at hi
      cases hi
    | create hf hi hlen => exact hv.owned.create hv.chained _ hi hlen

/-- On such a volume a block is marked exactly if one live file holds it. -/
theorem Volume.marked_iff {ps : List Path} (hv : s.Volume ps) {x : Nat} (h1 : 1 ≤ x)
    (hlt : x < numBlocks) : s.bit x = 1 ↔ ∃! p, p ∈ ps ∧ s.OnFile p x := by
  constructor
  · intro hx
    obtain ⟨i, l, hi, hl, hxl⟩ := hv.owned x h1 hlt hx
    obtain ⟨p, hp, hn⟩ := hv.lists.named i hi
    refine ⟨p, ⟨hp, i, l, (hv.lists.lookup_iff p i).mpr ⟨hi, hn⟩, hl, hxl⟩, ?_⟩
    rintro q ⟨_, j, m, hf, hm, hxm⟩
    obtain ⟨hj, hjn⟩ := heads_of_lookup hf
    have hij := hv.chained.disjoint i j l m x hi hj hl hm hxl hxm
    rw [← hij, hn] at hjn
    exact (Path.chars_inj hjn).symm
  · rintro ⟨p, ⟨_, i, l, hf, hl, hxl⟩, _⟩
    exact (hv.chained.of_chain (heads_of_lookup hf).1 hl hxl).1

theorem fresh_chained : fresh.Chained :=
  ⟨fun i hi => absurd hi (fresh_heads i), fun i _ _ _ _ hi => absurd hi (fresh_heads i)⟩

theorem fresh_volume : fresh.Volume [] := by
  refine ⟨fresh_lists, fresh_chained, fun x h1 _ hx => ?_⟩
  have h0 : fresh.bit x = 0 := if_neg (by omega)
  rw [h0] at hx
  exact absurd hx (by decide)

end Blocks

theorem BlockRun.volume {h : History} {s : Blocks} (hr : BlockRun ownsBlocks h s) :
    s.Volume (livePaths h) :=
  hr.invariant (P := fun h s => s.Volume (livePaths h)) Blocks.fresh_volume
    (fun _ _ _ _ _ hrange hv hok hc => hv.step hrange hok (Blocks.step_of_call hc))

/-- The bitmap on disk marks exactly the blocks of live files, each of one file, while every call meets
`ownsBlocks`. -/
theorem blocks_have_owners {h : History} {w : World} (hr : Reaches ownsBlocks h w) {x : Nat}
    (h1 : 1 ≤ x) (hlt : x < numBlocks) :
    w.view.bit x = 1 ↔ ∃! p, p ∈ livePaths h ∧ w.view.OnFile p x := by
  exact hr.blockRun.2.volume.marked_iff h1 hlt

set_option maxRecDepth 100000 in
theorem blocks_have_owners_two : ∃ h w, Reaches ownsBlocks h w ∧ livePaths h = [pathB, pathA] ∧
    w.view.bit 3 = 1 ∧ ∃! p, p ∈ livePaths h ∧ w.view.OnFile p 3 := by
  obtain ⟨h, w, hr, hc⟩ := reaches_of_plays ownsBlocks
    [plain (.create pathX), plain (.create pathA), plain (.unlink pathX), plain (.create pathB),
      plain (.write pathA (fun _ => 88) 5000 0)]
    (fun h s => livePaths h = [pathB, pathA] ∧ s.bit 3 = 1) (by decide +kernel)
  obtain ⟨hlive, hbit⟩ := of_decide_eq_true hc
  exact ⟨h, w, hr, hlive, hbit, (blocks_have_owners hr (by decide) (by decide)).mp hbit⟩

set_option maxRecDepth 100000 in
/-- A create with a name that is too long leaves block 1 marked for no file. -/
theorem long_create_leaks : ¬∀ h w, Reaches anyCall h w → ∀ x, 1 ≤ x → x < numBlocks →
    (w.view.bit x = 1 ↔ ∃! p, p ∈ livePaths h ∧ w.view.OnFile p x) := by
  intro hall
  obtain ⟨h, s, hr, hc⟩ := blockRun_of_plays anyCall [plain (.create pathLong)]
    (fun h s => livePaths h = [] ∧ s.bit 1 = 1) (by decide +kernel)
  obtain ⟨hlive, hbit⟩ := of_decide_eq_true hc
  obtain ⟨w, mode, hs, hrun⟩ := hr.reaches
  have hx := hall h w hrun 1 (by decide) (by decide)
  rw [hs.view, hlive] at hx
  obtain ⟨p, ⟨hp, _⟩, _⟩ := hx.mp hbit
  exact List.not_mem_nil hp

end FreeBSDEdits
