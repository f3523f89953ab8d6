import FreeBSDEdits.HelloFrames
import Mathlib.Data.List.Find

namespace FreeBSDEdits

/-- The blocks that get a successor after the first one lose their names. -/
theorem linkBlocks_name {got : List Nat} (hdr : Nat → Metadata) (md : Metadata) (current x : Nat) :
    (linkBlocks hdr md current got x).name =
      if x ∈ got.dropLast then [] else if x = current ∧ got ≠ [] then md.name else (hdr x).name := by
  induction got generalizing hdr md current with
  | nil => simp [linkBlocks]
  | cons b bs ih =>
    have hup : (Function.update hdr current { md with next := .ofNat b } x).name =
        if x = current then md.name else (hdr x).name := by
      by_cases hx : x = current
      · rw [hx, Function.update_self, if_pos rfl]
        rfl
      · rw [Function.update_of_ne hx, if_neg hx]
    rw [linkBlocks, ih, hup, Metadata.name_zero]
    cases bs with
    | nil => simp
    | cons c cs =>
      rw [List.dropLast_cons_cons]
      by_cases hx : x = b
      · simp [hx]
      · simp [hx]

namespace Blocks

variable {s s' : Blocks}

/-- A block that the bitmap on disk marks and whose header holds a name. -/
def Heads (s : Blocks) (i : Nat) : Prop :=
  1 ≤ i ∧ i < numBlocks ∧ s.bit i = 1 ∧ (s.hdr i).name ≠ []

/-- The marked headers with names are those of the paths in `ps`, one for each. -/
structure Lists (s : Blocks) (ps : List Path) : Prop where
  found : ∀ p ∈ ps, ∃ i, s.Heads i ∧ (s.hdr i).name = p.chars
  named : ∀ i, s.Heads i → ∃ p ∈ ps, (s.hdr i).name = p.chars
  unique : ∀ i j, s.Heads i → s.Heads j → (s.hdr i).name = (s.hdr j).name → i = j
  nodup : ps.Nodup

/-- Both bitmaps have the same blocks with names. -/
def MemNames (s : Blocks) : Prop :=
  ∀ i, 1 ≤ i → i < numBlocks → (s.hdr i).name ≠ [] → (s.mem i = 1 ↔ s.bit i = 1)

theorem lookup_ne_none {marks : Nat → Int32} {path : CString} :
    s.lookup marks path ≠ none ↔
      ∃ i, 1 ≤ i ∧ i < numBlocks ∧ marks i = 1 ∧ (s.hdr i).name = path := by
  constructor
  · intro h
    obtain ⟨i, hi⟩ := Option.ne_none_iff_exists'.mp h
    exact ⟨i, lookup_some hi⟩
  · rintro ⟨i, h1, hi, hm, hn⟩ hnone
    have hno := List.find?_eq_none.mp hnone i (mem_blockRange.mpr ⟨h1, hi⟩)
    exact hno (by simp [hm, hn])

theorem lookup_none {marks : Nat → Int32} {path : CString} (h : s.lookup marks path = none)
    {i : Nat} (h1 : 1 ≤ i) (hi : i < numBlocks) (hm : marks i = 1) : (s.hdr i).name ≠ path :=
  fun hn => lookup_ne_none.mpr ⟨i, h1, hi, hm, hn⟩ h

theorem heads_of_lookup {p : Path} {b : Nat} (h : s.lookup s.bit p.chars = some b) :
    s.Heads b ∧ (s.hdr b).name = p.chars := by
  obtain ⟨h1, hb, hm, hn⟩ := lookup_some h
  exact ⟨⟨h1, hb, hm, hn ▸ p.chars_ne_nil⟩, hn⟩

/-- Where both bitmaps have the same names, so have the lookups in them. -/
theorem MemNames.lookup (hm : s.MemNames) (p : Path) :
    s.lookup s.mem p.chars = s.lookup s.bit p.chars := by
  rw [Blocks.lookup, Blocks.lookup]
  refine List.find?_congr (fun i hi => ?_)
  obtain ⟨h1, hlt⟩ := mem_blockRange.mp hi
  by_cases hn : (s.hdr i).name = p.chars
  · have hb := hm i h1 hlt (hn ▸ p.chars_ne_nil)
    simp [hb]
  · simp [hn]

/-- No two heads have the same name. -/
def HeadsDiffer (s : Blocks) : Prop :=
  ∀ i j, s.Heads i → s.Heads j → (s.hdr i).name = (s.hdr j).name → i = j

theorem HeadsDiffer.lookup_iff (hd : s.HeadsDiffer) (p : Path) (b : Nat) :
    s.lookup s.bit p.chars = some b ↔ s.Heads b ∧ (s.hdr b).name = p.chars := by
  refine ⟨heads_of_lookup, fun ⟨hb, hn⟩ => ?_⟩
  obtain ⟨c, hc⟩ := Option.ne_none_iff_exists'.mp
    (lookup_ne_none.mpr ⟨b, hb.1, hb.2.1, hb.2.2.1, hn⟩)
  obtain ⟨hch, hcn⟩ := heads_of_lookup hc
  rw [hc, hd c b hch hb (hcn.trans hn.symm)]

theorem Lists.lookup_iff {ps : List Path} (hl : s.Lists ps) (p : Path) (b : Nat) :
    s.lookup s.bit p.chars = some b ↔ s.Heads b ∧ (s.hdr b).name = p.chars :=
  HeadsDiffer.lookup_iff hl.unique p b

theorem Lists.live_iff {ps : List Path} (hl : s.Lists ps) (p : Path) :
    s.lookup s.bit p.chars ≠ none ↔ p ∈ ps := by
  constructor
  · intro h
    obtain ⟨b, hb⟩ := Option.ne_none_iff_exists'.mp h
    obtain ⟨hh, hn⟩ := heads_of_lookup hb
    obtain ⟨q, hq, he⟩ := hl.named b hh
    rwa [Path.chars_inj (hn.symm.trans he)]
  · intro hp h
    obtain ⟨b, hb, hn⟩ := hl.found p hp
    rw [(hl.lookup_iff p b).mpr ⟨hb, hn⟩] at h
    cases h

theorem Lists.congr {ps : List Path} (hl : s.Lists ps) (hh : ∀ i, s'.Heads i ↔ s.Heads i)
    (hn : ∀ i, s.Heads i → (s'.hdr i).name = (s.hdr i).name) : s'.Lists ps := by
  refine ⟨fun p hp => ?_, fun i hi => ?_, fun i j hi hj he => ?_, hl.nodup⟩
  · obtain ⟨i, hi, he⟩ := hl.found p hp
    exact ⟨i, (hh i).mpr hi, (hn i hi).trans he⟩
  · obtain ⟨p, hp, he⟩ := hl.named i ((hh i).mp hi)
    exact ⟨p, hp, (hn i ((hh i).mp hi)).trans he⟩
  · rw [hh] at hi hj
    rw [hn i hi, hn j hj] at he
    exact hl.unique i j hi hj he

theorem heads_congr (hb : s'.bit = s.bit) (hn : ∀ i, (s'.hdr i).name = (s.hdr i).name) (i : Nat) :
    s'.Heads i ↔ s.Heads i := by
  rw [Heads, Heads, hb, hn]

/-- Headers with the same names under the same bitmap. -/
theorem Lists.of_names {ps : List Path} (hl : s.Lists ps) (hb : s'.bit = s.bit)
    (hn : ∀ i, (s'.hdr i).name = (s.hdr i).name) : s'.Lists ps :=
  hl.congr (heads_congr hb hn) (fun i _ => hn i)

theorem firstFree_some {marks : Nat → Int32} {i : Nat} (h : firstFree marks = some i) :
    1 ≤ i ∧ i < numBlocks ∧ marks i = 0 := by
  rw [firstFree_eq_head] at h
  exact mem_freeBlocks.mp (List.mem_of_mem_head? h)

theorem mark_one_iff {marks : Nat → Int32} {l : List Nat} {i : Nat} :
    mark marks l 1 i = 1 ↔ i ∈ l ∨ marks i = 1 := by
  rw [mark]
  split
  next hi => simp [hi]
  next hi => simp [hi]

theorem mark_zero_iff {marks : Nat → Int32} {l : List Nat} {i : Nat} :
    mark marks l 0 i = 1 ↔ i ∉ l ∧ marks i = 1 := by
  rw [mark]
  split
  next hi => simp [hi]
  next hi => simp [hi]

/-- The volume after a create that took block `i`. -/
def created (s : Blocks) (env : Env) (path : CString) (i : Nat) : Blocks where
  mem := mark s.bit [i] 1
  bit := mark s.bit [i] 1
  hdr := Function.update s.hdr i (s.createHead env path)
  dat := s.dat

theorem created_bit (env : Env) (path : CString) (i j : Nat) :
    (s.created env path i).bit j = 1 ↔ j = i ∨ s.bit j = 1 := by
  rw [created, mark_one_iff, List.mem_singleton]

theorem created_hdr (env : Env) (path : CString) {i j : Nat} (h : j ≠ i) :
    (s.created env path i).hdr j = s.hdr j := Function.update_of_ne h _ _

theorem created_name (env : Env) {p : Path} (hlen : p.chars.length < maxFilenameLength) (i : Nat) :
    ((s.created env p.chars i).hdr i).name = p.chars := by
  have hself : (s.created env p.chars i).hdr i = s.createHead env p.chars :=
    Function.update_self ..
  rw [hself]
  exact Metadata.name_strcpyFilename _ hlen p.nul_not_mem

theorem created_heads (env : Env) {p : Path} {i : Nat} (hi : firstFree s.bit = some i)
    (hlen : p.chars.length < maxFilenameLength) (j : Nat) :
    (s.created env p.chars i).Heads j ↔ j = i ∨ s.Heads j := by
  obtain ⟨h1, hlt, _⟩ := firstFree_some hi
  by_cases hj : j = i
  · subst j
    rw [Heads, created_bit, created_name env hlen]
    simp [h1, hlt, p.chars_ne_nil]
  · rw [Heads, Heads, created_bit, created_hdr env _ hj]
    simp [hj]

/-- The block that a create takes is no head yet, and no head has the new name. -/
theorem created_other (env : Env) {p : Path} {i j : Nat} (hf : s.lookup s.bit p.chars = none)
    (hi : firstFree s.bit = some i) (hj : s.Heads j) :
    j ≠ i ∧ (s.created env p.chars i).hdr j = s.hdr j ∧ (s.hdr j).name ≠ p.chars := by
  have hji : j ≠ i := by
    rintro rfl
    have hb := hj.2.2.1
    rw [(firstFree_some hi).2.2] at hb
    exact absurd hb (by decide)
  exact ⟨hji, created_hdr env _ hji, lookup_none hf hj.1 hj.2.1 hj.2.2.1⟩

theorem HeadsDiffer.create (hd : s.HeadsDiffer) (env : Env) {p : Path} {i : Nat}
    (hf : s.lookup s.bit p.chars = none) (hi : firstFree s.bit = some i)
    (hlen : p.chars.length < maxFilenameLength) : (s.created env p.chars i).HeadsDiffer := by
  have hself := created_name (s := s) env hlen i
  intro j k hj hk he
  rcases (created_heads env hi hlen j).mp hj with rfl | hj
  · rcases (created_heads env hi hlen k).mp hk with rfl | hk
    · rfl
    · obtain ⟨_, hh, hne⟩ := created_other env hf hi hk
      rw [hh, hself] at he
      exact absurd he.symm hne
  · obtain ⟨_, hh, hne⟩ := created_other env hf hi hj
    rcases (created_heads env hi hlen k).mp hk with rfl | hk
    · rw [hh, hself] at he
      exact absurd he hne
    · rw [hh, (created_other env hf hi hk).2.1] at he
      exact hd j k hj hk he

/-- A new name in a free block. -/
theorem Lists.create {ps : List Path} (hl : s.Lists ps) (env : Env) {p : Path} {i : Nat}
    (hf : s.lookup s.bit p.chars = none) (hi : firstFree s.bit = some i)
    (hlen : p.chars.length < maxFilenameLength) : (s.created env p.chars i).Lists (p :: ps) := by
  refine ⟨fun q hq => ?_, fun j hj => ?_, HeadsDiffer.create hl.unique env hf hi hlen, ?_⟩
  · rcases List.mem_cons.mp hq with rfl | hq
    · exact ⟨i, (created_heads env hi hlen i).mpr (Or.inl rfl), created_name env hlen i⟩
    · obtain ⟨j, hj, hn⟩ := hl.found q hq
      refine ⟨j, (created_heads env hi hlen j).mpr (Or.inr hj), ?_⟩
      rw [(created_other env hf hi hj).2.1]
      exact hn
  · rcases (created_heads env hi hlen j).mp hj with rfl | hj
    · exact ⟨p, List.mem_cons_self, created_name env hlen j⟩
    · obtain ⟨q, hq, hn⟩ := hl.named j hj
      refine ⟨q, List.mem_cons_of_mem p hq, ?_⟩
      rw [(created_other env hf hi hj).2.1]
      exact hn
  · refine List.nodup_cons.mpr ⟨fun hp => ?_, hl.nodup⟩
    exact (hl.live_iff p).mpr hp hf

/-- A name goes, the others stay. -/
theorem Lists.unlink {ps : List Path} (hl : s.Lists ps) {p : Path} {b : Nat}
    (hf : s.lookup s.bit p.chars = some b) (hhdr : s'.hdr = s.hdr)
    (hheads : ∀ i, s'.Heads i ↔ s.Heads i ∧ i ≠ b) : s'.Lists (ps.filter (· ≠ p)) := by
  obtain ⟨hb, hn⟩ := heads_of_lookup hf
  refine ⟨fun q hq => ?_, fun i hi => ?_, fun i j hi hj he => ?_, hl.nodup.filter _⟩
  · obtain ⟨hq, hne⟩ := List.mem_filter.mp hq
    obtain ⟨i, hi, hin⟩ := hl.found q hq
    refine ⟨i, (hheads i).mpr ⟨hi, ?_⟩, by rw [hhdr]; exact hin⟩
    rintro rfl
    exact of_decide_eq_true hne (Path.chars_inj (hin.symm.trans hn))
  · obtain ⟨hi, hne⟩ := (hheads i).mp hi
    obtain ⟨q, hq, hin⟩ := hl.named i hi
    rw [hhdr]
    refine ⟨q, List.mem_filter.mpr ⟨hq, ?_⟩, hin⟩
    refine decide_eq_true (fun he => ?_)
    subst q
    exact hne (hl.unique i b hi hb (hin.trans hn.symm))
  · rw [hhdr] at he
    exact hl.unique i j ((hheads i).mp hi).1 ((hheads j).mp hj).1 he

theorem touched_name (s : Blocks) (env : Env) (b i : Nat) :
    (Function.update s.hdr b { s.hdr b with accessTime := env.now 0 } i).name = (s.hdr i).name := by
  by_cases hi : i = b
  · rw [hi, Function.update_self]
    rfl
  · rw [Function.update_of_ne hi]

theorem written_name (s : Blocks) (env : Env) (b : Nat) (l : List Nat) (x : Int32)
    (buffer : Int → UInt8) (filled : List Nat) (i : Nat) :
    ((s.written env b l x buffer filled).hdr i).name =
      if i ∈ (s.taken l x).dropLast then [] else (s.hdr i).name := by
  have hup : ∀ j, (Function.update s.hdr b (s.writeHead env b x) j).name = (s.hdr j).name := by
    intro j
    by_cases hj : j = b
    · rw [hj, Function.update_self]
      rfl
    · rw [Function.update_of_ne hj]
  rw [written, linkBlocks_name, hup, hup]
  split
  next => rfl
  next =>
    split
    next hi => rw [hi.1]
    next => rfl

end Blocks

/-- A write links no stale name to its file, an unlink gives up no other file, and no block with a stale
name is lost to a name that is too long. -/
def Blocks.ListsSafely (s : Blocks) : Call → Prop
  | .write path _ size offset => ∀ b ∈ s.lookup s.mem path.chars, ∀ l ∈ s.chain b,
      (newSize size offset).toInt ≤ maxRequestSize →
        ∀ t ∈ (s.taken l (newSize size offset)).getLast?, (s.hdr t).name = []
  | .unlink path => ∀ b ∈ s.lookup s.bit path.chars, ∀ l ∈ s.chain b, ∀ i ∈ l,
      i ≠ b → s.bit i = 1 → (s.hdr i).name = []
  | .create path => maxFilenameLength ≤ path.chars.length →
      s.lookup s.bit path.chars = none → ∀ i ∈ firstFree s.bit, (s.hdr i).name = []
  | _ => True

/-- In memory a truncate gives up no file and takes no stale name into use. -/
def Blocks.MarksSafely (s : Blocks) : Call → Prop
  | .truncate path size => ∀ b ∈ s.lookup s.mem path.chars,
      (size.toInt < (s.hdr b).fileSize.toInt →
        s.rawNext^[blocksFor (cSize size.toInt)] b ≠ 0 →
          ∀ l ∈ s.chain (s.rawNext^[blocksFor (cSize size.toInt)] b), ∀ i ∈ l,
            s.mem i = 1 → (s.hdr i).name = []) ∧
      ((s.hdr b).fileSize.toInt < size.toInt → ∀ i ∈ freeBlocks s.mem,
        (growMarks s.next (blocksFor (cSize size.toInt) - 1) s.mem b).1 i = 1 → (s.hdr i).name = [])
  | _ => True

def keepsNames (_ : History) (s : Blocks) (c : Env × Call) : Prop :=
  s.ListsSafely c.2 ∧ s.MarksSafely c.2

instance (s : Blocks) (c : Call) : Decidable (s.ListsSafely c) := by
  rcases c <;> unfold Blocks.ListsSafely <;> infer_instance

instance (s : Blocks) (c : Call) : Decidable (s.MarksSafely c) := by
  rcases c <;> unfold Blocks.MarksSafely <;> infer_instance

instance : ∀ h s c, Decidable (keepsNames h s c) := fun _ s c =>
  inferInstanceAs (Decidable (s.ListsSafely c.2 ∧ s.MarksSafely c.2))

def Call.Writes : Call → Prop
  | .write _ _ _ _ => True
  | _ => False

namespace Blocks

variable {s s' : Blocks}

theorem MemNames.of_eq (h : s.mem = s.bit) : s.MemNames := fun i _ _ _ => by rw [h]

/-- The names of taken blocks are gone but for the last one. -/
theorem written_name_cases (s : Blocks) (env : Env) (b : Nat) (l : List Nat) (x : Int32)
    (buffer : Int → UInt8) (filled : List Nat) (i : Nat) :
    ((s.written env b l x buffer filled).hdr i).name = (s.hdr i).name ∨
      i ∈ s.taken l x ∧ ((s.written env b l x buffer filled).hdr i).name = [] := by
  rw [written_name]
  split
  next hi => exact Or.inr ⟨List.dropLast_subset _ hi, rfl⟩
  next => exact Or.inl rfl

theorem written_taken_name {env : Env} {b : Nat} {l : List Nat} {x : Int32} (buffer : Int → UInt8)
    (filled : List Nat) (hclean : ∀ t ∈ (s.taken l x).getLast?, (s.hdr t).name = []) {i : Nat}
    (hi : i ∈ s.taken l x) : ((s.written env b l x buffer filled).hdr i).name = [] := by
  rw [written_name]
  split
  next => rfl
  next hd =>
    have hne : s.taken l x ≠ [] := List.ne_nil_of_mem hi
    have hlast : i = (s.taken l x).getLast hne := by
      rw [← List.dropLast_append_getLast hne] at hi
      rcases List.mem_append.mp hi with hi | hi
      · exact absurd hi hd
      · exact List.mem_singleton.mp hi
    exact hclean i (by rw [List.getLast?_eq_getLast_of_ne_nil hne, hlast]; rfl)

/-- No name that is on disk lies in a block that is free in memory. -/
theorem MemNames.taken_not_head (hm : s.MemNames) {l : List Nat} {x : Int32} {i : Nat}
    (hi : i ∈ s.taken l x) : ¬s.Heads i := by
  intro hh
  obtain ⟨_, _, h0⟩ := mem_freeBlocks.mp (taken_free hi)
  have h1 := (hm i hh.1 hh.2.1 hh.2.2.2).mpr hh.2.2.1
  rw [h0] at h1
  exact absurd h1 (by decide)

theorem MemNames.written_name (hm : s.MemNames) (env : Env) (b : Nat) (l : List Nat) (x : Int32)
    (buffer : Int → UInt8) (filled : List Nat) {i : Nat} (hh : s.Heads i) :
    ((s.written env b l x buffer filled).hdr i).name = (s.hdr i).name := by
  rcases s.written_name_cases env b l x buffer filled i with h | ⟨hi, _⟩
  · exact h
  · exact absurd hh (hm.taken_not_head hi)

/-- A write leaves the named blocks alone. -/
theorem MemNames.written_heads (hm : s.MemNames) (env : Env) (b : Nat) (buffer : Int → UInt8)
    (filled : List Nat) {l : List Nat} {x : Int32}
    (hclean : ∀ t ∈ (s.taken l x).getLast?, (s.hdr t).name = []) {marks : Nat → Int32}
    (hmarks : marks = mark s.mem (s.taken l x) 1 ∨ marks = s.bit) (i : Nat) :
    { s.written env b l x buffer filled with bit := marks }.Heads i ↔ s.Heads i := by
  constructor
  · rintro ⟨h1, hi, hb, hn⟩
    change marks i = 1 at hb
    change ((s.written env b l x buffer filled).hdr i).name ≠ [] at hn
    have hout : i ∉ s.taken l x := fun hi => hn (written_taken_name buffer filled hclean hi)
    have hsame := (s.written_name_cases env b l x buffer filled i).resolve_right
      (fun hc => hout hc.1)
    rw [hsame] at hn
    refine ⟨h1, hi, ?_, hn⟩
    rcases hmarks with rfl | rfl
    · exact (hm i h1 hi hn).mp ((mark_one_iff.mp hb).resolve_left hout)
    · exact hb
  · intro hh
    obtain ⟨h1, hi, hb, hn⟩ := id hh
    refine ⟨h1, hi, ?_, ?_⟩
    · show marks i = 1
      rcases hmarks with rfl | rfl
      · exact mark_one_iff.mpr (Or.inr ((hm i h1 hi hn).mpr hb))
      · exact hb
    · show ((s.written env b l x buffer filled).hdr i).name ≠ []
      rwa [hm.written_name env b l x buffer filled hh]

theorem Lists.written {ps : List Path} (hl : s.Lists ps) (hm : s.MemNames) {env : Env} {b : Nat}
    {l : List Nat} {x : Int32} {buffer : Int → UInt8} {filled : List Nat}
    (hclean : ∀ t ∈ (s.taken l x).getLast?, (s.hdr t).name = []) {marks : Nat → Int32}
    (hmarks : marks = mark s.mem (s.taken l x) 1 ∨ marks = s.bit) :
    { s.written env b l x buffer filled with bit := marks }.Lists ps :=
  hl.congr (hm.written_heads _ _ _ _ hclean hmarks)
    (fun _ hi => hm.written_name env b l x buffer filled hi)

/-- The names on disk stay those of the live paths. -/
theorem Lists.step {h : History} {c : Env × Call} {r : Reply} (hl : s.Lists (livePaths h))
    (hm : c.2.Writes → s.MemNames) (hok : s.ListsSafely c.2) (hs : s.Step c s' r) :
    s'.Lists (livePaths ((c, r) :: h)) := by
  cases hs with
  | look hlook => rwa [livePaths_quiet (hlook.quiet _ r)]
  | reload _ hq =>
    rw [livePaths_quiet hq]
    exact hl.of_names rfl (fun _ => rfl)
  | writeNone | writeBig | truncateNone | keep => exact hl
  | @touch env _ _ _ b =>
    exact Lists.of_names hl rfl (s.touched_name env b)
  | @write _ _ _ _ _ b l hf hc hmax _ =>
    exact hl.written (hm trivial) (hok b hf l hc hmax) (Or.inl rfl)
  | @starve _ _ _ _ _ b l hf hc hmax _ =>
    exact hl.written (hm trivial) (hok b hf l hc hmax) (Or.inr rfl)
  | shrink => exact hl.of_names rfl (fun _ => rfl)
  | @grow env path size _ _ _ _ hr =>
    have hq : Quiet (env, .truncate path size) r := by
      rcases hr with rfl | rfl
      · trivial
      · trivial
    rw [livePaths_quiet hq]
    exact hl.of_names rfl (fun _ => rfl)
  | @unlink _ p b l hf hc =>
    refine hl.unlink hf rfl (fun i => ?_)
    have hmem : b ∈ l := (LinkedChain.of_follow hc).head_mem
    constructor
    · rintro ⟨h1, hi, hb, hn⟩
      obtain ⟨hil, hbi⟩ := mark_zero_iff.mp hb
      exact ⟨⟨h1, hi, hbi, hn⟩, fun he => hil (he ▸ hmem)⟩
    · rintro ⟨⟨h1, hi, hb, hn⟩, hne⟩
      exact ⟨h1, hi, mark_zero_iff.mpr ⟨fun hil => hn (hok b hf l hc i hil hne hb), hb⟩, hn⟩
  | @leak _ p i hf hi hlen =>
    have hstale := hok hlen hf i hi
    have hheads : ∀ j, Heads { s with mem := mark s.bit [i] 1, bit := mark s.bit [i] 1 } j ↔
        s.Heads j := by
      intro j
      constructor
      · rintro ⟨h1, hj, hb, hn⟩
        refine ⟨h1, hj, (mark_one_iff.mp hb).resolve_left (fun hji => hn ?_), hn⟩
        rw [List.mem_singleton.mp hji]
        exact hstale
      · rintro ⟨h1, hj, hb, hn⟩
        exact ⟨h1, hj, mark_one_iff.mpr (Or.inr hb), hn⟩
    exact hl.congr hheads (fun _ _ => rfl)
  | @create env p i hf hi hlen => exact hl.create env hf hi hlen

theorem MemNames.starved (hm : s.MemNames) {env : Env} {b : Nat} {l : List Nat} {x : Int32}
    {buffer : Int → UInt8} {filled : List Nat}
    (hclean : ∀ t ∈ (s.taken l x).getLast?, (s.hdr t).name = []) :
    (s.written env b l x buffer filled).MemNames := by
  intro i h1 hi hn
  show mark s.mem (s.taken l x) 1 i = 1 ↔ s.bit i = 1
  have hout : i ∉ s.taken l x := fun hit => hn (written_taken_name buffer filled hclean hit)
  have hsame := (s.written_name_cases env b l x buffer filled i).resolve_right (fun hc => hout hc.1)
  rw [hsame] at hn
  rw [mark_one_iff, ← hm i h1 hi hn]
  simp [hout]

/-- Both bitmaps keep the same names. -/
theorem MemNames.step {c : Env × Call} {r : Reply} (hm : s.MemNames) (hr : s.InRange)
    (hok : s.ListsSafely c.2) (hmk : s.MarksSafely c.2) (hs : s.Step c s' r) : s'.MemNames := by
  cases hs with
  | look | writeNone | writeBig | truncateNone | keep => exact hm
  | reload | unlink | leak | create | write => exact .of_eq rfl
  | @touch env _ _ _ b =>
    intro i h1 hi hn
    exact hm i h1 hi (fun hne => hn ((s.touched_name env b i).trans hne))
  | @starve _ _ _ _ _ b l hf hc hmax _ => exact hm.starved (hok b hf l hc hmax)
  | @shrink _ _ size b l hf hlt h0 hc =>
    intro i h1 hi hn
    change mark s.mem l 0 i = 1 ↔ s.bit i = 1
    have hout : s.mem i = 1 → i ∉ l := fun hmi hil => hn ((hmk b hf).1 hlt h0 l hc i hil hmi)
    rw [mark_zero_iff, ← hm i h1 hi hn]
    exact ⟨fun hh => hh.2, fun hmi => ⟨hout hmi, hmi⟩⟩
  | @grow _ _ size b _ hf hgt _ =>
    intro i h1 hi hn
    rw [← hm i h1 hi hn]
    refine ⟨fun hg => ?_, fun hmi => growMarks_mem_eq_one _ _ hmi b⟩
    rcases hr.mem i with h0 | hmi
    · exact absurd ((hmk b hf).2 hgt i (mem_freeBlocks.mpr ⟨h1, hi, h0⟩) hg) hn
    · exact hmi

theorem MemNames.heads_iff (hm : s.MemNames) (i : Nat) :
    s.Heads i ↔ i ∈ blockRange.filter (fun i => s.mem i = 1 ∧ (s.hdr i).name ≠ []) := by
  rw [List.mem_filter, mem_blockRange, decide_eq_true_eq]
  constructor
  · rintro ⟨h1, hi, hb, hn⟩
    exact ⟨⟨h1, hi⟩, (hm i h1 hi hn).mpr hb, hn⟩
  · rintro ⟨⟨h1, hi⟩, hmi, hn⟩
    exact ⟨h1, hi, (hm i h1 hi hn).mp hmi, hn⟩

theorem Lists.files_nodup {ps : List Path} (hl : s.Lists ps) : (ps.map Path.file).Nodup := by
  refine hl.nodup.map (fun p q he => Path.chars_inj ?_)
  rw [Path.chars, Path.chars, he]

/-- What hello_readdir passes to the filler. -/
theorem Lists.names_perm {ps : List Path} (hl : s.Lists ps) (hm : s.MemNames) :
    s.names.Perm (ps.map Path.file) := by
  have hname : ∀ (i : Nat) (p : Path), (s.hdr i).name = p.chars → (s.hdr i).name.drop 1 = p.file := by
    intro i p hn
    rw [hn]
    rfl
  have hnames : s.names.Nodup := by
    refine List.Nodup.map_on (fun i hi j hj he => ?_) (blockRange_nodup.filter _)
    have hi := (hm.heads_iff i).mpr hi
    have hj := (hm.heads_iff j).mpr hj
    obtain ⟨p, _, hp⟩ := hl.named i hi
    obtain ⟨q, _, hq⟩ := hl.named j hj
    rw [hname i p hp, hname j q hq] at he
    apply hl.unique i j hi hj
    rw [hp, hq, Path.chars, Path.chars, he]
  refine (List.perm_ext_iff_of_nodup hnames hl.files_nodup).mpr (fun n => ?_)
  rw [names, List.mem_map, List.mem_map]
  constructor
  · rintro ⟨i, hi, rfl⟩
    obtain ⟨p, hp, hn⟩ := hl.named i ((hm.heads_iff i).mpr hi)
    exact ⟨p, hp, (hname i p hn).symm⟩
  · rintro ⟨p, hp, rfl⟩
    obtain ⟨i, hi, hn⟩ := hl.found p hp
    exact ⟨i, (hm.heads_iff i).mp hi, hname i p hn⟩

theorem getattr_enoent (s : Blocks) (p : Path) :
    (s.getattr p.chars).2 = .err .enoent ↔ s.lookup s.bit p.chars = none := by
  have hsame : lookup { s with mem := s.bit } s.bit p.chars = s.lookup s.bit p.chars := rfl
  simp only [getattr, if_neg p.chars_ne_root, hsame]
  split
  next b hb => simp [hb]
  next hb => simp [hb]

theorem openFile_enoent (s : Blocks) (path : CString) :
    (s.openFile path).2 = .err .enoent ↔ s.lookup s.mem path = none := by
  unfold openFile
  split
  next b hb => simp [hb]
  next hb => simp [hb]

theorem read_enoent {env : Env} {path : CString} {size : UInt64} {offset : Int64} {r : Reply}
    (h : s.read env path size offset = some (s', r)) :
    r = .err .enoent ↔ s.lookup s.mem path = none := by
  unfold read at h
  split at h
  next hb =>
    cases h
    simp [hb]
  next b hb =>
    obtain ⟨l, _, he⟩ := Option.map_eq_some_iff.mp h
    cases he
    simp [hb]

theorem fresh_heads (i : Nat) : ¬fresh.Heads i := fun hi => hi.2.2.2 Metadata.name_zero

theorem fresh_lists : fresh.Lists [] :=
  ⟨fun _ hp => absurd hp List.not_mem_nil, fun i hi => absurd hi (fresh_heads i),
    fun i _ hi => absurd hi (fresh_heads i), .nil⟩

end Blocks

theorem BlockRun.names {h : History} {s : Blocks} (hr : BlockRun keepsNames h s) :
    s.Lists (livePaths h) ∧ s.MemNames := by
  refine hr.invariant (P := fun h s => s.Lists (livePaths h) ∧ s.MemNames)
    ⟨Blocks.fresh_lists, .of_eq rfl⟩ (fun h _ _ _ _ hrange hp hok hc => ?_)
  have hs := Blocks.step_of_call hc
  exact ⟨hp.1.step (fun _ => hp.2) hok.1 hs, hp.2.step hrange hok.1 hok.2 hs⟩

/-- The calls find exactly the live paths, and readdir each of them once, while every call meets
`keepsNames`. -/
theorem live_paths_are_found {h : History} {w : World} (hr : Reaches keepsNames h w) :
    (∀ env w' r, fuseCall w (env, .readdir none) = some (w', r) →
      ∃ names, r = .entries ([46] :: [46, 46] :: names) ∧ names.Nodup ∧
        names.Perm ((livePaths h).map Path.file)) ∧
    ∀ p env w' r,
      (fuseCall w (env, .getattr (some p)) = some (w', r) → (r = .err .enoent ↔ p ∉ livePaths h)) ∧
      (fuseCall w (env, .open p) = some (w', r) → (r = .err .enoent ↔ p ∉ livePaths h)) ∧
      ∀ size offset, fuseCall w (env, .read p size offset) = some (w', r) →
        (r = .err .enoent ↔ p ∉ livePaths h) := by
  obtain ⟨⟨mode, hs⟩, hrun⟩ := hr.blockRun
  obtain ⟨hl, hm⟩ := hrun.names
  have hnone : ∀ p : Path, w.view.lookup w.view.bit p.chars = none ↔ p ∉ livePaths h :=
    fun p => not_iff_not.mp ((not_not.trans (hl.live_iff p).symm).symm)
  refine ⟨fun env w' r hc => ?_, fun p env w' r => ⟨fun hc => ?_, fun hc => ?_, fun _ _ hc => ?_⟩⟩
  · obtain ⟨_, s', _, he⟩ := fuseCall_some hs hc
    have he : w.view.readdir rootPath = (s', r) := Option.some.inj he
    rw [Blocks.readdir, if_neg (not_not.mpr rfl)] at he
    cases he
    have hperm := hl.names_perm hm
    exact ⟨_, rfl, hperm.nodup_iff.mpr hl.files_nodup, hperm⟩
  · obtain ⟨_, s', _, he⟩ := fuseCall_some hs hc
    have he : w.view.getattr p.chars = (s', r) := Option.some.inj he
    have hg := w.view.getattr_enoent p
    rw [he] at hg
    exact hg.trans (hnone p)
  · obtain ⟨_, s', _, he⟩ := fuseCall_some hs hc
    have he : w.view.openFile p.chars = (s', r) := Option.some.inj he
    have hg := w.view.openFile_enoent p.chars
    rw [he] at hg
    rw [hg, hm.lookup]
    exact hnone p
  · obtain ⟨_, s', _, he⟩ := fuseCall_some hs hc
    rw [Blocks.read_enoent he, hm.lookup]
    exact hnone p

set_option maxRecDepth 100000 in
/-- A file grows, its blocks are freed and one of them is used again. -/
theorem live_paths_are_found_reused : ∃ h w, Reaches keepsNames h w ∧ livePaths h = [pathX, pathB] ∧
    ∀ env w' r, fuseCall w (env, .readdir none) = some (w', r) →
      ∃ names, r = .entries ([46] :: [46, 46] :: names) ∧ names.Nodup ∧
        names.Perm [[120], [98]] := by
  obtain ⟨h, w, hr, hc⟩ := reaches_of_plays keepsNames
    [plain (.create pathA), plain (.write pathA (fun _ => 88) 5000 0), plain (.create pathB),
      plain (.unlink pathA), plain (.create pathX)]
    (fun h _ => livePaths h = [pathX, pathB]) (by decide +kernel)
  have hlive := of_decide_eq_true hc
  have hnames := (live_paths_are_found hr).1
  rw [hlive] at hnames
  exact ⟨h, w, hr, hlive, hnames⟩

set_option maxRecDepth 100000 in
/-- A create with a name that is too long marks block 1, whose header still holds the name of the file
unlinked before. -/
theorem long_create_revives_name : ¬∀ h w, Reaches anyCall h w → ∀ p env w' r,
    fuseCall w (env, .getattr (some p)) = some (w', r) → (r = .err .enoent ↔ p ∉ livePaths h) := by
  intro hall
  obtain ⟨h, s, hr, hc⟩ := blockRun_of_plays anyCall
    [plain (.create pathA), plain (.unlink pathA), plain (.create pathLong)]
    (fun h s => livePaths h = [] ∧ s.lookup s.bit pathA.chars ≠ none) (by decide +kernel)
  obtain ⟨hlive, hfound⟩ := of_decide_eq_true hc
  obtain ⟨w, mode, hs, hrun⟩ := hr.reaches
  obtain ⟨_, w', he, _⟩ := call_some (c := plain (.getattr (some pathA))) hs rfl
  have hno := (hall h w hrun pathA _ w' _ he).mpr (by rw [hlive]; exact List.not_mem_nil)
  exact hfound ((s.getattr_enoent pathA).mp hno)

end FreeBSDEdits
