import FreeBSDEdits.TailQueue
import Mathlib.Order.Lattice

/-- A tail queue kept in increasing order of a key. -/
def OrderedQueue {α κ : Type} [LinearOrder κ] (key : α → κ) (l : List α) : Prop :=
  l.Pairwise fun x y => key x < key y

namespace OrderedQueue

variable {α κ : Type} [LinearOrder κ] {key key' : α → κ} {l : List α} {x y new : α}

theorem congr (h : OrderedQueue key l) (heq : ∀ y ∈ l, key' y = key y) : OrderedQueue key' l := by
  refine List.Pairwise.imp_of_mem (fun hx hy hlt => ?_) h
  rw [heq _ hx, heq _ hy]
  exact hlt

theorem eq_of_key (h : OrderedQueue key l) (hx : x ∈ l) (hy : y ∈ l) (hk : key x = key y) :
    x = y := by
  induction l with
  | nil => cases hx
  | cons z l ih =>
    obtain ⟨hz, hl⟩ := List.pairwise_cons.mp h
    rcases List.mem_cons.mp hx with rfl | hxl <;> rcases List.mem_cons.mp hy with rfl | hyl
    · rfl
    · exact absurd hk (ne_of_lt (hz y hyl))
    · exact absurd hk (ne_of_gt (hz x hxl))
    · exact ih hl hxl hyl

theorem nodup (h : OrderedQueue key l) : l.Nodup :=
  List.Pairwise.imp (fun hlt heq => absurd (congrArg key heq) (ne_of_lt hlt)) h

theorem cons (h : OrderedQueue key l) (hnew : ∀ y ∈ l, key new < key y) :
    OrderedQueue key (new :: l) :=
  List.pairwise_cons.mpr ⟨hnew, h⟩

theorem head_le (h : OrderedQueue key l) (hx : l.head? = some x) (hy : y ∈ l) : key x ≤ key y := by
  cases l with
  | nil => cases hx
  | cons z l =>
    obtain rfl : z = x := by simpa using hx
    rcases List.mem_cons.mp hy with rfl | hy
    · exact le_refl _
    · exact le_of_lt ((List.pairwise_cons.mp h).1 y hy)

/-- Another element with the key of `x` in its place. -/
theorem replace {pre post : List α} (h : OrderedQueue key (pre ++ x :: post)) (hy : key' y = key x)
    (heq : ∀ z ∈ pre ++ post, key' z = key z) : OrderedQueue key' (pre ++ y :: post) := by
  obtain ⟨hpre, hpost, hcross⟩ := List.pairwise_append.mp h
  obtain ⟨hxpost, hpost⟩ := List.pairwise_cons.mp hpost
  refine List.pairwise_append.mpr ⟨congr hpre fun z hz => heq z (List.mem_append_left _ hz),
    List.pairwise_cons.mpr ⟨fun z hz => ?_, congr hpost fun z hz => heq z (by simp [hz])⟩,
    fun z hz w hw => ?_⟩
  · rw [hy, heq z (List.mem_append_right _ hz)]
    exact hxpost z hz
  · rw [heq z (List.mem_append_left _ hz)]
    rcases List.mem_cons.mp hw with rfl | hw
    · rw [hy]
      exact hcross z hz x List.mem_cons_self
    · rw [heq w (List.mem_append_right _ hw)]
      exact hcross z hz w (List.mem_cons_of_mem _ hw)

variable [DecidableEq α]

theorem erase (h : OrderedQueue key l) : OrderedQueue key (l.erase x) :=
  List.Pairwise.sublist List.erase_sublist h

theorem insertAfter (h : OrderedQueue key l) (hx : x ∈ l) (hlt : key x < key new)
    (hgap : ∀ y ∈ l, key x < key y → key new < key y) :
    OrderedQueue key (TailQueue.insertAfter l x new) := by
  obtain ⟨pre, post, rfl⟩ := List.append_of_mem hx
  have hd := h.nodup
  obtain ⟨hpre, hpost, hcross⟩ := List.pairwise_append.mp h
  obtain ⟨hxpost, hpost⟩ := List.pairwise_cons.mp hpost
  have hnot : x ∉ pre := by
    intro hm
    exact absurd (hcross x hm x List.mem_cons_self) (lt_irrefl _)
  rw [TailQueue.insertAfter_append hnot]
  refine List.pairwise_append.mpr ⟨hpre, ?_, ?_⟩
  · refine List.pairwise_cons.mpr ⟨fun y hy => ?_, List.pairwise_cons.mpr ⟨fun y hy => ?_, hpost⟩⟩
    · rcases List.mem_cons.mp hy with rfl | hy
      · exact hlt
      · exact hxpost y hy
    · exact hgap y (by simp [hy]) (hxpost y hy)
  · intro y hy z hz
    have hyx := hcross y hy x List.mem_cons_self
    rcases List.mem_cons.mp hz with rfl | hz
    · exact hyx
    · rcases List.mem_cons.mp hz with rfl | hz
      · exact lt_trans hyx hlt
      · exact hcross y hy z (List.mem_cons_of_mem _ hz)

/-- The next element has the least greater key. -/
theorem next_iff (h : OrderedQueue key l) (hx : x ∈ l) :
    TailQueue.next l x = some y ↔
      y ∈ l ∧ key x < key y ∧ ∀ z ∈ l, key x < key z → key y ≤ key z := by
  obtain ⟨pre, post, rfl⟩ := List.append_of_mem hx
  obtain ⟨hpre, hpost, hcross⟩ := List.pairwise_append.mp h
  obtain ⟨hxpost, hpost⟩ := List.pairwise_cons.mp hpost
  have hnot : x ∉ pre := fun hm => absurd (hcross x hm x List.mem_cons_self) (lt_irrefl _)
  have habove : ∀ z ∈ pre ++ x :: post, key x < key z → z ∈ post := by
    intro z hz hlt
    rcases List.mem_append.mp hz with hz | hz
    · exact absurd (hcross z hz x List.mem_cons_self) (not_lt_of_gt hlt)
    · rcases List.mem_cons.mp hz with rfl | hz
      · exact absurd hlt (lt_irrefl _)
      · exact hz
  rw [TailQueue.next_append hnot]
  constructor
  · intro hhead
    have hy := List.mem_of_mem_head? hhead
    refine ⟨by simp [hy], hxpost y hy, fun z hz hlt => ?_⟩
    exact head_le hpost hhead (habove z hz hlt)
  · rintro ⟨hy, hlt, hleast⟩
    have hyp := habove y hy hlt
    obtain ⟨w, hw⟩ : ∃ w, post.head? = some w := by
      cases post with
      | nil => cases hyp
      | cons w post => exact ⟨w, rfl⟩
    have hwp := List.mem_of_mem_head? hw
    have hle := hleast w (by simp [hwp]) (hxpost w hwp)
    have hge := head_le hpost hw hyp
    rw [hw, eq_of_key hpost hwp hyp (le_antisymm hge hle)]

/-- The element before `x` has the greatest smaller key. -/
theorem prev_iff (h : OrderedQueue key l) (hx : x ∈ l) :
    TailQueue.prev l x = some y ↔
      y ∈ l ∧ key y < key x ∧ ∀ z ∈ l, key z < key x → key z ≤ key y := by
  obtain ⟨pre, post, rfl⟩ := List.append_of_mem hx
  obtain ⟨hpre, hpost, hcross⟩ := List.pairwise_append.mp h
  obtain ⟨hxpost, -⟩ := List.pairwise_cons.mp hpost
  have hnot : x ∉ pre := fun hm => absurd (hcross x hm x List.mem_cons_self) (lt_irrefl _)
  have hnot' : x ∉ post := fun hm => absurd (hxpost x hm) (lt_irrefl _)
  have hbelow : ∀ z ∈ pre ++ x :: post, key z < key x → z ∈ pre := by
    intro z hz hlt
    rcases List.mem_append.mp hz with hz | hz
    · exact hz
    · rcases List.mem_cons.mp hz with rfl | hz
      · exact absurd hlt (lt_irrefl _)
      · exact absurd (hxpost z hz) (not_lt_of_gt hlt)
  have hlast : ∀ w, pre.getLast? = some w → ∀ z ∈ pre, key z ≤ key w := by
    intro w hw z hz
    obtain ⟨init, rfl⟩ := List.getLast?_eq_some_iff.mp hw
    rcases List.mem_append.mp hz with hz | hz
    · exact le_of_lt ((List.pairwise_append.mp hpre).2.2 z hz w (by simp))
    · rw [List.mem_singleton.mp hz]
  rw [TailQueue.prev_append hnot hnot']
  constructor
  · intro hw
    have hy := List.mem_of_getLast? hw
    refine ⟨by simp [hy], hcross y hy x List.mem_cons_self, fun z hz hlt => ?_⟩
    exact hlast y hw z (hbelow z hz hlt)
  · rintro ⟨hy, hlt, hgreatest⟩
    have hyp := hbelow y hy hlt
    obtain ⟨w, hw⟩ : ∃ w, pre.getLast? = some w := by
      cases pre with
      | nil => cases hyp
      | cons w pre => exact ⟨_, List.getLast?_cons ..⟩
    have hwp := List.mem_of_getLast? hw
    have hle := hgreatest w (by simp [hwp]) (hcross w hwp x List.mem_cons_self)
    rw [hw, eq_of_key hpre hwp hyp (le_antisymm hle (hlast w hw y hyp))]

end OrderedQueue
