import Mathlib.Data.List.Nodup
import Mathlib.Data.List.Perm.Subperm

/-- The cells met by following `nxt` from `a` up to the cell without a successor. -/
inductive LinkedChain {α : Type} (nxt : α → Option α) : α → List α → Prop
  | last {a} : nxt a = none → LinkedChain nxt a [a]
  | link {a b l} : nxt a = some b → LinkedChain nxt b l → LinkedChain nxt a (a :: l)

namespace LinkedChain

variable {α : Type} {nxt nxt' : α → Option α} {a b : α} {l m : List α}

theorem head (h : LinkedChain nxt a l) : l.head? = some a := by
  cases h with
  | last => rfl
  | link => rfl

theorem ne_nil (h : LinkedChain nxt a l) : l ≠ [] := by
  cases h with
  | last => simp
  | link => simp

theorem head_mem (h : LinkedChain nxt a l) : a ∈ l := List.mem_of_mem_head? h.head

theorem getLastD_eq (h : LinkedChain nxt a l) (d : α) : l.getLastD d = l.getLast h.ne_nil := by
  rw [List.getLastD_eq_getLast?, List.getLast?_eq_getLast_of_ne_nil h.ne_nil]
  rfl

theorem getLastD_mem (h : LinkedChain nxt a l) (d : α) : l.getLastD d ∈ l := by
  rw [h.getLastD_eq]
  exact List.getLast_mem h.ne_nil

theorem cons_tail (h : LinkedChain nxt a l) : l = a :: l.tail := by
  cases h with
  | last => rfl
  | link => rfl

theorem unique (h : LinkedChain nxt a l) (h' : LinkedChain nxt a m) : l = m := by
  induction h generalizing m with
  | last hn =>
    cases h' with
    | last => rfl
    | link hs => simp [hn] at hs
  | link hs _ ih =>
    cases h' with
    | last hn => simp [hn] at hs
    | link hs' ht =>
      cases Option.some.inj (hs.symm.trans hs')
      rw [ih ht]

theorem suffix_of_mem (h : LinkedChain nxt a l) (hb : b ∈ l) :
    ∃ front back, l = front ++ back ∧ LinkedChain nxt b back := by
  induction h with
  | @last a hn =>
    have he : b = a := by simpa using hb
    subst b
    exact ⟨[], [a], rfl, .last hn⟩
  | @link a c l hs ht ih =>
    rcases List.mem_cons.mp hb with rfl | hb
    · exact ⟨[], b :: l, rfl, .link hs ht⟩
    · obtain ⟨front, back, he, hc⟩ := ih hb
      exact ⟨a :: front, back, by rw [he]; rfl, hc⟩

/-- A chain that ends meets no cell twice: the rest of the walk from a repeated
cell would be a proper suffix of itself. -/
theorem nodup (h : LinkedChain nxt a l) : l.Nodup := by
  induction h with
  | last => simp
  | @link a b l hs ht ih =>
    refine List.nodup_cons.mpr ⟨?_, ih⟩
    intro hm
    obtain ⟨front, back, he, hc⟩ := ht.suffix_of_mem hm
    have hsame := hc.unique (.link hs ht)
    have hlen := congrArg List.length he
    rw [hsame] at hlen
    simp only [List.length_append, List.length_cons] at hlen
    omega

theorem congr (h : LinkedChain nxt a l) (hn : ∀ x ∈ l, nxt' x = nxt x) : LinkedChain nxt' a l := by
  induction h with
  | @last a he => exact .last ((hn a (by simp)).trans he)
  | @link a b l hs _ ih =>
    exact .link ((hn a (by simp)).trans hs) (ih (fun x hx => hn x (List.mem_cons_of_mem a hx)))

/-- A chain ends within its first `m` cells exactly if the last of these has no successor. -/
theorem next_take (h : LinkedChain nxt a l) {m : Nat} (hm : 0 < m) :
    (∀ x ∈ (l.take m).getLast?, nxt x = none) ↔ l.length ≤ m := by
  induction h generalizing m with
  | @last a hn =>
    obtain ⟨k, rfl⟩ : ∃ k, m = k + 1 := ⟨m - 1, by omega⟩
    simp [hn]
  | @link a b l hs hl ih =>
    obtain ⟨k, rfl⟩ : ∃ k, m = k + 1 := ⟨m - 1, by omega⟩
    have hpos := List.length_pos_iff.mpr hl.ne_nil
    by_cases hk : k = 0
    · subst k
      simp only [List.take_succ_cons, List.take_zero, List.getLast?_singleton, Option.mem_some_iff,
        forall_eq', hs, reduceCtorEq, List.length_cons, false_iff]
      omega
    · have htake : l.take k ≠ [] := by
        rw [← List.length_pos_iff, List.length_take]
        omega
      rw [List.take_succ_cons, List.getLast?_cons_of_ne_nil htake, ih (Nat.pos_of_ne_zero hk),
        List.length_cons]
      omega

/-- Redirecting the last cell of a chain to the start of another chain joins them. -/
theorem join (h : LinkedChain nxt a l) (hkeep : ∀ x ∈ l, x ≠ l.getLast h.ne_nil → nxt' x = nxt x)
    (hlast : nxt' (l.getLast h.ne_nil) = some b) (ht : LinkedChain nxt' b m) :
    LinkedChain nxt' a (l ++ m) := by
  induction h with
  | last => exact .link hlast ht
  | @link a c l hs hc ih =>
    have hne := hc.ne_nil
    rw [List.getLast_cons hne] at hlast
    have hna : a ≠ l.getLast hne := by
      intro he
      have hd := (LinkedChain.link hs hc).nodup
      exact (List.nodup_cons.mp hd).1 (he ▸ List.getLast_mem hne)
    refine .link ((hkeep a (by simp) ?_).trans hs) (ih ?_ hlast)
    · rwa [List.getLast_cons hne]
    · intro x hx hxl
      exact hkeep x (List.mem_cons_of_mem a hx) (by rwa [List.getLast_cons hne])

/-- Cells with a new successor do no harm as long as the chains from them end. -/
theorem ends_of_redirect {r : List α} (h : LinkedChain nxt a l) (hoff : ∀ x, x ∉ r → nxt' x = nxt x)
    (hr : ∀ x ∈ r, ∃ m, LinkedChain nxt' x m) : ∃ m, LinkedChain nxt' a m := by
  classical
  induction h with
  | @last a hn =>
    by_cases ha : a ∈ r
    · exact hr a ha
    · exact ⟨[a], .last ((hoff a ha).trans hn)⟩
  | @link a b l hs _ ih =>
    by_cases ha : a ∈ r
    · exact hr a ha
    · obtain ⟨m, hm⟩ := ih
      exact ⟨a :: m, .link ((hoff a ha).trans hs) hm⟩

theorem length_le_of_subset {u : List α} (h : LinkedChain nxt a l) (hu : ∀ x ∈ l, x ∈ u) :
    l.length ≤ u.length :=
  (List.subperm_of_subset h.nodup hu).length_le

/-- The walk along `nxt`, given up after `fuel` cells. -/
def follow (nxt : α → Option α) : Nat → α → Option (List α)
  | 0, _ => none
  | fuel + 1, a =>
    match nxt a with
    | none => some [a]
    | some b => (follow nxt fuel b).map (a :: ·)

theorem of_follow {fuel : Nat} (h : follow nxt fuel a = some l) : LinkedChain nxt a l := by
  induction fuel generalizing a l with
  | zero => simp [follow] at h
  | succ fuel ih =>
    simp only [follow] at h
    split at h
    next hn =>
      cases Option.some.inj h
      exact .last hn
    next b hs =>
      obtain ⟨rest, hr, he⟩ := Option.map_eq_some_iff.mp h
      subst l
      exact .link hs (ih hr)

theorem follow_complete (h : LinkedChain nxt a l) : ∀ fuel, l.length ≤ fuel →
    follow nxt fuel a = some l := by
  induction h with
  | last hn =>
    intro fuel hf
    cases fuel with
    | zero => simp at hf
    | succ fuel => simp [follow, hn]
  | link hs _ ih =>
    intro fuel hf
    cases fuel with
    | zero => simp at hf
    | succ fuel =>
      have hh := ih fuel (by simpa using hf)
      simp [follow, hs, hh]

end LinkedChain
