import FreeBSDEdits.ResidentMap

namespace FreeBSDEdits

namespace Residency

variable {R Mem P O : Type}

def AllCoherent (v : VmRadix R Mem P) (s : Residency R P O) : Prop :=
  ∀ o, Coherent v s.page o (s.object o)

def map (v : VmRadix R Mem P) (s : Residency R P O) : ResidentMap P O :=
  fun o i => s.vmPageLookup v o i

theorem AllCoherent.places {v : VmRadix R Mem P} {s : Residency R P O} (hs : s.AllCoherent v) :
    Places (s.map v) s.page :=
  fun o i m => (hs o).lookup_iff i m

section

variable (s : Residency R P O) (m : P) (p : ResidentPage O) (o : O) (x : ResidentObject R P)

section

variable [DecidableEq P]

@[simp] theorem setPage_page : (s.setPage m p).page m = p := Function.update_self ..

theorem setPage_page_of_ne {q : P} (h : q ≠ m) : (s.setPage m p).page q = s.page q :=
  Function.update_of_ne h ..

@[simp] theorem setPage_object : (s.setPage m p).object = s.object := rfl

end

variable [DecidableEq O]

@[simp] theorem setObject_object : (s.setObject o x).object o = x := Function.update_self ..

theorem setObject_object_of_ne {o' : O} (h : o' ≠ o) : (s.setObject o x).object o' = s.object o' :=
  Function.update_of_ne h ..

@[simp] theorem setObject_page : (s.setObject o x).page = s.page := rfl

end

variable {v : VmRadix R Mem P} {writeMapped : P → Bool} {s s' : Residency R P O}
  {m : P} {o : O} {i : UInt64}

/-- The page behind the place found is beyond the index. -/
theorem AllCoherent.msucc [DecidableEq P] (hv : v.Lawful) (hs : s.AllCoherent v)
    (hfree : s.vmPageLookup v o i = none) :
    (s.msucc o (v.lookupLe (s.object o).rtree i)).all (fun q => i < (s.page q).pindex) = true := by
  have hc := hs o
  rw [Option.all_eq_true]
  intro q hq
  refine decide_eq_true (UInt64.lt_iff_toNat_lt.mpr ?_)
  cases hle : v.lookupLe (s.object o).rtree i with
  | none =>
    rw [hle] at hq
    exact hc.lookupLe_none hv hle q (List.mem_of_mem_head? hq)
  | some p =>
    rw [hle] at hq
    obtain ⟨hp, -, hgap⟩ := hc.lookupLe_lt hv hfree hle
    obtain ⟨hmem, hlt, -⟩ := (hc.ordered.next_iff hp).mp hq
    exact hgap q hmem hlt

/-- An exclusive busy is given up, and nothing else changes. -/
theorem unbusy_page [DecidableEq P] (s : Residency R P O) (m : P) :
    ∃ s₁, (if vmPageXbusied (s.page m).busyLock then s.vmPageXunbusyMaybelocked m else some s) =
        some s₁ ∧ s₁.object = s.object ∧ (∀ q, q ≠ m → s₁.page q = s.page q) ∧
      ∃ b, s₁.page m = { s.page m with busyLock := b } := by
  by_cases hx : vmPageXbusied (s.page m).busyLock = true
  · refine ⟨s.setPage m { s.page m with busyLock := vpbUnbusied }, ?_, rfl,
      fun q hq => setPage_page_of_ne s m _ hq, vpbUnbusied, setPage_page ..⟩
    rw [if_pos hx]
    exact if_pos hx
  · exact ⟨s, if_neg hx, rfl, fun _ _ => rfl, (s.page m).busyLock, rfl⟩

theorem start_coherent (hv : v.Lawful) (page : P → ResidentPage O) (vnode : O → Bool) :
    (start v page vnode).AllCoherent v := by
  intro o
  refine ⟨.nil, fun m => ?_, fun i m => ?_, rfl, ?_⟩
  · exact iff_of_false (by simp [start]) (by simp [start])
  · refine iff_of_false (fun h => ?_) (by simp [start])
    rw [show (start v page vnode).object o = ⟨v.empty, [], 0, vnode o, 0, 0⟩ from rfl,
      hv.lookup_empty] at h
    cases h
  · exact (if_neg (by simp [start])).symm

variable [DecidableEq O]

theorem AllCoherent.predOk (hv : v.Lawful) (hs : s.AllCoherent v)
    (hfree : s.vmPageLookup v o i = none) :
    s.predOk o i (v.lookupLe (s.object o).rtree i) = true := by
  cases hle : v.lookupLe (s.object o).rtree i with
  | none => rfl
  | some q =>
    obtain ⟨hq, hlt, -⟩ := (hs o).lookupLe_lt hv hfree hle
    exact decide_eq_true ⟨((hs o).mem_iff q).mp hq, UInt64.lt_iff_toNat_lt.mpr hlt⟩

/-- One object changes by one page, which was not in another object. -/
theorem AllCoherent.of_object (hs : s.AllCoherent v) (ho : Coherent v s'.page o (s'.object o))
    (hobjects : ∀ o', o' ≠ o → s'.object o' = s.object o')
    (hpages : ∀ o', o' ≠ o → ∀ q, (s'.page q).object = some o' ↔ (s.page q).object = some o')
    (hpindex : ∀ q, (s'.page q).pindex = (s.page q).pindex ∨ ∀ o', o' ≠ o →
      (s.page q).object ≠ some o') : s'.AllCoherent v := by
  intro o'
  by_cases hoo : o' = o
  · subst o'
    exact ho
  · rw [hobjects o' hoo]
    exact (hs o').other (hpages o' hoo) fun q hq => (hpindex q).resolve_right fun h => h o' hoo hq

variable [DecidableEq P]

/-- The operation fails or not as the C function would, with no failed assertion, and does to the
map what it should. -/
def Follows (v : VmRadix R Mem P) (writeMapped : P → Bool) (s : Residency R P O)
    (op : ResidentOp Mem P O) : Prop :=
  ∃ s' failed, s.step v writeMapped op = some (s', failed) ∧ s'.AllCoherent v ∧
    s'.map v = (s.map v).apply op failed

theorem insertRadixdone_eq {mpred : Option P} (hm : (s.page m).object = some o)
    (hpred : s.predOk o (s.page m).pindex mpred = true) :
    s.vmPageInsertRadixdone writeMapped m o mpred = some (s.setObject o { s.object o with
      memq := Coherent.linked (s.object o) m mpred
      residentPageCount := (s.object o).residentPageCount + 1
      held := if (s.object o).residentPageCount + 1 = 1 ∧ (s.object o).vnode then
        (s.object o).held + 1 else (s.object o).held
      writeableDirty := if writeMapped m then (s.object o).writeableDirty + 1
        else (s.object o).writeableDirty }) := by
  cases mpred <;> exact if_pos ⟨hm, hpred⟩

/-- The end of an insertion whose tree has been updated already. -/
theorem insertRadixdone_put (writeMapped : P → Bool) {page : P → ResidentPage O}
    {x : ResidentObject R P} {mem : Mem} {rtree : R} (hv : v.Lawful) (hc : Coherent v page o x)
    (hm : (page m).object ≠ some o)
    (hfree : v.lookup x.rtree i = none) (hins : v.insert mem x.rtree i m = some rtree)
    (hx : s.object o = { x with rtree := rtree }) (hobject : (s.page m).object = some o)
    (hpindex : (s.page m).pindex = i)
    (hothers : ∀ q, q ≠ m → (s.page q).object = (page q).object ∧
      (s.page q).pindex = (page q).pindex) :
    ∃ s', s.vmPageInsertRadixdone writeMapped m o (v.lookupLe x.rtree i) = some s' ∧
      s'.page = s.page ∧ Coherent v s'.page o (s'.object o) ∧
      ∀ o', o' ≠ o → s'.object o' = s.object o' := by
  have hpred : s.predOk o (s.page m).pindex (v.lookupLe x.rtree i) = true := by
    cases hle : v.lookupLe x.rtree i with
    | none => rfl
    | some q =>
      obtain ⟨hq, hlt, -⟩ := hc.lookupLe_lt hv hfree hle
      have hqo := (hc.mem_iff q).mp hq
      have hqm : q ≠ m := fun h => hm (h ▸ hqo)
      refine decide_eq_true ⟨?_, ?_⟩
      · rw [(hothers q hqm).1, hqo]
      · rw [(hothers q hqm).2, hpindex]
        exact UInt64.lt_iff_toNat_lt.mpr hlt
  refine ⟨_, insertRadixdone_eq hobject hpred, rfl, ?_, fun o' ho' => setObject_object_of_ne _ _ _ ho'⟩
  rw [setObject_object, hx]
  have hput := hc.put (if writeMapped m then x.writeableDirty + 1 else x.writeableDirty)
    hv hm hfree hins hobject hpindex hothers
  cases hle : v.lookupLe x.rtree i <;> rw [hle] at hput <;> exact hput

theorem AllCoherent.insert_follows {mem : Mem} (hv : v.Lawful) (hs : s.AllCoherent v)
    (hm : (s.page m).object = none) (hfree : s.vmPageLookup v o i = none) :
    s.Follows v writeMapped (.insert mem m o i) := by
  have hpred := hs.predOk hv hfree
  have hne : ∀ o', (s.page m).object ≠ some o' := by simp [hm]
  have hgate : (s.page m).object = none ∧
      s.predOk o i (v.lookupLe (s.object o).rtree i) = true ∧
      (s.msucc o (v.lookupLe (s.object o).rtree i)).all (fun q => i < (s.page q).pindex) = true :=
    ⟨hm, hpred, hs.msucc hv hfree⟩
  let s₁ := s.setPage m { s.page m with object := some o, pindex := i }
  have hothers : ∀ q, q ≠ m → (s₁.page q).object = (s.page q).object ∧
      (s₁.page q).pindex = (s.page q).pindex := by
    intro q hq
    rw [setPage_page_of_ne s m _ hq]
    exact ⟨rfl, rfl⟩
  cases hins : v.insert mem (s.object o).rtree i m with
  | none =>
    let s' := s₁.setPage m { s₁.page m with object := none, pindex := 0 }
    have hstep : s.step v writeMapped (.insert mem m o i) = some (s', true) := by
      change vmPageInsertAfter v writeMapped mem s m o i _ = _
      unfold vmPageInsertAfter
      rw [if_pos hgate]
      simp only [setPage_object, hins]
      rfl
    have hobject : ∀ q, (s'.page q).object = (s.page q).object := by
      intro q
      by_cases hq : q = m
      · subst q
        rw [setPage_page, hm]
      · rw [setPage_page_of_ne _ m _ hq, (hothers q hq).1]
    have hpindex : ∀ q, (s.page q).object ≠ none → (s'.page q).pindex = (s.page q).pindex := by
      intro q hq
      have hqm : q ≠ m := fun h => hq (h ▸ hm)
      rw [setPage_page_of_ne _ m _ hqm, (hothers q hqm).2]
    have hs' : s'.AllCoherent v := by
      intro o'
      exact (hs o').other (fun q => by rw [hobject]) fun q hq => hpindex q (by simp [hq])
    exact ⟨s', true, hstep, hs', hs'.places.unique (hs.places.congr hobject hpindex)⟩
  | some rtree =>
    let s₂ := s₁.setObject o { s₁.object o with rtree := rtree }
    have hplaced : s₁.page m = { s.page m with object := some o, pindex := i } := setPage_page ..
    obtain ⟨s', hdone, hpage, hco, hobjects⟩ := insertRadixdone_put (s := s₂)
      writeMapped hv (hs o) (hne o) hfree hins (setObject_object ..)
      (by rw [setObject_page, hplaced]) (by rw [setObject_page, hplaced]) hothers
    have hstep : s.step v writeMapped (.insert mem m o i) = some (s', false) := by
      change vmPageInsertAfter v writeMapped mem s m o i _ = _
      unfold vmPageInsertAfter
      rw [if_pos hgate]
      simp only [setPage_object, hins]
      exact congrArg (Option.map (·, false)) hdone
    have hs' : s'.AllCoherent v := by
      refine hs.of_object hco (fun o' ho' => ?_) (fun o' ho' q => ?_) fun q => ?_
      · rw [hobjects o' ho']
        exact setObject_object_of_ne _ _ _ ho'
      · rw [hpage]
        by_cases hq : q = m
        · subst q
          rw [setObject_page, hplaced, hm]
          simp [Ne.symm ho']
        · rw [setObject_page, (hothers q hq).1]
      · by_cases hq : q = m
        · exact .inr fun o' _ => hq ▸ hne o'
        · exact .inl (by rw [hpage]; exact (hothers q hq).2)
    refine ⟨s', false, hstep, hs', hs'.places.unique ?_⟩
    rw [hpage]
    exact hs.places.put hm hfree (by rw [setObject_page, hplaced]) (by rw [setObject_page, hplaced])
      hothers

/-- Of the objects only the page's own has to be in order. -/
theorem remove_take (hv : v.Lawful) (hc : Coherent v s.page o (s.object o))
    (hm : (s.page m).object = some o) :
    ∃ s', s.vmPageRemove v m = some s' ∧
      (∃ b, s'.page m = { s.page m with object := none, busyLock := b }) ∧
      (∀ q, q ≠ m → s'.page q = s.page q) ∧ Coherent v s'.page o (s'.object o) ∧
      ∀ o', o' ≠ o → s'.object o' = s.object o' := by
  obtain ⟨s₁, hunbusy, hobjects, hpages, b, hpage⟩ := unbusy_page s m
  have hrem : (v.remove (s.object o).rtree (s.page m).pindex).2 = some m := by
    rw [hv.remove_page]
    exact (hc.lookup_iff _ m).mpr ⟨hm, rfl⟩
  let x := s.object o
  let s₂ := s₁.setObject o { x with
    rtree := (v.remove x.rtree (s.page m).pindex).1
    memq := x.memq.erase m
    residentPageCount := x.residentPageCount - 1
    held := if x.residentPageCount - 1 = 0 ∧ x.vnode then x.held - 1 else x.held }
  let s' := s₂.setPage m { s₂.page m with object := none }
  have hmine : s'.page m = { s.page m with object := none, busyLock := b } := by
    rw [setPage_page, setObject_page, hpage]
  have hothers : ∀ q, q ≠ m → s'.page q = s.page q := by
    intro q hq
    rw [setPage_page_of_ne _ m _ hq, setObject_page, hpages q hq]
  refine ⟨s', ?_, ⟨b, hmine⟩, hothers, ?_, fun o' ho' => ?_⟩
  · unfold vmPageRemove
    rw [hm]
    simp only [hunbusy, Option.bind_some, hobjects, hpage, hrem, ne_eq, not_true_eq_false, ↓reduceIte]
    rfl
  · rw [setPage_object, setObject_object]
    refine hc.take hv hm (by simp [hmine]) fun q hq => ?_
    rw [hothers q hq]
    exact ⟨rfl, rfl⟩
  · rw [setPage_object, setObject_object_of_ne _ _ _ ho', hobjects]

theorem AllCoherent.remove_follows {Mem : Type} {v : VmRadix R Mem P} (hv : v.Lawful)
    (hs : s.AllCoherent v) : s.Follows v writeMapped (.remove m) := by
  cases hm : (s.page m).object with
  | none =>
    refine ⟨s, false, ?_, hs, ?_⟩
    · change (s.vmPageRemove v m).map _ = _
      unfold vmPageRemove
      rw [hm]
      rfl
    · exact hs.places.unique (hs.places.take hm fun _ _ => ⟨rfl, rfl⟩)
  | some o =>
    obtain ⟨s', hrem, ⟨b, hmine⟩, hothers, hco, hobjects⟩ := remove_take hv (hs o) hm
    have hs' : s'.AllCoherent v := by
      refine hs.of_object hco hobjects (fun o' ho' q => ?_) fun q => ?_
      · by_cases hq : q = m
        · subst q
          rw [hmine, hm]
          simp [Ne.symm ho']
        · rw [hothers q hq]
      · by_cases hq : q = m
        · subst q
          exact .inl (by rw [hmine])
        · exact .inl (by rw [hothers q hq])
    refine ⟨s', false, congrArg (Option.map (·, false)) hrem, hs', hs'.places.unique ?_⟩
    refine hs.places.take (by rw [hmine]) fun q hq => ?_
    rw [hothers q hq]
    exact ⟨rfl, rfl⟩

theorem AllCoherent.replace_follows {Mem : Type} {v : VmRadix R Mem P} {mold : P} (hv : v.Lawful)
    (hs : s.AllCoherent v) (hm : (s.page m).object = none) (hqueue : (s.page m).queue = pqNone)
    (hmold : s.vmPageLookup v o i = some mold) (holdqueue : (s.page mold).queue = pqNone)
    (hxbusied : vmPageXbusied (s.page mold).busyLock = true) :
    s.Follows v writeMapped (.replace m o i) := by
  obtain ⟨rtree, hrep, hlook⟩ := hv.replace_page _ i m mold hmold
  obtain ⟨hold, hi⟩ := ((hs o).lookup_iff i mold).mp hmold
  have hne : m ≠ mold := by
    rintro rfl
    rw [hm] at hold
    cases hold
  let s₁ := s.setPage m { s.page m with object := some o, pindex := i }
  let x := s.object o
  let s₂ := s₁.setObject o { x with
    rtree := rtree
    memq := (TailQueue.insertAfter x.memq mold m).erase mold }
  let s₃ := s₂.setPage mold { s₂.page mold with object := none }
  let s₄ := s₃.setPage mold { s₃.page mold with busyLock := vpbUnbusied }
  let s' := s₄.setObject o { s₄.object o with
    writeableDirty := if writeMapped m then (s₄.object o).writeableDirty + 1
      else (s₄.object o).writeableDirty }
  have hold₁ : s₁.page mold = s.page mold := setPage_page_of_ne s m _ (Ne.symm hne)
  have hnew : s'.page m = { s.page m with object := some o, pindex := i } := by
    rw [setObject_page, setPage_page_of_ne _ mold _ hne, setPage_page_of_ne _ mold _ hne]
    exact setPage_page ..
  have hgone : s'.page mold = { s.page mold with object := none, busyLock := vpbUnbusied } := by
    rw [setObject_page, setPage_page, setPage_page, setObject_page, hold₁]
  have hothers : ∀ q, q ≠ m → q ≠ mold → s'.page q = s.page q := by
    intro q hq hqo
    rw [setObject_page, setPage_page_of_ne _ mold _ hqo, setPage_page_of_ne _ mold _ hqo,
      setObject_page, setPage_page_of_ne _ m _ hq]
  have hobj : s'.object o = { x with
      rtree := rtree
      memq := (TailQueue.insertAfter x.memq mold m).erase mold
      writeableDirty := if writeMapped m then x.writeableDirty + 1 else x.writeableDirty } := by
    rw [setObject_object, setPage_object, setPage_object, setObject_object]
  have hstep : s.step v writeMapped (.replace m o i) = some (s', false) := by
    have hqueue' : (s₁.page mold).queue = pqNone := by rw [hold₁, holdqueue]
    have hxbusied' : vmPageXbusied (s₃.page mold).busyLock = true := by
      rw [setPage_page, setObject_page, hold₁, hxbusied]
    have hunbusy : s₃.vmPageXunbusyMaybelocked mold = some s₄ := if_pos hxbusied'
    have hreplace : s.vmPageReplace v writeMapped m o i = some (s', mold) := by
      unfold vmPageReplace
      rw [if_pos ⟨hm, hqueue⟩]
      change ((v.replace (s.object o).rtree i m).bind _) = _
      rw [hrep, Option.bind_some]
      change (if (s₁.page mold).queue = pqNone then _ else none) = _
      rw [if_pos hqueue']
      change (s₃.vmPageXunbusyMaybelocked mold).map _ = _
      rw [hunbusy]
      rfl
    exact congrArg (Option.map fun r => (r.1, false)) hreplace
  have hs' : s'.AllCoherent v := by
    refine hs.of_object (o := o) ?_ (fun o' ho' => ?_) (fun o' ho' q => ?_) fun q => ?_
    · rw [hobj]
      refine (hs o).swap _ (by simp [hm]) hmold hlook ?_ ?_ ?_ fun q hq hqo => ?_
      · rw [hnew]
      · rw [hnew]
      · simp [hgone]
      · rw [hothers q hq hqo]
        exact ⟨rfl, rfl⟩
    · rw [setObject_object_of_ne _ _ _ ho', setPage_object, setPage_object,
        setObject_object_of_ne _ _ _ ho', setPage_object]
    · by_cases hq : q = m
      · subst q
        simp [hnew, hm, Ne.symm ho']
      · by_cases hqo : q = mold
        · subst q
          simp [hgone, hold, Ne.symm ho']
        · rw [hothers q hq hqo]
    · by_cases hq : q = m
      · subst q
        exact .inr fun o' _ => by simp [hm]
      · by_cases hqo : q = mold
        · subst q
          exact .inl (by rw [hgone])
        · exact .inl (by rw [hothers q hq hqo])
  refine ⟨s', false, hstep, hs', hs'.places.unique ?_⟩
  refine hs.places.swap hm hmold ?_ ?_ ?_ fun q hq hqo => ?_
  · rw [hnew]
  · rw [hnew]
  · rw [hgone]
  · rw [hothers q hq hqo]
    exact ⟨rfl, rfl⟩

/-- The page lies in both trees while it is taken out of its old object. -/
theorem AllCoherent.rename_follows {mem : Mem} {o₀ : O} (hv : v.Lawful) (hs : s.AllCoherent v)
    (hm : (s.page m).object = some o₀) (hne : o₀ ≠ o) (hfree : s.vmPageLookup v o i = none)
    (hvalid : (s.page m).valid = vmPageBitsAll) :
    s.Follows v writeMapped (.rename mem m o i) := by
  have hmo : (s.page m).object ≠ some o := by
    rw [hm]
    simpa using hne
  have hgate : (v.lookupLe (s.object o).rtree i).all (fun q => (s.page q).pindex ≠ i) = true := by
    rw [Option.all_eq_true]
    intro q hq
    obtain ⟨-, hlt, -⟩ := (hs o).lookupLe_lt hv hfree hq
    refine decide_eq_true fun he => ?_
    rw [he] at hlt
    exact Nat.lt_irrefl _ hlt
  let s₁ := s.setPage m { s.page m with pindex := i }
  cases hins : v.insert mem (s.object o).rtree i m with
  | none =>
    let s' := s₁.setPage m { s₁.page m with pindex := (s.page m).pindex }
    have hstep : s.step v writeMapped (.rename mem m o i) = some (s', true) := by
      change vmPageRename v writeMapped mem s m o i = _
      unfold vmPageRename
      rw [if_pos hgate]
      simp only [setPage_object, hins]
      rfl
    have hpages : ∀ q, s'.page q = s.page q := by
      intro q
      by_cases hq : q = m
      · subst q
        rw [setPage_page, setPage_page]
      · rw [setPage_page_of_ne _ m _ hq, setPage_page_of_ne _ m _ hq]
    have hs' : s'.AllCoherent v := by
      intro o'
      exact (hs o').other (fun q => by rw [hpages]) fun q _ => by rw [hpages]
    refine ⟨s', true, hstep, hs', hs'.places.unique (hs.places.congr (fun q => ?_) fun q _ => ?_)⟩
    · rw [hpages]
    · rw [hpages]
  | some rtree =>
    let s₂ := (s₁.setObject o { s₁.object o with rtree := rtree })
    let s₃ := s₂.setPage m { s₂.page m with pindex := (s.page m).pindex }
    have hpages₃ : ∀ q, s₃.page q = s.page q := by
      intro q
      by_cases hq : q = m
      · subst q
        rw [setPage_page, setObject_page, setPage_page]
      · rw [setPage_page_of_ne _ m _ hq, setObject_page, setPage_page_of_ne _ m _ hq]
    have hobjects₃ : ∀ o', o' ≠ o → s₃.object o' = s.object o' :=
      fun o' ho' => setObject_object_of_ne _ _ _ ho'
    have hobject₃ : s₃.object o = { s.object o with rtree := rtree } := setObject_object ..
    have hc₃ : Coherent v s₃.page o₀ (s₃.object o₀) := by
      rw [hobjects₃ o₀ hne]
      exact (hs o₀).other (fun q => by rw [hpages₃]) fun q _ => by rw [hpages₃]
    obtain ⟨s₄, hrem, ⟨b, hmine⟩, hothers₄, hc₄, hobjects₄⟩ :=
      remove_take hv hc₃ (by rw [hpages₃, hm])
    rw [hpages₃] at hmine
    let s₅ := s₄.setPage m { s₄.page m with pindex := i, object := some o }
    have hpage₅ : s₅.page m = { s.page m with pindex := i, object := some o, busyLock := b } := by
      rw [setPage_page, hmine]
    have hothers₅ : ∀ q, q ≠ m → s₅.page q = s.page q := by
      intro q hq
      rw [setPage_page_of_ne _ m _ hq, hothers₄ q hq, hpages₃]
    have hobject₅ : s₅.object o = { s.object o with rtree := rtree } := by
      rw [setPage_object, hobjects₄ o (Ne.symm hne), hobject₃]
    obtain ⟨s₆, hdone, hpage₆, hc₆, hobjects₆⟩ := insertRadixdone_put (s := s₅) writeMapped hv
      (hs o) hmo hfree hins hobject₅ (by rw [hpage₅]) (by rw [hpage₅]) fun q hq => by
        rw [hothers₅ q hq]
        exact ⟨rfl, rfl⟩
    let s' := s₆.setPage m { s₆.page m with dirty := vmPageBitsAll }
    have hmine' : s'.page m = { s.page m with
        pindex := i, object := some o, busyLock := b, dirty := vmPageBitsAll } := by
      rw [setPage_page, hpage₆, hpage₅]
    have hothers' : ∀ q, q ≠ m → s'.page q = s.page q := by
      intro q hq
      rw [setPage_page_of_ne _ m _ hq, hpage₆, hothers₅ q hq]
    have hstep : s.step v writeMapped (.rename mem m o i) = some (s', false) := by
      have hdirty : s₆.vmPageDirtyKBI m = some s' := by
        refine if_pos ?_
        rw [hpage₆, hpage₅, hvalid]
      change vmPageRename v writeMapped mem s m o i = _
      unfold vmPageRename
      rw [if_pos hgate]
      simp only [setPage_object, hins]
      change (vmPageRemove v s₃ m).bind _ = _
      rw [hrem, Option.bind_some]
      change (vmPageInsertRadixdone writeMapped s₅ m o (v.lookupLe (s.object o).rtree i)).bind _ = _
      rw [hdone, Option.bind_some, hdirty]
      rfl
    have hs' : s'.AllCoherent v := by
      intro o'
      by_cases hoo : o' = o
      · subst o'
        rw [setPage_object]
        refine hc₆.other (fun q => ?_) fun q _ => ?_
        · by_cases hq : q = m
          · subst q
            rw [setPage_page]
          · rw [setPage_page_of_ne _ m _ hq]
        · by_cases hq : q = m
          · subst q
            rw [setPage_page]
          · rw [setPage_page_of_ne _ m _ hq]
      · have hout : ∀ q, (s'.page q).object = some o' ↔ (s₄.page q).object = some o' := by
          intro q
          by_cases hq : q = m
          · subst q
            rw [hmine', hmine]
            simp [Ne.symm hoo]
          · rw [hothers' q hq, hothers₄ q hq, hpages₃]
        have hindex : ∀ q, (s₄.page q).object = some o' → (s'.page q).pindex = (s₄.page q).pindex := by
          intro q hqo
          have hq : q ≠ m := by
            rintro rfl
            rw [hmine] at hqo
            cases hqo
          rw [hothers' q hq, hothers₄ q hq, hpages₃]
        rw [setPage_object, hobjects₆ o' hoo, setPage_object]
        refine Coherent.other ?_ hout hindex
        by_cases hoo₀ : o' = o₀
        · subst o'
          exact hc₄
        · rw [hobjects₄ o' hoo₀, hobjects₃ o' hoo]
          refine (hs o').other (fun q => ?_) fun q hqo => ?_
          · by_cases hq : q = m
            · subst q
              rw [hmine, hm]
              simp [Ne.symm hoo₀]
            · rw [hothers₄ q hq, hpages₃]
          · have hq : q ≠ m := by
              rintro rfl
              rw [hm] at hqo
              exact hoo₀ (Option.some.inj hqo).symm
            rw [hothers₄ q hq, hpages₃]
    refine ⟨s', false, hstep, hs', hs'.places.unique ?_⟩
    have htaken : Places ((s.map v).take m) s₄.page := by
      refine hs.places.take (by rw [hmine]) fun q hq => ?_
      rw [hothers₄ q hq, hpages₃]
      exact ⟨rfl, rfl⟩
    have hfree' : (s.map v).take m o i = none := by
      change (if s.vmPageLookup v o i = some m then none else s.vmPageLookup v o i) = none
      rw [hfree]
      rfl
    refine htaken.put (by rw [hmine]) hfree' (by rw [hmine']) (by rw [hmine']) fun q hq => ?_
    rw [hothers' q hq, hothers₄ q hq, hpages₃]
    exact ⟨rfl, rfl⟩

theorem AllCoherent.follows {op : ResidentOp Mem P O} (hv : v.Lawful) (hs : s.AllCoherent v)
    (hop : s.Asked v op) : s.Follows v writeMapped op := by
  cases op with
  | insert mem m o i => exact hs.insert_follows hv hop.1 hop.2
  | remove m => exact hs.remove_follows hv
  | rename mem m o i =>
    obtain ⟨hm, hne, hfree, hvalid⟩ := hop
    obtain ⟨o₀, ho₀⟩ := Option.ne_none_iff_exists'.mp hm
    refine hs.rename_follows hv ho₀ ?_ hfree hvalid
    rintro rfl
    exact hne ho₀
  | replace m o i =>
    obtain ⟨hm, hqueue, hany⟩ := hop
    obtain ⟨mold, hmold, hold⟩ := (Option.any_eq_true _ _).mp hany
    obtain ⟨holdqueue, hx⟩ := of_decide_eq_true hold
    exact hs.replace_follows hv hm hqueue hmold holdqueue hx
  | outside m p =>
    let s' := s.setPage m { p with object := (s.page m).object, pindex := (s.page m).pindex }
    have hpages : ∀ q, (s'.page q).object = (s.page q).object ∧
        (s'.page q).pindex = (s.page q).pindex := by
      intro q
      by_cases hq : q = m
      · subst q
        rw [setPage_page]
        exact ⟨rfl, rfl⟩
      · rw [setPage_page_of_ne _ m _ hq]
        exact ⟨rfl, rfl⟩
    have hs' : s'.AllCoherent v := fun o =>
      (hs o).other (fun q => by rw [(hpages q).1]) fun q _ => (hpages q).2
    exact ⟨s', false, rfl, hs', hs'.places.unique
      (hs.places.congr (fun q => (hpages q).1) fun q _ => (hpages q).2)⟩

/-- What the operations and their answers, the newest first, make of the empty map. -/
def replayed (h : List (ResidentOp Mem P O × Bool)) : ResidentMap P O :=
  h.foldr (fun e t => t.apply e.1 e.2) fun _ _ => none

theorem Run.coherent {page : P → ResidentPage O} {vnode : O → Bool}
    {h : List (ResidentOp Mem P O × Bool)} (hv : v.Lawful)
    (hr : Run v writeMapped page vnode h s) : s.AllCoherent v ∧ s.map v = replayed h := by
  refine GuardedRun.invariant (P := fun h s => AllCoherent v s ∧ s.map v = replayed h) ?_ ?_ hr
  · refine ⟨start_coherent hv page vnode, funext fun o => funext fun i => ?_⟩
    exact hv.lookup_empty i
  · intro h s op s' failed _ ⟨hs, hmap⟩ hop hstep
    have hfollows : s.Follows v writeMapped op := hs.follows hv hop
    obtain ⟨s₁, failed₁, hstep₁, hs₁, hmap₁⟩ := hfollows
    rw [hstep, Option.some.injEq, Prod.mk.injEq] at hstep₁
    obtain ⟨rfl, rfl⟩ := hstep₁
    refine ⟨hs₁, ?_⟩
    rw [hmap₁, hmap]
    rfl

end Residency

end FreeBSDEdits
