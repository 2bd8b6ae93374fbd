import PointerAnalysis.Facts

/-!
Points-to facts by membership: what each operation adds to or takes from the points-to sets and the
records of what was sent and dealt with.
-/

namespace PointerAnalysis

namespace Facts

variable (f : Facts)

/-! ## Adding -/

theorem absorb_of_subset {f : Facts} {n : NodeId} {objs : IdSet} (h : objs ⊆ f.pointsTo n) :
    f.absorb n objs = (f, false) := by
  simp [absorb, h]

theorem absorb_of_not_subset {f : Facts} {n : NodeId} {objs : IdSet} (h : ¬ objs ⊆ f.pointsTo n) :
    f.absorb n objs = ({ f with pts := f.pts.insert n (f.pointsTo n ∪ objs) }, true) := by
  simp [absorb, h]

@[simp] theorem sentBy_absorb (n m : NodeId) (objs : IdSet) :
    (f.absorb n objs).1.sentBy m = f.sentBy m := by
  by_cases h : objs ⊆ f.pointsTo n
  · rw [absorb_of_subset h]
  · rw [absorb_of_not_subset h]
    rfl

@[simp] theorem handledBy_absorb (n : NodeId) (objs : IdSet) (e : EdgeId) :
    (f.absorb n objs).1.handledBy e = f.handledBy e := by
  by_cases h : objs ⊆ f.pointsTo n
  · rw [absorb_of_subset h]
  · rw [absorb_of_not_subset h]
    rfl

theorem mem_pointsTo_absorb (n m : NodeId) (objs : IdSet) (o : NodeId) :
    o ∈ (f.absorb n objs).1.pointsTo m ↔ o ∈ f.pointsTo m ∨ m = n ∧ o ∈ objs := by
  by_cases h : objs ⊆ f.pointsTo n
  · rw [absorb_of_subset h]
    constructor
    · exact .inl
    · rintro (ho | ⟨rfl, ho⟩)
      · exact ho
      · exact IdSet.subset_def.mp h o ho
  · rw [absorb_of_not_subset h]
    by_cases hm : m = n
    · subst hm
      simp [pointsTo]
    · have hn : ¬ n = m := fun he => hm he.symm
      simp [pointsTo, Std.TreeMap.getD_insert, hm, hn]

/-! ## Merging -/

theorem mem_pointsTo_merge {rep sub : NodeId} (hne : sub ≠ rep) (m o : NodeId) :
    o ∈ (f.merge rep sub).1.pointsTo m ↔
      m ≠ sub ∧ (o ∈ f.pointsTo m ∨ m = rep ∧ o ∈ f.pointsTo sub) := by
  rw [merge, mem_pointsTo_absorb]
  by_cases hm : m = sub
  · subst hm
    simp [pointsTo, hne]
  · have hn : ¬ sub = m := fun he => hm he.symm
    simp [pointsTo, Std.TreeMap.getD_erase, hm, hn]

theorem mem_sentBy_merge (rep sub m o : NodeId) :
    o ∈ (f.merge rep sub).1.sentBy m ↔ m ≠ sub ∧ o ∈ f.sentBy m := by
  rw [merge, sentBy_absorb]
  by_cases hm : m = sub
  · subst hm
    simp [sentBy]
  · have hn : ¬ sub = m := fun he => hm he.symm
    simp [sentBy, Std.TreeMap.getD_erase, hm, hn]

@[simp] theorem handledBy_merge (rep sub : NodeId) (e : EdgeId) :
    (f.merge rep sub).1.handledBy e = f.handledBy e := by
  rw [merge, handledBy_absorb]
  rfl

@[simp] theorem pointsTo_restrictSent (rep sub m : NodeId) :
    (f.restrictSent rep sub).pointsTo m = f.pointsTo m := rfl

@[simp] theorem handledBy_restrictSent (rep sub : NodeId) (e : EdgeId) :
    (f.restrictSent rep sub).handledBy e = f.handledBy e := rfl

theorem mem_sentBy_restrictSent (rep sub m o : NodeId) :
    o ∈ (f.restrictSent rep sub).sentBy m ↔ o ∈ f.sentBy m ∧ (m = rep → o ∈ f.sentBy sub) := by
  unfold restrictSent sentBy
  rw [Std.TreeMap.getD_modify]
  by_cases hm : m = rep
  · subst hm
    rw [Std.TreeMap.getD_eq_getD_getElem? (a := m)]
    cases f.sent[m]? <;> simp
  · have hn : ¬ rep = m := fun he => hm he.symm
    simp [hm, hn]

/-! ## Entries -/

theorem pointsTo_congr {f f' : Facts} (h : f'.pts = f.pts) (n : NodeId) :
    f'.pointsTo n = f.pointsTo n := by
  rw [pointsTo, h, pointsTo]

/-- Only nodes that point to something have an entry. -/
def Filled : Prop := ∀ n ∈ f.pts, ∃ o, o ∈ f.pointsTo n

theorem Filled.absorb {f : Facts} (h : f.Filled) (n : NodeId) (objs : IdSet) :
    (f.absorb n objs).1.Filled := by
  by_cases hsub : objs ⊆ f.pointsTo n
  · rw [absorb_of_subset hsub]
    exact h
  · intro m hm
    rw [absorb_of_not_subset hsub] at hm
    rcases Std.TreeMap.mem_insert.mp hm with heq | hm
    · obtain rfl := Std.LawfulEqCmp.compare_eq_iff_eq.mp heq
      rw [IdSet.subset_def] at hsub
      obtain ⟨o, ho⟩ := Classical.not_forall.mp hsub
      have ho : o ∈ objs := (Classical.not_imp.mp ho).1
      exact ⟨o, (mem_pointsTo_absorb f n n objs o).mpr (.inr ⟨rfl, ho⟩)⟩
    · obtain ⟨o, ho⟩ := h m hm
      exact ⟨o, (mem_pointsTo_absorb f n m objs o).mpr (.inl ho)⟩

theorem Filled.merge {f : Facts} (h : f.Filled) (rep sub : NodeId) :
    (f.merge rep sub).1.Filled := by
  refine Filled.absorb (fun n hn => ?_) rep _
  obtain ⟨hne, hn⟩ := Std.TreeMap.mem_erase.mp hn
  obtain ⟨o, ho⟩ := h n hn
  refine ⟨o, ?_⟩
  rw [pointsTo, Std.TreeMap.getD_erase, if_neg hne]
  exact ho

/-! ## Records -/

@[simp] theorem pts_send (n : NodeId) : (f.send n).1.pts = f.pts := rfl

@[simp] theorem pointsTo_send (n m : NodeId) : (f.send n).1.pointsTo m = f.pointsTo m := rfl

@[simp] theorem handledBy_send (n : NodeId) (e : EdgeId) :
    (f.send n).1.handledBy e = f.handledBy e := rfl

theorem sentBy_send (n m : NodeId) :
    (f.send n).1.sentBy m = if m = n then f.pointsTo n else f.sentBy m := by
  by_cases hm : m = n
  · subst hm
    simp [send, sentBy]
  · have hn : ¬ n = m := fun he => hm he.symm
    simp [send, sentBy, Std.TreeMap.getD_insert, hm, hn]

@[simp] theorem gainedBy_send (n : NodeId) :
    (f.send n).1.gainedBy n = f.pointsTo n \ f.sentBy n := by
  simp [send, gainedBy]

@[simp] theorem snd_send (n : NodeId) : (f.send n).2 = !(f.pointsTo n \ f.sentBy n).isEmpty := rfl

@[simp] theorem fst_handle (e : EdgeId) (n : NodeId) :
    (f.handle e n).1 = f.pointsTo n \ f.handledBy e := rfl

@[simp] theorem pts_handle (e : EdgeId) (n : NodeId) : (f.handle e n).2.pts = f.pts := rfl

@[simp] theorem pointsTo_handle (e : EdgeId) (n m : NodeId) :
    (f.handle e n).2.pointsTo m = f.pointsTo m := rfl

@[simp] theorem sentBy_handle (e : EdgeId) (n m : NodeId) :
    (f.handle e n).2.sentBy m = f.sentBy m := rfl

theorem mem_handledBy_handle (e e' : EdgeId) (n o : NodeId) :
    o ∈ (f.handle e n).2.handledBy e' ↔ o ∈ f.handledBy e' ∨ e' = e ∧ o ∈ f.pointsTo n := by
  by_cases he : e' = e
  · subst he
    simp only [handle, handledBy, Std.TreeMap.getD_insert_self, IdSet.mem_union, IdSet.mem_sdiff]
    grind
  · have hn : ¬ e = e' := fun h => he h.symm
    simp [handle, handledBy, Std.TreeMap.getD_insert, he, hn]

/-! ## Pointers to an object -/

theorem mem_pointersTo {obj n : NodeId} : n ∈ f.pointersTo obj ↔ obj ∈ f.pointsTo n := by
  simp only [pointersTo, List.mem_map, List.mem_filter, Prod.exists, exists_and_right,
    exists_eq_right, decide_eq_true_eq]
  constructor
  · rintro ⟨set, hmem, hobj⟩
    rw [Std.TreeMap.mem_toList_iff_getElem?_eq_some] at hmem
    rwa [pointsTo, Std.TreeMap.getD_eq_getD_getElem?, hmem]
  · intro h
    rw [pointsTo, Std.TreeMap.getD_eq_getD_getElem?] at h
    cases hget : f.pts[n]? with
    | none => simp [hget] at h
    | some set =>
        rw [hget] at h
        exact ⟨set, Std.TreeMap.mem_toList_iff_getElem?_eq_some.mpr hget, h⟩

end Facts

end PointerAnalysis
