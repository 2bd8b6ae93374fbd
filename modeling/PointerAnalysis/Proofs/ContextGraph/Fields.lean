import PointerAnalysis.Proofs.ContextGraph.WellFormed

/-!
Fields of a well-formed context graph. Looking up a field always succeeds. What it returns depends
on the object only: a node that belongs to none stands for itself, an object whose fields are not
told apart has its home for every field, and any other field is the node registered under its key,
which is made if it is missing.
-/

namespace PointerAnalysis

theorem MemObject.modulus_ne_zero (m : MemObject) : m.modulus ≠ 0 := by
  unfold modulus
  split
  · decide
  · assumption

theorem Offset.units_reduce_lt (o : Offset) {size : UInt32} (h : size ≠ 0) :
    (o.reduce size).units < size := by
  simp only [reduce, if_neg h]
  exact UInt32.mod_lt _ (UInt32.pos_iff_ne_zero.mpr h)

@[simp] theorem Offset.reduce_reduce (o : Offset) (size : UInt32) :
    (o.reduce size).reduce size = o.reduce size := by
  by_cases h : size = 0
  · simp [reduce, h]
  · simp only [reduce, if_neg h]
    exact congrArg Offset.mk (UInt32.toNat_inj.mp (by simp))

@[simp] theorem Offset.add_zero (o : Offset) : o + 0 = o := by
  obtain ⟨u⟩ := o
  exact congrArg Offset.mk (UInt32.add_zero u)

@[simp] theorem Offset.zero_add (o : Offset) : 0 + o = o := by
  obtain ⟨u⟩ := o
  exact congrArg Offset.mk (UInt32.zero_add u)

/-- The sum with another offset does not wrap around. -/
def Offset.Fits (a b : Offset) : Prop := a.units.toNat + b.units.toNat < UInt32.size

theorem Offset.zero_fits (b : Offset) : Offset.Fits 0 b := by
  simp [Fits, b.units.toNat_lt_size]

theorem Offset.toNat_reduce_add {a b : Offset} {size : UInt32} (hsize : size ≠ 0)
    (hfits : a.Fits b) : ((a + b).reduce size).units.toNat =
      ((a.reduce size).units.toNat + b.units.toNat) % size.toNat := by
  have hsum : (a.units + b.units).toNat = a.units.toNat + b.units.toNat := by
    rw [UInt32.toNat_add]
    exact Nat.mod_eq_of_lt hfits
  simp only [reduce, if_neg hsize, units_add, UInt32.toNat_mod, hsum, Nat.mod_add_mod]

/-- Offsets that agree inside an object do so after the same step, unless a sum wraps around. -/
theorem Offset.reduce_add_congr {a a' b : Offset} {size : UInt32} (hsize : size ≠ 0)
    (h : a.reduce size = a'.reduce size) (hfits : a.Fits b) (hfits' : a'.Fits b) :
    (a + b).reduce size = (a' + b).reduce size := by
  have hunits : ((a + b).reduce size).units = ((a' + b).reduce size).units := by
    rw [← UInt32.toNat_inj, toNat_reduce_add hsize hfits, toNat_reduce_add hsize hfits', h]
  exact congrArg Offset.mk hunits

namespace ContextGraph

variable {C : Type} [Context C]

/-- The key under which the field at an offset from a node is registered. -/
def KeyOf (g : ContextGraph C) (n : NodeId) (offset : Offset) (key : FieldKey C) : Prop :=
  ∃ node obj, g.nodes[n]? = some node ∧ node.memObj = some key.memObj ∧
    g.memObjs[key.memObj]? = some obj ∧ key.ctx = node.ctx ∧
    key.offset = (if node.kind = .fieldObject then node.offset + offset else offset).reduce
      obj.modulus

/-- `f` stands for the field at an offset from `n`. Whatever the graph is extended to, it goes on to
do so. -/
inductive Projects (g : ContextGraph C) (n : NodeId) (offset : Offset) (f : NodeId) : Prop where
  | self (hn : ∀ mem, ¬ g.PartOf n mem) (hf : f = n)
  | whole (hn : g.WholeAt n) (hf : g.WholeAt f) (hhome : g.home f = g.home n)
  | field (key : FieldKey C) (hkey : g.KeyOf n offset key) (hf : g.fieldNodes[key]? = some f)

variable {g g' : ContextGraph C} {n f : NodeId} {mem : MemObjId} {offset : Offset}
  {key : FieldKey C}

theorem KeyOf.extends (h : Extends g g') (hk : g.KeyOf n offset key) : g'.KeyOf n offset key := by
  obtain ⟨node, obj, hnode, hmem, hobj, hctx, hoff⟩ := hk
  obtain ⟨whole, hobj', -⟩ := h.memObjs _ obj hobj
  exact ⟨node, _, h.nodes n node hnode, hmem, hobj', hctx, hoff⟩

theorem KeyOf.partOf (hk : g.KeyOf n offset key) : g.PartOf n key.memObj := by
  obtain ⟨node, -, hnode, hmem, -⟩ := hk
  exact ⟨node, hnode, hmem⟩

theorem KeyOf.unique {key' : FieldKey C} (hk : g.KeyOf n offset key) (hk' : g.KeyOf n offset key') :
    key = key' := by
  obtain ⟨node, obj, hnode, hmem, hobj, hctx, hoff⟩ := hk
  obtain ⟨node', obj', hnode', hmem', hobj', hctx', hoff'⟩ := hk'
  obtain ⟨mem, off, ctx⟩ := key
  obtain ⟨mem', off', ctx'⟩ := key'
  cases hnode.symm.trans hnode'
  cases Option.some.inj (hmem.symm.trans hmem')
  cases hobj.symm.trans hobj'
  simp only at hctx hoff hctx' hoff'
  simp [hctx, hoff, hctx', hoff']

theorem PartOf.exists_keyOf (h : g.PartOf n mem) (hlt : mem < g.memObjs.size) (offset : Offset) :
    ∃ key, g.KeyOf n offset key ∧ key.memObj = mem := by
  have hobj := Array.getElem?_eq_getElem hlt
  obtain ⟨node, hnode, hmem⟩ := h
  exact ⟨⟨mem, _, node.ctx⟩, ⟨node, _, hnode, hmem, hobj, rfl, rfl⟩, rfl⟩

theorem WellFormed.exists_keyOf (hg : g.WellFormed) (h : g.PartOf n mem) (offset : Offset) :
    ∃ key, g.KeyOf n offset key ∧ key.memObj = mem :=
  h.exists_keyOf (hg.mem_lt n mem h) offset

/-- The field registered under a key of `n` has the same home as `n`. -/
theorem WellFormed.home_of_keyOf (hg : g.WellFormed) (hk : g.KeyOf n offset key)
    (hf : g.fieldNodes[key]? = some f) :
    g.PartOf f key.memObj ∧ g.IsField f ∧ g.home f = g.home n := by
  obtain ⟨node, obj, hnode, hmem, -, hctx, -⟩ := hk
  obtain ⟨fnode, hfnode, hfkind, hfmem, hfctx, -⟩ := hg.fieldNodes key f hf
  have hn := (hg.home_spec hnode hmem).2.1
  have hfield := (hg.home_spec hfnode hfmem).2.1
  rw [hfctx, hctx, hn] at hfield
  exact ⟨⟨fnode, hfnode, hfmem⟩,
    ⟨fnode, hfnode, hfkind, by simp [hfmem]⟩, by simpa using hfield.symm⟩

theorem Projects.extends (h : Extends g g') (hg : g.WellFormed) (hg' : g'.WellFormed)
    (hn : n < g.nodes.size) (hp : g.Projects n offset f) : g'.Projects n offset f := by
  cases hp with
  | self hnone hf => exact .self (fun mem hm => hnone mem ((h.partOf_iff hn).mp hm)) hf
  | whole hwhole hfwhole hhome =>
      have hf : f < g.nodes.size := hfwhole.elim fun _ h => h.1.lt
      refine .whole (h.wholeAt hwhole) (h.wholeAt hfwhole) ?_
      rw [h.home_eq hg hg' hn, h.home_eq hg hg' hf, hhome]
  | field key hkey hf => exact .field key (hkey.extends h) (h.fieldNodes key f hf)

/-- If the object does not tell its fields apart, whatever stands for a field has the
object's home. -/
theorem Projects.home_of_wholeAt (hg : g.WellFormed) (hp : g.Projects n offset f)
    (hw : g.WholeAt n) : g.WholeAt f ∧ g.home f = g.home n := by
  obtain ⟨mem, hpart, hwhole⟩ := hw
  cases hp with
  | self hnone _ => exact absurd hpart (hnone mem)
  | whole _ hf hhome => exact ⟨hf, hhome⟩
  | field key hkey hf =>
      obtain ⟨hfpart, -, hhome⟩ := hg.home_of_keyOf hkey hf
      exact ⟨⟨mem, hkey.partOf.unique hpart ▸ hfpart, hwhole⟩, hhome⟩

theorem Projects.home_eq (hg : g.WellFormed) (hp : g.Projects n offset f) :
    g.home f = g.home n := by
  cases hp with
  | self _ hf => rw [hf]
  | whole _ _ hhome => exact hhome
  | field key hkey hf => exact (hg.home_of_keyOf hkey hf).2.2

theorem Projects.lt (hg : g.WellFormed) (hn : n < g.nodes.size) (hp : g.Projects n offset f) :
    f < g.nodes.size := by
  cases hp with
  | self _ hf => rwa [hf]
  | whole _ hf _ => exact hf.elim fun _ h => h.1.lt
  | field key hkey hf => exact (hg.home_of_keyOf hkey hf).1.lt

theorem WellFormed.projects_home (hg : g.WellFormed) (hw : g.WholeAt n) (offset : Offset) :
    g.Projects n offset (g.home n) := by
  obtain ⟨mem, hpart, hwhole⟩ := hw
  exact .whole ⟨mem, hpart, hwhole⟩ ⟨mem, hg.partOf_home hpart, hwhole⟩ (hg.home_home n)

/-- A field belongs to the object that it is a field of. -/
theorem Projects.partOf_iff (hg : g.WellFormed) (hp : g.Projects n offset f) :
    g.PartOf f mem ↔ g.PartOf n mem := by
  rw [← hg.partOf_home_iff, hp.home_eq hg, hg.partOf_home_iff]

theorem WellFormed.keyOf_zero (hg : g.WellFormed) (hf : g.fieldNodes[key]? = some f) :
    g.KeyOf f 0 key := by
  obtain ⟨node, hnode, hkind, hmem, hctx, -⟩ := hg.fieldNodes key f hf
  have hobj := Array.getElem?_eq_getElem (hg.mem_lt f _ ⟨node, hnode, hmem⟩)
  refine ⟨node, _, hnode, hmem, hobj, hctx.symm, ?_⟩
  rw [if_pos hkind, Offset.add_zero, hg.reduced key f node _ hf hnode hobj]

/-- Going on by nothing from a field does not leave it. -/
theorem Projects.trans_zero {f' : NodeId} (hg : g.WellFormed) (hp : g.Projects n offset f)
    (hp' : g.Projects f 0 f') : g.Projects n offset f' := by
  cases hp with
  | self hnone hf =>
      subst hf
      cases hp' with
      | self _ hf' => exact .self hnone hf'
      | whole hw _ _ => exact absurd hw fun ⟨mem, hpart, _⟩ => hnone mem hpart
      | field key hkey _ => exact absurd hkey.partOf (hnone _)
  | whole hn hf hhome =>
      obtain ⟨hf', hhome'⟩ := hp'.home_of_wholeAt hg hf
      exact .whole hn hf' (hhome'.trans hhome)
  | field key hkey hf =>
      obtain ⟨hpart, -, hhome⟩ := hg.home_of_keyOf hkey hf
      cases hp' with
      | self hnone _ => exact absurd hpart (hnone _)
      | whole hw hf' hhome' =>
          obtain ⟨mem, hmem, hwhole⟩ := hw
          cases hpart.unique hmem
          exact .whole ⟨_, hkey.partOf, hwhole⟩ hf' (hhome'.trans hhome)
      | field key' hkey' hf' =>
          cases hkey'.unique (hg.keyOf_zero hf)
          exact .field key hkey hf'

/-- The step from a node to another field of its object does not wrap around. -/
def StepFits (g : ContextGraph C) (n : NodeId) (offset : Offset) : Prop :=
  ∀ node : ContextNode C, g.nodes[n]? = some node → node.kind = .fieldObject →
    node.offset.Fits offset

theorem stepFits_zero (g : ContextGraph C) (n : NodeId) : g.StepFits n 0 := fun node _ _ => by
  simp [Offset.Fits, node.offset.units.toNat_lt_size]

/-- What is registered for the start of `n` has the same fields as `n`. -/
theorem WellFormed.keyOf_of_start (hg : g.WellFormed) {start : FieldKey C}
    (hstart : g.KeyOf n 0 start)
    (hf : g.fieldNodes[start]? = some f) (hn : g.StepFits n offset) (hfit : g.StepFits f offset)
    (hk : g.KeyOf n offset key) : g.KeyOf f offset key := by
  obtain ⟨node, obj, hnode, hmem, hobj, hctx, hoff⟩ := hk
  obtain ⟨node', obj', hnode', hmem', hobj', hctx', hoff'⟩ := hstart
  cases hnode.symm.trans hnode'
  have hmems := Option.some.inj (hmem'.symm.trans hmem)
  cases (hmems ▸ hobj').symm.trans hobj
  obtain ⟨fnode, hfnode, hfkind, hfmem, hfctx, -⟩ := hg.fieldNodes start f hf
  have hreduced := hg.reduced start f fnode obj hf hfnode hobj'
  refine ⟨fnode, obj, hfnode, by rw [hfmem, hmems], hobj, by rw [hfctx, hctx', hctx], ?_⟩
  have hsize := obj.modulus_ne_zero
  rw [hoff, if_pos hfkind]
  rw [hoff'] at hreduced
  split
  · rename_i hkind
    rw [if_pos hkind, Offset.add_zero] at hreduced
    exact Offset.reduce_add_congr hsize hreduced.symm (hn node hnode hkind)
      (hfit fnode hfnode hfkind)
  · rename_i hkind
    rw [if_neg hkind] at hreduced
    have hsum :=
      Offset.reduce_add_congr hsize hreduced.symm offset.zero_fits (hfit fnode hfnode hfkind)
    rwa [Offset.zero_add] at hsum

/-- What stands for the start of `n` has the same fields as `n`. -/
theorem Projects.of_start {f' : NodeId} (hg : g.WellFormed) (hp : g.Projects n 0 f)
    (hn : g.StepFits n offset) (hfit : g.StepFits f offset) (hp' : g.Projects n offset f') :
    g.Projects f offset f' := by
  by_cases hw : g.WholeAt n
  · obtain ⟨hf, hhome⟩ := hp.home_of_wholeAt hg hw
    obtain ⟨hf', hhome'⟩ := hp'.home_of_wholeAt hg hw
    exact .whole hf hf' (hhome'.trans hhome.symm)
  · cases hp with
    | self hnone hf => rwa [hf]
    | whole hwhole _ _ => exact absurd hwhole hw
    | field start hstart hf =>
        cases hp' with
        | self hnone _ => exact absurd hstart.partOf (hnone _)
        | whole hwhole _ _ => exact absurd hwhole hw
        | field key hkey hf' => exact .field key (hg.keyOf_of_start hstart hf hn hfit hkey) hf'

/-! ## Making a field -/

theorem nodes_makeField (g : ContextGraph C) (key : FieldKey C) (base : NodeId) (i : Nat) :
    (g.makeField key base).2.nodes[i]? =
      if i = g.nodes.size then some ⟨none, .fieldObject, key.ctx, some key.memObj, key.offset⟩
      else g.nodes[i]? := by
  simp only [makeField, attachField, Array.getElem?_push]

theorem fieldNodes_makeField (g : ContextGraph C) (key key' : FieldKey C) (base f : NodeId) :
    (g.makeField key base).2.fieldNodes[key']? = some f ↔
      key' = key ∧ f = g.nodes.size ∨ key' ≠ key ∧ g.fieldNodes[key']? = some f := by
  simp only [makeField, attachField, Std.TreeMap.getElem?_insert]
  by_cases h : key' = key
  · simp [h, eq_comm]
  · have h' : ¬ key = key' := fun he => h he.symm
    simp [h, h']

theorem fieldsAt_makeField (g : ContextGraph C) (key : FieldKey C) (base b : NodeId) :
    (g.makeField key base).2.fieldsAt b =
      if b = base then g.fieldsAt base ++ [g.nodes.size] else g.fieldsAt b := by
  simp only [makeField, attachField, fieldsAt, Std.TreeMap.getD_insert]
  by_cases h : b = base
  · simp [h]
  · have h' : ¬ base = b := fun he => h he.symm
    simp [h, h']

theorem extends_makeField (base : NodeId) (hnew : g.fieldNodes[key]? = none) :
    Extends g (g.makeField key base).2 where
  nodes i node hi := by
    have hlt := (Array.getElem?_eq_some_iff.mp hi).1
    rw [nodes_makeField, if_neg (Nat.ne_of_lt hlt), hi]
  size_le := by simp [makeField, attachField]
  copies := rfl
  mem_size := rfl
  memObjs _ obj h := ⟨obj.fieldInsensitive, h, id⟩
  fieldNodes key' f hf := by
    have hne : key' ≠ key := by
      rintro rfl
      simp [hnew] at hf
    exact (fieldNodes_makeField g key key' base f).mpr (.inr ⟨hne, hf⟩)
  newField key' f hf := by
    rcases (fieldNodes_makeField g key key' base f).mp hf with ⟨-, rfl⟩ | ⟨-, hf⟩
    · exact .inr (Nat.le_refl _)
    · exact .inl hf
  made i node hi := by
    rw [nodes_makeField] at hi
    split at hi
    · cases Option.some.inj hi
      exact .inr rfl
    · exact .inl (Array.getElem?_eq_some_iff.mp hi).1

/-- The new field is listed under its home, the others as before. -/
theorem mem_fieldsAt_makeField (hg : g.WellFormed) (hk : g.KeyOf n offset key) (b f : NodeId) :
    f ∈ (g.makeField key (g.home n)).2.fieldsAt b ↔
      ∃ (node : ContextNode C) (mem : MemObjId), (g.makeField key (g.home n)).2.nodes[f]? =
        some node ∧
        node.kind = .fieldObject ∧ node.memObj = some mem ∧
        g.baseIn? mem node.ctx = .ok (some b) := by
  obtain ⟨node, obj, hnode, hmem, -, hctx, -⟩ := hk
  have hbase : g.baseIn? key.memObj key.ctx = .ok (some (g.home n)) := by
    rw [hctx]
    exact (hg.home_spec hnode hmem).2.1
  rw [fieldsAt_makeField, nodes_makeField]
  by_cases hf : f = g.nodes.size
  · subst hf
    have hout : g.nodes.size ∉ g.fieldsAt b := by
      intro hin
      obtain ⟨fnode, -, hfnode, -⟩ := (hg.mem_fieldsAt b _).mp hin
      simp at hfnode
    rw [if_pos rfl]
    constructor
    · intro hin
      split at hin
      · rename_i hb
        exact ⟨_, key.memObj, rfl, rfl, rfl, hb ▸ hbase⟩
      · exact absurd hin hout
    · rintro ⟨fnode, mem, hfnode, -, hfmem, hb⟩
      cases Option.some.inj hfnode
      cases Option.some.inj hfmem
      have hb : g.home n = b := by simpa using hbase.symm.trans hb
      simp [hb]
  · rw [if_neg hf, ← hg.mem_fieldsAt]
    split
    · rename_i hb
      simp [hf, hb]
    · rfl

theorem wellFormed_makeField (hg : g.WellFormed) (hk : g.KeyOf n offset key)
    (hnew : g.fieldNodes[key]? = none) : (g.makeField key (g.home n)).2.WellFormed := by
  have hlisted := mem_fieldsAt_makeField hg hk
  obtain ⟨node, obj, hnode, hmem, hobj, hctx, hoff⟩ := hk
  have hext := extends_makeField (g.home n) hnew
  have hbaseIn : ∀ mem ctx, (g.makeField key (g.home n)).2.baseIn? mem ctx = g.baseIn? mem ctx :=
    fun _ _ => rfl
  constructor
  case id_eq => exact hg.id_eq
  case mem_fieldsAt => exact hlisted
  case special =>
    rintro i mem hspecial ⟨inode, hi, himem⟩
    rw [nodes_makeField] at hi
    split at hi
    · -- the new node has an id above that of `n`, which is not special itself
      rename_i hsize
      have hlt : n < g.nodes.size := (Array.getElem?_eq_some_iff.mp hnode).1
      have hn : ¬ isSpecial n := fun h => hg.special n _ h ⟨node, hnode, hmem⟩
      simp only [isSpecial, blackHole, constantData, Bool.or_eq_true, beq_iff_eq] at hspecial hn
      grind
    · exact hg.special i mem hspecial ⟨inode, hi, himem⟩
  case mem_lt =>
    rintro i mem ⟨inode, hi, himem⟩
    rw [nodes_makeField] at hi
    split at hi
    · cases Option.some.inj hi
      cases Option.some.inj himem
      exact (Array.getElem?_eq_some_iff.mp hobj).1
    · exact hg.mem_lt i mem ⟨inode, hi, himem⟩
  case base =>
    intro i inode mem hi himem
    simp only [hbaseIn]
    rw [nodes_makeField] at hi
    split at hi
    · cases Option.some.inj hi
      cases Option.some.inj himem
      obtain ⟨-, hb, -, base, hbnode, hbmem, hbctx, hbkind⟩ := hg.home_spec hnode hmem
      refine ⟨g.home n, base, ?_, hext.nodes _ _ hbnode, hbmem, hbctx.trans hctx.symm, hbkind, ?_⟩
      · rw [hctx, hb]
      · simp
    · obtain ⟨b, base, hb, hbnode, rest⟩ := hg.base i inode mem hi himem
      exact ⟨b, base, hb, hext.nodes _ _ hbnode, rest⟩
  case copies_base =>
    intro mem mobj b hmobj hb
    obtain ⟨bnode, hbnode, rest⟩ := hg.copies_base mem mobj b hmobj hb
    exact ⟨bnode, hext.nodes _ _ hbnode, rest⟩
  case fieldNodes =>
    intro key' f hf
    rcases (fieldNodes_makeField g key key' _ f).mp hf with ⟨rfl, rfl⟩ | ⟨-, hf⟩
    · exact ⟨_, by rw [nodes_makeField, if_pos rfl], rfl, rfl, rfl, fun _ => rfl⟩
    · obtain ⟨fnode, hfnode, rest⟩ := hg.fieldNodes key' f hf
      exact ⟨fnode, hext.nodes _ _ hfnode, rest⟩
  case made =>
    intro i inode hi hinput
    rw [nodes_makeField] at hi
    split at hi
    · rename_i hsize
      cases Option.some.inj hi
      refine ⟨key.memObj, obj, rfl, rfl, hobj, ?_, ?_⟩
      · simp only [hoff]
        exact Offset.units_reduce_lt _ obj.modulus_ne_zero
      · exact (fieldNodes_makeField g key key _ i).mpr (.inl ⟨rfl, hsize⟩)
    · obtain ⟨mem, mobj, hkind, himem, hmobj, hunits, hfield⟩ := hg.made i inode hi hinput
      exact ⟨mem, mobj, hkind, himem, hmobj, hunits, hext.fieldNodes _ _ hfield⟩
  case reduced =>
    intro key' f fnode fobj hf hfnode hfobj
    rw [nodes_makeField] at hfnode
    rcases (fieldNodes_makeField g key key' _ f).mp hf with ⟨rfl, rfl⟩ | ⟨-, hf⟩
    · cases hobj.symm.trans hfobj
      rw [if_pos rfl] at hfnode
      cases Option.some.inj hfnode
      simp [hoff]
    · obtain ⟨fnode', hfnode', -⟩ := hg.fieldNodes key' f hf
      have hflt := (Array.getElem?_eq_some_iff.mp hfnode').1
      rw [if_neg (Nat.ne_of_lt hflt)] at hfnode
      exact hg.reduced key' f fnode fobj hf hfnode hfobj

/-! ## Looking up a field -/

theorem field_of_not_partOf (hn : n < g.nodes.size) (h : ∀ mem, ¬ g.PartOf n mem) :
    g.field n offset = .ok (n, g) := by
  have hnode := Array.getElem?_eq_getElem hn
  unfold field
  split
  · rfl
  · simp only [entryAt_eq_ok hnode, bind, Except.bind]
    split
    · rfl
    · rename_i mem hmem
      exact absurd ⟨_, hnode, hmem⟩ (h mem)

/-- A lookup from a node with a base finds the base, a registered field, or makes one. -/
theorem field_of_base {base : NodeId} (hspecial : ¬ isSpecial n) (hbase : g.baseOf n = .ok base)
    (hk : g.KeyOf n offset key) :
    g.field n offset =
      if (g.memObjs[key.memObj]?.any (·.fieldInsensitive)) then .ok (base, g)
      else match g.fieldNodes[key]? with
        | some f => .ok (f, g)
        | none => .ok (g.makeField key base) := by
  obtain ⟨node, obj, hnode, hmem, hobj, hctx, hoff⟩ := hk
  have hkey : FieldKey.mk key.memObj
      ((if node.kind = .fieldObject then node.offset + offset else offset).reduce obj.modulus)
      node.ctx = key := by
    rw [← hoff, ← hctx]
  have hlookup : g.field n offset = if obj.fieldInsensitive then .ok (base, g) else
      match g.fieldNodes[key]? with
      | some f => .ok (f, g)
      | none => .ok (g.makeField key base) := by
    cases hfound : g.fieldNodes[key]? <;>
      simp [field, hspecial, entryAt_eq_ok hnode, hmem, hbase, entryAt_eq_ok hobj, hkey, hfound,
        bind, Except.bind, pure, Except.pure]
  rw [hlookup, hobj, Option.any_some]

theorem field_of_keyOf (hg : g.WellFormed) (hk : g.KeyOf n offset key) :
    g.field n offset =
      if (g.memObjs[key.memObj]?.any (·.fieldInsensitive)) then .ok (g.home n, g)
      else match g.fieldNodes[key]? with
        | some f => .ok (f, g)
        | none => .ok (g.makeField key (g.home n)) := by
  have hspecial : ¬ isSpecial n := fun h => hg.special n _ h hk.partOf
  exact field_of_base hspecial (hg.baseOf_eq hk.partOf.lt) hk

theorem field_of_wholeAt (hg : g.WellFormed) (hw : g.WholeAt n) :
    g.field n offset = .ok (g.home n, g) := by
  obtain ⟨mem, hpart, obj, hobj, hfi⟩ := hw
  obtain ⟨key, hkey, rfl⟩ := hg.exists_keyOf hpart offset
  rw [field_of_keyOf hg hkey, hobj]
  simp [hfi]

theorem KeyOf.not_fieldInsensitive (hk : g.KeyOf n offset key) (hw : ¬ g.WholeAt n) :
    ¬ g.memObjs[key.memObj]?.any (·.fieldInsensitive) := by
  intro h
  obtain ⟨obj, hobj, hfi⟩ := (Option.any_eq_true _ _).mp h
  exact hw ⟨_, hk.partOf, obj, hobj, hfi⟩

theorem field_of_registered (hg : g.WellFormed) (hk : g.KeyOf n offset key) (hw : ¬ g.WholeAt n)
    (hf : g.fieldNodes[key]? = some f) : g.field n offset = .ok (f, g) := by
  rw [field_of_keyOf hg hk, if_neg (hk.not_fieldInsensitive hw), hf]

theorem field_of_missing (hg : g.WellFormed) (hk : g.KeyOf n offset key) (hw : ¬ g.WholeAt n)
    (hf : g.fieldNodes[key]? = none) : g.field n offset = .ok (g.makeField key (g.home n)) := by
  rw [field_of_keyOf hg hk, if_neg (hk.not_fieldInsensitive hw), hf]

/-- If a field that stands for it is there already, the lookup makes no node: it returns that field
or the home of the object. -/
theorem Projects.field_eq (hg : g.WellFormed) (hn : n < g.nodes.size) (hp : g.Projects n offset f) :
    ∃ f', g.field n offset = .ok (f', g) ∧ (f' = f ∨ g.WholeAt f ∧ f' = g.home f) := by
  by_cases hw : g.WholeAt n
  · obtain ⟨hf, hhome⟩ := hp.home_of_wholeAt hg hw
    exact ⟨g.home n, field_of_wholeAt hg hw, .inr ⟨hf, hhome.symm⟩⟩
  · cases hp with
    | self hnone hf => exact ⟨n, field_of_not_partOf hn hnone, .inl hf.symm⟩
    | whole hwhole _ _ => exact absurd hwhole hw
    | field key hkey hf => exact ⟨f, field_of_registered hg hkey hw hf, .inl rfl⟩

/-! ## Giving up telling fields apart -/

/-- Whether objects tell their fields apart does not matter for how the parts fit together. -/
theorem WellFormed.of_extends (hg : g.WellFormed) (h : Extends g g') (hnodes : g'.nodes = g.nodes)
    (hfieldNodes : g'.fieldNodes = g.fieldNodes) (hfieldsOf : g'.fieldsOf = g.fieldsOf) :
    g'.WellFormed := by
  have hpart : ∀ n mem, g'.PartOf n mem ↔ g.PartOf n mem := fun n mem => by
    simp only [PartOf, hnodes]
  have hbaseIn : ∀ {n mem}, g.PartOf n mem → ∀ ctx, g'.baseIn? mem ctx = g.baseIn? mem ctx :=
    fun hn ctx => h.baseIn?_eq (hg.mem_lt _ _ hn) ctx
  constructor
  case special => exact fun n mem hspecial hn => hg.special n mem hspecial ((hpart n mem).mp hn)
  case mem_lt =>
    intro n mem hn
    rw [h.mem_size]
    exact hg.mem_lt n mem ((hpart n mem).mp hn)
  case id_eq =>
    intro mem obj' hobj'
    obtain ⟨obj, whole, hobj, rfl⟩ := h.memObj_eq hobj'
    exact hg.id_eq mem obj hobj
  case base =>
    intro n node mem hnode hmem
    rw [hnodes] at hnode ⊢
    rw [hbaseIn ⟨node, hnode, hmem⟩]
    exact hg.base n node mem hnode hmem
  case mem_fieldsAt =>
    intro b f
    rw [fieldsAt, hfieldsOf, hnodes]
    refine (hg.mem_fieldsAt b f).trans ⟨?_, ?_⟩
    all_goals
      rintro ⟨node, mem, hnode, hkind, hmem, hb⟩
      have heq := hbaseIn ⟨node, hnode, hmem⟩ node.ctx
      exact ⟨node, mem, hnode, hkind, hmem, by simpa only [heq] using hb⟩
  case copies_base =>
    intro mem obj' b hobj' hb
    obtain ⟨obj, whole, hobj, rfl⟩ := h.memObj_eq hobj'
    rw [copiesOf, h.copies] at hb
    rw [hnodes]
    exact hg.copies_base mem obj b hobj hb
  case fieldNodes =>
    intro key f hf
    rw [hfieldNodes] at hf
    rw [hnodes]
    exact hg.fieldNodes key f hf
  case made =>
    intro n node hnode hinput
    rw [hnodes] at hnode
    obtain ⟨mem, obj, hkind, hmem, hobj, hunits, hfield⟩ := hg.made n node hnode hinput
    obtain ⟨whole, hobj', -⟩ := h.memObjs mem obj hobj
    exact ⟨mem, _, hkind, hmem, hobj', hunits, by rwa [hfieldNodes]⟩
  case reduced =>
    intro key f node obj' hf hnode hobj'
    obtain ⟨obj, whole, hobj, rfl⟩ := h.memObj_eq hobj'
    rw [hfieldNodes] at hf
    rw [hnodes] at hnode
    exact hg.reduced key f node obj hf hnode hobj

/-- An object that gives up telling its fields apart, and all else as it was. -/
theorem setFieldInsensitive_extends (hmem : mem < g.memObjs.size) :
    ∃ changed g', g.setFieldInsensitive mem = .ok (changed, g') ∧ Extends g g' ∧
      g'.nodes = g.nodes ∧ g'.fieldNodes = g.fieldNodes ∧ g'.fieldsOf = g.fieldsOf ∧
      (∀ m, g'.IsWhole m ↔ g.IsWhole m ∨ m = mem) ∧
      (changed = true ↔ ¬ g.IsWhole mem) ∧ (g.IsWhole mem → g' = g) := by
  have hobj := Array.getElem?_eq_getElem hmem
  let obj' : MemObject := { g.memObjs[mem] with fieldInsensitive := true }
  let g' : ContextGraph C := { g with memObjs := g.memObjs.setIfInBounds mem obj' }
  have hget : ∀ m, g'.memObjs[m]? = if m = mem then some obj' else g.memObjs[m]? := by
    intro m
    simp only [g', Array.getElem?_setIfInBounds]
    by_cases hm : m = mem
    · subst hm
      simp [hmem]
    · have hm' : ¬ mem = m := fun h => hm h.symm
      simp [hm, hm']
  have hext : Extends g g' := by
    refine ⟨fun _ _ h => h, Nat.le_refl _,
      rfl, by simp [g'], ?_, fun _ _ h => h, fun _ _ h => .inl h,
      fun n node h => .inl (Array.getElem?_eq_some_iff.mp h).1⟩
    intro m obj hm
    rw [hget]
    split
    · rename_i hmeq
      subst hmeq
      cases hobj.symm.trans hm
      exact ⟨true, rfl, fun _ => rfl⟩
    · exact ⟨obj.fieldInsensitive, hm, id⟩
  have hwhole : ∀ m, g'.IsWhole m ↔ g.IsWhole m ∨ m = mem := by
    intro m
    simp only [IsWhole, hget]
    by_cases hm : m = mem
    · simp [hm, obj']
    · simp [hm]
  refine ⟨!g.memObjs[mem].fieldInsensitive, g', ?_, hext, rfl, rfl, rfl, hwhole, ?_, ?_⟩
  · simp [setFieldInsensitive, entryAt_eq_ok hobj, bind, Except.bind, pure, Except.pure, g', obj']
  · simp [IsWhole, hobj]
  · rintro ⟨o, ho, hfi⟩
    cases hobj.symm.trans ho
    have hsame : obj' = g.memObjs[mem] := by
      simp only [obj', ← hfi]
    have hobjs : g'.memObjs = g.memObjs := by
      refine Array.ext_getElem? fun m => ?_
      rw [hget]
      split
      · rename_i hm
        rw [hm, hobj, hsame]
      · rfl
    simp only [g'] at hobjs ⊢
    rw [hobjs]

theorem setFieldInsensitive_spec (hg : g.WellFormed) (hmem : mem < g.memObjs.size) :
    ∃ changed g', g.setFieldInsensitive mem = .ok (changed, g') ∧ g'.WellFormed ∧ Extends g g' ∧
      g'.nodes = g.nodes ∧ g'.fieldNodes = g.fieldNodes ∧
      (∀ m, g'.IsWhole m ↔ g.IsWhole m ∨ m = mem) ∧
      (changed = true ↔ ¬ g.IsWhole mem) ∧ (g.IsWhole mem → g' = g) := by
  obtain ⟨changed, g', hok, hext, hnodes, hfieldNodes, hfieldsOf, hrest⟩ :=
    setFieldInsensitive_extends hmem
  exact ⟨changed, g', hok, hg.of_extends hext hnodes hfieldNodes hfieldsOf, hext, hnodes,
    hfieldNodes, hrest⟩

end ContextGraph

end PointerAnalysis
