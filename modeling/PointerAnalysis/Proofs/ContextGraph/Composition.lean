import Mathlib.Data.Nat.ModEq
import PointerAnalysis.Proofs.ContextGraph.Bijection
import PointerAnalysis.Proofs.ContextGraph.Fields

/-!
Projections in a row. Going on from an object by several offsets leads to the field at their sum,
modulo the size of the object, except that every step on which a word overflows falls short of it
by the number of values of a word. So one projection by the sum leads to the same field if and only
if what is lost on the way is a multiple of the size: if no word overflows, say, or if the size is
a power of two.
-/

namespace PointerAnalysis

namespace Offset

/-- How often a word overflows when two offsets are added: once or not at all. -/
def carry (a b : Offset) : Nat := (a.units.toNat + b.units.toNat) / UInt32.size

/-- The sum of offsets as numbers. -/
def total : List Offset → Nat
  | [] => 0
  | a :: rest => a.units.toNat + total rest

theorem toNat_add_carry (a b : Offset) :
    (a + b).units.toNat + a.carry b * UInt32.size = a.units.toNat + b.units.toNat := by
  rw [units_add, UInt32.toNat_add, carry]
  exact Nat.mod_add_div' _ _

variable {size : UInt32}

theorem reduce_modEq (a : Offset) (size : UInt32) :
    (a.reduce size).units.toNat ≡ a.units.toNat [MOD size.toNat] := by
  unfold reduce
  split
  · rfl
  · rw [UInt32.toNat_mod]
    exact Nat.mod_modEq _ _

theorem reduce_eq_iff (hsize : size ≠ 0) {a b : Offset} :
    a.reduce size = b.reduce size ↔ a.units.toNat ≡ b.units.toNat [MOD size.toNat] := by
  simp only [reduce, if_neg hsize, Offset.mk.injEq]
  rw [← UInt32.toNat_inj, UInt32.toNat_mod, UInt32.toNat_mod]
  rfl

/-- A step that falls short by `c` of where it should lead and further ones that fall short by `w`
fall short by both together. -/
theorem modEq_of_steps {start first reached last a rest c w m : Nat}
    (hfirst : first + c ≡ start + a [MOD m])
    (hreached : reached ≡ first [MOD m]) (hlast : last + w ≡ reached + rest [MOD m]) :
    last + (c + w) ≡ start + (a + rest) [MOD m] :=
  calc last + (c + w) = last + w + c := by omega
    _ ≡ reached + rest + c [MOD m] := hlast.add_right c
    _ ≡ first + rest + c [MOD m] := (hreached.add_right rest).add_right c
    _ = first + c + rest := by omega
    _ ≡ start + a + rest [MOD m] := hfirst.add_right rest
    _ = start + (a + rest) := by omega

/-- The sum of offsets, modulo a size, as one offset. -/
def inOne (offsets : List Offset) (size : UInt32) : Offset :=
  ⟨UInt32.ofNat (total offsets % size.toNat)⟩

theorem toNat_inOne (offsets : List Offset) (hsize : size ≠ 0) :
    (inOne offsets size).units.toNat = total offsets % size.toNat := by
  have hpos : 0 < size.toNat := Nat.pos_of_ne_zero fun h => hsize (UInt32.toNat_inj.mp h)
  have hlt : total offsets % size.toNat < UInt32.size :=
    Nat.lt_trans (Nat.mod_lt _ hpos) size.toNat_lt_size
  exact UInt32.toNat_ofNat_of_lt hlt

/-- The sum as one offset makes up for nothing that is lost, unless that is a multiple of the size.
-/
theorem inOne_modEq_iff (offsets : List Offset) (hsize : size ≠ 0) (lost : Nat) :
    (inOne offsets size).units.toNat + lost ≡ total offsets [MOD size.toNat] ↔
      size.toNat ∣ lost := by
  have hsum : (inOne offsets size).units.toNat ≡ total offsets [MOD size.toNat] := by
    rw [toNat_inOne offsets hsize]
    exact Nat.mod_modEq _ _
  rw [← Nat.modEq_zero_iff_dvd]
  constructor
  · intro h
    exact Nat.ModEq.add_left_cancel hsum h
  · intro h
    exact hsum.add h

end Offset

namespace ContextGraph

variable {C : Type} [Context C] {g g' : ContextGraph C} {n f : NodeId} {mem : MemObjId}
  {obj : MemObject} {offset : Offset} {key : FieldKey C}

/-! ## Graphs in use -/

/-- What becomes of a graph while fields are looked up and objects stop telling theirs apart. -/
inductive Evolves (g : ContextGraph C) : ContextGraph C → Prop where
  | refl : Evolves g g
  | field {g' g'' : ContextGraph C} {n f : NodeId} {offset : Offset} (h : Evolves g g')
      (hok : g'.field n offset = .ok (f, g'')) : Evolves g g''
  | fold {g' g'' : ContextGraph C} {mem : MemObjId} {changed : Bool} (h : Evolves g g')
      (hok : g'.setFieldInsensitive mem = .ok (changed, g'')) : Evolves g g''

theorem not_isWhole (hobj : g.memObjs[mem]? = some obj) (hfi : obj.fieldInsensitive = false) :
    ¬ g.IsWhole mem := by
  rintro ⟨obj', hobj', hfi'⟩
  cases hobj.symm.trans hobj'
  exact Bool.noConfusion (hfi.symm.trans hfi')

/-- A graph extends another one and has a node for a field. -/
structure Lands (g g' : ContextGraph C) (key : FieldKey C) (f : NodeId) : Prop where
  wellFormed : g'.WellFormed
  ext : Extends g g'
  memObjs : g'.memObjs = g.memObjs
  found : g'.fieldNodes[key]? = some f

/-- Looking up a field of an object that tells its fields apart finds the node registered for it. -/
theorem WellFormed.exists_lands (hg : g.WellFormed) (hk : g.KeyOf n offset key)
    (hw : ¬ g.IsWhole key.memObj) : ∃ f g', g.field n offset = .ok (f, g') ∧ Lands g g' key f := by
  have hwhole : ¬ g.WholeAt n := by
    rintro ⟨mem, hpart, hwhole⟩
    exact hw (hk.partOf.unique hpart ▸ hwhole)
  cases hf : g.fieldNodes[key]? with
  | some f => exact ⟨f, g, field_of_registered hg hk hwhole hf, hg, .refl g, rfl, hf⟩
  | none =>
      exact ⟨_, _, field_of_missing hg hk hwhole hf, wellFormed_makeField hg hk hf,
        extends_makeField (g.home n) hf, rfl,
        (fieldNodes_makeField g key key _ _).mpr (.inl ⟨rfl, rfl⟩)⟩

/-- What a lookup that succeeds has found: the node itself, the home of its object, or a registered
field. -/
theorem WellFormed.field_cases (hg : g.WellFormed) (hok : g.field n offset = .ok (f, g')) :
    (∀ mem, ¬ g.PartOf n mem) ∧ f = n ∧ g' = g ∨ g.WholeAt n ∧ f = g.home n ∧ g' = g ∨
      ∃ key, g.KeyOf n offset key ∧ ¬ g.WholeAt n ∧ Lands g g' key f := by
  by_cases hpart : ∃ mem, g.PartOf n mem
  · obtain ⟨mem, hpart⟩ := hpart
    by_cases hw : g.WholeAt n
    · cases hok.symm.trans (field_of_wholeAt hg hw)
      exact .inr (.inl ⟨hw, rfl, rfl⟩)
    · obtain ⟨key, hk, rfl⟩ := hg.exists_keyOf hpart offset
      obtain ⟨f', g₁, hok', hlands⟩ := hg.exists_lands hk fun h => hw ⟨_, hpart, h⟩
      cases hok.symm.trans hok'
      exact .inr (.inr ⟨key, hk, hw, hlands⟩)
  · have hnone : ∀ mem, ¬ g.PartOf n mem := fun mem h => hpart ⟨mem, h⟩
    have hself : g.field n offset = .ok (n, g) := by
      by_cases hn : n < g.nodes.size
      · exact field_of_not_partOf hn hnone
      · -- beyond the nodes only the special objects are answered for
        by_cases hspecial : isSpecial n
        · simp [field, hspecial, pure, Except.pure]
        · simp [field, hspecial, entryAt, hn, bind, Except.bind] at hok
    cases hok.symm.trans hself
    exact .inl ⟨hnone, rfl, rfl⟩

theorem WellFormed.of_field (hg : g.WellFormed) (hok : g.field n offset = .ok (f, g')) :
    g'.WellFormed ∧ Extends g g' := by
  rcases hg.field_cases hok with ⟨-, -, rfl⟩ | ⟨-, -, rfl⟩ | ⟨key, -, -, hlands⟩
  · exact ⟨hg, .refl _⟩
  · exact ⟨hg, .refl _⟩
  · exact ⟨hlands.wellFormed, hlands.ext⟩

theorem WellFormed.of_setFieldInsensitive {changed : Bool} (hg : g.WellFormed)
    (hok : g.setFieldInsensitive mem = .ok (changed, g')) : g'.WellFormed ∧ Extends g g' := by
  by_cases hmem : mem < g.memObjs.size
  · obtain ⟨changed', g₁, hok', hwf, hext, -⟩ := setFieldInsensitive_spec hg hmem
    cases hok.symm.trans hok'
    exact ⟨hwf, hext⟩
  · simp [setFieldInsensitive, entryAt, hmem, bind, Except.bind] at hok

theorem Evolves.grown (h : Evolves g g') (hg : g.WellFormed) : g'.WellFormed ∧ Extends g g' := by
  induction h with
  | refl => exact ⟨hg, .refl g⟩
  | field _ hok ih =>
      obtain ⟨hwf, hext⟩ := ih
      obtain ⟨hwf', hext'⟩ := hwf.of_field hok
      exact ⟨hwf', hext.trans hext'⟩
  | fold _ hok ih =>
      obtain ⟨hwf, hext⟩ := ih
      obtain ⟨hwf', hext'⟩ := hwf.of_setFieldInsensitive hok
      exact ⟨hwf', hext.trans hext'⟩

/-! ## Several steps -/

/-- Where in its object a node lies: a field at its offset, any other node at the start. -/
def offsetAt (g : ContextGraph C) (n : NodeId) : Offset :=
  match g.nodes[n]? with
  | some node => if node.kind = .fieldObject then node.offset else 0
  | none => 0

/-- Goes on from a node by several offsets in turn. -/
def fields (g : ContextGraph C) (n : NodeId) (offsets : List Offset) :
    Except Fault (NodeId × ContextGraph C) :=
  offsets.foldlM (fun state offset => state.2.field state.1 offset) (n, g)

/-- The number of these steps on which a word overflows. -/
def overflows : ContextGraph C → NodeId → List Offset → Nat
  | _, _, [] => 0
  | g, n, offset :: rest =>
    (g.offsetAt n).carry offset +
      match g.field n offset with
      | .ok (f, g') => overflows g' f rest
      | .error _ => 0

theorem fields_cons (hok : g.field n offset = .ok (f, g')) (rest : List Offset) :
    g.fields n (offset :: rest) = g'.fields f rest := by
  rw [fields, List.foldlM_cons, hok]
  rfl

theorem overflows_cons (hok : g.field n offset = .ok (f, g')) (rest : List Offset) :
    g.overflows n (offset :: rest) = (g.offsetAt n).carry offset + g'.overflows f rest := by
  rw [overflows, hok]

theorem KeyOf.offset_eq (hk : g.KeyOf n offset key) (hobj : g.memObjs[key.memObj]? = some obj) :
    key.offset = (g.offsetAt n + offset).reduce obj.modulus := by
  obtain ⟨node, obj', hnode, -, hobj', -, hoffset⟩ := hk
  cases hobj.symm.trans hobj'
  rw [hoffset, offsetAt, hnode]
  dsimp only
  split
  · rfl
  · rw [Offset.zero_add]

theorem offsetAt_of_ne {node : ContextNode C} (hnode : g.nodes[n]? = some node)
    (hkind : node.kind ≠ .fieldObject) : g.offsetAt n = 0 := by
  simp [offsetAt, hnode, hkind]

/-- A step leads to the sum of the offsets, less what is lost if a word overflows. -/
theorem KeyOf.modEq (hk : g.KeyOf n offset key) (hobj : g.memObjs[key.memObj]? = some obj) :
    key.offset.units.toNat + (g.offsetAt n).carry offset * UInt32.size ≡
      (g.offsetAt n).units.toNat + offset.units.toNat [MOD obj.modulus.toNat] := by
  rw [hk.offset_eq hobj, ← Offset.toNat_add_carry]
  exact (Offset.reduce_modEq _ _).add_right _

/-- A registered field lies where its key says. -/
theorem WellFormed.offsetAt_modEq (hg : g.WellFormed) (hf : g.fieldNodes[key]? = some f)
    (hobj : g.memObjs[key.memObj]? = some obj) :
    (g.offsetAt f).units.toNat ≡ key.offset.units.toNat [MOD obj.modulus.toNat] := by
  obtain ⟨node, hnode, hkind, -⟩ := hg.fieldNodes key f hf
  rw [← hg.reduced key f node obj hf hnode hobj]
  simp only [offsetAt, hnode, if_pos hkind]
  exact (Offset.reduce_modEq _ _).symm

section steps

variable {node : ContextNode C}

theorem WellFormed.step_lands (hg : g.WellFormed) (hnode : g.nodes[n]? = some node)
    (hmem : node.memObj = some mem) (hobj : g.memObjs[mem]? = some obj)
    (hfi : obj.fieldInsensitive = false) (a : Offset) :
    ∃ f g' key, g.field n a = .ok (f, g') ∧ Lands g g' key f ∧ key.memObj = mem ∧
      key.ctx = node.ctx ∧ key.offset.units.toNat + (g.offsetAt n).carry a * UInt32.size ≡
        (g.offsetAt n).units.toNat + a.units.toNat [MOD obj.modulus.toNat] := by
  obtain ⟨key, hk, rfl⟩ := hg.exists_keyOf ⟨node, hnode, hmem⟩ a
  obtain ⟨f, g', hok, hlands⟩ := hg.exists_lands hk (not_isWhole hobj hfi)
  refine ⟨f, g', key, hok, hlands, rfl, ?_, hk.modEq hobj⟩
  obtain ⟨node', -, hnode', -, -, hctx, -⟩ := hk
  cases hnode.symm.trans hnode'
  exact hctx

/-- Several steps lead to a field of the same object in the same context, at the sum of the offsets
less what is lost on the way. -/
theorem WellFormed.fields_lands (hg : g.WellFormed) (hnode : g.nodes[n]? = some node)
    (hmem : node.memObj = some mem) (hobj : g.memObjs[mem]? = some obj)
    (hfi : obj.fieldInsensitive = false) (a : Offset) (rest : List Offset) :
    ∃ f g' key, g.fields n (a :: rest) = .ok (f, g') ∧ Lands g g' key f ∧ key.memObj = mem ∧
      key.ctx = node.ctx ∧
      key.offset.units.toNat + g.overflows n (a :: rest) * UInt32.size ≡
        (g.offsetAt n).units.toNat + Offset.total (a :: rest) [MOD obj.modulus.toNat] := by
  induction rest generalizing g n a node with
  | nil =>
      obtain ⟨f, g', key, hok, hlands, hkmem, hkctx, hmod⟩ := hg.step_lands hnode hmem hobj hfi a
      refine ⟨f, g', key, fields_cons hok [], hlands, hkmem, hkctx, ?_⟩
      rw [overflows_cons hok]
      exact hmod
  | cons b rest ih =>
      obtain ⟨f₁, g₁, key₁, hok, hlands₁, rfl, hctx₁, hmod₁⟩ := hg.step_lands hnode hmem hobj hfi a
      obtain ⟨node₁, hnode₁, -, hmem₁, hnctx₁, -⟩ :=
        hlands₁.wellFormed.fieldNodes key₁ f₁ hlands₁.found
      have hobj₁ : g₁.memObjs[key₁.memObj]? = some obj := by rw [hlands₁.memObjs, hobj]
      obtain ⟨f, g', key, hok', hlands, hkmem, hkctx, hmod⟩ :=
        ih hlands₁.wellFormed hnode₁ hmem₁ hobj₁ b
      refine ⟨f, g', key, (fields_cons hok _).trans hok', ?_, hkmem, ?_, ?_⟩
      · exact ⟨hlands.wellFormed, hlands₁.ext.trans hlands.ext,
          hlands.memObjs.trans hlands₁.memObjs, hlands.found⟩
      · rw [hkctx, hnctx₁, hctx₁]
      · rw [overflows_cons hok, Offset.total, Nat.add_mul]
        exact Offset.modEq_of_steps hmod₁ (hlands₁.wellFormed.offsetAt_modEq hlands₁.found hobj₁)
          hmod

end steps

/-! ## One projection in place of several -/

/-- The copies of an object's base node were there from the start, and its size is what it was. -/
theorem Extends.copy_spec {b : NodeId} (hext : Extends g g') (hg : g.WellFormed)
    (hobj : g'.memObjs[mem]? = some obj) (hb : b ∈ g'.copiesOf obj.baseNode) :
    ∃ (node : ContextNode C) (obj₀ : MemObject), g.nodes[b]? = some node ∧ node.memObj = some mem ∧
      node.kind ≠ .fieldObject ∧ g.memObjs[mem]? = some obj₀ ∧ obj₀.modulus = obj.modulus := by
  obtain ⟨obj₀, whole, hobj₀, rfl⟩ := hext.memObj_eq hobj
  rw [copiesOf, hext.copies] at hb
  obtain ⟨node, hnode, hmem, hkind⟩ := hg.copies_base mem obj₀ b hobj₀ hb
  exact ⟨node, obj₀, hnode, hmem, hkind, hobj₀, rfl⟩

/-- Every field has one node, and a node is registered for one field only. -/
theorem WellFormed.node_eq_iff (hg : g.WellFormed) {key' : FieldKey C} {f' : NodeId}
    (hf : g.fieldNodes[key]? = some f) (hf' : g.fieldNodes[key']? = some f') :
    f = f' ↔ key = key' := by
  constructor
  · rintro rfl
    exact (hg.keyOf_zero hf).unique (hg.keyOf_zero hf')
  · rintro rfl
    exact Option.some.inj (hf.symm.trans hf')

theorem WellFormed.reduce_key (hg : g.WellFormed) (hf : g.fieldNodes[key]? = some f)
    (hobj : g.memObjs[key.memObj]? = some obj) : key.offset.reduce obj.modulus = key.offset := by
  obtain ⟨node, hnode, -⟩ := hg.fieldNodes key f hf
  rw [← hg.reduced key f node obj hf hnode hobj, Offset.reduce_reduce]

/-- Whether `n` is what a projection from `b` yields comes down to a condition, be the projection
made in a graph that has become `g` since or in one that `g'` becomes. -/
structure YieldsIff (cg g g' : ContextGraph C) (mem : MemObjId) (b : NodeId) (offset : Offset)
    (n : NodeId) (same : Prop) : Prop where
  before : ∀ earlier f found, Evolves cg earlier → earlier.field b offset = .ok (f, found) →
    Evolves found g → (f = n ↔ same)
  after : ∀ later, Evolves g' later → ¬ later.IsWhole mem →
    ∃ f found, later.field b offset = .ok (f, found) ∧ (f = n ↔ same)

/-- A field that is registered is yielded by the projections with its key. -/
theorem Lands.yieldsIff {cg : ContextGraph C} {b : NodeId} {key' : FieldKey C} (hcg : cg.WellFormed)
    (hg : Evolves cg g) (hlands : Lands g g' key n) (hk : cg.KeyOf b offset key')
    (hw : ¬ g.IsWhole key'.memObj) : YieldsIff cg g g' key'.memObj b offset n (key' = key) where
  before earlier f found hearlier hok hfound := by
    obtain ⟨hwf, hext⟩ := hearlier.grown hcg
    obtain ⟨hwf₁, hext₁⟩ := hwf.of_field hok
    obtain ⟨-, hext₂⟩ := hfound.grown hwf₁
    obtain ⟨f', found', hok', hlands'⟩ :=
      hwf.exists_lands (hk.extends hext) fun h => hw (hext₂.isWhole (hext₁.isWhole h))
    cases hok.symm.trans hok'
    have hf := hlands.ext.fieldNodes _ _ (hext₂.fieldNodes _ _ hlands'.found)
    exact hlands.wellFormed.node_eq_iff hf hlands.found
  after later hlater hwhole := by
    obtain ⟨-, hext⟩ := hg.grown hcg
    obtain ⟨hwf, hext₁⟩ := hlater.grown hlands.wellFormed
    have hk' := ((hk.extends hext).extends hlands.ext).extends hext₁
    obtain ⟨f, found, hok, hlands'⟩ := hwf.exists_lands hk' hwhole
    have hn := hlands'.ext.fieldNodes _ _ (hext₁.fieldNodes _ _ hlands.found)
    exact ⟨f, found, hok, hlands'.wellFormed.node_eq_iff hlands'.found hn⟩

theorem Lands.key_eq_iff {total lost : Nat} (hlands : Lands g g' key n)
    (hobj : g.memObjs[key.memObj]? = some obj)
    (hmod : key.offset.units.toNat + lost ≡ total [MOD obj.modulus.toNat]) (r : Offset) :
    FieldKey.mk key.memObj (r.reduce obj.modulus) key.ctx = key ↔
      r.units.toNat + lost ≡ total [MOD obj.modulus.toNat] := by
  have hobj' : g'.memObjs[key.memObj]? = some obj := by rw [hlands.memObjs, hobj]
  have hreduced := hlands.wellFormed.reduce_key hlands.found hobj'
  constructor
  · intro h
    have hoffset : r.reduce obj.modulus = key.offset := congrArg FieldKey.offset h
    have hr := (Offset.reduce_modEq r obj.modulus).symm
    rw [hoffset] at hr
    exact (hr.add_right lost).trans hmod
  · intro h
    have hr := Nat.ModEq.add_right_cancel' lost (h.trans hmod.symm)
    have hoffset := (Offset.reduce_eq_iff obj.modulus_ne_zero).mpr hr
    rw [hoffset, hreduced]

/-- Going on from a copy of an object by several offsets succeeds. The projections that yield the
node reached are those by the sum less what is lost on the way, modulo the size of the object; the
one by the sum itself is among them if and only if the loss is a multiple of the size. -/
theorem fields_compose {policy : ContextPolicy C} {p : AssignmentGraph} {fieldSensitive : Bool}
    {cg : ContextGraph C} {b : NodeId} {offsets : List Offset} (hp : p.Built)
    (hcheck : p.check = .ok ())
    (hbuild : build policy p fieldSensitive = .ok cg) (hg : Evolves cg g)
    (hobj : g.memObjs[mem]? = some obj) (hfi : obj.fieldInsensitive = false)
    (hb : b ∈ g.copiesOf obj.baseNode) (hne : offsets ≠ []) :
    ∃ n g', g.fields b offsets = .ok (n, g') ∧
      (∀ r, YieldsIff cg g g' mem b r n
        (r.units.toNat + g.overflows b offsets * UInt32.size ≡
          Offset.total offsets [MOD obj.modulus.toNat])) ∧
      YieldsIff cg g g' mem b (.inOne offsets obj.modulus) n
        (obj.modulus.toNat ∣ g.overflows b offsets * UInt32.size) := by
  have hcg : cg.WellFormed := (build_wellBuilt hp hcheck hbuild).1.toWellFormed
  obtain ⟨hwf, hext⟩ := hg.grown hcg
  obtain ⟨node, obj₀, hnode, hmem, hkind, hobj₀, hmodulus⟩ := hext.copy_spec hcg hobj hb
  obtain ⟨a, rest, rfl⟩ := List.exists_cons_of_ne_nil hne
  have hnode' := hext.nodes b node hnode
  obtain ⟨n, g', key, hok, hlands, rfl, hctx, hmod⟩ := hwf.fields_lands hnode' hmem hobj hfi a rest
  rw [offsetAt_of_ne hnode' hkind] at hmod
  have hyields : ∀ r, YieldsIff cg g g' key.memObj b r n
      (r.units.toNat + g.overflows b (a :: rest) * UInt32.size ≡
        Offset.total (a :: rest) [MOD obj.modulus.toNat]) := by
    intro r
    have hk : cg.KeyOf b r ⟨key.memObj, r.reduce obj.modulus, key.ctx⟩ :=
      ⟨node, obj₀, hnode, hmem, hobj₀, hctx, by rw [if_neg hkind, hmodulus]⟩
    rw [← hlands.key_eq_iff hobj (by simpa using hmod) r]
    exact hlands.yieldsIff hcg hg hk (not_isWhole hobj hfi)
  refine ⟨n, g', hok, hyields, ?_⟩
  have hsum := hyields (.inOne (a :: rest) obj.modulus)
  rwa [Offset.inOne_modEq_iff _ obj.modulus_ne_zero] at hsum

/-- `x`, an object of three fields with the node 4. -/
def tripled : AssignmentGraph := (AssignmentGraph.empty.addObject .constant 3).2

theorem built_tripled : tripled.Built := AssignmentGraph.Built.empty.addObject .constant 3

/-- To field 2, and then five times back by two. -/
def winding : List Offset := ⟨2⟩ :: List.replicate 5 ⟨4294967294⟩

/-- On three steps of `winding` a word overflows. What is lost is a multiple of the size, so the
steps lead where the projection by their sum does. -/
theorem fields_compose_winding :
    ∃ cg g obj, build (CallStringPolicy.policy ⟨.empty, 1⟩) tripled true = .ok cg ∧
      cg.field 4 ⟨1⟩ = .ok (5, g) ∧ g.memObjs[0]? = some obj ∧ obj.fieldInsensitive = false ∧
      4 ∈ g.copiesOf obj.baseNode ∧ obj.modulus = 3 ∧ g.overflows 4 winding = 3 ∧
      ∃ n g', g.fields 4 winding = .ok (n, g') ∧
        (∀ r, YieldsIff cg g g' 0 4 r n
          (r.units.toNat + 3 * UInt32.size ≡ Offset.total winding [MOD 3])) ∧
        YieldsIff cg g g' 0 4 (.inOne winding 3) n (3 ∣ 3 * UInt32.size) := by
  have hrun : (build (CallStringPolicy.policy ⟨.empty, 1⟩) tripled true).toOption.any (fun cg =>
      (cg.field 4 ⟨1⟩).toOption.any fun found => decide (found.1 = 5) &&
        found.2.memObjs[0]?.any fun obj => decide (obj.fieldInsensitive = false ∧
          4 ∈ found.2.copiesOf obj.baseNode ∧ obj.modulus = 3 ∧
          found.2.overflows 4 winding = 3)) = true := by
    decide +kernel
  obtain ⟨cg, hbuild, hcg⟩ := exists_ok_of_any hrun
  obtain ⟨⟨f, g⟩, hfield, hfound⟩ := exists_ok_of_any hcg
  simp only [Bool.and_eq_true, decide_eq_true_eq] at hfound
  obtain ⟨rfl, hobj⟩ := hfound
  obtain ⟨obj, hobj, hrest⟩ := (Option.any_eq_true _ _).mp hobj
  obtain ⟨hfi, hb, hmodulus, hoverflows⟩ := of_decide_eq_true hrest
  have hcheck : tripled.check = .ok () := by decide +kernel
  have hne : winding ≠ [] := List.cons_ne_nil _ _
  have hcompose := fields_compose built_tripled hcheck hbuild (.field .refl hfield) hobj hfi hb hne
  rw [hmodulus, hoverflows] at hcompose
  exact ⟨cg, g, obj, hbuild, hfield, hobj, hfi, hb, hmodulus, hoverflows, hcompose⟩

/-- From field 1 back by one, a word overflows: this leads to field 0, but the sum modulo
three is 1. -/
theorem fields_fall_short_tripled :
    tripled.Built ∧ tripled.check = .ok () ∧
    ∃ cg obj n g' f found, build (CallStringPolicy.policy ⟨.empty, 1⟩) tripled true = .ok cg ∧
      cg.memObjs[0]? = some obj ∧ obj.fieldInsensitive = false ∧ 4 ∈ cg.copiesOf obj.baseNode ∧
      cg.fields 4 [⟨1⟩, ⟨4294967295⟩] = .ok (n, g') ∧
      g'.field 4 (.inOne [⟨1⟩, ⟨4294967295⟩] obj.modulus) = .ok (f, found) ∧ f ≠ n := by
  have hrun : (build (CallStringPolicy.policy ⟨.empty, 1⟩) tripled true).toOption.any (fun cg =>
      cg.memObjs[0]?.any fun obj =>
        !obj.fieldInsensitive && decide (4 ∈ cg.copiesOf obj.baseNode) &&
        (cg.fields 4 [⟨1⟩, ⟨4294967295⟩]).toOption.any fun reached =>
          (reached.2.field 4 (.inOne [⟨1⟩, ⟨4294967295⟩] obj.modulus)).toOption.any fun found =>
            decide (found.1 ≠ reached.1)) = true := by
    decide +kernel
  obtain ⟨cg, hbuild, hcg⟩ := exists_ok_of_any hrun
  obtain ⟨obj, hobj, hrest⟩ := (Option.any_eq_true _ _).mp hcg
  simp only [Bool.and_eq_true, Bool.not_eq_true', decide_eq_true_eq] at hrest
  obtain ⟨⟨hfi, hb⟩, hreached⟩ := hrest
  obtain ⟨⟨n, g'⟩, hfields, hfound⟩ := exists_ok_of_any hreached
  obtain ⟨⟨f, found⟩, hok, hne⟩ := exists_ok_of_any hfound
  exact ⟨built_tripled, by decide +kernel, cg, obj, n, g', f, found, hbuild, hobj, hfi, hb,
    hfields, hok, of_decide_eq_true hne⟩

end ContextGraph

end PointerAnalysis
