import Mathlib.Tactic.Common
import PointerAnalysis.AssignmentGraph.Codec
import PointerAnalysis.Proofs.Json.Decode
import PointerAnalysis.Proofs.Json.RoundTrip

/-!
Assignment graphs are read back from their written form. All identifiers of a graph that can be
read are numbers of 32 bits, and every graph with such identifiers and without a defect is read
back from what is written for it. Texts in any other accepted form denote a graph that has a
written form of its own.
-/

namespace PointerAnalysis

open Json (Plain text record nullable)

/-! ## Identifiers of 32 bits -/

/-- The range of the identifiers that are written and read. -/
def IsWord (n : Nat) : Prop := n < 0x100000000

instance (n : Nat) : Decidable (IsWord n) := inferInstanceAs (Decidable (n < 0x100000000))

/-- The function of a program value has an identifier in range. -/
def ProgramValue.Fits : ProgramValue → Prop
  | instruction f | argument f | function f => IsWord f
  | constant | inlineAsm => True

instance : (v : ProgramValue) → Decidable v.Fits
  | .instruction f | .argument f | .function f => inferInstanceAs (Decidable (IsWord f))
  | .constant | .inlineAsm => inferInstanceAs (Decidable True)

/-- The identifiers of a node are in range. -/
structure Node.Fits (n : Node) : Prop where
  id : IsWord n.id
  value : ∀ v ∈ n.value, v.Fits
  memObj : ∀ m ∈ n.memObj, IsWord m

instance (n : Node) : Decidable n.Fits :=
  decidable_of_iff (IsWord n.id ∧ (∀ v ∈ n.value, v.Fits) ∧ ∀ m ∈ n.memObj, IsWord m)
    ⟨fun h => ⟨h.1, h.2.1, h.2.2⟩, fun h => ⟨h.id, h.value, h.memObj⟩⟩

/-- The identifiers of a memory object are in range. -/
structure MemObject.Fits (m : MemObject) : Prop where
  id : IsWord m.id
  baseNode : IsWord m.baseNode

instance (m : MemObject) : Decidable m.Fits :=
  decidable_of_iff (IsWord m.id ∧ IsWord m.baseNode)
    ⟨fun h => ⟨h.1, h.2⟩, fun h => ⟨h.id, h.baseNode⟩⟩

/-- The identifiers of an edge are in range. -/
structure Edge.Fits (e : Edge) : Prop where
  id : IsWord e.id
  src : IsWord e.src
  dst : IsWord e.dst
  callSite : ∀ c ∈ e.callSite, IsWord c

instance (e : Edge) : Decidable e.Fits :=
  decidable_of_iff (IsWord e.id ∧ IsWord e.src ∧ IsWord e.dst ∧ ∀ c ∈ e.callSite, IsWord c)
    ⟨fun h => ⟨h.1, h.2.1, h.2.2.1, h.2.2.2⟩, fun h => ⟨h.id, h.src, h.dst, h.callSite⟩⟩

/-- The identifiers of a graph are in range. -/
structure AssignmentGraph.Fits (g : AssignmentGraph) : Prop where
  nodes : ∀ n ∈ g.nodes, n.Fits
  edges : ∀ e ∈ g.edges, e.Fits
  memObjs : ∀ m ∈ g.memObjs, m.Fits

instance (g : AssignmentGraph) : Decidable g.Fits :=
  decidable_of_iff ((∀ n ∈ g.nodes, n.Fits) ∧ (∀ e ∈ g.edges, e.Fits) ∧ ∀ m ∈ g.memObjs, m.Fits)
    ⟨fun h => ⟨h.1, h.2.1, h.2.2⟩, fun h => ⟨h.nodes, h.edges, h.memObjs⟩⟩

/-! ## Plain values -/

theorem plain_record {ms : List (String × Json)} (h : ∀ m ∈ ms, Plain m.2) : Plain (record ms) := by
  refine .object _ fun m hm => ?_
  obtain ⟨⟨k, v⟩, hkv, rfl⟩ := List.mem_map.mp hm
  exact h (k, v) hkv

theorem plain_nullable {α : Type} {write : α → Json} (h : ∀ a, Plain (write a)) (o : Option α) :
    Plain (nullable write o) := by
  cases o with
  | none => exact .null
  | some a => exact h a

theorem plain_array {α : Type} {write : α → Json} (h : ∀ a, Plain (write a)) (xs : List α) :
    Plain (.array (xs.map write)) := by
  refine .array _ fun v hv => ?_
  obtain ⟨a, -, rfl⟩ := List.mem_map.mp hv
  exact h a

theorem plain_text (s : String) : Plain (text s) := .string _

/-! ## Offsets and kinds -/

theorem Offset.plain_toJson (o : Offset) : Plain o.toJson :=
  plain_record (by simpa using .natural _)

theorem Offset.ofJson?_toJson (o : Offset) : Offset.ofJson? o.toJson = some o := by
  simp [ofJson?, toJson, Json.fields_record, Json.Field.required, Json.toWord_natural]

theorem NodeKind.toNamed_name (k : NodeKind) : Json.toNamed ofName? (text k.name) = some k := by
  cases k <;> rfl

theorem EdgeKind.toNamed_name (k : EdgeKind) : Json.toNamed ofName? (text k.name) = some k := by
  cases k <;> rfl

/-! ## Program values -/

namespace ProgramValue

theorem plain_toJson (v : ProgramValue) : Plain v.toJson := by
  cases v with
  | instruction f => exact plain_record (by simpa using .natural f)
  | argument f => exact plain_record (by simpa using .natural f)
  | function f => exact plain_record (by simpa using .natural f)
  | constant => exact plain_text _
  | inlineAsm => exact plain_text _

theorem toJson_ne_null (v : ProgramValue) : v.toJson ≠ .null := by
  cases v <;> simp [toJson, record, text]

theorem ofJson?_toJson {v : ProgramValue} (h : v.Fits) : ofJson? v.toJson = some v := by
  cases v <;> simp_all [ofJson?, toJson, record, text, Json.alternative, Fits, IsWord,
    Json.toId_natural]

theorem fits_of_ofJson? (j : Json) (v : ProgramValue) (h : ofJson? j = some v) : v.Fits := by
  simp only [ofJson?, Option.bind_eq_bind, Option.bind_eq_some_iff] at h
  obtain ⟨named, -, h⟩ := h
  split at h <;> simp only [Option.pure_def, Option.bind_eq_some_iff, Option.some.injEq,
    reduceCtorEq] at h
  · obtain ⟨f, hf, rfl⟩ := h
    exact Json.lt_of_toId hf
  · obtain ⟨f, hf, rfl⟩ := h
    exact Json.lt_of_toId hf
  · obtain ⟨f, hf, rfl⟩ := h
    exact Json.lt_of_toId hf
  · subst h
    trivial
  · subst h
    trivial

end ProgramValue

/-! ## Nodes, memory objects and edges -/

theorem Json.isWord_of_toId (j : Json) (n : Nat) (h : j.toId = some n) :
    IsWord n := Json.lt_of_toId h

namespace Node

theorem plain_toJson (n : Node) : Plain n.toJson := by
  refine plain_record ?_
  simp only [List.forall_mem_cons, List.not_mem_nil, false_imp_iff, implies_true, and_true]
  exact ⟨.natural _, plain_text _, plain_nullable ProgramValue.plain_toJson _,
    plain_nullable .natural _, n.offset.plain_toJson, plain_nullable plain_text _⟩

theorem ofJson?_toJson {n : Node} (h : n.Fits) : ofJson? n.toJson = some n := by
  have hid := Json.toId_natural h.id
  have hvalue : Json.toOption ProgramValue.ofJson? (nullable ProgramValue.toJson n.value) =
      some n.value :=
    Json.toOption_nullable ProgramValue.toJson_ne_null fun v hv =>
      ProgramValue.ofJson?_toJson (h.value v hv)
  have hmem : Json.toOption Json.toId (nullable .natural n.memObj) = some n.memObj :=
    Json.toOption_nullable (by simp) fun m hm => Json.toId_natural (h.memObj m hm)
  have hname : Json.toOption Json.toText (nullable text n.name) = some n.name :=
    Json.toOption_nullable (by simp [text]) fun s _ => rfl
  simp [ofJson?, toJson, Json.fields_record, Json.Field.required, Json.Field.optional,
    Json.Field.withDefault, hid, hvalue, hmem, hname, NodeKind.toNamed_name, Offset.ofJson?_toJson]

theorem fits_of_ofJson? (j : Json) (n : Node) (h : ofJson? j = some n) : n.Fits := by
  simp only [ofJson?, Option.bind_eq_bind, Option.bind_eq_some_iff] at h
  obtain ⟨fields, -, h⟩ := h
  split at h
  · simp only [Option.pure_def, Option.bind_eq_some_iff, Option.some.injEq] at h
    obtain ⟨id, hid, kind, -, value, hvalue, memObj, hmem, offset, -, name, -, rfl⟩ := h
    exact ⟨Json.Field.of_required Json.isWord_of_toId hid,
      Json.Field.of_optional ProgramValue.fits_of_ofJson? hvalue,
      Json.Field.of_optional Json.isWord_of_toId hmem⟩
  · cases h

end Node

namespace MemObject

theorem plain_toJson (m : MemObject) : Plain m.toJson := by
  refine plain_record ?_
  simp only [List.forall_mem_cons, List.not_mem_nil, false_imp_iff, implies_true, and_true]
  exact ⟨.natural _, .natural _, .natural _, plain_nullable plain_text _, .bool _, .bool _, .bool _⟩

theorem ofJson?_toJson {m : MemObject} (h : m.Fits) : ofJson? m.toJson = some m := by
  have hid := Json.toId_natural h.id
  have hbase := Json.toId_natural h.baseNode
  have htype : Json.toOption Json.toText (nullable text m.typeName) = some m.typeName :=
    Json.toOption_nullable (by simp [text]) fun s _ => rfl
  simp [ofJson?, toJson, Json.fields_record, Json.Field.required, Json.Field.withDefault, hid,
    hbase, htype, Json.toWord_natural, Json.toBool]

theorem fits_of_ofJson? (j : Json) (m : MemObject) (h : ofJson? j = some m) : m.Fits := by
  simp only [ofJson?, Option.bind_eq_bind, Option.bind_eq_some_iff] at h
  obtain ⟨fields, -, h⟩ := h
  split at h
  · simp only [Option.pure_def, Option.bind_eq_some_iff, Option.some.injEq] at h
    obtain ⟨id, hid, baseNode, hbase, _, -, _, -, _, -, _, -, _, -, rfl⟩ := h
    exact ⟨Json.Field.of_required Json.isWord_of_toId hid,
      Json.Field.of_required Json.isWord_of_toId hbase⟩
  · cases h

end MemObject

namespace Edge

theorem plain_toJson (e : Edge) : Plain e.toJson := by
  refine plain_record ?_
  simp only [List.forall_mem_cons, List.not_mem_nil, false_imp_iff, implies_true, and_true]
  exact ⟨.natural _, plain_text _, .natural _, .natural _, e.offset.plain_toJson,
    plain_nullable .natural _⟩

theorem ofJson?_toJson {e : Edge} (h : e.Fits) : ofJson? e.toJson = some e := by
  have hid := Json.toId_natural h.id
  have hsrc := Json.toId_natural h.src
  have hdst := Json.toId_natural h.dst
  have hsite : Json.toOption Json.toId (nullable .natural e.callSite) = some e.callSite :=
    Json.toOption_nullable (by simp) fun c hc => Json.toId_natural (h.callSite c hc)
  simp [ofJson?, toJson, Json.fields_record, Json.Field.required, Json.Field.withDefault, hid, hsrc,
    hdst, hsite, EdgeKind.toNamed_name, Offset.ofJson?_toJson]

theorem fits_of_ofJson? (j : Json) (e : Edge) (h : ofJson? j = some e) : e.Fits := by
  simp only [ofJson?, Option.bind_eq_bind, Option.bind_eq_some_iff] at h
  obtain ⟨fields, -, h⟩ := h
  split at h
  · simp only [Option.pure_def, Option.bind_eq_some_iff, Option.some.injEq] at h
    obtain ⟨id, hid, kind, -, src, hsrc, dst, hdst, offset, -, site, hsite, rfl⟩ := h
    refine ⟨Json.Field.of_required Json.isWord_of_toId hid,
      Json.Field.of_required Json.isWord_of_toId hsrc,
      Json.Field.of_required Json.isWord_of_toId hdst, ?_⟩
    exact Json.Field.of_withDefault (P := fun o : Option CallSiteId => ∀ c ∈ o, IsWord c)
      (fun _ _ => Json.forall_of_toOption Json.isWord_of_toId) (by simp) hsite
  · cases h

end Edge

/-! ## Graphs -/

namespace AssignmentGraph

theorem plain_toJson (g : AssignmentGraph) : Plain g.toJson := by
  refine plain_record ?_
  simp only [List.forall_mem_cons, List.not_mem_nil, false_imp_iff, implies_true, and_true]
  exact ⟨plain_array Node.plain_toJson _, plain_array Edge.plain_toJson _,
    plain_array MemObject.plain_toJson _⟩

theorem ofJson?_toJson {g : AssignmentGraph} (h : g.Fits) : ofJson? g.toJson = some g := by
  have hnodes : Json.toListOf Node.ofJson? (.array (g.nodes.toList.map Node.toJson)) =
      some g.nodes.toList :=
    Json.toListOf_array fun n hn => Node.ofJson?_toJson (h.nodes n (by simpa using hn))
  have hedges : Json.toListOf Edge.ofJson? (.array (g.edges.toList.map Edge.toJson)) =
      some g.edges.toList :=
    Json.toListOf_array fun e he => Edge.ofJson?_toJson (h.edges e (by simpa using he))
  have hobjects : Json.toListOf MemObject.ofJson? (.array (g.memObjs.toList.map MemObject.toJson)) =
      some g.memObjs.toList :=
    Json.toListOf_array fun m hm => MemObject.ofJson?_toJson (h.memObjs m (by simpa using hm))
  simp [ofJson?, toJson, Json.fields_record, Json.Field.required, hnodes, hedges, hobjects]

theorem fits_of_ofJson? {j : Json} {g : AssignmentGraph} (h : ofJson? j = some g) : g.Fits := by
  simp only [ofJson?, Option.bind_eq_bind, Option.bind_eq_some_iff] at h
  obtain ⟨fields, -, h⟩ := h
  split at h
  · simp only [Option.pure_def, Option.bind_eq_some_iff, Option.some.injEq] at h
    obtain ⟨nodes, hnodes, edges, hedges, memObjs, hobjects, rfl⟩ := h
    have hnodes' := Json.Field.of_required (P := fun ns : List Node => ∀ n ∈ ns, n.Fits)
      (fun _ _ => Json.forall_of_toListOf Node.fits_of_ofJson?) hnodes
    have hedges' := Json.Field.of_required (P := fun es : List Edge => ∀ e ∈ es, e.Fits)
      (fun _ _ => Json.forall_of_toListOf Edge.fits_of_ofJson?) hedges
    have hobjects' := Json.Field.of_required (P := fun ms : List MemObject => ∀ m ∈ ms, m.Fits)
      (fun _ _ => Json.forall_of_toListOf MemObject.fits_of_ofJson?) hobjects
    exact ⟨by simpa using hnodes', by simpa using hedges', by simpa using hobjects'⟩
  · cases h

/-- A text is accepted exactly if it denotes a graph and the graph has no defect. -/
theorem parse_eq_ok_iff {s : String} {g : AssignmentGraph} :
    parse s = .ok g ↔ (Json.parse s).bind ofJson? = some g ∧ g.check = .ok () := by
  rw [parse]
  cases hdenotes : (Json.parse s).bind ofJson? with
  | none => simp
  | some g' =>
      cases hcheck : g'.check with
      | ok _ =>
          simp only [hcheck, Except.ok.injEq, Option.some.injEq]
          exact ⟨fun h => ⟨h, h ▸ hcheck⟩, And.left⟩
      | error d =>
          simp only [hcheck, reduceCtorEq, Option.some.injEq, false_iff, not_and]
          rintro rfl
          simp [hcheck]

theorem parse_render_of_fits {g : AssignmentGraph} (h : g.Fits) (hcheck : g.check = .ok ()) :
    parse g.render = .ok g := by
  rw [parse_eq_ok_iff, render, Json.parse_render g.plain_toJson]
  exact ⟨ofJson?_toJson h, hcheck⟩

theorem fits_of_parse {s : String} {g : AssignmentGraph} (h : parse s = .ok g) : g.Fits := by
  obtain ⟨hdenotes, -⟩ := parse_eq_ok_iff.mp h
  obtain ⟨j, -, hj⟩ := Option.bind_eq_some_iff.mp hdenotes
  exact fits_of_ofJson? hj

/-- Every graph with identifiers in range and without a defect is read back from its written form;
and whatever form a text has, the graph that it denotes has no defect, has identifiers in range, and
is read back from its own written form. -/
theorem parse_render_round_trips :
    (∀ g : AssignmentGraph, g.Fits → g.check = .ok () → parse g.render = .ok g) ∧
      ∀ (s : String) (g : AssignmentGraph), parse s = .ok g →
        g.check = .ok () ∧ g.Fits ∧ parse g.render = .ok g := by
  refine ⟨fun g => parse_render_of_fits, fun s g h => ?_⟩
  obtain ⟨-, hcheck⟩ := parse_eq_ok_iff.mp h
  have hfits := fits_of_parse h
  exact ⟨hcheck, hfits, parse_render_of_fits hfits hcheck⟩

/-- A graph with the largest numbers that there are, and with names full of escapes. -/
def labelled : AssignmentGraph :=
  let g := (empty.addObject (.argument 0xFFFFFFFF) 0xFFFFFFFF).2
  let g := (g.pushNode .returned (some (.function 0xFFFFFFFF)) (some 0xFFFFFFFF) ⟨0xFFFFFFFF⟩).2
  let g := (g.pushEdge .ret 5 4 ⟨0xFFFFFFFF⟩ (some 0xFFFFFFFF)).2
  { g with
    nodes := g.nodes.modify 4 fun n => { n with name := some "\"\\/\n\x1f\x7fé😀" }
    memObjs := g.memObjs.modify 0 fun m => { m with typeName := some "", isConstant := true } }

/-- A text that is not a written form: nodes as arrays or with their members in another
order, defaults left out, a member that means nothing, a kind as an object, characters given
by their numbers. -/
def respelled : String :=
  "[[[0,\"DummyObj\",null,null], [1,\x7b\"DummyObj\":null\x7d,null,7,[4294967295]],
  \x7b\"kind\":\"DummyVal\",\"x\":[-1e999,\"\\ud800\"],\"id\":2\x7d," ++
  "[3,\"DummyVal\",null,null,[0],\"\\u0022\\uD83D\\ude00\"]],[],[]]"

/-- The graph that `respelled` denotes. -/
def spelled : AssignmentGraph where
  nodes := #[
    { id := 0, kind := .dummyObject, value := none, memObj := none, offset := 0, name := none },
    { id := 1, kind := .dummyObject, value := none, memObj := some 7, offset := ⟨4294967295⟩,
      name := none },
    { id := 2, kind := .dummyValue, value := none, memObj := none, offset := 0, name := none },
    { id := 3, kind := .dummyValue, value := none, memObj := none, offset := 0,
      name := some "\"😀" }]
  edges := #[]
  memObjs := #[]

theorem parse_render_round_trips_labelled :
    parse labelled.render = .ok labelled ∧ parse respelled = .ok spelled ∧
      parse spelled.render = .ok spelled := by
  have hfits : labelled.Fits := by decide +kernel
  have hcheck : labelled.check = .ok () := by decide +kernel
  have hrespelled : parse respelled = .ok spelled := by
    rw [parse_eq_ok_iff]
    decide +kernel
  exact ⟨parse_render_round_trips.1 labelled hfits hcheck, hrespelled,
    (parse_render_round_trips.2 respelled spelled hrespelled).2.2⟩

end AssignmentGraph

end PointerAnalysis
