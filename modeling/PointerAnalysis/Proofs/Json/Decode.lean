import Mathlib.Data.Option.Basic
import PointerAnalysis.Json.Decode

/-!
Reading data out of the values that were made for it. A record gives back its fields, a list
its items, and a value that may be absent what it was made from. Conversely, whatever holds of
all that can be read from a single value holds of all that is read from a list or from the
fields of a record.
-/

namespace PointerAnalysis.Json

variable {α : Type} {read : Json → Option α} {write : α → Json} {P : α → Prop}

/-! ## Single values -/

theorem toId_natural {n : Nat} (h : n < 0x100000000) : toId (.natural n) = some n := if_pos h

theorem lt_of_toId {j : Json} {n : Nat} (h : j.toId = some n) : n < 0x100000000 := by
  cases j with
  | natural m =>
      simp only [toId, toNatBelow, Option.ite_none_right_eq_some, Option.some.injEq] at h
      exact h.2 ▸ h.1
  | _ => simp [toId, toNatBelow] at h

theorem toWord_natural (w : UInt32) : toWord (.natural w.toNat) = some w := by
  rw [toWord, toId_natural w.toNat_lt]
  simp

theorem toOption_nullable {o : Option α} (hnull : ∀ a, write a ≠ .null)
    (h : ∀ a ∈ o, read (write a) = some a) : toOption read (nullable write o) = some o := by
  cases o with
  | none => rfl
  | some a => simp [nullable, toOption, hnull a, h a rfl]

theorem forall_of_toOption (hread : ∀ j a, read j = some a → P a) {j : Json} {o : Option α}
    (h : toOption read j = some o) : ∀ a ∈ o, P a := by
  intro a ha
  cases ha
  by_cases hj : j = .null
  · simp [hj, toOption] at h
  · have hsome : (read j).map some = some (some a) := by simpa [toOption, hj] using h
    simp only [Option.map_eq_some_iff, Option.some.injEq, exists_eq_right] at hsome
    exact hread j a hsome

/-! ## Lists -/

theorem toListOf_array {xs : List α} (h : ∀ x ∈ xs, read (write x) = some x) :
    toListOf read (.array (xs.map write)) = some xs := by
  induction xs with
  | nil => simp [toListOf]
  | cons x xs ih =>
      have hx := h x List.mem_cons_self
      have hxs := ih fun y hy => h y (List.mem_cons_of_mem x hy)
      simp only [toListOf] at hxs
      simp [toListOf, List.mapM_cons, hx, hxs]

theorem forall_of_mapM (hread : ∀ j a, read j = some a → P a) {js : List Json} {xs : List α}
    (h : js.mapM read = some xs) : ∀ x ∈ xs, P x := by
  induction js generalizing xs with
  | nil =>
      obtain rfl : [] = xs := by simpa using h
      simp
  | cons j js ih =>
      simp only [List.mapM_cons, Option.bind_eq_bind, Option.pure_def, Option.bind_eq_some_iff,
        Option.some.injEq] at h
      obtain ⟨y, hy, ys, hys, rfl⟩ := h
      simpa using ⟨hread j y hy, ih hys⟩

theorem forall_of_toListOf (hread : ∀ j a, read j = some a → P a) {j : Json} {xs : List α}
    (h : toListOf read j = some xs) : ∀ x ∈ xs, P x := by
  cases j with
  | array items => exact forall_of_mapM hread h
  | _ => simp [toListOf] at h

/-! ## Records -/

theorem Field.of_required (hread : ∀ j a, read j = some a → P a) {f : Field} {a : α}
    (h : f.required read = some a) : P a := by
  cases f with
  | present j => exact hread j a h
  | _ => simp [required] at h

theorem Field.of_optional (hread : ∀ j a, read j = some a → P a) {f : Field} {o : Option α}
    (h : f.optional read = some o) : ∀ a ∈ o, P a := by
  cases f with
  | present j => exact forall_of_toOption hread h
  | omitted =>
      obtain rfl : none = o := by simpa [optional] using h
      simp
  | cutOff => simp [optional] at h

theorem Field.of_withDefault (hread : ∀ j a, read j = some a → P a) {default : α}
    (hdefault : P default) {f : Field} {a : α} (h : f.withDefault default read = some a) : P a := by
  cases f with
  | present j => exact hread j a h
  | _ =>
      obtain rfl : default = a := by simpa [withDefault] using h
      exact hdefault

/-- A member of an object is found if no other one has its key. -/
theorem fieldOf_of_nodup {ms : List (String × Json)} (hkeys : (ms.map Prod.fst).Nodup) {k : String}
    {v : Json} (h : (k, v) ∈ ms) :
    fieldOf (ms.map fun m => (some m.1, m.2)) k = some (.present v) := by
  have hfilter : ms.filter (·.1 == k) = [(k, v)] := by
    induction ms with
    | nil => simp at h
    | cons m ms ih =>
        obtain ⟨hout, hkeys⟩ := List.nodup_cons.mp hkeys
        rcases List.mem_cons.mp h with rfl | h
        · have hnone : ∀ m ∈ ms, ¬ m.1 = k := fun m hm heq =>
            hout (List.mem_map.mpr ⟨m, hm, heq⟩)
          simpa using hnone
        · have hne : ¬ m.1 = k := fun heq =>
            hout (heq ▸ List.mem_map.mpr ⟨(k, v), h, rfl⟩)
          simpa [hne] using ih hkeys h
  simp [fieldOf, List.filter_map, Function.comp_def, hfilter]

/-- A record gives back its fields. -/
theorem fields_record {ms : List (String × Json)} {names : List String}
    (hnames : names = ms.map Prod.fst) (hkeys : names.Nodup) :
    (record ms).fields names = some (ms.map fun m => .present m.2) := by
  subst hnames
  have hall : (ms.map fun m => ((some m.1 : Option String), m.2)).all (·.1.isSome) = true := by
    simp
  have hfields : ∀ part : List (String × Json), (∀ m ∈ part, m ∈ ms) →
      (part.map Prod.fst).mapM (fieldOf (ms.map fun m => (some m.1, m.2))) =
        some (part.map fun m => .present m.2) := by
    intro part hpart
    induction part with
    | nil => simp
    | cons m part ih =>
        have hm := fieldOf_of_nodup hkeys (hpart m List.mem_cons_self)
        have hrest := ih fun m' hm' => hpart m' (List.mem_cons_of_mem m hm')
        simp [List.mapM_cons, hm, hrest]
  simp only [fields, record, hall]
  simpa [guard] using hfields ms fun _ h => h

end PointerAnalysis.Json
