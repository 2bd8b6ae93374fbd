import Mathlib.Data.Finset.Card
import Mathlib.Logic.Relation
import PointerAnalysis.DepthFirst

/-!
Depth-first search visits exactly what can be reached. A visit with enough depth finishes with the
unseen vertices that its root reaches, and leaves no successor of theirs unseen.
-/

namespace PointerAnalysis

/-- A path in the graph of a successor function. -/
abbrev Leads (succ : Nat → List Nat) : Nat → Nat → Prop :=
  Relation.ReflTransGen fun x y => y ∈ succ x

namespace Search

variable {succ : Nat → List Nat}

/-- The targets that a search has not seen. -/
def unseen (targets : Finset Nat) (s : Search) : Finset Nat :=
  targets.filter fun x => x ∉ s.seen

theorem mem_unseen {targets : Finset Nat} {s : Search} {x : Nat} :
    x ∈ s.unseen targets ↔ x ∈ targets ∧ x ∉ s.seen := by
  simp [unseen]

/-- What a search from some roots adds: it sees the roots and what they reach, finishes with all of
it, and leaves nothing that this leads to unseen. -/
structure Explores (succ : Nat → List Nat) (roots : List Nat) (s s' : Search) : Prop where
  seen_mono : ∀ x, x ∈ s.seen → x ∈ s'.seen
  roots_seen : ∀ v ∈ roots, v ∈ s'.seen
  finished : ∃ new, s'.finished = new ++ s.finished ∧ new.Nodup ∧
    ∀ x, x ∈ new ↔ x ∈ s'.seen ∧ x ∉ s.seen
  reached : ∀ x ∈ s'.seen, x ∉ s.seen → ∃ v ∈ roots, Leads succ v x
  closed : ∀ x ∈ s'.seen, x ∉ s.seen → ∀ y ∈ succ x, y ∈ s'.seen

namespace Explores

theorem nil (s : Search) : Explores succ [] s s where
  seen_mono _ h := h
  roots_seen := by simp
  finished := ⟨[], by simp⟩
  reached x h h' := absurd h h'
  closed x h h' := absurd h h'

theorem of_seen {s : Search} {v : Nat} (h : v ∈ s.seen) : Explores succ [v] s s where
  seen_mono _ h := h
  roots_seen := by simpa using h
  finished := ⟨[], by simp⟩
  reached x h h' := absurd h h'
  closed x h h' := absurd h h'

theorem append {vs ws : List Nat} {s₁ s₂ s₃ : Search} (h₁ : Explores succ vs s₁ s₂)
    (h₂ : Explores succ ws s₂ s₃) : Explores succ (vs ++ ws) s₁ s₃ where
  seen_mono x h := h₂.seen_mono x (h₁.seen_mono x h)
  roots_seen v hv := by
    rcases List.mem_append.mp hv with hv | hv
    · exact h₂.seen_mono v (h₁.roots_seen v hv)
    · exact h₂.roots_seen v hv
  finished := by
    obtain ⟨new₁, heq₁, hnodup₁, hmem₁⟩ := h₁.finished
    obtain ⟨new₂, heq₂, hnodup₂, hmem₂⟩ := h₂.finished
    refine ⟨new₂ ++ new₁, by rw [heq₂, heq₁, List.append_assoc], ?_, ?_⟩
    · refine List.nodup_append.mpr ⟨hnodup₂, hnodup₁, ?_⟩
      rintro x hx y hy rfl
      exact ((hmem₂ x).mp hx).2 ((hmem₁ x).mp hy).1
    · intro x
      have := h₁.seen_mono x
      have := h₂.seen_mono x
      rw [List.mem_append, hmem₁, hmem₂]
      tauto
  reached x h h' := by
    by_cases hx : x ∈ s₂.seen
    · obtain ⟨v, hv, hpath⟩ := h₁.reached x hx h'
      exact ⟨v, List.mem_append_left _ hv, hpath⟩
    · obtain ⟨v, hv, hpath⟩ := h₂.reached x h hx
      exact ⟨v, List.mem_append_right _ hv, hpath⟩
  closed x h h' y hy := by
    by_cases hx : x ∈ s₂.seen
    · exact h₂.seen_mono y (h₁.closed x hx h' y hy)
    · exact h₂.closed x h hx y hy

/-- Seeing a vertex first and finishing with it after its successors is one step of a search. -/
theorem finish {s s' : Search} {v : Nat} (hv : v ∉ s.seen)
    (h : Explores succ (succ v) { s with seen := s.seen.insert v } s') :
    Explores succ [v] s { s' with finished := v :: s'.finished } where
  seen_mono x hx := h.seen_mono x (by simp [hx])
  roots_seen := by simpa using h.seen_mono v (by simp)
  finished := by
    obtain ⟨new, heq, hnodup, hmem⟩ := h.finished
    refine ⟨v :: new, by simp [heq], List.nodup_cons.mpr ⟨?_, hnodup⟩, ?_⟩
    · intro hin
      exact ((hmem v).mp hin).2 (by simp)
    · intro x
      have hseen := h.seen_mono v (by simp)
      rw [List.mem_cons, hmem]
      by_cases hx : x = v
      · subst hx
        simp [hv, hseen]
      · have : ¬ v = x := fun he => hx he.symm
        simp [hx, this]
  reached x hx hx' := by
    by_cases hxv : v = x
    · exact ⟨v, by simp, hxv ▸ .refl⟩
    · obtain ⟨w, hw, hpath⟩ := h.reached x hx (by simp [hx', hxv])
      exact ⟨v, by simp, .head hw hpath⟩
  closed x hx hx' y hy := by
    by_cases hxv : v = x
    · exact h.roots_seen y (hxv ▸ hy)
    · exact h.closed x hx (by simp [hx', hxv]) y hy

end Explores

theorem visit_of_seen {s : Search} {v : Nat} (h : v ∈ s.seen) (depth : Nat) :
    visit succ depth s v = s := by
  cases depth with
  | zero => rfl
  | succ depth => simp [visit, h]

theorem unseen_subset (targets : Finset Nat) {s s' : Search}
    (h : ∀ x, x ∈ s.seen → x ∈ s'.seen) : s'.unseen targets ⊆ s.unseen targets := by
  intro x hx
  obtain ⟨htarget, hnot⟩ := mem_unseen.mp hx
  exact mem_unseen.mpr ⟨htarget, fun hs => hnot (h x hs)⟩

variable {targets : Finset Nat} {depth : Nat}

/-- The depth is enough to visit a vertex: it exceeds the number of other targets left, or the
vertex was seen before. -/
def Affordable (targets : Finset Nat) (depth : Nat) (s : Search) (v : Nat) : Prop :=
  v ∈ s.seen ∨ ((s.unseen targets).erase v).card < depth

theorem Affordable.mono {s s' : Search} {v : Nat} (hseen : ∀ x, x ∈ s.seen → x ∈ s'.seen)
    (h : Affordable targets depth s v) : Affordable targets depth s' v := by
  rcases h with h | h
  · exact .inl (hseen v h)
  · have hsub := Finset.erase_subset_erase v (unseen_subset targets hseen)
    exact .inr ((Finset.card_le_card hsub).trans_lt h)

/-- Having seen a vertex leaves one level less to pay for each of its successors. -/
theorem affordable_succ (hsucc : ∀ x, ∀ y ∈ succ x, y ∈ targets) {s : Search} {v w : Nat}
    (hv : v ∉ s.seen) (h : Affordable targets (depth + 1) s v) (hw : w ∈ succ v) :
    Affordable targets depth { s with seen := s.seen.insert v } w := by
  by_cases hw' : w ∈ s.seen.insert v
  · exact .inl hw'
  · have hlt := h.resolve_left hv
    have hmem : w ∈ Search.unseen targets { s with seen := s.seen.insert v } :=
      mem_unseen.mpr ⟨hsucc v w hw, hw'⟩
    have hsub : Search.unseen targets { s with seen := s.seen.insert v } ⊆
        (s.unseen targets).erase v := by
      intro x hx
      obtain ⟨htarget, hnot⟩ := mem_unseen.mp hx
      simp only [Std.TreeSet.mem_insert, not_or] at hnot
      simp only [Finset.mem_erase, mem_unseen]
      exact ⟨fun he => hnot.1 (by simp [he]), htarget, hnot.2⟩
    have hcard := Finset.card_erase_lt_of_mem hmem
    exact .inr (hcard.trans_le ((Finset.card_le_card hsub).trans (Nat.lt_succ_iff.mp hlt)))

/-- Visiting several vertices in turn, given that single visits do their work. -/
theorem foldl_explores
    (hvisit : ∀ s v, Affordable targets depth s v → Explores succ [v] s (visit succ depth s v))
    (vs : List Nat) (s : Search) (hvs : ∀ v ∈ vs, Affordable targets depth s v) :
    Explores succ vs s (vs.foldl (visit succ depth) s) := by
  induction vs generalizing s with
  | nil => exact .nil s
  | cons v vs ih =>
      have hfirst := hvisit s v (hvs v List.mem_cons_self)
      exact hfirst.append
        (ih _ fun w hw => (hvs w (List.mem_cons_of_mem v hw)).mono hfirst.seen_mono)

/-- A visit explores what its root reaches. -/
theorem visit_explores (hsucc : ∀ x, ∀ y ∈ succ x, y ∈ targets) (depth : Nat) (s : Search) (v : Nat)
    (hdepth : Affordable targets depth s v) : Explores succ [v] s (visit succ depth s v) := by
  induction depth generalizing s v with
  | zero =>
      rcases hdepth with hv | hlt
      · exact .of_seen hv
      · exact absurd hlt (Nat.not_lt_zero _)
  | succ depth ih =>
      by_cases hv : v ∈ s.seen
      · rw [visit_of_seen hv]
        exact .of_seen hv
      · rw [visit, if_neg hv]
        exact .finish hv
          (foldl_explores ih (succ v) _ fun w hw => affordable_succ hsucc hv hdepth hw)

end Search

end PointerAnalysis
