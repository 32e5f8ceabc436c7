import Mathlib.Tactic
import Mathlib.Logic.Relation
import Mathlib.Order.RelClasses

/-!
# Relations without cycles

A relation keeps being free of cycles when edges are added that leave one element for elements it
cannot be reached from.  A finite set of elements then has one that none of the others follows.
-/

namespace Acyclic

open Relation

variable {α : Type}

/-- No element follows itself. -/
def NoCycle (R : α → α → Prop) : Prop := ∀ a, ¬ TransGen R a a

variable {R R' : α → α → Prop}

/-- A path that may use new edges out of `x` uses at most one of them. -/
theorem path_cases {x : α} {targets : α → Prop} (edge : ∀ a b, R' a b → R a b ∨ a = x ∧ targets b)
    (apart : ∀ i, targets i → ¬ ReflTransGen R i x) {a b : α} (path : TransGen R' a b) :
    TransGen R a b ∨ ReflTransGen R a x ∧ ∃ i, targets i ∧ ReflTransGen R i b := by
  induction path with
  | @single b first =>
    rcases edge a b first with old | ⟨rfl, new⟩
    · exact .inl (.single old)
    · exact .inr ⟨.refl, b, new, .refl⟩
  | @tail b c _ last ih =>
    rcases edge b c last with old | ⟨rfl, new⟩
    · rcases ih with before | ⟨to_x, i, target, from_i⟩
      · exact .inl (before.tail old)
      · exact .inr ⟨to_x, i, target, from_i.tail old⟩
    · rcases ih with before | ⟨-, i, target, from_i⟩
      · exact .inr ⟨before.to_reflTransGen, c, new, .refl⟩
      · exact absurd from_i (apart i target)

/-- New edges out of `x` close no cycle if `x` is not reached from where they lead. -/
theorem NoCycle.extend (acyclic : NoCycle R) {x : α} {targets : α → Prop}
    (edge : ∀ a b, R' a b → R a b ∨ a = x ∧ targets b)
    (apart : ∀ i, targets i → ¬ ReflTransGen R i x) : NoCycle R' := by
  intro a cycle
  rcases path_cases edge apart cycle with old | ⟨to_x, i, target, from_i⟩
  · exact acyclic a old
  · exact apart i target (from_i.trans to_x)

/-- Among finitely many elements on no cycle there is one that follows none of the others. -/
theorem exists_first {s : Set α} (acyclic : ∀ a ∈ s, ¬ TransGen R a a) (finite : s.Finite)
    (some : s.Nonempty) : ∃ a ∈ s, ∀ b ∈ s, ¬ R b a := by
  have := finite.to_subtype
  let before : s → s → Prop := fun a b => TransGen R a.1 b.1
  have transitive : IsTrans s before := ⟨fun _ _ _ first second => first.trans second⟩
  have irreflexive : Std.Irrefl before := ⟨fun a => acyclic a.1 a.2⟩
  have founded : WellFounded before := Finite.wellFounded_of_trans_of_irrefl before
  obtain ⟨a, inside⟩ := some
  obtain ⟨first, -, minimal⟩ := founded.has_min Set.univ ⟨⟨a, inside⟩, trivial⟩
  exact ⟨first.1, first.2, fun b mem edge => minimal ⟨b, mem⟩ trivial (.single edge)⟩

/-- Among finitely many elements there is one that none of the others follows. -/
theorem NoCycle.exists_last (acyclic : NoCycle R) {s : Set α} (finite : s.Finite) (some : s.Nonempty) :
    ∃ a ∈ s, ∀ b ∈ s, ¬ R a b :=
  exists_first (R := Function.swap R) (fun a _ cycle => acyclic a (transGen_swap.mp cycle)) finite some

end Acyclic
