import Mathlib.Tactic

/-!
# Loops with a bounded number of rounds

A loop that may run forever is a function of the number of rounds it may run, which returns nothing when the rounds do
not suffice.  `Returns f a` says that the loop ends with `a`.
-/

namespace Fuel

variable {α β : Type}

/-- The loop returns `a` if it may run for enough rounds. -/
def Returns (f : Nat → Option α) (a : α) : Prop := ∃ rounds, ∀ fuel, rounds ≤ fuel → f fuel = some a

/-- A loop that returns in its first round. -/
theorem returns_of_succ {f : Nat → Option α} {a : α} (h : ∀ fuel, f (fuel + 1) = some a) : Returns f a := by
  refine ⟨1, fun fuel hfuel => ?_⟩
  obtain ⟨fuel, rfl⟩ : ∃ fuel', fuel = fuel' + 1 := ⟨fuel - 1, by omega⟩
  exact h fuel

/-- A loop whose first round leads to a loop that returns. -/
theorem Returns.step {f g : Nat → Option α} {a : α} (hg : Returns g a) (h : ∀ fuel, f (fuel + 1) = g fuel) :
    Returns f a := by
  obtain ⟨rounds, hg⟩ := hg
  refine ⟨rounds + 1, fun fuel hfuel => ?_⟩
  obtain ⟨fuel, rfl⟩ : ∃ fuel', fuel = fuel' + 1 := ⟨fuel - 1, by omega⟩
  rw [h, hg fuel (by omega)]

/-- One loop after the other. -/
theorem Returns.bind {f : Nat → Option α} {g : α → Nat → Option β} {a : α} {b : β} (hf : Returns f a)
    (hg : Returns (g a) b) : Returns (fun fuel => (f fuel).bind (fun x => g x fuel)) b := by
  obtain ⟨rounds, hf⟩ := hf
  obtain ⟨rounds', hg⟩ := hg
  refine ⟨max rounds rounds', fun fuel hfuel => ?_⟩
  show (f fuel).bind (fun x => g x fuel) = some b
  rw [hf fuel (by omega), Option.bind_some, hg fuel (by omega)]

theorem Returns.unique {f : Nat → Option α} {a b : α} (ha : Returns f a) (hb : Returns f b) : a = b := by
  obtain ⟨rounds, ha⟩ := ha
  obtain ⟨rounds', hb⟩ := hb
  have := hb (max rounds rounds') (by omega)
  rw [ha _ (by omega), Option.some.injEq] at this
  exact this

/-- More rounds do not change the result. -/
def Stable (f : Nat → Option α) : Prop := ∀ fuel a, f fuel = some a → f (fuel + 1) = some a

theorem Stable.returns {f : Nat → Option α} {fuel : Nat} {a : α} (h : Stable f)
    (hf : f fuel = some a) : Returns f a := by
  refine ⟨fuel, fun fuel' hle => ?_⟩
  induction fuel', hle using Nat.le_induction with
  | base => exact hf
  | succ fuel' _ ih => exact h fuel' a ih

end Fuel
