import Mathlib.Data.List.Lex
import Mathlib.Data.Prod.Lex

/-!
# Paths

Paths of the standard library are compared by their components: repeated separators, a separator at the end, and `.`
except at the start do not count, and the order is that of the components, one after the other.  A path is given here
by its components, so two paths that compare as equal are equal.
-/

namespace IrohBlobs

/-- A component of a path, in the order in which components compare.  Names are compared by their bytes. -/
inductive Component
  | rootDir
  | curDir
  | parentDir
  | normal (name : List UInt8)
  deriving DecidableEq

namespace Component

/-- The position of a component in the order. -/
def key : Component → Nat ×ₗ List Nat
  | .rootDir => toLex (0, [])
  | .curDir => toLex (1, [])
  | .parentDir => toLex (2, [])
  | .normal name => toLex (3, name.map UInt8.toNat)

private theorem key_injective : Function.Injective key := by
  intro a b h
  have hpair : ofLex a.key = ofLex b.key := by rw [h]
  cases a <;> cases b <;> simp only [key, ofLex_toLex, Prod.mk.injEq, reduceCtorEq, Nat.reduceEqDiff, false_and,
    true_and] at hpair <;>
    try rfl
  rename_i name name'
  rw [List.map_injective_iff.mpr (fun _ _ => UInt8.toNat_inj.mp) hpair]

instance : LinearOrder Component := LinearOrder.lift' key key_injective

/-- Only the first component can be the root or the current directory. -/
def isLater : Component → Bool
  | .rootDir | .curDir => false
  | .parentDir | .normal _ => true

end Component

structure PathBuf where
  components : List Component
  valid : ∀ c ∈ components.tail, c.isLater = true

namespace PathBuf

private theorem components_injective : Function.Injective components := by
  rintro ⟨_, _⟩ ⟨_, _⟩ rfl
  rfl

instance : LinearOrder PathBuf := LinearOrder.lift' components components_injective

/-- The components after the first one, from the parts between the separators. -/
def laterComponents (parts : List (List UInt8)) : List Component :=
  parts.filterMap fun part =>
    if part = [] ∨ part = [46] then none else if part = [46, 46] then some .parentDir else some (.normal part)

/-- `Path::components` -/
def parse (bytes : List UInt8) : List Component :=
  match bytes.splitOn 47 with
  | [] :: rest => if rest = [] then [] else .rootDir :: laterComponents rest
  | [46] :: rest => .curDir :: laterComponents rest
  | parts => laterComponents parts

private theorem isLater_of_mem {parts : List (List UInt8)} {c : Component} (h : c ∈ laterComponents parts) :
    c.isLater = true := by
  obtain ⟨part, -, hc⟩ := List.mem_filterMap.mp h
  split at hc
  · cases hc
  · split at hc <;> cases hc <;> rfl

private theorem isLater_parse (bytes : List UInt8) : ∀ c ∈ (parse bytes).tail, c.isLater = true := by
  intro c hc
  unfold parse at hc
  split at hc
  · split at hc
    · cases hc
    · exact isLater_of_mem hc
  · exact isLater_of_mem hc
  · exact isLater_of_mem (List.mem_of_mem_tail hc)

/-- The path with the given bytes. -/
def ofBytes (bytes : List UInt8) : PathBuf := ⟨parse bytes, isLater_parse bytes⟩

-- `/d//f` is the path `/d/f`, and `/d/a/b` comes before `/d/a.b`
example : ofBytes [47, 100, 47, 47, 102] = ofBytes [47, 100, 47, 102] := by decide
example : ofBytes [47, 100, 47, 97, 47, 98] < ofBytes [47, 100, 47, 97, 46, 98] := by decide

end PathBuf

end IrohBlobs
