import IrohBlobs.Meta
import IrohBlobs.Bracketing

/-!
# The union of entry states

Updates of an entry arrive in any order, and `EntryState::union` combines each with what is there.  If the sizes that
the states know agree, then the result does not depend on the order, on the bracketing, or on repetitions: the data
that the result has is a function of the set of the states (`unionData`).  Only the location of the outboard depends
on the order.
-/

namespace IrohBlobs

namespace Meta

namespace EntryState

variable {I : Type}

def dataLocation : EntryState I → Option (DataLocation I)
  | .complete dataLocation _ => some dataLocation
  | .partialState _ => none

def ownedSize : EntryState I → Option Nat
  | .complete (.owned size) _ => some size
  | _ => none

def isInline : EntryState I → Bool
  | .complete (.inline _) _ => true
  | _ => false

def externalSize : EntryState I → Option Nat
  | .complete (.external _ size) _ => some size
  | _ => none

def partialSize : EntryState I → Option Nat
  | .partialState size => size
  | _ => none

def paths : EntryState I → List PathBuf
  | .complete (.external paths _) _ => paths
  | _ => []

/-- The size that the state knows.  That of inline data is not part of the state. -/
def knownSize : EntryState I → Option Nat
  | .complete (.inline _) _ => none
  | .complete (.owned size) _ => some size
  | .complete (.external _ size) _ => some size
  | .partialState size => size

end EntryState

/-! ### What a set of states says -/

section Spec

variable (states : List (EntryState Unit))

/-- The sorted union of all external paths, without repetitions. -/
def unionPaths : List PathBuf := (states.flatMap EntryState.paths).toFinset.sort (· ≤ ·)

/-- Owned data wins over inline data, and inline data over external data. -/
def unionData : Option (DataLocation Unit) :=
  match states.findSome? EntryState.ownedSize, states.any EntryState.isInline,
    states.findSome? EntryState.externalSize with
  | some size, _, _ => some (.owned size)
  | none, true, _ => some (.inline ())
  | none, false, some size => some (.external (unionPaths states) size)
  | none, false, none => none

/-- The size of the data, or else the validated size of a partial state. -/
def unionSize : Option Nat :=
  match unionData states with
  | some (.inline _) => none
  | some (.owned size) => some size
  | some (.external _ size) => some size
  | none => states.findSome? EntryState.partialSize

/-- The known sizes agree. -/
def SizesAgree : Prop := ∀ s ∈ states, ∀ t ∈ states, ∀ m n, s.knownSize = some m → t.knownSize = some n → m = n

/-- External paths are sorted and free of repetitions. -/
def PathsSorted : Prop := ∀ s ∈ states, s.paths.Pairwise (· < ·)

end Spec

/-- The sizes of two states that decide their union: those of two external locations, or two validated sizes. -/
def decidingSizes : EntryState Unit → EntryState Unit → Option (Nat × Nat)
  | .complete (.external _ m) _, .complete (.external _ n) _ => some (m, n)
  | .partialState (some m), .partialState (some n) => some (m, n)
  | _, _ => none

/-! ### One union -/

section Union

variable {states xs ys : List (EntryState Unit)} {s : EntryState Unit} {n : Nat}

/-- Every size that is known is the given one. -/
def SizesAre (n : Nat) (states : List (EntryState Unit)) : Prop := ∀ s ∈ states, ∀ m, s.knownSize = some m → m = n

private theorem SizesAgree.sizesAre (h : SizesAgree states) : ∃ n, SizesAre n states := by
  by_cases hknown : ∃ s ∈ states, ∃ n, s.knownSize = some n
  · obtain ⟨s, hs, n, hn⟩ := hknown
    exact ⟨n, fun t ht m hm => h t ht s hs m n hm hn⟩
  · push Not at hknown
    exact ⟨0, fun s hs m hm => absurd hm (hknown s hs m)⟩

private theorem size_of_findSome {f : EntryState Unit → Option Nat} (hf : ∀ s m, f s = some m → s.knownSize = some m)
    (h : SizesAre n states) {m : Nat} (hm : states.findSome? f = some m) : m = n := by
  obtain ⟨s, hs, hsm⟩ := List.exists_of_findSome?_eq_some hm
  exact h s hs m (hf s m hsm)

private theorem knownSize_of_ownedSize (s : EntryState Unit) (m : Nat) (h : s.ownedSize = some m) :
    s.knownSize = some m := by
  rcases s with ⟨_ | _ | _, _⟩ | _ <;> simp_all [EntryState.ownedSize, EntryState.knownSize]

private theorem knownSize_of_externalSize (s : EntryState Unit) (m : Nat) (h : s.externalSize = some m) :
    s.knownSize = some m := by
  rcases s with ⟨_ | _ | _, _⟩ | _ <;> simp_all [EntryState.externalSize, EntryState.knownSize]

private theorem knownSize_of_partialSize (s : EntryState Unit) (m : Nat) (h : s.partialSize = some m) :
    s.knownSize = some m := by
  rcases s with ⟨_ | _ | _, _⟩ | _ <;> simp_all [EntryState.partialSize, EntryState.knownSize]

/-- What decides the data of the union. -/
private theorem unionData_cases (h : SizesAre n states) :
    (states.findSome? EntryState.ownedSize = some n ∧ unionData states = some (.owned n)) ∨
    (states.findSome? EntryState.ownedSize = none ∧ states.any EntryState.isInline = true ∧
      unionData states = some (.inline ())) ∨
    (states.findSome? EntryState.ownedSize = none ∧ states.any EntryState.isInline = false ∧
      states.findSome? EntryState.externalSize = some n ∧ unionData states = some (.external (unionPaths states) n)) ∨
    (states.findSome? EntryState.ownedSize = none ∧ states.any EntryState.isInline = false ∧
      states.findSome? EntryState.externalSize = none ∧ unionData states = none) := by
  cases howned : states.findSome? EntryState.ownedSize with
  | some m =>
    have hm := size_of_findSome knownSize_of_ownedSize h howned
    subst hm
    exact Or.inl ⟨rfl, by simp [unionData, howned]⟩
  | none =>
    cases hinline : states.any EntryState.isInline with
    | true => exact Or.inr (Or.inl ⟨rfl, rfl, by simp only [unionData, howned, hinline]⟩)
    | false =>
      cases hext : states.findSome? EntryState.externalSize with
      | some m =>
        have hm := size_of_findSome knownSize_of_externalSize h hext
        subst hm
        exact Or.inr (Or.inr (Or.inl ⟨rfl, rfl, rfl, by simp only [unionData, howned, hinline, hext]⟩))
      | none => exact Or.inr (Or.inr (Or.inr ⟨rfl, rfl, rfl, by simp only [unionData, howned, hinline, hext]⟩))

/-- Without external data there are no paths. -/
private theorem flatMap_paths_of_externalSize (h : states.findSome? EntryState.externalSize = none) :
    states.flatMap EntryState.paths = [] := by
  rw [List.findSome?_eq_none_iff] at h
  rw [List.flatMap_eq_nil_iff]
  intro s hs
  have hsize := h s hs
  rcases s with ⟨_ | _ | _, _⟩ | _ <;> simp_all [EntryState.externalSize, EntryState.paths]

private theorem unionPaths_append_left (h : xs.findSome? EntryState.externalSize = none) :
    unionPaths (xs ++ ys) = unionPaths ys := by
  simp [unionPaths, flatMap_paths_of_externalSize h]

private theorem unionPaths_append_right (h : ys.findSome? EntryState.externalSize = none) :
    unionPaths (xs ++ ys) = unionPaths xs := by
  simp [unionPaths, flatMap_paths_of_externalSize h]

private theorem sortedUnion_unionPaths :
    ((unionPaths xs ++ unionPaths ys).mergeSort (fun a b => decide (a ≤ b))).eraseReps = unionPaths (xs ++ ys) := by
  rw [eraseReps_mergeSort]
  simp only [unionPaths, List.toFinset_append, Finset.sort_toFinset, List.flatMap_append]

/-- The state represents the given states: it has their data and their size. -/
structure Represents (n : Nat) (r : EntryState Unit) (states : List (EntryState Unit)) : Prop where
  sizes : SizesAre n states
  isComplete : r.isComplete = states.any EntryState.isComplete
  data : r.dataLocation = unionData states
  partialSize : unionData states = none → r.partialSize = states.findSome? EntryState.partialSize

private theorem SizesAre.append (hx : SizesAre n xs) (hy : SizesAre n ys) : SizesAre n (xs ++ ys) := by
  intro s hs
  rcases List.mem_append.mp hs with hs | hs
  · exact hx s hs
  · exact hy s hs

/-- The data of a union is the union of the data. -/
private theorem union_data (hx : SizesAre n xs) (hy : SizesAre n ys) {a b : DataLocation Unit}
    (ha : unionData xs = some a)
    (hb : unionData ys = some b) : ∃ r, a.union b = .ok r ∧ unionData (xs ++ ys) = some r := by
  rcases unionData_cases hx with ⟨hxo, hxd⟩ | ⟨hxo, hxi, hxd⟩ | ⟨hxo, hxi, hxe, hxd⟩ | ⟨-, -, -, hxd⟩ <;>
    rw [hxd] at ha <;> cases ha <;>
    rcases unionData_cases hy with ⟨hyo, hyd⟩ | ⟨hyo, hyi, hyd⟩ | ⟨hyo, hyi, hye, hyd⟩ | ⟨-, -, -, hyd⟩ <;>
    rw [hyd] at hb <;> cases hb
  case inr.inr.inl.refl.inr.inr.inl.refl =>
    refine ⟨_, by simp only [DataLocation.union, ne_eq, not_true_eq_false, if_false]; rfl, ?_⟩
    rw [sortedUnion_unionPaths]
    simp [unionData, List.findSome?_append, hxo, hyo, hxi, hyi, hxe]
  all_goals
    refine ⟨_, rfl, ?_⟩
    simp only [unionData, List.findSome?_append, List.any_append, *, Option.some_or, Option.none_or, Bool.true_or,
      Bool.or_true]

private theorem unionData_append_left (ys) (hx : SizesAre n xs) (h : unionData xs = none) :
    unionData (xs ++ ys) = unionData ys := by
  rcases unionData_cases hx with ⟨-, hxd⟩ | ⟨-, -, hxd⟩ | ⟨-, -, -, hxd⟩ | ⟨hxo, hxi, hxe, -⟩
  · rw [h] at hxd; cases hxd
  · rw [h] at hxd; cases hxd
  · rw [h] at hxd; cases hxd
  · simp only [unionData, List.findSome?_append, List.any_append, hxo, hxi, hxe, Option.none_or, Bool.false_or,
      unionPaths_append_left hxe]

private theorem unionData_append_right (xs) (hy : SizesAre n ys) (h : unionData ys = none) :
    unionData (xs ++ ys) = unionData xs := by
  rcases unionData_cases hy with ⟨-, hyd⟩ | ⟨-, -, hyd⟩ | ⟨-, -, -, hyd⟩ | ⟨hyo, hyi, hye, -⟩
  · rw [h] at hyd; cases hyd
  · rw [h] at hyd; cases hyd
  · rw [h] at hyd; cases hyd
  · simp only [unionData, List.findSome?_append, List.any_append, hyo, hyi, hye, Option.or_none, Bool.or_false,
      unionPaths_append_right hye]

private theorem Represents.one (h : SizesAre n [s]) (hs : s.paths.Pairwise (· < ·)) : Represents n s [s] := by
  refine ⟨h, by simp, ?_, by simp⟩
  rcases s with ⟨_ | _ | ⟨paths, size⟩, _⟩ | _
  · rfl
  · rfl
  · simp only [EntryState.paths] at hs
    simp [unionData, unionPaths, EntryState.dataLocation, EntryState.ownedSize, EntryState.isInline,
      EntryState.externalSize, EntryState.paths, sort_toFinset_of_pairwise hs]
  · rfl

private theorem Represents.union {a b : EntryState Unit} (ha : Represents n a xs) (hb : Represents n b ys) :
    ∃ r, a.union b = .ok r ∧ Represents n r (xs ++ ys) := by
  have hsizes := ha.sizes.append hb.sizes
  have hadata := ha.data
  have hbdata := hb.data
  have hacomplete := ha.isComplete
  have hbcomplete := hb.isComplete
  cases a with
  | complete da oa =>
    cases b with
    | complete db ob =>
      obtain ⟨d, hd, hdata⟩ := union_data ha.sizes hb.sizes hadata.symm hbdata.symm
      refine ⟨.complete d oa, by simp only [EntryState.union, hd], hsizes, ?_, hdata.symm, ?_⟩
      · simp [List.any_append, ← hacomplete, EntryState.isComplete]
      · simp [hdata]
    | partialState sb =>
      have hdata := unionData_append_right xs hb.sizes hbdata.symm
      refine ⟨.complete da oa, rfl, hsizes, ?_, hadata.trans hdata.symm, ?_⟩
      · simp [List.any_append, ← hacomplete, EntryState.isComplete]
      · simp [hdata, ← hadata, EntryState.dataLocation]
  | partialState sa =>
    have hdata := unionData_append_left ys ha.sizes hadata.symm
    cases b with
    | complete db ob =>
      refine ⟨.complete db ob, rfl, hsizes, ?_, hbdata.trans hdata.symm, ?_⟩
      · simp [List.any_append, ← hbcomplete, EntryState.isComplete]
      · simp [hdata, ← hbdata, EntryState.dataLocation]
    | partialState sb =>
      have hsa : sa = xs.findSome? EntryState.partialSize := ha.partialSize hadata.symm
      have hsb : sb = ys.findSome? EntryState.partialSize := hb.partialSize hbdata.symm
      have hcomplete : (xs ++ ys).any EntryState.isComplete = false := by
        simp [List.any_append, ← hacomplete, ← hbcomplete, EntryState.isComplete]
      have hfind : (xs ++ ys).findSome? EntryState.partialSize = sa.or sb := by rw [List.findSome?_append, hsa, hsb]
      refine ⟨.partialState (sa.or sb), ?_, hsizes, hcomplete.symm, hbdata.trans hdata.symm, fun _ => hfind.symm⟩
      cases sa with
      | none => simp [EntryState.union]
      | some m =>
        cases sb with
        | none => rfl
        | some k =>
          have hm := size_of_findSome knownSize_of_partialSize ha.sizes hsa.symm
          have hk := size_of_findSome knownSize_of_partialSize hb.sizes hsb.symm
          simp [EntryState.union, hm, hk]

end Union

/-! ### Any bracketing -/

section Bracketings

variable {states xs ys : List (EntryState Unit)} {n : Nat}

private theorem findSome_congr {f : EntryState Unit → Option Nat} (hf : ∀ s m, f s = some m → s.knownSize = some m)
    (h : ∀ s, s ∈ xs ↔ s ∈ ys) (hx : SizesAre n xs) : xs.findSome? f = ys.findSome? f := by
  have hy : SizesAre n ys := fun s hs => hx s ((h s).mpr hs)
  cases hxf : xs.findSome? f with
  | none =>
    rw [List.findSome?_eq_none_iff] at hxf
    exact (List.findSome?_eq_none_iff.mpr fun s hs => hxf s ((h s).mpr hs)).symm
  | some m =>
    obtain ⟨s, hs, hsm⟩ := List.exists_of_findSome?_eq_some hxf
    cases hyf : ys.findSome? f with
    | none => rw [List.findSome?_eq_none_iff.mp hyf s ((h s).mp hs)] at hsm; cases hsm
    | some k => rw [size_of_findSome hf hx hxf, size_of_findSome hf hy hyf]

private theorem any_congr {p : EntryState Unit → Bool} (h : ∀ s, s ∈ xs ↔ s ∈ ys) : xs.any p = ys.any p := by
  rw [Bool.eq_iff_iff, List.any_eq_true, List.any_eq_true]
  simp only [h]

/-- What the states say depends only on the set of them. -/
private theorem unionData_congr (h : ∀ s, s ∈ xs ↔ s ∈ ys) (hx : SizesAre n xs) : unionData xs = unionData ys := by
  have hpaths : unionPaths xs = unionPaths ys := by
    have hset : (xs.flatMap EntryState.paths).toFinset = (ys.flatMap EntryState.paths).toFinset := by
      ext p
      simp only [List.mem_toFinset, List.mem_flatMap, h]
    rw [unionPaths, hset, unionPaths]
  simp only [unionData, findSome_congr knownSize_of_ownedSize h hx, findSome_congr knownSize_of_externalSize h hx,
    any_congr h, hpaths]

private theorem Represents.congr {r : EntryState Unit} (hr : Represents n r xs) (h : ∀ s, s ∈ xs ↔ s ∈ ys) :
    Represents n r ys := by
  refine ⟨fun s hs => hr.sizes s ((h s).mpr hs), hr.isComplete.trans (any_congr h), ?_, ?_⟩
  · rw [← unionData_congr h hr.sizes]
    exact hr.data
  · rw [← unionData_congr h hr.sizes, ← findSome_congr knownSize_of_partialSize h hr.sizes]
    exact hr.partialSize

private theorem Represents.knownSize {r : EntryState Unit} (hr : Represents n r states) :
    r.knownSize = unionSize states := by
  have hdata := hr.data
  have hsize := hr.partialSize
  unfold unionSize
  rcases r with ⟨_ | _ | _, _⟩ | size <;> simp only [EntryState.dataLocation] at hdata <;> rw [← hdata]
  · rfl
  · rfl
  · rfl
  · exact hsize hdata.symm

/-- Every bracketing of the states represents them. -/
theorem eval_union (hsizes : SizesAre n states) (hpaths : PathsSorted states) (t : Bracketing (EntryState Unit))
    (ht : ∀ s, s ∈ t.leaves ↔ s ∈ states) : ∃ r, t.eval EntryState.union = .ok r ∧ Represents n r states := by
  have hone : ∀ s ∈ t.leaves, Represents n s [s] := by
    intro s hs
    refine Represents.one ?_ (hpaths s ((ht s).mp hs))
    intro u hu
    rw [List.mem_singleton.mp hu]
    exact hsizes s ((ht s).mp hs)
  obtain ⟨r, hr, hrep⟩ := t.eval_represents hone Represents.union
  exact ⟨r, hr, hrep.congr ht⟩

/-- The union of states whose sizes agree succeeds for any order, bracketing and repetitions, with a result whose
completeness, size and data depend only on the set of the states.  If two sizes that decide a union differ, it fails. -/
theorem union_order_independent (hsizes : SizesAgree states) (hpaths : PathsSorted states)
    (t : Bracketing (EntryState Unit)) (ht : ∀ s, s ∈ t.leaves ↔ s ∈ states) :
    (∃ r, t.eval EntryState.union = .ok r ∧ r.isComplete = states.any EntryState.isComplete ∧
      r.dataLocation = unionData states ∧ r.knownSize = unionSize states) ∧
    ∀ a b m k, decidingSizes a b = some (m, k) → m ≠ k →
      a.union b = .error .inconsistent ∧ b.union a = .error .inconsistent := by
  constructor
  · obtain ⟨n, hn⟩ := hsizes.sizesAre
    obtain ⟨r, hr, hrep⟩ := eval_union hn hpaths t ht
    exact ⟨r, hr, hrep.isComplete, hrep.data, hrep.knownSize⟩
  · intro a b m k h hne
    rcases a with ⟨_ | _ | ⟨_, m'⟩, _⟩ | (_ | m') <;> rcases b with ⟨_ | _ | ⟨_, k'⟩, _⟩ | (_ | k') <;>
      simp only [decidingSizes, reduceCtorEq] at h <;> cases h <;>
      simp [EntryState.union, DataLocation.union, hne, Ne.symm hne]

/-- Two external states and a partial one, the first of them twice. -/
theorem union_order_independent_three :
    let a : EntryState Unit := .complete (.external [.ofBytes [47, 98]] 5) .owned
    let b : EntryState Unit := .complete (.external [.ofBytes [47, 97]] 5) .notNeeded
    let c : EntryState Unit := .partialState (some 5)
    (∃ r, (Bracketing.both (.both (.one a) (.one c)) (.both (.one b) (.one a))).eval EntryState.union = .ok r ∧
      r.isComplete = [a, b, c].any EntryState.isComplete ∧ r.dataLocation = unionData [a, b, c] ∧
      r.knownSize = unionSize [a, b, c]) ∧
    ∀ a b m k, decidingSizes a b = some (m, k) → m ≠ k →
      a.union b = .error .inconsistent ∧ b.union a = .error .inconsistent := by
  intro a b c
  refine union_order_independent ?_ ?_ _ ?_
  · simp [SizesAgree, a, b, c, EntryState.knownSize]
  · simp [PathsSorted, a, b, c, EntryState.paths]
  · intro s
    simp only [Bracketing.leaves, List.mem_append, List.mem_cons, List.not_mem_nil, or_false]
    tauto

/-- The entry after a sequence of updates has the data of all of them. -/
private theorem foldlM_handleUpdate {hash : Hash} {txn : Txn} {entry : EntryState Unit}
    (hentry : txn.tables.blobs hash = some entry)
    {l : List (EntryState (List UInt8))} {r : EntryState Unit}
    (hr : (l.map fun s => (splitState s).1).foldlM EntryState.union entry = .ok r) :
    ∃ txn', l.foldlM (fun txn s => handleUpdate txn hash s) txn = .ok txn' ∧ txn'.tables.blobs hash = some r := by
  induction l generalizing txn entry with
  | nil =>
    cases hr
    exact ⟨txn, rfl, hentry⟩
  | cons s l ih =>
    simp only [List.map_cons, List.foldlM_cons] at hr ⊢
    cases hunion : entry.union (splitState s).1 with
    | error e => rw [hunion] at hr; cases hr
    | ok merged =>
      rw [hunion] at hr
      have hstep : ∃ txn₁, handleUpdate txn hash s = .ok txn₁ ∧ txn₁.tables.blobs hash = some merged := by
        simp only [handleUpdate, hentry, hunion]
        exact ⟨_, rfl, by simp⟩
      obtain ⟨txn₁, htxn, hblobs⟩ := hstep
      rw [htxn]
      exact ih hblobs hr

/-- Updates of a new entry, in any order and with repetitions, end in an entry with the same data. -/
theorem handleUpdate_order_independent {hash : Hash} {txn : Txn} (hnew : txn.tables.blobs hash = none)
    {s : EntryState (List UInt8)} {l : List (EntryState (List UInt8))}
    (hsizes : SizesAgree states) (hpaths : PathsSorted states)
    (hl : ∀ u, u ∈ (s :: l).map (fun s => (splitState s).1) ↔ u ∈ states) :
    ∃ txn' r, (s :: l).foldlM (fun txn s => handleUpdate txn hash s) txn = .ok txn' ∧
      txn'.tables.blobs hash = some r ∧ r.isComplete = states.any EntryState.isComplete ∧
      r.dataLocation = unionData states ∧ r.knownSize = unionSize states := by
  obtain ⟨n, hn⟩ := hsizes.sizesAre
  have hleaves := Bracketing.leaves_foldl (.one (splitState s).1) (l.map fun s => (splitState s).1)
  obtain ⟨r, hr, hrep⟩ :=
    eval_union hn hpaths (Bracketing.foldl (.one (splitState s).1) (l.map fun s => (splitState s).1))
    (by rw [hleaves]; simpa [Bracketing.leaves] using hl)
  rw [Bracketing.eval_foldl] at hr
  have hfirst : ∃ txn₁, handleUpdate txn hash s = .ok txn₁ ∧ txn₁.tables.blobs hash = some (splitState s).1 := by
    simp only [handleUpdate, hnew]
    exact ⟨_, rfl, by simp⟩
  obtain ⟨txn₁, htxn, hblobs⟩ := hfirst
  obtain ⟨txn', htxn', hr'⟩ := foldlM_handleUpdate hblobs hr
  refine ⟨txn', r, ?_, hr', hrep.isComplete, hrep.data, hrep.knownSize⟩
  rw [List.foldlM_cons, htxn]
  exact htxn'

end Bracketings

end Meta

end IrohBlobs
