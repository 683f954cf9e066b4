import IrohBlobs.BaoTree

/-!
# Computing a hash and its outboard

`init_outboard` of `util.rs`: the items of the tree of the data come in post order and are evaluated on a stack of
hashes.  A leaf reads its data and pushes its hash, a parent pops the hashes of its children, saves them, and pushes
its own.

The key fact is `run_postOrder`: the items of a subtree push its hash and save the pairs of its parents, whatever is
on the stack.  So the hash of the data is left at the end, and every pair of the outboard was saved once.
-/

namespace IrohBlobs

namespace InitOutboard

open Merkle BaoTree

variable {H : Type}

/-- The items of `post_order_chunks_iter`, with the fields that are used. -/
inductive BaoChunk
  | parent (node : Nat) (isRoot : Bool)
  | leaf (startChunk size : Nat) (isRoot : Bool)

inductive Failure
  | panicked
  | io
  | progress
  deriving DecidableEq

/-- What the environment does: whether saving the pair of a node and reporting progress at a chunk succeed. -/
structure Env where
  save : Nat → Bool
  send : Nat → Bool

/-- Nothing fails. -/
def Env.working : Env := ⟨fun _ => true, fun _ => true⟩

/-- The stack, the pairs that were saved, and the data that was not read yet. -/
structure State (H : Type) where
  stack : List H
  saved : List (Nat × (H × H))
  data : List UInt8

section

variable (f : HashFns UInt8 H) (env : Env) (buffer : Nat)

/-- `hash_subtree`.  Only the root can be hashed as a root. -/
def hashLeaf (startChunk : Nat) (data : List UInt8) (isRoot : Bool) : Except Failure H :=
  if isRoot && startChunk != 0 then .error .panicked else .ok (hashSubtree f startChunk data isRoot)

def step (s : State H) : BaoChunk → Except Failure (State H)
  | .parent node isRoot =>
    match s.stack with
    | rightHash :: leftHash :: stack =>
      if env.save node then
        .ok { s with
          stack := f.parent leftHash rightHash isRoot :: stack
          saved := s.saved ++ [(node, (leftHash, rightHash))] }
      else .error .io
    | _ => .error .panicked
  | .leaf startChunk size isRoot =>
    if env.send startChunk then
      if size ≤ buffer then
        if size ≤ s.data.length then
          match hashLeaf f startChunk (s.data.take size) isRoot with
          | .ok hash => .ok { s with stack := hash :: s.stack, data := s.data.drop size }
          | .error e => .error e
        else .error .io
      else .error .panicked
    else .error .progress

def run (s : State H) : List BaoChunk → Except Failure (State H)
  | [] => .ok s
  | item :: items =>
    match step f env buffer s item with
    | .ok s => run s items
    | .error e => .error e

/-- `init_impl`, with the root and the saved pairs as the result.  One hash must be left. -/
def initImpl (items : List BaoChunk) (data : List UInt8) : Except Failure (H × List (Nat × (H × H))) :=
  match run f env buffer ⟨[], [], data⟩ items with
  | .ok ⟨[root], saved, _⟩ => .ok (root, saved)
  | .ok _ => .error .panicked
  | .error e => .error e

end

/-- `init_outboard`: the buffer has the size of a chunk group, or of the data if that is smaller. -/
def initOutboard (f : HashFns UInt8 H) (env : Env) (size : Nat) (items : List BaoChunk) (data : List UInt8) :
    Except Failure (H × List (Nat × (H × H))) :=
  initImpl f env (min size (16 * 1024)) items data

/-! ### Post order -/

/-- The size in bytes of the node at a path. -/
def nodeSize (size : Nat) (p : List Bool) : Nat :=
  min ((sub (treeChunks size) p).2 * 1024) (size - (sub (treeChunks size) p).1 * 1024)

/-- The items of the subtree at a path, in post order.  The nodes with at most 16 chunks are the leaves. -/
inductive PostOrder (size : Nat) : List Bool → List BaoChunk → Prop
  | leaf {p : List Bool} (h : (sub (treeChunks size) p).2 ≤ 16) :
    PostOrder size p [.leaf (sub (treeChunks size) p).1 (nodeSize size p) p.isEmpty]
  | parent {p : List Bool} {left right : List BaoChunk} (h : 16 < (sub (treeChunks size) p).2)
    (hleft : PostOrder size (p ++ [false]) left) (hright : PostOrder size (p ++ [true]) right) :
    PostOrder size p (left ++ right ++ [.parent (nodeAt (treeChunks size) p) p.isEmpty])

variable {f : HashFns UInt8 H} {env : Env} {buffer : Nat}

private theorem run_append (s : State H) (items items' : List BaoChunk) :
    run f env buffer s (items ++ items') =
      match run f env buffer s items with
      | .ok s => run f env buffer s items'
      | .error e => .error e := by
  induction items generalizing s with
  | nil => rfl
  | cons item items ih =>
    simp only [List.cons_append, run]
    cases step f env buffer s item with
    | error e => rfl
    | ok s => exact ih s

/-- The root is the node at the empty path, and starts at the first chunk. -/
private theorem hashLeaf_isEmpty (n : Nat) (p : List Bool) (data : List UInt8) :
    hashLeaf f (sub n p).1 data p.isEmpty = .ok (hashSubtree f (sub n p).1 data p.isEmpty) := by
  cases p with
  | nil => rfl
  | cons b p => rfl

private theorem nodeSize_le {size : Nat} {p : List Bool} (h : (sub (treeChunks size) p).2 ≤ 16) :
    nodeSize size p ≤ min size (16 * 1024) := by
  unfold nodeSize
  omega

/-- The items of a subtree push one hash, or fail otherwise than by a panic. -/
private theorem run_ne_panicked {size : Nat} {p : List Bool} {items : List BaoChunk}
    (h : PostOrder size p items) (s : State H) :
    (∃ s' hash, run f env (min size (16 * 1024)) s items = .ok s' ∧ s'.stack = hash :: s.stack) ∨
      ∃ e, run f env (min size (16 * 1024)) s items = .error e ∧ e ≠ .panicked := by
  induction h generalizing s with
  | leaf h =>
    simp only [run, step, if_pos (nodeSize_le h), hashLeaf_isEmpty]
    split
    · next s' hs =>
      split at hs
      · split at hs
        · cases hs
          exact Or.inl ⟨_, _, rfl, rfl⟩
        · cases hs
      · cases hs
    · next e he =>
      right
      refine ⟨e, rfl, ?_⟩
      split at he
      · split at he <;> cases he
        simp
      · cases he
        simp
  | parent h hleft hright ihl ihr =>
    rw [run_append, run_append]
    rcases ihl s with ⟨s₁, hash₁, h₁, hstack₁⟩ | ⟨e, he, hne⟩
    · rw [h₁]
      rcases ihr s₁ with ⟨s₂, hash₂, h₂, hstack₂⟩ | ⟨e, he, hne⟩
      · simp only [h₂, run, step, hstack₂, hstack₁]
        split
        · next s' hs =>
          split at hs
          · cases hs
            exact Or.inl ⟨_, _, rfl, rfl⟩
          · cases hs
        · next e he =>
          right
          refine ⟨e, rfl, ?_⟩
          split at he <;> cases he
          simp
      · simp only [he]
        exact Or.inr ⟨e, rfl, hne⟩
    · simp only [he]
      exact Or.inr ⟨e, rfl, hne⟩

/-! ### What is computed -/

section

variable (f) (data : List UInt8)

/-- The pair that is saved for the parent at a path. -/
def savedPair (p : List Bool) : Nat × (H × H) :=
  (nodeAt (treeChunks data.length) p, (nodeHash f data (p ++ [false]), nodeHash f data (p ++ [true])))

end

variable {data : List UInt8}

/-- The nodes below a path have their numbers within its chunks. -/
private theorem nodeAt_bounds {n : Nat} {p r : List Bool} (hn : 0 < n) (hp : IsPath 16 n (p ++ r))
    (hm : 16 < (sub n (p ++ r)).2) :
    (sub n p).1 ≤ nodeAt n (p ++ r) ∧ nodeAt n (p ++ r) + 1 < (sub n p).1 + (sub n p).2 := by
  obtain ⟨hpath, hrest⟩ := isPath_append.mp hp
  obtain ⟨hpos, -⟩ := sub_bounds hn (hpath.mono (by omega))
  have hbounds := sub_bounds hpos (hrest.mono (by omega))
  have hl := left_lt (n := (sub n (p ++ r)).2) (by omega)
  have h1 := left_pos (sub n (p ++ r)).2
  unfold nodeAt
  rw [sub_append] at hl hm h1 ⊢
  simp only at hl hm h1 ⊢
  omega

private theorem not_parent_of_le {n : Nat} {p r : List Bool} (hle : (sub n p).2 ≤ 16) (hp : IsPath 16 n (p ++ r)) :
    ¬ 16 < (sub n (p ++ r)).2 := by
  cases r with
  | nil => simpa using hle
  | cons b r =>
    have hlt := (isPath_append.mp hp).2.lt
    omega

/-- The data of a leaf is what the reader has next, and the reader goes on behind it. -/
private theorem take_nodeSize (p : List Bool) :
    (data.drop ((sub (treeChunks data.length) p).1 * 1024)).take (nodeSize data.length p) =
      region data (sub (treeChunks data.length) p).1 (sub (treeChunks data.length) p).2 := by
  rw [region, nodeSize, ← List.length_drop, ← List.take_eq_take_min]

private theorem drop_nodeSize (p : List Bool) :
    (data.drop ((sub (treeChunks data.length) p).1 * 1024)).drop (nodeSize data.length p) =
      data.drop (((sub (treeChunks data.length) p).1 + (sub (treeChunks data.length) p).2) * 1024) := by
  rw [List.drop_drop, nodeSize]
  by_cases h : (sub (treeChunks data.length) p).2 * 1024 ≤ data.length - (sub (treeChunks data.length) p).1 * 1024
  · rw [Nat.min_eq_left h, Nat.add_mul]
  · rw [List.drop_eq_nil_of_le (by omega), List.drop_eq_nil_of_le (by omega)]

/-- The items of a subtree push its hash, and save the pair of each of its parents once. -/
private theorem run_postOrder {p : List Bool} {items : List BaoChunk} (h : PostOrder data.length p items)
    (hp : IsPath 16 (treeChunks data.length) p) (stack : List H) (saved : List (Nat × (H × H))) :
    ∃ parents : List (List Bool),
      run f .working (min data.length (16 * 1024))
        ⟨stack, saved, data.drop ((sub (treeChunks data.length) p).1 * 1024)⟩ items =
        .ok ⟨nodeHash f data p :: stack, saved ++ parents.map (savedPair f data),
          data.drop (((sub (treeChunks data.length) p).1 + (sub (treeChunks data.length) p).2) * 1024)⟩ ∧
      (∀ q, q ∈ parents ↔ ∃ r, q = p ++ r ∧ IsPath 16 (treeChunks data.length) q ∧
        16 < (sub (treeChunks data.length) q).2) ∧
      (parents.map (nodeAt (treeChunks data.length))).Nodup := by
  have hn : 0 < treeChunks data.length := by unfold treeChunks; omega
  induction h generalizing stack saved with
  | @leaf p hle =>
    refine ⟨[], ?_, ?_, List.nodup_nil⟩
    · have hsize : nodeSize data.length p ≤ (data.drop ((sub (treeChunks data.length) p).1 * 1024)).length := by
        rw [List.length_drop, nodeSize]
        omega
      simp only [run, step, Env.working, if_true, if_pos (nodeSize_le hle), if_pos hsize, take_nodeSize, drop_nodeSize,
        hashLeaf_isEmpty, List.map_nil, List.append_nil, nodeHash]
    · intro q
      simp only [List.not_mem_nil, false_iff, not_exists, not_and]
      rintro r rfl hq
      exact not_parent_of_le hle hq
  | @parent p left right hlt hleft hright ihl ihr =>
    obtain ⟨pl, hl, hml, hnl⟩ := ihl (isPath_concat hp hlt) stack saved
    obtain ⟨pr, hr, hmr, hnr⟩ := ihr (isPath_concat hp hlt) (nodeHash f data (p ++ [false]) :: stack)
      (saved ++ pl.map (savedPair f data))
    have hsub := left_lt (n := (sub (treeChunks data.length) p).2) (by omega)
    rw [sub_concat_left] at hl
    rw [sub_concat_right] at hr
    simp only at hl hr
    rw [show (sub (treeChunks data.length) p).1 + Merkle.left (sub (treeChunks data.length) p).2 +
      ((sub (treeChunks data.length) p).2 - Merkle.left (sub (treeChunks data.length) p).2) =
      (sub (treeChunks data.length) p).1 + (sub (treeChunks data.length) p).2 by omega] at hr
    refine ⟨pl ++ pr ++ [p], ?_, ?_, ?_⟩
    · rw [run_append, run_append, hl]
      simp only [hr]
      simp only [run, step, Env.working, if_true]
      rw [nodeHash_eq_parent f (hp.mono (by omega)) (by omega)]
      simp [savedPair]
    · intro q
      rw [List.mem_append, List.mem_append, hml, hmr, List.mem_singleton]
      constructor
      · rintro ((⟨r, rfl, hq⟩ | ⟨r, rfl, hq⟩) | rfl)
        · exact ⟨false :: r, by simp, hq⟩
        · exact ⟨true :: r, by simp, hq⟩
        · exact ⟨[], by simp, hp, hlt⟩
      · rintro ⟨_ | ⟨_ | _, r⟩, rfl, hq⟩
        · exact Or.inr (by simp)
        · exact Or.inl (Or.inl ⟨r, by simp, hq⟩)
        · exact Or.inl (Or.inr ⟨r, by simp, hq⟩)
    · -- the numbers of the left subtree are below that of the parent, and those of the right subtree above
      have hparent : nodeAt (treeChunks data.length) p + 1 =
          (sub (treeChunks data.length) p).1 + Merkle.left (sub (treeChunks data.length) p).2 := by
        have h1 := left_pos (sub (treeChunks data.length) p).2
        unfold nodeAt
        omega
      have hbelow : ∀ q ∈ pl, nodeAt (treeChunks data.length) q < nodeAt (treeChunks data.length) p := by
        intro q hq
        obtain ⟨r, rfl, hpath, hm⟩ := (hml q).mp hq
        have hbounds := nodeAt_bounds hn hpath hm
        rw [sub_concat_left] at hbounds
        simp only at hbounds
        omega
      have habove : ∀ q ∈ pr, nodeAt (treeChunks data.length) p < nodeAt (treeChunks data.length) q := by
        intro q hq
        obtain ⟨r, rfl, hpath, hm⟩ := (hmr q).mp hq
        have hbounds := nodeAt_bounds hn hpath hm
        rw [sub_concat_right] at hbounds
        simp only at hbounds
        omega
      simp only [List.map_append, List.map_cons, List.map_nil]
      refine List.Nodup.append (List.Nodup.append hnl hnr ?_) (List.nodup_singleton _) ?_
      · intro x hx hx'
        obtain ⟨q, hq, rfl⟩ := List.mem_map.mp hx
        obtain ⟨q', hq', heq⟩ := List.mem_map.mp hx'
        have h1 := hbelow q hq
        have h2 := habove q' hq'
        omega
      · intro x hx hx'
        rw [List.mem_singleton] at hx'
        rcases List.mem_append.mp hx with hx | hx
        · obtain ⟨q, hq, heq⟩ := List.mem_map.mp hx
          have h1 := hbelow q hq
          omega
        · obtain ⟨q, hq, heq⟩ := List.mem_map.mp hx
          have h1 := habove q hq
          omega

/-- The evaluation never panics.  Unless the environment fails, its result is the hash of the data, and the pair of
every parent was saved exactly once. -/
theorem initOutboard_root (f : HashFns UInt8 H) (data : List UInt8) {items : List BaoChunk}
    (hitems : PostOrder data.length [] items) :
    (∀ env input, initOutboard f env data.length items input ≠ .error .panicked) ∧
    ∃ saved, initOutboard f .working data.length items data = .ok (hashSubtree f 0 data true, saved) ∧
      (saved.map Prod.fst).Nodup ∧
      ∀ node pair, (node, pair) ∈ saved ↔
        ∃ p, IsPath 16 (treeChunks data.length) p ∧ 16 < (sub (treeChunks data.length) p).2 ∧
          node = nodeAt (treeChunks data.length) p ∧
          pair = (nodeHash f data (p ++ [false]), nodeHash f data (p ++ [true])) := by
  constructor
  · intro env input hpanic
    unfold initOutboard initImpl at hpanic
    rcases @run_ne_panicked _ f env _ _ _ hitems
      ⟨[], [], input⟩ with ⟨⟨stack, saved, rest⟩, hash, h, hstack⟩ | ⟨e, he, hne⟩
    · simp only at hstack
      subst hstack
      rw [h] at hpanic
      cases hpanic
    · rw [he] at hpanic
      simp only [Except.error.injEq] at hpanic
      exact hne hpanic
  · obtain ⟨parents, h, hmem, hnodup⟩ := run_postOrder (f := f) hitems (by simp only [IsPath]) [] []
    have hstart : (sub (treeChunks data.length) []).1 * 1024 = 0 := Nat.zero_mul 1024
    rw [hstart, List.drop_zero] at h
    refine ⟨parents.map (savedPair f data), ?_, ?_, ?_⟩
    · unfold initOutboard initImpl
      rw [h, nodeHash_nil]
      rfl
    · rw [List.map_map]
      exact hnodup
    · intro node pair
      rw [List.mem_map]
      constructor
      · rintro ⟨p, hp, heq⟩
        obtain ⟨-, -, hpath, hm⟩ := (hmem p).mp hp
        rw [savedPair, Prod.mk.injEq] at heq
        exact ⟨p, hpath, hm, heq.1.symm, heq.2.symm⟩
      · rintro ⟨p, hpath, hm, rfl, rfl⟩
        exact ⟨p, (hmem p).mpr ⟨p, rfl, hpath, hm⟩, rfl⟩

private theorem treeChunks_two : treeChunks 16385 = 17 := by decide

private theorem left_two : Merkle.left 17 = 16 := by decide

theorem postOrder_two : PostOrder 16385 [] [.leaf 0 16384 false, .leaf 16 1 false, .parent 15 true] := by
  have hroot : sub (treeChunks 16385) [] = (0, 17) := by rw [treeChunks_two]; rfl
  have hleft : sub (treeChunks 16385) ([] ++ [false]) = (0, 16) := by rw [sub_concat_left, hroot, left_two]
  have hright : sub (treeChunks 16385) ([] ++ [true]) = (16, 1) := by
    rw [sub_concat_right, hroot, left_two]
    rfl
  have h := PostOrder.parent (by rw [hroot]; decide)
    (PostOrder.leaf (by rw [hleft])) (PostOrder.leaf (by rw [hright]; decide))
  rw [nodeSize, nodeSize, nodeAt, hroot, hleft, hright, left_two] at h
  exact h

/-- Hash functions that count bytes. -/
def countFns : HashFns UInt8 Nat := ⟨fun _ data _ => data.length, fun a b _ => a + b⟩

/-- Data of 17 chunks, the last of which has one byte. -/
def twoGroups : List UInt8 := List.replicate 16385 7

theorem length_twoGroups : twoGroups.length = 16385 := List.length_replicate

/-- Two leaves and their parent. -/
theorem initOutboard_root_two :
    ∃ saved, initOutboard countFns .working twoGroups.length [.leaf 0 16384 false, .leaf 16 1 false, .parent 15 true]
      twoGroups = .ok (hashSubtree countFns 0 twoGroups true, saved) := by
  have hitems : PostOrder twoGroups.length [] [.leaf 0 16384 false, .leaf 16 1 false, .parent 15 true] := by
    rw [length_twoGroups]
    exact postOrder_two
  obtain ⟨-, saved, h, -⟩ := initOutboard_root countFns twoGroups hitems
  exact ⟨saved, h⟩

end InitOutboard

end IrohBlobs
