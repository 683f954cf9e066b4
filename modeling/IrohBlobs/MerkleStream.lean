import IrohBlobs.Merkle

/-!
# Streams of hash trees

A part of the data of a hash tree is sent as a stream: a walk over the tree says which pairs and which leaves follow
each other, and the stream has their bytes.  A pair has 64 bytes, 32 for each hash.  The receiver knows the walk if it
knows the size of the data, so nothing else is in the stream.

The bytes can be anything.  What is read of them without an error is part of the data, whatever size the walk was made
for (`readNodes_real`), and if the walk has the last leaf then that size is right (`size_eq_of_ok`).  A walk over all
chunks gives the data from its beginning on (`leafData_prefix`).  In the other direction, what is written for a walk
over the tree of the data can be read back (`readNodes_encode`).
-/

namespace Merkle

/-! ### Walks -/

/-- A node of a tree that is in a stream: its pair, or its data. -/
inductive Node
  | parent (p : List Bool)
  | leaf (p : List Bool)
  deriving DecidableEq

/-- A walk over a tree with `n` chunks, from left to right.  A node comes after the pair above it, and the leaves
begin at the chunk `pos`; the pairs of the nodes in `above` have been visited before. -/
def Walk (k n : Nat) : List (List Bool) → Nat → List Node → Prop
  | _, _, [] => True
  | above, pos, .parent p :: nodes =>
    (IsPath 1 n p ∧ 1 < (sub n p).2) ∧ (p = [] ∨ p.dropLast ∈ above) ∧ Walk k n (p :: above) pos nodes
  | above, pos, .leaf p :: nodes =>
    (IsPath 1 n p ∧ (sub n p).2 ≤ k) ∧ (p = [] ∨ p.dropLast ∈ above) ∧ pos ≤ (sub n p).1 ∧
      Walk k n above ((sub n p).1 + (sub n p).2) nodes

/-- The chunk is in a leaf. -/
def Visits (n : Nat) (nodes : List Node) (x : Nat) : Prop :=
  ∃ p, .leaf p ∈ nodes ∧ (sub n p).1 ≤ x ∧ x < (sub n p).1 + (sub n p).2

/-- The walk over the selected chunks of the node at `p`, which has `n` chunks from `s` on.  Selected nodes with at
most `k` chunks are leaves. -/
def walk (k : Nat) (selected : Nat → Bool) (p : List Bool) (s n : Nat) : List Node :=
  if (List.range' s n).all (fun x => !selected x) then []
  else if n ≤ 1 ∨ n ≤ k ∧ (List.range' s n).all selected then [.leaf p]
  else .parent p :: (walk k selected (p ++ [false]) s (left n) ++
    walk k selected (p ++ [true]) (s + left n) (n - left n))
termination_by n
decreasing_by
  · exact left_lt (by omega)
  · have := left_pos n
    omega

section

variable {k n N s pos : Nat} {selected : Nat → Bool} {above : List (List Bool)} {p : List Bool}

private theorem sub_append_of_eq {b : List Bool} (hsub : sub N p = (s, n)) :
    sub N (p ++ b) = (s + (sub n b).1, (sub n b).2) := by
  rw [sub_append, hsub]

/-- A walk over the selected chunks of a node is followed by a walk over chunks after the node. -/
theorem walk_append (hk : 0 < k) (hn : 0 < n) (hp : IsPath 1 N p) (hsub : sub N p = (s, n))
    (habove : p = [] ∨ p.dropLast ∈ above) (hpos : pos ≤ s) {rest : List Node}
    (hrest : ∀ above' pos', (∀ q ∈ above, q ∈ above') → pos' ≤ s + n → Walk k N above' pos' rest) :
    Walk k N above pos (walk k selected p s n ++ rest) := by
  induction n using Nat.strong_induction_on generalizing p s pos above rest with
  | _ n ih =>
    rw [walk]
    split
    · exact hrest above pos (fun q hq => hq) (by omega)
    · split
      · rename_i hleaf
        refine ⟨⟨hp, by rw [hsub]; simp only; omega⟩, habove, by rw [hsub]; exact hpos, ?_⟩
        rw [hsub]
        exact hrest above (s + n) (fun q hq => hq) (Nat.le_refl _)
      · rename_i hinner
        have hlt : 1 < n := by omega
        have hl := left_lt hlt
        have hl' := left_pos n
        have hpath : ∀ b, IsPath 1 N (p ++ [b]) := fun b => isPath_concat hp (by rw [hsub]; exact hlt)
        have hleft : sub N (p ++ [false]) = (s, left n) := sub_append_of_eq hsub
        have hright : sub N (p ++ [true]) = (s + left n, n - left n) := sub_append_of_eq hsub
        rw [List.cons_append, List.append_assoc]
        refine ⟨⟨hp, by rw [hsub]; exact hlt⟩, habove, ?_⟩
        refine ih (left n) hl hl' (hpath false) hleft ?_ hpos ?_
        · rw [List.dropLast_concat]
          exact Or.inr List.mem_cons_self
        · intro above' pos' hsubset hpos'
          refine ih (n - left n) (by omega) (by omega) (hpath true) hright ?_ hpos' ?_
          · rw [List.dropLast_concat]
            exact Or.inr (hsubset p List.mem_cons_self)
          · intro above'' pos'' hsubset' hpos''
            refine hrest above'' pos'' (fun q hq => hsubset' q (hsubset q (List.mem_cons_of_mem p hq))) (by omega)

/-- The selected chunks of a tree are visited from left to right. -/
theorem walk_walk (hk : 0 < k) (hn : 0 < n) : Walk k n [] 0 (walk k selected [] 0 n) := by
  rw [← List.append_nil (walk k selected [] 0 n)]
  exact walk_append (p := []) hk hn trivial rfl (Or.inl rfl) (Nat.le_refl 0) (fun _ _ _ _ => trivial)

theorem visits_walk {x : Nat} (hsub : sub N p = (s, n)) (hx : selected x = true) (h1 : s ≤ x) (h2 : x < s + n) :
    Visits N (walk k selected p s n) x := by
  induction n using Nat.strong_induction_on generalizing p s with
  | _ n ih =>
    rw [walk, if_neg]
    · split
      · exact ⟨p, List.mem_singleton_self _, by rw [hsub]; exact h1, by rw [hsub]; exact h2⟩
      · have hlt : 1 < n := by omega
        have hl := left_lt hlt
        have hl' := left_pos n
        have hleft : sub N (p ++ [false]) = (s, left n) := sub_append_of_eq hsub
        have hright : sub N (p ++ [true]) = (s + left n, n - left n) := sub_append_of_eq hsub
        by_cases hside : x < s + left n
        · obtain ⟨q, hq, hrest⟩ := ih (left n) hl hleft h1 hside
          exact ⟨q, List.mem_cons_of_mem _ (List.mem_append_left _ hq), hrest⟩
        · obtain ⟨q, hq, hrest⟩ := ih (n - left n) (by omega) hright (by omega) (by omega)
          exact ⟨q, List.mem_cons_of_mem _ (List.mem_append_right _ hq), hrest⟩
    · intro hnone
      rw [List.all_eq_true] at hnone
      have := hnone x (List.mem_range'_1.mpr ⟨h1, h2⟩)
      rw [hx] at this
      cases this

end

/-! ### Bytes -/

/-- The bytes that arrive.  They come to an end, or the stream breaks off with an error. -/
structure ByteStream (E : Type) where
  bytes : List UInt8
  broken : Option E

inductive ReadError (E : Type)
  | eof
  | broken (e : E)
  deriving DecidableEq

/-- The error of a read that there are not enough bytes for. -/
def ByteStream.readError {E : Type} (s : ByteStream E) : ReadError E :=
  match s.broken with
  | none => .eof
  | some e => .broken e

def ByteStream.readExact {E : Type} (s : ByteStream E) (len : Nat) : Except (ReadError E) (List UInt8 × ByteStream E) :=
  if len ≤ s.bytes.length then .ok (s.bytes.take len, { s with bytes := s.bytes.drop len }) else .error s.readError

theorem ByteStream.readExact_eq_ok {E : Type} {s s' : ByteStream E} {len : Nat} {data : List UInt8}
    (h : s.readExact len = .ok (data, s')) : s.bytes = data ++ s'.bytes ∧ data.length = len ∧ s'.broken = s.broken := by
  unfold readExact at h
  split at h
  · rename_i hle
    cases h
    exact ⟨(List.take_append_drop len s.bytes).symm, by rw [List.length_take]; omega, rfl⟩
  · cases h

theorem ByteStream.readExact_append {E : Type} (data rest : List UInt8) (broken : Option E) :
    ByteStream.readExact ⟨data ++ rest, broken⟩ data.length = .ok (data, ⟨rest, broken⟩) := by
  rw [readExact, if_pos]
  · simp
  · simp

theorem ByteStream.readExact_of_lt {E : Type} {s : ByteStream E} {len : Nat} (h : s.bytes.length < len) :
    s.readExact len = .error s.readError := by
  rw [readExact, if_neg (by omega)]

theorem ByteStream.readExact_eq_error {E : Type} {s : ByteStream E} {len : Nat} {e : ReadError E}
    (h : s.readExact len = .error e) : s.readError = e := by
  unfold readExact at h
  split at h
  · cases h
  · exact Except.error.inj h

theorem ByteStream.readError_cases {E : Type} (s : ByteStream E) :
    (s.readError = .eof ∧ s.broken = none) ∨ ∃ e, s.readError = .broken e ∧ s.broken = some e := by
  unfold readError
  cases hbroken : s.broken with
  | none => exact Or.inl ⟨rfl, rfl⟩
  | some e => exact Or.inr ⟨e, rfl, rfl⟩

/-- What is read of a stream. -/
inductive Item (H : Type)
  | parent (p : List Bool) (pair : H × H)
  | leaf (p : List Bool) (data : List UInt8)
  deriving DecidableEq

namespace Item

variable {H : Type}

def node : Item H → Node
  | .parent p _ => .parent p
  | .leaf p _ => .leaf p

def data : Item H → List UInt8
  | .parent _ _ => []
  | .leaf _ data => data

/-- The number of bytes of the item. -/
def length : Item H → Nat
  | .parent _ _ => 64
  | .leaf _ data => data.length

end Item

inductive DecodeError (E : Type)
  | parentNotFound (p : List Bool)
  | leafNotFound (p : List Bool)
  | parentHashMismatch (p : List Bool)
  | leafHashMismatch (p : List Bool)
  | read (e : E)
  deriving DecidableEq

/-- The number of bytes of a leaf. -/
def leafLength (size : Nat) (p : List Bool) : Nat :=
  min ((sub (treeChunks size) p).2 * 1024) (size - (sub (treeChunks size) p).1 * 1024)

section

variable {H E : Type} [DecidableEq H] (f : HashFns UInt8 H) (k : Nat) (ofBytes : List UInt8 → H)

/-- Read the next node, and verify it. -/
def readNode (d : Decoder H) : Node → ByteStream E → Except (DecodeError E) (Item H × Decoder H × ByteStream E)
  | .parent p, s =>
    match s.readExact 64 with
    | .error .eof => .error (.parentNotFound p)
    | .error (.broken e) => .error (.read e)
    | .ok (bytes, s) =>
      match d.parent f p (ofBytes (bytes.take 32), ofBytes (bytes.drop 32)) with
      | none => .error (.parentHashMismatch p)
      | some d => .ok (.parent p (ofBytes (bytes.take 32), ofBytes (bytes.drop 32)), d, s)
  | .leaf p, s =>
    match s.readExact (leafLength d.size p) with
    | .error .eof => .error (.leafNotFound p)
    | .error (.broken e) => .error (.read e)
    | .ok (data, s) => if d.leaf f k p data then .ok (.leaf p data, d, s) else .error (.leafHashMismatch p)

/-- Read all nodes of a walk, up to an error. -/
def readNodes : Decoder H → List Node → ByteStream E → List (Item H) × Except (DecodeError E) (ByteStream E)
  | _, [], s => ([], .ok s)
  | d, node :: nodes, s =>
    match readNode f k ofBytes d node s with
    | .error e => ([], .error e)
    | .ok (item, d, s) => (item :: (readNodes d nodes s).1, (readNodes d nodes s).2)

end

/-- The item is a part of the data.  A leaf has the place that it has in the tree of the size `size`, and that size is
right if the leaf is the last one. -/
def Item.Real {H : Type} (f : HashFns UInt8 H) (blob : List UInt8) (size : Nat) : Item H → Prop
  | .parent p pair => IsPath 1 (treeChunks blob.length) p ∧ 1 < (sub (treeChunks blob.length) p).2 ∧
    pair = (nodeHash f blob (p ++ [false]), nodeHash f blob (p ++ [true]))
  | .leaf p data => IsPath 1 (treeChunks blob.length) p ∧ IsPath 1 (treeChunks size) p ∧
    sub (treeChunks size) p = sub (treeChunks blob.length) p ∧
    data = region blob (sub (treeChunks blob.length) p).1 (sub (treeChunks blob.length) p).2 ∧
    ((∀ b ∈ p, b = true) → size = blob.length)

section

variable {H E : Type} [DecidableEq H] {f : HashFns UInt8 H} {k : Nat} {ofBytes : List UInt8 → H} {blob : List UInt8}
  {d d' : Decoder H} {s s' : ByteStream E} {node : Node} {item : Item H}

/-- What reading a node does: the bytes of the item are taken off the stream, and the item is verified. -/
theorem readNode_eq_ok (h : readNode f k ofBytes d node s = .ok (item, d', s')) :
    (∃ p bytes pair, node = .parent p ∧ item = .parent p pair ∧ d.parent f p pair = some d' ∧
      s.bytes = bytes ++ s'.bytes ∧
      bytes.length = 64 ∧ pair = (ofBytes (bytes.take 32), ofBytes (bytes.drop 32)) ∧ s'.broken = s.broken) ∨
    ∃ p data, node = .leaf p ∧ item = .leaf p data ∧ d' = d ∧ d.leaf f k p data = true ∧ s.bytes = data ++ s'.bytes ∧
      data.length = leafLength d.size p ∧ s'.broken = s.broken := by
  cases node with
  | parent p =>
    rw [readNode] at h
    split at h
    · cases h
    · cases h
    · rename_i bytes s₁ hread
      obtain ⟨hbytes, hlen, hbroken⟩ := ByteStream.readExact_eq_ok hread
      split at h
      · cases h
      · rename_i d₁ hd
        cases h
        exact Or.inl ⟨p, bytes, _, rfl, rfl, hd, hbytes, hlen, rfl, hbroken⟩
  | leaf p =>
    rw [readNode] at h
    split at h
    · cases h
    · cases h
    · rename_i data s₁ hread
      obtain ⟨hbytes, hlen, hbroken⟩ := ByteStream.readExact_eq_ok hread
      split at h
      · rename_i hleaf
        cases h
        exact Or.inr ⟨p, data, rfl, rfl, rfl, hleaf, hbytes, hlen, hbroken⟩
      · cases h

theorem size_of_parent {p : List Bool} {pair : H × H} (h : d.parent f p pair = some d') : d'.size = d.size := by
  unfold Decoder.parent at h
  split at h
  · cases h
    rfl
  · cases h

theorem readNode_size (h : readNode f k ofBytes d node s = .ok (item, d', s')) : d'.size = d.size := by
  rcases readNode_eq_ok h with ⟨p, bytes, pair, -, -, hd, -⟩ | ⟨p, data, -, -, rfl, -⟩
  · exact size_of_parent hd
  · rfl

/-- A leaf that is verified with the size zero is the leaf of the empty blob. -/
private theorem nil_of_leaf (hf : CollisionFree f) (hd : d.Sound f blob) (hsize : d.size = 0) {p : List Bool}
    {data : List UInt8} (h : d.leaf f k p data = true) : p = [] ∧ data = [] ∧ blob = [] := by
  unfold Decoder.leaf at h
  rw [decide_eq_true_iff] at h
  obtain ⟨hpath, -, hlen, hexpected⟩ := h
  have hp : p = [] := by
    cases p with
    | nil => rfl
    | cons b p =>
      have hlt := hpath.lt
      rw [hsize] at hlt
      unfold treeChunks chunks at hlt
      omega
  subst hp
  have hdata : data = [] := by
    apply List.eq_nil_of_length_eq_zero
    rw [hlen, hsize]
    omega
  subst hdata
  have hhash : hashSubtree f 0 blob true = hashSubtree f 0 [] true := by
    rw [← nodeHash_nil, ← hd.root]
    exact Option.some.inj hexpected
  exact ⟨rfl, rfl, (hashSubtree_inj hf hhash).2⟩

/-- An item that is read is real, and only real pairs are kept. -/
theorem readNode_real (hf : CollisionFree f) (hd : d.Sound f blob)
    (h : readNode f k ofBytes d node s = .ok (item, d', s')) :
    item.Real f blob d.size ∧ d'.Sound f blob := by
  rcases readNode_eq_ok h with ⟨p, bytes, pair, rfl, rfl, hparent, -⟩ | ⟨p, data, rfl, rfl, heq, hleaf, -⟩
  · have hd' := hd.parent hf hparent
    have hmem : (p, pair) ∈ d'.pairs := by
      unfold Decoder.parent at hparent
      split at hparent
      · cases hparent
        exact List.mem_cons_self
      · cases hparent
    exact ⟨hd'.pairs p pair hmem, hd'⟩
  · rw [heq]
    refine ⟨?_, hd⟩
    rcases Nat.eq_zero_or_pos d.size with hzero | hpos
    · obtain ⟨rfl, rfl, rfl⟩ := nil_of_leaf hf hd hzero hleaf
      rw [hzero]
      exact ⟨trivial, trivial, rfl, by simp [region], fun _ => rfl⟩
    · obtain ⟨hpath, hpath', hsub, -, hdata, -, hlast, -⟩ := hd.leaf hf hpos hleaf
      exact ⟨hpath, hpath', hsub, hdata, hlast⟩

/-- Whatever the bytes are, all items that are read are real. -/
theorem readNodes_real (hf : CollisionFree f) {nodes : List Node} (hd : d.Sound f blob) :
    ∀ item ∈ (readNodes f k ofBytes d nodes s).1, item.Real f blob d.size := by
  induction nodes generalizing d s with
  | nil => simp [readNodes]
  | cons node nodes ih =>
    rw [readNodes]
    split
    · simp
    · rename_i item d' s' hread
      obtain ⟨hreal, hd'⟩ := readNode_real hf hd hread
      have hrest := ih (d := d') (s := s') hd'
      rw [readNode_size hread] at hrest
      exact List.forall_mem_cons.mpr ⟨hreal, hrest⟩

variable (f k ofBytes) in
/-- The nodes of the walk are read in order. -/
theorem readNodes_node (nodes : List Node) (d : Decoder H) (s : ByteStream E) :
    ∃ rest, nodes = (readNodes f k ofBytes d nodes s).1.map Item.node ++ rest ∧
      ∀ s', (readNodes f k ofBytes d nodes s).2 = .ok s' → rest = [] := by
  induction nodes generalizing d s with
  | nil => exact ⟨[], rfl, fun _ _ => rfl⟩
  | cons node nodes ih =>
    rw [readNodes]
    split
    · exact ⟨node :: nodes, rfl, fun s' h => by cases h⟩
    · rename_i item d' s₁ hread
      obtain ⟨rest, hnodes, hrest⟩ := ih d' s₁
      refine ⟨rest, ?_, hrest⟩
      have hitem : item.node = node := by
        rcases readNode_eq_ok hread with ⟨p, bytes, pair, rfl, rfl, -⟩ | ⟨p, data, rfl, rfl, -⟩
        · rfl
        · rfl
      rw [List.map_cons, hitem, List.cons_append, ← hnodes]

/-- The leaf with a chunk that is visited has been read. -/
theorem exists_leaf_of_visits (hf : CollisionFree f) {nodes : List Node} (hd : d.Sound f blob)
    (h : (readNodes f k ofBytes d nodes s).2 = .ok s') {x : Nat} (hx : Visits (treeChunks d.size) nodes x) :
    ∃ p data, .leaf p data ∈ (readNodes f k ofBytes d nodes s).1 ∧ Item.Real f blob d.size (.leaf p data) ∧
      (sub (treeChunks d.size) p).1 ≤ x ∧ x < (sub (treeChunks d.size) p).1 + (sub (treeChunks d.size) p).2 := by
  obtain ⟨p, hp, hx⟩ := hx
  obtain ⟨rest, hnodes, hrest⟩ := readNodes_node f k ofBytes nodes d s
  rw [hnodes, hrest _ h, List.append_nil, List.mem_map] at hp
  obtain ⟨item, hitem, hnode⟩ := hp
  have hreal := readNodes_real hf hd item hitem
  cases item with
  | parent q pair => cases hnode
  | leaf q data =>
    cases hnode
    exact ⟨p, data, hitem, hreal, hx⟩

/-- The size is right if the last chunk of its tree has been read. -/
theorem size_eq_of_ok (hf : CollisionFree f) {nodes : List Node} (hd : d.Sound f blob)
    (h : (readNodes f k ofBytes d nodes s).2 = .ok s')
    (hlast : Visits (treeChunks d.size) nodes (treeChunks d.size - 1)) :
    d.size = blob.length := by
  obtain ⟨p, data, -, ⟨-, hpath, -, -, hsize⟩, h1, h2⟩ := exists_leaf_of_visits hf hd h hlast
  have hn : 0 < treeChunks d.size := by unfold treeChunks; omega
  have hend := (sub_bounds hn hpath).2
  exact hsize ((sub_end_iff hn hpath).mp (by omega))

/-! ### The data of a walk -/

/-- The data of the leaves. -/
def leafData {H : Type} (items : List (Item H)) : List UInt8 := items.flatMap Item.data

theorem region_append (blob : List UInt8) (s m : Nat) :
    region blob s m ++ blob.drop ((s + m) * 1024) = blob.drop (s * 1024) := by
  rw [region, Nat.add_mul, ← List.drop_drop, List.take_append_drop]

/-- The leaves of a walk from `pos` on do not begin before it. -/
theorem Walk.le {n pos : Nat} {above : List (List Bool)} {nodes : List Node} (h : Walk k n above pos nodes)
    {p : List Bool} (hp : .leaf p ∈ nodes) : pos ≤ (sub n p).1 := by
  induction nodes generalizing above pos with
  | nil => cases hp
  | cons node nodes ih =>
    cases node with
    | parent q =>
      rcases List.mem_cons.mp hp with heq | hp
      · cases heq
      · exact ih h.2.2 hp
    | leaf q =>
      obtain ⟨-, -, hpos, hrest⟩ := h
      rcases List.mem_cons.mp hp with heq | hp
      · cases heq
        exact hpos
      · have := ih hrest hp
        omega

omit [DecidableEq H] in
/-- If a walk has all chunks from `pos` on, the leaves at its front have the data from there on, up to what the rest
of the walk has. -/
private theorem leafData_append {N : Nat} {size : Nat} (hN : N = treeChunks size) {items : List (Item H)}
    {rest : List Node}
    {above : List (List Bool)} {pos : Nat} (hwalk : Walk k N above pos (items.map Item.node ++ rest))
    (hreal : ∀ item ∈ items, item.Real f blob size)
    (hall : ∀ x, pos ≤ x → x < N → Visits N (items.map Item.node ++ rest) x) :
    ∃ pos', leafData items ++ blob.drop (pos' * 1024) = blob.drop (pos * 1024) ∧
      ∀ x, pos' ≤ x → x < N → Visits N rest x := by
  subst hN
  induction items generalizing above pos with
  | nil => exact ⟨pos, rfl, hall⟩
  | cons item items ih =>
    rw [List.forall_mem_cons] at hreal
    cases item with
    | parent p pair =>
      refine ih hreal.2 hwalk.2.2 (fun x h1 h2 => ?_)
      obtain ⟨q, hq, hx⟩ := hall x h1 h2
      rcases List.mem_cons.mp hq with heq | hq
      · cases heq
      · exact ⟨q, hq, hx⟩
    | leaf p data =>
      have hn : 0 < treeChunks size := by unfold treeChunks; omega
      obtain ⟨⟨hpath, -⟩, -, hpos, hrest⟩ := hwalk
      obtain ⟨h1, h2⟩ := sub_bounds hn hpath
      obtain ⟨-, -, hsub, hdata, -⟩ := hreal.1
      -- no later leaf has the chunk `pos`
      have heq : (sub (treeChunks size) p).1 = pos := by
        obtain ⟨q, hq, hx⟩ := hall pos (Nat.le_refl pos) (by omega)
        rcases List.mem_cons.mp hq with heq | hq
        · cases heq
          omega
        · have := Walk.le hrest hq
          omega
      rw [heq] at hrest
      have hall' : ∀ x, pos + (sub (treeChunks size) p).2 ≤ x → x < treeChunks size →
          Visits (treeChunks size) (items.map Item.node ++ rest) x := by
        intro x hx hx'
        obtain ⟨q, hq, hxq⟩ := hall x (by omega) hx'
        rcases List.mem_cons.mp hq with hcons | hq
        · cases hcons
          omega
        · exact ⟨q, hq, hxq⟩
      obtain ⟨pos', htail, hvisits⟩ := ih hreal.2 hrest hall'
      refine ⟨pos', ?_, hvisits⟩
      rw [← hsub, heq] at hdata
      show (data ++ leafData items) ++ blob.drop (pos' * 1024) = blob.drop (pos * 1024)
      rw [List.append_assoc, htail, hdata, region_append]

/-- A walk over all chunks gives the data from its beginning on, and all of it if there is no error. -/
theorem leafData_prefix (hf : CollisionFree f) {nodes : List Node} (hd : d.Sound f blob)
    (hwalk : Walk k (treeChunks d.size) [] 0 nodes)
    (hall : ∀ x, x < treeChunks d.size → Visits (treeChunks d.size) nodes x) :
    leafData (readNodes f k ofBytes d nodes s).1 <+: blob ∧
      ∀ s', (readNodes f k ofBytes d nodes s).2 = .ok s' → leafData (readNodes f k ofBytes d nodes s).1 = blob := by
  have hn : 0 < treeChunks d.size := by unfold treeChunks; omega
  have hreal : ∀ item ∈ (readNodes f k ofBytes d nodes s).1, item.Real f blob d.size := readNodes_real hf hd
  obtain ⟨rest, hnodes, hrest⟩ := readNodes_node f k ofBytes nodes d s
  have hall' : ∀ x, 0 ≤ x → x < treeChunks d.size → Visits (treeChunks d.size) nodes x := fun x _ hx => hall x hx
  rw [hnodes] at hwalk hall'
  obtain ⟨pos, hdata, hvisits⟩ := leafData_append rfl hwalk hreal hall'
  rw [Nat.zero_mul, List.drop_zero] at hdata
  refine ⟨⟨_, hdata⟩, ?_⟩
  intro s' hok
  have hsize := size_eq_of_ok hf hd hok (hall _ (by omega))
  rw [hrest s' hok] at hvisits
  have hle : treeChunks d.size ≤ pos := by
    by_contra hlt
    obtain ⟨p, hp, -⟩ := hvisits pos (Nat.le_refl pos) (by omega)
    cases hp
  have hnil : blob.drop (pos * 1024) = [] := by
    apply List.drop_eq_nil_of_le
    rw [hsize] at hle
    unfold treeChunks chunks at hle
    omega
  rwa [hnil, List.append_nil] at hdata

/-- The bytes that are read are those of the items. -/
theorem readNodes_length {nodes : List Node} (h : (readNodes f k ofBytes d nodes s).2 = .ok s') :
    (∃ bytes, s.bytes = bytes ++ s'.bytes ∧ bytes.length = ((readNodes f k ofBytes d nodes s).1.map Item.length).sum) ∧
      s'.broken = s.broken := by
  induction nodes generalizing d s with
  | nil =>
    cases h
    exact ⟨⟨[], rfl, rfl⟩, rfl⟩
  | cons node nodes ih =>
    rw [readNodes] at h ⊢
    split
    · rename_i e hread
      rw [hread] at h
      cases h
    · rename_i item d' s₁ hread
      rw [hread] at h
      obtain ⟨⟨bytes', hbytes', hlen'⟩, hbroken'⟩ := ih h
      have hitem : ∃ bytes, s.bytes = bytes ++ s₁.bytes ∧ bytes.length = item.length ∧ s₁.broken = s.broken := by
        rcases readNode_eq_ok hread with ⟨p, bytes, pair, -, rfl, -, hbytes, hlen, -, hbroken⟩ |
          ⟨p, data, -, rfl, -, -, hbytes, -, hbroken⟩
        · exact ⟨bytes, hbytes, hlen, hbroken⟩
        · exact ⟨data, hbytes, rfl, hbroken⟩
      obtain ⟨bytes, hbytes, hlen, hbroken⟩ := hitem
      refine ⟨⟨bytes ++ bytes', ?_, ?_⟩, hbroken'.trans hbroken⟩
      · rw [hbytes, hbytes', List.append_assoc]
      · rw [List.length_append, List.map_cons, List.sum_cons, hlen, hlen']

/-- The data of a leaf that is read is in the stream. -/
theorem data_infix {nodes : List Node} (h : item ∈ (readNodes f k ofBytes d nodes s).1) : item.data <:+: s.bytes := by
  induction nodes generalizing d s with
  | nil => cases h
  | cons node nodes ih =>
    rw [readNodes] at h
    split at h
    · cases h
    · rename_i item' d' s₁ hread
      have hitem : ∃ bytes, s.bytes = bytes ++ s₁.bytes ∧ item'.data <:+: bytes := by
        rcases readNode_eq_ok hread with ⟨p, bytes, pair, -, rfl, -, hbytes, -⟩ | ⟨p, data, -, rfl, -, -, hbytes, -⟩
        · exact ⟨bytes, hbytes, List.nil_infix⟩
        · exact ⟨data, hbytes, List.infix_rfl⟩
      obtain ⟨bytes, hbytes, hdata⟩ := hitem
      rw [hbytes]
      rcases List.mem_cons.mp h with rfl | h
      · exact hdata.trans (List.prefix_append _ _).isInfix
      · exact (ih h).trans (List.suffix_append _ _).isInfix

/-! ### Writing -/

variable (f blob) in
/-- The item of a node of the tree of the data. -/
def itemAt : Node → Item H
  | .parent p => .parent p (nodeHash f blob (p ++ [false]), nodeHash f blob (p ++ [true]))
  | .leaf p => .leaf p (region blob (sub (treeChunks blob.length) p).1 (sub (treeChunks blob.length) p).2)

omit [DecidableEq H] in
/-- The items of a walk over the tree of the data are real. -/
theorem Walk.real {above : List (List Bool)} {pos : Nat} {nodes : List Node}
    (h : Walk k (treeChunks blob.length) above pos nodes) :
    ∀ item ∈ nodes.map (itemAt f blob), item.Real f blob blob.length := by
  induction nodes generalizing above pos with
  | nil => simp
  | cons node nodes ih =>
    rw [List.map_cons, List.forall_mem_cons]
    cases node with
    | parent p =>
      obtain ⟨⟨hpath, hinner⟩, -, hrest⟩ := h
      exact ⟨⟨hpath, hinner, rfl⟩, ih hrest⟩
    | leaf p =>
      obtain ⟨⟨hpath, -⟩, -, -, hrest⟩ := h
      exact ⟨⟨hpath, hpath, rfl, rfl, fun _ => rfl⟩, ih hrest⟩

omit [DecidableEq H] in
/-- The items of a walk over all chunks have all the data. -/
theorem leafData_itemAt {nodes : List Node} (hwalk : Walk k (treeChunks blob.length) [] 0 nodes)
    (hall : ∀ x, x < treeChunks blob.length → Visits (treeChunks blob.length) nodes x) :
    leafData (nodes.map (itemAt f blob)) = blob := by
  have hnodes : nodes = (nodes.map (itemAt f blob)).map Item.node ++ [] := by
    have hid : ∀ node, (itemAt f blob node).node = node := by
      intro node
      cases node <;> rfl
    have hcomp : Item.node ∘ itemAt f blob = id := funext hid
    rw [List.append_nil, List.map_map, hcomp, List.map_id]
  have hall' : ∀ x, 0 ≤ x → x < treeChunks blob.length → Visits (treeChunks blob.length) nodes x :=
    fun x _ hx => hall x hx
  have hreal := hwalk.real (f := f)
  generalize hitems : nodes.map (itemAt f blob) = items at hnodes hreal
  rw [hnodes] at hwalk hall'
  obtain ⟨pos, hdata, hvisits⟩ := leafData_append rfl hwalk hreal hall'
  have hle : treeChunks blob.length ≤ pos := by
    by_contra hlt
    obtain ⟨p, hp, -⟩ := hvisits pos (Nat.le_refl pos) (by omega)
    cases hp
  have hnil : blob.drop (pos * 1024) = [] := by
    apply List.drop_eq_nil_of_le
    unfold treeChunks chunks at hle
    omega
  rwa [hnil, List.append_nil, Nat.zero_mul, List.drop_zero] at hdata

end

/-- The bytes of an item. -/
def Item.bytes {H : Type} (toBytes : H → List UInt8) : Item H → List UInt8
  | .parent _ pair => toBytes pair.1 ++ toBytes pair.2
  | .leaf _ data => data

/-- The bytes of a walk over the tree of the data. -/
def encode {H : Type} (f : HashFns UInt8 H) (toBytes : H → List UInt8) (blob : List UInt8)
    (nodes : List Node) : List UInt8 :=
  nodes.flatMap (fun node => (itemAt f blob node).bytes toBytes)

section

variable {H E : Type} [DecidableEq H] {f : HashFns UInt8 H} {k : Nat} {ofBytes : List UInt8 → H}
  {toBytes : H → List UInt8}
  {blob : List UInt8} {d : Decoder H} {above : List (List Bool)}

/-- The hashes of the tree of the data are written as 32 bytes, from which they can be read. -/
def ReadsBack {H : Type} (f : HashFns UInt8 H) (ofBytes : List UInt8 → H) (toBytes : H → List UInt8)
    (blob : List UInt8) :
    Prop :=
  ∀ p, IsPath 1 (treeChunks blob.length) p → (toBytes (nodeHash f blob p)).length = 32 ∧
    ofBytes (toBytes (nodeHash f blob p)) = nodeHash f blob p

/-- The decoder has the size and the root of the data, and its pairs at the nodes in `above`. -/
structure Decoder.Has (f : HashFns UInt8 H) (blob : List UInt8) (d : Decoder H) (above : List (List Bool)) : Prop where
  size : d.size = blob.length
  root : d.root = nodeHash f blob []
  pairs : ∀ p ∈ above, d.pairs.lookup p = some (nodeHash f blob (p ++ [false]), nodeHash f blob (p ++ [true]))

omit [DecidableEq H] in
theorem Decoder.Has.expected_eq (h : d.Has f blob above) {p : List Bool} (hp : p = [] ∨ p.dropLast ∈ above) :
    d.expected p = some (nodeHash f blob p) := by
  unfold expected
  rcases List.eq_nil_or_concat p with rfl | ⟨q, b, rfl⟩
  · rw [List.getLast?_nil, h.root]
  · rw [List.concat_eq_append] at hp ⊢
    have hmem : q ∈ above := by
      rcases hp with hp | hp
      · simp at hp
      · rwa [List.dropLast_concat] at hp
    rw [List.getLast?_concat, List.dropLast_concat, h.pairs q hmem]
    cases b <;> rfl

theorem Decoder.Has.parent (h : d.Has f blob above) {p : List Bool} (hp : p = [] ∨ p.dropLast ∈ above)
    (hnode : IsPath 1 (treeChunks blob.length) p ∧ 1 < (sub (treeChunks blob.length) p).2) :
    ∃ d', d.parent f p (nodeHash f blob (p ++ [false]), nodeHash f blob (p ++ [true])) = some d' ∧
      d'.Has f blob (p :: above) := by
  refine ⟨{ d with pairs := (p, nodeHash f blob (p ++ [false]), nodeHash f blob (p ++ [true])) :: d.pairs }, ?_, ?_⟩
  · rw [Decoder.parent, if_pos]
    rw [h.size, h.expected_eq hp, nodeHash_eq_parent f hnode.1 hnode.2]
    exact ⟨hnode.1, hnode.2, rfl⟩
  · refine ⟨h.size, h.root, ?_⟩
    intro q hq
    simp only
    by_cases hqp : q = p
    · subst hqp
      rw [List.lookup_cons_self]
    · rw [List.lookup_cons, beq_false_of_ne hqp]
      exact h.pairs q ((List.mem_cons.mp hq).resolve_left hqp)

/-- What is written for a node is read. -/
private theorem readNode_bytes (hbytes : ReadsBack f ofBytes toBytes blob) {n pos : Nat}
    (hn : n = treeChunks blob.length)
    (h : d.Has f blob above) {node : Node} {nodes : List Node} (hwalk : Walk k n above pos (node :: nodes))
    (rest : List UInt8) (broken : Option E) :
    ∃ d' above' pos', readNode f k ofBytes d node ⟨(itemAt f blob node).bytes toBytes ++ rest, broken⟩ =
        .ok (itemAt f blob node, d', ⟨rest, broken⟩) ∧ d'.Has f blob above' ∧ Walk k n above' pos' nodes := by
  subst hn
  cases node with
  | parent p =>
    obtain ⟨hnode, habove, hrest⟩ := hwalk
    obtain ⟨d', hd', hhas⟩ := h.parent habove hnode
    obtain ⟨hl, hleft⟩ := hbytes (p ++ [false]) (isPath_concat hnode.1 hnode.2)
    obtain ⟨hr, hright⟩ := hbytes (p ++ [true]) (isPath_concat hnode.1 hnode.2)
    refine ⟨d', p :: above, pos, ?_, hhas, hrest⟩
    have hlen : ((itemAt f blob (.parent p)).bytes toBytes).length = 64 := by
      rw [itemAt, Item.bytes, List.length_append, hl, hr]
    have hread := ByteStream.readExact_append ((itemAt f blob (.parent p)).bytes toBytes) rest broken
    rw [hlen] at hread
    rw [readNode, hread]
    simp only [itemAt, Item.bytes, List.take_left' hl, List.drop_left' hl, hleft, hright, hd']
  | leaf p =>
    obtain ⟨⟨hpath, hle⟩, habove, -, hrest⟩ := hwalk
    refine ⟨d, above, _, ?_, h, hrest⟩
    have hlen : ((itemAt f blob (.leaf p)).bytes toBytes).length = leafLength d.size p := by
      rw [itemAt, Item.bytes, length_region, leafLength, h.size]
    have hread := ByteStream.readExact_append ((itemAt f blob (.leaf p)).bytes toBytes) rest broken
    rw [hlen] at hread
    have hleaf : d.leaf f k p (region blob (sub (treeChunks blob.length) p).1 (sub (treeChunks blob.length) p).2) =
      true := by
      unfold Decoder.leaf
      rw [decide_eq_true_iff, h.size, h.expected_eq habove, length_region]
      exact ⟨hpath, hle, rfl, rfl⟩
    rw [readNode, hread]
    simp only [itemAt, Item.bytes, hleaf, if_true]

/-- What is written for a walk is read, up to what follows it. -/
theorem readNodes_encode (hbytes : ReadsBack f ofBytes toBytes blob) {pos : Nat} {nodes : List Node}
    (h : d.Has f blob above) (hwalk : Walk k (treeChunks blob.length) above pos nodes) (rest : List UInt8)
    (broken : Option E) :
    readNodes f k ofBytes d nodes ⟨encode f toBytes blob nodes ++ rest, broken⟩ =
      (nodes.map (itemAt f blob), .ok ⟨rest, broken⟩) := by
  induction nodes generalizing d above pos with
  | nil => rfl
  | cons node nodes ih =>
    have hsplit : encode f toBytes blob (node :: nodes) ++ rest =
        (itemAt f blob node).bytes toBytes ++ (encode f toBytes blob nodes ++ rest) := by
      rw [encode, List.flatMap_cons, List.append_assoc]
      rfl
    obtain ⟨d', above', pos', hread, hhas, hwalk'⟩ :=
      readNode_bytes hbytes rfl h hwalk (encode f toBytes blob nodes ++ rest) broken
    rw [hsplit, readNodes, hread, List.map_cons]
    simp only [ih hhas hwalk']

/-- There were not enough bytes, and the stream ended or broke off. -/
def DecodeError.Missing (broken : Option E) : DecodeError E → Prop
  | .parentNotFound _ | .leafNotFound _ => broken = none
  | .read e => broken = some e
  | .parentHashMismatch _ | .leafHashMismatch _ => False

/-- A node that has not arrived completely. -/
private theorem readNode_missing {node : Node} {s : ByteStream E} (hbytes : ReadsBack f ofBytes toBytes blob)
    (h : d.size = blob.length) (hnode : ∀ p, node = .parent p → IsPath 1 (treeChunks blob.length) p ∧
      1 < (sub (treeChunks blob.length) p).2) (hlt : s.bytes.length < ((itemAt f blob node).bytes toBytes).length) :
    ∃ e, readNode f k ofBytes d node s = .error e ∧ e.Missing s.broken := by
  cases node with
  | parent p =>
    obtain ⟨hpath, hinner⟩ := hnode p rfl
    have hlen : ((itemAt f blob (.parent p)).bytes toBytes).length = 64 := by
      rw [itemAt, Item.bytes, List.length_append, (hbytes _ (isPath_concat hpath hinner)).1,
        (hbytes _ (isPath_concat hpath hinner)).1]
    rw [readNode, ByteStream.readExact_of_lt (by omega)]
    rcases s.readError_cases with ⟨he, hbroken⟩ | ⟨e', he, hbroken⟩
    · rw [he]
      exact ⟨_, rfl, hbroken⟩
    · rw [he]
      exact ⟨_, rfl, hbroken⟩
  | leaf p =>
    have hlen : ((itemAt f blob (.leaf p)).bytes toBytes).length = leafLength d.size p := by
      rw [itemAt, Item.bytes, length_region, leafLength, h]
    rw [readNode, ByteStream.readExact_of_lt (by omega)]
    rcases s.readError_cases with ⟨he, hbroken⟩ | ⟨e', he, hbroken⟩
    · rw [he]
      exact ⟨_, rfl, hbroken⟩
    · rw [he]
      exact ⟨_, rfl, hbroken⟩

/-- If only a part of what is written for a walk arrives, the nodes that are there are read, and then something is
missing. -/
theorem readNodes_prefix (hbytes : ReadsBack f ofBytes toBytes blob) {pos : Nat} {nodes : List Node} {s : ByteStream E}
    {rest : List UInt8} (h : d.Has f blob above) (hwalk : Walk k (treeChunks blob.length) above pos nodes)
    (hpre : s.bytes <+: encode f toBytes blob nodes ++ rest) :
    (∃ bytes, s.bytes = encode f toBytes blob nodes ++ bytes ∧ bytes <+: rest) ∨
      ∃ i e, readNodes f k ofBytes d nodes s = ((nodes.take i).map (itemAt f blob), .error e) ∧ e.Missing s.broken := by
  induction nodes generalizing d above pos s with
  | nil => exact Or.inl ⟨s.bytes, rfl, hpre⟩
  | cons node nodes ih =>
    have hsplit : encode f toBytes blob (node :: nodes) = (itemAt f blob node).bytes toBytes ++
      encode f toBytes blob nodes := by
      rw [encode, List.flatMap_cons]
      rfl
    rw [hsplit, List.append_assoc] at hpre
    rcases Nat.lt_or_ge s.bytes.length ((itemAt f blob node).bytes toBytes).length with hlt | hge
    · have hnode : ∀ p, node = .parent p → IsPath 1 (treeChunks blob.length) p ∧
        1 < (sub (treeChunks blob.length) p).2 := by
        rintro p rfl
        exact hwalk.1
      obtain ⟨e, hread, he⟩ := readNode_missing hbytes h.size hnode hlt
      refine Or.inr ⟨0, e, ?_, he⟩
      rw [readNodes, hread]
      rfl
    · obtain ⟨bytes, hs⟩ := List.prefix_of_prefix_length_le (List.prefix_append _ _) hpre hge
      rw [← hs, List.prefix_append_right_inj] at hpre
      obtain ⟨d', above', pos', hread, hhas, hwalk'⟩ := readNode_bytes hbytes rfl h hwalk bytes s.broken
      rcases ih (s := ⟨bytes, s.broken⟩) hhas hwalk' hpre with ⟨bytes', hbytes', hrest⟩ | ⟨i, e, hnodes, he⟩
      · refine Or.inl ⟨bytes', ?_, hrest⟩
        rw [← hs, hsplit, List.append_assoc]
        exact congrArg _ hbytes'
      · refine Or.inr ⟨i + 1, e, ?_, he⟩
        have hstream : s = ⟨(itemAt f blob node).bytes toBytes ++ bytes, s.broken⟩ := by rw [hs]
        rw [hstream, readNodes, hread, List.take_succ_cons, List.map_cons]
        simp only [hnodes]

end

end Merkle
