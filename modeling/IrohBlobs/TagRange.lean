import IrohBlobs.MetaActor

/-!
# Selections of tags

Tags are listed and deleted by a range of byte strings, from a tag (inclusive) to a tag (exclusive).  The requests of
`api/proto.rs` translate a prefix, a range with any bounds and a single name to such a range.

The end of a prefix is computed by `next_prefix`, which adds one to the last byte that is not `0xFF`, and sets the
bytes after it to zero.  The tags that are extended from the incremented prefix by fewer zeros are before this end,
and do not start with the prefix.
-/

namespace IrohBlobs

namespace Meta

/-! ### Requests -/

/-- The successor of this tag in lexicographic order. -/
def Tag.successor (tag : Tag) : Tag := tag ++ [0]

/-- The loop of `next_prefix`, which goes over the bytes from the last one. -/
def nextPrefixLoop : List UInt8 → Bool × List UInt8
  | [] => (false, [])
  | byte :: rest =>
    if byte < 255 then (true, (byte + 1) :: rest)
    else ((nextPrefixLoop rest).1, 0 :: (nextPrefixLoop rest).2)

/-- Increments the bytes in place, and tells if there is a higher prefix. -/
def nextPrefix (bytes : List UInt8) : Bool × List UInt8 :=
  ((nextPrefixLoop bytes.reverse).1, (nextPrefixLoop bytes.reverse).2.reverse)

/-- If this is a prefix, get the next prefix. -/
def Tag.nextPrefix (tag : Tag) : Option Tag :=
  if (Meta.nextPrefix tag).1 then some (Meta.nextPrefix tag).2 else none

inductive Bound
  | included (tag : Tag)
  | excluded (tag : Tag)
  | unbounded

/-- A range of tags with any bounds. -/
structure TagBounds where
  lower : Bound
  upper : Bound

def TagBounds.contains (range : TagBounds) (tag : Tag) : Bool :=
  (match range.lower with
    | .included lower => decide (lower ≤ tag)
    | .excluded lower => decide (lower < tag)
    | .unbounded => true) &&
  (match range.upper with
    | .included upper => decide (tag ≤ upper)
    | .excluded upper => decide (tag < upper)
    | .unbounded => true)

def tagsFromRange (range : TagBounds) : Option Tag × Option Tag :=
  (match range.lower with
    | .included lower => some lower
    | .excluded lower => some (Tag.successor lower)
    | .unbounded => none,
  match range.upper with
    | .included upper => some (Tag.successor upper)
    | .excluded upper => some upper
    | .unbounded => none)

structure ListTagsRequest where
  hashSeq : Bool
  raw : Bool
  lower : Option Tag
  upper : Option Tag

namespace ListTagsRequest

/-- List a range of tags. -/
def range (range : TagBounds) : ListTagsRequest := ⟨true, true, (tagsFromRange range).1, (tagsFromRange range).2⟩

/-- List tags with a prefix. -/
def withPrefix (p : Tag) : ListTagsRequest := ⟨true, true, some p, p.nextPrefix⟩

/-- List a single tag. -/
def single (name : Tag) : ListTagsRequest := ⟨true, true, some name, some name.successor⟩

end ListTagsRequest

structure DeleteTagsRequest where
  lower : Option Tag
  upper : Option Tag

namespace DeleteTagsRequest

/-- Delete a range of tags. -/
def range (range : TagBounds) : DeleteTagsRequest := ⟨(tagsFromRange range).1, (tagsFromRange range).2⟩

/-- Delete tags with a prefix. -/
def withPrefix (p : Tag) : DeleteTagsRequest := ⟨some p, p.nextPrefix⟩

/-- Delete a single tag. -/
def single (name : Tag) : DeleteTagsRequest := ⟨some name, some name.successor⟩

end DeleteTagsRequest

/-! ### The memory store -/

/-- The closure of `retain`. -/
def retained (request : DeleteTagsRequest) (tag : Tag) : Bool :=
  (match request.lower with
    | some lower => decide (tag < lower)
    | none => false) ||
  (match request.upper with
    | some upper => decide (upper ≤ tag)
    | none => false)

def memDeleteTags (tags : Tags) (request : DeleteTagsRequest) : Tags := tags.filter (fun t => retained request t.1)

/-- The closure of `filter`. -/
def listed (request : ListTagsRequest) (tag : Tag) (value : HashAndFormat) : Bool :=
  if (match request.lower with | some lower => decide (tag < lower) | none => false) then false
  else if (match request.upper with | some upper => decide (upper ≤ tag) | none => false) then false
  else request.raw && value.format.isRaw || request.hashSeq && !value.format.isRaw

def memListTags (tags : Tags) (request : ListTagsRequest) : Tags := tags.filter (fun t => listed request t.1 t.2)

/-! ### Exact selection -/

/-- In both stores exactly the selected tags are listed, and exactly those are deleted. -/
structure SelectsExactly (db : Db) (isProtected : Finset Hash) (list : ListTagsRequest) (delete : DeleteTagsRequest)
    (selected : Tag → Bool) : Prop where
  listMem : memListTags db.tags list = db.tags.filter (fun t => selected t.1)
  listFs : handleReadonly isProtected db (.listTags list.lower list.upper list.raw list.hashSeq) =
    .ok (isProtected, .tags (db.tags.filter (fun t => selected t.1)))
  deleteMem : memDeleteTags db.tags delete = db.tags.filter (fun t => !selected t.1)
  deleteFs : handleReadwrite isProtected db (.deleteTags delete.lower delete.upper) =
    .ok (isProtected, { db with tags := db.tags.filter (fun t => !selected t.1) }, .done)

private theorem decide_lt_eq_not (a b : Tag) : decide (a < b) = !decide (b ≤ a) := by
  rw [← decide_not, decide_eq_decide]
  exact List.not_le.symm

theorem retained_eq (request : DeleteTagsRequest) (tag : Tag) :
    retained request tag = !inRange request.lower request.upper tag := by
  obtain ⟨lower, upper⟩ := request
  cases lower <;> cases upper <;> simp [retained, inRange, decide_lt_eq_not]

private theorem listed_eq (lower upper : Option Tag) (tag : Tag) (value : HashAndFormat) :
    listed ⟨true, true, lower, upper⟩ tag value = inRange lower upper tag := by
  have hformat : (value.format.isRaw || !value.format.isRaw) = true := Bool.or_not_self _
  cases lower with
  | none => cases upper <;> simp [listed, inRange, hformat, decide_lt_eq_not]
  | some lower => cases upper <;> simp [listed, inRange, hformat, decide_lt_eq_not]

/-- The stores select the tags in the range of the requests. -/
private theorem selectsExactly_iff {db : Db} {isProtected : Finset Hash} {lower upper : Option Tag}
    {selected : Tag → Bool} :
    SelectsExactly db isProtected ⟨true, true, lower, upper⟩ ⟨lower, upper⟩ selected ↔
      ∀ t ∈ db.tags, inRange lower upper t.1 = selected t.1 := by
  have hlist : memListTags db.tags ⟨true, true, lower, upper⟩ = db.tags.filter (fun t => inRange lower upper t.1) := by
    simp only [memListTags, listed_eq]
  have hdelete : memDeleteTags db.tags ⟨lower, upper⟩ = db.tags.filter (fun t => !inRange lower upper t.1) := by
    simp only [memDeleteTags, retained_eq]
  constructor
  · intro h t ht
    have hmem : t ∈ db.tags.filter (fun t => inRange lower upper t.1) ↔ t ∈ db.tags.filter (fun t => selected t.1) := by
      rw [← hlist, h.listMem]
    rw [List.mem_filter, List.mem_filter] at hmem
    rw [Bool.eq_iff_iff]
    exact and_congr_right_iff.mp hmem ht
  · intro h
    have hsel : db.tags.filter (fun t => inRange lower upper t.1) = db.tags.filter (fun t => selected t.1) :=
      List.filter_congr h
    have hnot : db.tags.filter (fun t => !inRange lower upper t.1) = db.tags.filter (fun t => !selected t.1) :=
      List.filter_congr (fun t ht => congrArg not (h t ht))
    refine ⟨hlist.trans hsel, ?_, hdelete.trans hnot, ?_⟩
    · rw [handleReadonly, handleListTags, ← hsel]
      simp
    · rw [handleReadwrite, hnot]

/-! ### Ranges and names -/

private theorem lt_successor_iff (a b : Tag) : a < b.successor ↔ a ≤ b := by
  induction b generalizing a with
  | nil =>
    cases a with
    | nil => exact iff_of_true (List.nil_lt_cons 0 []) (List.nil_le [])
    | cons x a =>
      refine iff_of_false ?_ (fun h => h (List.nil_lt_cons x a))
      rw [Tag.successor, List.nil_append, List.cons_lt_cons_iff]
      rintro (h | ⟨-, h⟩)
      · exact UInt8.not_lt_zero h
      · exact List.not_lt_nil a h
  | cons y b ih =>
    cases a with
    | nil => exact iff_of_true (List.nil_lt_cons y _) (List.nil_le _)
    | cons x a =>
      have hsucc : Tag.successor (y :: b) = y :: Tag.successor b := rfl
      rw [hsucc, List.cons_lt_cons_iff, List.cons_le_cons_iff, ih]

private theorem successor_le_iff (a b : Tag) : a.successor ≤ b ↔ a < b := by
  rw [← List.not_lt, lt_successor_iff, List.not_le]

/-- The translation to a half-open range is exact. -/
private theorem inRange_tagsFromRange (range : TagBounds) (tag : Tag) :
    inRange (tagsFromRange range).1 (tagsFromRange range).2 tag = range.contains tag := by
  obtain ⟨lower, upper⟩ := range
  cases lower <;> cases upper <;> simp [inRange, tagsFromRange, TagBounds.contains, lt_successor_iff, successor_le_iff]

/-- Between a tag and its successor there is no other tag. -/
private theorem inRange_successor (name tag : Tag) :
    inRange (some name) (some name.successor) tag = decide (tag = name) := by
  rw [inRange, ← Bool.decide_and, decide_eq_decide, lt_successor_iff]
  constructor
  · rintro ⟨hle, hge⟩
    exact List.le_antisymm hge hle
  · rintro rfl
    exact ⟨List.le_refl tag, List.le_refl tag⟩

/-! ### Prefixes -/

private theorem nextPrefixLoop_append (k : Nat) (rest : List UInt8) :
    nextPrefixLoop (List.replicate k 255 ++ rest) =
      ((nextPrefixLoop rest).1, List.replicate k 0 ++ (nextPrefixLoop rest).2) := by
  induction k with
  | zero => rfl
  | succ k ih => rw [List.replicate_succ, List.cons_append, nextPrefixLoop, if_neg (by decide), ih]; rfl

/-- The last byte that is not `0xFF` is incremented, and the bytes after it are set to zero. -/
private theorem nextPrefix_of_lt {q : List UInt8} {b : UInt8} (hb : b < 255) (k : Nat) :
    Tag.nextPrefix (q ++ b :: List.replicate k 255) = some (q ++ (b + 1) :: List.replicate k 0) := by
  have hloop : nextPrefixLoop (q ++ b :: List.replicate k 255).reverse =
      (true, List.replicate k 0 ++ (b + 1) :: q.reverse) := by
    rw [List.reverse_append, List.reverse_cons, List.reverse_replicate, List.append_assoc, nextPrefixLoop_append,
      List.singleton_append, nextPrefixLoop, if_pos hb]
  rw [Tag.nextPrefix, Meta.nextPrefix, hloop]
  simp

/-- There is no higher prefix. -/
private theorem nextPrefix_replicate (k : Nat) : Tag.nextPrefix (List.replicate k 255) = none := by
  have hloop : nextPrefixLoop (List.replicate k 255).reverse = (false, List.replicate k 0) := by
    have h := nextPrefixLoop_append k []
    rw [List.append_nil, nextPrefixLoop, List.append_nil] at h
    rw [List.reverse_replicate, h]
  rw [Tag.nextPrefix, Meta.nextPrefix, hloop]
  rfl

/-- A prefix has only the byte `0xFF`, or it has a last other byte. -/
private theorem trailing_cases (p : Tag) :
    (∃ k, p = List.replicate k 255) ∨ ∃ q b k, b < 255 ∧ p = q ++ b :: List.replicate k 255 := by
  induction p using List.reverseRecOn with
  | nil => exact Or.inl ⟨0, rfl⟩
  | append_singleton p x ih =>
    by_cases hx : x = 255
    · subst hx
      rcases ih with ⟨k, rfl⟩ | ⟨q, b, k, hb, rfl⟩
      · exact Or.inl ⟨k + 1, (List.replicate_succ').symm⟩
      · refine Or.inr ⟨q, b, k + 1, hb, ?_⟩
        rw [List.replicate_succ', List.append_assoc, List.cons_append]
    · refine Or.inr ⟨p, x, 0, ?_, rfl⟩
      rw [UInt8.lt_iff_toNat_lt]
      have hne : x.toNat ≠ 255 := fun h => hx (UInt8.toNat_inj.mp h)
      have hlt := x.toNat_lt
      show x.toNat < 255
      omega

private theorem replicate_le_iff (k : Nat) (t : Tag) : List.replicate k 255 ≤ t ↔ List.replicate k 255 <+: t := by
  induction k generalizing t with
  | zero => exact iff_of_true (List.nil_le t) (List.nil_prefix)
  | succ k ih =>
    cases t with
    | nil => exact iff_of_false (fun h => h (List.nil_lt_cons _ _)) (fun h => by simp at h)
    | cons x t =>
      rw [List.replicate_succ, List.cons_le_cons_iff, List.cons_prefix_cons, ih]
      have hx : ¬ (255 : UInt8) < x := by
        rw [UInt8.lt_iff_toNat_lt]
        have hlt := x.toNat_lt
        show ¬ 255 < x.toNat
        omega
      simp [hx]

private theorem lt_replicate_iff (k : Nat) (t : Tag) :
    t < List.replicate k 0 ↔ ∃ j, j < k ∧ t = List.replicate j 0 := by
  induction k generalizing t with
  | zero => exact iff_of_false (List.not_lt_nil t) (by simp)
  | succ k ih =>
    cases t with
    | nil => exact iff_of_true (List.nil_lt_cons _ _) ⟨0, Nat.succ_pos k, rfl⟩
    | cons x t =>
      rw [List.replicate_succ, List.cons_lt_cons_iff, ih]
      constructor
      · rintro (h | ⟨rfl, j, hj, rfl⟩)
        · exact absurd h UInt8.not_lt_zero
        · exact ⟨j + 1, Nat.succ_lt_succ hj, rfl⟩
      · rintro ⟨j, hj, heq⟩
        cases j with
        | zero => cases heq
        | succ j =>
          rw [List.replicate_succ, List.cons.injEq] at heq
          exact Or.inr ⟨heq.1, j, Nat.lt_of_succ_lt_succ hj, heq.2⟩

/-- Two bounds with a common beginning are bounds of the rest of a tag with this beginning. -/
private theorem between_append {q a b t : Tag} :
    (q ++ a ≤ t ∧ t < q ++ b) ↔ ∃ u, t = q ++ u ∧ a ≤ u ∧ u < b := by
  induction q generalizing t with
  | nil => simp
  | cons x q ih =>
    cases t with
    | nil => exact iff_of_false (fun h => h.1 (List.nil_lt_cons _ _)) (by simp)
    | cons y t =>
      rw [List.cons_append, List.cons_append, List.cons_le_cons_iff, List.cons_lt_cons_iff]
      constructor
      · rintro ⟨hlower, hupper⟩
        have heq : x = y := by
          rcases hlower with hlt | ⟨heq, -⟩
          · rcases hupper with hgt | ⟨heq, -⟩
            · exact absurd hgt (UInt8.lt_asymm hlt)
            · exact heq.symm
          · exact heq
        subst heq
        have hrest : q ++ a ≤ t ∧ t < q ++ b := ⟨by simpa using hlower, by simpa using hupper⟩
        obtain ⟨u, rfl, hu⟩ := ih.mp hrest
        exact ⟨u, rfl, hu⟩
      · rintro ⟨u, heq, hu⟩
        rw [List.cons_append, List.cons.injEq] at heq
        obtain ⟨rfl, ht⟩ := heq
        obtain ⟨h1, h2⟩ := ih.mpr ⟨u, ht, hu⟩
        exact ⟨Or.inr ⟨rfl, h1⟩, Or.inr ⟨rfl, h2⟩⟩

/-- The tag is the incremented prefix without some of the zeros at its end. -/
def Overshoots (p t : Tag) : Prop :=
  ∃ q b k j, b < 255 ∧ j < k ∧ p = q ++ b :: List.replicate k 255 ∧ t = q ++ (b + 1) :: List.replicate j 0

private theorem lt_add_one_iff {b x : UInt8} (hb : b < 255) : x < b + 1 ↔ x ≤ b := by
  rw [UInt8.lt_iff_toNat_lt] at hb ⊢
  rw [UInt8.le_iff_toNat_le, UInt8.toNat_add]
  have hlt : b.toNat < 255 := hb
  have hone : (b.toNat + (1 : UInt8).toNat) % 2 ^ 8 = b.toNat + 1 :=
    Nat.mod_eq_of_lt (show b.toNat + 1 < 256 by omega)
  rw [hone]
  omega

/-- In the range of a prefix are the tags that start with it, and those that are too short to be after its end. -/
private theorem between_nextPrefix {q t : Tag} {b : UInt8} (hb : b < 255) (k : Nat) :
    (q ++ b :: List.replicate k 255 ≤ t ∧ t < q ++ (b + 1) :: List.replicate k 0) ↔
      q ++ b :: List.replicate k 255 <+: t ∨ ∃ j, j < k ∧ t = q ++ (b + 1) :: List.replicate j 0 := by
  have hne : b < b + 1 := (lt_add_one_iff hb).mpr (UInt8.le_refl b)
  have hfirst : ∀ u : Tag, (b :: List.replicate k 255 ≤ u ∧ u < (b + 1) :: List.replicate k 0) ↔
      b :: List.replicate k 255 <+: u ∨ ∃ j, j < k ∧ u = (b + 1) :: List.replicate j 0 := by
    intro u
    cases u with
    | nil => exact iff_of_false (fun h => h.1 (List.nil_lt_cons _ _)) (by simp)
    | cons x u =>
      rw [List.cons_le_cons_iff, List.cons_lt_cons_iff, List.cons_prefix_cons, replicate_le_iff, lt_replicate_iff,
        lt_add_one_iff hb]
      simp only [List.cons.injEq]
      constructor
      · rintro ⟨hlower | ⟨rfl, hpre⟩, hupper⟩
        · rcases hupper with hle | ⟨rfl, j, hj, rfl⟩
          · exact absurd hlower (UInt8.not_lt.mpr hle)
          · exact Or.inr ⟨j, hj, rfl, rfl⟩
        · exact Or.inl ⟨rfl, hpre⟩
      · rintro (⟨rfl, hpre⟩ | ⟨j, hj, rfl, rfl⟩)
        · exact ⟨Or.inr ⟨rfl, hpre⟩, Or.inl (UInt8.le_refl b)⟩
        · exact ⟨Or.inl hne, Or.inr ⟨rfl, j, hj, rfl⟩⟩
  rw [between_append]
  constructor
  · rintro ⟨u, rfl, hu⟩
    rcases (hfirst u).mp hu with hpre | ⟨j, hj, rfl⟩
    · exact Or.inl (List.prefix_append_right_inj q |>.mpr hpre)
    · exact Or.inr ⟨j, hj, rfl⟩
  · rintro (⟨u, rfl⟩ | ⟨j, hj, rfl⟩)
    · refine ⟨b :: List.replicate k 255 ++ u, by simp, (hfirst _).mpr (Or.inl (List.prefix_append _ _))⟩
    · exact ⟨_, rfl, (hfirst _).mpr (Or.inr ⟨j, hj, rfl⟩)⟩

private theorem Overshoots.not_startsWith {p t : Tag} (h : Overshoots p t) : ¬ p <+: t := by
  obtain ⟨q, b, k, j, hb, -, rfl, rfl⟩ := h
  rw [List.prefix_append_right_inj, List.cons_prefix_cons]
  rintro ⟨heq, -⟩
  have hlt : b < b + 1 := (lt_add_one_iff hb).mpr (UInt8.le_refl b)
  rw [← heq] at hlt
  exact UInt8.lt_irrefl b hlt

private theorem inRange_nextPrefix_iff (p t : Tag) : inRange (some p) p.nextPrefix t = true ↔
    p <+: t ∨ Overshoots p t := by
  constructor
  · intro h
    rcases trailing_cases p with ⟨k, rfl⟩ | ⟨q, b, k, hb, rfl⟩
    · rw [nextPrefix_replicate, inRange, Bool.and_true, decide_eq_true_eq, replicate_le_iff] at h
      exact Or.inl h
    · rw [nextPrefix_of_lt hb, inRange, Bool.and_eq_true, decide_eq_true_eq, decide_eq_true_eq,
        between_nextPrefix hb] at h
      rcases h with h | ⟨j, hj, rfl⟩
      · exact Or.inl h
      · exact Or.inr ⟨q, b, k, j, hb, hj, rfl, rfl⟩
  · rintro (h | ⟨q, b, k, j, hb, hj, rfl, rfl⟩)
    · rcases trailing_cases p with ⟨k, rfl⟩ | ⟨q, b, k, hb, rfl⟩
      · rw [nextPrefix_replicate, inRange, Bool.and_true, decide_eq_true_eq, replicate_le_iff]
        exact h
      · rw [nextPrefix_of_lt hb, inRange, Bool.and_eq_true, decide_eq_true_eq, decide_eq_true_eq, between_nextPrefix hb]
        exact Or.inl h
    · rw [nextPrefix_of_lt hb, inRange, Bool.and_eq_true, decide_eq_true_eq, decide_eq_true_eq, between_nextPrefix hb]
      exact Or.inr ⟨j, hj, rfl⟩

/-- Ranges and single names are selected exactly.  A prefix is, exactly if none of the tags is the incremented prefix
without some of the zeros at its end. -/
theorem tag_selection_exact_iff (db : Db) (isProtected : Finset Hash) (p : Tag) (r : TagBounds) (n : Tag) :
    (SelectsExactly db isProtected (ListTagsRequest.withPrefix p) (DeleteTagsRequest.withPrefix p)
      (fun t => p.isPrefixOf t) ↔
      ∀ t ∈ db.tags, ¬ Overshoots p t.1) ∧
    SelectsExactly db isProtected (ListTagsRequest.range r) (DeleteTagsRequest.range r) r.contains ∧
    SelectsExactly db isProtected (ListTagsRequest.single n) (DeleteTagsRequest.single n)
      (fun t => decide (t = n)) := by
  refine ⟨?_, ?_, ?_⟩
  · rw [ListTagsRequest.withPrefix, DeleteTagsRequest.withPrefix, selectsExactly_iff]
    refine forall₂_congr ?_
    intro t _
    rw [Bool.eq_iff_iff, inRange_nextPrefix_iff, List.isPrefixOf_iff_prefix]
    constructor
    · intro h hover
      exact hover.not_startsWith (h.mp (Or.inr hover))
    · intro h
      exact or_iff_left h
  · rw [ListTagsRequest.range, DeleteTagsRequest.range, selectsExactly_iff]
    intro t _
    exact inRange_tagsFromRange r t.1
  · rw [ListTagsRequest.single, DeleteTagsRequest.single, selectsExactly_iff]
    intro t _
    exact inRange_successor n t.1

/-- The tag `b` is deleted with the prefix `a` followed by `0xFF`. -/
theorem not_selectsExactly_b :
    memDeleteTags [([98], ⟨.replicate 0, .raw⟩)] (DeleteTagsRequest.withPrefix [97, 255]) = [] ∧
      ¬ SelectsExactly { Db.empty with tags := [([98], ⟨.replicate 0, .raw⟩)] } ∅ (ListTagsRequest.withPrefix [97, 255])
        (DeleteTagsRequest.withPrefix [97, 255]) (fun t => List.isPrefixOf [97, 255] t) := by
  refine ⟨by decide, ?_⟩
  intro h
  exact absurd h.deleteMem (by decide)

end Meta

end IrohBlobs
