import IrohBlobs.Bitfield
import IrohBlobs.ExportBao
import IrohBlobs.Fuel
import IrohBlobs.RangeWire

/-!
# What is local of a request

The model of `LocalInfo` and `local_for_request` in `api/remote.rs`.  `localForRequest` collects the bitfield of the
root, the hashes of the requested children that are known and their bitfields; `isComplete` and `missing` compare them
with the request.  The loops walk an iterator that may never end, so they run for a bounded number of rounds and
return nothing when the rounds do not suffice (or when the source would panic).

What a `LocalInfo` says about child `i` is `known i`; `isComplete_spec` describes `is_complete` pointwise in terms of
it.  For the root, both functions read the first entry of the request at offset `0`.  If several entries have that
offset, the last one counts everywhere else.
-/

namespace IrohBlobs

namespace Remote

variable {E : Type}

/-- The store as `local_for_request` sees it.  Bitfields can change between calls: `observe n` is the answer to the
`n`-th call. -/
structure StoreClient (E : Type) where
  observe : Nat → Hash → Except E Bitfield
  exportBao : Hash → ChunkRanges → ExportBaoProgress

/-- The available and relevant part of a hash sequence, and the bitfields of its hashes. -/
structure NonRawLocalInfo where
  hashSeq : AList (fun _ : Nat => Hash)
  bitfields : AList (fun _ : Hash => Bitfield)

structure LocalInfo where
  request : GetRequest Hash
  bitfield : Bitfield
  /-- Nothing for a request of a single blob. -/
  children : Option NonRawLocalInfo

/-- One more than the last key, or zero. -/
def nextKey (m : AList (fun _ : Nat => Hash)) : Nat := (m.keys.max?.map (· + 1)).getD 0

/-- A hash that could be read is added; errors are skipped. -/
def insertHash (m : AList (fun _ : Nat => Hash)) : Except HashesError (Nat × Hash) → AList (fun _ : Nat => Hash)
  | .ok (index, hash) => m.insert index hash
  | .error _ => m

/-- The hashes of the part of the hash sequence that could be read. -/
def byIndex (items : List (Except HashesError (Nat × Hash))) : AList (fun _ : Nat => Hash) := items.foldl insertHash ∅

/-- The loop over the requested children, with the number of the next observe call. -/
def localLoop (observe : Nat → Hash → Except E Bitfield) (byIndex : AList (fun _ : Nat => Hash)) :
    Nat → ChunkRangesSeq.NonEmptyIter → Nat → NonRawLocalInfo → Option (Except E NonRawLocalInfo)
  | 0, _, _, _ => none
  | fuel + 1, iter, calls, info =>
    match iter.next with
    | (none, _) => some (.ok info)
    | (some (index, _), iter) =>
      if index = 0 then localLoop observe byIndex fuel iter calls info
      else if index - 1 > nextKey byIndex then some (.ok info)
      else
        match byIndex.lookup (index - 1) with
        -- the hash is not there, so the bitfield can not be stored
        | none => localLoop observe byIndex fuel iter calls info
        | some hash =>
          match observe calls hash with
          | .error e => some (.error e)
          | .ok bitfield =>
            localLoop observe byIndex fuel iter (calls + 1)
              ⟨info.hashSeq.insert (index - 1) hash, info.bitfields.insert hash bitfield⟩

def localForRequest (store : StoreClient E) (request : GetRequest Hash) (fuel : Nat) : Option (Except E LocalInfo) :=
  match store.observe 0 request.hash with
  | .error e => some (.error e)
  | .ok bitfield =>
    if request.ranges.isBlob then some (.ok ⟨request, bitfield, none⟩)
    else
      let byIndex := byIndex (hashesWithIndex (store.exportBao request.hash bitfield.ranges))
      (localLoop store.observe byIndex fuel request.ranges.iterNonEmptyInfinite 1 ⟨∅, ∅⟩).map
        (fun res => res.map (fun children => ⟨request, bitfield, some children⟩))

namespace LocalInfo

/-- The requested ranges of the root, or nothing if the request is empty. -/
def requestedRootRanges (info : LocalInfo) : Option ChunkRanges := info.request.ranges.iter.next.map Prod.fst

/-- The loop of `is_complete` over the requested children. -/
def isCompleteLoop (children : NonRawLocalInfo) (maxChild : Option Nat) :
    Nat → ChunkRangesSeq.NonEmptyIter → Option Bool
  | 0, _ => none
  | fuel + 1, iter =>
    match iter.next with
    | (none, _) => some true
    | (some (offset, range), iter) =>
      if offset = 0 then isCompleteLoop children maxChild fuel iter
      else
        match children.hashSeq.lookup (offset - 1) with
        | some hash =>
          (children.bitfields.lookup hash).bind fun bitfield =>
            if bitfield.ranges.isSuperset range then isCompleteLoop children maxChild fuel iter else some false
        | none =>
          match maxChild with
          -- reading after the end of the hash sequence is fine
          | some maxChild => some (decide (maxChild ≤ offset - 1))
          | none => some false

def isComplete (info : LocalInfo) (fuel : Nat) : Option Bool :=
  match info.requestedRootRanges with
  | none => some true
  | some rootRequested =>
    if !info.bitfield.ranges.isSuperset rootRequested then some false
    else
      match info.children with
      | none => some true
      | some children =>
        isCompleteLoop children (info.bitfield.validatedSize.map (· / 32)) fuel info.request.ranges.iterNonEmptyInfinite

/-- What is missing of a child. -/
def missingOfChild (children : NonRawLocalInfo) (child : Nat) (requested : ChunkRanges) : Option ChunkRanges :=
  match children.hashSeq.lookup child with
  | some hash => (children.bitfields.lookup hash).map (fun bitfield => requested \ bitfield.ranges)
  | none => some requested

/-- The first loop of `missing`, up to the last known child. -/
def missingKnown (children : NonRawLocalInfo) (maxLocal : Nat) :
    Nat → ChunkRangesSeq.NonEmptyIter → GetRequestBuilder → Option (GetRequestBuilder × ChunkRangesSeq.NonEmptyIter)
  | 0, _, _ => none
  | fuel + 1, iter, builder =>
    match iter.next with
    | (none, iter) => some (builder, iter)
    | (some (offset, requested), iter) =>
      if offset = 0 then missingKnown children maxLocal fuel iter builder
      else
        (missingOfChild children (offset - 1) requested).bind fun missing =>
          let builder := builder.child (offset - 1) missing
          -- nothing clever can be done anymore
          if maxLocal ≤ offset then some (builder, iter) else missingKnown children maxLocal fuel iter builder

/-- The second loop of `missing`, up to the end of the hash sequence if it is known. -/
def missingRest (hash : Hash) (maxOffset : Option Nat) :
    Nat → ChunkRangesSeq.NonEmptyIter → GetRequestBuilder → Option (GetRequest Hash)
  | 0, _, _ => none
  | fuel + 1, iter, builder =>
    match iter.next with
    | (none, _) => some (builder.build hash)
    | (some (offset, requested), iter) =>
      if offset = 0 then missingRest hash maxOffset fuel iter builder
      else
        match maxOffset with
        | some maxOffset =>
          if maxOffset ≤ offset - 1 then some (builder.build hash)
          else missingRest hash (some maxOffset) fuel iter (builder.child (offset - 1) requested)
        | none =>
          let builder := builder.child (offset - 1) requested
          if iter.isAtEnd then
            if iter.next.1.isNone then some (builder.build hash) else some (builder.buildOpen hash)
          else missingRest hash none fuel iter builder

/-- A request to get the missing data to complete the request. -/
def missing (info : LocalInfo) (fuel : Nat) : Option (GetRequest Hash) :=
  match info.requestedRootRanges with
  | none => some ⟨info.request.hash, ChunkRangesSeq.empty⟩
  | some rootRequested =>
    let builder := GetRequestBuilder.empty.root (rootRequested \ info.bitfield.ranges)
    match info.children with
    | none => some (builder.build info.request.hash)
    | some children =>
      (missingKnown children (nextKey children.hashSeq) fuel info.request.ranges.iterNonEmptyInfinite builder).bind
        fun (builder, iter) =>
          missingRest info.request.hash (info.bitfield.validatedSize.map (· / 32)) fuel iter builder

end LocalInfo

/-! ### The known children -/

/-- The bitfield of a child whose hash is known. -/
def NonRawLocalInfo.known (info : NonRawLocalInfo) (child : Nat) : Option Bitfield :=
  (info.hashSeq.lookup child).bind (fun hash => info.bitfields.lookup hash)

def LocalInfo.known (info : LocalInfo) (child : Nat) : Option Bitfield :=
  info.children.bind (fun children => children.known child)

/-- The hashes are those of the requested children among `hashes`, and each has a bitfield. -/
structure NonRawLocalInfo.Built (info : NonRawLocalInfo) (hashes : AList (fun _ : Nat => Hash))
    (ranges : ChunkRangesSeq)
    (n : Nat) : Prop where
  hashSeq : ∀ child, info.hashSeq.lookup child =
    if child + 1 < n ∧ (ranges.get (child + 1)).isEmpty = false then hashes.lookup child else none
  bitfields : ∀ child hash, info.hashSeq.lookup child = some hash → (info.bitfields.lookup hash).isSome = true

theorem lookup_of_nextKey_le {m : AList (fun _ : Nat => Hash)} {k : Nat} (h : nextKey m ≤ k) : m.lookup k = none := by
  rw [AList.lookup_eq_none, AList.mem_keys]
  intro hk
  unfold nextKey at h
  cases hmax : m.keys.max? with
  | none => rw [List.max?_eq_none_iff] at hmax; simp [hmax] at hk
  | some k' =>
    have := (List.max?_eq_some_iff.mp hmax).2 k hk
    simp only [hmax, Option.map_some, Option.getD_some] at h
    omega

theorem lookup_pred_nextKey {m : AList (fun _ : Nat => Hash)} {k : Nat} (h : nextKey m = k + 1) :
    (m.lookup k).isSome = true := by
  rw [AList.lookup_isSome, AList.mem_keys]
  unfold nextKey at h
  cases hmax : m.keys.max? with
  | none => simp [hmax] at h
  | some k' =>
    simp only [hmax, Option.map_some, Option.getD_some, Nat.add_right_cancel_iff] at h
    subst h
    exact (List.max?_eq_some_iff.mp hmax).1

section Built

variable {hashes : AList (fun _ : Nat => Hash)} {ranges : ChunkRangesSeq}

/-- Blobs that are not requested are skipped. -/
private theorem NonRawLocalInfo.Built.skip {info : NonRawLocalInfo} {n m : Nat} (h : info.Built hashes ranges n)
    (hnm : n ≤ m) (hskip : ∀ child, n ≤ child + 1 → child + 1 < m → (ranges.get (child + 1)).isEmpty = false →
      hashes.lookup child = none) : info.Built hashes ranges m := by
  refine ⟨fun child => ?_, h.bitfields⟩
  rw [h.hashSeq child]
  by_cases hr : (ranges.get (child + 1)).isEmpty = false
  · by_cases h1 : child + 1 < n
    · rw [if_pos ⟨h1, hr⟩, if_pos ⟨by omega, hr⟩]
    · by_cases h2 : child + 1 < m
      · rw [if_neg (fun hc => h1 hc.1), if_pos ⟨h2, hr⟩, hskip child (by omega) h2 hr]
      · rw [if_neg (fun hc => h1 hc.1), if_neg (fun hc => h2 hc.1)]
  · rw [if_neg (fun hc => hr hc.2), if_neg (fun hc => hr hc.2)]

private theorem NonRawLocalInfo.Built.insert {info : NonRawLocalInfo} {child : Nat} {hash : Hash} {bitfield : Bitfield}
    (h : info.Built hashes ranges (child + 1)) (hr : (ranges.get (child + 1)).isEmpty = false)
    (hhash : hashes.lookup child = some hash) :
    NonRawLocalInfo.Built ⟨info.hashSeq.insert child hash, info.bitfields.insert hash bitfield⟩ hashes ranges
      (child + 2) := by
  constructor
  · intro c
    by_cases hc : c = child
    · subst hc
      rw [AList.lookup_insert, if_pos ⟨by omega, hr⟩, hhash]
    · rw [AList.lookup_insert_ne hc, h.hashSeq c]
      by_cases hlt : c < child
      · simp only [show c + 1 < child + 1 ↔ c + 1 < child + 2 by omega]
      · rw [if_neg (by omega), if_neg (by omega)]
  · intro c hash' hl
    by_cases hh : hash' = hash
    · subst hh
      simp [AList.lookup_insert]
    · simp only [AList.lookup_insert_ne hh]
      by_cases hc : c = child
      · subst hc
        rw [AList.lookup_insert, Option.some.injEq] at hl
        exact absurd hl.symm hh
      · rw [AList.lookup_insert_ne hc] at hl
        exact h.bitfields c hash' hl

/-- The loop collects the requested children whose hashes are known. -/
private theorem built_localLoop {observe : Nat → Hash → Except E Bitfield} {fuel n calls : Nat}
    {info children : NonRawLocalInfo} (h : info.Built hashes ranges n)
    (hrun : localLoop observe hashes fuel (ranges.nonEmptyAt n) calls info = some (.ok children)) :
    ∃ N, ∀ m, N ≤ m → children.Built hashes ranges m := by
  induction fuel generalizing n calls info with
  | zero => cases hrun
  | succ fuel ih =>
    rw [localLoop] at hrun
    rcases ranges.next_cases n with ⟨i, hni, hi, hmin, hnext⟩ | ⟨hall, m, hm, hnext⟩
    · simp only [hnext] at hrun
      have hempty : ∀ child, n ≤ child + 1 → child + 1 < i → (ranges.get (child + 1)).isEmpty = false →
          hashes.lookup child = none := by
        intro child h1 h2 h3
        rw [hmin (child + 1) h1 h2] at h3
        cases h3
      have hati : info.Built hashes ranges i := h.skip hni hempty
      by_cases hzero : i = 0
      · rw [if_pos hzero] at hrun
        exact ih (hati.skip (by omega) (fun child h1 h2 _ => by omega)) hrun
      · rw [if_neg hzero] at hrun
        obtain ⟨child, rfl⟩ : ∃ child, i = child + 1 := ⟨i - 1, by omega⟩
        rw [Nat.add_sub_cancel] at hrun
        split at hrun
        · -- all hashes are below the child
          rename_i hmax
          cases hrun
          refine ⟨child + 1, fun m hm => hati.skip hm (fun c hc _ _ => lookup_of_nextKey_le (by omega))⟩
        · cases hl : hashes.lookup child with
          | none =>
            rw [hl] at hrun
            refine ih (hati.skip (Nat.le_succ _) (fun c h1 h2 _ => ?_)) hrun
            rw [show c = child by omega, hl]
          | some hash =>
            simp only [hl] at hrun
            cases ho : observe calls hash with
            | error e =>
              rw [ho] at hrun
              cases hrun
            | ok bitfield =>
              simp only [ho] at hrun
              exact ih (hati.insert hi hl) hrun
    · simp only [hnext] at hrun
      cases hrun
      refine ⟨n, fun m hm => h.skip hm (fun child h1 _ h3 => ?_)⟩
      rw [hall (child + 1) h1] at h3
      cases h3

/-- The bitfields of the children are answers of the store. -/
private theorem observed_localLoop {observe : Nat → Hash → Except E Bitfield} {fuel calls : Nat}
    {iter : ChunkRangesSeq.NonEmptyIter} {info children : NonRawLocalInfo}
    (h : ∀ hash bitfield, info.bitfields.lookup hash = some bitfield → ∃ n, observe n hash = .ok bitfield)
    (hrun : localLoop observe hashes fuel iter calls info = some (.ok children)) :
    ∀ hash bitfield, children.bitfields.lookup hash = some bitfield → ∃ n, observe n hash = .ok bitfield := by
  induction fuel generalizing iter calls info with
  | zero => cases hrun
  | succ fuel ih =>
    rw [localLoop] at hrun
    split at hrun
    · cases hrun
      exact h
    · split at hrun
      · exact ih h hrun
      · split at hrun
        · cases hrun
          exact h
        · split at hrun
          · exact ih h hrun
          · rename_i hash hl
            split at hrun
            · cases hrun
            · rename_i bitfield ho
              refine ih ?_ hrun
              intro hash' bitfield' hlookup
              by_cases hh : hash' = hash
              · subst hh
                rw [AList.lookup_insert, Option.some.injEq] at hlookup
                exact ⟨calls, hlookup ▸ ho⟩
              · rw [AList.lookup_insert_ne hh] at hlookup
                exact h hash' bitfield' hlookup

end Built

/-- The hashes that are found were exported with their index. -/
theorem mem_of_lookup_byIndex {items : List (Except HashesError (Nat × Hash))} {child : Nat} {hash : Hash}
    (h : (byIndex items).lookup child = some hash) : .ok (child, hash) ∈ items := by
  induction items using List.reverseRecOn with
  | nil => simp [byIndex] at h
  | append_singleton items item ih =>
    have hfold : byIndex (items ++ [item]) = insertHash (byIndex items) item := by simp [byIndex]
    rw [hfold] at h
    rw [List.mem_append, List.mem_singleton]
    cases item with
    | error e => exact Or.inl (ih h)
    | ok p =>
      obtain ⟨index, hash'⟩ := p
      by_cases hc : child = index
      · subst hc
        rw [insertHash, AList.lookup_insert, Option.some.injEq] at h
        exact Or.inr (by rw [h])
      · rw [insertHash, AList.lookup_insert_ne hc] at h
        exact Or.inl (ih h)

private theorem lookup_insertHash_isSome {m : AList (fun _ : Nat => Hash)} {child : Nat}
    (h : (m.lookup child).isSome = true) (item : Except HashesError (Nat × Hash)) :
    ((insertHash m item).lookup child).isSome = true := by
  cases item with
  | error e => exact h
  | ok p =>
    obtain ⟨index, hash⟩ := p
    by_cases hc : child = index
    · subst hc
      rw [insertHash, AList.lookup_insert, Option.isSome_some]
    · rwa [insertHash, AList.lookup_insert_ne hc]

/-- The hashes that could be read are found. -/
private theorem lookup_byIndex_isSome_iff {items : List (Except HashesError (Nat × Hash))} {child : Nat} :
    ((byIndex items).lookup child).isSome = true ↔ ∃ hash, .ok (child, hash) ∈ items := by
  constructor
  · intro h
    obtain ⟨hash, hl⟩ := Option.isSome_iff_exists.mp h
    exact ⟨hash, mem_of_lookup_byIndex hl⟩
  · rintro ⟨hash, hmem⟩
    induction items using List.reverseRecOn with
    | nil => simp at hmem
    | append_singleton items item ih =>
      have hfold : byIndex (items ++ [item]) = insertHash (byIndex items) item := by simp [byIndex]
      rw [hfold]
      rw [List.mem_append, List.mem_singleton] at hmem
      rcases hmem with hmem | rfl
      · exact lookup_insertHash_isSome (ih hmem) item
      · rw [insertHash, AList.lookup_insert, Option.isSome_some]

/-- The index of an exported hash is below the end of a leaf, counted in hashes. -/
private theorem lt_of_mem_hashesWithIndex {progress : ExportBaoProgress} {child : Nat} {hash : Hash}
    (h : .ok (child, hash) ∈ hashesWithIndex progress) :
    ∃ items leaf, progress = .ok items ∧ .leaf leaf ∈ items ∧ child < (leaf.offset + leaf.data.length) / 32 := by
  unfold hashesWithIndex at h
  rw [List.mem_flatMap] at h
  obtain ⟨item, hitem, h⟩ := h
  cases item with
  | leaf leaf =>
    cases progress with
    | error e => simp [stream] at hitem
    | ok items =>
      refine ⟨items, leaf, rfl, hitem, ?_⟩
      simp only [hashesOfItem, HashSeqChunk.tryFrom] at h
      cases hnew : HashSeq.new leaf.data with
      | none => simp [hnew] at h
      | some chunk =>
        simp only [hnew, Option.map_some, List.mem_map, Except.ok.injEq, Prod.mk.injEq] at h
        obtain ⟨⟨hash', j⟩, hj, hchild, -⟩ := h
        have hlen := (List.mem_zipIdx' hj).1
        rw [HashSeq.length_iter, HashSeq.len, HashSeq.new_eq_some hnew] at hlen
        simp only [HashSeqChunk.base] at hchild hlen
        omega
  | error e => simp [hashesOfItem] at h
  | size n => simp [hashesOfItem] at h
  | parent q => simp [hashesOfItem] at h
  | done => simp [hashesOfItem] at h

/-- The `LocalInfo` was built for the request. -/
def LocalInfo.BuiltFor (info : LocalInfo) (store : StoreClient E) (request : GetRequest Hash) : Prop :=
  ∃ fuel, localForRequest store request fuel = some (.ok info)

/-- The leaves of the local part of the root end within its size, if the size is validated. -/
def ExportsWithin (store : StoreClient E) (root : Hash) : Prop :=
  ∀ bitfield size items leaf, store.observe 0 root = .ok bitfield → bitfield.validatedSize = some size →
    store.exportBao root bitfield.ranges = .ok items → .leaf leaf ∈ items → leaf.offset + leaf.data.length ≤ size

/-- What the functions of a `LocalInfo` rely on. -/
structure LocalInfo.Coherent (info : LocalInfo) : Prop where
  ofBlob : info.children = none → ∀ child, info.request.ranges.get (child + 1) = ∅
  bitfields : ∀ children, info.children = some children → ∀ child hash, children.hashSeq.lookup child = some hash →
    (children.bitfields.lookup hash).isSome = true
  requested : ∀ children, info.children = some children → ∀ child hash, children.hashSeq.lookup child = some hash →
    (info.request.ranges.get (child + 1)).isEmpty = false
  within : ∀ child bitfield size, info.known child = some bitfield → info.bitfield.validatedSize = some size →
    child < size / 32

/-- Nothing is selected after the root of a request for a single blob. -/
theorem get_succ_of_isBlob {ranges : ChunkRangesSeq} (h : ranges.isBlob = true) (i : Nat) : ranges.get (i + 1) = ∅ := by
  obtain ⟨es⟩ := ranges
  unfold ChunkRangesSeq.isBlob ChunkRangesSeq.asSingle at h
  split at h
  · rename_i r hsingle
    split at hsingle
    · rename_i o1 v1 o2 v2 hes
      split at hsingle
      · rename_i hcond
        simp only [Option.some.injEq, Prod.mk.injEq] at hsingle
        obtain ⟨rfl, rfl⟩ := hsingle
        obtain ⟨rfl, hv2⟩ := hcond
        simp only at hes
        subst hes
        simp only [ChunkRangesSeq.get, ChunkRangesSeq.valueFrom, Nat.not_lt_zero, ↓reduceIte,
          show ¬ i + 1 < 0 + 1 by omega]
        exact RangeSet.eq_empty_iff.mpr (RangeSet.isEmpty_iff.mp hv2)
      · cases hsingle
    · cases hsingle
  · cases h

/-- What `local_for_request` finds out. -/
theorem LocalInfo.BuiltFor.cases {info : LocalInfo} {store : StoreClient E} {request : GetRequest Hash}
    (h : info.BuiltFor store request) :
    info.request = request ∧ store.observe 0 request.hash = .ok info.bitfield ∧
      ((request.ranges.isBlob = true ∧ info.children = none) ∨
        (request.ranges.isBlob = false ∧ ∃ children N, info.children = some children ∧ ∀ m, N ≤ m → children.Built
          (byIndex (hashesWithIndex (store.exportBao request.hash info.bitfield.ranges))) request.ranges m)) := by
  obtain ⟨fuel, h⟩ := h
  unfold localForRequest at h
  cases ho : store.observe 0 request.hash with
  | error e => simp [ho] at h
  | ok bitfield =>
    simp only [ho] at h
    by_cases hb : request.ranges.isBlob = true
    · rw [if_pos hb] at h
      cases h
      exact ⟨rfl, rfl, Or.inl ⟨hb, rfl⟩⟩
    · rw [if_neg hb, Option.map_eq_some_iff] at h
      obtain ⟨res, hloop, hres⟩ := h
      cases res with
      | error e => cases hres
      | ok children =>
        cases hres
        refine ⟨rfl, rfl, Or.inr ⟨by simpa using hb, children, ?_⟩⟩
        have hinit : NonRawLocalInfo.Built ⟨∅, ∅⟩
            (byIndex (hashesWithIndex (store.exportBao request.hash bitfield.ranges))) request.ranges 0 :=
          ⟨fun child => by simp, fun child hash hl => by simp at hl⟩
        obtain ⟨N, hN⟩ := built_localLoop hinit hloop
        exact ⟨N, rfl, hN⟩

theorem LocalInfo.BuiltFor.coherent {info : LocalInfo} {store : StoreClient E} {request : GetRequest Hash}
    (h : info.BuiltFor store request) (hw : ExportsWithin store request.hash) : info.Coherent := by
  obtain ⟨rfl, hobserve, hcases⟩ := h.cases
  rcases hcases with ⟨hblob, hnone⟩ | ⟨-, children, N, hsome, hbuilt⟩
  · refine ⟨fun _ => get_succ_of_isBlob hblob, ?_, ?_, ?_⟩
    · intro c hc
      rw [hnone] at hc
      cases hc
    · intro c hc
      rw [hnone] at hc
      cases hc
    · intro child bitfield size hk
      rw [LocalInfo.known, hnone] at hk
      cases hk
  · have hlookup : ∀ child hash, children.hashSeq.lookup child = some hash →
        (info.request.ranges.get (child + 1)).isEmpty = false ∧
        (byIndex (hashesWithIndex (store.exportBao info.request.hash info.bitfield.ranges))).lookup
          child = some hash := by
      intro child hash hl
      rw [(hbuilt (max N (child + 2)) (by omega)).hashSeq child] at hl
      split at hl
      · rename_i hc
        exact ⟨hc.2, hl⟩
      · cases hl
    refine ⟨?_, ?_, ?_, ?_⟩
    · intro hnone
      rw [hnone] at hsome
      cases hsome
    · intro c hc
      rw [hsome, Option.some.injEq] at hc
      subst hc
      exact (hbuilt N (Nat.le_refl N)).bitfields
    · intro c hc child hash hl
      rw [hsome, Option.some.injEq] at hc
      subst hc
      exact (hlookup child hash hl).1
    · intro child bitfield size hk hsize
      simp only [LocalInfo.known, hsome, Option.bind_some, NonRawLocalInfo.known, Option.bind_eq_some_iff] at hk
      obtain ⟨hash, hl, -⟩ := hk
      obtain ⟨items, leaf, hexp, hleaf, hlt⟩ :=
        lt_of_mem_hashesWithIndex (mem_of_lookup_byIndex (hlookup child hash hl).2)
      have hend := hw info.bitfield size items leaf hobserve hsize hexp hleaf
      omega

/-- A requested child is known exactly when its hash could be read. -/
theorem LocalInfo.BuiltFor.known_isSome_iff {info : LocalInfo} {store : StoreClient E} {request : GetRequest Hash}
    (h : info.BuiltFor store request) (hblob : request.ranges.isBlob = false) (child : Nat)
    (hne : (request.ranges.get (child + 1)).isEmpty = false) :
    (info.known child).isSome = true ↔
      ∃ hash, .ok (child, hash) ∈ hashesWithIndex (store.exportBao request.hash info.bitfield.ranges) := by
  obtain ⟨rfl, -, hcases⟩ := h.cases
  rcases hcases with ⟨hblob', -⟩ | ⟨-, children, N, hsome, hbuilt⟩
  · rw [hblob] at hblob'
    cases hblob'
  · have hb := hbuilt (max N (child + 2)) (by omega)
    have hl := hb.hashSeq child
    rw [if_pos ⟨by omega, hne⟩] at hl
    rw [← lookup_byIndex_isSome_iff, ← hl, LocalInfo.known, hsome, Option.bind_some, NonRawLocalInfo.known]
    cases hk : children.hashSeq.lookup child with
    | none => rfl
    | some hash => simpa using hb.bitfields child hash hk

/-- A known child has an exported hash, and its bitfield was observed. -/
theorem LocalInfo.BuiltFor.known_observed {info : LocalInfo} {store : StoreClient E} {request : GetRequest Hash}
    (h : info.BuiltFor store request) {child : Nat} {bitfield : Bitfield} (hk : info.known child = some bitfield) :
    ∃ hash n, .ok (child, hash) ∈ hashesWithIndex (store.exportBao request.hash info.bitfield.ranges) ∧
      store.observe n hash = .ok bitfield := by
  obtain ⟨fuel, h⟩ := h
  unfold localForRequest at h
  split at h
  · cases h
  · rename_i rootBitfield _
    split at h
    · cases h
      cases hk
    · obtain ⟨res, hloop, hres⟩ := Option.map_eq_some_iff.mp h
      cases res with
      | error e => cases hres
      | ok children =>
        cases hres
        have hinit : NonRawLocalInfo.Built ⟨∅, ∅⟩ (byIndex (hashesWithIndex
            (store.exportBao request.hash rootBitfield.ranges))) request.ranges 0 :=
              ⟨fun child => by simp, fun child hash hl => by simp at hl⟩
        obtain ⟨N, hbuilt⟩ := built_localLoop hinit hloop
        simp only [LocalInfo.known, Option.bind_some, NonRawLocalInfo.known, Option.bind_eq_some_iff] at hk
        obtain ⟨hash, hl, hbitfield⟩ := hk
        obtain ⟨n, hn⟩ := observed_localLoop (by simp) hloop hash bitfield hbitfield
        rw [(hbuilt (max N (child + 2)) (by omega)).hashSeq child] at hl
        split at hl
        · exact ⟨hash, n, mem_of_lookup_byIndex hl, hn⟩
        · cases hl

/-! ### Completeness -/

namespace LocalInfo

/-- The ranges that the request selects for blob `i`. -/
def requested (info : LocalInfo) (i : Nat) : ChunkRanges := info.request.ranges.get i

/-- The ranges that are read for the root, with the finite iterator. -/
def rootRequested (info : LocalInfo) : ChunkRanges := info.requestedRootRanges.getD ∅

/-- With strictly increasing offsets, the iterators agree on the root. -/
theorem rootRequested_eq {info : LocalInfo} (h : info.request.ranges.entries.Pairwise (fun a b => a.1 < b.1)) :
    info.rootRequested = info.requested 0 := ChunkRangesSeq.next_iter_of_sorted h

/-- A request without requested root ranges is empty. -/
theorem get_of_requestedRootRanges_none {info : LocalInfo} (h : info.requestedRootRanges = none) (i : Nat) :
    info.request.ranges.get i = ∅ := by
  obtain ⟨⟨hash, ⟨es⟩⟩, bitfield, children⟩ := info
  cases es with
  | nil => rfl
  | cons e es =>
    obtain ⟨o, r⟩ := e
    by_cases ho : 0 < o <;> simp [requestedRootRanges, ChunkRangesSeq.iter, ChunkRangesSeq.Iter.next, ho] at h

/-- Nothing of the child is missing: it lies after the end of the hash sequence, or its requested ranges are there. -/
def ChildComplete (info : LocalInfo) (child : Nat) : Prop :=
  (∃ size, info.bitfield.validatedSize = some size ∧ size / 32 ≤ child) ∨
    ∃ bitfield, info.known child = some bitfield ∧ ∀ x ∈ info.requested (child + 1), x ∈ bitfield.ranges

section Loop

variable {info : LocalInfo} {children : NonRawLocalInfo}

private theorem known_of_children (hc : info.children = some children) (child : Nat) :
    info.known child = children.known child := by
  rw [known, hc, Option.bind_some]

theorem known_of_lookup (h : info.Coherent) (hc : info.children = some children) {child : Nat} {hash : Hash}
    (hl : children.hashSeq.lookup child = some hash) :
    ∃ bitfield, children.bitfields.lookup hash = some bitfield ∧ info.known child = some bitfield := by
  obtain ⟨bitfield, hb⟩ := Option.isSome_iff_exists.mp (h.bitfields children hc child hash hl)
  exact ⟨bitfield, hb, by rw [known_of_children hc, NonRawLocalInfo.known, hl, Option.bind_some, hb]⟩

theorem known_of_lookup_none (hc : info.children = some children) {child : Nat}
    (hl : children.hashSeq.lookup child = none) : info.known child = none := by
  rw [known_of_children hc, NonRawLocalInfo.known, hl, Option.bind_none]

/-- The loop decides whether the requested children from blob `n` on are complete.  It ends at the first unknown one. -/
private theorem isCompleteLoop_spec (h : info.Coherent) (hc : info.children = some children) (n : Nat) :
    ∃ b, Fuel.Returns (fun fuel => isCompleteLoop children (info.bitfield.validatedSize.map (· / 32)) fuel
        (info.request.ranges.nonEmptyAt n)) b ∧
      (b = true ↔ ∀ child, n ≤ child + 1 → (info.requested (child + 1)).isEmpty = false →
        info.ChildComplete child) := by
  induction hk : nextKey children.hashSeq + 1 - n using Nat.strong_induction_on generalizing n with
  | _ k ih =>
  subst hk
  rcases info.request.ranges.next_cases n with ⟨i, hni, hi, hmin, hnext⟩ | ⟨hall, m, hm, hnext⟩
  · -- the blobs between `n` and `i` are not requested
    have hskip : ∀ {P : Nat → Prop}, (∀ child, i + 1 ≤ child + 1 → (info.requested (child + 1)).isEmpty = false →
        P child) → (∀ child, child + 1 = i → P child) →
        ∀ child, n ≤ child + 1 → (info.requested (child + 1)).isEmpty = false → P child := by
      intro P hlater hati child h1 h2
      rcases Nat.lt_trichotomy (child + 1) i with h3 | h3 | h3
      · rw [requested, hmin (child + 1) h1 h3] at h2
        cases h2
      · exact hati child h3
      · exact hlater child h3 h2
    by_cases hzero : i = 0
    · subst hzero
      obtain ⟨b, hb, hiff⟩ := ih _ (by omega) 1 rfl
      refine ⟨b, hb.step (fun fuel => by rw [isCompleteLoop]; simp only [hnext, ↓reduceIte]), hiff.trans ?_⟩
      exact ⟨fun hall => hskip hall (fun child hchild => by omega), fun hall child h1 h2 => hall child (by omega) h2⟩
    · obtain ⟨child, rfl⟩ : ∃ child, i = child + 1 := ⟨i - 1, by omega⟩
      cases hl : children.hashSeq.lookup child with
      | some hash =>
        have hl' : children.hashSeq.lookup (child + 1 - 1) = some hash := hl
        obtain ⟨bitfield, hbit, hknown⟩ := known_of_lookup h hc hl
        have hlt : child < nextKey children.hashSeq := by
          by_contra hle
          rw [lookup_of_nextKey_le (by omega)] at hl
          cases hl
        by_cases hsup : bitfield.ranges.isSuperset (info.request.ranges.get (child + 1)) = true
        · obtain ⟨b, hb, hiff⟩ := ih _ (by omega) (child + 2) rfl
          refine ⟨b, hb.step (fun fuel => ?_),
            hiff.trans ⟨fun hall => hskip hall ?_, fun hall c h1 h2 => hall c (by omega) h2⟩⟩
          · rw [isCompleteLoop]
            simp only [hnext, Nat.add_one_ne_zero, ↓reduceIte, hl', hbit, Option.bind_some, hsup]
          · intro c hcc
            obtain rfl : c = child := by omega
            exact Or.inr ⟨bitfield, hknown, RangeSet.isSuperset_iff.mp hsup⟩
        · refine ⟨false, Fuel.returns_of_succ (fun fuel => ?_), ?_⟩
          · rw [isCompleteLoop]
            simp only [hnext, Nat.add_one_ne_zero, ↓reduceIte, hl', hbit, Option.bind_some, hsup]
            rfl
          · refine iff_of_false (by simp) (fun hall => ?_)
            rcases hall child hni hi with ⟨size, hsize, hle⟩ | ⟨b, hb, hsub⟩
            · have := h.within child bitfield size hknown hsize
              omega
            · rw [hknown, Option.some.injEq] at hb
              subst hb
              exact hsup (RangeSet.isSuperset_iff.mpr hsub)
      | none =>
        have hl' : children.hashSeq.lookup (child + 1 - 1) = none := hl
        have hunknown := known_of_lookup_none hc hl
        cases hsize : info.bitfield.validatedSize with
        | none =>
          refine ⟨false, Fuel.returns_of_succ (fun fuel => ?_), ?_⟩
          · rw [isCompleteLoop]
            simp only [hnext, Nat.add_one_ne_zero, ↓reduceIte, hl', Option.map_none]
          · refine iff_of_false (by simp) (fun hall => ?_)
            rcases hall child hni hi with ⟨size, hs, -⟩ | ⟨b, hb, -⟩
            · rw [hsize] at hs
              cases hs
            · rw [hunknown] at hb
              cases hb
        | some size =>
          refine ⟨decide (size / 32 ≤ child), Fuel.returns_of_succ (fun fuel => ?_), ?_⟩
          · rw [isCompleteLoop]
            simp only [hnext, Nat.add_one_ne_zero, ↓reduceIte, hl', Option.map_some, Nat.add_sub_cancel]
          · rw [decide_eq_true_iff]
            constructor
            · intro hle
              refine hskip (fun c h1 _ => ?_) (fun c hcc => ?_)
              · exact Or.inl ⟨size, hsize, by omega⟩
              · exact Or.inl ⟨size, hsize, by omega⟩
            · intro hall
              rcases hall child hni hi with ⟨size', hs, hle⟩ | ⟨b, hb, -⟩
              · rw [hsize, Option.some.injEq] at hs
                omega
              · rw [hunknown] at hb
                cases hb
  · refine ⟨true, Fuel.returns_of_succ (fun fuel => by rw [isCompleteLoop]; simp only [hnext]), ?_⟩
    refine iff_of_true rfl (fun child h1 h2 => ?_)
    rw [requested, hall (child + 1) h1] at h2
    cases h2

end Loop

/-- `is_complete` returns, and decides whether the ranges that are read for the root, and those of every child are
there. -/
theorem isComplete_spec {info : LocalInfo} (h : info.Coherent) :
    ∃ b, Fuel.Returns info.isComplete b ∧
      (b = true ↔ (∀ x ∈ info.rootRequested, x ∈ info.bitfield.ranges) ∧
        ∀ child, (info.requested (child + 1)).isEmpty = false → info.ChildComplete child) := by
  cases hroot : info.requestedRootRanges with
  | none =>
    refine ⟨true, Fuel.returns_of_succ (fun fuel => by rw [isComplete, hroot]), iff_of_true rfl ⟨?_, ?_⟩⟩
    · simp [rootRequested, hroot]
    · intro child hne
      rw [requested, get_of_requestedRootRanges_none hroot] at hne
      cases hne
  | some rootRanges =>
    have hreq : info.rootRequested = rootRanges := by rw [rootRequested, hroot, Option.getD_some]
    by_cases hsup : info.bitfield.ranges.isSuperset rootRanges = true
    · have hsub : ∀ x ∈ info.rootRequested, x ∈ info.bitfield.ranges := by
        rw [hreq]
        exact RangeSet.isSuperset_iff.mp hsup
      cases hc : info.children with
      | none =>
        refine ⟨true, Fuel.returns_of_succ (fun fuel => by simp [isComplete, hroot, hsup, hc]),
          iff_of_true rfl ⟨hsub, fun child hne => ?_⟩⟩
        rw [requested, h.ofBlob hc] at hne
        cases hne
      | some children =>
        obtain ⟨b, hb, hiff⟩ := isCompleteLoop_spec h hc 0
        refine ⟨b, ?_, hiff.trans ⟨fun hall => ⟨hsub, fun child => hall child (Nat.zero_le _)⟩,
          fun hall child _ => hall.2 child⟩⟩
        obtain ⟨rounds, hb⟩ := hb
        exact ⟨rounds, fun fuel hfuel => by simpa [isComplete, hroot, hsup, hc] using hb fuel hfuel⟩
    · refine ⟨false, Fuel.returns_of_succ (fun fuel => by simp [isComplete, hroot, hsup]), iff_of_false (by simp) ?_⟩
      rintro ⟨hsub, -⟩
      rw [hreq] at hsub
      exact hsup (RangeSet.isSuperset_iff.mpr hsub)

/-- Nothing of the requested children is missing. -/
def ChildrenComplete (info : LocalInfo) : Prop :=
  info.request.ranges.isBlob = false → ∀ child, (info.requested (child + 1)).isEmpty = false → info.ChildComplete child

/-- Every requested chunk of the root and of the children is there. -/
def Everything (info : LocalInfo) : Prop :=
  (∀ x ∈ info.requested 0, x ∈ info.bitfield.ranges) ∧ info.ChildrenComplete

/-- The ranges that are read for the root are there if the requested ones are, and the other way around.  If something
of the children is missing, it does not matter. -/
def RootAgrees (info : LocalInfo) : Prop :=
  info.ChildrenComplete →
    ((∀ x ∈ info.rootRequested, x ∈ info.bitfield.ranges) ↔ ∀ x ∈ info.requested 0, x ∈ info.bitfield.ranges)

private theorem childrenComplete_iff {info : LocalInfo} :
    info.ChildrenComplete ↔ ∀ child, (info.requested (child + 1)).isEmpty = false → info.ChildComplete child := by
  by_cases hblob : info.request.ranges.isBlob = true
  · refine iff_of_true (fun hnot => by rw [hblob] at hnot; cases hnot) (fun child hne => ?_)
    rw [requested, get_succ_of_isBlob hblob] at hne
    cases hne
  · exact ⟨fun hall => hall (by simpa using hblob), fun hall _ => hall⟩

/-- `is_complete` returns, and says whether every requested chunk of the root is there and every requested child lies
after the validated end of the hash sequence or is known with all its requested chunks, exactly if the ranges that it
reads for the root agree with the requested ones.  They are the same if no two entries share an offset.  A requested
child is known if its hash could be read. -/
theorem isComplete_iff {info : LocalInfo} {store : StoreClient E} {request : GetRequest Hash}
    (hbuilt : info.BuiltFor store request) (hwithin : ExportsWithin store request.hash) :
    ∃ b, Fuel.Returns info.isComplete b ∧ ((b = true ↔ info.Everything) ↔ info.RootAgrees) ∧
      (request.ranges.isBlob = false → ∀ child, (request.ranges.get (child + 1)).isEmpty = false →
        ((info.known child).isSome = true ↔
          ∃ hash, .ok (child, hash) ∈ hashesWithIndex (store.exportBao request.hash info.bitfield.ranges))) ∧
      (request.ranges.entries.Pairwise (fun a b => a.1 < b.1) → info.RootAgrees) := by
  obtain ⟨b, hb, hiff⟩ := isComplete_spec (hbuilt.coherent hwithin)
  have hknown := hbuilt.known_isSome_iff
  obtain ⟨rfl, -, -⟩ := hbuilt.cases
  rw [← childrenComplete_iff] at hiff
  refine ⟨b, hb, ?_, hknown, fun hsorted _ => by rw [rootRequested_eq hsorted]⟩
  rw [hiff, Everything, RootAgrees]
  constructor
  · intro h hchildren
    simpa [hchildren] using h
  · intro h
    by_cases hchildren : info.ChildrenComplete
    · rw [h hchildren]
    · exact iff_of_false (fun hc => hchildren hc.2) (fun hc => hchildren hc.2)

private theorem isCompleteLoop_succ {children : NonRawLocalInfo} {maxChild : Option Nat} {fuel : Nat}
    {iter : ChunkRangesSeq.NonEmptyIter}
    {b : Bool} (h : isCompleteLoop children maxChild fuel iter = some b) :
    isCompleteLoop children maxChild (fuel + 1) iter = some b := by
  induction fuel generalizing iter with
  | zero => cases h
  | succ fuel ih =>
    rw [isCompleteLoop] at h ⊢
    rcases hnext : iter.next with ⟨_ | ⟨offset, range⟩, iter'⟩
    · rw [hnext] at h
      exact h
    · rw [hnext] at h
      dsimp only at h ⊢
      by_cases hoffset : offset = 0
      · rw [if_pos hoffset] at h ⊢
        exact ih h
      · rw [if_neg hoffset] at h ⊢
        cases hlookup : children.hashSeq.lookup (offset - 1) with
        | none =>
          rw [hlookup] at h
          exact h
        | some hash =>
          rw [hlookup] at h
          dsimp only at h ⊢
          obtain ⟨bitfield, hbitfield, h⟩ := Option.bind_eq_some_iff.mp h
          rw [hbitfield, Option.bind_some]
          split at h
          · rename_i hsup
            rw [if_pos hsup]
            exact ih h
          · rename_i hsup
            rw [if_neg hsup]
            exact h

theorem stable_isComplete (info : LocalInfo) : Fuel.Stable info.isComplete := by
  intro fuel b h
  unfold isComplete at h ⊢
  cases hroot : info.requestedRootRanges with
  | none =>
    rw [hroot] at h
    exact h
  | some rootRequested =>
    rw [hroot] at h
    dsimp only at h ⊢
    split at h
    · rename_i hnot
      rw [if_pos hnot]
      exact h
    · rename_i hnot
      rw [if_neg hnot]
      cases hc : info.children with
      | none =>
        rw [hc] at h
        exact h
      | some children =>
        rw [hc] at h
        exact isCompleteLoop_succ h

/-- A complete hash sequence of two children, and nothing else. -/
def twoChildren : StoreClient Empty where
  observe _ hash := .ok (if hash = Hash.replicate 0 then Bitfield.complete 64 else Bitfield.empty)
  exportBao hash _ := .ok (if hash = Hash.replicate 0 then
    [.size 64, .leaf ⟨0, (HashSeq.ofHashes [Hash.replicate 1, Hash.replicate 2]).bytes⟩, .done] else [])

/-- A request for the sixth child. -/
def sixthChild : GetRequest Hash := (GetRequestBuilder.empty.child 5 RangeSet.all).build (Hash.replicate 0)

theorem twoChildren_within : ExportsWithin twoChildren (Hash.replicate 0) := by
  intro bitfield size items leaf hb hsize hitems hleaf
  cases hb
  cases hitems
  simp only [↓reduceIte, List.mem_cons, reduceCtorEq, EncodedItem.leaf.injEq, List.not_mem_nil, or_false,
    false_or] at hleaf
  subst hleaf
  obtain rfl := Bitfield.validatedSize_eq_some hsize
  decide

/-- The request for the sixth child of two is complete. -/
theorem isComplete_sixthChild :
    ∃ info : LocalInfo, info.BuiltFor twoChildren sixthChild ∧ Fuel.Returns info.isComplete true := by
  have hinfo : ∃ info, localForRequest twoChildren sixthChild 10 = some (.ok info) ∧
      info.bitfield.validatedSize = some 64 ∧ info.bitfield.ranges = RangeSet.all ∧ info.request = sixthChild :=
    ⟨_, rfl, by decide, rfl, rfl⟩
  obtain ⟨info, hbuilt, hsize, hall, hrequest⟩ := hinfo
  have hranges : sixthChild.ranges = ⟨[(6, RangeSet.all), (7, ∅)]⟩ := by decide
  obtain ⟨b, hb, hiff, -, hsorted⟩ := isComplete_iff ⟨10, hbuilt⟩ twoChildren_within
  have htrue : b = true := by
    refine (hiff.mpr (hsorted (by rw [hranges]; decide))).mpr ⟨fun x _ => by rw [hall]; exact RangeSet.mem_all x, ?_⟩
    refine fun _ child hne => Or.inl ⟨64, hsize, ?_⟩
    by_contra hlt
    rw [requested, hrequest, hranges, ChunkRangesSeq.get, ChunkRangesSeq.valueFrom, if_pos (by omega)] at hne
    cases hne
  rw [htrue] at hb
  exact ⟨info, ⟨10, hbuilt⟩, hb⟩

/-- A store without anything. -/
def nothing : StoreClient Empty where
  observe _ _ := .ok Bitfield.empty
  exportBao _ _ := .ok [.error .io]

/-- Two entries for the root, of which the second one counts.  Such a request can be decoded. -/
def twoRootEntries : ChunkRangesSeq := ⟨[(0, ∅), (0, RangeSet.all), (1, ∅)]⟩

/-- All of the root is requested and nothing is there, but the request is said to be complete. -/
theorem not_isComplete_iff_twoRootEntries :
    (∃ wire, RangeSpecSeq.toChunkRangesSeq wire = some twoRootEntries) ∧
    ∃ info : LocalInfo, info.BuiltFor nothing ⟨Hash.replicate 0, twoRootEntries⟩ ∧ Fuel.Returns info.isComplete true ∧
      ¬ info.Everything := by
  constructor
  · have hcode : ∃ wire, RangeSpecSeq.encodeLoop 0 twoRootEntries.entries = some wire ∧
        RangeSpecSeq.decodeLoop 0 wire = some twoRootEntries.entries :=
      RangeSpecSeq.decodeLoop_encodeLoop (by decide) (by decide) (by decide)
    obtain ⟨wire, -, hdecode⟩ := hcode
    refine ⟨⟨wire⟩, ?_⟩
    rw [RangeSpecSeq.toChunkRangesSeq, hdecode]
    rfl
  · have hinfo : ∃ info, localForRequest nothing ⟨Hash.replicate 0, twoRootEntries⟩ 10 = some (.ok info) ∧
        info.bitfield = Bitfield.empty ∧ info.request.ranges = twoRootEntries ∧
          ∀ fuel, info.isComplete (fuel + 2) = some true :=
      ⟨_, rfl, rfl, rfl, fun fuel => rfl⟩
    obtain ⟨info, hbuilt, hempty, hranges, hret⟩ := hinfo
    refine ⟨info, ⟨10, hbuilt⟩, ⟨2, fun fuel hfuel => ?_⟩, ?_⟩
    · obtain ⟨k, rfl⟩ : ∃ k, fuel = k + 2 := ⟨fuel - 2, by omega⟩
      exact hret k
    · rintro ⟨hroot, -⟩
      have hmem := hroot 0 (by rw [requested, hranges]; decide)
      rw [hempty] at hmem
      exact RangeSet.not_mem_empty _ hmem

end LocalInfo

end Remote

end IrohBlobs
