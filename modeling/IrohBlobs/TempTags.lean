import IrohBlobs.Gc
import IrohBlobs.StateMachine
import Mathlib.Data.List.AList

/-!
# Temp tags

The model of `util/temp_tag.rs` and of what the store actor and the batch tasks do with it.  The counters of a scope
are shared: `TempTags` holds them by scope, a batch task holds those of its scope, and a temp tag has a weak reference
to the counters that have counted it.  They live in a heap, by address.

The counters count exactly what they should (`Exact`) as long as nothing is created in a scope that has ended, and a
tag that a batch releases has been leaked before (`exact_of_meets`).  A tag that is created in a scope after its end,
for example by an import that takes long, is counted in a new scope that nobody ends (`not_exact_endedScope`).
-/

namespace IrohBlobs

namespace TempTags

abbrev Scope := Nat

/-- The number of tags for a hash, by format. -/
structure TempCounters where
  raw : Nat := 0
  hashSeq : Nat := 0

namespace TempCounters

def counter (c : TempCounters) : BlobFormat → Nat
  | .raw => c.raw
  | .hashSeq => c.hashSeq

/-- What is written through `counter_mut`. -/
def setCounter (c : TempCounters) (n : Nat) : BlobFormat → TempCounters
  | .raw => { c with raw := n }
  | .hashSeq => { c with hashSeq := n }

/-- A counter has 64 bits.  `none` is a panic. -/
def inc (c : TempCounters) (format : BlobFormat) : Option TempCounters :=
  if c.counter format + 1 < 2 ^ 64 then some (c.setCounter (c.counter format + 1) format) else none

def dec (c : TempCounters) (format : BlobFormat) : TempCounters := c.setCounter (c.counter format - 1) format

def isEmpty (c : TempCounters) : Bool := c.raw == 0 && c.hashSeq == 0

@[simp] theorem counter_setCounter (c : TempCounters) (n : Nat) (f g : BlobFormat) :
    (c.setCounter n f).counter g = if g = f then n else c.counter g := by
  cases f <;> cases g <;> rfl

private theorem counter_of_isEmpty {c : TempCounters} (h : c.isEmpty = true) (f : BlobFormat) : c.counter f = 0 := by
  unfold isEmpty at h
  rw [Bool.and_eq_true, beq_iff_eq, beq_iff_eq] at h
  cases f with
  | raw => exact h.1
  | hashSeq => exact h.2

end TempCounters

abbrev TempCounterMap := AList fun _ : Hash => TempCounters

namespace TempCounterMap

def inc (m : TempCounterMap) (value : HashAndFormat) : Option TempCounterMap :=
  (((m.lookup value.hash).getD {}).inc value.format).map fun counters => m.insert value.hash counters

def dec (m : TempCounterMap) (value : HashAndFormat) : TempCounterMap :=
  match m.lookup value.hash with
  | none => m
  | some counters =>
    if (counters.dec value.format).isEmpty then m.erase value.hash
    else m.insert value.hash (counters.dec value.format)

def keys (m : TempCounterMap) : List HashAndFormat :=
  m.entries.flatMap fun e =>
    (if 0 < e.2.raw then [⟨e.1, .raw⟩] else []) ++ (if 0 < e.2.hashSeq then [⟨e.1, .hashSeq⟩] else [])

/-- The number of tags for a hash and format. -/
def count (m : TempCounterMap) (value : HashAndFormat) : Nat := ((m.lookup value.hash).getD {}).counter value.format

private theorem count_empty (value : HashAndFormat) : count ∅ value = 0 := by
  unfold count
  rw [AList.lookup_empty]
  cases value.format <;> rfl

private theorem count_insert (m : TempCounterMap) (counters : TempCounters) (hash : Hash) (value : HashAndFormat) :
    count (m.insert hash counters) value = if value.hash = hash then
      counters.counter value.format else m.count value := by
  unfold count
  split
  · rename_i h
    rw [h, AList.lookup_insert, Option.getD_some]
  · rename_i h
    rw [AList.lookup_insert_ne h]

private theorem ext_iff_value (v w : HashAndFormat) : v = w ↔ v.hash = w.hash ∧ v.format = w.format := by
  cases v
  cases w
  simp

/-- `inc` counts one more. -/
private theorem inc_spec (m : TempCounterMap) (value : HashAndFormat) (h : m.count value + 1 < 2 ^ 64) :
    ∃ m', m.inc value = some m' ∧ ∀ v, m'.count v = m.count v + if v = value then 1 else 0 := by
  have hinc : ((m.lookup value.hash).getD {}).inc value.format =
      some (((m.lookup value.hash).getD {}).setCounter (m.count value + 1) value.format) := if_pos h
  refine ⟨_, by rw [inc, hinc, Option.map_some], ?_⟩
  intro v
  rw [count_insert, TempCounters.counter_setCounter]
  by_cases hhash : v.hash = value.hash
  · by_cases hformat : v.format = value.format
    · rw [if_pos hhash, if_pos hformat, if_pos ((ext_iff_value v value).mpr ⟨hhash, hformat⟩)]
      rw [(ext_iff_value v value).mpr ⟨hhash, hformat⟩]
    · rw [if_pos hhash, if_neg hformat, if_neg (fun heq => hformat (congrArg HashAndFormat.format heq)),
        Nat.add_zero, count, hhash]
  · rw [if_neg hhash, if_neg (fun heq => hhash (congrArg HashAndFormat.hash heq)), Nat.add_zero]

/-- `dec` counts one less, if there is one. -/
private theorem count_dec (m : TempCounterMap) (value v : HashAndFormat) :
    (m.dec value).count v = m.count v - if v = value then 1 else 0 := by
  unfold dec
  cases hlookup : m.lookup value.hash with
  | none =>
    simp only
    split
    · rename_i heq
      have hzero : m.count v = 0 := by
        unfold count
        rw [heq, hlookup]
        cases value.format <;> rfl
      rw [hzero]
    · rfl
  | some counters =>
    simp only
    have hcounter : ∀ f, (counters.dec value.format).counter f = counters.counter f - if f =
      value.format then 1 else 0 := by
      intro f
      unfold TempCounters.dec
      rw [TempCounters.counter_setCounter]
      split
      · rename_i heq
        rw [heq]
      · rfl
    by_cases hhash : v.hash = value.hash
    · have hcount : m.count v = counters.counter v.format := by
        unfold count
        rw [hhash, hlookup, Option.getD_some]
      have hone : (if v = value then 1 else 0) = if v.format = value.format then 1 else 0 := by
        simp only [ext_iff_value, hhash, true_and]
      rw [hone, hcount, ← hcounter]
      split
      · rename_i hempty
        rw [TempCounters.counter_of_isEmpty hempty]
        unfold count
        rw [hhash, AList.lookup_erase]
        cases v.format <;> rfl
      · rw [count_insert, if_pos hhash]
    · have hne : v ≠ value := fun heq => hhash (congrArg HashAndFormat.hash heq)
      rw [if_neg hne, Nat.sub_zero]
      split
      · unfold count
        rw [AList.lookup_erase_ne hhash]
      · rw [count_insert, if_neg hhash]

private theorem mem_keys_iff (m : TempCounterMap) (value : HashAndFormat) : value ∈ m.keys ↔ 0 < m.count value := by
  have hentry : value ∈ m.keys ↔ ∃ counters, m.lookup value.hash = some counters ∧
    0 < counters.counter value.format := by
    unfold keys
    rw [List.mem_flatMap]
    constructor
    · rintro ⟨⟨hash, counters⟩, he, hmem⟩
      refine ⟨counters, ?_⟩
      rw [List.mem_append] at hmem
      have hvalue : value.hash = hash ∧ 0 < counters.counter value.format := by
        rcases hmem with hmem | hmem <;> split at hmem <;> simp only [List.mem_singleton, List.not_mem_nil] at hmem
        · subst hmem
          exact ⟨rfl, by assumption⟩
        · subst hmem
          exact ⟨rfl, by assumption⟩
      rw [hvalue.1]
      exact ⟨AList.mem_lookup_iff.mpr he, hvalue.2⟩
    · rintro ⟨counters, hlookup, hpos⟩
      refine ⟨⟨value.hash, counters⟩, AList.mem_lookup_iff.mp hlookup, ?_⟩
      obtain ⟨hash, format⟩ := value
      cases format with
      | raw =>
        have hraw : 0 < counters.raw := hpos
        simp [hraw]
      | hashSeq =>
        have hseq : 0 < counters.hashSeq := hpos
        simp [hseq]
  rw [hentry]
  unfold count
  cases m.lookup value.hash with
  | none =>
    have hzero : TempCounters.counter {} value.format = 0 := by cases value.format <;> rfl
    simp [hzero]
  | some counters => simp

end TempCounterMap

/-- A temp tag.  The scope, and whether it has been dropped or released, are history; no operation reads them. -/
structure TempTag where
  inner : HashAndFormat
  /-- A weak reference to the counters to decrement. -/
  onDrop : Option Nat
  scope : Scope
  released : Bool

structure State where
  scopes : AList fun _ : Scope => Nat
  nextScope : Nat
  heap : Nat → TempCounterMap
  nextAddr : Nat
  /-- The batch tasks, with the counters of their scope. -/
  batches : AList fun _ : Scope => Nat
  tags : List TempTag
  /-- The scopes that have ended.  History. -/
  ended : List Scope

namespace State

def init : State where
  scopes := ∅
  nextScope := 0
  heap _ := ∅
  nextAddr := 0
  batches := ∅
  tags := []
  ended := []

/-- `scopes.entry(scope).or_default()`. -/
def entry (s : State) (scope : Scope) : State × Nat :=
  match s.scopes.lookup scope with
  | some addr => (s, addr)
  | none =>
    ({ s with
        scopes := s.scopes.insert scope s.nextAddr
        heap := Function.update s.heap s.nextAddr ∅
        nextAddr := s.nextAddr + 1 },
      s.nextAddr)

/-- `create_scope`, and the task of the batch.  The identifiers have 64 bits; `none` is a panic. -/
def createScope (s : State) : Option State :=
  if s.nextScope + 1 < 2 ^ 64 then
    let (s', addr) := entry { s with nextScope := s.nextScope + 1 } (s.nextScope + 1)
    some { s' with batches := s'.batches.insert (s.nextScope + 1) addr }
  else none

def endScope (s : State) (scope : Scope) : State :=
  { s with scopes := s.scopes.erase scope, ended := scope :: s.ended }

def list (s : State) : List HashAndFormat := s.scopes.entries.flatMap fun e => (s.heap e.2).keys

def create (s : State) (scope : Scope) (content : HashAndFormat) : Option State :=
  let (s, addr) := s.entry scope
  ((s.heap addr).inc content).map fun m =>
    { s with
      heap := Function.update s.heap addr m
      tags := s.tags ++ [{ inner := content, onDrop := some addr, scope, released := false }] }

/-- `FinishImport`.  The tag of the empty blob is not tracked (`leaking_empty`). -/
def finishImport (s : State) (scope : Scope) (content : HashAndFormat) : Option State :=
  if content.hash = .EMPTY then some s else s.create scope content

/-- `TempTagScope::on_drop`. -/
def onDrop (s : State) (addr : Nat) (inner : HashAndFormat) : State :=
  { s with heap := Function.update s.heap addr ((s.heap addr).dec inner) }

/-- Somebody still holds the counters of the scope. -/
def upgrade (s : State) (scope : Scope) (addr : Nat) : Bool :=
  s.scopes.lookup scope = some addr || s.batches.lookup scope = some addr

/-- A tag is dropped. -/
def drop (s : State) (i : Nat) : State :=
  match s.tags[i]? with
  | none => s
  | some tag =>
    match tag.onDrop with
    | none => s
    | some addr =>
      let s' := if s.upgrade tag.scope addr then s.onDrop addr tag.inner else s
      { s' with tags := s.tags.set i { tag with onDrop := none, released := true } }

/-- A tag is leaked: what happens to it afterwards does not change the counters. -/
def leak (s : State) (i : Nat) : State :=
  match s.tags[i]? with
  | none => s
  | some tag => { s with tags := s.tags.set i { tag with onDrop := none } }

/-- A tag of the scope for the value that has not been released. -/
def counted (scope : Scope) (value : HashAndFormat) (tag : TempTag) : Bool :=
  tag.scope == scope && tag.inner == value && !tag.released

/-- One of the leaked tags is released. -/
def releaseLeaked (tags : List TempTag) (scope : Scope) (value : HashAndFormat) : List TempTag :=
  match tags.findIdx? fun tag => counted scope value tag && tag.onDrop.isNone with
  | none => tags
  | some i => tags[i]?.elim tags fun tag => tags.set i { tag with released := true }

/-- `BatchResponse::Drop`. -/
def batchDrop (s : State) (scope : Scope) (value : HashAndFormat) : State :=
  match s.batches.lookup scope with
  | none => s
  | some addr => { s.onDrop addr value with tags := releaseLeaked s.tags scope value }

/-- The task of a batch is done. -/
def batchDone (s : State) (scope : Scope) : State := { s with batches := s.batches.erase scope }

end State

inductive Action
  | createScope
  | create (scope : Scope) (value : HashAndFormat)
  | finishImport (scope : Scope) (value : HashAndFormat)
  | drop (i : Nat)
  | leak (i : Nat)
  | batchDrop (scope : Scope) (value : HashAndFormat)
  | batchDone (scope : Scope)
  | endScope (scope : Scope)

/-- `none` is a panic.  Operations on tags and batches that do not exist do nothing. -/
def step (s : State) : Action → Option State
  | .createScope => s.createScope
  | .create scope value => s.create scope value
  | .finishImport scope value => s.finishImport scope value
  | .drop i => some (s.drop i)
  | .leak i => some (s.leak i)
  | .batchDrop scope value => some (s.batchDrop scope value)
  | .batchDone scope => some (s.batchDone scope)
  | .endScope scope => some (s.endScope scope)

/-! ### What is counted -/

/-- The list is the values of the tags in scopes that have not ended that were neither dropped nor released. -/
def Exact (s : State) : Prop :=
  ∀ value, value ∈ s.list ↔ ∃ tag ∈ s.tags, tag.inner = value ∧ tag.scope ∉ s.ended ∧ tag.released = false

/-- Nothing is created in a scope that has ended, and a batch releases tags that have been leaked.  There are fewer than
`2 ^ 64` tags and scopes. -/
def Meets (s : State) : Action → Prop
  | .createScope => s.nextScope + 1 < 2 ^ 64
  | .create scope _ => scope ∉ s.ended ∧ s.tags.length + 1 < 2 ^ 64
  | .finishImport scope value => value.hash ≠ .EMPTY → scope ∉ s.ended ∧ s.tags.length + 1 < 2 ^ 64
  | .batchDrop scope value => scope ∉ s.ended → (∃ tag ∈ s.tags, State.counted scope value tag = true) →
      ∃ tag ∈ s.tags, State.counted scope value tag = true ∧ tag.onDrop = none
  | _ => True

/-- Somebody refers to the counters at the address as the counters of the scope. -/
def Ref (s : State) (scope : Scope) (addr : Nat) : Prop :=
  s.scopes.lookup scope = some addr ∨ s.batches.lookup scope = some addr ∨
    ∃ tag ∈ s.tags, tag.scope = scope ∧ tag.onDrop = some addr

structure Inv (s : State) : Prop where
  /-- Counters belong to one scope. -/
  owner : ∀ {a b addr}, Ref s a addr → Ref s b addr → a = b
  fresh : ∀ {a addr}, Ref s a addr → addr < s.nextAddr
  batch : ∀ {a addr}, s.batches.lookup a = some addr → a ∉ s.ended → s.scopes.lookup a = some addr
  tag : ∀ {tag}, tag ∈ s.tags → tag.scope ∉ s.ended →
    ∃ addr, s.scopes.lookup tag.scope = some addr ∧ ∀ a, tag.onDrop = some a → a = addr
  held : ∀ {tag addr}, tag ∈ s.tags → tag.onDrop = some addr → tag.released = false
  count : ∀ {a addr} value, s.scopes.lookup a = some addr →
    (s.heap addr).count value = if a ∈ s.ended then 0 else s.tags.countP (State.counted a value)

open State

variable {s : State} {scope a b : Scope} {addr i : Nat} {value : HashAndFormat} {tag : TempTag}

private theorem counted_iff : counted scope value tag = true ↔
    tag.scope = scope ∧ tag.inner = value ∧ tag.released = false := by
  unfold counted
  rw [Bool.and_eq_true, Bool.and_eq_true, beq_iff_eq, beq_iff_eq, Bool.not_eq_true', and_assoc]

private theorem mem_list_iff : value ∈ s.list ↔ ∃ a addr, s.scopes.lookup a = some addr ∧
    0 < (s.heap addr).count value := by
  unfold list
  rw [List.mem_flatMap]
  constructor
  · rintro ⟨e, he, hmem⟩
    exact ⟨e.1, e.2, AList.mem_lookup_iff.mpr he, (TempCounterMap.mem_keys_iff _ _).mp hmem⟩
  · rintro ⟨a, addr, hlookup, hpos⟩
    exact ⟨⟨a, addr⟩, AList.mem_lookup_iff.mp hlookup, (TempCounterMap.mem_keys_iff _ _).mpr hpos⟩

/-- In states with the invariant the list is exact. -/
private theorem Inv.exact (h : Inv s) : Exact s := by
  intro value
  rw [mem_list_iff]
  constructor
  · rintro ⟨a, addr, hlookup, hpos⟩
    rw [h.count value hlookup] at hpos
    split at hpos
    · omega
    · rename_i hended
      obtain ⟨tag, hmem, hcounted⟩ := List.countP_pos_iff.mp hpos
      obtain ⟨rfl, hinner, hreleased⟩ := counted_iff.mp hcounted
      exact ⟨tag, hmem, hinner, hended, hreleased⟩
  · rintro ⟨tag, hmem, hinner, hended, hreleased⟩
    obtain ⟨addr, hlookup, -⟩ := h.tag hmem hended
    refine ⟨tag.scope, addr, hlookup, ?_⟩
    rw [h.count value hlookup, if_neg hended, List.countP_pos_iff]
    exact ⟨tag, hmem, counted_iff.mpr ⟨rfl, hinner, hreleased⟩⟩

private theorem inv_init : Inv init where
  owner h := by
    rcases h with h | h | ⟨tag, hmem, -⟩
    · cases h
    · cases h
    · cases hmem
  fresh h := by
    rcases h with h | h | ⟨tag, hmem, -⟩
    · cases h
    · cases h
    · cases hmem
  batch h := by cases h
  tag h := by cases h
  held h := by cases h
  count _ h := by cases h

/-! ### What the operations do -/

/-- No operation but `entry` makes new references. -/
private theorem Inv.refs {t : State} (h : Inv s) (hrefs : ∀ {a addr}, Ref t a addr → Ref s a addr)
    (hnext : t.nextAddr = s.nextAddr) :
    (∀ {a b addr}, Ref t a addr → Ref t b addr → a = b) ∧ ∀ {a addr}, Ref t a addr → addr < t.nextAddr := by
  constructor
  · intro a b addr ha hb
    exact h.owner (hrefs ha) (hrefs hb)
  · intro a addr ha
    rw [hnext]
    exact h.fresh (hrefs ha)

/-- What `entry` gives: the counters of the scope. -/
structure Entered (s t : State) (scope : Scope) (addr : Nat) : Prop where
  inv : Inv t
  lookup : t.scopes.lookup scope = some addr
  tags : t.tags = s.tags
  ended : t.ended = s.ended
  nextScope : t.nextScope = s.nextScope

private theorem entered_entry (h : Inv s) (scope : Scope) : Entered s (s.entry scope).1 scope (s.entry scope).2 := by
  unfold entry
  cases hlookup : s.scopes.lookup scope with
  | some addr => exact ⟨h, hlookup, rfl, rfl, rfl⟩
  | none =>
    simp only
    have hrefs : ∀ {a addr}, Ref { s with
        scopes := s.scopes.insert scope s.nextAddr
        heap := Function.update s.heap s.nextAddr ∅
        nextAddr := s.nextAddr + 1 } a addr → a = scope ∧ addr = s.nextAddr ∨ Ref s a addr := by
      intro a addr href
      rcases href with href | href
      · by_cases ha : a = scope
        · subst ha
          rw [AList.lookup_insert] at href
          cases href
          exact Or.inl ⟨rfl, rfl⟩
        · rw [AList.lookup_insert_ne ha] at href
          exact Or.inr (Or.inl href)
      · exact Or.inr (Or.inr href)
    have hne : ∀ {a addr}, s.scopes.lookup a = some addr → a ≠ scope := by
      intro a addr ha heq
      rw [heq, hlookup] at ha
      cases ha
    refine ⟨⟨?_, ?_, ?_, ?_, h.held, ?_⟩, AList.lookup_insert _, rfl, rfl, rfl⟩
    · intro a b addr ha hb
      rcases hrefs ha with ⟨ha, hx⟩ | ha <;> rcases hrefs hb with ⟨hb, hy⟩ | hb
      · rw [ha, hb]
      · have hlt := h.fresh hb
        omega
      · have hlt := h.fresh ha
        omega
      · exact h.owner ha hb
    · intro a addr ha
      rcases hrefs ha with ⟨-, rfl⟩ | ha
      · exact Nat.lt_succ_self _
      · exact Nat.lt_succ_of_lt (h.fresh ha)
    · intro a addr ha hended
      have hold := h.batch ha hended
      rw [AList.lookup_insert_ne (hne hold)]
      exact hold
    · intro tag hmem hended
      obtain ⟨addr, hold, hdrop⟩ := h.tag hmem hended
      exact ⟨addr, by rw [AList.lookup_insert_ne (hne hold)]; exact hold, hdrop⟩
    · intro a addr value ha
      by_cases hscope : a = scope
      · subst hscope
        rw [AList.lookup_insert] at ha
        cases ha
        simp only [Function.update_self, TempCounterMap.count_empty]
        split
        · rfl
        · rename_i hended
          symm
          rw [List.countP_eq_zero]
          intro tag hmem hcounted
          obtain ⟨rfl, -, -⟩ := counted_iff.mp hcounted
          obtain ⟨addr, hold, -⟩ := h.tag hmem hended
          exact hne hold rfl
      · rw [AList.lookup_insert_ne hscope] at ha
        have hlt := h.fresh (Or.inl ha)
        have hne : addr ≠ s.nextAddr := by omega
        simp only [Function.update_of_ne hne]
        exact h.count value ha

private theorem inv_create (h : Inv s) (hended : scope ∉ s.ended) (hlen : s.tags.length + 1 < 2 ^ 64) :
    ∃ s', s.create scope value = some s' ∧ Inv s' := by
  have hentry := entered_entry h scope
  unfold create
  generalize hs' : s.entry scope = entered at hentry ⊢
  obtain ⟨t, addr⟩ := entered
  simp only at hentry ⊢
  obtain ⟨hinv, hlookup, htags, hend, -⟩ := hentry
  have hcount := hinv.count value hlookup
  rw [hend, if_neg hended, htags] at hcount
  have hle := List.countP_le_length (p := counted scope value) (l := s.tags)
  obtain ⟨m, hm, hcounts⟩ := TempCounterMap.inc_spec (t.heap addr) value (by omega)
  rw [hm, Option.map_some]
  refine ⟨_, rfl, ?_⟩
  have hrefs : ∀ {a x}, Ref { t with
      heap := Function.update t.heap addr m
      tags := t.tags ++ [{ inner := value, onDrop := some addr, scope, released := false }] } a x → Ref t a x := by
    intro a x href
    rcases href with href | href | ⟨tag, hmem, hscope, hdrop⟩
    · exact Or.inl href
    · exact Or.inr (Or.inl href)
    · rw [List.mem_append, List.mem_singleton] at hmem
      rcases hmem with hmem | rfl
      · exact Or.inr (Or.inr ⟨tag, hmem, hscope, hdrop⟩)
      · cases hdrop
        subst hscope
        exact Or.inl hlookup
  obtain ⟨howner, hfresh⟩ := hinv.refs hrefs rfl
  refine ⟨howner, hfresh, hinv.batch, ?_, ?_, ?_⟩
  · intro tag hmem hnot
    rw [List.mem_append, List.mem_singleton] at hmem
    rcases hmem with hmem | rfl
    · exact hinv.tag hmem hnot
    · refine ⟨addr, hlookup, ?_⟩
      intro x hx
      cases hx
      rfl
  · intro tag x hmem hdrop
    rw [List.mem_append, List.mem_singleton] at hmem
    rcases hmem with hmem | rfl
    · exact hinv.held hmem hdrop
    · rfl
  · intro a x v ha
    rw [List.countP_append, List.countP_singleton]
    have hnew : counted a v { inner := value, onDrop := some addr, scope, released := false } = true ↔
        scope = a ∧ value = v := by
      rw [counted_iff]
      simp
    have hold := hinv.count v ha
    by_cases hx : x = addr
    · subst hx
      have hscope := hinv.owner (Or.inl ha) (Or.inl hlookup)
      subst hscope
      simp only [Function.update_self, hcounts, hold, hend, if_neg hended, hnew, true_and]
      simp only [eq_comm]
    · have hscope : scope ≠ a := by
        rintro rfl
        rw [hlookup] at ha
        cases ha
        exact hx rfl
      simp only [Function.update_of_ne hx, hold, hnew, hscope, false_and, if_false, Nat.add_zero]

private theorem inv_createScope (h : Inv s) (hnext : s.nextScope + 1 < 2 ^ 64) :
    ∃ s', s.createScope = some s' ∧ Inv s' := by
  have hinv : Inv { s with nextScope := s.nextScope + 1 } := ⟨h.owner, h.fresh, h.batch, h.tag, h.held, h.count⟩
  have hentry := entered_entry hinv (s.nextScope + 1)
  unfold createScope
  rw [if_pos hnext]
  generalize entry { s with nextScope := s.nextScope + 1 } (s.nextScope + 1) = entered at hentry ⊢
  obtain ⟨t, addr⟩ := entered
  refine ⟨_, rfl, ?_⟩
  simp only at hentry ⊢
  have hrefs : ∀ {a x}, Ref { t with batches := t.batches.insert (s.nextScope + 1) addr } a x → Ref t a x := by
    intro a x href
    rcases href with href | href | href
    · exact Or.inl href
    · by_cases ha : a = s.nextScope + 1
      · subst ha
        rw [AList.lookup_insert] at href
        cases href
        exact Or.inl hentry.lookup
      · rw [AList.lookup_insert_ne ha] at href
        exact Or.inr (Or.inl href)
    · exact Or.inr (Or.inr href)
  obtain ⟨howner, hfresh⟩ := hentry.inv.refs hrefs rfl
  refine ⟨howner, hfresh, ?_, hentry.inv.tag, hentry.inv.held, hentry.inv.count⟩
  intro a x ha hended
  by_cases hscope : a = s.nextScope + 1
  · subst hscope
    rw [AList.lookup_insert] at ha
    cases ha
    exact hentry.lookup
  · rw [AList.lookup_insert_ne hscope] at ha
    exact hentry.inv.batch ha hended

private theorem inv_finishImport (h : Inv s)
    (hok : value.hash ≠ .EMPTY → scope ∉ s.ended ∧ s.tags.length + 1 < 2 ^ 64) :
    ∃ s', s.finishImport scope value = some s' ∧ Inv s' := by
  unfold finishImport
  split
  · exact ⟨s, rfl, h⟩
  · rename_i hempty
    exact inv_create h (hok hempty).1 (hok hempty).2

private theorem inv_endScope (h : Inv s) : Inv (s.endScope scope) := by
  have hlookup : ∀ {a addr}, (s.scopes.erase scope).lookup a = some addr →
    a ≠ scope ∧ s.scopes.lookup a = some addr := by
    intro a addr ha
    by_cases hscope : a = scope
    · subst hscope
      rw [AList.lookup_erase] at ha
      cases ha
    · rw [AList.lookup_erase_ne hscope] at ha
      exact ⟨hscope, ha⟩
  have hrefs : ∀ {a addr}, Ref (s.endScope scope) a addr → Ref s a addr := by
    intro a addr href
    rcases href with href | href
    · exact Or.inl (hlookup href).2
    · exact Or.inr href
  obtain ⟨howner, hfresh⟩ := h.refs hrefs rfl
  refine ⟨howner, hfresh, ?_, ?_, h.held, ?_⟩
  · intro a addr ha hended
    rw [endScope, List.mem_cons, not_or] at hended
    simp only [endScope, AList.lookup_erase_ne hended.1]
    exact h.batch ha hended.2
  · intro tag hmem hended
    rw [endScope, List.mem_cons, not_or] at hended
    simp only [endScope, AList.lookup_erase_ne hended.1]
    exact h.tag hmem hended.2
  · intro a addr v ha
    obtain ⟨hscope, ha⟩ := hlookup ha
    have hmem : a ∈ (s.endScope scope).ended ↔ a ∈ s.ended := by
      simp only [endScope, List.mem_cons, hscope, false_or]
    simp only [hmem]
    exact h.count v ha

private theorem inv_batchDone (h : Inv s) : Inv (s.batchDone scope) := by
  have hlookup : ∀ {a addr}, (s.batches.erase scope).lookup a = some addr → s.batches.lookup a = some addr := by
    intro a addr ha
    by_cases hscope : a = scope
    · subst hscope
      rw [AList.lookup_erase] at ha
      cases ha
    · rw [AList.lookup_erase_ne hscope] at ha
      exact ha
  have hrefs : ∀ {a addr}, Ref (s.batchDone scope) a addr → Ref s a addr := by
    intro a addr href
    rcases href with href | href | href
    · exact Or.inl href
    · exact Or.inr (Or.inl (hlookup href))
    · exact Or.inr (Or.inr href)
  obtain ⟨howner, hfresh⟩ := h.refs hrefs rfl
  exact ⟨howner, hfresh, fun ha hended => h.batch (hlookup ha) hended, h.tag, h.held, h.count⟩

/-! ### Tags that change -/

private theorem countP_set_add (p : TempTag → Bool) {tags : List TempTag} (new : TempTag) (hget : tags[i]? = some tag) :
    (tags.set i new).countP p + (if p tag then 1 else 0) = tags.countP p + if p new then 1 else 0 := by
  obtain ⟨hlt, hval⟩ := List.getElem?_eq_some_iff.mp hget
  rw [List.countP_set hlt, hval]
  have hpos : p tag = true → 0 < tags.countP p := fun hp => List.countP_pos_iff.mpr ⟨tag, List.mem_of_getElem? hget, hp⟩
  split
  · rename_i hp
    have := hpos hp
    omega
  · omega

/-- A tag that loses its reference, or is released without one. -/
structure Changed (tag new : TempTag) : Prop where
  inner : new.inner = tag.inner
  scope : new.scope = tag.scope
  onDrop : new.onDrop = none

private theorem mem_set_changed {tags : List TempTag} {new other : TempTag} (hget : tags[i]? = some tag)
    (hnew : Changed tag new) (hmem : other ∈ tags.set i new) :
    ∃ old ∈ tags, other.scope = old.scope ∧ (other = old ∨ other.onDrop = none) := by
  rcases List.mem_or_eq_of_mem_set hmem with hmem | rfl
  · exact ⟨other, hmem, rfl, Or.inl rfl⟩
  · exact ⟨tag, List.mem_of_getElem? hget, hnew.scope, Or.inr hnew.onDrop⟩

/-- A changed tag keeps the invariant if the counters agree with it. -/
theorem inv_set {new : TempTag} {heap : Nat → TempCounterMap} (h : Inv s) (hget : s.tags[i]? = some tag)
    (hnew : Changed tag new)
    (hcount : ∀ {a addr} value, s.scopes.lookup a = some addr →
      (heap addr).count value = if a ∈ s.ended then 0 else (s.tags.set i new).countP (counted a value)) :
    Inv { s with heap, tags := s.tags.set i new } := by
  have hrefs : ∀ {a x}, Ref { s with heap, tags := s.tags.set i new } a x → Ref s a x := by
    intro a x href
    rcases href with href | href | ⟨other, hmem, hscope, hdrop⟩
    · exact Or.inl href
    · exact Or.inr (Or.inl href)
    · obtain ⟨old, hold, hsame, heq | hnone⟩ := mem_set_changed hget hnew hmem
      · subst heq
        exact Or.inr (Or.inr ⟨other, hold, hscope, hdrop⟩)
      · rw [hnone] at hdrop
        cases hdrop
  obtain ⟨howner, hfresh⟩ := h.refs hrefs rfl
  refine ⟨howner, hfresh, h.batch, ?_, ?_, hcount⟩
  · intro other hmem hended
    obtain ⟨old, hold, hsame, heq⟩ := mem_set_changed hget hnew hmem
    rw [hsame] at hended ⊢
    obtain ⟨addr, hlookup, hdrop⟩ := h.tag hold hended
    refine ⟨addr, hlookup, ?_⟩
    intro x hx
    rcases heq with rfl | hnone
    · exact hdrop x hx
    · rw [hnone] at hx
      cases hx
  · intro other x hmem hdrop
    obtain ⟨old, hold, -, rfl | hnone⟩ := mem_set_changed hget hnew hmem
    · exact h.held hold hdrop
    · rw [hnone] at hdrop
      cases hdrop

private theorem inv_leak (h : Inv s) : Inv (s.leak i) := by
  unfold leak
  cases hget : s.tags[i]? with
  | none => exact h
  | some tag =>
    refine inv_set h hget ⟨rfl, rfl, rfl⟩ ?_
    intro a addr value hlookup
    have hset := countP_set_add (counted a value) { tag with onDrop := none } hget
    have hsame : counted a value { tag with onDrop := none } = counted a value tag := rfl
    rw [hsame] at hset
    rw [h.count value hlookup, Nat.add_right_cancel hset]

private theorem count_onDrop (s : State) (addr : Nat) (value v : HashAndFormat) (x : Nat) :
    ((s.onDrop addr value).heap x).count v = (s.heap x).count v - if x = addr ∧ v = value then 1 else 0 := by
  unfold onDrop
  by_cases hx : x = addr
  · subst hx
    simp only [Function.update_self, TempCounterMap.count_dec, true_and]
  · simp only [Function.update_of_ne hx, hx, false_and, if_false, Nat.sub_zero]

/-- What a scope counts less when one tag of it is gone. -/
theorem count_release {new : TempTag} (h : Inv s) (hget : s.tags[i]? = some tag) (htag : counted scope value tag = true)
    (hnew : new.released = true) (href : Ref s scope addr)
    (haddr : scope ∉ s.ended → s.scopes.lookup scope = some addr) {x : Nat} (v : HashAndFormat)
    (hlookup : s.scopes.lookup a = some x) :
    ((s.onDrop addr value).heap x).count v =
      if a ∈ s.ended then 0 else (s.tags.set i new).countP (counted a v) := by
  rw [count_onDrop, h.count v hlookup]
  have hset := countP_set_add (counted a v) new hget
  have hgone : counted a v new = false := by
    unfold counted
    rw [hnew]
    simp
  obtain ⟨hscope, hinner, hreleased⟩ := counted_iff.mp htag
  have hone : counted a v tag = true ↔ a = scope ∧ v = value := by
    rw [counted_iff, hscope, hinner]
    simp only [hreleased, and_true]
    exact and_congr eq_comm eq_comm
  rw [hgone] at hset
  by_cases hended : a ∈ s.ended
  · simp only [if_pos hended, Nat.zero_sub]
  · have hsame : x = addr ↔ a = scope := by
      constructor
      · rintro rfl
        exact h.owner (Or.inl hlookup) href
      · rintro rfl
        rw [haddr hended] at hlookup
        cases hlookup
        rfl
    simp only [hone] at hset
    simp only [if_neg hended, hsame]
    simp only [Bool.false_eq_true, if_false, Nat.add_zero] at hset
    omega

private theorem inv_drop (h : Inv s) : Inv (s.drop i) := by
  unfold State.drop
  cases hget : s.tags[i]? with
  | none => exact h
  | some tag =>
    cases hdrop : tag.onDrop with
    | none =>
      simp only [hdrop]
      exact h
    | some addr =>
      simp only [hdrop]
      have hmem := List.mem_of_getElem? hget
      have hreleased := h.held hmem hdrop
      have href : Ref s tag.scope addr := Or.inr (Or.inr ⟨tag, hmem, rfl, hdrop⟩)
      have haddr : tag.scope ∉ s.ended → s.scopes.lookup tag.scope = some addr := by
        intro hended
        obtain ⟨x, hlookup, hx⟩ := h.tag hmem hended
        rw [hx addr hdrop]
        exact hlookup
      split
      · have hinv : Inv { s with
            heap := (s.onDrop addr tag.inner).heap
            tags := s.tags.set i { tag with onDrop := none, released := true } } := by
          refine inv_set h hget ⟨rfl, rfl, rfl⟩ ?_
          intro a x v hlookup
          exact count_release h hget (counted_iff.mpr ⟨rfl, rfl, hreleased⟩) rfl href haddr v hlookup
        exact hinv
      · rename_i hupgrade
        refine inv_set h hget ⟨rfl, rfl, rfl⟩ ?_
        intro a x v hlookup
        rw [h.count v hlookup]
        split
        · rfl
        · rename_i hended
          have hne : tag.scope ≠ a := by
            rintro rfl
            apply hupgrade
            simp [upgrade, haddr hended]
          have hset := countP_set_add (counted a v) { tag with onDrop := none, released := true } hget
          have hnot : ∀ new : TempTag, new.scope = tag.scope → counted a v new = false := by
            intro new hscope
            simp [counted, hscope, hne]
          rw [hnot tag rfl, hnot { tag with onDrop := none, released := true } rfl] at hset
          exact hset.symm

private theorem releaseLeaked_cases (tags : List TempTag) (scope : Scope) (value : HashAndFormat) :
    (releaseLeaked tags scope value = tags ∧ ¬ ∃ tag ∈ tags, counted scope value tag = true ∧ tag.onDrop = none) ∨
    ∃ i tag, tags[i]? = some tag ∧ counted scope value tag = true ∧ tag.onDrop = none ∧
      releaseLeaked tags scope value = tags.set i { tag with released := true } := by
  unfold releaseLeaked
  cases hfind : tags.findIdx? fun tag => counted scope value tag && tag.onDrop.isNone with
  | none =>
    left
    refine ⟨rfl, ?_⟩
    rintro ⟨tag, hmem, hcounted, hnone⟩
    have hnot := List.findIdx?_eq_none_iff.mp hfind tag hmem
    rw [hcounted, hnone] at hnot
    cases hnot
  | some i =>
    right
    obtain ⟨hlt, hp, -⟩ := List.findIdx?_eq_some_iff_getElem.mp hfind
    rw [Bool.and_eq_true, Option.isNone_iff_eq_none] at hp
    have hget := List.getElem?_eq_getElem hlt
    refine ⟨i, tags[i], hget, hp.1, hp.2, ?_⟩
    simp only [hget, Option.elim_some]

private theorem inv_batchDrop (h : Inv s)
    (hok : scope ∉ s.ended → (∃ tag ∈ s.tags, counted scope value tag = true) →
      ∃ tag ∈ s.tags, counted scope value tag = true ∧ tag.onDrop = none) : Inv (s.batchDrop scope value) := by
  unfold State.batchDrop
  cases hbatch : s.batches.lookup scope with
  | none => exact h
  | some addr =>
    have href : Ref s scope addr := Or.inr (Or.inl hbatch)
    simp only
    rcases releaseLeaked_cases s.tags scope value with ⟨hsame, hnone⟩ | ⟨i, tag, hget, hcounted, hdrop, hset⟩
    · rw [hsame]
      refine ⟨h.owner, h.fresh, h.batch, h.tag, h.held, ?_⟩
      intro a x v hlookup
      have hcount := count_onDrop s addr value v x
      rw [h.count v hlookup] at hcount
      refine hcount.trans ?_
      have hend : (s.onDrop addr value).ended = s.ended := rfl
      simp only [hend]
      by_cases hended : a ∈ s.ended
      · simp only [if_pos hended, Nat.zero_sub]
      · have hzero : x = addr ∧ v = value → s.tags.countP (counted a v) = 0 := by
          rintro ⟨rfl, rfl⟩
          have ha := h.owner (Or.inl hlookup) href
          subst ha
          rw [List.countP_eq_zero]
          intro tag hmem hcounted
          exact hnone (hok hended ⟨tag, hmem, hcounted⟩)
        simp only [if_neg hended]
        split
        · rename_i heq
          rw [hzero heq]
        · rfl
    · rw [hset]
      have hinv : Inv { s with
          heap := (s.onDrop addr value).heap
          tags := s.tags.set i { tag with released := true } } := by
        refine inv_set h hget ⟨rfl, rfl, hdrop⟩ ?_
        intro a x v hlookup
        exact count_release h hget hcounted rfl href (h.batch hbatch) v hlookup
      exact hinv

/-! ### Every run -/

private theorem inv_step {action : Action} (h : Inv s) (hok : Meets s action) :
    ∃ s', step s action = some s' ∧ Inv s' := by
  cases action with
  | createScope => exact inv_createScope h hok
  | create scope value => exact inv_create h hok.1 hok.2
  | finishImport scope value => exact inv_finishImport h hok
  | drop i => exact ⟨_, rfl, inv_drop h⟩
  | leak i => exact ⟨_, rfl, inv_leak h⟩
  | batchDrop scope value => exact ⟨_, rfl, inv_batchDrop h hok⟩
  | batchDone scope => exact ⟨_, rfl, inv_batchDone h⟩
  | endScope scope => exact ⟨_, rfl, inv_endScope h⟩

/-- In every run whose steps meet the condition nothing panics, and the list is exact. -/
theorem exact_of_meets (as : List Action) (hok : StateMachine.RunMeets step Meets init as) :
    ∃ s, StateMachine.run step init as = some s ∧ Exact s := by
  obtain ⟨s, hrun, hinv⟩ := StateMachine.exists_run step inv_step inv_init hok
  exact ⟨s, hrun, hinv.exact⟩

/-- Two tags of a batch, one of them leaked and released, the other one dropped. -/
def batchRun (value : HashAndFormat) : List Action :=
  [.createScope, .create 1 value, .create 1 value, .leak 0, .batchDrop 1 value, .drop 1, .batchDone 1, .endScope 1]

private theorem meets_batchRun (value : HashAndFormat) (s : State)
    (hs : StateMachine.run step init [.createScope, .create 1 value, .create 1 value, .leak 0] = some s)
    (hleaked : ∃ tag ∈ s.tags, counted 1 value tag = true ∧ tag.onDrop = none)
    (hok : StateMachine.RunMeets step Meets init [.createScope, .create 1 value, .create 1 value, .leak 0]) :
    StateMachine.RunMeets step Meets init (batchRun value) := by
  refine (@StateMachine.runMeets_append _ _ step _ _ _ [.batchDrop 1 value, .drop 1, .batchDone 1, .endScope 1]).mpr
    ⟨hok, ?_⟩
  intro t ht
  rw [hs] at ht
  cases ht
  refine ⟨fun _ _ => hleaked, ?_⟩
  intro t _
  refine ⟨trivial, fun t _ => ⟨trivial, fun t _ => ⟨trivial, fun t _ => trivial⟩⟩⟩

/-- The tags of a batch are counted. -/
theorem exact_batchRun :
    ∃ s, StateMachine.run step init (batchRun ⟨.replicate 1, .raw⟩) = some s ∧ Exact s := by
  have hsmall : 0 + 1 < 2 ^ 64 := by decide
  have htags : 0 + 1 + 1 < 2 ^ 64 := by decide
  refine exact_of_meets _ (meets_batchRun _ _ rfl ⟨_, List.mem_cons_self, by decide, rfl⟩ ?_)
  refine StateMachine.RunMeets.cons step hsmall rfl (StateMachine.RunMeets.cons step ⟨by decide, hsmall⟩ rfl
    (StateMachine.RunMeets.cons step ⟨by decide, htags⟩ rfl (StateMachine.RunMeets.cons step trivial rfl trivial)))

/-- A tag that is created in a scope after its end is listed. -/
theorem not_exact_endedScope : ¬ ∀ as, ∃ s, StateMachine.run step init as = some s ∧ Exact s := by
  intro hall
  obtain ⟨s, hrun, hexact⟩ := hall [.createScope, .endScope 1, .create 1 ⟨.replicate 1, .raw⟩]
  have hlist : (StateMachine.run step init [.createScope, .endScope 1, .create 1 ⟨.replicate 1, .raw⟩]).map State.list =
      some [⟨.replicate 1, .raw⟩] := by decide
  have hscopes : (StateMachine.run step init [.createScope, .endScope 1, .create 1 ⟨.replicate 1, .raw⟩]).map
      (fun s => s.tags.all fun tag => tag.scope ∈ s.ended) = some true := by decide
  rw [hrun, Option.map_some, Option.some.injEq] at hlist hscopes
  obtain ⟨tag, hmem, -, hended, -⟩ := (hexact ⟨.replicate 1, .raw⟩).mp (by rw [hlist]; exact List.mem_cons_self)
  have hin := List.all_eq_true.mp hscopes tag hmem
  rw [decide_eq_true_eq] at hin
  exact hended hin

end TempTags

end IrohBlobs
