import IrohBlobs.SortedTable
import IrohBlobs.TagRange

/-!
# The tags of the stores

The memory store and the file store keep the tags in a table that is sorted by name, and answer the same commands: the
one in its actor, the other in the metadata actor, where other commands come in between and all are batched.  Both
answer like a map from names to values.  A created tag gets a name that was not in use.
-/

namespace IrohBlobs

namespace Meta

open BatchedActor (Command Handlers)

/-! ### The map of tags -/

/-- The commands on tags.  A command to create a tag carries the time at which it is handled. -/
inductive TagCommand
  | setTag (name : Tag) (value : HashAndFormat)
  | createTag (now : Tag) (value : HashAndFormat)
  | deleteTags (request : DeleteTagsRequest)
  | renameTag (source target : Tag)
  | listTags (request : ListTagsRequest)

inductive TagReply
  | done
  | tag (tag : Tag)
  | tagNotFound (text : String)
  | tags (tags : Tags)

abbrev TagMap := Tag → Option HashAndFormat

namespace TagMap

/-- The tag is in the range of the request, and its format is asked for. -/
def Listed (request : ListTagsRequest) (tag : Tag) (value : HashAndFormat) : Prop :=
  inRange request.lower request.upper tag = true ∧
    (request.raw = true ∧ value.format.isRaw = true ∨ request.hashSeq = true ∧ value.format.isRaw = false)

/-- What a command does to the map of the tags, and how it is answered. -/
inductive Step (m : TagMap) : TagCommand → TagReply → TagMap → Prop
  | setTag (name : Tag) (value : HashAndFormat) :
    Step m (.setTag name value) .done (Function.update m name (some value))
  | createTag (now : Tag) (value : HashAndFormat) (tag : Tag) (free : m tag = none) (auto : now <+: tag) :
    Step m (.createTag now value) (.tag tag) (Function.update m tag (some value))
  | deleteTags (request : DeleteTagsRequest) :
    Step m (.deleteTags request) .done (fun tag => if inRange request.lower request.upper tag then none else m tag)
  | renameTag {source : Tag} {value : HashAndFormat} (target : Tag) (found : m source = some value) :
    Step m (.renameTag source target) .done (Function.update (Function.update m source none) target (some value))
  | renameMissing {source : Tag} (target : Tag) (missing : m source = none) (text : String) :
    Step m (.renameTag source target) (.tagNotFound text) m
  | listTags (request : ListTagsRequest) (tags : Tags) (sorted : SortedTable.Sorted tags)
    (exact_ : ∀ tag value, (tag, value) ∈ tags ↔ m tag = some value ∧ Listed request tag value) :
    Step m (.listTags request) (.tags tags) m

/-- A sequence of commands with their answers. -/
inductive Steps : TagMap → List (TagCommand × TagReply) → TagMap → Prop
  | nil (m : TagMap) : Steps m [] m
  | concat {m m' m'' : TagMap} {events : List (TagCommand × TagReply)} {cmd : TagCommand} {reply : TagReply}
    (init : Steps m events m') (last : Step m' cmd reply m'') : Steps m (events ++ [(cmd, reply)]) m''

end TagMap

/-! ### The memory store -/

def hexEncode (bytes : List UInt8) : String :=
  String.ofList (bytes.flatMap (fun b => [Nat.digitChar (b.toNat / 16), Nat.digitChar (b.toNat % 16)]))

/-- `Debug` of a tag. -/
def debugTag (tag : Tag) : String :=
  let text := match String.fromUTF8? ⟨tag.toArray⟩ with
    | some s => "\"" ++ s ++ "\""
    | none => hexEncode tag
  "Tag(" ++ text ++ ")"

/-- The commands on tags in the actor of the memory store. -/
def memHandle (tags : Tags) : TagCommand → TagReply × Tags
  | .setTag name value => (.done, tags.insert name value)
  | .createTag now value =>
    let tag := autoTag now tags
    (.tag tag, tags.insert tag value)
  | .deleteTags request => (.done, memDeleteTags tags request)
  | .renameTag source target =>
    match tags.get source with
    | none => (.tagNotFound ("tag not found: " ++ debugTag source), tags.remove source)
    | some value => (.done, (tags.remove source).insert target value)
  | .listTags request => (.tags (memListTags tags request), tags)

/-- The next command of a run. -/
def memExec (s : List (TagCommand × TagReply) × Tags) (cmd : TagCommand) : List (TagCommand × TagReply) × Tags :=
  (s.1 ++ [(cmd, (memHandle s.2 cmd).1)], (memHandle s.2 cmd).2)

/-- A run of the memory store, from no tags: the commands with their answers, and the tags. -/
def memRun (cmds : List TagCommand) : List (TagCommand × TagReply) × Tags := cmds.foldl memExec ([], [])

private theorem memRun_concat (cmds : List TagCommand) (cmd : TagCommand) :
    memRun (cmds ++ [cmd]) = memExec (memRun cmds) cmd := by
  simp [memRun]

/-! ### The file store -/

/-- The command on tags that a command of the metadata actor is. -/
def tagCommand? : Command ReadOnlyCommand ReadWriteCommand TopLevelCommand → Option TagCommand
  | .readWrite (.setTag name value) => some (.setTag name value)
  | .readWrite (.createTag now value) => some (.createTag now value)
  | .readWrite (.deleteTags lower upper) => some (.deleteTags ⟨lower, upper⟩)
  | .readWrite (.renameTag source target) => some (.renameTag source target)
  | .readOnly (.listTags lower upper raw hashSeq) => some (.listTags ⟨hashSeq, raw, lower, upper⟩)
  | _ => none

def tagReply? : Reply → Option TagReply
  | .done => some .done
  | .tag tag => some (.tag tag)
  | .tagNotFound text => some (.tagNotFound text)
  | .tags tags => some (.tags tags)
  | .state _ | .status _ | .snapshot _ => none

/-- The answer of the file store where the memory store gives an answer: the error for a missing tag does not name the
tag. -/
def fsReply : TagReply → TagReply
  | .tagNotFound _ => .tagNotFound "tag not found"
  | reply => reply

def fsEvent (event : TagCommand × TagReply) : TagCommand × TagReply := (event.1, fsReply event.2)

/-- The commands on tags with their answers, among everything that the actor has answered. -/
def tagEvents (cmds : List (Command ReadOnlyCommand ReadWriteCommand TopLevelCommand)) (replies : List Reply) :
    List (TagCommand × TagReply) :=
  (cmds.zip replies).filterMap (fun event =>
    (tagCommand? event.1).bind (fun cmd => (tagReply? event.2).map (fun reply => (cmd, reply))))

/-! ### New names -/

instance : IsStrictOrder Tag (· < ·) where
  irrefl := List.lt_irrefl
  trans := fun _ _ _ => List.lt_trans

instance : Std.Trichotomous (α := Tag) (· < ·) where
  trichotomous _ _ hab hba := List.le_antisymm hba hab

private theorem Tags.get_eq (tags : Tags) (tag : Tag) : tags.get tag = SortedTable.get tags tag := by
  unfold Tags.get SortedTable.get
  congr 2
  funext t
  rw [Bool.eq_iff_iff]
  simp only [beq_iff_eq]

private theorem Tags.insert_eq (tags : Tags) (tag : Tag) (value : HashAndFormat) :
    tags.insert tag value = SortedTable.insert tags tag value := rfl

private theorem toList_loop (bs : ByteArray) (i : Nat) (r : List UInt8) (hi : i ≤ bs.size) :
    ByteArray.toList.loop bs i r = r.reverse ++ bs.data.toList.drop i := by
  induction hk : bs.size - i generalizing i r with
  | zero =>
    unfold ByteArray.toList.loop
    rw [if_neg (by omega), List.drop_eq_nil_of_le, List.append_nil]
    rw [Array.length_toList]
    show bs.size ≤ i
    omega
  | succ k ih =>
    have hlt : i < bs.data.toList.length := by
      rw [Array.length_toList]
      show i < bs.size
      omega
    unfold ByteArray.toList.loop
    rw [if_pos (by omega), ih (i + 1) _ (by omega) (by omega), List.reverse_cons, List.append_assoc,
      List.singleton_append, List.drop_eq_getElem_cons hlt]
    congr 2
    show bs.data[i]! = _
    rw [Array.getElem_toList, getElem!_pos bs.data i (by simpa using hlt)]

private theorem byteArray_toList_injective : Function.Injective ByteArray.toList := by
  intro a b h
  unfold ByteArray.toList at h
  rw [toList_loop a 0 [] (Nat.zero_le _), toList_loop b 0 [] (Nat.zero_le _)] at h
  exact ByteArray.ext (Array.toList_inj.mp h)

private theorem natToString_injective : Function.Injective (fun n : Nat => toString n) := by
  intro i j h
  have hchars : Nat.toDigits 10 i = Nat.toDigits 10 j := by
    have := congrArg String.toList h
    simpa [Nat.toString_eq_repr, Nat.toList_repr] using this
  rw [← @Nat.ofDigitChars_ten_toDigits i, hchars, Nat.ofDigitChars_ten_toDigits]

/-- The suffix of a candidate is not empty. -/
private theorem suffix_ne_nil (i : Nat) : ("-" ++ toString i).toUTF8.toList ≠ [] := by
  intro h
  have hbytes : ("-" ++ toString i).toUTF8 = "".toUTF8 :=
    byteArray_toList_injective (h.trans ByteArray.toList_empty.symm)
  have hstr := String.toByteArray_inj.mp hbytes
  simp at hstr

private theorem autoCandidate_injective (now : Tag) : Function.Injective (autoCandidate now) := by
  intro i j h
  unfold autoCandidate at h
  split at h
  · rename_i hi
    split at h
    · rename_i hj
      rw [hi, hj]
    · exact absurd (List.self_eq_append_right.mp h) (suffix_ne_nil j)
  · split at h
    · exact absurd (List.append_right_eq_self.mp h) (suffix_ne_nil i)
    · have hstr := String.toByteArray_inj.mp (byteArray_toList_injective (List.append_cancel_left h))
      exact natToString_injective ((String.append_right_inj "-").mp hstr)

private theorem prefix_autoCandidate (now : Tag) (i : Nat) : now <+: autoCandidate now i := by
  unfold autoCandidate
  split
  · exact List.prefix_rfl
  · exact List.prefix_append _ _

/-- A created tag starts with the time, and it was not in use. -/
private theorem autoTag_spec (now : Tag) (tags : Tags) :
    tags.get (autoTag now tags) = none ∧ now <+: autoTag now tags := by
  have hnodup : ((List.range (tags.length + 1)).map (autoCandidate now)).Nodup :=
    List.Nodup.map (autoCandidate_injective now) List.nodup_range
  obtain ⟨tag, hmem, hfree⟩ := SortedTable.exists_free (t := tags) hnodup (by simp)
  unfold autoTag
  cases hfind : ((List.range (tags.length + 1)).map (autoCandidate now)).find? (fun tag => (tags.get tag).isNone) with
  | none =>
    have hused := List.find?_eq_none.mp hfind tag hmem
    rw [Tags.get_eq, hfree] at hused
    exact absurd rfl hused
  | some found =>
    obtain ⟨i, -, rfl⟩ := List.mem_map.mp (List.mem_of_find?_eq_some hfind)
    exact ⟨by simpa using List.find?_some hfind, prefix_autoCandidate now i⟩

/-! ### One command -/

private theorem sorted_remove {tags : Tags} (h : SortedTable.Sorted tags) (tag : Tag) :
    SortedTable.Sorted (tags.remove tag) :=
  h.filter _

private theorem get_remove {tags : Tags} (h : SortedTable.Sorted tags) (tag : Tag) :
    (tags.remove tag).get = Function.update tags.get tag none := by
  funext x
  have hfilter := h.get_filter (fun t => t != tag) x
  rw [Tags.get_eq, Tags.remove, hfilter]
  rcases eq_or_ne x tag with rfl | hne
  · simp
  · simp [hne, Tags.get_eq]

private theorem remove_of_get_eq_none {tags : Tags} {tag : Tag} (h : tags.get tag = none) : tags.remove tag = tags := by
  rw [Tags.get_eq, SortedTable.get_eq_none_iff] at h
  exact List.filter_eq_self.mpr (fun t ht => by simpa using h t ht)

private theorem get_insert {tags : Tags} (h : SortedTable.Sorted tags) (tag : Tag) (value : HashAndFormat) :
    (tags.insert tag value).get = Function.update tags.get tag (some value) := by
  have hget : ∀ tags : Tags, tags.get = SortedTable.get tags := fun tags => funext (Tags.get_eq tags)
  rw [hget, hget, Tags.insert_eq, h.get_insert]

private theorem memDeleteTags_eq (tags : Tags) (request : DeleteTagsRequest) :
    memDeleteTags tags request = tags.filter (fun t => !inRange request.lower request.upper t.1) := by
  simp only [memDeleteTags, retained_eq]

/-- The closure of the memory store selects the tags in the range that have a format which is asked for. -/
theorem listed_eq_inRange (request : ListTagsRequest) (tag : Tag) (value : HashAndFormat) :
    listed request tag value = (inRange request.lower request.upper tag &&
      (request.raw && value.format.isRaw || request.hashSeq && !value.format.isRaw)) := by
  have hnot : ∀ a b : Tag, decide (a < b) = !decide (b ≤ a) := by
    intro a b
    rw [← decide_not, decide_eq_decide]
    exact List.not_le.symm
  obtain ⟨hashSeq, raw, lower, upper⟩ := request
  cases lower <;> cases upper <;> simp [listed, inRange, hnot, Bool.and_assoc]

private theorem memListTags_eq (tags : Tags) (request : ListTagsRequest) :
    memListTags tags request = handleListTags tags request.lower request.upper request.raw request.hashSeq := by
  unfold memListTags handleListTags
  simp only [listed_eq_inRange]

private theorem mem_memListTags {tags : Tags} (h : SortedTable.Sorted tags) (request : ListTagsRequest) (tag : Tag)
    (value : HashAndFormat) :
    (tag, value) ∈ memListTags tags request ↔ tags.get tag = some value ∧ TagMap.Listed request tag value := by
  rw [memListTags, List.mem_filter, Tags.get_eq, h.get_eq_some_iff, listed_eq_inRange, TagMap.Listed]
  simp only [Bool.and_eq_true, Bool.or_eq_true, Bool.not_eq_true']

/-- Every command leaves a sorted table, and acts on the map of the tags. -/
private theorem step_memHandle {tags : Tags} (h : SortedTable.Sorted tags) (cmd : TagCommand) :
    SortedTable.Sorted (memHandle tags cmd).2 ∧
      TagMap.Step tags.get cmd (memHandle tags cmd).1 (memHandle tags cmd).2.get := by
  cases cmd with
  | setTag name value =>
    refine ⟨h.insert name value, ?_⟩
    simp only [memHandle]
    rw [get_insert h]
    exact .setTag name value
  | createTag now value =>
    refine ⟨h.insert _ value, ?_⟩
    obtain ⟨hfree, hauto⟩ := autoTag_spec now tags
    simp only [memHandle]
    rw [get_insert h]
    exact .createTag now value _ hfree hauto
  | deleteTags request =>
    have heq := memDeleteTags_eq tags request
    have hget : (memDeleteTags tags request).get = fun tag =>
      if inRange request.lower request.upper tag then none else tags.get tag := by
      funext tag
      have hfilter := h.get_filter (fun t => !inRange request.lower request.upper t) tag
      rw [heq, Tags.get_eq, Tags.get_eq, hfilter]
      cases inRange request.lower request.upper tag <;> rfl
    refine ⟨by simp only [memHandle, heq]; exact h.filter _, ?_⟩
    simp only [memHandle]
    rw [hget]
    exact .deleteTags request
  | renameTag source target =>
    cases hget : tags.get source with
    | none =>
      simp only [memHandle, hget]
      refine ⟨sorted_remove h source, ?_⟩
      rw [get_remove h, Function.update_eq_self_iff.mpr hget.symm]
      exact .renameMissing target hget _
    | some value =>
      simp only [memHandle, hget]
      refine ⟨(sorted_remove h source).insert target value, ?_⟩
      rw [get_insert (sorted_remove h source), get_remove h]
      exact .renameTag target hget
  | listTags request => exact ⟨h, .listTags request _ (h.filter _) (mem_memListTags h request)⟩

/-- A run of the memory store is a run of the map of the tags. -/
private theorem steps_memRun (cmds : List TagCommand) :
    SortedTable.Sorted (memRun cmds).2 ∧ TagMap.Steps (fun _ => none) (memRun cmds).1 (memRun cmds).2.get := by
  induction cmds using List.reverseRecOn with
  | nil => exact ⟨SortedTable.sorted_nil, .nil _⟩
  | append_singleton cmds cmd ih =>
    obtain ⟨hsorted, hsteps⟩ := ih
    obtain ⟨hsorted', hstep⟩ := step_memHandle hsorted cmd
    rw [memRun_concat]
    exact ⟨hsorted', hsteps.concat hstep⟩

/-! ### The metadata actor -/

section

variable {s : BatchedActor.Serial Db (Finset Hash) Reply Failure}
  {cmd : Command ReadOnlyCommand ReadWriteCommand TopLevelCommand}

/-- A command on tags is handled as in the memory store, up to the text of an error, and it does not fail. -/
private theorem exec_tagCommand (hs : s.ended = none) {c : TagCommand} (hcmd : tagCommand? cmd = some c) :
    ∃ reply, tagReply? reply = some (fsReply (memHandle s.db.tags c).1) ∧
      handlers.exec s cmd =
        { s with db := { s.db with tags := (memHandle s.db.tags c).2 }, replies := s.replies ++ [reply] } := by
  unfold Handlers.exec
  rw [hs]
  cases cmd with
  | topLevel cmd => cases cmd <;> cases hcmd
  | readOnly cmd =>
    cases cmd with
    | listTags lower upper raw hashSeq =>
      cases hcmd
      refine ⟨.tags (handleListTags s.db.tags lower upper raw hashSeq),
        ?_, by simp only [handlers, handleReadonly, memHandle]⟩
      rw [memHandle, memListTags_eq]
      rfl
    | get hash | dump | clearProtected | getBlobStatus hash => cases hcmd
  | readWrite cmd =>
    cases cmd with
    | setTag name value =>
      cases hcmd
      exact ⟨.done, rfl, rfl⟩
    | createTag now value =>
      cases hcmd
      exact ⟨.tag (autoTag now s.db.tags), rfl, rfl⟩
    | deleteTags lower upper =>
      cases hcmd
      refine ⟨.done, rfl, ?_⟩
      simp only [handlers, handleReadwrite, memHandle, memDeleteTags_eq]
    | renameTag source target =>
      cases hcmd
      cases hget : s.db.tags.get source with
      | none =>
        refine ⟨.tagNotFound "tag not found", by simp only [memHandle, hget]; rfl, ?_⟩
        simp only [handlers, handleReadwrite, memHandle, renameTag, hget, remove_of_get_eq_none hget]
      | some value =>
        refine ⟨.done, by simp only [memHandle, hget]; rfl, ?_⟩
        simp only [handlers, handleReadwrite, memHandle, renameTag, hget]
    | update hash state | set hash state | deleteBlobs hashes force | processExit code => cases hcmd

/-- A command that is not about tags leaves them alone. -/
private theorem tags_of_exec (hcmd : tagCommand? cmd = none) : (handlers.exec s cmd).db.tags = s.db.tags := by
  unfold Handlers.exec
  split
  · rfl
  · cases cmd with
    | topLevel cmd => rfl
    | readOnly cmd =>
      simp only
      split <;> rfl
    | readWrite cmd =>
      simp only
      split
      · rename_i kept db reply heq
        cases cmd with
        | update hash state =>
          simp only [handlers, handleReadwrite] at heq
          split at heq
          · cases heq
            rfl
          · cases heq
        | set hash state | deleteBlobs hashes force =>
          cases heq
          rfl
        | processExit code => cases heq
        | setTag name value | createTag now value | deleteTags lower upper | renameTag source target => cases hcmd
      · rfl

/-- A command is answered, or it ends the actor. -/
private theorem replies_exec (hs : s.ended = none) (cmd : Command ReadOnlyCommand ReadWriteCommand TopLevelCommand) :
    (∃ reply, (handlers.exec s cmd).replies = s.replies ++ [reply]) ∨
      ((handlers.exec s cmd).replies = s.replies ∧ (handlers.exec s cmd).ended ≠ none) := by
  unfold Handlers.exec
  rw [hs]
  cases cmd with
  | topLevel cmd => exact Or.inl ⟨_, rfl⟩
  | readOnly cmd =>
    simp only
    split
    · exact Or.inl ⟨_, rfl⟩
    · exact Or.inr ⟨rfl, by simp⟩
  | readWrite cmd =>
    simp only
    split
    · exact Or.inl ⟨_, rfl⟩
    · exact Or.inr ⟨rfl, by simp⟩

end

/-- The commands that were answered. -/
def answered (cmds : List (Command ReadOnlyCommand ReadWriteCommand TopLevelCommand)) (replies : List Reply) :
    List (Command ReadOnlyCommand ReadWriteCommand TopLevelCommand) := cmds.take replies.length

section

variable {cmds : List (Command ReadOnlyCommand ReadWriteCommand TopLevelCommand)} {replies : List Reply}

/-- Commands that come after the answers do not matter. -/
private theorem tagEvents_append (hle : replies.length ≤ cmds.length)
    (rest : List (Command ReadOnlyCommand ReadWriteCommand TopLevelCommand)) :
    tagEvents (cmds ++ rest) replies = tagEvents cmds replies ∧
      answered (cmds ++ rest) replies = answered cmds replies := by
  have htake : (cmds ++ rest).take replies.length = cmds.take replies.length := List.take_append_of_le_length hle
  refine ⟨?_, htake⟩
  have hzip : (cmds ++ rest).zip replies = cmds.zip replies := by
    have hboth : (cmds ++ rest).zip replies = ((cmds ++ rest).take replies.length).zip
      (replies.take replies.length) := by
      rw [List.zip_eq_zip_take_min, Nat.min_eq_right (hle.trans (by simp))]
    rw [hboth, htake, ← Nat.min_eq_right hle, ← List.zip_eq_zip_take_min]
  unfold tagEvents
  rw [hzip]

private theorem tagEvents_concat (hlen : replies.length = cmds.length)
    (cmd : Command ReadOnlyCommand ReadWriteCommand TopLevelCommand) (reply : Reply) :
    tagEvents (cmds ++ [cmd]) (replies ++ [reply]) = tagEvents cmds replies ++ tagEvents [cmd] [reply] ∧
      answered (cmds ++ [cmd]) (replies ++ [reply]) = answered cmds replies ++ [cmd] := by
  refine ⟨?_, ?_⟩
  · unfold tagEvents
    rw [List.zip_append hlen.symm, List.filterMap_append]
  · unfold answered
    rw [List.length_append, List.length_singleton, hlen, List.take_of_length_le (by simp),
      List.take_of_length_le (le_refl _)]

end

/-- After some commands in transactions of their own, those on tags were answered like in the memory store. -/
structure TagInv (cmds : List (Command ReadOnlyCommand ReadWriteCommand TopLevelCommand))
    (s : BatchedActor.Serial Db (Finset Hash) Reply Failure) : Prop where
  le : s.replies.length ≤ cmds.length
  len : s.ended = none → s.replies.length = cmds.length
  events : tagEvents cmds s.replies = (memRun ((answered cmds s.replies).filterMap tagCommand?)).1.map fsEvent
  tags : s.db.tags = (memRun ((answered cmds s.replies).filterMap tagCommand?)).2

/-- The next command. -/
private theorem TagInv.exec {cmds : List (Command ReadOnlyCommand ReadWriteCommand TopLevelCommand)}
    {s : BatchedActor.Serial Db (Finset Hash) Reply Failure} (h : TagInv cmds s)
    (cmd : Command ReadOnlyCommand ReadWriteCommand TopLevelCommand) :
    TagInv (cmds ++ [cmd]) (handlers.exec s cmd) := by
  have hlength : (cmds ++ [cmd]).length = cmds.length + 1 := by simp
  obtain ⟨hevents, hanswered⟩ := tagEvents_append h.le [cmd]
  cases hs : s.ended with
  | some e =>
    rw [Handlers.exec_of_ended hs]
    refine ⟨by rw [hlength]; exact h.le.trans (Nat.le_succ _), fun hnone => ?_, ?_, ?_⟩
    · rw [hs] at hnone
      cases hnone
    · rw [hevents, hanswered]
      exact h.events
    · rw [hanswered]
      exact h.tags
  | none =>
    have hlen := h.len hs
    cases hcmd : tagCommand? cmd with
    | none =>
      have htags := tags_of_exec (s := s) hcmd
      rcases replies_exec hs cmd with ⟨reply, hreplies⟩ | ⟨hreplies, hended⟩
      · obtain ⟨hevents, hanswered⟩ := tagEvents_concat hlen cmd reply
        have hnone : tagEvents [cmd] [reply] = [] := by simp [tagEvents, hcmd]
        refine ⟨by rw [hreplies]; simp [hlen], fun _ => by rw [hreplies]; simp [hlen], ?_, ?_⟩
        · rw [hreplies, hevents, hanswered, hnone, List.append_nil, List.filterMap_append,
            List.filterMap_cons_none hcmd, List.filterMap_nil, List.append_nil]
          exact h.events
        · rw [hreplies, htags, hanswered, List.filterMap_append, List.filterMap_cons_none hcmd, List.filterMap_nil,
            List.append_nil]
          exact h.tags
      · refine ⟨by rw [hreplies, hlength]; exact h.le.trans (Nat.le_succ _), fun hnone => absurd hnone hended, ?_, ?_⟩
        · rw [hreplies, hevents, hanswered]
          exact h.events
        · rw [hreplies, htags, hanswered]
          exact h.tags
    | some c =>
      obtain ⟨reply, hreply, hexec⟩ := exec_tagCommand hs hcmd
      obtain ⟨hevents, hanswered⟩ := tagEvents_concat hlen cmd reply
      have hone : tagEvents [cmd] [reply] = [fsEvent (c, (memHandle s.db.tags c).1)] := by
        simp [tagEvents, hcmd, hreply, fsEvent]
      rw [hexec]
      refine ⟨by simp [hlen], fun _ => by simp [hlen], ?_, ?_⟩
      · rw [hevents, hanswered, List.filterMap_append, List.filterMap_cons_some hcmd, List.filterMap_nil, memRun_concat,
          memExec, List.map_append, h.events, hone, ← h.tags]
        rfl
      · rw [hanswered, List.filterMap_append, List.filterMap_cons_some hcmd, List.filterMap_nil, memRun_concat, memExec,
          ← h.tags]

private theorem tagInv_execAll {db : Db} (hdb : db.tags = []) (isProtected : Finset Hash)
    (cmds : List (Command ReadOnlyCommand ReadWriteCommand TopLevelCommand)) :
    TagInv cmds (handlers.execAll db isProtected cmds) := by
  induction cmds using List.reverseRecOn with
  | nil =>
    exact ⟨le_refl _, fun _ => rfl, by simp [tagEvents, answered, memRun, Handlers.execAll],
      by simp [answered, memRun, Handlers.execAll, hdb]⟩
  | append_singleton cmds cmd ih =>
    rw [Handlers.execAll_concat]
    exact ih.exec cmd

/-! ### Runs of the actor -/

section

variable {a a' : BatchedActor.Actor Db (Finset Hash) ReadOnlyCommand ReadWriteCommand TopLevelCommand Reply Failure}
  {options : BatchedActor.BatchOptions}

/-- All commands that were handled are answered, except for a last one that has ended the actor. -/
def Answered (a : BatchedActor.Actor Db (Finset Hash) ReadOnlyCommand ReadWriteCommand TopLevelCommand Reply Failure) :
    Prop :=
  ∃ init last, a.handled = init ++ last ∧ init.length = a.replies.length ∧ (∀ cmd ∈ last, tagCommand? cmd = none) ∧
    ((∀ e, a.phase ≠ .ended e) → last = [])

/-- What a step of the actor does with the commands. -/
inductive StepHandled
    (a a' : BatchedActor.Actor Db (Finset Hash) ReadOnlyCommand ReadWriteCommand TopLevelCommand Reply Failure) : Prop
  | same (handled : a'.handled = a.handled) (replies : a'.replies = a.replies)
  | answered (cmd : Command ReadOnlyCommand ReadWriteCommand TopLevelCommand) (reply : Reply)
    (handled : a'.handled = a.handled ++ [cmd]) (replies : a'.replies = a.replies ++ [reply])
  | failed (cmd : Command ReadOnlyCommand ReadWriteCommand TopLevelCommand) (e : Option (BatchedActor.Ending Failure))
    (handled : a'.handled = a.handled ++ [cmd]) (replies : a'.replies = a.replies) (phase : a'.phase = .ended e)
    (noTag : tagCommand? cmd = none)

private theorem tagCommand?_of_readonly {isProtected : Finset Hash} {db : Db} {cmd : ReadOnlyCommand} {e : Failure}
    (h : handleReadonly isProtected db cmd = .error e) : tagCommand? (.readOnly cmd) = none := by
  cases cmd with
  | listTags lower upper raw hashSeq => cases h
  | get hash | dump | clearProtected | getBlobStatus hash => rfl

private theorem tagCommand?_of_nonToplevel {isProtected : Finset Hash} {db : Db}
    {cmd : BatchedActor.NonTopLevelCommand ReadOnlyCommand ReadWriteCommand} {e : Failure}
    (h : BatchedActor.handleNonToplevel handlers isProtected db cmd = .error e) :
    tagCommand? (.ofNonTopLevel cmd) = none := by
  cases cmd with
  | readOnly cmd =>
    unfold BatchedActor.handleNonToplevel at h
    simp only at h
    split at h
    · cases h
    · rename_i heq
      exact tagCommand?_of_readonly heq
  | readWrite cmd =>
    cases cmd with
    | renameTag source target =>
      simp only [BatchedActor.handleNonToplevel, handlers, handleReadwrite] at h
      split at h <;> cases h
    | setTag name value | createTag now value | deleteTags lower upper => cases h
    | update hash state | set hash state | deleteBlobs hashes force | processExit code => rfl

private theorem step_handled {timeout : Bool} (hstep : BatchedActor.step handlers options a timeout = some a') :
    StepHandled a a' := by
  unfold BatchedActor.step at hstep
  cases hphase : a.phase with
  | ended e =>
    rw [hphase] at hstep
    cases hstep
  | idle =>
    rw [hphase] at hstep
    cases hstep
    unfold BatchedActor.receive
    split
    · exact .same rfl rfl
    · split
      · exact .answered _ _ rfl rfl
      · exact .same rfl rfl
      · exact .same rfl rfl
  | reading n tables =>
    rw [hphase] at hstep
    rcases hext : a.cmds.extract Command.readOnly? timeout with ⟨_ | cmd, r⟩
    · simp only [hext, Option.some.injEq] at hstep
      subst hstep
      exact .same rfl rfl
    · simp only [hext, Option.some.injEq] at hstep
      subst hstep
      cases hres : handlers.handleReadonly a.kept tables cmd with
      | error e => exact .failed _ _ rfl rfl rfl (tagCommand?_of_readonly hres)
      | ok x => exact .answered _ _ rfl rfl
  | writing n tables =>
    rw [hphase] at hstep
    rcases hext : a.cmds.extract Command.nonTopLevel timeout with ⟨_ | cmd, r⟩
    · simp only [hext, Option.some.injEq] at hstep
      subst hstep
      exact .same rfl rfl
    · simp only [hext, Option.some.injEq] at hstep
      subst hstep
      cases hres : BatchedActor.handleNonToplevel handlers a.kept tables cmd with
      | error e => exact .failed _ _ rfl rfl rfl (tagCommand?_of_nonToplevel hres)
      | ok x =>
        simp only [BatchedActor.afterReadwrite]
        split
        · exact .answered _ _ rfl rfl
        · exact .answered _ _ rfl rfl

private theorem Answered.step (h : Answered a) {timeout : Bool}
    (hstep : BatchedActor.step handlers options a timeout = some a') :
    Answered a' := by
  have hnot : ∀ e, a.phase ≠ .ended e := by
    intro e he
    unfold BatchedActor.step at hstep
    rw [he] at hstep
    cases hstep
  obtain ⟨init, last, hhandled, hlen, -, hlast⟩ := h
  rw [hlast hnot, List.append_nil] at hhandled
  cases step_handled hstep with
  | same h1 h2 => exact ⟨init, [], by rw [h1, hhandled, List.append_nil], by rw [h2, hlen], by simp, fun _ => rfl⟩
  | answered cmd reply h1 h2 =>
    exact ⟨init ++ [cmd], [], by rw [h1, hhandled, List.append_nil], by rw [h2]; simp [hlen], by simp, fun _ => rfl⟩
  | failed cmd e h1 h2 hphase hcmd =>
    exact ⟨init, [cmd], by rw [h1, hhandled], by rw [h2, hlen], by simpa using hcmd, fun hne => absurd hphase (hne e)⟩

/-- In all runs the commands on tags are answered. -/
private theorem Answered.filterMap_eq (h : Answered a) :
    (answered a.handled a.replies).filterMap tagCommand? = a.handled.filterMap tagCommand? := by
  obtain ⟨init, last, hhandled, hlen, hlast, -⟩ := h
  have hnil : last.filterMap tagCommand? = [] := List.filterMap_eq_nil_iff.mpr hlast
  rw [answered, hhandled, ← hlen, List.take_left, List.filterMap_append, hnil, List.append_nil]

end

/-! ### Both stores -/

/-- The memory store answers any commands on tags, and the file store any that are mixed with other commands and
handled in any batches, like a map from names to values, with equal answers to equal commands; only the error for a
missing tag names it in the memory store and not in the file store.  What the file store has committed are the tags of
the memory store after some of the commands, and after all of them at its end, if no command failed. -/
theorem tags_stores (options : BatchedActor.BatchOptions) (db : Db) (hdb : db.tags = []) (isProtected : Finset Hash)
    (cmds : List (Command ReadOnlyCommand ReadWriteCommand TopLevelCommand)) (timeouts : List Bool)
    (a : BatchedActor.Actor Db (Finset Hash) ReadOnlyCommand ReadWriteCommand TopLevelCommand Reply Failure)
    (hrun : StateMachine.run (BatchedActor.step handlers options) (BatchedActor.start db isProtected cmds) timeouts =
      some a) :
    (∀ cmds, TagMap.Steps (fun _ => none) (memRun cmds).1 (memRun cmds).2.get) ∧
    tagEvents a.handled a.replies = (memRun (a.handled.filterMap tagCommand?)).1.map fsEvent ∧
    (∃ before, before <+: a.handled.filterMap tagCommand? ∧ a.db.tags = (memRun before).2) ∧
    ∀ e, a.phase = .ended e → (∀ e', e ≠ some (.failed e')) →
      a.db.tags = (memRun (a.handled.filterMap tagCommand?)).2 := by
  have hinv := BatchedActor.run_inv hrun
  have hanswered : Answered a :=
    StateMachine.invariant_of_run (BatchedActor.step handlers options) (fun h hstep => h.step hstep)
      ⟨[], [], rfl, rfl, by simp, fun _ => rfl⟩ hrun
  have hevents := (tagInv_execAll hdb isProtected a.handled).events
  have htags := (tagInv_execAll hdb isProtected a.handled).tags
  rw [← hinv.replies_eq, hanswered.filterMap_eq] at hevents htags
  refine ⟨fun cmds => (steps_memRun cmds).2, hevents, ?_, ?_⟩
  · obtain ⟨before, hbefore, heq⟩ := hinv.committed
    have hbeforeInv := tagInv_execAll hdb isProtected before
    refine ⟨_, ?_, by rw [heq, hbeforeInv.tags]⟩
    exact ((List.take_prefix _ before).trans hbefore).filterMap tagCommand?
  · intro e hphase hne
    have hp := hinv.phase
    rw [hphase] at hp
    rw [← htags]
    match e with
    | none => exact congrArg Db.tags hp.1
    | some .shutdown => exact congrArg Db.tags hp.1
    | some (.failed e) => exact absurd rfl (hne e)

/-- A tag is set, renamed twice, which fails the second time, and listed. -/
def renamed : List (Command ReadOnlyCommand ReadWriteCommand TopLevelCommand) :=
  [.readWrite (.setTag [0] ⟨.replicate 1, .raw⟩), .readWrite (.renameTag [0] [1]), .readWrite (.renameTag [0] [2]),
    .readOnly (.listTags none none true true), .topLevel .shutdown]

theorem tags_stores_renamed : ∃ a,
    StateMachine.run (BatchedActor.step handlers ⟨2, 2⟩) (BatchedActor.start Db.empty ∅ renamed)
      (.replicate 7 false) = some a ∧ a.db.tags = (memRun (a.handled.filterMap tagCommand?)).2 ∧
      tagEvents a.handled a.replies = (memRun (a.handled.filterMap tagCommand?)).1.map fsEvent ∧
      (.renameTag [0] [2], .tagNotFound "tag not found") ∈ tagEvents a.handled a.replies := by
  refine ⟨_, rfl, ?_⟩
  have h := tags_stores ⟨2, 2⟩ Db.empty rfl ∅ renamed (.replicate 7 false) _ rfl
  exact ⟨h.2.2.2 (some .shutdown) rfl (fun e he => by cases he), h.2.1, List.mem_cons_of_mem _ (List.mem_cons_of_mem _
    List.mem_cons_self)⟩

end Meta

end IrohBlobs
