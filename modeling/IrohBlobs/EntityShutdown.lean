import IrohBlobs.EntityManager
import Mathlib.Algebra.BigOperators.Group.Finset.Basic
import Mathlib.Algebra.Order.BigOperators.Group.Finset
import Mathlib.Algebra.Order.Group.Multiset

/-!
# The shutdown of the entity manager

When the manager is told to shut down, it sends `EntityShutdown` to the live entities, drops its state and waits for the
running actors.  An actor that still receives gets all commands of its inbox first.  But an actor that has found itself
idle no longer receives: the commands that came in since then are dropped with the receiver, and their functions are
never called.  Each accepted callback is called, or waits in an inbox (`Account`); after `ShutdownAll` the inboxes that
nobody attends to stay as they are, and the others are emptied (`Closing`).
-/

namespace IrohBlobs

namespace EntityManager

/-! ### Pending callbacks -/

section

variable {Id S : Type}

def Command.key : Command Id S → Option Nat
  | .spawn f => some f.key
  | .entityShutdown => none

/-- The callbacks in an inbox. -/
def keys (inbox : List (Command Id S)) : Multiset Nat := (inbox.filterMap Command.key : List Nat)

@[simp]
theorem keys_nil : keys ([] : List (Command Id S)) = 0 := rfl

@[simp]
theorem keys_spawn (spawn : Spawn Id S) (inbox : List (Command Id S)) :
    keys (.spawn spawn :: inbox) = {spawn.key} + keys inbox := by
  have hkey : (Command.spawn spawn).key = some spawn.key := rfl
  unfold keys
  rw [List.filterMap_cons_some hkey, ← Multiset.cons_coe, Multiset.singleton_add]

@[simp]
theorem keys_entityShutdown (inbox : List (Command Id S)) : keys (.entityShutdown :: inbox) = keys inbox := by
  unfold keys
  rw [List.filterMap_cons_none rfl]

@[simp]
theorem keys_append (inbox inbox' : List (Command Id S)) : keys (inbox ++ inbox') = keys inbox + keys inbox' := by
  unfold keys
  rw [List.filterMap_append, Multiset.coe_add]

private theorem keys_eq_zero {inbox : List (Command Id S)} (h : ∀ cmd ∈ inbox, cmd.key = none) : keys inbox = 0 := by
  unfold keys
  rw [List.filterMap_eq_nil_iff.mpr h]
  rfl

/-- An actor in one of these phases receives the commands that come in. -/
def ActorPhase.Receives (phase : ActorPhase) : Prop := phase = .selecting ∨ phase = .checking

/-- No callback comes after `EntityShutdown`. -/
def ShutdownLast (inbox : List (Command Id S)) : Prop :=
  inbox.Pairwise (fun cmd cmd' => cmd.key = none → cmd'.key = none)

private theorem shutdownLast_of_spawns {inbox : List (Command Id S)} (h : ∀ cmd ∈ inbox, cmd.key ≠ none) :
    ShutdownLast inbox := by
  unfold ShutdownLast
  induction inbox with
  | nil => exact List.Pairwise.nil
  | cons cmd inbox ih =>
    rw [List.pairwise_cons]
    refine ⟨?_, ih (fun cmd' hcmd' => h cmd' (List.mem_cons_of_mem _ hcmd'))⟩
    intro cmd' _ hkey
    exact absurd hkey (h cmd List.mem_cons_self)

private theorem ShutdownLast.push {inbox : List (Command Id S)} (h : ShutdownLast inbox) :
    ShutdownLast (inbox ++ [.entityShutdown]) := by
  unfold ShutdownLast
  rw [List.pairwise_append]
  refine ⟨h, List.pairwise_singleton _ _, ?_⟩
  intro cmd _ cmd' hcmd' _
  rw [List.mem_singleton.mp hcmd']
  rfl

end

section

variable {Id S : Type} [DecidableEq Id]

namespace State

/-- The callbacks that wait in an inbox. -/
def pending (s : State Id S) : Multiset Nat := ∑ c ∈ Finset.range s.nextChannel, keys (s.channels c).inbox

/-- An actor receives from the channel. -/
def Attends (s : State Id S) (c : Nat) : Prop :=
  ∃ k r, s.actors k = some r ∧ r.actor.recv = c ∧ r.phase.Receives

end State

variable {s s' : State Id S} {k c : Nat} {r : Running Id S} {options : Options}

private theorem pending_congr (hnext : s'.nextChannel = s.nextChannel)
    (hkeys : ∀ c, keys (s'.channels c).inbox = keys (s.channels c).inbox) : s'.pending = s.pending := by
  unfold State.pending
  rw [hnext]
  exact Finset.sum_congr rfl (fun c _ => hkeys c)

/-- The inbox of one channel changes. -/
theorem pending_update (hnext : s'.nextChannel = s.nextChannel) (hc : c < s.nextChannel)
    (hother : ∀ c', c' ≠ c → keys (s'.channels c').inbox = keys (s.channels c').inbox) :
    s'.pending + keys (s.channels c).inbox = s.pending + keys (s'.channels c).inbox := by
  unfold State.pending
  have hmem : c ∈ Finset.range s.nextChannel := Finset.mem_range.mpr hc
  rw [hnext, ← Finset.sum_erase_add _ _ hmem, ← Finset.sum_erase_add _ (fun c => keys (s.channels c).inbox) hmem]
  have hrest : ∑ c' ∈ (Finset.range s.nextChannel).erase c, keys (s'.channels c').inbox =
      ∑ c' ∈ (Finset.range s.nextChannel).erase c, keys (s.channels c').inbox := by
    apply Finset.sum_congr rfl
    intro c' hc'
    exact hother c' (Finset.ne_of_mem_erase hc')
  rw [hrest]
  abel

private theorem setInbox_inbox (s : State Id S) (c : Nat) (inbox : List (Command Id S)) (c' : Nat) :
    ((s.setInbox c inbox).channels c').inbox = if c' = c then inbox else (s.channels c').inbox := by
  by_cases hc : c' = c
  · subst hc
    simp [State.setInbox, State.setChannel]
  · simp [State.setInbox, State.setChannel, hc]

/-! ### Steps of the actors -/

/-- What a step of an actor does to the inboxes: it calls the first callback of its inbox, or takes no callback. -/
inductive ActorEffect (s : State Id S) (k : Nat) (r : Running Id S) (s' : State Id S) : Prop
  | call (spawn : Spawn Id S) (inbox : List (Command Id S)) (r' : Running Id S) (phase : r.phase.Receives)
    (first : (s.channels r.actor.recv).inbox = .spawn spawn :: inbox)
    (inboxes : ∀ c, (s'.channels c).inbox = if c = r.actor.recv then inbox else (s.channels c).inbox)
    (actors : s'.actors = Function.update s.actors k (some r')) (recv : r'.actor.recv = r.actor.recv)
    (phase' : r'.phase.Receives) (calls : s'.calls = s.calls ++ [spawn.key])
  | quiet (actor : Option (Running Id S)) (inboxes : ∀ c, (s'.channels c).inbox <:+ (s.channels c).inbox)
    (pending : ∀ c, keys (s'.channels c).inbox = keys (s.channels c).inbox)
    (actors : s'.actors = Function.update s.actors k actor)
    (recv : ∀ r', actor = some r' → r'.actor.recv = r.actor.recv)
    (receives : ∀ r', actor = some r' → r'.phase.Receives → r.phase.Receives)
    (leaves : r.phase.Receives → (∃ r', actor = some r' ∧ r'.phase.Receives) ∨ keys (s.channels r.actor.recv).inbox = 0)
    (calls : s'.calls = s.calls)

/-- The inboxes stay as they are. -/
theorem ActorEffect.of_actor {actor : Option (Running Id S)}
    (hinboxes : ∀ c, (s'.channels c).inbox = (s.channels c).inbox)
    (hactors : s'.actors = Function.update s.actors k actor)
    (hactor : ∀ r', actor = some r' → r'.actor.recv = r.actor.recv ∧ (r'.phase.Receives → r.phase.Receives))
    (hleaves : r.phase.Receives → (∃ r', actor = some r' ∧ r'.phase.Receives) ∨
      keys (s.channels r.actor.recv).inbox = 0)
    (hcalls : s'.calls = s.calls) : ActorEffect s k r s' := by
  refine .quiet actor ?_ ?_ hactors (fun r' hr' => (hactor r' hr').1) (fun r' hr' => (hactor r' hr').2) hleaves hcalls
  · intro c
    rw [hinboxes]
  · intro c
    rw [hinboxes]

/-- The inboxes stay as they are, and the actor does not receive. -/
private theorem ActorEffect.of_idle {actor : Option (Running Id S)} (hphase : ¬r.phase.Receives)
    (hinboxes : ∀ c, (s'.channels c).inbox = (s.channels c).inbox)
    (hactors : s'.actors = Function.update s.actors k actor)
    (hactor : ∀ r', actor = some r' → r'.actor.recv = r.actor.recv ∧ ¬r'.phase.Receives) (hcalls : s'.calls = s.calls) :
    ActorEffect s k r s' := by
  refine .of_actor hinboxes hactors ?_ (fun hreceives => absurd hreceives hphase) hcalls
  intro r' hr'
  exact ⟨(hactor r' hr').1, fun hreceives => absurd hreceives (hactor r' hr').2⟩

private theorem setClosed_inbox (s : State Id S) (c c' : Nat) :
    ((s.setChannel c { s.channels c with isOpen := false }).channels c').inbox = (s.channels c').inbox := by
  by_cases hc : c' = c
  · subst hc
    simp [State.setChannel]
  · simp [State.setChannel, Function.update_of_ne hc]

private theorem recv_effect (hphase : r.phase = .selecting) (hlast : ShutdownLast (s.channels r.actor.recv).inbox)
    (hrecv : s.recv k r.actor = some s') : ActorEffect s k r s' := by
  have hreceives : r.phase.Receives := Or.inl hphase
  unfold State.recv at hrecv
  split at hrecv
  · rename_i spawn inbox hinbox
    cases hrecv
    exact .call spawn inbox _ hreceives hinbox (setInbox_inbox s r.actor.recv inbox) rfl rfl (Or.inr rfl) rfl
  · rename_i inbox hinbox
    cases hrecv
    rw [hinbox, ShutdownLast, List.pairwise_cons] at hlast
    have hzero : keys inbox = 0 := keys_eq_zero (fun cmd hcmd => hlast.1 cmd hcmd rfl)
    have hinboxes : ∀ c, (((s.setInbox r.actor.recv inbox).setActor k (some ⟨r.actor, .softShutdown⟩)).channels
      c).inbox =
        if c = r.actor.recv then inbox else (s.channels c).inbox := setInbox_inbox s r.actor.recv inbox
    refine .quiet (some ⟨r.actor, .softShutdown⟩) ?_ ?_ rfl ?_ ?_ ?_ rfl
    · intro c
      rw [hinboxes]
      split
      · rename_i hc
        rw [hc, hinbox]
        exact List.suffix_cons _ _
      · exact List.suffix_rfl
    · intro c
      rw [hinboxes]
      split
      · rename_i hc
        rw [hc, hinbox, keys_entityShutdown]
      · rfl
    · intro r' hr'
      cases hr'
      rfl
    · intro r' _ _
      exact hreceives
    · intro _
      rw [hinbox, keys_entityShutdown]
      exact Or.inr hzero
  · rename_i hinbox
    split at hrecv
    · cases hrecv
      refine .of_actor (setClosed_inbox s r.actor.recv) rfl ?_ ?_ rfl
      · intro r' hr'
        cases hr'
      · intro _
        rw [hinbox]
        exact Or.inr keys_nil
    · cases hrecv

private theorem ActorStep.effect (hlast : ShutdownLast (s.channels r.actor.recv).inbox)
    (hstep : ActorStep options s k r s') :
    ActorEffect s k r s' := by
  cases hstep with
  | recv hphase hrecv => exact recv_effect hphase hlast hrecv
  | poll i hphase hpoll =>
    unfold State.poll at hpoll
    split at hpoll
    · cases hpoll
    · cases hpoll
      refine .of_actor (fun _ => rfl) rfl ?_ ?_ rfl
      · intro r' hr'
        cases hr'
        exact ⟨rfl, id⟩
      · intro hreceives
        exact Or.inl ⟨_, rfl, hreceives⟩
    · cases hpoll
      refine .of_actor (fun _ => rfl) rfl ?_ ?_ rfl
      · intro r' hr'
        cases hr'
        refine ⟨rfl, ?_⟩
        intro hreceives
        rcases hphase with hphase | hphase
        · exact Or.inl hphase
        · simpa [hphase] using hreceives
      · intro hreceives
        refine Or.inl ⟨_, rfl, ?_⟩
        simp only
        split
        · exact Or.inr rfl
        · exact hreceives
  | check hphase =>
    have hreceives : r.phase.Receives := Or.inr hphase
    unfold State.check
    split
    · rename_i hidle
      refine .of_actor (fun _ => rfl) rfl ?_ ?_ rfl
      · intro r' hr'
        cases hr'
        exact ⟨rfl, fun _ => hreceives⟩
      · intro _
        rw [List.length_eq_zero_iff.mp hidle.2]
        exact Or.inr keys_nil
    · refine .of_actor (fun _ => rfl) rfl ?_ ?_ rfl
      · intro r' hr'
        cases hr'
        exact ⟨rfl, fun _ => hreceives⟩
      · intro _
        exact Or.inl ⟨_, rfl, Or.inl rfl⟩
  | sendShutdown hphase hsend =>
    have hidle : ¬r.phase.Receives := by simp [hphase, ActorPhase.Receives]
    have hactor : ∀ r', some (⟨r.actor, .idleShutdown⟩ : Running Id S) = some r' →
        r'.actor.recv = r.actor.recv ∧ ¬r'.phase.Receives := by
      intro r' hr'
      cases hr'
      exact ⟨rfl, by simp [ActorPhase.Receives]⟩
    unfold State.sendShutdown at hsend
    simp only at hsend
    split at hsend
    · cases hsend
      exact .of_idle hidle (setClosed_inbox s r.actor.recv) rfl hactor rfl
    · split at hsend
      · cases hsend
        exact .of_idle hidle (fun _ => rfl) rfl hactor rfl
      · cases hsend
  | finishShutdown state hphase =>
    have hidle : ¬r.phase.Receives := by simp [hphase, ActorPhase.Receives]
    refine .of_idle hidle (fun _ => rfl) rfl ?_ rfl
    intro r' hr'
    cases hr'
    exact ⟨rfl, by simp [ActorPhase.Receives]⟩
  | sendComplete hphase hsend =>
    have hidle : ¬r.phase.Receives := by simp [hphase, ActorPhase.Receives]
    have hactor : ∀ r' : Running Id S, none = some r' → r'.actor.recv = r.actor.recv ∧ ¬r'.phase.Receives := by
      intro r' hr'
      cases hr'
    unfold State.sendComplete at hsend
    split at hsend
    · cases hsend
      exact .of_idle hidle (fun _ => rfl) rfl hactor rfl
    · split at hsend
      · cases hsend
        exact .of_idle hidle (fun _ => rfl) rfl hactor rfl
      · cases hsend
  | finishSoft hphase htasks =>
    have hidle : ¬r.phase.Receives := by simp [hphase, ActorPhase.Receives]
    refine .of_idle hidle (setClosed_inbox s r.actor.recv) rfl ?_ rfl
    intro r' hr'
    cases hr'

/-! ### Every callback is called or pending -/

structure Account (s : State Id S) : Prop where
  balance : (s.accepted : Multiset Nat) = s.calls + s.pending
  last : ∀ c, ShutdownLast (s.channels c).inbox
  recv : ∀ k r, s.actors k = some r → r.actor.recv < s.nextChannel
  next : ∀ k, s.nextActor ≤ k → s.actors k = none

private theorem Account.congr (h : Account s) (haccepted : s'.accepted = s.accepted) (hcalls : s'.calls = s.calls)
    (hnext : s'.nextChannel = s.nextChannel) (hinboxes : ∀ c, (s'.channels c).inbox = (s.channels c).inbox)
    (hactors : s'.actors = s.actors) (hnextActor : s'.nextActor = s.nextActor) : Account s' where
  balance := by
    rw [haccepted, hcalls, pending_congr hnext (fun c => by rw [hinboxes])]
    exact h.balance
  last := by
    intro c
    rw [hinboxes]
    exact h.last c
  recv := by
    rw [hactors, hnext]
    exact h.recv
  next := by
    rw [hactors, hnextActor]
    exact h.next

private theorem Account.start (h : Account s) {actor : Actor Id S} (hrecv : actor.recv < s.nextChannel) :
    Account (s.start actor) where
  balance := h.balance
  last := h.last
  recv := by
    intro k r hk
    simp only [State.start, State.setActor, State.logEvent] at hk
    by_cases hkk : k = s.nextActor
    · rw [hkk, Function.update_self] at hk
      cases hk
      exact hrecv
    · rw [Function.update_of_ne hkk] at hk
      exact h.recv k r hk
  next := by
    intro k hk
    have hlt : s.nextActor + 1 ≤ k := hk
    simp only [State.start, State.setActor, State.logEvent]
    rw [Function.update_of_ne (by omega)]
    exact h.next k (by omega)

private theorem Account.of_effect (h : Account s) (hk : s.actors k = some r) (hnext : s'.nextChannel = s.nextChannel)
    (hnextActor : s'.nextActor = s.nextActor) (haccepted : s'.accepted = s.accepted) (heffect : ActorEffect s k r s') :
    Account s' := by
  have hlt : k < s.nextActor := by
    by_contra hge
    rw [h.next k (not_lt.mp hge)] at hk
    cases hk
  have hrecvs : ∀ actor, s'.actors = Function.update s.actors k actor →
      (∀ r', actor = some r' → r'.actor.recv = r.actor.recv) →
      ∀ k' r', s'.actors k' = some r' → r'.actor.recv < s'.nextChannel := by
    intro actor hactors hactor k' r' hk'
    rw [hnext]
    rw [hactors] at hk'
    by_cases hkk : k' = k
    · rw [hkk, Function.update_self] at hk'
      rw [hactor r' hk']
      exact h.recv k r hk
    · rw [Function.update_of_ne hkk] at hk'
      exact h.recv k' r' hk'
  have hnexts : ∀ actor, s'.actors = Function.update s.actors k actor → ∀ k', s'.nextActor ≤ k' →
    s'.actors k' = none := by
    intro actor hactors k' hk'
    rw [hnextActor] at hk'
    rw [hactors, Function.update_of_ne (by omega)]
    exact h.next k' hk'
  cases heffect with
  | call spawn inbox r' phase first inboxes actors recv phase' calls =>
    refine ⟨?_, ?_, hrecvs _ actors ?_, hnexts _ actors⟩
    · have hpending : s'.pending + keys (s.channels r.actor.recv).inbox =
          s.pending + keys (s'.channels r.actor.recv).inbox := by
        refine pending_update hnext (h.recv k r hk) ?_
        intro c hc
        rw [inboxes, if_neg hc]
      have hself := inboxes r.actor.recv
      rw [if_pos rfl] at hself
      rw [first, hself, keys_spawn, ← add_assoc, add_left_inj] at hpending
      rw [haccepted, calls, h.balance, ← hpending, ← Multiset.coe_add, ← Multiset.coe_singleton]
      abel
    · intro c
      rw [inboxes]
      split
      · have hlast := h.last r.actor.recv
        rw [first, ShutdownLast, List.pairwise_cons] at hlast
        exact hlast.2
      · exact h.last c
    · intro r₀ hr₀
      cases hr₀
      exact recv
  | quiet actor inboxes pending actors recv receives leaves calls =>
    refine ⟨?_, ?_, hrecvs _ actors recv, hnexts _ actors⟩
    · rw [haccepted, calls, pending_congr hnext pending]
      exact h.balance
    · intro c
      exact List.Pairwise.sublist (inboxes c).sublist (h.last c)

private theorem Account.of_actor (h : Account s) (hk : s.actors k = some r) (hstep : ActorStep options s k r s') :
    Account s' := by
  obtain ⟨-, -, hnext, hnextActor, haccepted⟩ := hstep.frame
  exact h.of_effect hk hnext hnextActor haccepted (hstep.effect (h.last _))

/-! ### Steps of the manager -/

variable [Inhabited S] {id : Id}

private theorem getOrCreate_account (h : Account s) (hinv : Inv s) (id : Id) : Account (s.getOrCreate id).1 := by
  unfold State.getOrCreate
  split
  · exact h
  · split
    · rename_i send actor pool hpool
      obtain ⟨hlt, hrecv, -⟩ := hinv.channel.pool (send, actor) (hpool ▸ List.mem_cons_self)
      have hclaimed : Account ({ s with pool, live := s.live.insert id (.live send) } : State Id S) :=
        h.congr rfl rfl rfl (fun _ => rfl) rfl rfl
      apply hclaimed.start
      simp only at hlt hrecv ⊢
      omega
    · let s₁ : State Id S := { s with live := s.live.insert id (.live s.nextChannel), nextChannel := s.nextChannel + 1 }
      have hcreated : Account (s₁.setChannel s.nextChannel ⟨[], 1, true⟩) := by
        constructor
        · have hpending : (s₁.setChannel s.nextChannel ⟨[], 1, true⟩).pending = s.pending := by
            simp only [State.pending, State.setChannel, s₁, Finset.sum_range_succ, Function.update_self,
              keys_nil, add_zero]
            apply Finset.sum_congr rfl
            intro c hc
            rw [Function.update_of_ne (Finset.mem_range.mp hc).ne]
          rw [hpending]
          exact h.balance
        · intro c
          simp only [State.setChannel, s₁]
          by_cases hc : c = s.nextChannel
          · rw [hc, Function.update_self]
            exact List.Pairwise.nil
          · rw [Function.update_of_ne hc]
            exact h.last c
        · intro k r hk
          exact (h.recv k r hk).trans (Nat.lt_succ_self _)
        · exact h.next
      exact hcreated.start (Nat.lt_succ_self _)

private theorem spawnBoxed_account (h : Account s) (hinv : Inv s) (spawn : Spawn Id S) :
    Account (s.spawnBoxed options spawn) := by
  have hcreated := getOrCreate_account h hinv spawn.id
  obtain ⟨hcreatedInv, hlookup⟩ := getOrCreate_inv hinv spawn.id
  unfold State.spawnBoxed
  generalize s.getOrCreate spawn.id = created at hcreated hcreatedInv hlookup
  obtain ⟨s₁, handle⟩ := created
  simp only at hcreated hcreatedInv hlookup
  obtain ⟨hlt, -, -, hspawns⟩ := hcreatedInv.channel.handle spawn.id handle hlookup
  have hbalance : ((s₁.accepted ++ [spawn.key] : List Nat) : Multiset Nat) = s₁.calls + s₁.pending + {spawn.key} := by
    rw [← Multiset.coe_add, hcreated.balance, Multiset.coe_singleton]
  -- the function is called right away
  have hcalled : Account (S := S)
      { s₁ with accepted := s₁.accepted ++ [spawn.key], calls := s₁.calls ++ [spawn.key] } := by
    refine ⟨?_, hcreated.last, hcreated.recv, hcreated.next⟩
    rw [hbalance, ← Multiset.coe_add, ← Multiset.coe_singleton]
    change _ = _ + s₁.pending
    abel
  simp only
  split
  · exact hcalled
  · split
    · let s₂ : State Id S := { s₁ with accepted := s₁.accepted ++ [spawn.key] }
      let inbox := (s₁.channels handle.send).inbox ++ [.spawn spawn]
      have hself : ((s₂.setInbox handle.send inbox).channels handle.send).inbox = inbox := by
        rw [setInbox_inbox, if_pos rfl]
      have hother : ∀ c, c ≠ handle.send → ((s₂.setInbox handle.send inbox).channels c).inbox =
        (s₁.channels c).inbox := by
        intro c hc
        rw [setInbox_inbox, if_neg hc]
      refine ⟨?_, ?_, hcreated.recv, hcreated.next⟩
      · have hpending : (s₂.setInbox handle.send inbox).pending + keys (s₁.channels handle.send).inbox =
            s₁.pending + keys ((s₂.setInbox handle.send inbox).channels handle.send).inbox := by
          refine pending_update rfl hlt ?_
          intro c hc
          rw [hother c hc]
        rw [hself, keys_append, keys_spawn, keys_nil, add_zero, add_comm (keys _), ← add_assoc,
          add_left_inj] at hpending
        change ((s₁.accepted ++ [spawn.key] : List Nat) : Multiset Nat) = s₁.calls +
          (s₂.setInbox handle.send inbox).pending
        rw [hbalance, hpending]
        abel
      · intro c
        by_cases hc : c = handle.send
        · rw [hc, hself]
          apply shutdownLast_of_spawns
          intro cmd hcmd
          rcases List.mem_append.mp hcmd with hcmd | hcmd
          · obtain ⟨spawn', rfl, -⟩ := hspawns cmd hcmd
            simp [Command.key]
          · rw [List.mem_singleton.mp hcmd]
            simp [Command.key]
        · rw [hother c hc]
          exact hcreated.last c
    · exact hcalled

private theorem recycle_frame (options : Options) (s : State Id S) (sender : Nat) (actor : Actor Id S) :
    let s' := s.recycle options sender actor
    s'.live = s.live ∧ s'.accepted = s.accepted ∧ s'.calls = s.calls ∧ s'.nextChannel = s.nextChannel ∧
      s'.actors = s.actors ∧ s'.nextActor = s.nextActor ∧ ∀ c, (s'.channels c).inbox = (s.channels c).inbox := by
  intro s'
  simp only [s']
  unfold State.recycle
  split
  · simp only
    split
    · exact ⟨rfl, rfl, rfl, rfl, rfl, rfl, fun _ => rfl⟩
    · refine ⟨rfl, rfl, rfl, rfl, rfl, rfl, ?_⟩
      intro c
      by_cases hc : c = actor.recv
      · subst hc
        simp [State.setChannel, State.logEvent]
      · simp [State.setChannel, State.logEvent, Function.update_of_ne hc]
  · exact ⟨rfl, rfl, rfl, rfl, rfl, rfl, fun _ => rfl⟩

private theorem recycle_account (h : Account s) (sender : Nat) (actor : Actor Id S) :
    Account (s.recycle options sender actor) := by
  obtain ⟨-, haccepted, hcalls, hnext, hactors, hnextActor, hinboxes⟩ := recycle_frame options s sender actor
  exact h.congr haccepted hcalls hnext hinboxes hactors hnextActor

private theorem tick_account (h : Account s) (hinv : Inv s) (htick : s.tick options = some s') : Account s' := by
  unfold State.tick at htick
  split at htick
  · cases htick
  · rename_i cmd queue hqueue
    cases htick
    cases cmd with
    | shutdown id c =>
      obtain ⟨hlookup, -⟩ := hinv.of_shutdown hqueue
      simp only [State.handleInternal, hlookup]
      exact h.congr rfl rfl rfl (fun _ => rfl) rfl rfl
    | shutdownComplete id state tasks =>
      obtain ⟨c, -, hlookup, -⟩ := hinv.of_complete hqueue
      have hlt := (hinv.channel.handle _ _ hlookup).1
      simp only [State.handleInternal, hlookup]
      split
      · apply recycle_account
        exact h.congr rfl rfl rfl (fun _ => rfl) rfl rfl
      · refine Account.start ?_ hlt
        exact h.congr rfl rfl rfl (fun _ => rfl) rfl rfl

omit [Inhabited S] in
/-- `EntityShutdown` comes at the end of an inbox, if at all. -/
theorem sendEntityShutdown_effect {rest : List Id} (hsend : s.sendEntityShutdown options id rest = some s') :
    s'.phase = .sending rest ∧ s'.accepted = s.accepted ∧ s'.calls = s.calls ∧ s'.nextChannel = s.nextChannel ∧
      s'.actors = s.actors ∧ s'.nextActor = s.nextActor ∧
      ∀ c, (s'.channels c).inbox = (s.channels c).inbox ∨
        (s'.channels c).inbox = (s.channels c).inbox ++ [.entityShutdown] := by
  unfold State.sendEntityShutdown at hsend
  simp only at hsend
  split at hsend
  · cases hsend
    exact ⟨rfl, rfl, rfl, rfl, rfl, rfl, fun _ => Or.inl rfl⟩
  · rename_i handle hlookup
    split at hsend
    · cases hsend
      exact ⟨rfl, rfl, rfl, rfl, rfl, rfl, fun _ => Or.inl rfl⟩
    · split at hsend
      · cases hsend
        refine ⟨rfl, rfl, rfl, rfl, rfl, rfl, ?_⟩
        intro c
        rw [setInbox_inbox]
        split
        · rename_i hc
          rw [hc]
          exact Or.inr rfl
        · exact Or.inl rfl
      · cases hsend

omit [Inhabited S] in
private theorem sendEntityShutdown_keys {rest : List Id}
    (hsend : s.sendEntityShutdown options id rest = some s') (c : Nat) :
    keys (s'.channels c).inbox = keys (s.channels c).inbox := by
  obtain ⟨-, -, -, -, -, -, hinboxes⟩ := sendEntityShutdown_effect hsend
  rcases hinboxes c with hinbox | hinbox
  · rw [hinbox]
  · rw [hinbox, keys_append, keys_entityShutdown, keys_nil, add_zero]

omit [Inhabited S] in
private theorem sendEntityShutdown_account (h : Account s) {rest : List Id}
    (hsend : s.sendEntityShutdown options id rest = some s') :
    Account s' := by
  obtain ⟨-, haccepted, hcalls, hnext, hactors, hnextActor, hinboxes⟩ := sendEntityShutdown_effect hsend
  constructor
  · rw [haccepted, hcalls, pending_congr hnext (sendEntityShutdown_keys hsend)]
    exact h.balance
  · intro c
    rcases hinboxes c with hinbox | hinbox
    · rw [hinbox]
      exact h.last c
    · rw [hinbox]
      exact (h.last c).push
  · rw [hactors, hnext]
    exact h.recv
  · rw [hactors, hnextActor]
    exact h.next

private theorem Account.of_manager (h : Account s) (hinv : s.phase = .running → Inv s) {action : Action Id S}
    (hstep : ManagerStep options s action s') : Account s' := by
  cases hstep with
  | spawn spawn hphase => exact spawnBoxed_account h (hinv hphase) spawn
  | tick hphase htick => exact tick_account h (hinv hphase) htick
  | shutdownAll ids => exact h.congr rfl rfl rfl (fun _ => rfl) rfl rfl
  | sendEntityShutdown id rest _ hsend => exact sendEntityShutdown_account h hsend
  | dropState => exact h.congr rfl rfl rfl (fun _ => rfl) rfl rfl
  | confirm => exact h.congr rfl rfl rfl (fun _ => rfl) rfl rfl

/-! ### Channels without an entity -/

/-- The inboxes that belong to no entity are empty. -/
def Deserted (s : State Id S) : Prop :=
  ∀ c, (∀ id h, s.live.lookup id = some h → h.send ≠ c) → (s.channels c).inbox = []

omit [Inhabited S] in
private theorem Deserted.mono (h : Deserted s)
    (hlive : ∀ id handle, s.live.lookup id = some handle → (s.channels handle.send).inbox ≠ [] →
      ∃ handle', s'.live.lookup id = some handle' ∧ handle'.send = handle.send)
    (hinboxes : ∀ c, (∀ id handle, s'.live.lookup id = some handle → handle.send ≠ c) →
      (s'.channels c).inbox <:+ (s.channels c).inbox) : Deserted s' := by
  intro c hc
  have hempty : (s.channels c).inbox = [] := by
    by_contra hne
    apply hne
    apply h c
    rintro id handle hlookup rfl
    obtain ⟨handle', hlookup', hsend⟩ := hlive id handle hlookup hne
    exact hc id handle' hlookup' hsend
  have hsuffix := hinboxes c hc
  rw [hempty] at hsuffix
  exact List.suffix_nil.mp hsuffix

omit [Inhabited S] in
private theorem Deserted.of_actor (h : Deserted s) (haccount : Account s)
    (hstep : ActorStep options s k r s') : Deserted s' := by
  obtain ⟨-, hlive, -⟩ := hstep.frame
  refine h.mono ?_ ?_
  · intro id handle hlookup _
    exact ⟨handle, hlive ▸ hlookup, rfl⟩
  · intro c _
    cases hstep.effect (haccount.last _) with
    | call spawn inbox r' phase first inboxes =>
      rw [inboxes]
      split
      · rename_i hc
        rw [hc, first]
        exact List.suffix_cons _ _
      · exact List.suffix_rfl
    | quiet actor inboxes => exact inboxes c

private theorem getOrCreate_deserted (h : Deserted s) (id : Id) : Deserted (s.getOrCreate id).1 := by
  unfold State.getOrCreate
  split
  · exact h
  · rename_i hlookup
    have hinsert : ∀ (id' : Id) (handle new : EntityHandle), s.live.lookup id' = some handle →
        (s.live.insert id new).lookup id' = some handle := by
      intro id' handle new hlookup'
      have hid : id' ≠ id := by
        rintro rfl
        rw [hlookup] at hlookup'
        cases hlookup'
      rw [AList.lookup_insert_ne hid]
      exact hlookup'
    split
    · rename_i send actor pool hpool
      refine h.mono ?_ (fun _ _ => List.suffix_rfl)
      intro id' handle hlookup' _
      exact ⟨handle, hinsert id' handle _ hlookup', rfl⟩
    · refine h.mono ?_ ?_
      · intro id' handle hlookup' _
        exact ⟨handle, hinsert id' handle _ hlookup', rfl⟩
      · intro c hc
        have hne : c ≠ s.nextChannel := by
          rintro rfl
          exact hc id (.live s.nextChannel) (AList.lookup_insert _) rfl
        simp only [State.start, State.logEvent, State.setActor, State.setChannel, Function.update_of_ne hne]
        exact List.suffix_rfl

private theorem spawnBoxed_deserted (h : Deserted s) (hinv : Inv s) (spawn : Spawn Id S) :
    Deserted (s.spawnBoxed options spawn) := by
  have hcreated := getOrCreate_deserted h spawn.id
  have hlookup := (getOrCreate_inv hinv spawn.id).2
  unfold State.spawnBoxed
  generalize s.getOrCreate spawn.id = created at hcreated hlookup
  obtain ⟨s₁, handle⟩ := created
  simp only
  split
  · exact hcreated
  · split
    · intro c hc
      rw [setInbox_inbox, if_neg (hc spawn.id handle hlookup).symm]
      exact hcreated c hc
    · exact hcreated

omit [Inhabited S] in
/-- An entity gets another handle of its channel. -/
private theorem lookup_insert_send {live live' : AList (fun _ : Id => EntityHandle)} {old : EntityHandle}
    (new : EntityHandle)
    (hold : live.lookup id = some old) (hsend : new.send = old.send)
    (hother : ∀ id', id' ≠ id → live'.lookup id' = live.lookup id') (id' : Id) (handle : EntityHandle)
    (hlookup : live.lookup id' = some handle) :
    ∃ handle', (live'.insert id new).lookup id' = some handle' ∧ handle'.send = handle.send := by
  by_cases hid : id' = id
  · subst hid
    rw [hold] at hlookup
    cases hlookup
    exact ⟨new, AList.lookup_insert _, hsend⟩
  · rw [AList.lookup_insert_ne hid, hother id' hid]
    exact ⟨handle, hlookup, rfl⟩

private theorem tick_deserted (h : Deserted s) (hinv : Inv s) (htick : s.tick options = some s') : Deserted s' := by
  unfold State.tick at htick
  split at htick
  · cases htick
  · rename_i cmd queue hqueue
    cases htick
    cases cmd with
    | shutdown id c =>
      obtain ⟨hlookup, -⟩ := hinv.of_shutdown hqueue
      simp only [State.handleInternal, hlookup]
      refine h.mono ?_ (fun _ _ => List.suffix_rfl)
      intro id' handle hlookup' _
      exact lookup_insert_send (.shuttingDown c c) hlookup rfl (fun _ _ => rfl) id' handle hlookup'
    | shutdownComplete id state tasks =>
      obtain ⟨c, -, hlookup, -⟩ := hinv.of_complete hqueue
      simp only [State.handleInternal, hlookup]
      split
      · rename_i hempty
        obtain ⟨hlive, -, -, -, -, -, hinboxes⟩ :=
          recycle_frame options { s with queue, live := s.live.erase id } c ⟨id, c, state, tasks⟩
        refine h.mono ?_ ?_
        · intro id' handle hlookup' hne
          refine ⟨handle, ?_, rfl⟩
          have hid : id' ≠ id := by
            rintro rfl
            rw [hlookup] at hlookup'
            cases hlookup'
            exact hne (List.length_eq_zero_iff.mp hempty)
          rw [hlive, AList.lookup_erase_ne hid]
          exact hlookup'
        · intro c' _
          rw [hinboxes c']
      · refine h.mono ?_ (fun _ _ => List.suffix_rfl)
        intro id' handle hlookup' _
        exact lookup_insert_send (.live c) hlookup rfl (fun _ hid => AList.lookup_erase_ne hid) id' handle hlookup'

/-! ### Until `ShutdownAll` -/

/-- What holds while the manager handles commands. -/
structure Serving (s : State Id S) : Prop where
  phase : s.phase = .running
  inv : Inv s
  account : Account s
  deserted : Deserted s

variable {onShutdown : Id → ShutdownCause → S → S}

private theorem step_serving {action : Action Id S} (h : Serving s) (haction : ∀ ids, action ≠ .shutdownAll ids)
    (hstep : step options onShutdown s action = some s') : Serving s' := by
  obtain ⟨hphase, hinv⟩ := step_inv ⟨h.phase, h.inv⟩ haction hstep
  rcases step_cases hstep with ⟨k, r, hk, hactor⟩ | hmanager
  · exact ⟨hphase, hinv, h.account.of_actor hk hactor, h.deserted.of_actor h.account hactor⟩
  · refine ⟨hphase, hinv, h.account.of_manager (fun _ => h.inv) hmanager, ?_⟩
    cases hmanager with
    | spawn spawn => exact spawnBoxed_deserted h.deserted h.inv spawn
    | tick _ htick => exact tick_deserted h.deserted h.inv htick
    | shutdownAll ids => exact absurd rfl (haction ids)
    | sendEntityShutdown id rest hsending => exact absurd (h.phase.symm.trans hsending) (by simp)
    | dropState hsending => exact absurd (h.phase.symm.trans hsending) (by simp)
    | confirm hjoining => exact absurd (h.phase.symm.trans hjoining) (by simp)

private theorem serving_empty : Serving (State.empty : State Id S) := by
  refine ⟨rfl, inv_empty, ⟨?_, ?_, ?_, ?_⟩, ?_⟩
  · simp [State.empty, State.pending]
  · intro c
    exact List.Pairwise.nil
  · intro k r hk
    cases hk
  · intro k _
    rfl
  · intro c _
    rfl

private theorem run_serving {actions : List (Action Id S)} (hactions : ∀ ids, .shutdownAll ids ∉ actions)
    (hrun : StateMachine.run (step options onShutdown) State.empty actions = some s) : Serving s := by
  have hmeets : StateMachine.RunMeets (step options onShutdown) (fun _ action => ∀ ids, action ≠ .shutdownAll ids)
      State.empty actions := by
    apply StateMachine.runMeets_of_forall
    rintro action hmem ids rfl
    exact hactions ids hmem
  exact StateMachine.inv_of_run (step options onShutdown) step_serving serving_empty hmeets hrun

/-! ### After `ShutdownAll` -/

/-- What holds after `ShutdownAll`, compared with the state before it. -/
structure Closing (s₀ s : State Id S) : Prop where
  account : Account s
  phase : s.phase ≠ .running
  accepted : s.accepted = s₀.accepted
  nextChannel : s.nextChannel = s₀.nextChannel
  attended : ∀ c, s₀.Attends c → s.Attends c ∨ keys (s.channels c).inbox = 0
  ignored : ∀ c, ¬s₀.Attends c → ¬s.Attends c ∧ keys (s.channels c).inbox = keys (s₀.channels c).inbox
  confirmed : s.phase = .confirmed → ∀ k, s.actors k = none

section

variable {s₀ : State Id S}

omit [Inhabited S] in
/-- The actors, and what is pending, stay as they are. -/
private theorem Closing.congr (h : Closing s₀ s) (haccount : Account s') (hphase : s'.phase ≠ .running)
    (haccepted : s'.accepted = s.accepted) (hnext : s'.nextChannel = s.nextChannel) (hactors : s'.actors = s.actors)
    (hkeys : ∀ c, keys (s'.channels c).inbox = keys (s.channels c).inbox)
    (hconfirmed : s'.phase = .confirmed → ∀ k, s'.actors k = none) : Closing s₀ s' where
  account := haccount
  phase := hphase
  accepted := haccepted.trans h.accepted
  nextChannel := hnext.trans h.nextChannel
  attended := by
    intro c hc
    unfold State.Attends
    rw [hactors, hkeys]
    exact h.attended c hc
  ignored := by
    intro c hc
    unfold State.Attends
    rw [hactors, hkeys]
    exact h.ignored c hc
  confirmed := hconfirmed

omit [Inhabited S] in
private theorem attends_of_update {actor : Option (Running Id S)} (hk : s.actors k = some r)
    (hactors : s'.actors = Function.update s.actors k actor)
    (hrecv : ∀ r', actor = some r' → r'.actor.recv = r.actor.recv)
    (hreceives : ∀ r', actor = some r' → r'.phase.Receives → r.phase.Receives)
    (hattends : s'.Attends c) : s.Attends c := by
  obtain ⟨k', r', hk', hc, hphase⟩ := hattends
  rw [hactors] at hk'
  by_cases hkk : k' = k
  · rw [hkk, Function.update_self] at hk'
    exact ⟨k, r, hk, (hrecv r' hk').symm.trans hc, hreceives r' hk' hphase⟩
  · rw [Function.update_of_ne hkk] at hk'
    exact ⟨k', r', hk', hc, hphase⟩

omit [Inhabited S] in
/-- A channel has no other actor that receives, or stays attended to. -/
private theorem attends_update {actor : Option (Running Id S)} (hk : s.actors k = some r)
    (hactors : s'.actors = Function.update s.actors k actor)
    (hrecv : ∀ r', actor = some r' → r'.actor.recv = r.actor.recv)
    (hattends : s.Attends c) : s'.Attends c ∨ c = r.actor.recv ∧ r.phase.Receives ∧ ∀ r', actor = some r' →
      ¬r'.phase.Receives := by
  obtain ⟨k', r', hk', hc, hphase⟩ := hattends
  by_cases hkk : k' = k
  · subst hkk
    rw [hk] at hk'
    cases hk'
    by_cases hreceives : ∃ r₁, actor = some r₁ ∧ r₁.phase.Receives
    · obtain ⟨r₁, hr₁, hphase₁⟩ := hreceives
      refine Or.inl ⟨k', r₁, ?_, (hrecv r₁ hr₁).trans hc, hphase₁⟩
      rw [hactors, Function.update_self, hr₁]
    · refine Or.inr ⟨hc.symm, hphase, ?_⟩
      intro r₁ hr₁ hphase₁
      exact hreceives ⟨r₁, hr₁, hphase₁⟩
  · refine Or.inl ⟨k', r', ?_, hc, hphase⟩
    rw [hactors, Function.update_of_ne hkk]
    exact hk'

omit [Inhabited S] in
private theorem Closing.of_actor (h : Closing s₀ s) (hk : s.actors k = some r) (hstep : ActorStep options s k r s') :
    Closing s₀ s' := by
  obtain ⟨hphase, -, hnext, -, haccepted⟩ := hstep.frame
  have hconfirmed : s'.phase = .confirmed → ∀ k, s'.actors k = none := by
    intro hphase'
    have hnone := h.confirmed (hphase.symm.trans hphase') k
    rw [hk] at hnone
    cases hnone
  have heffect := hstep.effect (h.account.last r.actor.recv)
  refine ⟨h.account.of_actor hk hstep, hphase ▸ h.phase, haccepted.trans h.accepted, hnext.trans h.nextChannel, ?_, ?_,
    hconfirmed⟩
  · intro c hc
    cases heffect with
    | call spawn inbox r' phase first inboxes actors recv phase' =>
      have hrecv : ∀ r₁, some r' = some r₁ → r₁.actor.recv = r.actor.recv := by
        intro r₁ hr₁
        cases hr₁
        exact recv
      by_cases hself : c = r.actor.recv
      · refine Or.inl ⟨k, r', ?_, recv.trans hself.symm, phase'⟩
        rw [actors, Function.update_self]
      · rw [inboxes, if_neg hself]
        rcases h.attended c hc with hattends | hzero
        · rcases attends_update hk actors hrecv hattends with hattends' | ⟨heq, -⟩
          · exact Or.inl hattends'
          · exact absurd heq hself
        · exact Or.inr hzero
    | quiet actor inboxes pending actors recv receives leaves =>
      rw [pending]
      rcases h.attended c hc with hattends | hzero
      · rcases attends_update hk actors recv hattends with hattends' | ⟨rfl, hreceives, hleft⟩
        · exact Or.inl hattends'
        · rcases leaves hreceives with ⟨r', hr', hphase'⟩ | hzero
          · exact absurd hphase' (hleft r' hr')
          · exact Or.inr hzero
      · exact Or.inr hzero
  · intro c hc
    obtain ⟨hignored, hkeys⟩ := h.ignored c hc
    cases heffect with
    | call spawn inbox r' phase first inboxes actors recv phase' =>
      have hne : c ≠ r.actor.recv := by
        rintro rfl
        exact hignored ⟨k, r, hk, rfl, phase⟩
      refine ⟨?_, ?_⟩
      · intro hattends
        refine hignored (attends_of_update hk actors ?_ (fun _ _ _ => phase) hattends)
        intro r₁ hr₁
        cases hr₁
        exact recv
      · rw [inboxes, if_neg hne]
        exact hkeys
    | quiet actor inboxes pending actors recv receives =>
      refine ⟨?_, (pending c).trans hkeys⟩
      intro hattends
      exact hignored (attends_of_update hk actors recv receives hattends)

private theorem Closing.of_manager (h : Closing s₀ s) {action : Action Id S} (hstep : ManagerStep options s action s') :
    Closing s₀ s' := by
  have haccount := h.account.of_manager (fun hphase => absurd hphase h.phase) hstep
  cases hstep with
  | spawn spawn hphase => exact absurd hphase h.phase
  | tick hphase => exact absurd hphase h.phase
  | shutdownAll ids hphase => exact absurd hphase h.phase
  | sendEntityShutdown id rest hphase hsend =>
    obtain ⟨hphase', haccepted, -, hnext, hactors, -⟩ := sendEntityShutdown_effect hsend
    refine h.congr haccount ?_ haccepted hnext hactors (sendEntityShutdown_keys hsend) ?_
    · simp [hphase']
    · simp [hphase']
  | dropState hphase =>
    refine h.congr haccount ?_ rfl rfl rfl (fun _ => rfl) ?_
    · simp [State.dropState]
    · simp [State.dropState]
  | confirm hphase hall =>
    refine h.congr haccount (by simp) rfl rfl rfl (fun _ => rfl) ?_
    intro _ k
    by_cases hk : k < s.nextActor
    · exact Option.isNone_iff_eq_none.mp (hall k hk)
    · exact h.account.next k (not_lt.mp hk)

private theorem step_closing {action : Action Id S} (h : Closing s₀ s)
    (hstep : step options onShutdown s action = some s') :
    Closing s₀ s' := by
  rcases step_cases hstep with ⟨k, r, hk, hactor⟩ | hmanager
  · exact h.of_actor hk hactor
  · exact h.of_manager hmanager

private theorem Serving.closing (h : Serving s₀) {ids : List Id}
    (hstep : step options onShutdown s₀ (.shutdownAll ids) = some s) : Closing s₀ s := by
  simp only [step, h.phase] at hstep
  split at hstep
  · cases hstep
    refine ⟨h.account.congr rfl rfl rfl (fun _ => rfl) rfl rfl, by simp, rfl, rfl, ?_, ?_, by simp⟩
    · intro c hc
      exact Or.inl hc
    · intro c hc
      exact ⟨hc, rfl⟩
  · cases hstep

end

/-! ### The functions that are called -/

/-- Every entity with commands in its inbox has an actor that receives them. -/
def State.AllAttended (s : State Id S) : Prop :=
  ∀ id handle, s.live.lookup id = some handle → (s.channels handle.send).inbox ≠ [] →
    ∃ k r, s.actors k = some r ∧ r.actor.id = id ∧ r.phase.Receives

private theorem Serving.receives_live (h : Serving s) (hk : s.actors k = some r) (hphase : r.phase.Receives) :
    s.live.lookup r.actor.id = some (.live r.actor.recv) := by
  have hne : r.phase ≠ .idleShutdown ∧ r.phase ≠ .completing := by
    rcases hphase with hphase | hphase <;> simp [hphase]
  exact (h.inv.awake_of_actor hk hne).1

private theorem Serving.allAttended_iff (h : Serving s) :
    s.AllAttended ↔ ∀ c < s.nextChannel, ¬s.Attends c → keys (s.channels c).inbox = 0 := by
  constructor
  · intro hall c _ hc
    by_contra hne
    have hinbox : (s.channels c).inbox ≠ [] := by
      intro hempty
      rw [hempty] at hne
      exact hne rfl
    apply hinbox
    apply h.deserted c
    rintro id handle hlookup rfl
    obtain ⟨k, r, hk, rfl, hphase⟩ := hall id handle hlookup hinbox
    have hlive := h.receives_live hk hphase
    rw [hlookup] at hlive
    cases hlive
    exact hc ⟨k, r, hk, rfl, hphase⟩
  · intro hzero id handle hlookup hinbox
    obtain ⟨hlt, -, -, hspawns⟩ := h.inv.channel.handle id handle hlookup
    have hattends : s.Attends handle.send := by
      by_contra hc
      have hkeys := hzero handle.send hlt hc
      obtain ⟨cmd, inbox, hcons⟩ := List.exists_cons_of_ne_nil hinbox
      obtain ⟨spawn, rfl, -⟩ := hspawns cmd (hcons ▸ List.mem_cons_self)
      rw [hcons, keys_spawn] at hkeys
      simp at hkeys
    obtain ⟨k, r, hk, hrecv, hphase⟩ := hattends
    have hlive := h.receives_live hk hphase
    exact ⟨k, r, hk, h.inv.channel.distinct r.actor.id id _ handle hlive hlookup hrecv, hphase⟩

omit [Inhabited S] in
/-- When the shutdown is confirmed, what is pending is what was in the inboxes that nobody received from. -/
private theorem Closing.calls_perm_iff {s₀ : State Id S} (h : Closing s₀ s) (hconfirmed : s.phase = .confirmed) :
    s.calls.Perm s₀.accepted ↔ ∀ c < s₀.nextChannel, ¬s₀.Attends c → keys (s₀.channels c).inbox = 0 := by
  have hkeys : ∀ c, keys (s.channels c).inbox = 0 ↔ (¬s₀.Attends c → keys (s₀.channels c).inbox = 0) := by
    intro c
    by_cases hc : s₀.Attends c
    · have hzero : keys (s.channels c).inbox = 0 := by
        rcases h.attended c hc with ⟨k, r, hk, -⟩ | hzero
        · rw [h.confirmed hconfirmed k] at hk
          cases hk
        · exact hzero
      exact iff_of_true hzero (fun hnot => absurd hc hnot)
    · rw [(h.ignored c hc).2]
      exact ⟨fun hzero _ => hzero, fun himp => himp hc⟩
  have hpending : s.calls.Perm s₀.accepted ↔ s.pending = 0 := by
    rw [← Multiset.coe_eq_coe, ← h.accepted, h.account.balance, left_eq_add]
  rw [hpending, State.pending, Finset.sum_eq_zero_iff, ← h.nextChannel]
  constructor
  · intro hzero c hc
    exact (hkeys c).mp (hzero c (Finset.mem_range.mpr hc))
  · intro hzero c hc
    exact (hkeys c).mpr (hzero c (Finset.mem_range.mp hc))

/-- The functions of all accepted callbacks are called before the shutdown is confirmed, each of them once, if and
only if at `ShutdownAll` there are no commands in the inbox of an entity whose actor has found itself idle. -/
theorem shutdown_calls_all_iff {before after : List (Action Id S)} {ids : List Id} {s₀ s : State Id S}
    (hbefore : ∀ ids, .shutdownAll ids ∉ before)
    (hrun₀ : StateMachine.run (step options onShutdown) State.empty before = some s₀)
    (hrun : StateMachine.run (step options onShutdown) s₀ (.shutdownAll ids :: after) = some s)
    (hconfirmed : s.phase = .confirmed) : s.calls.Perm s₀.accepted ↔ s₀.AllAttended := by
  have hserving := run_serving hbefore hrun₀
  obtain ⟨s₁, hstep, hafter⟩ := StateMachine.run_cons _ hrun
  have hclosing : Closing s₀ s := StateMachine.invariant_of_run _ step_closing (hserving.closing hstep) hafter
  rw [hclosing.calls_perm_iff hconfirmed, hserving.allAttended_iff]

/-- The manager is shut down while the actor works. -/
theorem shutdown_calls_all_active :
    ∃ s₀ s : State Nat Nat,
      StateMachine.run (step ⟨10, 10, 100⟩ (fun _ _ n => n)) State.empty [.spawn ⟨0, 0, (· + 1), []⟩] = some s₀ ∧
      StateMachine.run (step ⟨10, 10, 100⟩ (fun _ _ n => n)) s₀ [.shutdownAll [0], .sendEntityShutdown, .dropState,
        .recv 0, .check 0, .recv 0, .poll 0 0, .finishSoft 0, .confirm] = some s ∧
      (s.calls.Perm s₀.accepted ↔ s₀.AllAttended) := by
  let run : State Nat Nat → List (Action Nat Nat) → Option (State Nat Nat) :=
    StateMachine.run (step ⟨10, 10, 100⟩ (fun _ _ n => n))
  let after : List (Action Nat Nat) := [.shutdownAll [0], .sendEntityShutdown, .dropState, .recv 0, .check 0, .recv 0,
    .poll 0 0, .finishSoft 0, .confirm]
  have hphase : ((run State.empty [.spawn ⟨0, 0, (· + 1), []⟩]).bind (fun s₀ => run s₀ after)).map (·.phase) =
      some .confirmed := by
    decide +kernel
  obtain ⟨s, hs, hconfirmed⟩ := Option.map_eq_some_iff.mp hphase
  obtain ⟨s₀, hs₀, hs⟩ := Option.bind_eq_some_iff.mp hs
  exact ⟨s₀, s, hs₀, hs, shutdown_calls_all_iff (by simp) hs₀ hs hconfirmed⟩

/-- The actor has found itself idle when the second command comes in, and then the manager is shut down. -/
theorem shutdown_drops_callback :
    ∃ s₀ s : State Nat Nat,
      StateMachine.run (step ⟨10, 10, 100⟩ (fun _ _ n => n)) State.empty [.spawn ⟨0, 0, (· + 1), []⟩, .recv 0, .check 0,
        .poll 0 0, .check 0, .spawn ⟨0, 1, (· + 1), []⟩] = some s₀ ∧
      StateMachine.run (step ⟨10, 10, 100⟩ (fun _ _ n => n)) s₀ [.shutdownAll [0], .sendEntityShutdown, .dropState,
        .sendShutdown 0, .finishShutdown 0, .sendComplete 0, .confirm] = some s ∧
      s.phase = .confirmed ∧ s₀.accepted = [0, 1] ∧ s.calls = [0] ∧ ¬s.calls.Perm s₀.accepted := by
  let run : State Nat Nat → List (Action Nat Nat) → Option (State Nat Nat) :=
    StateMachine.run (step ⟨10, 10, 100⟩ (fun _ _ n => n))
  let before : List (Action Nat Nat) := [.spawn ⟨0, 0, (· + 1), []⟩, .recv 0, .check 0, .poll 0 0, .check 0,
    .spawn ⟨0, 1, (· + 1), []⟩]
  let after : List (Action Nat Nat) := [.shutdownAll [0], .sendEntityShutdown, .dropState, .sendShutdown 0,
    .finishShutdown 0, .sendComplete 0, .confirm]
  have hresult : ((run State.empty before).bind
    (fun s₀ => (run s₀ after).map (fun s => (s.phase, s₀.accepted, s.calls)))) =
      some (.confirmed, [0, 1], [0]) := by
    decide +kernel
  obtain ⟨s₀, hs₀, hs⟩ := Option.bind_eq_some_iff.mp hresult
  obtain ⟨s, hs, heq⟩ := Option.map_eq_some_iff.mp hs
  rw [Prod.mk.injEq, Prod.mk.injEq] at heq
  obtain ⟨hphase, haccepted, hcalls⟩ := heq
  refine ⟨s₀, s, hs₀, hs, hphase, haccepted, hcalls, ?_⟩
  rw [haccepted, hcalls]
  decide

end

end EntityManager

end IrohBlobs
