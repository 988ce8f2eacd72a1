import Daccord.Paxos

/-! Everything a Paxos node does is a sequence of moves. A move says what it
changes, what it sends and what was checked first; invariants are proved for
moves and hold of whole calls, whatever messages a node is given. -/
namespace Daccord
namespace Paxos

variable {V : Type}

theorem mem_of_lookup {W : Type} {m : AList fun _ : ℕ => W} {slot : ℕ} {w : W}
    (h : m.lookup slot = some w) : slot ∈ m :=
  AList.lookup_isSome.mp (by rw [h]; rfl)

namespace PaxosProtocol

@[simp] theorem instanceAt_putInstance_self (p : PaxosProtocol V) (slot : ℕ)
    (inst : PaxosInstance V) : (p.putInstance slot inst).instanceAt slot = inst := by
  simp [instanceAt,putInstance]

theorem instanceAt_putInstance_ne (p : PaxosProtocol V) {slot slot' : ℕ} (h : slot' ≠ slot)
    (inst : PaxosInstance V) : (p.putInstance slot inst).instanceAt slot' = p.instanceAt slot' := by
  simp [instanceAt,putInstance,AList.lookup_insert_ne h]

@[simp] theorem instanceAt_noteVote (p : PaxosProtocol V) (slot slot' : ℕ) (pn : ProposalNumber)
    (value : V) : (p.noteVote slot pn value).instanceAt slot' = p.instanceAt slot' := rfl

theorem instanceAt_of_lookup {p : PaxosProtocol V} {slot : ℕ} {inst : PaxosInstance V}
    (h : p.instances.lookup slot = some inst) : p.instanceAt slot = inst := by
  simp [instanceAt,h]

theorem instanceAt_removeInstance_ne (p : PaxosProtocol V) {slot slot' : ℕ} (h : slot' ≠ slot) :
    (p.removeInstance slot).instanceAt slot' = p.instanceAt slot' := by
  simp [instanceAt,removeInstance,AList.lookup_erase_ne h]

theorem promised_lt_retryNumber (p : PaxosProtocol V) {inst : PaxosInstance V}
    {hp : ProposalNumber} (hh : inst.highestPromised = some hp) : hp < p.retryNumber inst := by
  refine ProposalNumber.lt_of_round (Nat.lt_succ_of_le ?_)
  rw [hh]
  exact (le_max_left hp.round _).trans (le_max_left _ _)

theorem conclude_frame [DecidableEq V] (env : PaxosEnv) (p : PaxosProtocol V) (slot : ℕ)
    (value : V) : ∃ forwarded, forwarded.Sublist p.forwardedProposals ∧ p.conclude env slot value =
      ({ p with
        decidedSlots := p.decidedSlots.insert slot value
        recentDecisions := p.recentDecisions ++ [(env.now,slot,value)]
        nextSlot := if p.nextSlot ≤ slot then slot + 1 else p.nextSlot
        forwardedProposals := forwarded
        pendingDecisions := p.pendingDecisions ++ [⟨slot,value⟩]
        instances := p.instances.erase slot },[⟨.broadcast,.decide slot value⟩]) := by
  by_cases hm : p.multi
  · exact ⟨p.forwardedProposals.eraseP fun f => f.value = value,List.eraseP_sublist,
      by simp [conclude,decide,hm,ackDecidedValue,removeInstance]⟩
  · exact ⟨p.forwardedProposals,.refl _,by simp [conclude,decide,hm,removeInstance]⟩

theorem conclude_putInstance [DecidableEq V] (env : PaxosEnv) (p : PaxosProtocol V) (slot : ℕ)
    (inst : PaxosInstance V) (value : V) :
    (p.putInstance slot inst).conclude env slot value = p.conclude env slot value := by
  have herase : (p.instances.insert slot inst).erase slot = p.instances.erase slot := by
    ext1
    exact List.kerase_cons_eq rfl
  by_cases hm : p.multi
  · simp [conclude,decide,hm,ackDecidedValue,removeInstance,putInstance,herase]
  · simp [conclude,decide,hm,removeInstance,putInstance,herase]

end PaxosProtocol

/-- Nothing at or above `pn` has been promised in the slot. -/
def PaxosInstance.Free (inst : PaxosInstance V) (pn : ProposalNumber) : Prop :=
  ∀ h ∈ inst.highestPromised, h < pn

instance (inst : PaxosInstance V) (pn : ProposalNumber) : Decidable (inst.Free pn) :=
  inferInstanceAs (Decidable (∀ h ∈ inst.highestPromised, h < pn))

/-- Phase 2 does not go past a vote of the proposer itself. -/
def PaxosInstance.Mindful (inst : PaxosInstance V) : Prop :=
  ∀ own ∈ inst.accepted, inst.phase2Value = some own.2 ∨ ∃ r ∈ inst.highestAccepted, own.1 ≤ r.1

def PaxosInstance.Tops (inst : PaxosInstance V) (r : ProposalNumber × V) : Prop :=
  ∀ h ∈ inst.highestAccepted, h.1 < r.1

instance (inst : PaxosInstance V) (r : ProposalNumber × V) : Decidable (inst.Tops r) :=
  inferInstanceAs (Decidable (∀ h ∈ inst.highestAccepted, h.1 < r.1))

theorem PaxosInstance.adopt_of_tops {inst : PaxosInstance V} {r : ProposalNumber × V}
    (h : inst.Tops r) : inst.adopt (some r) = some r := by
  unfold PaxosInstance.adopt
  cases hh : inst.highestAccepted with
  | none => rfl
  | some top => exact if_pos (h top hh)

theorem PaxosInstance.adopt_of_not_tops {inst : PaxosInstance V}
    {accepted : Option (ProposalNumber × V)} (h : ∀ r ∈ accepted, ¬ inst.Tops r) :
    inst.adopt accepted = inst.highestAccepted := by
  cases accepted with
  | none => rfl
  | some r =>
    unfold PaxosInstance.adopt
    cases hh : inst.highestAccepted with
    | none =>
      refine absurd ?_ (h r rfl)
      intro top htop
      rw [hh] at htop
      cases htop
    | some top =>
      refine if_neg fun hlt => h r rfl ?_
      intro top' htop
      rw [hh] at htop
      cases htop
      exact hlt

/-- The value of phase 2 stays if no higher report has another. -/
theorem PaxosInstance.recordPromise_phase2Value {inst : PaxosInstance V} (sender : NodeId)
    {accepted : Option (ProposalNumber × V)}
    (h : ∀ r ∈ accepted, inst.Tops r → inst.phase2Value = some r.2) :
    (inst.recordPromise sender accepted).phase2Value = inst.phase2Value := by
  by_cases htop : ∃ r ∈ accepted, inst.Tops r
  · obtain ⟨r,hr,htop⟩ := htop
    cases hr
    rw [h r rfl htop]
    simp only [recordPromise,phase2Value,adopt_of_tops htop]
  · have hsame : inst.adopt accepted = inst.highestAccepted :=
      adopt_of_not_tops fun r hr ht => htop ⟨r,hr,ht⟩
    simp only [recordPromise,phase2Value,hsame]

theorem PaxosInstance.recordPromise_mindful {inst : PaxosInstance V} (sender : NodeId)
    {accepted : Option (ProposalNumber × V)}
    (hnew : ∀ r ∈ accepted, inst.Tops r → ∀ own ∈ inst.accepted, own.2 = r.2 ∨ own.1 ≤ r.1)
    (hold : (∀ r ∈ accepted, ¬ inst.Tops r) → inst.Mindful) :
    (inst.recordPromise sender accepted).Mindful := by
  intro own hown
  by_cases htop : ∃ r ∈ accepted, inst.Tops r
  · obtain ⟨r,hr,htop⟩ := htop
    cases hr
    simp only [recordPromise,phase2Value,adopt_of_tops htop]
    rcases hnew r rfl htop own hown with hv | hle
    · exact Or.inl (congrArg some hv.symm)
    · exact Or.inr ⟨r,rfl,hle⟩
  · have hnot : ∀ r ∈ accepted, ¬ inst.Tops r := fun r hr ht => htop ⟨r,hr,ht⟩
    simp only [recordPromise,phase2Value,adopt_of_not_tops hnot]
    exact hold hnot own hown

namespace PaxosProtocol

/-- A `Promise` that starts phase 2 finds the leader promise no higher. -/
def FencedPromise (p : PaxosProtocol V) (sender : NodeId) (slot : ℕ) (pn : ProposalNumber) : Prop :=
  ∀ inst ∈ p.instances.lookup slot, inst.proposalNumber = pn →
    p.quorumSize ≤ (insert sender inst.promisesReceived).card →
    (∀ h ∈ inst.highestPromised, h ≤ pn) → ∀ l ∈ p.leaderPromise, l ≤ pn

instance (p : PaxosProtocol V) (sender : NodeId) (slot : ℕ) (pn : ProposalNumber) :
    Decidable (p.FencedPromise sender slot pn) :=
  inferInstanceAs (Decidable (∀ inst ∈ p.instances.lookup slot, inst.proposalNumber = pn →
    p.quorumSize ≤ (insert sender inst.promisesReceived).card →
    (∀ h ∈ inst.highestPromised, h ≤ pn) → ∀ l ∈ p.leaderPromise, l ≤ pn))

/-- A `Promise` that starts phase 2 does so with regard to the proposer's own
vote, and one that comes later reports no higher pair with another value. -/
def MindfulPromise (p : PaxosProtocol V) (sender : NodeId) (slot : ℕ) (pn : ProposalNumber)
    (accepted : Option (ProposalNumber × V)) : Prop :=
  ∀ inst ∈ p.instances.lookup slot, inst.proposalNumber = pn →
    (p.quorumSize ≤ inst.promisesReceived.card →
      ∀ r ∈ accepted, inst.Tops r → inst.phase2Value = some r.2) ∧
    (¬ p.quorumSize ≤ inst.promisesReceived.card →
      p.quorumSize ≤ (insert sender inst.promisesReceived).card →
      (∀ r ∈ accepted, inst.Tops r → ∀ own ∈ inst.accepted, own.2 = r.2 ∨ own.1 ≤ r.1) ∧
      ((∀ r ∈ accepted, ¬ inst.Tops r) → inst.Mindful))

/-- An `Accepted` that completes the quorum names the value of the own vote. -/
def MindfulAccepted (p : PaxosProtocol V) (sender : NodeId) (slot : ℕ) (pn : ProposalNumber)
    (value : V) : Prop :=
  ∀ inst ∈ p.instances.lookup slot, inst.proposalNumber = pn →
    p.quorumSize ≤ (insert sender inst.acceptsReceived).card → ∃ own ∈ inst.accepted, own.2 = value

/-- A leader promise is given with nothing decided that its report leaves out. -/
def UndecidedSince (p : PaxosProtocol V) (pn : ProposalNumber) (since : ℕ) : Prop :=
  (∀ l ∈ p.leaderPromise, l < pn) → ∀ slot ∈ p.decidedSlots.keys, slot < since

instance (p : PaxosProtocol V) (pn : ProposalNumber) (since : ℕ) :
    Decidable (p.UndecidedSince pn since) :=
  inferInstanceAs (Decidable
    ((∀ l ∈ p.leaderPromise, l < pn) → ∀ slot ∈ p.decidedSlots.keys, slot < since))

/-- A leader replays only where it has not promised its number or a higher one. -/
def FreeToReplay (p : PaxosProtocol V) (sender : NodeId) (pn : ProposalNumber)
    (accepted : List (ℕ × ProposalNumber × V)) : Prop :=
  ∀ e ∈ p.election, e.proposalNumber = pn →
    p.quorumSize ≤ (insert sender e.promisesReceived).card →
    ∀ r ∈ e.accepted ++ accepted, r.1 ∉ p.decidedSlots → (p.instanceAt r.1).Free pn

instance (p : PaxosProtocol V) (sender : NodeId) (pn : ProposalNumber)
    (accepted : List (ℕ × ProposalNumber × V)) : Decidable (p.FreeToReplay sender pn accepted) :=
  inferInstanceAs (Decidable (∀ e ∈ p.election, e.proposalNumber = pn →
    p.quorumSize ≤ (insert sender e.promisesReceived).card →
    ∀ r ∈ e.accepted ++ accepted, r.1 ∉ p.decidedSlots → (p.instanceAt r.1).Free pn))

/-- A `Promise` that comes after the quorum reports no higher pair with another
value. -/
def SteadyPromise (p : PaxosProtocol V) (slot : ℕ) (pn : ProposalNumber)
    (accepted : Option (ProposalNumber × V)) : Prop :=
  ∀ inst ∈ p.instances.lookup slot, inst.proposalNumber = pn →
    p.quorumSize ≤ inst.promisesReceived.card →
    ∀ r ∈ accepted, inst.Tops r → inst.phase2Value = some r.2

/-- A leader replays its own proposals only under a number above theirs. -/
def FreshReplay (p : PaxosProtocol V) (sender : NodeId) (pn : ProposalNumber)
    (accepted : List (ℕ × ProposalNumber × V)) : Prop :=
  ∀ e ∈ p.election, e.proposalNumber = pn →
    p.quorumSize ≤ (insert sender e.promisesReceived).card →
    ∀ r ∈ e.accepted ++ accepted, r.1 ∉ p.decidedSlots →
      (p.instanceAt r.1).isProposer = true → (p.instanceAt r.1).proposalNumber < pn

instance (p : PaxosProtocol V) (sender : NodeId) (pn : ProposalNumber)
    (accepted : List (ℕ × ProposalNumber × V)) : Decidable (p.FreshReplay sender pn accepted) :=
  inferInstanceAs (Decidable (∀ e ∈ p.election, e.proposalNumber = pn →
    p.quorumSize ≤ (insert sender e.promisesReceived).card →
    ∀ r ∈ e.accepted ++ accepted, r.1 ∉ p.decidedSlots →
      (p.instanceAt r.1).isProposer = true → (p.instanceAt r.1).proposalNumber < pn))

/-- A `Promise` that starts phase 2 finds the node's own promise no higher. -/
def FirmPromise (p : PaxosProtocol V) (sender : NodeId) (slot : ℕ) (pn : ProposalNumber) : Prop :=
  ∀ inst ∈ p.instances.lookup slot, inst.proposalNumber = pn →
    p.quorumSize ≤ (insert sender inst.promisesReceived).card → ∀ h ∈ inst.highestPromised, h ≤ pn

instance (p : PaxosProtocol V) (sender : NodeId) (slot : ℕ) (pn : ProposalNumber) :
    Decidable (p.FirmPromise sender slot pn) :=
  inferInstanceAs (Decidable (∀ inst ∈ p.instances.lookup slot, inst.proposalNumber = pn →
    p.quorumSize ≤ (insert sender inst.promisesReceived).card →
    ∀ h ∈ inst.highestPromised, h ≤ pn))

/-- While a proposer counts its own vote it accepts no other value. -/
def FirmAccept (p : PaxosProtocol V) (slot : ℕ) (pn : ProposalNumber) (value : V) : Prop :=
  (∀ f ∈ p.effectiveFloor slot, f ≤ pn) → p.nodeId ∈ (p.instanceAt slot).acceptsReceived →
    ∀ own ∈ (p.instanceAt slot).accepted, own.2 = value

section
variable [DecidableEq V]

instance (p : PaxosProtocol V) (slot : ℕ) (pn : ProposalNumber) (value : V) :
    Decidable (p.FirmAccept slot pn value) :=
  inferInstanceAs (Decidable ((∀ f ∈ p.effectiveFloor slot, f ≤ pn) →
    p.nodeId ∈ (p.instanceAt slot).acceptsReceived →
    ∀ own ∈ (p.instanceAt slot).accepted, own.2 = value))

instance (p : PaxosProtocol V) (slot : ℕ) (pn : ProposalNumber)
    (accepted : Option (ProposalNumber × V)) : Decidable (p.SteadyPromise slot pn accepted) :=
  inferInstanceAs (Decidable (∀ inst ∈ p.instances.lookup slot, inst.proposalNumber = pn →
    p.quorumSize ≤ inst.promisesReceived.card →
    ∀ r ∈ accepted, inst.Tops r → inst.phase2Value = some r.2))

instance (inst : PaxosInstance V) : Decidable inst.Mindful :=
  inferInstanceAs (Decidable (∀ own ∈ inst.accepted,
    inst.phase2Value = some own.2 ∨ ∃ r ∈ inst.highestAccepted, own.1 ≤ r.1))

instance (p : PaxosProtocol V) (sender : NodeId) (slot : ℕ) (pn : ProposalNumber)
    (accepted : Option (ProposalNumber × V)) :
    Decidable (p.MindfulPromise sender slot pn accepted) :=
  inferInstanceAs (Decidable (∀ inst ∈ p.instances.lookup slot, inst.proposalNumber = pn →
    (p.quorumSize ≤ inst.promisesReceived.card →
      ∀ r ∈ accepted, inst.Tops r → inst.phase2Value = some r.2) ∧
    (¬ p.quorumSize ≤ inst.promisesReceived.card →
      p.quorumSize ≤ (insert sender inst.promisesReceived).card →
      (∀ r ∈ accepted, inst.Tops r → ∀ own ∈ inst.accepted, own.2 = r.2 ∨ own.1 ≤ r.1) ∧
      ((∀ r ∈ accepted, ¬ inst.Tops r) → inst.Mindful))))

instance (p : PaxosProtocol V) (sender : NodeId) (slot : ℕ) (pn : ProposalNumber) (value : V) :
    Decidable (p.MindfulAccepted sender slot pn value) :=
  inferInstanceAs (Decidable (∀ inst ∈ p.instances.lookup slot, inst.proposalNumber = pn →
    p.quorumSize ≤ (insert sender inst.acceptsReceived).card → ∃ own ∈ inst.accepted, own.2 = value))

end

end PaxosProtocol

def PaxosProtocol.outvoted [DecidableEq V] (p : PaxosProtocol V) (slot : ℕ) (value : V) : List V :=
  match p.instances.lookup slot with
  | some inst =>
    match inst.proposedValue with
    | some proposed => if inst.isProposer ∧ proposed ≠ value then [proposed] else []
    | none => []
  | none => []

def PaxosProtocol.lose (p : PaxosProtocol V) (values : List V) : PaxosProtocol V :=
  { p with lostProposals := p.lostProposals ++ values }

/-- The two differ in when to send again. -/
structure SameBallot (inst inst' : PaxosInstance V) : Prop where
  proposalNumber : inst'.proposalNumber = inst.proposalNumber
  promisesReceived : inst'.promisesReceived = inst.promisesReceived
  acceptsReceived : inst'.acceptsReceived = inst.acceptsReceived
  highestAccepted : inst'.highestAccepted = inst.highestAccepted
  proposedValue : inst'.proposedValue = inst.proposedValue
  highestPromised : inst'.highestPromised = inst.highestPromised
  accepted : inst'.accepted = inst.accepted
  isProposer : inst'.isProposer = inst.isProposer

/-- Slots, votes and promises are as before; office may have been lost. -/
structure Frame (p q : PaxosProtocol V) : Prop where
  multi : q.multi = p.multi
  nodeId : q.nodeId = p.nodeId
  instances : q.instances = p.instances
  nextSlot : q.nextSlot = p.nextSlot
  quorumSize : q.quorumSize = p.quorumSize
  decidedSlots : q.decidedSlots = p.decidedSlots
  pendingDecisions : q.pendingDecisions = p.pendingDecisions
  recentDecisions : ∀ d ∈ q.recentDecisions, d ∈ p.recentDecisions
  leaderState : q.leaderState = p.leaderState ∨ ∀ t, q.leaderState ≠ .leader t
  highestSeenRound : p.highestSeenRound ≤ q.highestSeenRound
  leaderPromise : q.leaderPromise = p.leaderPromise
  election : q.election = p.election ∨ q.election = none
  votes : q.record.votes = p.record.votes
  elections : q.record.elections = p.record.elections
  lostProposals : q.lostProposals = p.lostProposals
  forwardedProposals : ∀ f ∈ q.forwardedProposals, f ∈ p.forwardedProposals
  valueMissing : q.record.valueMissing = p.record.valueMissing

/-- Messages that no vote depends on: refusals, and decisions made before. -/
def Aside (p : PaxosProtocol V) : PaxosMessage V → Prop
  | .decide slot v => p.decidedSlots.lookup slot = some v
  | .nackPrepare .. | .nackAccept .. | .nackLeader .. | .heartbeat .. => True
  | _ => False

/-- What the moves of a call are known to respect. The code checks none of the
first five; `source` tells which values may be proposed in a slot, and `elections` how
many elections were over when the call began. -/
structure Rules (V : Type) where
  fenced : Prop
  careful : Prop
  orderly : Prop
  free : Prop
  firm : Prop
  source : ℕ → V → Prop
  elections : ℕ

/-- Nothing is known of a call but where the values it proposes are from. -/
def Rules.only (source : ℕ → V → Prop) : Rules V := ⟨False,False,False,False,False,source,0⟩

/-- Nothing is asked of a call, and nothing is known of the values it proposes. -/
def Rules.lax : Rules V := .only fun _ _ => True

/-- Nothing is known of a call but when it began. -/
def Rules.since (elections : ℕ) : Rules V := { Rules.lax with elections := elections }

section
variable [DecidableEq V]

/-- One thing a node does while it handles `input`. -/
inductive Move (R : Rules V) (env : PaxosEnv) (input : Input V) (p : PaxosProtocol V) :
    PaxosProtocol V → List (Outgoing (PaxosMessage V)) → Prop
  | aside {q out} (hq : Frame p q) (hout : ∀ o ∈ out, Aside p o.message) :
      Move R env input p q out
  | tend {slot inst out} (hs : slot ∉ p.decidedSlots) (hi : SameBallot (p.instanceAt slot) inst)
      (hout : ∀ o ∈ out, Aside p o.message) :
      Move R env input p (p.putInstance slot inst) out
  | promise {sender slot pn} (hin : input = .message sender (.prepare slot pn))
      (hs : slot ∉ p.decidedSlots) (hfree : (p.instanceAt slot).Free pn) :
      Move R env input p
        (p.putInstance slot { p.instanceAt slot with highestPromised := some pn })
        [⟨.peer sender,.promise slot pn (p.instanceAt slot).accepted⟩]
  | accept {sender slot pn value} (hin : input = .message sender (.accept slot pn value))
      (hs : slot ∉ p.decidedSlots) (hfloor : ∀ f, p.effectiveFloor slot = some f → f ≤ pn)
      (hown : R.firm → p.nodeId ∈ (p.instanceAt slot).acceptsReceived →
        ∀ own ∈ (p.instanceAt slot).accepted, own.2 = value) :
      Move R env input p
        ((p.putInstance slot ((p.instanceAt slot).vote pn value)).noteVote slot pn value)
        [⟨.peer sender,.accepted slot pn value⟩]
  | count {sender slot accepted inst}
      (hin : input = .message sender (.promise slot inst.proposalNumber accepted))
      (hl : p.instances.lookup slot = some inst)
      (hlate : R.careful ∨ R.orderly → p.quorumSize ≤ inst.promisesReceived.card →
        (inst.recordPromise sender accepted).phase2Value = inst.phase2Value)
      (hfirst : R.careful → ¬ p.quorumSize ≤ inst.promisesReceived.card →
        p.quorumSize ≤ (inst.recordPromise sender accepted).promisesReceived.card →
        (inst.recordPromise sender accepted).Mindful) :
      Move R env input p (p.putInstance slot (inst.recordPromise sender accepted)) []
  | phase2 {slot inst value} (hl : p.instances.lookup slot = some inst)
      (hv : inst.phase2Value = some value) (hq : p.quorumSize ≤ inst.promisesReceived.card)
      (hp : ∀ h, inst.highestPromised = some h → h ≤ inst.proposalNumber)
      (hf : R.fenced → ∀ l, p.leaderPromise = some l → l ≤ inst.proposalNumber) :
      Move R env input p (p.selfAccept env slot inst inst.proposalNumber value).1
        (p.selfAccept env slot inst inst.proposalNumber value).2
  | offer {slot inst value} (hl : p.instances.lookup slot = some inst)
      (hv : inst.phase2Value = some value) (hq : p.quorumSize ≤ inst.promisesReceived.card)
      (hwaver : ¬ R.firm) :
      Move R env input p p [⟨.broadcast,.accept slot inst.proposalNumber value⟩]
  | belated {sender slot accepted inst value}
      (hin : input = .message sender (.promise slot inst.proposalNumber accepted))
      (hl : p.instances.lookup slot = some inst) (hv : inst.phase2Value = some value)
      (hq : p.quorumSize ≤ inst.acceptsReceived.card) :
      Move R env input p (p.conclude env slot value).1 (p.conclude env slot value).2
  | tally {sender slot value inst}
      (hin : input = .message sender (.accepted slot inst.proposalNumber value))
      (hl : p.instances.lookup slot = some inst) :
      Move R env input p
        (p.putInstance slot { inst with acceptsReceived := insert sender inst.acceptsReceived }) []
  | settle {sender slot value inst m own}
      (hin : input = .message sender (.accepted slot inst.proposalNumber value))
      (hl : p.instances.lookup slot = some inst)
      (hq : p.quorumSize ≤ (insert sender inst.acceptsReceived).card)
      (ha : inst.accepted = some (m,own)) (hc : R.careful → own = value) :
      Move R env input p (p.conclude env slot own).1 (p.conclude env slot own).2
  | learn {sender slot value} (hin : input = .message sender (.decide slot value))
      (hs : slot ∉ p.decidedSlots) :
      Move R env input p ((p.lose (p.outvoted slot value)).conclude env slot value).1 []
  | missing {slot inst} (hl : p.instances.lookup slot = some inst) (hv : inst.phase2Value = none)
      (hq : p.quorumSize ≤ inst.promisesReceived.card) : Move R env input p p.missValue.1 []
  | forward {value leader} (hin : input = .propose value) (hm : p.multi = true) :
      Move R env input p
        { p with forwardedProposals := p.forwardedProposals ++ [⟨env.now,value⟩] }
        [⟨.peer leader,.forward value⟩]
  | claim {value out} (hsource : R.source p.nextSlot value)
      (hc : R.free → (p.instanceAt p.nextSlot).Free (.mk 1 p.nodeId))
      (hout : ∀ o ∈ out, o = ⟨.broadcast,.prepare p.nextSlot (.mk 1 p.nodeId)⟩) :
      Move R env input p
        ({ p with nextSlot := p.nextSlot + 1 }.putInstance p.nextSlot
          (p.prepared env p.nextSlot (.mk 1 p.nodeId) value)) out
  | lead {value term} (hsource : R.source p.nextSlot value) (hm : p.multi = true)
      (hl : p.leaderState = .leader term)
      (hc : R.free → (p.instanceAt p.nextSlot).Free (.mk term p.nodeId)) :
      Move R env input p (p.proposeFastPath env value term).1
        (p.proposeFastPath env value term).2
  | retry {slot inst out} (hl : p.instances.lookup slot = some inst)
      (hp : inst.isProposer = true)
      (hout : ∀ o ∈ out, o = ⟨.broadcast,.prepare slot (p.retryNumber inst)⟩) :
      Move R env input p (p.putInstance slot (p.retried env slot inst)) out
  | campaign {out} (hm : p.multi = true)
      (hout : ∀ o ∈ out, o =
        ⟨.broadcast,.prepareLeader (p.candidacy env).proposalNumber (p.candidacy env).sinceSlot⟩) :
      Move R env input p (p.campaign env) out
  | submit {sender pn since} (hin : input = .message sender (.prepareLeader pn since))
      (hm : p.multi = true) (hfree : ∀ l, p.leaderPromise = some l → l < pn)
      (hc : R.careful → ∀ slot ∈ p.decidedSlots, slot < since) :
      Move R env input p (p.submit env sender pn) [⟨.peer sender,.promiseLeader pn
        ((p.submit env sender pn).collectAcceptedForPromise env since)⟩]
  | poll {sender accepted e}
      (hin : input = .message sender (.promiseLeader e.proposalNumber accepted))
      (he : p.election = some e) :
      Move R env input p
        { p with election := some { e with
          promisesReceived := insert sender e.promisesReceived
          accepted := e.accepted ++ accepted } } []
  | elect {e} (he : p.election = some e) (hq : p.quorumSize ≤ e.promisesReceived.card) :
      Move R env input p (p.takeOffice env e) []
  | replay {r slot value} (hr : r ∈ p.record.elections.drop R.elections) (hv : (slot,value) ∈ r.replayed)
      (hl : p.leaderState = .leader r.number.round) (ho : r.number.node = p.nodeId)
      (hs : slot ∉ p.decidedSlots) (hlt : slot < p.nextSlot)
      (hc : R.free → (p.instanceAt slot).Free r.number)
      (horder : R.orderly → (p.instanceAt slot).isProposer = true →
        (p.instanceAt slot).proposalNumber < r.number) :
      Move R env input p (p.replayAccept env r.number (slot,value)).1
        (p.replayAccept env r.number (slot,value)).2

inductive Moves (R : Rules V) (env : PaxosEnv) (input : Input V) :
    PaxosProtocol V → PaxosProtocol V → List (Outgoing (PaxosMessage V)) → Prop
  | nil {p} : Moves R env input p p []
  | snoc {p q r out out'} : Moves R env input p q out →
      Move R env input q r out' → Moves R env input p r (out ++ out')

end

structure Tidy (p : PaxosProtocol V) : Prop where
  decided_lt : ∀ {slot}, slot ∈ p.decidedSlots → slot < p.nextSlot
  apart : ∀ {slot}, slot ∈ p.instances → slot ∉ p.decidedSlots
  proposer : ∀ {slot}, (p.instanceAt slot).isProposer = true → slot < p.nextSlot
  recent : ∀ d ∈ p.recentDecisions, p.decidedSlots.lookup d.2.1 = some d.2.2
  pending : ∀ d ∈ p.pendingDecisions, p.decidedSlots.lookup d.slot = some d.value
  round : ∀ {l}, p.leaderPromise = some l → l.round ≤ p.highestSeenRound
  leader : ∀ {t}, p.leaderState = .leader t →
    p.leaderPromise = some (.mk t p.nodeId) ∧ p.election = none
  election : ∀ {e}, p.election = some e →
    p.leaderPromise = some e.proposalNumber ∧ e.proposalNumber.node = p.nodeId

theorem Tidy.new (multi : Bool) (env : PaxosEnv) (nodeId : NodeId) (totalNodes : ℕ)
    (config : PaxosConfig) :
    Tidy (PaxosProtocol.new multi env nodeId totalNodes config : PaxosProtocol V) :=
  ⟨nofun,nofun,nofun,nofun,nofun,nofun,nofun,nofun⟩

structure Keeps (p q : PaxosProtocol V) : Prop where
  tidy : Tidy q
  nodeId : q.nodeId = p.nodeId
  quorumSize : q.quorumSize = p.quorumSize
  multi : q.multi = p.multi
  decided : ∀ {slot v}, p.decidedSlots.lookup slot = some v → q.decidedSlots.lookup slot = some v
  promise : ∀ {l}, p.leaderPromise = some l → ∃ l', q.leaderPromise = some l' ∧ l ≤ l'

section
variable {p q r : PaxosProtocol V}

theorem PaxosProtocol.effectiveFloor_ge {slot : ℕ} {l : ProposalNumber} (hm : p.multi = true)
    (hl : p.leaderPromise = some l) : ∃ f, p.effectiveFloor slot = some f ∧ l ≤ f := by
  unfold PaxosProtocol.effectiveFloor
  simp only [hm,if_true,hl]
  cases (p.instanceAt slot).highestPromised with
  | none => exact ⟨l,rfl,le_rfl⟩
  | some a =>
    refine ⟨_,rfl,?_⟩
    split
    · assumption
    · exact le_rfl

theorem PaxosProtocol.effectiveFloor_slot {slot : ℕ} {h : ProposalNumber}
    (hh : (p.instanceAt slot).highestPromised = some h) :
    ∃ f, p.effectiveFloor slot = some f ∧ h ≤ f := by
  unfold PaxosProtocol.effectiveFloor
  simp only [hh]
  split
  · cases p.leaderPromise with
    | none => exact ⟨h,rfl,le_rfl⟩
    | some l =>
      refine ⟨_,rfl,?_⟩
      split
      · exact le_rfl
      · rename_i hn
        exact le_of_not_ge hn
  · exact ⟨h,rfl,le_rfl⟩

theorem Tidy.leader_le (h : Tidy p) {t : ℕ} (ht : p.leaderState = .leader t) :
    ∀ l ∈ p.leaderPromise, l ≤ .mk t p.nodeId := by
  intro l hl
  cases (h.leader ht).1.symm.trans hl
  exact le_rfl

theorem Keeps.refl (h : Tidy p) : Keeps p p := ⟨h,rfl,rfl,rfl,id,fun hl => ⟨_,hl,le_rfl⟩⟩

theorem Keeps.trans (h : Keeps p q) (h' : Keeps q r) : Keeps p r := by
  refine ⟨h'.tidy,h'.nodeId.trans h.nodeId,h'.quorumSize.trans h.quorumSize,h'.multi.trans h.multi,
    fun hd => h'.decided (h.decided hd),fun hl => ?_⟩
  obtain ⟨l,hl,hle⟩ := h.promise hl
  obtain ⟨l',hl',hle'⟩ := h'.promise hl
  exact ⟨l',hl',hle.trans hle'⟩

theorem Keeps.mem_decided (h : Keeps p q) {slot : ℕ} (hs : slot ∈ p.decidedSlots) :
    slot ∈ q.decidedSlots := by
  obtain ⟨v,hv⟩ := Option.isSome_iff_exists.mp (AList.lookup_isSome.mpr hs)
  exact mem_of_lookup (h.decided hv)

theorem Tidy.putInstance (h : Tidy p) {slot : ℕ} (hs : slot ∉ p.decidedSlots)
    {inst : PaxosInstance V} (hp : inst.isProposer = true → slot < p.nextSlot) :
    Tidy (p.putInstance slot inst) :=
  { h with
    apart := fun {slot'} hm hd => by
      rcases (AList.mem_insert _).mp hm with rfl | hm
      · exact hs hd
      · exact h.apart hm hd
    proposer := fun {slot'} hp' => by
      by_cases hne : slot' = slot
      · subst hne
        rw [PaxosProtocol.instanceAt_putInstance_self] at hp'
        exact hp hp'
      · rw [PaxosProtocol.instanceAt_putInstance_ne _ hne] at hp'
        exact h.proposer hp' }

theorem Keeps.putInstance (h : Tidy p) {slot : ℕ} (hs : slot ∉ p.decidedSlots)
    {inst : PaxosInstance V} (hp : inst.isProposer = true → slot < p.nextSlot) :
    Keeps p (p.putInstance slot inst) :=
  { Keeps.refl h with tidy := h.putInstance hs hp }

theorem Keeps.vote (h : Tidy p) {slot : ℕ} (hs : slot ∉ p.decidedSlots)
    {inst : PaxosInstance V} (hp : inst.isProposer = true → slot < p.nextSlot)
    (pn : ProposalNumber) (value : V) :
    Keeps p ((p.putInstance slot inst).noteVote slot pn value) :=
  { Keeps.refl h with tidy := { h.putInstance hs hp with } }

theorem Tidy.not_decided (h : Tidy p) {slot : ℕ} {inst : PaxosInstance V}
    (hl : p.instances.lookup slot = some inst) : slot ∉ p.decidedSlots :=
  h.apart (mem_of_lookup hl)

theorem Tidy.proposer_of_lookup (h : Tidy p) {slot : ℕ} {inst : PaxosInstance V}
    (hl : p.instances.lookup slot = some inst) (hp : inst.isProposer = true) :
    slot < p.nextSlot :=
  h.proposer (by rw [PaxosProtocol.instanceAt_of_lookup hl]; exact hp)

/-- A slot is taken: nothing refers to it yet. -/
theorem Tidy.allocate (h : Tidy p) : Tidy { p with nextSlot := p.nextSlot + 1 } :=
  { h with
    decided_lt := fun hd => Nat.lt_succ_of_lt (h.decided_lt hd)
    proposer := fun hp => Nat.lt_succ_of_lt (h.proposer hp) }

theorem Keeps.allocated (h : Tidy p) (hk : Keeps { p with nextSlot := p.nextSlot + 1 } q) :
    Keeps p q :=
  Keeps.trans { Keeps.refl h with tidy := h.allocate } hk

theorem Tidy.next_not_decided (h : Tidy p) : p.nextSlot ∉ p.decidedSlots :=
  fun hd => (h.decided_lt hd).false

/-- Nobody is a proposer in a slot that is not taken yet. -/
theorem Tidy.idle (h : Tidy p) {slot : ℕ} (hle : p.nextSlot ≤ slot) :
    (p.instanceAt slot).isProposer = false := by
  by_contra hp
  exact (h.proposer (Bool.eq_true_of_not_eq_false hp)).not_ge hle

theorem lookup_insert_of_notMem {m : AList fun _ : ℕ => V} {slot slot' : ℕ} {v w : V}
    (hs : slot ∉ m) (h : m.lookup slot' = some w) : (m.insert slot v).lookup slot' = some w := by
  have hne : slot' ≠ slot := by
    rintro rfl
    exact hs (mem_of_lookup h)
  rw [AList.lookup_insert_ne hne]
  exact h

theorem Keeps.frame (h : Tidy p) (hq : Frame p q) : Keeps p q := by
  refine ⟨⟨?_,?_,?_,?_,?_,?_,?_,?_⟩,hq.nodeId,hq.quorumSize,hq.multi,by rw [hq.decidedSlots]; exact id,
    fun hl => ⟨_,hq.leaderPromise.trans hl,le_rfl⟩⟩
  · rw [hq.decidedSlots,hq.nextSlot]
    exact h.decided_lt
  · rw [hq.decidedSlots,hq.instances]
    exact h.apart
  · intro slot
    rw [PaxosProtocol.instanceAt,hq.instances,hq.nextSlot]
    exact h.proposer
  · rw [hq.decidedSlots]
    exact fun d hd => h.recent d (hq.recentDecisions d hd)
  · rw [hq.decidedSlots,hq.pendingDecisions]
    exact h.pending
  · rw [hq.leaderPromise]
    exact fun hl => (h.round hl).trans hq.highestSeenRound
  · intro t ht
    rcases hq.leaderState with heq | hne
    · obtain ⟨hl,he⟩ := h.leader (heq ▸ ht)
      refine ⟨by rw [hq.leaderPromise,hq.nodeId,hl],?_⟩
      rcases hq.election with hel | hel
      · rw [hel,he]
      · exact hel
    · exact absurd ht (hne t)
  · intro e he
    rcases hq.election with hel | hel
    · rw [hq.leaderPromise,hq.nodeId]
      exact h.election (hel ▸ he)
    · rw [hel] at he
      cases he

theorem PaxosProtocol.campaign_leaderPromise (h : Tidy p) (env : PaxosEnv) :
    (p.campaign env).leaderPromise = some (p.candidacy env).proposalNumber := by
  unfold PaxosProtocol.campaign
  simp only [PaxosProtocol.updateHighestSeenRound]
  cases hl : p.leaderPromise with
  | none => rfl
  | some l =>
    have hlt : l < (p.candidacy env).proposalNumber :=
      ProposalNumber.lt_of_round (Nat.lt_succ_of_le (h.round hl))
    simp only [hlt,if_true]

theorem Keeps.campaign (h : Tidy p) (env : PaxosEnv) : Keeps p (p.campaign env) := by
  have hprom := PaxosProtocol.campaign_leaderPromise h env
  refine ⟨{ h with round := ?_, leader := nofun, election := ?_ },rfl,rfl,rfl,id,fun hl => ?_⟩
  · intro l hl
    rw [hprom] at hl
    cases hl
    exact le_max_right _ _
  · intro e he
    cases he
    exact ⟨hprom,rfl⟩
  · exact ⟨_,hprom,(ProposalNumber.lt_of_round (Nat.lt_succ_of_le (h.round hl))).le⟩

theorem PaxosProtocol.submit_frame (h : Tidy p) (env : PaxosEnv) (sender : NodeId)
    {pn : ProposalNumber} (hfree : ∀ l, p.leaderPromise = some l → l < pn) :
    ∃ state started, (∀ t, state ≠ LeaderState.leader t) ∧ p.submit env sender pn =
      { p with
        leaderPromise := some pn
        highestSeenRound := max p.highestSeenRound pn.round
        leaderState := state
        election := none
        electionStartedAt := started } := by
  have hyield : ∀ q : PaxosProtocol V, q.election = p.election → ∃ started,
      q.yieldElection pn = { q with election := none, electionStartedAt := started } := by
    intro q hq
    unfold PaxosProtocol.yieldElection
    cases he : q.election with
    | none => exact ⟨q.electionStartedAt,by simp only [← he]⟩
    | some e =>
      have hlt := hfree _ (h.election (hq ▸ he)).1
      simp only [hlt,if_true]
      exact ⟨_,rfl⟩
  unfold PaxosProtocol.submit
  simp only
  split
  · obtain ⟨started,heq⟩ := hyield (({ p with leaderPromise := some pn }.updateHighestSeenRound
      pn.round).stepDown env (some sender)) rfl
    exact ⟨.follower (some sender) env.now,started,nofun,heq⟩
  · rename_i hl
    obtain ⟨started,heq⟩ := hyield ({ p with leaderPromise := some pn }.updateHighestSeenRound
      pn.round) rfl
    refine ⟨p.leaderState,started,fun t ht => hl ?_,heq⟩
    simp [PaxosProtocol.isLeader,PaxosProtocol.updateHighestSeenRound,ht]

theorem Keeps.submit (h : Tidy p) (env : PaxosEnv) (sender : NodeId) {pn : ProposalNumber}
    (hfree : ∀ l, p.leaderPromise = some l → l < pn) : Keeps p (p.submit env sender pn) := by
  obtain ⟨state,started,hstate,heq⟩ := PaxosProtocol.submit_frame h env sender hfree
  rw [heq]
  refine ⟨{ h with round := ?_, leader := fun ht => absurd ht (hstate _), election := nofun },
    rfl,rfl,rfl,id,fun hl => ⟨pn,rfl,(hfree _ hl).le⟩⟩
  intro l hl
  cases hl
  exact le_max_right _ _

theorem PaxosProtocol.le_advancePast (n : ℕ) (last : Option ℕ) :
    n ≤ PaxosProtocol.advancePast n last := by
  cases last with
  | none => exact le_rfl
  | some last =>
    simp only [PaxosProtocol.advancePast]
    split <;> omega

theorem PaxosProtocol.nextSlot_le_takeOffice (p : PaxosProtocol V) (env : PaxosEnv)
    (e : ElectionState V) : p.nextSlot ≤ (p.takeOffice env e).nextSlot :=
  (le_advancePast ..).trans (le_advancePast ..)

theorem Keeps.takeOffice (h : Tidy p) (env : PaxosEnv) {e : ElectionState V}
    (he : p.election = some e) : Keeps p (p.takeOffice env e) := by
  have hnext := p.nextSlot_le_takeOffice env e
  obtain ⟨hprom,hown⟩ := h.election he
  refine ⟨⟨fun hd => (h.decided_lt hd).trans_le hnext,h.apart,
    fun hp => (h.proposer hp).trans_le hnext,h.recent,h.pending,
    fun hl => (h.round hl).trans (le_max_left _ _),
    ?_,nofun⟩,rfl,rfl,rfl,id,fun hl => ⟨_,hl,le_rfl⟩⟩
  intro t ht
  cases ht
  exact ⟨hprom.trans (congrArg (fun id => some (ProposalNumber.mk _ id)) hown),rfl⟩

variable [DecidableEq V]

theorem PaxosProtocol.lookup_conclude (p : PaxosProtocol V) (env : PaxosEnv) (slot : ℕ) (value : V) :
    (p.conclude env slot value).1.decidedSlots.lookup slot = some value := by
  obtain ⟨forwarded,_,heq⟩ := p.conclude_frame env slot value
  rw [heq]
  exact AList.lookup_insert _

theorem Keeps.conclude (h : Tidy p) (env : PaxosEnv) {slot : ℕ} (hs : slot ∉ p.decidedSlots)
    (value : V) : Keeps p (p.conclude env slot value).1 := by
  obtain ⟨forwarded,_,heq⟩ := p.conclude_frame env slot value
  rw [heq]
  refine ⟨{ h with decided_lt := ?_, apart := ?_, proposer := ?_, recent := ?_, pending := ?_ },
    rfl,rfl,rfl,
    lookup_insert_of_notMem hs,fun hl => ⟨_,hl,le_rfl⟩⟩
  · intro slot' hs'
    simp only
    rcases (AList.mem_insert _).mp hs' with rfl | hs'
    · split <;> omega
    · have := h.decided_lt hs'
      split <;> omega
  · intro slot' hm hd
    obtain ⟨hne,hm⟩ := AList.mem_erase.mp hm
    rcases (AList.mem_insert _).mp hd with rfl | hd
    · exact hne rfl
    · exact h.apart hm hd
  · intro slot' hp
    simp only
    have hlt : slot' < p.nextSlot := by
      by_cases hne : slot' = slot
      · subst hne
        simp [PaxosProtocol.instanceAt,AList.lookup_erase,PaxosInstance.new] at hp
      · refine h.proposer ?_
        rw [← PaxosProtocol.instanceAt_removeInstance_ne _ hne]
        exact hp
    split <;> omega
  · intro d hd
    rcases List.mem_append.mp hd with hd | hd
    · exact lookup_insert_of_notMem hs (h.recent d hd)
    · rw [List.mem_singleton.mp hd]
      exact AList.lookup_insert _
  · intro d hd
    rcases List.mem_append.mp hd with hd | hd
    · exact lookup_insert_of_notMem hs (h.pending d hd)
    · rw [List.mem_singleton.mp hd]
      exact AList.lookup_insert _

omit [DecidableEq V] in
theorem Keeps.lose (h : Tidy p) (values : List V) : Keeps p (p.lose values) :=
  { Keeps.refl h with tidy := { h with } }

theorem PaxosProtocol.conclude_votes (p : PaxosProtocol V) (env : PaxosEnv) (slot : ℕ) (value : V) :
    (p.conclude env slot value).1.record.votes = p.record.votes := by
  obtain ⟨forwarded,_,heq⟩ := p.conclude_frame env slot value
  rw [heq]

theorem Keeps.selfAccept (h : Tidy p) (env : PaxosEnv) {slot : ℕ} (hs : slot ∉ p.decidedSlots)
    {inst : PaxosInstance V} (hp : inst.isProposer = true → slot < p.nextSlot)
    (pn : ProposalNumber) (value : V) : Keeps p (p.selfAccept env slot inst pn value).1 := by
  have hvote := Keeps.vote h hs (show (inst.selfVote p.nodeId pn value).isProposer = true → _ from hp) pn value
  unfold PaxosProtocol.selfAccept
  simp only
  split
  · exact hvote.trans (.conclude hvote.tidy env hs value)
  · exact hvote

theorem Move.keeps {R : Rules V} {env : PaxosEnv} {input : Input V}
    {out : List (Outgoing (PaxosMessage V))} (h : Tidy p)
    (hm : Move R env input p q out) : Keeps p q := by
  cases hm with
  | aside hq => exact .frame h hq
  | tend hs hi => exact .putInstance h hs fun hp => h.proposer (hi.isProposer ▸ hp)
  | promise _ hs => exact .putInstance h hs fun hp => h.proposer hp
  | accept _ hs =>
    refine .vote h hs ?_ _ _
    exact fun hp => h.proposer hp
  | count _ hl =>
    exact .putInstance h (h.not_decided hl) fun hp => h.proposer_of_lookup hl hp
  | phase2 hl => exact .selfAccept h env (h.not_decided hl) (h.proposer_of_lookup hl) _ _
  | offer => exact .refl h
  | belated _ hl => exact .conclude h env (h.not_decided hl) _
  | tally _ hl =>
    exact .putInstance h (h.not_decided hl) fun hp => h.proposer_of_lookup hl hp
  | settle _ hl => exact .conclude h env (h.not_decided hl) _
  | learn _ hs =>
    exact (Keeps.lose h _).trans (.conclude (Keeps.lose h _).tidy env hs _)
  | missing => exact { Keeps.refl h with tidy := { h with } }
  | forward => exact { Keeps.refl h with tidy := { h with } }
  | claim => exact .allocated h (.putInstance h.allocate h.next_not_decided fun _ => Nat.lt_succ_self _)
  | lead =>
    exact .allocated h (.selfAccept h.allocate env h.next_not_decided (fun _ => Nat.lt_succ_self _) _ _)
  | retry hl hp =>
    exact .putInstance h (h.not_decided hl) fun _ => h.proposer_of_lookup hl hp
  | campaign => exact .campaign h env
  | submit _ _ hfree => exact .submit h env _ hfree
  | poll _ he =>
    exact { Keeps.refl h with tidy := { h with
      leader := fun ht => by
        have hnone := (h.leader ht).2
        rw [he] at hnone
        cases hnone
      election := fun he' => by
        cases he'
        obtain ⟨hprom,hown⟩ := h.election he
        exact ⟨hprom,hown⟩ } }
  | elect he => exact .takeOffice h env he
  | replay hr hv hl ho hs hlt =>
    unfold PaxosProtocol.replayAccept
    rw [if_neg hs]
    exact .selfAccept h env hs (fun _ => hlt) _ _

end
end Paxos
end Daccord
