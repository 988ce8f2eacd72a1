import Daccord.Messages

/-! The Paxos state machine of `protocol/paxos.rs`. The `multi-paxos` feature is
the field `multi`; the fields it guards exist in both builds here and stay at
their initial values without it. -/
namespace Daccord
namespace Paxos

/-- The `HashMap`s that are iterated over. -/
inductive Iteration
  | retries | accepted | recovered
  deriving DecidableEq, Repr

/-- What one call reads from the outside: the clock, the jitter drawn for a
slot, and the order in which a map keyed by slots is iterated. -/
structure PaxosEnv where
  now : ℕ
  jitter : ℕ → ℕ
  order : Iteration → ℕ → ℕ

def PaxosEnv.arrange (env : PaxosEnv) (it : Iteration) (slots : List ℕ) : List ℕ :=
  slots.insertionSort fun a b => env.order it a ≤ env.order it b

inductive LeaderState
  | leader (term : ℕ)
  | follower (leader : Option NodeId) (lastContact : ℕ)
  | candidate
  deriving DecidableEq, Repr

structure ForwardedProposal (V : Type) where
  sentAt : ℕ
  value : V

structure ElectionState (V : Type) where
  proposalNumber : ProposalNumber
  sinceSlot : ℕ
  promisesReceived : Finset NodeId
  accepted : List (ℕ × ProposalNumber × V)

structure PaxosInstance (V : Type) where
  proposalNumber : ProposalNumber
  promisesReceived : Finset NodeId
  acceptsReceived : Finset NodeId
  highestAccepted : Option (ProposalNumber × V)
  proposedValue : Option V
  highestPromised : Option ProposalNumber
  accepted : Option (ProposalNumber × V)
  decided : Bool
  isProposer : Bool
  nacked : Bool
  highestSeenNack : Option ℕ
  lastNackTime : Option ℕ
  retryCount : ℕ
  lastSendTime : Option ℕ
  nextRetryAt : Option ℕ

/-- A pair written to the `accepted` field of a slot. -/
structure Vote (V : Type) where
  slot : ℕ
  number : ProposalNumber
  value : V
  deriving DecidableEq

/-- A completed leader election and the values it went on to replay. -/
structure Election (V : Type) where
  number : ProposalNumber
  sinceSlot : ℕ
  replayed : List (ℕ × V)
  deriving DecidableEq

/-- History, which no method reads: what was voted for, which elections were
completed, whether an `unwrap` has failed, and whether it was the one of
`proposed_value` in phase 2. -/
structure Record (V : Type) where
  votes : List (Vote V)
  elections : List (Election V)
  panicked : Bool
  valueMissing : Bool

/-- Milliseconds. -/
structure PaxosConfig where
  heartbeatInterval : ℕ

/-- `storage` is kept outside, in the process that owns the protocol. -/
structure PaxosProtocol (V : Type) where
  multi : Bool
  nodeId : NodeId
  instances : AList fun _ : ℕ => PaxosInstance V
  nextSlot : ℕ
  quorumSize : ℕ
  decidedSlots : AList fun _ : ℕ => V
  pendingDecisions : List (Decision V)
  lostProposals : List V
  recentDecisions : List (ℕ × ℕ × V)
  leaderState : LeaderState
  highestSeenRound : ℕ
  lastHeartbeatTime : Option ℕ
  forwardedProposals : List (ForwardedProposal V)
  leaderPromise : Option ProposalNumber
  election : Option (ElectionState V)
  electionStartedAt : Option ℕ
  heartbeatInterval : ℕ
  record : Record V

abbrev Reply (V : Type) := PaxosProtocol V × List (Outgoing (PaxosMessage V))

variable {V : Type}

def Reply.andThen (r : Reply V) (f : PaxosProtocol V → Reply V) : Reply V :=
  ((f r.1).1,r.2 ++ (f r.1).2)

/-- A `for` loop that extends `out`. -/
def runAll {A : Type} (f : A → PaxosProtocol V → Reply V) (p : PaxosProtocol V) :
    List A → Reply V
  | [] => (p,[])
  | a :: rest => ((runAll f (f a p).1 rest).1,(f a p).2 ++ (runAll f (f a p).1 rest).2)

/-- Earliest retry: `base` plus up to half of it. -/
def retryAt (env : PaxosEnv) (slot base : ℕ) : ℕ :=
  env.now + (base + env.jitter slot % (base / 2 + 1))

def backoff (retryCount : ℕ) : ℕ := 100 * 2 ^ min retryCount 3

namespace PaxosInstance

def new : PaxosInstance V where
  proposalNumber := .mk 0 ⟨"",0⟩
  promisesReceived := ∅
  acceptsReceived := ∅
  highestAccepted := none
  proposedValue := none
  highestPromised := none
  accepted := none
  decided := false
  isProposer := false
  nacked := false
  highestSeenNack := none
  lastNackTime := none
  retryCount := 0
  lastSendTime := none
  nextRetryAt := none

def vote (inst : PaxosInstance V) (pn : ProposalNumber) (value : V) : PaxosInstance V :=
  { inst with highestPromised := some pn, accepted := some (pn,value) }

def selfVote (inst : PaxosInstance V) (self : NodeId) (pn : ProposalNumber) (value : V) :
    PaxosInstance V :=
  { inst.vote pn value with acceptsReceived := insert self inst.acceptsReceived }

def adopt (inst : PaxosInstance V) (accepted : Option (ProposalNumber × V)) :
    Option (ProposalNumber × V) :=
  match accepted with
  | none => inst.highestAccepted
  | some (pn,val) =>
    match inst.highestAccepted with
    | none => some (pn,val)
    | some (existing,_) => if existing < pn then some (pn,val) else inst.highestAccepted

def recordPromise (inst : PaxosInstance V) (sender : NodeId)
    (accepted : Option (ProposalNumber × V)) : PaxosInstance V :=
  { inst with
    promisesReceived := insert sender inst.promisesReceived
    highestAccepted := inst.adopt accepted }

def phase2Value (inst : PaxosInstance V) : Option V :=
  match inst.highestAccepted with
  | some (_,v) => some v
  | none => inst.proposedValue

/-- `is_none_or(|hp| pn >= *hp)`. -/
def permits (promised : Option ProposalNumber) (pn : ProposalNumber) : Bool :=
  match promised with
  | none => true
  | some hp => decide (hp ≤ pn)

end PaxosInstance

namespace PaxosProtocol

def new (multi : Bool) (env : PaxosEnv) (nodeId : NodeId) (totalNodes : ℕ) (config : PaxosConfig) :
    PaxosProtocol V where
  multi := multi
  nodeId := nodeId
  instances := ∅
  nextSlot := 0
  quorumSize := totalNodes / 2 + 1
  decidedSlots := ∅
  pendingDecisions := []
  lostProposals := []
  recentDecisions := []
  leaderState := .follower none env.now
  highestSeenRound := 0
  lastHeartbeatTime := none
  forwardedProposals := []
  leaderPromise := none
  election := none
  electionStartedAt := none
  heartbeatInterval := config.heartbeatInterval
  record := ⟨[],[],false,false⟩

/-- `get_or_create_instance`, for reading. -/
def instanceAt (p : PaxosProtocol V) (slot : ℕ) : PaxosInstance V :=
  (p.instances.lookup slot).getD .new

def putInstance (p : PaxosProtocol V) (slot : ℕ) (inst : PaxosInstance V) : PaxosProtocol V :=
  { p with instances := p.instances.insert slot inst }

def removeInstance (p : PaxosProtocol V) (slot : ℕ) : PaxosProtocol V :=
  { p with instances := p.instances.erase slot }

def panic (p : PaxosProtocol V) : Reply V :=
  ({ p with record := { p.record with panicked := true } },[])

/-- The `unwrap` of `proposed_value` in phase 2 has failed. -/
def missValue (p : PaxosProtocol V) : Reply V :=
  ({ p with record := { p.record with panicked := true, valueMissing := true } },[])

def noteVote (p : PaxosProtocol V) (slot : ℕ) (pn : ProposalNumber) (value : V) :
    PaxosProtocol V :=
  { p with record := { p.record with votes := p.record.votes ++ [⟨slot,pn,value⟩] } }

def handlePrepare (p : PaxosProtocol V) (sender : NodeId) (slot : ℕ) (pn : ProposalNumber) :
    Reply V :=
  match p.decidedSlots.lookup slot with
  | some value => (p,[⟨.peer sender,.decide slot value⟩])
  | none =>
    let inst := p.instanceAt slot
    let granted : Reply V :=
      (p.putInstance slot { inst with highestPromised := some pn },
        [⟨.peer sender,.promise slot pn inst.accepted⟩])
    match inst.highestPromised with
    | none => granted
    | some hp =>
      if hp < pn then granted
      else (p.putInstance slot inst,[⟨.peer sender,.nackPrepare slot pn hp⟩])

/-- Promise of the slot and, in the `multi-paxos` build, of the leader. -/
def effectiveFloor (p : PaxosProtocol V) (slot : ℕ) : Option ProposalNumber :=
  let perSlot := (p.instanceAt slot).highestPromised
  if p.multi then
    match perSlot, p.leaderPromise with
    | some a, some b => some (if b ≤ a then a else b)
    | some a, none => some a
    | none, some b => some b
    | none, none => none
  else perSlot

def handleAccept (p : PaxosProtocol V) (sender : NodeId) (slot : ℕ) (pn : ProposalNumber)
    (value : V) : Reply V :=
  match p.decidedSlots.lookup slot with
  | some decidedValue => (p,[⟨.peer sender,.decide slot decidedValue⟩])
  | none =>
    let inst := p.instanceAt slot
    let granted : Reply V :=
      ((p.putInstance slot (inst.vote pn value)).noteVote slot pn value,
        [⟨.peer sender,.accepted slot pn value⟩])
    match p.effectiveFloor slot with
    | none => granted
    | some hp =>
      if hp ≤ pn then granted
      else (p.putInstance slot inst,[⟨.peer sender,.nackAccept slot pn hp⟩])

section
variable [DecidableEq V]

def ackDecidedValue (p : PaxosProtocol V) (value : V) : PaxosProtocol V :=
  { p with forwardedProposals := p.forwardedProposals.eraseP fun f => f.value = value }

def decide (env : PaxosEnv) (p : PaxosProtocol V) (slot : ℕ) (value : V) : PaxosProtocol V :=
  let p := { p with
    decidedSlots := p.decidedSlots.insert slot value
    recentDecisions := p.recentDecisions ++ [(env.now,slot,value)]
    nextSlot := if p.nextSlot ≤ slot then slot + 1 else p.nextSlot }
  let p := if p.multi then p.ackDecidedValue value else p
  { p with pendingDecisions := p.pendingDecisions ++ [⟨slot,value⟩] }

def conclude (env : PaxosEnv) (p : PaxosProtocol V) (slot : ℕ) (value : V) : Reply V :=
  ((p.decide env slot value).removeInstance slot,[⟨.broadcast,.decide slot value⟩])

/-- Vote for an own proposal, and decide it if that completes the quorum. -/
def selfAccept (env : PaxosEnv) (p : PaxosProtocol V) (slot : ℕ) (inst : PaxosInstance V)
    (pn : ProposalNumber) (value : V) : Reply V :=
  let inst := inst.selfVote p.nodeId pn value
  let p := (p.putInstance slot inst).noteVote slot pn value
  if p.quorumSize ≤ inst.acceptsReceived.card then p.conclude env slot value
  else (p,[⟨.broadcast,.accept slot pn value⟩])

def startPhase2 (env : PaxosEnv) (p : PaxosProtocol V) (slot : ℕ) : Reply V :=
  match p.instances.lookup slot with
  | none => p.panic
  | some inst =>
    match inst.phase2Value with
    | none => p.missValue
    | some value =>
      let pn := inst.proposalNumber
      let canSelfAccept := PaxosInstance.permits inst.highestPromised pn
      if canSelfAccept then p.selfAccept env slot inst pn value
      else if p.quorumSize ≤ inst.acceptsReceived.card then p.conclude env slot value
      else (p,[⟨.broadcast,.accept slot pn value⟩])

def handlePromise (env : PaxosEnv) (p : PaxosProtocol V) (sender : NodeId) (slot : ℕ)
    (pn : ProposalNumber) (accepted : Option (ProposalNumber × V)) : Reply V :=
  if slot ∈ p.decidedSlots then (p,[])
  else match p.instances.lookup slot with
    | none => (p,[])
    | some inst =>
      if inst.proposalNumber = pn ∧ inst.decided = false then
        let inst := inst.recordPromise sender accepted
        let p := p.putInstance slot inst
        if p.quorumSize ≤ inst.promisesReceived.card then p.startPhase2 env slot else (p,[])
      else (p,[])

def handleAccepted (env : PaxosEnv) (p : PaxosProtocol V) (sender : NodeId) (slot : ℕ)
    (pn : ProposalNumber) (_value : V) : Reply V :=
  if slot ∈ p.decidedSlots then (p,[])
  else match p.instances.lookup slot with
    | none => (p,[])
    | some inst =>
      if inst.proposalNumber = pn ∧ inst.decided = false then
        let inst := { inst with acceptsReceived := insert sender inst.acceptsReceived }
        if p.quorumSize ≤ inst.acceptsReceived.card then
          match inst.accepted with
          | none => (p.putInstance slot inst).panic
          | some (_,value) =>
            (p.putInstance slot { inst with decided := true }).conclude env slot value
        else (p.putInstance slot inst,[])
      else (p,[])

/-- A `Decide` from the leader we know counts as contact. -/
def touchLeader (env : PaxosEnv) (p : PaxosProtocol V) (sender : NodeId) : PaxosProtocol V :=
  match p.leaderState with
  | .follower (some leader) _ =>
    if leader = sender then { p with leaderState := .follower (some leader) env.now } else p
  | _ => p

def handleDecide (env : PaxosEnv) (p : PaxosProtocol V) (sender : NodeId) (slot : ℕ) (value : V) :
    PaxosProtocol V :=
  let p := if p.multi then p.touchLeader env sender else p
  if slot ∈ p.decidedSlots then p
  else
    let lost := match p.instances.lookup slot with
      | some inst =>
        match inst.proposedValue with
        | some proposed => if inst.isProposer ∧ proposed ≠ value then [proposed] else []
        | none => []
      | none => []
    let p := { p with lostProposals := p.lostProposals ++ lost }
    (p.decide env slot value).removeInstance slot

end

def stepDown (env : PaxosEnv) (p : PaxosProtocol V) (newLeader : Option NodeId) :
    PaxosProtocol V :=
  { p with leaderState := .follower newLeader env.now }

def isLeader (p : PaxosProtocol V) : Bool :=
  match p.leaderState with
  | .leader _ => true
  | _ => false

def updateHighestSeenRound (p : PaxosProtocol V) (round : ℕ) : PaxosProtocol V :=
  { p with highestSeenRound := max p.highestSeenRound round }

def handleNack (env : PaxosEnv) (p : PaxosProtocol V) (slot : ℕ)
    (highestPromised : ProposalNumber) : PaxosProtocol V :=
  let round := highestPromised.round
  let p := match p.instances.lookup slot with
    | none => p
    | some inst =>
      p.putInstance slot { inst with
        nacked := true
        lastNackTime := some env.now
        highestSeenNack := match inst.highestSeenNack with
          | none => some round
          | some r => if r < round then some round else some r
        nextRetryAt := some (retryAt env slot (backoff inst.retryCount)) }
  if p.multi then
    let p := p.updateHighestSeenRound round
    if p.isLeader then p.stepDown env none else p
  else p

section
variable [DecidableEq V]

/-- The proposer's side of an instance when a value is proposed in it. -/
def claim (env : PaxosEnv) (inst : PaxosInstance V) (slot : ℕ) (pn : ProposalNumber) (value : V) :
    PaxosInstance V :=
  { inst with
    proposalNumber := pn
    proposedValue := some value
    isProposer := true
    lastSendTime := some env.now
    nextRetryAt := some (retryAt env slot 100) }

/-- A claim that the proposer has promised to itself. -/
def prepared (env : PaxosEnv) (p : PaxosProtocol V) (slot : ℕ) (pn : ProposalNumber) (value : V) :
    PaxosInstance V :=
  let inst := claim env (p.instanceAt slot) slot pn value
  { inst with
    highestPromised := some pn
    promisesReceived := insert p.nodeId inst.promisesReceived }

def proposeFullPaxos (env : PaxosEnv) (p : PaxosProtocol V) (value : V) : Reply V :=
  let slot := p.nextSlot
  let p := { p with nextSlot := p.nextSlot + 1 }
  let pn := .mk 1 p.nodeId
  let inst := p.prepared env slot pn value
  let p := p.putInstance slot inst
  if p.quorumSize ≤ inst.promisesReceived.card then p.startPhase2 env slot
  else (p,[⟨.broadcast,.prepare slot pn⟩])

/-- A claim under a number that the election has prepared for every slot. -/
def fastTracked (env : PaxosEnv) (p : PaxosProtocol V) (slot : ℕ) (pn : ProposalNumber)
    (value : V) : PaxosInstance V :=
  let inst := claim env (p.instanceAt slot) slot pn value
  { inst with promisesReceived := insert p.nodeId inst.promisesReceived }

def proposeFastPath (env : PaxosEnv) (p : PaxosProtocol V) (value : V) (term : ℕ) : Reply V :=
  let slot := p.nextSlot
  let p := { p with nextSlot := p.nextSlot + 1 }
  let pn := .mk term p.nodeId
  p.selfAccept env slot (p.fastTracked env slot pn value) pn value

def innerPropose (env : PaxosEnv) (p : PaxosProtocol V) (value : V) : Reply V :=
  if p.multi then
    match p.leaderState with
    | .leader term => p.proposeFastPath env value term
    | _ => p.proposeFullPaxos env value
  else p.proposeFullPaxos env value

def retryable (env : PaxosEnv) (quorumSize : ℕ) (inst : PaxosInstance V) : Bool :=
  if inst.decided || !inst.isProposer then false
  else match inst.nextRetryAt with
    | none => false
    | some retryAt =>
      if env.now < retryAt then false
      else if inst.nacked then true
      else
        let inPhase2 := inst.acceptsReceived ≠ ∅
        let hasRelevantQuorum :=
          if inPhase2 then quorumSize ≤ inst.acceptsReceived.card
          else quorumSize ≤ inst.promisesReceived.card
        !Decidable.decide hasRelevantQuorum

def getRetryableProposals (env : PaxosEnv) (p : PaxosProtocol V) : List ℕ :=
  (env.arrange .retries p.instances.keys).filter fun slot =>
    retryable env p.quorumSize (p.instanceAt slot)

/-- `Decide`s not older than five seconds are sent again. -/
def getDecisionRebroadcasts (env : PaxosEnv) (p : PaxosProtocol V) : Reply V :=
  let recent := p.recentDecisions.filter fun d => env.now - d.1 < 5000
  ({ p with recentDecisions := recent },recent.map fun d => ⟨.broadcast,.decide d.2.1 d.2.2⟩)

/-- The number of the next round: above the promise, the nacks and the last try. -/
def retryNumber (p : PaxosProtocol V) (inst : PaxosInstance V) : ProposalNumber :=
  let acceptorRound := (inst.highestPromised.map ProposalNumber.round).getD 0
  let nackRound := inst.highestSeenNack.getD 0
  let proposerRound := inst.proposalNumber.round
  .mk (max (max acceptorRound nackRound) proposerRound + 1) p.nodeId

def retried (env : PaxosEnv) (p : PaxosProtocol V) (slot : ℕ) (inst : PaxosInstance V) :
    PaxosInstance V :=
  { inst with
    proposalNumber := p.retryNumber inst
    promisesReceived := {p.nodeId}
    acceptsReceived := ∅
    highestAccepted := none
    nacked := false
    highestSeenNack := none
    lastNackTime := none
    retryCount := inst.retryCount + 1
    lastSendTime := some env.now
    nextRetryAt := some (retryAt env slot (backoff (inst.retryCount + 1)))
    highestPromised := some (p.retryNumber inst) }

def retryProposal (env : PaxosEnv) (slot : ℕ) (p : PaxosProtocol V) : Reply V :=
  match p.instances.lookup slot with
  | none => (p,[])
  | some inst =>
    if inst.decided = false ∧ inst.isProposer then
      let inst := p.retried env slot inst
      let p := p.putInstance slot inst
      if p.quorumSize ≤ inst.promisesReceived.card then p.startPhase2 env slot
      else (p,[⟨.broadcast,.prepare slot inst.proposalNumber⟩])
    else (p,[])

end

def becomeLeader (p : PaxosProtocol V) (term : ℕ) : PaxosProtocol V :=
  { p with
    leaderState := .leader term
    highestSeenRound := max p.highestSeenRound term
    lastHeartbeatTime := none }

def updateLeaderContact (env : PaxosEnv) (p : PaxosProtocol V) (sender : NodeId) (term : ℕ) :
    PaxosProtocol V :=
  let p := p.updateHighestSeenRound term
  match p.leaderState with
  | .leader myTerm => if myTerm < term then p.stepDown env (some sender) else p
  | _ => { p with leaderState := .follower (some sender) env.now }

def getLeader (p : PaxosProtocol V) : Option NodeId :=
  match p.leaderState with
  | .leader _ => some p.nodeId
  | .follower leader _ => leader
  | .candidate => none

def shouldSendHeartbeat (env : PaxosEnv) (p : PaxosProtocol V) : Bool :=
  match p.leaderState with
  | .leader _ =>
    match p.lastHeartbeatTime with
    | some t => Decidable.decide (p.heartbeatInterval ≤ env.now - t)
    | none => true
  | _ => false

def makeHeartbeat (env : PaxosEnv) (p : PaxosProtocol V) : Reply V :=
  match p.leaderState with
  | .leader term =>
    ({ p with lastHeartbeatTime := some env.now },[⟨.broadcast,.heartbeat term⟩])
  | _ => (p,[])

def checkLeaderTimeout (env : PaxosEnv) (p : PaxosProtocol V) : Bool :=
  match p.leaderState with
  | .follower (some _) lastContact => Decidable.decide (500 ≤ env.now - lastContact)
  | .follower none lastContact =>
    !p.instances.keys.isEmpty && Decidable.decide (500 ≤ env.now - lastContact)
  | _ => false

def collectAcceptedForPromise (env : PaxosEnv) (p : PaxosProtocol V) (sinceSlot : ℕ) :
    List (ℕ × ProposalNumber × V) :=
  (env.arrange .accepted p.instances.keys).filterMap fun slot =>
    if slot < sinceSlot then none
    else if slot ∈ p.decidedSlots then none
    else (p.instanceAt slot).accepted.map fun a => (slot,a.1,a.2)

def keepHighest (p : PaxosProtocol V) (m : AList fun _ : ℕ => ProposalNumber × V)
    (r : ℕ × ProposalNumber × V) : AList fun _ : ℕ => ProposalNumber × V :=
  if r.1 ∈ p.decidedSlots then m
  else match m.lookup r.1 with
    | some existing => if r.2.1 ≤ existing.1 then m else m.insert r.1 r.2
    | none => m.insert r.1 r.2

/-- The highest report for each slot that is not decided here. -/
def highestPerSlot (p : PaxosProtocol V) (accepted : List (ℕ × ProposalNumber × V)) :
    AList fun _ : ℕ => ProposalNumber × V :=
  accepted.foldl p.keepHighest ∅

def advancePast (nextSlot : ℕ) : Option ℕ → ℕ
  | some last => if nextSlot < last + 1 then last + 1 else nextSlot
  | none => nextSlot

section
variable [DecidableEq V]

/-- A claim for a value found by the election; what was received before is void. -/
def replayed (env : PaxosEnv) (p : PaxosProtocol V) (slot : ℕ) (pn : ProposalNumber) (value : V) :
    PaxosInstance V :=
  { claim env (p.instanceAt slot) slot pn value with
    acceptsReceived := ∅
    promisesReceived := {p.nodeId} }

def replayAccept (env : PaxosEnv) (pn : ProposalNumber) (recovered : ℕ × V)
    (p : PaxosProtocol V) : Reply V :=
  let slot := recovered.1
  let value := recovered.2
  if slot ∈ p.decidedSlots then (p,[])
  else p.selfAccept env slot (p.replayed env slot pn value) pn value

def recoveredSlots (env : PaxosEnv) (highest : AList fun _ : ℕ => ProposalNumber × V) :
    List (ℕ × V) :=
  (env.arrange .recovered highest.keys).filterMap fun slot =>
    (highest.lookup slot).map fun r => (slot,r.2)

/-- The leader that a finished election makes, before it replays anything. -/
def takeOffice (env : PaxosEnv) (p : PaxosProtocol V) (e : ElectionState V) : PaxosProtocol V :=
  let p := { p with election := none, electionStartedAt := none }
  let highest := p.highestPerSlot e.accepted
  let p := { p with nextSlot := advancePast p.nextSlot highest.keys.max? }
  let p := { p with nextSlot := advancePast p.nextSlot p.instances.keys.max? }
  let p := p.becomeLeader e.proposalNumber.round
  { p with record := { p.record with
    elections := p.record.elections ++
      [⟨e.proposalNumber,e.sinceSlot,recoveredSlots env highest⟩] } }

def completeLeaderElection (env : PaxosEnv) (p : PaxosProtocol V) : Reply V :=
  match p.election with
  | none => (p,[])
  | some e =>
    runAll (replayAccept env e.proposalNumber) (p.takeOffice env e)
      (recoveredSlots env (p.highestPerSlot e.accepted))

def candidacy (env : PaxosEnv) (p : PaxosProtocol V) : ElectionState V :=
  let sinceSlot := p.instances.keys.min?.getD p.nextSlot
  { proposalNumber := .mk (p.highestSeenRound + 1) p.nodeId
    sinceSlot := sinceSlot
    promisesReceived := {p.nodeId}
    accepted := p.collectAcceptedForPromise env sinceSlot }

/-- The candidate with its own promise, before anyone has answered. -/
def campaign (env : PaxosEnv) (p : PaxosProtocol V) : PaxosProtocol V :=
  let election := p.candidacy env
  let pn := election.proposalNumber
  let p := { p with
    leaderState := .candidate
    election := some election
    electionStartedAt := some env.now
    leaderPromise := match p.leaderPromise with
      | none => some pn
      | some hp => if hp < pn then some pn else some hp }
  p.updateHighestSeenRound pn.round

def startElection (env : PaxosEnv) (p : PaxosProtocol V) : Reply V :=
  let election := p.candidacy env
  let p := p.campaign env
  if p.quorumSize ≤ election.promisesReceived.card then p.completeLeaderElection env
  else (p,[⟨.broadcast,.prepareLeader election.proposalNumber election.sinceSlot⟩])

def checkElectionTimeout (env : PaxosEnv) (p : PaxosProtocol V) : PaxosProtocol V :=
  match p.electionStartedAt with
  | none => p
  | some t =>
    if 500 ≤ env.now - t ∧ p.election.isSome then
      { p with
        election := none
        electionStartedAt := none
        leaderState := .follower none env.now }
    else p

def yieldElection (p : PaxosProtocol V) (pn : ProposalNumber) : PaxosProtocol V :=
  match p.election with
  | some e =>
    if e.proposalNumber < pn then { p with election := none, electionStartedAt := none } else p
  | none => p

/-- The node after it has granted a leader promise. -/
def submit (env : PaxosEnv) (p : PaxosProtocol V) (sender : NodeId) (pn : ProposalNumber) :
    PaxosProtocol V :=
  let p := { p with leaderPromise := some pn }
  let p := p.updateHighestSeenRound pn.round
  let p := if p.isLeader then p.stepDown env (some sender) else p
  p.yieldElection pn

def handlePrepareLeader (env : PaxosEnv) (p : PaxosProtocol V) (sender : NodeId)
    (pn : ProposalNumber) (sinceSlot : ℕ) : Reply V :=
  let granted : Reply V :=
    let p := p.submit env sender pn
    (p,[⟨.peer sender,.promiseLeader pn (p.collectAcceptedForPromise env sinceSlot)⟩])
  match p.leaderPromise with
  | none => granted
  | some hp => if hp < pn then granted else (p,[⟨.peer sender,.nackLeader pn hp⟩])

def handlePromiseLeader (env : PaxosEnv) (p : PaxosProtocol V) (sender : NodeId)
    (pn : ProposalNumber) (accepted : List (ℕ × ProposalNumber × V)) : Reply V :=
  match p.election with
  | none => (p,[])
  | some e =>
    if e.proposalNumber = pn then
      let e := { e with
        promisesReceived := insert sender e.promisesReceived
        accepted := e.accepted ++ accepted }
      let p := { p with election := some e }
      if p.quorumSize ≤ e.promisesReceived.card then p.completeLeaderElection env else (p,[])
    else (p,[])

def handleNackLeader (env : PaxosEnv) (p : PaxosProtocol V) (highestPromised : ProposalNumber) :
    PaxosProtocol V :=
  let p := p.updateHighestSeenRound highestPromised.round
  let p := { p with election := none, electionStartedAt := none }
  match p.leaderState with
  | .candidate => { p with leaderState := .follower none env.now }
  | _ => p

def handleHeartbeat (env : PaxosEnv) (p : PaxosProtocol V) (sender : NodeId) (term : ℕ) :
    PaxosProtocol V :=
  if p.highestSeenRound ≤ term then p.updateLeaderContact env sender term else p

def handleForward (env : PaxosEnv) (p : PaxosProtocol V) (value : V) : Reply V :=
  if p.isLeader then p.innerPropose env value else (p,[])

def proposeOrForward (env : PaxosEnv) (p : PaxosProtocol V) (value : V) : Reply V :=
  match p.getLeader with
  | some leader =>
    if leader ≠ p.nodeId then
      ({ p with forwardedProposals := p.forwardedProposals ++ [⟨env.now,value⟩] },
        [⟨.peer leader,.forward value⟩])
    else p.innerPropose env value
  | none => p.innerPropose env value

def timedOut (env : PaxosEnv) (p : PaxosProtocol V) : List V :=
  (p.forwardedProposals.filter fun f => 1000 ≤ env.now - f.sentAt).map ForwardedProposal.value

def handleForwardedProposalTimeouts (env : PaxosEnv) (p : PaxosProtocol V) : Reply V :=
  let timedOut := p.timedOut env
  let p := { p with
    forwardedProposals := p.forwardedProposals.filter fun f => env.now - f.sentAt < 1000 }
  runAll (fun value p => p.innerPropose env value) p timedOut

def propose (env : PaxosEnv) (p : PaxosProtocol V) (value : V) : Reply V :=
  if p.multi then p.proposeOrForward env value else p.innerPropose env value

/-- The last five variants cannot be decoded without the `multi-paxos` feature. -/
def handleMessage (env : PaxosEnv) (p : PaxosProtocol V) (sender : NodeId) :
    PaxosMessage V → Reply V
  | .prepare slot pn => p.handlePrepare sender slot pn
  | .promise slot pn accepted => p.handlePromise env sender slot pn accepted
  | .accept slot pn value => p.handleAccept sender slot pn value
  | .accepted slot pn value => p.handleAccepted env sender slot pn value
  | .decide slot value => (p.handleDecide env sender slot value,[])
  | .nackPrepare slot _ highestPromised => (p.handleNack env slot highestPromised,[])
  | .nackAccept slot _ highestPromised => (p.handleNack env slot highestPromised,[])
  | .forward value => if p.multi then p.handleForward env value else (p,[])
  | .heartbeat term => if p.multi then (p.handleHeartbeat env sender term,[]) else (p,[])
  | .prepareLeader pn sinceSlot =>
    if p.multi then p.handlePrepareLeader env sender pn sinceSlot else (p,[])
  | .promiseLeader pn accepted =>
    if p.multi then p.handlePromiseLeader env sender pn accepted else (p,[])
  | .nackLeader _ highestPromised =>
    if p.multi then (p.handleNackLeader env highestPromised,[]) else (p,[])

/-- The part of `on_tick` that belongs to the `multi-paxos` feature. -/
def onTickMulti (env : PaxosEnv) (p : PaxosProtocol V) : Reply V :=
  let r : Reply V := if p.shouldSendHeartbeat env then p.makeHeartbeat env else (p,[])
  let r := r.andThen fun p =>
    let p := p.checkElectionTimeout env
    if p.checkLeaderTimeout env then p.startElection env else (p,[])
  r.andThen (handleForwardedProposalTimeouts env)

def onTick (env : PaxosEnv) (p : PaxosProtocol V) : Reply V :=
  let r := runAll (retryProposal env) p (p.getRetryableProposals env)
  let r := r.andThen (getDecisionRebroadcasts env)
  if p.multi then r.andThen (onTickMulti env) else r

def takeDecisions (p : PaxosProtocol V) : PaxosProtocol V × List (Decision V) :=
  ({ p with pendingDecisions := [] },p.pendingDecisions)

def takeLostProposals (p : PaxosProtocol V) : PaxosProtocol V × List V :=
  ({ p with lostProposals := [] },p.lostProposals)

def initializeFromDecisions (p : PaxosProtocol V) (decisions : List (ℕ × V)) : PaxosProtocol V :=
  decisions.foldl (fun p d =>
    { p with
      decidedSlots := p.decidedSlots.insert d.1 d.2
      nextSlot := if p.nextSlot ≤ d.1 then d.1 + 1 else p.nextSlot }) p

end

end PaxosProtocol

inductive Input (V : Type)
  | propose (value : V)
  | message (sender : NodeId) (msg : PaxosMessage V)
  | tick

def PaxosProtocol.handle [DecidableEq V] (env : PaxosEnv) (p : PaxosProtocol V) :
    Input V → Reply V
  | .propose value => p.propose env value
  | .message sender msg => p.handleMessage env sender msg
  | .tick => p.onTick env

end Paxos
end Daccord
