import Daccord.Paxos
import Daccord.Runs

/-! The methods of `protocol/paxos.rs` that add to a counter, in `u64` arithmetic.
Each is the one of the same name with its sums made by the build; `none` is a
panic. -/
namespace Daccord
namespace Paxos
namespace Machine

variable {V : Type} (k : Profile)

def andThen (r : Reply V) (f : PaxosProtocol V → Option (Reply V)) : Option (Reply V) := do
  let r' ← f r.1
  return (r'.1,r.2 ++ r'.2)

def runAll {A : Type} (f : A → PaxosProtocol V → Option (Reply V)) (p : PaxosProtocol V) :
    List A → Option (Reply V)
  | [] => some (p,[])
  | a :: rest => do
    let r ← f a p
    andThen r fun q => runAll f q rest

section
variable [DecidableEq V]

def decide (env : PaxosEnv) (p : PaxosProtocol V) (slot : ℕ) (value : V) :
    Option (PaxosProtocol V) := do
  let next ← (if p.nextSlot ≤ slot then k.succ slot else some p.nextSlot)
  return { p.decide env slot value with nextSlot := next }

def conclude (env : PaxosEnv) (p : PaxosProtocol V) (slot : ℕ) (value : V) :
    Option (Reply V) := do
  let p ← decide k env p slot value
  return (p.removeInstance slot,[⟨.broadcast,.decide slot value⟩])

def selfAccept (env : PaxosEnv) (p : PaxosProtocol V) (slot : ℕ) (inst : PaxosInstance V)
    (pn : ProposalNumber) (value : V) : Option (Reply V) :=
  let inst := inst.selfVote p.nodeId pn value
  let p := (p.putInstance slot inst).noteVote slot pn value
  if p.quorumSize ≤ inst.acceptsReceived.card then conclude k env p slot value
  else some (p,[⟨.broadcast,.accept slot pn value⟩])

def startPhase2 (env : PaxosEnv) (p : PaxosProtocol V) (slot : ℕ) : Option (Reply V) :=
  match p.instances.lookup slot with
  | none => some p.panic
  | some inst =>
    match inst.phase2Value with
    | none => some p.missValue
    | some value =>
      let pn := inst.proposalNumber
      let canSelfAccept := PaxosInstance.permits inst.highestPromised pn
      if canSelfAccept then selfAccept k env p slot inst pn value
      else if p.quorumSize ≤ inst.acceptsReceived.card then conclude k env p slot value
      else some (p,[⟨.broadcast,.accept slot pn value⟩])

def handlePromise (env : PaxosEnv) (p : PaxosProtocol V) (sender : NodeId) (slot : ℕ)
    (pn : ProposalNumber) (accepted : Option (ProposalNumber × V)) : Option (Reply V) :=
  if slot ∈ p.decidedSlots then some (p,[])
  else match p.instances.lookup slot with
    | none => some (p,[])
    | some inst =>
      if inst.proposalNumber = pn ∧ inst.decided = false then
        let inst := inst.recordPromise sender accepted
        let p := p.putInstance slot inst
        if p.quorumSize ≤ inst.promisesReceived.card then startPhase2 k env p slot
        else some (p,[])
      else some (p,[])

def handleAccepted (env : PaxosEnv) (p : PaxosProtocol V) (sender : NodeId) (slot : ℕ)
    (pn : ProposalNumber) (_value : V) : Option (Reply V) :=
  if slot ∈ p.decidedSlots then some (p,[])
  else match p.instances.lookup slot with
    | none => some (p,[])
    | some inst =>
      if inst.proposalNumber = pn ∧ inst.decided = false then
        let inst := { inst with acceptsReceived := insert sender inst.acceptsReceived }
        if p.quorumSize ≤ inst.acceptsReceived.card then
          match inst.accepted with
          | none => some (p.putInstance slot inst).panic
          | some (_,value) =>
            conclude k env (p.putInstance slot { inst with decided := true }) slot value
        else some (p.putInstance slot inst,[])
      else some (p,[])

def handleDecide (env : PaxosEnv) (p : PaxosProtocol V) (sender : NodeId) (slot : ℕ) (value : V) :
    Option (Reply V) :=
  let p := if p.multi then p.touchLeader env sender else p
  if slot ∈ p.decidedSlots then some (p,[])
  else
    let lost := match p.instances.lookup slot with
      | some inst =>
        match inst.proposedValue with
        | some proposed => if inst.isProposer ∧ proposed ≠ value then [proposed] else []
        | none => []
      | none => []
    let p := { p with lostProposals := p.lostProposals ++ lost }
    do
      let p ← decide k env p slot value
      return (p.removeInstance slot,[])

def proposeFullPaxos (env : PaxosEnv) (p : PaxosProtocol V) (value : V) : Option (Reply V) := do
  let slot := p.nextSlot
  let next ← k.succ p.nextSlot
  let p := { p with nextSlot := next }
  let pn := .mk 1 p.nodeId
  let inst := p.prepared env slot pn value
  let p := p.putInstance slot inst
  if p.quorumSize ≤ inst.promisesReceived.card then startPhase2 k env p slot
  else return (p,[⟨.broadcast,.prepare slot pn⟩])

def proposeFastPath (env : PaxosEnv) (p : PaxosProtocol V) (value : V) (term : ℕ) :
    Option (Reply V) := do
  let slot := p.nextSlot
  let next ← k.succ p.nextSlot
  let p := { p with nextSlot := next }
  let pn := .mk term p.nodeId
  selfAccept k env p slot (p.fastTracked env slot pn value) pn value

def innerPropose (env : PaxosEnv) (p : PaxosProtocol V) (value : V) : Option (Reply V) :=
  if p.multi then
    match p.leaderState with
    | .leader term => proposeFastPath k env p value term
    | _ => proposeFullPaxos k env p value
  else proposeFullPaxos k env p value

def retryProposal (env : PaxosEnv) (slot : ℕ) (p : PaxosProtocol V) : Option (Reply V) :=
  match p.instances.lookup slot with
  | none => some (p,[])
  | some inst =>
    if inst.decided = false ∧ inst.isProposer then do
      let acceptorRound := (inst.highestPromised.map ProposalNumber.round).getD 0
      let nackRound := inst.highestSeenNack.getD 0
      let proposerRound := inst.proposalNumber.round
      let newRound ← k.succ (max (max acceptorRound nackRound) proposerRound)
      let pn := .mk newRound p.nodeId
      let inst := { p.retried env slot inst with
        proposalNumber := pn
        highestPromised := some pn }
      let p := p.putInstance slot inst
      if p.quorumSize ≤ inst.promisesReceived.card then startPhase2 k env p slot
      else return (p,[⟨.broadcast,.prepare slot inst.proposalNumber⟩])
    else some (p,[])

def advancePast (nextSlot : ℕ) : Option ℕ → Option ℕ
  | some last => do
    let next ← k.succ last
    return if nextSlot < next then next else nextSlot
  | none => some nextSlot

def takeOffice (env : PaxosEnv) (p : PaxosProtocol V) (e : ElectionState V) :
    Option (PaxosProtocol V) := do
  let next ← advancePast k p.nextSlot (p.highestPerSlot e.accepted).keys.max?
  let next ← advancePast k next p.instances.keys.max?
  return { p.takeOffice env e with nextSlot := next }

def replayAccept (env : PaxosEnv) (pn : ProposalNumber) (recovered : ℕ × V)
    (p : PaxosProtocol V) : Option (Reply V) :=
  let slot := recovered.1
  let value := recovered.2
  if slot ∈ p.decidedSlots then some (p,[])
  else selfAccept k env p slot (p.replayed env slot pn value) pn value

def completeLeaderElection (env : PaxosEnv) (p : PaxosProtocol V) : Option (Reply V) :=
  match p.election with
  | none => some (p,[])
  | some e => do
    let q ← takeOffice k env p e
    runAll (replayAccept k env e.proposalNumber) q
      (PaxosProtocol.recoveredSlots env (p.highestPerSlot e.accepted))

def campaign (env : PaxosEnv) (p : PaxosProtocol V) (election : ElectionState V) :
    PaxosProtocol V :=
  let pn := election.proposalNumber
  let p := { p with
    leaderState := .candidate
    election := some election
    electionStartedAt := some env.now
    leaderPromise := match p.leaderPromise with
      | none => some pn
      | some hp => if hp < pn then some pn else some hp }
  p.updateHighestSeenRound pn.round

def startElection (env : PaxosEnv) (p : PaxosProtocol V) : Option (Reply V) := do
  let round ← k.succ p.highestSeenRound
  let election := { p.candidacy env with proposalNumber := .mk round p.nodeId }
  let p := campaign env p election
  if p.quorumSize ≤ election.promisesReceived.card then completeLeaderElection k env p
  else return (p,[⟨.broadcast,.prepareLeader election.proposalNumber election.sinceSlot⟩])

def handlePromiseLeader (env : PaxosEnv) (p : PaxosProtocol V) (sender : NodeId)
    (pn : ProposalNumber) (accepted : List (ℕ × ProposalNumber × V)) : Option (Reply V) :=
  match p.election with
  | none => some (p,[])
  | some e =>
    if e.proposalNumber = pn then
      let e := { e with
        promisesReceived := insert sender e.promisesReceived
        accepted := e.accepted ++ accepted }
      let p := { p with election := some e }
      if p.quorumSize ≤ e.promisesReceived.card then completeLeaderElection k env p
      else some (p,[])
    else some (p,[])

def handleForward (env : PaxosEnv) (p : PaxosProtocol V) (value : V) : Option (Reply V) :=
  if p.isLeader then innerPropose k env p value else some (p,[])

def proposeOrForward (env : PaxosEnv) (p : PaxosProtocol V) (value : V) : Option (Reply V) :=
  match p.getLeader with
  | some leader =>
    if leader ≠ p.nodeId then
      some ({ p with forwardedProposals := p.forwardedProposals ++ [⟨env.now,value⟩] },
        [⟨.peer leader,.forward value⟩])
    else innerPropose k env p value
  | none => innerPropose k env p value

def handleForwardedProposalTimeouts (env : PaxosEnv) (p : PaxosProtocol V) : Option (Reply V) :=
  let timedOut := p.timedOut env
  let p := { p with
    forwardedProposals := p.forwardedProposals.filter fun f => env.now - f.sentAt < 1000 }
  runAll (fun value p => innerPropose k env p value) p timedOut

def propose (env : PaxosEnv) (p : PaxosProtocol V) (value : V) : Option (Reply V) :=
  if p.multi then proposeOrForward k env p value else innerPropose k env p value

def handleMessage (env : PaxosEnv) (p : PaxosProtocol V) (sender : NodeId) :
    PaxosMessage V → Option (Reply V)
  | .promise slot pn accepted => handlePromise k env p sender slot pn accepted
  | .accepted slot pn value => handleAccepted k env p sender slot pn value
  | .decide slot value => handleDecide k env p sender slot value
  | .forward value => if p.multi then handleForward k env p value else some (p,[])
  | .promiseLeader pn accepted =>
    if p.multi then handlePromiseLeader k env p sender pn accepted else some (p,[])
  -- the others add nothing
  | msg => some (p.handleMessage env sender msg)

def onTickMulti (env : PaxosEnv) (p : PaxosProtocol V) : Option (Reply V) := do
  let r : Reply V := if p.shouldSendHeartbeat env then p.makeHeartbeat env else (p,[])
  let r ← andThen r fun p =>
    let p := p.checkElectionTimeout env
    if p.checkLeaderTimeout env then startElection k env p else some (p,[])
  andThen r (handleForwardedProposalTimeouts k env)

def onTick (env : PaxosEnv) (p : PaxosProtocol V) : Option (Reply V) := do
  let r ← runAll (retryProposal k env) p (p.getRetryableProposals env)
  let r := r.andThen (PaxosProtocol.getDecisionRebroadcasts env)
  if p.multi then andThen r (onTickMulti k env) else return r

def handle (env : PaxosEnv) (p : PaxosProtocol V) : Input V → Option (Reply V)
  | .propose value => propose k env p value
  | .message sender msg => handleMessage k env p sender msg
  | .tick => onTick k env p

def step (p : PaxosProtocol V) (call : PaxosEnv × Input V) : Option (PaxosProtocol V) :=
  (handle k call.1 p call.2).map Prod.fst

end

end Machine
end Paxos
end Daccord
