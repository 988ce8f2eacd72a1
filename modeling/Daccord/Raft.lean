import Daccord.Messages

/-! The Raft state machine of `protocol/raft.rs`. Every `&mut self` method is a
function from the state before to the state after, paired with the messages it
returns; `env` supplies the clock and the sampled election timeout. -/
namespace Daccord
namespace Raft

inductive Role
  | follower | candidate | leader
  deriving DecidableEq, Repr

/-- Durations in milliseconds. -/
structure RaftConfig where
  heartbeatInterval : ℕ
  electionTimeoutMin : ℕ
  electionTimeoutMax : ℕ
  deriving DecidableEq, Repr

/-- `storage` is kept outside, in the node that owns the protocol. -/
structure RaftProtocol (V : Type) where
  nodeId : NodeId
  totalNodes : ℕ
  config : RaftConfig
  currentTerm : ℕ
  votedFor : Option NodeId
  log : List (LogEntry V)
  commitIndex : Option ℕ
  lastApplied : Option ℕ
  role : Role
  leader : Option NodeId
  nextIndex : AList fun _ : NodeId => ℕ
  matchIndex : AList fun _ : NodeId => Option ℕ
  electionDeadline : ℕ
  votesReceived : Finset NodeId
  lastHeartbeatSent : Option ℕ
  pendingDecisions : List (Decision V)
  pendingPersistTerm : Bool
  pendingPersistVotedFor : Bool
  pendingPersistLogFrom : Option ℕ
  pendingTruncateFrom : Option ℕ
  pendingPersistCommitIndex : Bool
  pendingProposals : List V
  lostProposals : List V

abbrev Reply (V : Type) := RaftProtocol V × List (Outgoing (RaftMessage V))

variable {V : Type}

def sampleElectionTimeout (cfg : RaftConfig) (rand : ℕ) : ℕ :=
  if cfg.electionTimeoutMax ≤ cfg.electionTimeoutMin then cfg.electionTimeoutMin
  else cfg.electionTimeoutMin + rand % (cfg.electionTimeoutMax - cfg.electionTimeoutMin + 1)

def nextDeadline (env : Env) (cfg : RaftConfig) : ℕ :=
  env.now + sampleElectionTimeout cfg env.rand

namespace RaftProtocol

def new (env : Env) (nodeId : NodeId) (totalNodes : ℕ) (config : RaftConfig) : RaftProtocol V where
  nodeId := nodeId
  totalNodes := totalNodes
  config := config
  currentTerm := 0
  votedFor := none
  log := []
  commitIndex := none
  lastApplied := none
  role := .follower
  leader := none
  nextIndex := ∅
  matchIndex := ∅
  electionDeadline := nextDeadline env config
  votesReceived := ∅
  lastHeartbeatSent := none
  pendingDecisions := []
  pendingPersistTerm := false
  pendingPersistVotedFor := false
  pendingPersistLogFrom := none
  pendingTruncateFrom := none
  pendingPersistCommitIndex := false
  pendingProposals := []
  lostProposals := []

def quorum (p : RaftProtocol V) : ℕ := p.totalNodes / 2 + 1

/-- `log.len().checked_sub(1)`. -/
def lastIndexOf (log : List (LogEntry V)) : Option ℕ :=
  if log.length = 0 then none else some (log.length - 1)

/-- `log[i].term`; the source indexes only below the length of the log. -/
def termAt (log : List (LogEntry V)) (i : ℕ) : ℕ := (log[i]?.map LogEntry.term).getD 0

def lastLogIndex (p : RaftProtocol V) : Option ℕ := lastIndexOf p.log

def lastLogTerm (p : RaftProtocol V) : ℕ := (p.log.getLast?.map LogEntry.term).getD 0

def candidateLogAtLeastAsUpToDate (p : RaftProtocol V) (candLastTerm : ℕ)
    (candLastIndex : Option ℕ) : Bool :=
  if candLastTerm ≠ p.lastLogTerm then decide (p.lastLogTerm < candLastTerm)
  else match candLastIndex, p.lastLogIndex with
    | some c, some m => decide (m ≤ c)
    | some _, none => true
    | none, none => true
    | none, some _ => false

def becomeFollower (env : Env) (p : RaftProtocol V) (term : ℕ) (leader : Option NodeId) :
    RaftProtocol V :=
  let p := if p.currentTerm < term then
    { p with
      currentTerm := term
      votedFor := none
      pendingPersistTerm := true
      pendingPersistVotedFor := true }
    else p
  { p with
    role := .follower
    leader := leader
    votesReceived := ∅
    electionDeadline := nextDeadline env p.config
    pendingPersistLogFrom := none }

/-- The decisions `start..=target` of the loop in `apply_committed_entries`. -/
def decisionsBetween (log : List (LogEntry V)) (start stop : ℕ) : List (Decision V) :=
  (List.range' start (stop - start)).filterMap fun i => log[i]?.map fun e => ⟨i,e.value⟩

/-- First slot still to be applied. -/
def appliedEnd (p : RaftProtocol V) : ℕ :=
  match p.lastApplied with
  | some a => a + 1
  | none => 0

def applyCommittedEntries (p : RaftProtocol V) : RaftProtocol V :=
  match p.commitIndex with
  | none => p
  | some target =>
    if target < p.appliedEnd then p
    else { p with
      pendingDecisions := p.pendingDecisions ++ decisionsBetween p.log p.appliedEnd (target + 1)
      lastApplied := some target }

/-- `b.cmp(a)` on `Option<u64>`: `None` is below every `Some`. -/
def descending : Option ℕ → Option ℕ → Bool
  | _, none => true
  | none, some _ => false
  | some a, some b => decide (b ≤ a)

/-- `is_none_or(|cur| c > cur)`. -/
def above (c : ℕ) : Option ℕ → Bool
  | none => true
  | some cur => decide (cur < c)

def tryAdvanceCommit (p : RaftProtocol V) : RaftProtocol V :=
  let indexes := (p.matchIndex.entries.map Sigma.snd).insertionSort fun a b => descending a b
  -- an index past the sorted list means fewer than a quorum of replicas are known
  match indexes[p.quorum - 1]? with
  | some (some c) =>
    match p.log[c]? with
    | none => p
    | some entry =>
      if entry.term = p.currentTerm ∧ above c p.commitIndex then
        { p with commitIndex := some c, pendingPersistCommitIndex := true }.applyCommittedEntries
      else p
  | _ => p

def broadcastHeartbeat (env : Env) (p : RaftProtocol V) : Reply V :=
  ({ p with lastHeartbeatSent := some env.now },
    [⟨.broadcast,.appendEntries p.currentTerm p.nodeId p.lastLogIndex p.lastLogTerm []
      p.commitIndex⟩])

def broadcastWithEntries (env : Env) (p : RaftProtocol V) (entries : List (LogEntry V)) : Reply V :=
  let prevLogIndex :=
    if entries.length < p.log.length then some (p.log.length - entries.length - 1) else none
  let prevLogTerm := match prevLogIndex with
    | some i => termAt p.log i
    | none => 0
  ({ p with lastHeartbeatSent := some env.now },
    [⟨.broadcast,.appendEntries p.currentTerm p.nodeId prevLogIndex prevLogTerm entries
      p.commitIndex⟩])

/-- `if self.pending_persist_log_from.is_none() { … = Some(idx) }`. -/
def markPersistFrom (p : RaftProtocol V) (idx : ℕ) : RaftProtocol V :=
  match p.pendingPersistLogFrom with
  | none => { p with pendingPersistLogFrom := some idx }
  | some _ => p

/-- `match_index.insert(node_id, Some(last))` when the log is not empty. -/
def seedOwnMatch (p : RaftProtocol V) : RaftProtocol V :=
  match lastIndexOf p.log with
  | some last => { p with matchIndex := p.matchIndex.insert p.nodeId (some last) }
  | none => p

def becomeLeader (env : Env) (p : RaftProtocol V) : Reply V :=
  let p := { p with
    role := .leader
    leader := some p.nodeId
    nextIndex := ∅
    matchIndex := ∅ }
  let p := p.seedOwnMatch
  let buffered := p.pendingProposals
  let p := { p with pendingProposals := [] }
  if buffered.isEmpty then p.broadcastHeartbeat env
  else
    let startIdx := p.log.length
    let newEntries := buffered.map fun value => ⟨p.currentTerm,value⟩
    let p := { p with log := p.log ++ newEntries }
    let p := p.markPersistFrom startIdx
    let p := { p with matchIndex := p.matchIndex.insert p.nodeId (some (p.log.length - 1)) }
    p.tryAdvanceCommit.broadcastWithEntries env newEntries

def startElection (env : Env) (p : RaftProtocol V) : Reply V :=
  let wasCandidate := p.role = .candidate
  let p := { p with
    currentTerm := p.currentTerm + 1
    role := .candidate
    votedFor := some p.nodeId
    votesReceived := {p.nodeId}
    leader := none
    electionDeadline := nextDeadline env p.config
    pendingPersistTerm := true
    pendingPersistVotedFor := true }
  if p.quorum ≤ p.votesReceived.card then p.becomeLeader env
  else
    let p := if wasCandidate then
      { p with lostProposals := p.lostProposals ++ p.pendingProposals, pendingProposals := [] }
      else p
    (p,[⟨.broadcast,.requestVote p.currentTerm p.nodeId p.lastLogIndex p.lastLogTerm⟩])

def handleRequestVote (env : Env) (p : RaftProtocol V) (term : ℕ) (candidate : NodeId)
    (lastLogIndex : Option ℕ) (lastLogTerm : ℕ) : Reply V :=
  let grant : Bool :=
    if term < p.currentTerm then false
    else
      let alreadyVotedForOther := match p.votedFor with
        | some v => decide (v ≠ candidate)
        | none => false
      !alreadyVotedForOther && p.candidateLogAtLeastAsUpToDate lastLogTerm lastLogIndex
  let p := if grant then
    { p with
      votedFor := some candidate
      pendingPersistVotedFor := true
      electionDeadline := nextDeadline env p.config }
    else p
  (p,[⟨.peer candidate,.requestVoteResponse p.currentTerm grant⟩])

def handleRequestVoteResponse (env : Env) (p : RaftProtocol V) (sender : NodeId) (term : ℕ)
    (voteGranted : Bool) : Reply V :=
  if p.role ≠ .candidate ∨ term ≠ p.currentTerm then (p,[])
  else if voteGranted then
    let p := { p with votesReceived := insert sender p.votesReceived }
    if p.quorum ≤ p.votesReceived.card then p.becomeLeader env else (p,[])
  else (p,[])

def prevOk (log : List (LogEntry V)) (prevLogIndex : Option ℕ) (prevLogTerm : ℕ) : Bool :=
  match prevLogIndex with
  | none => true
  | some i => decide (i < log.length) && decide (termAt log i = prevLogTerm)

/-- `(conflict_term, conflict_index)` of a rejected consistency check. -/
def conflictHint (log : List (LogEntry V)) (prevLogIndex : Option ℕ) : Option ℕ × Option ℕ :=
  match prevLogIndex with
  | some idx =>
    if log.length ≤ idx then (none,some log.length)
    else
      let conflictTerm := termAt log idx
      (some conflictTerm,(List.range (idx + 1)).find? fun i => termAt log i = conflictTerm)
  | none => (none,some log.length)

/-- One iteration of the append loop: entry `entry` belongs at `insertAt`. -/
def insertEntry (p : RaftProtocol V) (insertAt : ℕ) (entry : LogEntry V) : RaftProtocol V :=
  if insertAt < p.log.length then
    if termAt p.log insertAt ≠ entry.term then
      { p with
        log := p.log.take insertAt ++ [entry]
        pendingTruncateFrom := some insertAt
        pendingPersistLogFrom := match p.pendingPersistLogFrom with
          | none => some insertAt
          | some x => if insertAt < x then some insertAt else some x }
    else p
  else { p with log := p.log ++ [entry] }.markPersistFrom p.log.length

def insertEntries (p : RaftProtocol V) : ℕ → List (LogEntry V) → RaftProtocol V
  | _, [] => p
  | insertAt, entry :: rest => insertEntries (p.insertEntry insertAt entry) (insertAt + 1) rest

/-- `insert_at` before the loop: the first index the message speaks about. -/
def startAt (prevLogIndex : Option ℕ) : ℕ :=
  match prevLogIndex with
  | some i => i + 1
  | none => 0

/-- How many entries of the log the message vouches for: `match_idx + 1`. -/
def verifiedEnd (prevLogIndex : Option ℕ) (newEntriesLen : ℕ) : ℕ :=
  match prevLogIndex with
  | some i => i + 1 + newEntriesLen
  | none => newEntriesLen

/-- `match_idx`: `None` when there is neither a previous index nor an entry. -/
def verifiedIndex (prevLogIndex : Option ℕ) (newEntriesLen : ℕ) : Option ℕ :=
  match prevLogIndex, newEntriesLen with
  | some i, n => some (i + n)
  | none, 0 => none
  | none, n + 1 => some n

/-- Drop the suffix past the last verified index. -/
def truncateUnverified (p : RaftProtocol V) (matchIdx : Option ℕ) : RaftProtocol V :=
  match matchIdx with
  | none => p
  | some last =>
    if last + 1 < p.log.length then
      { p with
        log := p.log.take (last + 1)
        pendingTruncateFrom := match p.pendingTruncateFrom with
          | some prev => some (min prev (last + 1))
          | none => some (last + 1) }
    else p

def followCommit (p : RaftProtocol V) (leaderCommit matchIdx : Option ℕ) : RaftProtocol V :=
  match leaderCommit, matchIdx with
  | some lc, some last =>
    if above (min lc last) p.commitIndex then
      { p with commitIndex := some (min lc last), pendingPersistCommitIndex := true
        }.applyCommittedEntries
    else p
  | _, _ => p

def handleAppendEntries (env : Env) (p : RaftProtocol V) (term : ℕ) (leader : NodeId)
    (prevLogIndex : Option ℕ) (prevLogTerm : ℕ) (entries : List (LogEntry V))
    (leaderCommit : Option ℕ) : Reply V :=
  if term < p.currentTerm then
    (p,[⟨.peer leader,.appendEntriesResponse p.currentTerm false none none none⟩])
  else if term = p.currentTerm ∧ p.role = .leader then
    (p,[⟨.peer leader,.appendEntriesResponse p.currentTerm false none none none⟩])
  else
    let p := { p with
      role := .follower
      leader := some leader
      electionDeadline := nextDeadline env p.config }
    if prevOk p.log prevLogIndex prevLogTerm = false then
      let hint := conflictHint p.log prevLogIndex
      (p,[⟨.peer leader,.appendEntriesResponse p.currentTerm false none hint.1 hint.2⟩])
    else
      let p := p.insertEntries (startAt prevLogIndex) entries
      let matchIdx := verifiedIndex prevLogIndex entries.length
      let p := p.truncateUnverified matchIdx
      let p := p.followCommit leaderCommit matchIdx
      let forwards := p.pendingProposals.map fun value => ⟨.peer leader,.forward value 0⟩
      ({ p with pendingProposals := [] },
        ⟨.peer leader,.appendEntriesResponse p.currentTerm true matchIdx none none⟩ :: forwards)

/-- The index the leader rewinds to after a rejected `AppendEntries`. -/
def rewindIndex (p : RaftProtocol V) (sender : NodeId) (conflictTerm conflictIndex : Option ℕ) : ℕ :=
  let newNext := match conflictIndex with
    | some ci =>
      match conflictTerm with
      | some ct =>
        match (List.range p.log.length).reverse.find? fun i => termAt p.log i = ct with
        | some lastSameTermIdx => lastSameTermIdx + 1
        | none => ci
      | none => ci
    | none => (p.nextIndex.lookup sender).getD p.log.length - 1
  min newNext p.log.length

def handleAppendEntriesResponse (p : RaftProtocol V) (sender : NodeId) (term : ℕ) (success : Bool)
    (matchIndex conflictTerm conflictIndex : Option ℕ) : Reply V :=
  if p.role ≠ .leader ∨ term ≠ p.currentTerm then (p,[])
  else if success then
    match matchIndex with
    | none => (p,[])
    | some mi =>
      if p.log.length = 0 ∨ p.log.length ≤ mi then (p,[])
      else
        ({ p with
          matchIndex := p.matchIndex.insert sender (some mi)
          nextIndex := p.nextIndex.insert sender (mi + 1) }.tryAdvanceCommit,[])
  else
    let newNext := p.rewindIndex sender conflictTerm conflictIndex
    let prev := if newNext = 0 then none else some (newNext - 1)
    let prevTerm := match prev with
      | some i => termAt p.log i
      | none => 0
    ({ p with nextIndex := p.nextIndex.insert sender newNext },
      [⟨.peer sender,.appendEntries p.currentTerm p.nodeId prev prevTerm (p.log.drop newNext)
        p.commitIndex⟩])

def propose (env : Env) (p : RaftProtocol V) (value : V) : Reply V :=
  if p.role = .leader then
    let entry : LogEntry V := ⟨p.currentTerm,value⟩
    let idx := p.log.length
    let p := { p with log := p.log ++ [entry] }
    let p := p.markPersistFrom idx
    let p := { p with matchIndex := p.matchIndex.insert p.nodeId (some idx) }
    p.tryAdvanceCommit.broadcastWithEntries env [entry]
  else match p.leader with
    | some leader => (p,[⟨.peer leader,.forward value 0⟩])
    | none => ({ p with pendingProposals := p.pendingProposals ++ [value] },[])

def handleForward (env : Env) (p : RaftProtocol V) (sender : NodeId) (value : V) (hops : ℕ) :
    Reply V :=
  if p.role = .leader then p.propose env value
  else
    let buffer : Reply V := ({ p with pendingProposals := p.pendingProposals ++ [value] },[])
    match p.leader with
    | some leader =>
      if leader ≠ sender then
        -- `hops` is a `u8`; the addition saturates
        let nextHops := min (hops + 1) 255
        if maxForwardHops ≤ nextHops then (p,[])
        else (p,[⟨.peer leader,.forward value nextHops⟩])
      else buffer
    | none => buffer

def incomingTerm : RaftMessage V → Option ℕ
  | .requestVote term .. => some term
  | .requestVoteResponse term _ => some term
  | .appendEntries term .. => some term
  | .appendEntriesResponse term .. => some term
  | .forward .. => none

/-- Any message with a higher term forces a step-down before it is handled. -/
def bumpTerm (env : Env) (p : RaftProtocol V) (msg : RaftMessage V) : RaftProtocol V :=
  match incomingTerm msg with
  | some t => if p.currentTerm < t then p.becomeFollower env t none else p
  | none => p

def dispatch (env : Env) (p : RaftProtocol V) (sender : NodeId) : RaftMessage V → Reply V
  | .requestVote term candidate lastLogIndex lastLogTerm =>
    p.handleRequestVote env term candidate lastLogIndex lastLogTerm
  | .requestVoteResponse term voteGranted =>
    p.handleRequestVoteResponse env sender term voteGranted
  | .appendEntries term leader prevLogIndex prevLogTerm entries leaderCommit =>
    p.handleAppendEntries env term leader prevLogIndex prevLogTerm entries leaderCommit
  | .appendEntriesResponse term success matchIndex conflictTerm conflictIndex =>
    p.handleAppendEntriesResponse sender term success matchIndex conflictTerm conflictIndex
  | .forward value hops => p.handleForward env sender value hops

def handleMessage (env : Env) (p : RaftProtocol V) (sender : NodeId) (msg : RaftMessage V) :
    Reply V :=
  (p.bumpTerm env msg).dispatch env sender msg

def onTick (env : Env) (p : RaftProtocol V) : Reply V :=
  match p.role with
  | .leader =>
    let heartbeatDue := match p.lastHeartbeatSent with
      | some t => decide (p.config.heartbeatInterval ≤ env.now - t)
      | none => true
    if heartbeatDue then p.broadcastHeartbeat env else (p,[])
  | _ => if p.electionDeadline ≤ env.now then p.startElection env else (p,[])

/-- `max` on `Option<u64>`. -/
def maxIndex : Option ℕ → Option ℕ → Option ℕ
  | some a, some b => some (max a b)
  | some a, none => some a
  | none, b => b

def capIndex (log : List (LogEntry V)) : Option ℕ → Option ℕ
  | some c => (lastIndexOf log).map (min c)
  | none => none

def restoreState (env : Env) (p : RaftProtocol V) (term : ℕ) (votedFor : Option NodeId)
    (log : List (LogEntry V)) (decisions : List (ℕ × V)) (persistedCommitIndex : Option ℕ) :
    RaftProtocol V :=
  let maxDecided := (decisions.map Prod.fst).max?
  let commitIndex := capIndex log (maxIndex persistedCommitIndex maxDecided)
  let resumeLeader := p.totalNodes = 1 ∧ 0 < term ∧ votedFor = some p.nodeId
  let p := { p with
    currentTerm := term
    votedFor := votedFor
    log := log
    commitIndex := commitIndex
    lastApplied := maxDecided
    electionDeadline := nextDeadline env p.config
    pendingPersistTerm := false
    pendingPersistVotedFor := false
    pendingPersistLogFrom := none
    pendingTruncateFrom := none
    pendingPersistCommitIndex := false
    pendingDecisions := []
    pendingProposals := []
    lostProposals := []
    votesReceived := ∅
    nextIndex := ∅
    matchIndex := ∅ }
  let p := if resumeLeader then
    { p with role := .leader, leader := some p.nodeId }.seedOwnMatch
    else { p with role := .follower, leader := none }
  p.applyCommittedEntries

def takeDecisions (p : RaftProtocol V) : RaftProtocol V × List (Decision V) :=
  ({ p with pendingDecisions := [] },p.pendingDecisions)

def takeLostProposals (p : RaftProtocol V) : RaftProtocol V × List V :=
  ({ p with lostProposals := [] },p.lostProposals)

end RaftProtocol
end Raft
end Daccord
