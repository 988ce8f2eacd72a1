import Daccord.RaftDurability

/-! The protocol never looks at the values it replicates: every handler, turn and
restart commutes with a change of values. -/
namespace Daccord
namespace Raft

variable {V W : Type}

def Decision.map (f : V → W) (d : Decision V) : Decision W := ⟨d.slot,f d.value⟩

def RaftMessage.map (f : V → W) : RaftMessage V → RaftMessage W
  | .requestVote term candidate li lt => .requestVote term candidate li lt
  | .requestVoteResponse term granted => .requestVoteResponse term granted
  | .appendEntries term leader prev prevTerm entries lc =>
    .appendEntries term leader prev prevTerm (entries.map (LogEntry.map f)) lc
  | .appendEntriesResponse term success mi ct ci => .appendEntriesResponse term success mi ct ci
  | .forward value hops => .forward (f value) hops

/-- The same addressee gets another message. -/
def readdress {S T : Type} (g : S → T) (out : Outgoing S) : Outgoing T := ⟨out.target,g out.message⟩

def RaftProtocol.map (f : V → W) (p : RaftProtocol V) : RaftProtocol W where
  nodeId := p.nodeId
  totalNodes := p.totalNodes
  config := p.config
  currentTerm := p.currentTerm
  votedFor := p.votedFor
  log := p.log.map (LogEntry.map f)
  commitIndex := p.commitIndex
  lastApplied := p.lastApplied
  role := p.role
  leader := p.leader
  nextIndex := p.nextIndex
  matchIndex := p.matchIndex
  electionDeadline := p.electionDeadline
  votesReceived := p.votesReceived
  lastHeartbeatSent := p.lastHeartbeatSent
  pendingDecisions := p.pendingDecisions.map (Decision.map f)
  pendingPersistTerm := p.pendingPersistTerm
  pendingPersistVotedFor := p.pendingPersistVotedFor
  pendingPersistLogFrom := p.pendingPersistLogFrom
  pendingTruncateFrom := p.pendingTruncateFrom
  pendingPersistCommitIndex := p.pendingPersistCommitIndex
  pendingProposals := p.pendingProposals.map f
  lostProposals := p.lostProposals.map f

def Reply.map (f : V → W) (r : Reply V) : Reply W :=
  (r.1.map f,r.2.map (readdress (RaftMessage.map f)))

theorem Reply.map_ite (f : V → W) {c : Prop} [Decidable c] {x y : Reply V} {x' y' : Reply W}
    (hx : x' = Reply.map f x) (hy : y' = Reply.map f y) :
    (if c then x' else y') = Reply.map f (if c then x else y) := by
  split
  · exact hx
  · exact hy

def Input.map (f : V → W) : Input V → Input W
  | .propose value => .propose (f value)
  | .message sender msg => .message sender (RaftMessage.map f msg)
  | .tick => .tick

namespace RaftProtocol

variable (f : V → W)

@[simp] theorem lastIndexOf_map (log : List (LogEntry V)) :
    lastIndexOf (log.map (LogEntry.map f)) = lastIndexOf log := by
  simp [lastIndexOf]

@[simp] theorem termAt_map (log : List (LogEntry V)) (i : ℕ) :
    termAt (log.map (LogEntry.map f)) i = termAt log i := by
  cases h : log[i]? <;> simp [termAt,h,LogEntry.map]

@[simp] theorem lastLogTerm_map (p : RaftProtocol V) : (p.map f).lastLogTerm = p.lastLogTerm := by
  cases h : p.log.getLast? <;> simp [lastLogTerm,map,h,LogEntry.map]

@[simp] theorem lastLogIndex_map (p : RaftProtocol V) : (p.map f).lastLogIndex = p.lastLogIndex :=
  lastIndexOf_map f p.log

theorem candidateLogAtLeastAsUpToDate_map (p : RaftProtocol V) (t : ℕ) (i : Option ℕ) :
    (p.map f).candidateLogAtLeastAsUpToDate t i = p.candidateLogAtLeastAsUpToDate t i := by
  simp [candidateLogAtLeastAsUpToDate]

theorem becomeFollower_map (env : Env) (p : RaftProtocol V) (term : ℕ) (leader : Option NodeId) :
    (p.map f).becomeFollower env term leader = (p.becomeFollower env term leader).map f := by
  by_cases h : p.currentTerm < term <;> simp [becomeFollower,map,h]

theorem decisionsBetween_map (log : List (LogEntry V)) (start stop : ℕ) :
    decisionsBetween (log.map (LogEntry.map f)) start stop =
      (decisionsBetween log start stop).map (Decision.map f) := by
  rw [decisionsBetween,decisionsBetween,List.map_filterMap]
  congr 1
  funext i
  cases h : log[i]? <;> simp [h,LogEntry.map,Decision.map]

theorem applyCommittedEntries_map (p : RaftProtocol V) :
    (p.map f).applyCommittedEntries = p.applyCommittedEntries.map f := by
  have happ : (p.map f).appliedEnd = p.appliedEnd := rfl
  cases hc : p.commitIndex with
  | none =>
    have hc' : (p.map f).commitIndex = none := hc
    simp only [applyCommittedEntries,hc,hc']
  | some target =>
    have hc' : (p.map f).commitIndex = some target := hc
    simp only [applyCommittedEntries,hc,hc',happ]
    split
    · rfl
    · simp only [map,decisionsBetween_map,List.map_append]

theorem tryAdvanceCommit_map (p : RaftProtocol V) :
    (p.map f).tryAdvanceCommit = p.tryAdvanceCommit.map f := by
  unfold tryAdvanceCommit
  have hm : (p.map f).matchIndex = p.matchIndex := rfl
  have hq : (p.map f).quorum = p.quorum := rfl
  simp only [hm,hq]
  split
  · rename_i c _
    have hlog : (p.map f).log[c]? = p.log[c]?.map (LogEntry.map f) := List.getElem?_map ..
    cases he : p.log[c]? with
    | none => simp only [hlog,he,Option.map_none]
    | some e =>
      simp only [hlog,he,Option.map_some]
      have hcond : ((LogEntry.map f e).term = (p.map f).currentTerm ∧
          above c (p.map f).commitIndex = true) ↔
          (e.term = p.currentTerm ∧ above c p.commitIndex = true) := Iff.rfl
      by_cases h : e.term = p.currentTerm ∧ above c p.commitIndex = true
      · rw [if_pos h,if_pos (hcond.mpr h),← applyCommittedEntries_map]
        rfl
      · rw [if_neg h,if_neg fun h' => h (hcond.mp h')]
  · rfl

theorem broadcastHeartbeat_map (env : Env) (p : RaftProtocol V) :
    (p.map f).broadcastHeartbeat env = Reply.map f (p.broadcastHeartbeat env) := by
  simp only [broadcastHeartbeat,lastLogIndex_map,lastLogTerm_map]
  rfl

theorem broadcastWithEntries_map (env : Env) (p : RaftProtocol V) (entries : List (LogEntry V)) :
    (p.map f).broadcastWithEntries env (entries.map (LogEntry.map f)) =
      Reply.map f (p.broadcastWithEntries env entries) := by
  have hlen : (p.map f).log.length = p.log.length := List.length_map _
  have hterm : ∀ i, termAt (p.map f).log i = termAt p.log i := termAt_map f p.log
  simp only [broadcastWithEntries,List.length_map,hlen,hterm]
  rfl

theorem markPersistFrom_map (p : RaftProtocol V) (idx : ℕ) :
    (p.map f).markPersistFrom idx = (p.markPersistFrom idx).map f := by
  cases h : p.pendingPersistLogFrom with
  | none =>
    have h' : (p.map f).pendingPersistLogFrom = none := h
    simp only [markPersistFrom,h,h']
    rfl
  | some k =>
    have h' : (p.map f).pendingPersistLogFrom = some k := h
    simp only [markPersistFrom,h,h']

/-- A leader appends entries of its own, of which `idx` is the last, and tells the others. -/
def extend (env : Env) (p : RaftProtocol V) (entries : List (LogEntry V)) (idx : ℕ) : Reply V :=
  let q := { p with log := p.log ++ entries }.markPersistFrom p.log.length
  { q with matchIndex := q.matchIndex.insert q.nodeId (some idx)
    }.tryAdvanceCommit.broadcastWithEntries env entries

theorem extend_map (env : Env) (p : RaftProtocol V) (entries : List (LogEntry V)) (idx : ℕ) :
    (p.map f).extend env (entries.map (LogEntry.map f)) idx =
      Reply.map f (p.extend env entries idx) := by
  have hlen : (p.map f).log.length = p.log.length := List.length_map _
  have hlog : { p.map f with log := (p.map f).log ++ entries.map (LogEntry.map f) } =
      ({ p with log := p.log ++ entries } : RaftProtocol V).map f := by
    simp only [map,List.map_append]
  unfold extend
  rw [hlen,hlog,markPersistFrom_map,← broadcastWithEntries_map,← tryAdvanceCommit_map]
  rfl

theorem takeOffice_map (p : RaftProtocol V) : (p.map f).takeOffice = p.takeOffice.map f := by
  have h : ownMatch p.nodeId (p.map f).log = ownMatch p.nodeId p.log := by
    unfold ownMatch
    rw [show lastIndexOf (p.map f).log = lastIndexOf p.log from lastIndexOf_map f p.log]
  exact congrArg (fun m => { p.map f with
    role := .leader
    leader := some p.nodeId
    nextIndex := ∅
    matchIndex := m
    pendingProposals := [] }) h

theorem batch_map (p : RaftProtocol V) : (p.map f).batch = p.batch.map (LogEntry.map f) := by
  simp [batch,map,LogEntry.map,Function.comp_def]

theorem becomeLeader_eq (env : Env) (p : RaftProtocol V) :
    p.becomeLeader env = if p.pendingProposals.isEmpty then p.takeOffice.broadcastHeartbeat env else
      p.takeOffice.extend env p.batch (p.log.length + p.batch.length - 1) := by
  unfold becomeLeader extend
  simp only
  rw [seedOwnMatch_eq _ rfl]
  split
  · rfl
  · have hlen : (markPersistFrom { p.takeOffice with log := p.log ++ p.batch } p.log.length).log.length
        = p.log.length + p.batch.length := by
      rw [markPersistFrom_log,List.length_append]
    rw [← hlen]
    rfl

theorem becomeLeader_map (env : Env) (p : RaftProtocol V) :
    (p.map f).becomeLeader env = Reply.map f (p.becomeLeader env) := by
  have hempty : (p.map f).pendingProposals.isEmpty = p.pendingProposals.isEmpty := List.isEmpty_map
  have hlen : (p.map f).log.length = p.log.length := List.length_map _
  rw [becomeLeader_eq,becomeLeader_eq,hempty,takeOffice_map,batch_map,hlen,List.length_map]
  split
  · exact broadcastHeartbeat_map f env _
  · exact extend_map f env _ _ _

theorem startElection_eq (env : Env) (p : RaftProtocol V) :
    p.startElection env = if p.quorum ≤ 1 then (p.candidacy env).becomeLeader env else
      (if p.role = .candidate then { p.candidacy env with
          lostProposals := p.lostProposals ++ p.pendingProposals
          pendingProposals := [] }
        else p.candidacy env,
        [⟨.broadcast,.requestVote (p.currentTerm + 1) p.nodeId p.lastLogIndex p.lastLogTerm⟩]) := by
  unfold startElection
  by_cases hq : p.quorum ≤ 1
  · rw [if_pos hq]
    exact if_pos (by rw [Finset.card_singleton]; exact hq)
  · rw [if_neg hq]
    refine (if_neg (by rw [Finset.card_singleton]; exact hq)).trans ?_
    by_cases hc : p.role = .candidate
    · simp only [if_pos hc]
      rfl
    · simp only [if_neg hc]
      rfl

theorem startElection_map (env : Env) (p : RaftProtocol V) :
    (p.map f).startElection env = Reply.map f (p.startElection env) := by
  have hquorum : (p.map f).quorum = p.quorum := rfl
  have hrole : (p.map f).role = p.role := rfl
  rw [startElection_eq,startElection_eq,hquorum,hrole,lastLogIndex_map,lastLogTerm_map]
  split
  · exact becomeLeader_map f env (p.candidacy env)
  · split
    · simp only [Reply.map,map,List.map_append,List.map_nil,List.map_cons,candidacy]
      rfl
    · rfl

theorem handleRequestVote_map (env : Env) (p : RaftProtocol V) (term : ℕ) (candidate : NodeId)
    (li : Option ℕ) (lt : ℕ) : (p.map f).handleRequestVote env term candidate li lt =
      Reply.map f (p.handleRequestVote env term candidate li lt) := by
  have hterm : (p.map f).currentTerm = p.currentTerm := rfl
  have hvote : (p.map f).votedFor = p.votedFor := rfl
  simp only [handleRequestVote,candidateLogAtLeastAsUpToDate_map,hterm,hvote]
  generalize (if term < p.currentTerm then false else _) = grant
  cases grant <;> rfl

theorem handleRequestVoteResponse_map (env : Env) (p : RaftProtocol V) (sender : NodeId) (term : ℕ)
    (granted : Bool) : (p.map f).handleRequestVoteResponse env sender term granted =
      Reply.map f (p.handleRequestVoteResponse env sender term granted) := by
  have h := becomeLeader_map f env { p with votesReceived := insert sender p.votesReceived }
  exact Reply.map_ite f rfl (Reply.map_ite f (Reply.map_ite f h rfl) rfl)

@[simp] theorem prevOk_map (log : List (LogEntry V)) (prev : Option ℕ) (prevTerm : ℕ) :
    prevOk (log.map (LogEntry.map f)) prev prevTerm = prevOk log prev prevTerm := by
  cases prev <;> simp [prevOk]

@[simp] theorem conflictHint_map (log : List (LogEntry V)) (prev : Option ℕ) :
    conflictHint (log.map (LogEntry.map f)) prev = conflictHint log prev := by
  cases prev <;> simp [conflictHint]

theorem insertEntry_map (p : RaftProtocol V) (insertAt : ℕ) (entry : LogEntry V) :
    (p.map f).insertEntry insertAt (LogEntry.map f entry) = (p.insertEntry insertAt entry).map f := by
  have hlen : (p.map f).log.length = p.log.length := List.length_map _
  have hterm : termAt (p.map f).log insertAt = termAt p.log insertAt := termAt_map f p.log insertAt
  have hentry : (LogEntry.map f entry).term = entry.term := rfl
  unfold insertEntry
  rw [hlen,hterm,hentry]
  split
  · split
    · simp only [map,List.map_append,List.map_take,List.map_cons,List.map_nil]
    · rfl
  · have h := markPersistFrom_map f { p with log := p.log ++ [entry] } p.log.length
    rw [← h]
    simp only [map,List.map_append,List.map_cons,List.map_nil]

theorem insertEntries_map (p : RaftProtocol V) (insertAt : ℕ) (entries : List (LogEntry V)) :
    (p.map f).insertEntries insertAt (entries.map (LogEntry.map f)) =
      (p.insertEntries insertAt entries).map f := by
  induction entries generalizing p insertAt with
  | nil => rfl
  | cons entry rest ih =>
    rw [List.map_cons,insertEntries,insertEntries,insertEntry_map]
    exact ih _ _

theorem truncateUnverified_map (p : RaftProtocol V) (mi : Option ℕ) :
    (p.map f).truncateUnverified mi = (p.truncateUnverified mi).map f := by
  have hlen : (p.map f).log.length = p.log.length := List.length_map _
  cases mi with
  | none => rfl
  | some last =>
    simp only [truncateUnverified]
    rw [hlen]
    split
    · simp only [map,List.map_take]
    · rfl

theorem followCommit_map (p : RaftProtocol V) (lc mi : Option ℕ) :
    (p.map f).followCommit lc mi = (p.followCommit lc mi).map f := by
  have hc : (p.map f).commitIndex = p.commitIndex := rfl
  unfold followCommit
  split
  · rw [hc]
    split
    · exact applyCommittedEntries_map f
        { p with commitIndex := some _, pendingPersistCommitIndex := true }
    · rfl
  · rfl

/-- A follower takes over entries that fit its log. -/
def adopt (p : RaftProtocol V) (prev : Option ℕ) (entries : List (LogEntry V)) (lc : Option ℕ) :
    RaftProtocol V :=
  ((p.insertEntries (startAt prev) entries).truncateUnverified
    (verifiedIndex prev entries.length)).followCommit lc (verifiedIndex prev entries.length)

theorem adopt_map (p : RaftProtocol V) (prev : Option ℕ) (entries : List (LogEntry V))
    (lc : Option ℕ) :
    (p.map f).adopt prev (entries.map (LogEntry.map f)) lc = (p.adopt prev entries lc).map f := by
  unfold adopt
  rw [insertEntries_map,truncateUnverified_map,followCommit_map,List.length_map]

/-- It then reports to its leader and hands over what it has buffered. -/
def report (p : RaftProtocol V) (leader : NodeId) (mi : Option ℕ) : Reply V :=
  ({ p with pendingProposals := [] },
    ⟨.peer leader,.appendEntriesResponse p.currentTerm true mi none none⟩ ::
      p.pendingProposals.map fun value => ⟨.peer leader,.forward value 0⟩)

theorem report_map (p : RaftProtocol V) (leader : NodeId) (mi : Option ℕ) :
    (p.map f).report leader mi = Reply.map f (p.report leader mi) := by
  simp only [report,Reply.map,map,List.map_cons,List.map_map,List.map_nil]
  rfl

theorem handleAppendEntries_eq (env : Env) (p : RaftProtocol V) (term : ℕ) (leader : NodeId)
    (prev : Option ℕ) (prevTerm : ℕ) (entries : List (LogEntry V)) (lc : Option ℕ) :
    p.handleAppendEntries env term leader prev prevTerm entries lc =
      if term < p.currentTerm then
        (p,[⟨.peer leader,.appendEntriesResponse p.currentTerm false none none none⟩])
      else if term = p.currentTerm ∧ p.role = .leader then
        (p,[⟨.peer leader,.appendEntriesResponse p.currentTerm false none none none⟩])
      else if prevOk p.log prev prevTerm = false then
        (p.follow env leader,[⟨.peer leader,.appendEntriesResponse p.currentTerm false none
          (conflictHint p.log prev).1 (conflictHint p.log prev).2⟩])
      else ((p.follow env leader).adopt prev entries lc).report leader
        (verifiedIndex prev entries.length) := rfl

theorem handleAppendEntries_map (env : Env) (p : RaftProtocol V) (term : ℕ) (leader : NodeId)
    (prev : Option ℕ) (prevTerm : ℕ) (entries : List (LogEntry V)) (lc : Option ℕ) :
    (p.map f).handleAppendEntries env term leader prev prevTerm (entries.map (LogEntry.map f)) lc =
      Reply.map f (p.handleAppendEntries env term leader prev prevTerm entries lc) := by
  have hok : prevOk (p.map f).log prev prevTerm = prevOk p.log prev prevTerm := prevOk_map f ..
  have hhint : conflictHint (p.map f).log prev = conflictHint p.log prev := conflictHint_map f ..
  rw [handleAppendEntries_eq,handleAppendEntries_eq,hok,hhint,List.length_map]
  refine Reply.map_ite f rfl (Reply.map_ite f rfl (Reply.map_ite f rfl ?_))
  rw [← report_map,← adopt_map]
  rfl

@[simp] theorem rewindIndex_map (p : RaftProtocol V) (sender : NodeId) (ct ci : Option ℕ) :
    (p.map f).rewindIndex sender ct ci = p.rewindIndex sender ct ci := by
  have hlen : (p.map f).log.length = p.log.length := List.length_map _
  have hterm : ∀ i, termAt (p.map f).log i = termAt p.log i := termAt_map f p.log
  unfold rewindIndex
  simp only [hlen,hterm]
  rfl

theorem handleAppendEntriesResponse_map (p : RaftProtocol V) (sender : NodeId) (term : ℕ)
    (success : Bool) (mi ct ci : Option ℕ) :
    (p.map f).handleAppendEntriesResponse sender term success mi ct ci =
      Reply.map f (p.handleAppendEntriesResponse sender term success mi ct ci) := by
  have hlen : (p.map f).log.length = p.log.length := List.length_map _
  refine Reply.map_ite f rfl (Reply.map_ite f ?_ ?_)
  · cases mi with
    | none => rfl
    | some k =>
      simp only [hlen]
      refine Reply.map_ite f rfl ?_
      have h := tryAdvanceCommit_map f { p with
        matchIndex := p.matchIndex.insert sender (some k)
        nextIndex := p.nextIndex.insert sender (k + 1) }
      exact congrArg (fun q => (q,[])) h
  · have hterm : ∀ i, termAt (p.map f).log i = termAt p.log i := termAt_map f p.log
    have hdrop : ∀ n, (p.map f).log.drop n = (p.log.drop n).map (LogEntry.map f) := fun n =>
      (List.map_drop ..).symm
    simp only [rewindIndex_map,hterm,hdrop]
    rfl

/-- A proposal is kept until a leader is known. -/
def buffer (p : RaftProtocol V) (value : V) : RaftProtocol V :=
  { p with pendingProposals := p.pendingProposals ++ [value] }

theorem buffer_map (p : RaftProtocol V) (value : V) :
    (p.map f).buffer (f value) = (p.buffer value).map f := by
  simp only [buffer,map,List.map_append,List.map_cons,List.map_nil]

theorem propose_eq (env : Env) (p : RaftProtocol V) (value : V) :
    p.propose env value =
      if p.role = .leader then p.extend env [⟨p.currentTerm,value⟩] p.log.length
      else match p.leader with
        | some leader => (p,[⟨.peer leader,.forward value 0⟩])
        | none => (p.buffer value,[]) := rfl

theorem handleForward_eq (env : Env) (p : RaftProtocol V) (sender : NodeId) (value : V)
    (hops : ℕ) : p.handleForward env sender value hops =
      if p.role = .leader then p.propose env value
      else match p.leader with
        | some leader =>
          if leader ≠ sender then
            if maxForwardHops ≤ min (hops + 1) 255 then (p,[])
            else (p,[⟨.peer leader,.forward value (min (hops + 1) 255)⟩])
          else (p.buffer value,[])
        | none => (p.buffer value,[]) := rfl

theorem propose_map (env : Env) (p : RaftProtocol V) (value : V) :
    (p.map f).propose env (f value) = Reply.map f (p.propose env value) := by
  have hlen : (p.map f).log.length = p.log.length := List.length_map _
  have hleader : (p.map f).leader = p.leader := rfl
  rw [propose_eq,propose_eq,hlen,hleader,buffer_map]
  refine Reply.map_ite f (extend_map f env p [⟨p.currentTerm,value⟩] p.log.length) ?_
  cases p.leader <;> rfl

theorem handleForward_map (env : Env) (p : RaftProtocol V) (sender : NodeId) (value : V)
    (hops : ℕ) : (p.map f).handleForward env sender (f value) hops =
      Reply.map f (p.handleForward env sender value hops) := by
  have hleader : (p.map f).leader = p.leader := rfl
  rw [handleForward_eq,handleForward_eq,hleader,buffer_map]
  refine Reply.map_ite f (propose_map f env p value) ?_
  cases p.leader with
  | none => rfl
  | some leader => exact Reply.map_ite f (Reply.map_ite f rfl rfl) rfl

theorem bumpTerm_map (env : Env) (p : RaftProtocol V) (msg : RaftMessage V) :
    (p.map f).bumpTerm env (RaftMessage.map f msg) = (p.bumpTerm env msg).map f := by
  have hterm : incomingTerm (RaftMessage.map f msg) = incomingTerm msg := by cases msg <;> rfl
  unfold bumpTerm
  rw [hterm]
  cases incomingTerm msg with
  | none => rfl
  | some t =>
    by_cases h : p.currentTerm < t
    · exact (if_pos h).trans ((becomeFollower_map f env p t none).trans
        (congrArg (map f) (if_pos h).symm))
    · exact (if_neg h).trans (congrArg (map f) (if_neg h).symm)

theorem dispatch_map (env : Env) (p : RaftProtocol V) (sender : NodeId) (msg : RaftMessage V) :
    (p.map f).dispatch env sender (RaftMessage.map f msg) =
      Reply.map f (p.dispatch env sender msg) := by
  cases msg with
  | requestVote term candidate li lt => exact handleRequestVote_map f env p term candidate li lt
  | requestVoteResponse term granted => exact handleRequestVoteResponse_map f env p sender term granted
  | appendEntries term leader prev prevTerm entries lc =>
    exact handleAppendEntries_map f env p term leader prev prevTerm entries lc
  | appendEntriesResponse term success mi ct ci =>
    exact handleAppendEntriesResponse_map f p sender term success mi ct ci
  | forward value hops => exact handleForward_map f env p sender value hops

theorem onTick_map (env : Env) (p : RaftProtocol V) :
    (p.map f).onTick env = Reply.map f (p.onTick env) := by
  have hrole : (p.map f).role = p.role := rfl
  unfold onTick
  rw [hrole]
  cases p.role with
  | leader => exact Reply.map_ite f (broadcastHeartbeat_map f env p) rfl
  | follower => exact Reply.map_ite f (startElection_map f env p) rfl
  | candidate => exact Reply.map_ite f (startElection_map f env p) rfl

theorem handle_map (env : Env) (p : RaftProtocol V) (input : Input V) :
    (p.map f).handle env (Input.map f input) = Reply.map f (p.handle env input) := by
  cases input with
  | propose value => exact propose_map f env p value
  | message sender msg =>
    have h := dispatch_map f env (p.bumpTerm env msg) sender msg
    rw [← bumpTerm_map] at h
    exact h
  | tick => exact onTick_map f env p

theorem restoreState_map (env : Env) (p : RaftProtocol V) (t : ℕ) (v : Option NodeId)
    (l : List (LogEntry V)) (ds : List (ℕ × V)) (ci : Option ℕ) :
    (p.map f).restoreState env t v (l.map (LogEntry.map f)) (ds.map fun d => (d.1,f d.2)) ci =
      (p.restoreState env t v l ds ci).map f := by
  have hds : (ds.map fun d => (d.1,f d.2)).map Prod.fst = ds.map Prod.fst := by simp
  have hcap : ∀ c, capIndex (l.map (LogEntry.map f)) c = capIndex l c := by
    intro c
    cases c <;> simp [capIndex]
  have hown : ownMatch p.nodeId (l.map (LogEntry.map f)) = ownMatch p.nodeId l := by
    simp [ownMatch]
  rw [restoreState_eq,restoreState_eq,← applyCommittedEntries_map]
  congr 1
  simp only [restored,hds,hcap,map,hown,List.map_nil]
  rfl

end RaftProtocol

/-! The process around the protocol. `f` changes the values in memory and on the
wire, `g` those on disk. -/

variable {V' W' : Type}

/-- Going to disk and back through `B` after the change is going through `A` before it. -/
structure Adapter.Over (A : Adapter V W) (B : Adapter V' W') (f : V → V') (g : W → W') : Prop where
  strip : ∀ v, B.strip (f v) = g (A.strip v)
  wrap : ∀ w, B.wrap (g w) = f (A.wrap w)

/-- What is on disk is what is left of the values when all is forgotten that a
restart may forget. -/
theorem Adapter.over_exact (A : Adapter V W) : A.Over .exact A.strip id :=
  ⟨fun _ => rfl,fun w => (A.strip_wrap w).symm⟩

def StorageCall.map (g : W → W') : StorageCall W → StorageCall W'
  | .saveTerm term => .saveTerm term
  | .saveVotedFor votedFor => .saveVotedFor votedFor
  | .truncateLogFrom index => .truncateLogFrom index
  | .appendLog entries => .appendLog (entries.map (LogEntry.map g))
  | .saveCommitIndex commitIndex => .saveCommitIndex commitIndex
  | .saveDecision slot value => .saveDecision slot (g value)

def mapDecisions (g : W → W') (m : AList fun _ : ℕ => W) : AList fun _ : ℕ => W' :=
  ⟨m.entries.map (Sigma.map id fun _ => g),m.nodupKeys.map₂ _ _⟩

theorem mapDecisions_insert (g : W → W') (m : AList fun _ : ℕ => W) (slot : ℕ) (value : W) :
    mapDecisions g (m.insert slot value) = (mapDecisions g m).insert slot (g value) := by
  apply AList.ext
  simp only [mapDecisions,AList.entries_insert,List.map_cons,List.kerase,List.eraseP_map]
  rfl

def RaftStorage.map (g : W → W') (s : RaftStorage W) : RaftStorage W' where
  decisions := mapDecisions g s.decisions
  term := s.term
  votedFor := s.votedFor
  log := s.log.map (LogEntry.map g)
  commitIndex := s.commitIndex

theorem RaftStorage.call_map (g : W → W') (s : RaftStorage W) (c : StorageCall W) :
    (s.map g).call (c.map g) = (s.call c).map g := by
  cases c with
  | truncateLogFrom index => simp only [call,map,StorageCall.map,List.map_take]
  | appendLog entries => simp only [call,map,StorageCall.map,List.map_append]
  | saveDecision slot value => simp only [call,map,StorageCall.map,mapDecisions_insert]
  | _ => rfl

theorem RaftStorage.calls_map (g : W → W') (s : RaftStorage W) (cs : List (StorageCall W)) :
    (s.map g).calls (cs.map (StorageCall.map g)) = (s.calls cs).map g := by
  induction cs generalizing s with
  | nil => rfl
  | cons c cs ih =>
    have hstep : (s.map g).calls ((c :: cs).map (StorageCall.map g)) =
        ((s.map g).call (c.map g)).calls (cs.map (StorageCall.map g)) := rfl
    rw [hstep,call_map,ih]
    rfl

theorem RaftStorage.loadDecisions_map (g : W → W') (s : RaftStorage W) :
    (s.map g).loadDecisions = s.loadDecisions.map fun d => (d.1,g d.2) := by
  simp only [loadDecisions,map,mapDecisions,List.map_map]
  rfl

def Turn.map (f : V → V') (g : W → W') (t : Turn V W) : Turn V' W' where
  handled := t.handled.map f
  calls := t.calls.map (StorageCall.map g)
  sending := t.sending.map f
  outgoing := t.outgoing.map (readdress (RaftMessage.map f))
  decisions := t.decisions.map (Decision.map f)
  final := t.final.map f
  lost := t.lost.map f

def Effect.map (f : V → V') (g : W → W') : Effect V W → Effect V' W'
  | .store c => .store (c.map g)
  | .send out => .send (readdress (RaftMessage.map f) out)
  | .emit ds => .emit (ds.map (Decision.map f))

def RaftNode.map (f : V → V') (g : W → W') (n : RaftNode V W) : RaftNode V' W' where
  protocol := n.protocol.map f
  storage := n.storage.map g
  backlog := n.backlog.map f

section
variable {A : Adapter V W} {B : Adapter V' W'} {f : V → V'} {g : W → W'}

theorem Adapter.Over.stripLogEntries (h : A.Over B f g) (l : List (LogEntry V)) :
    B.stripLogEntries (l.map (LogEntry.map f)) = (A.stripLogEntries l).map (LogEntry.map g) := by
  simp [Adapter.stripLogEntries,LogEntry.map,Function.comp_def,h.strip]

theorem Adapter.Over.wrapLogEntries (h : A.Over B f g) (l : List (LogEntry W)) :
    B.wrapLogEntries (l.map (LogEntry.map g)) = (A.wrapLogEntries l).map (LogEntry.map f) := by
  simp [Adapter.wrapLogEntries,LogEntry.map,Function.comp_def,h.wrap]

theorem Adapter.Over.calls (h : A.Over B f g) (p : RaftProtocol V) :
    (p.map f).drainPersistIntent.2.calls B =
      (p.drainPersistIntent.2.calls A).map (StorageCall.map g) := by
  have happend : ∀ idx, StorageCall.appendLog (B.stripLogEntries
        (List.drop idx (p.map f).drainPersistIntent.2.logSnapshot)) =
      (StorageCall.appendLog (A.stripLogEntries
        (List.drop idx p.drainPersistIntent.2.logSnapshot))).map g := by
    intro idx
    have hsnap : (p.map f).drainPersistIntent.2.logSnapshot =
        p.drainPersistIntent.2.logSnapshot.map (LogEntry.map f) := by
      cases hp : p.pendingPersistLogFrom <;>
        simp [RaftProtocol.drainPersistIntent,RaftProtocol.map,hp]
    rw [hsnap,← List.map_drop,h.stripLogEntries]
    rfl
  simp only [PersistIntent.calls,happend,Option.toList_map,List.map_append,List.map_map]
  rfl

theorem Adapter.Over.turn (h : A.Over B f g) (env : Env) (p : RaftProtocol V) (input : Input V) :
    Raft.turn B env (p.map f) (Input.map f input) = (Raft.turn A env p input).map f g := by
  have hcalls := h.calls (p.handle env input).1
  simp only [Raft.turn,RaftProtocol.handle_map]
  generalize p.handle env input = reply at *
  cases input <;> simp only [Input.map,Reply.map,Turn.map,← hcalls] <;> rfl

theorem Adapter.Over.effects (h : A.Over B f g) (t : Turn V W) :
    (t.map f g).effects B = (t.effects A).map (Effect.map f g) := by
  have hsaves : (t.map f g).saves B = (t.saves A).map (StorageCall.map g) := by
    simp only [Turn.saves,Turn.map,List.map_map]
    refine List.map_congr_left fun d _ => ?_
    simp [Decision.map,StorageCall.map,h.strip]
  have hcalls : (t.map f g).calls = t.calls.map (StorageCall.map g) := rfl
  have hout : (t.map f g).outgoing = t.outgoing.map (readdress (RaftMessage.map f)) := rfl
  simp only [Turn.effects,hsaves,hcalls,hout,List.map_append,List.map_map]
  rfl

theorem Fate.cut_map (fate : Fate) (effects : List (Effect V W)) :
    fate.cut (effects.map (Effect.map f g)) = (fate.cut effects).map (Effect.map f g) := by
  cases fate with
  | completes => rfl
  | dies k => exact (List.map_take ..).symm

theorem stored_map (effects : List (Effect V W)) :
    (effects.map (Effect.map f g)).filterMap Effect.stored =
      (effects.filterMap Effect.stored).map (StorageCall.map g) := by
  rw [List.filterMap_map,List.map_filterMap]
  refine List.filterMap_congr fun e _ => ?_
  cases e <;> rfl

theorem sent_map (effects : List (Effect V W)) :
    (effects.map (Effect.map f g)).filterMap Effect.sent =
      (effects.filterMap Effect.sent).map (readdress (RaftMessage.map f)) := by
  rw [List.filterMap_map,List.map_filterMap]
  refine List.filterMap_congr fun e _ => ?_
  cases e <;> rfl

theorem emitted_map (effects : List (Effect V W)) :
    (effects.map (Effect.map f g)).flatMap Effect.emitted =
      (effects.flatMap Effect.emitted).map (Decision.map f) := by
  rw [List.flatMap_map,List.map_flatMap]
  refine List.flatMap_congr fun e _ => ?_
  cases e <;> rfl

theorem Adapter.Over.boot (h : A.Over B f g) (env : Env) (id : NodeId) (total : ℕ)
    (cfg : RaftConfig) (st : RaftStorage W) :
    RaftNode.boot B env id total cfg (st.map g) = (RaftNode.boot A env id total cfg st).map f g := by
  have hds : (st.map g).loadDecisions.map (fun d => (d.1,B.wrap d.2)) =
      (st.loadDecisions.map fun d => (d.1,A.wrap d.2)).map fun d => (d.1,f d.2) := by
    rw [RaftStorage.loadDecisions_map,List.map_map,List.map_map]
    refine List.map_congr_left fun d _ => ?_
    simp [h.wrap]
  have hlog := h.wrapLogEntries st.log
  have hnew := RaftProtocol.restoreState_map f env (.new env id total cfg) st.term st.votedFor
    (A.wrapLogEntries st.log) (st.loadDecisions.map fun d => (d.1,A.wrap d.2)) st.commitIndex
  rw [← hds,← hlog] at hnew
  simp only [RaftNode.boot,RaftNode.map,List.map_nil,RaftProtocol.recover]
  rw [← hnew]
  rfl

theorem Adapter.Over.after (h : A.Over B f g) (env : Env) (n : RaftNode V W) (t : Turn V W)
    (rest : List V) (fate : Fate) :
    (n.map f g).after B env (t.map f g) (rest.map f) fate = (n.after A env t rest fate).map f g := by
  have hstorage : (n.map f g).storage.calls
      ((fate.cut ((t.map f g).effects B)).filterMap Effect.stored) =
      (n.storage.calls ((fate.cut (t.effects A)).filterMap Effect.stored)).map g := by
    rw [h.effects,Fate.cut_map,stored_map]
    exact RaftStorage.calls_map g n.storage _
  cases fate with
  | completes =>
    simp only [RaftNode.after,hstorage]
    simp only [RaftNode.map,Turn.map,List.map_append]
  | dies k =>
    simp only [RaftNode.after,hstorage]
    exact h.boot env _ _ _ _

theorem RaftNode.accepts_map (n : RaftNode V W) (input : Option (Input V)) :
    (n.map f g).accepts (input.map (Input.map f)) =
      (n.accepts input).map fun r => (Input.map f r.1,r.2.map f) := by
  cases hb : n.backlog with
  | nil =>
    have hb' : (n.map f g).backlog = [] := by rw [RaftNode.map,hb]; rfl
    cases input <;> simp [RaftNode.accepts,hb,hb']
  | cons v rest =>
    have hb' : (n.map f g).backlog = f v :: rest.map f := by rw [RaftNode.map,hb]; rfl
    cases input <;> simp [RaftNode.accepts,hb,hb',Input.map]

end
end Raft
end Daccord
