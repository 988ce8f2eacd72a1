import Daccord.RaftDurability
import Daccord.RaftAppend

/-! The Raft handlers with their indexing expressions as the source has them: an
access past the end of a vector is a panic, here `none`. Arithmetic on `u64`
wraps. No input, honest or not, leads to a panic. -/
namespace Daccord
namespace Raft
namespace RaftProtocol

variable {V : Type}

namespace Checked

def termAt (log : List (LogEntry V)) (i : ℕ) : Option ℕ := log[i]?.map LogEntry.term

/-- `log[i..]`. -/
def sliceFrom (log : List (LogEntry V)) (i : ℕ) : Option (List (LogEntry V)) :=
  if i ≤ log.length then some (log.drop i) else none

/-- `a + 1` of `last_applied`, which a restored decision may bring to the top of
the range. -/
def appliedEnd (p : RaftProtocol V) : ℕ :=
  match p.lastApplied with
  | some a => (a + 1) % 2 ^ 64
  | none => 0

/-- The loop `start..=target` of `apply_committed_entries`. -/
def decisionsBetween (log : List (LogEntry V)) (start target : ℕ) : Option (List (Decision V)) :=
  (List.range' start (target + 1 - start)).mapM fun idx => log[idx]?.map fun e => ⟨idx,e.value⟩

def applyCommittedEntries (p : RaftProtocol V) : Option (RaftProtocol V) :=
  match p.commitIndex with
  | none => some p
  | some target =>
    if target < appliedEnd p then some p
    else do
      let decisions ← decisionsBetween p.log (appliedEnd p) target
      return { p with
        pendingDecisions := p.pendingDecisions ++ decisions
        lastApplied := some target }

def tryAdvanceCommit (p : RaftProtocol V) : Option (RaftProtocol V) :=
  let indexes := (p.matchIndex.entries.map Sigma.snd).insertionSort fun a b => descending a b
  if indexes.length < p.quorum then some p
  else do
    let candidate ← indexes[p.quorum - 1]?
    match candidate with
    | none => some p
    | some c =>
      -- `self.log.get(c)`
      match p.log[c]? with
      | none => some p
      | some entry =>
        if entry.term = p.currentTerm ∧ above c p.commitIndex then
          applyCommittedEntries
            { p with commitIndex := some c, pendingPersistCommitIndex := true }
        else some p

def broadcastWithEntries (env : Env) (p : RaftProtocol V) (entries : List (LogEntry V)) :
    Option (Reply V) := do
  let prevLogIndex :=
    if entries.length < p.log.length then some (p.log.length - entries.length - 1) else none
  let prevLogTerm ← match prevLogIndex with
    | some i => termAt p.log i
    | none => some 0
  return ({ p with lastHeartbeatSent := some env.now },
    [⟨.broadcast,.appendEntries p.currentTerm p.nodeId prevLogIndex prevLogTerm entries
      p.commitIndex⟩])

def becomeLeader (env : Env) (p : RaftProtocol V) : Option (Reply V) :=
  let p := { p with
    role := .leader
    leader := some p.nodeId
    nextIndex := ∅
    matchIndex := ∅ }
  let p := p.seedOwnMatch
  let buffered := p.pendingProposals
  let p := { p with pendingProposals := [] }
  if buffered.isEmpty then some (p.broadcastHeartbeat env)
  else do
    let startIdx := p.log.length
    let newEntries := buffered.map fun value => ⟨p.currentTerm,value⟩
    let p := { p with log := p.log ++ newEntries }
    let p := p.markPersistFrom startIdx
    let p := { p with matchIndex := p.matchIndex.insert p.nodeId (some (p.log.length - 1)) }
    let p ← tryAdvanceCommit p
    broadcastWithEntries env p newEntries

def startElection (env : Env) (p : RaftProtocol V) : Option (Reply V) :=
  let wasCandidate := p.role = .candidate
  let p := { p with
    currentTerm := (p.currentTerm + 1) % 2 ^ 64
    role := .candidate
    votedFor := some p.nodeId
    votesReceived := {p.nodeId}
    leader := none
    electionDeadline := nextDeadline env p.config
    pendingPersistTerm := true
    pendingPersistVotedFor := true }
  if p.quorum ≤ p.votesReceived.card then becomeLeader env p
  else
    let p := if wasCandidate then
      { p with lostProposals := p.lostProposals ++ p.pendingProposals, pendingProposals := [] }
      else p
    some (p,[⟨.broadcast,.requestVote p.currentTerm p.nodeId p.lastLogIndex p.lastLogTerm⟩])

def handleRequestVoteResponse (env : Env) (p : RaftProtocol V) (sender : NodeId) (term : ℕ)
    (voteGranted : Bool) : Option (Reply V) :=
  if p.role ≠ .candidate ∨ term ≠ p.currentTerm then some (p,[])
  else if voteGranted then
    let p := { p with votesReceived := insert sender p.votesReceived }
    if p.quorum ≤ p.votesReceived.card then becomeLeader env p else some (p,[])
  else some (p,[])

def prevOk (log : List (LogEntry V)) (prevLogIndex : Option ℕ) (prevLogTerm : ℕ) : Option Bool :=
  match prevLogIndex with
  | none => some true
  | some i =>
    if i < log.length then (termAt log i).map fun t => decide (t = prevLogTerm) else some false

/-- `find(|&i| self.log[i].term == term)`, which stops at the first hit. -/
def findTerm (log : List (LogEntry V)) (term : ℕ) : List ℕ → Option (Option ℕ)
  | [] => some none
  | i :: rest => do
    let t ← termAt log i
    if t = term then some (some i) else findTerm log term rest

def conflictHint (log : List (LogEntry V)) (prevLogIndex : Option ℕ) :
    Option (Option ℕ × Option ℕ) :=
  match prevLogIndex with
  | some idx =>
    if log.length ≤ idx then some (none,some log.length)
    else do
      let conflictTerm ← termAt log idx
      let first ← findTerm log conflictTerm (List.range (idx + 1))
      return (some conflictTerm,first)
  | none => some (none,some log.length)

def insertEntry (p : RaftProtocol V) (insertAt : ℕ) (entry : LogEntry V) :
    Option (RaftProtocol V) :=
  if insertAt < p.log.length then do
    let t ← termAt p.log insertAt
    if t ≠ entry.term then
      return { p with
        log := p.log.take insertAt ++ [entry]
        pendingTruncateFrom := some insertAt
        pendingPersistLogFrom := match p.pendingPersistLogFrom with
          | none => some insertAt
          | some x => if insertAt < x then some insertAt else some x }
    else return p
  else return { p with log := p.log ++ [entry] }.markPersistFrom p.log.length

def insertEntries (p : RaftProtocol V) : ℕ → List (LogEntry V) → Option (RaftProtocol V)
  | _, [] => some p
  | insertAt, entry :: rest => do
    let p ← insertEntry p insertAt entry
    insertEntries p (insertAt + 1) rest

def followCommit (p : RaftProtocol V) (leaderCommit matchIdx : Option ℕ) :
    Option (RaftProtocol V) :=
  match leaderCommit, matchIdx with
  | some lc, some last =>
    if above (min lc last) p.commitIndex then
      applyCommittedEntries
        { p with commitIndex := some (min lc last), pendingPersistCommitIndex := true }
    else some p
  | _, _ => some p

def handleAppendEntries (env : Env) (p : RaftProtocol V) (term : ℕ) (leader : NodeId)
    (prevLogIndex : Option ℕ) (prevLogTerm : ℕ) (entries : List (LogEntry V))
    (leaderCommit : Option ℕ) : Option (Reply V) :=
  if term < p.currentTerm then
    some (p,[⟨.peer leader,.appendEntriesResponse p.currentTerm false none none none⟩])
  else if term = p.currentTerm ∧ p.role = .leader then
    some (p,[⟨.peer leader,.appendEntriesResponse p.currentTerm false none none none⟩])
  else do
    let p := { p with
      role := .follower
      leader := some leader
      electionDeadline := nextDeadline env p.config }
    let ok ← prevOk p.log prevLogIndex prevLogTerm
    if ok = false then
      let hint ← conflictHint p.log prevLogIndex
      return (p,[⟨.peer leader,.appendEntriesResponse p.currentTerm false none hint.1 hint.2⟩])
    else
      let p ← insertEntries p (startAt prevLogIndex) entries
      let matchIdx := verifiedIndex prevLogIndex entries.length
      let p := p.truncateUnverified matchIdx
      let p ← followCommit p leaderCommit matchIdx
      let forwards := p.pendingProposals.map fun value => ⟨.peer leader,.forward value 0⟩
      return ({ p with pendingProposals := [] },
        ⟨.peer leader,.appendEntriesResponse p.currentTerm true matchIdx none none⟩ :: forwards)

def handleAppendEntriesResponse (p : RaftProtocol V) (sender : NodeId) (term : ℕ) (success : Bool)
    (matchIndex conflictTerm conflictIndex : Option ℕ) : Option (Reply V) :=
  if p.role ≠ .leader ∨ term ≠ p.currentTerm then some (p,[])
  else if success then
    match matchIndex with
    | none => some (p,[])
    | some mi =>
      if p.log.length = 0 ∨ p.log.length ≤ mi then some (p,[])
      else do
        let p ← tryAdvanceCommit
          { p with
            matchIndex := p.matchIndex.insert sender (some mi)
            nextIndex := p.nextIndex.insert sender (mi + 1) }
        return (p,[])
  else do
    -- the search for the conflicting term iterates, it does not index
    let newNext := p.rewindIndex sender conflictTerm conflictIndex
    let prev := if newNext = 0 then none else some (newNext - 1)
    let prevTerm ← match prev with
      | some i => termAt p.log i
      | none => some 0
    let entries ← sliceFrom p.log newNext
    return ({ p with nextIndex := p.nextIndex.insert sender newNext },
      [⟨.peer sender,.appendEntries p.currentTerm p.nodeId prev prevTerm entries p.commitIndex⟩])

def propose (env : Env) (p : RaftProtocol V) (value : V) : Option (Reply V) :=
  if p.role = .leader then do
    let entry : LogEntry V := ⟨p.currentTerm,value⟩
    let idx := p.log.length
    let p := { p with log := p.log ++ [entry] }
    let p := p.markPersistFrom idx
    let p := { p with matchIndex := p.matchIndex.insert p.nodeId (some idx) }
    let p ← tryAdvanceCommit p
    broadcastWithEntries env p [entry]
  else some (p.propose env value)

def handleForward (env : Env) (p : RaftProtocol V) (sender : NodeId) (value : V) (hops : ℕ) :
    Option (Reply V) :=
  if p.role = .leader then propose env p value else some (p.handleForward env sender value hops)

def dispatch (env : Env) (p : RaftProtocol V) (sender : NodeId) : RaftMessage V → Option (Reply V)
  | .requestVote term candidate lastLogIndex lastLogTerm =>
    some (p.handleRequestVote env term candidate lastLogIndex lastLogTerm)
  | .requestVoteResponse term voteGranted =>
    handleRequestVoteResponse env p sender term voteGranted
  | .appendEntries term leader prevLogIndex prevLogTerm entries leaderCommit =>
    handleAppendEntries env p term leader prevLogIndex prevLogTerm entries leaderCommit
  | .appendEntriesResponse term success matchIndex conflictTerm conflictIndex =>
    handleAppendEntriesResponse p sender term success matchIndex conflictTerm conflictIndex
  | .forward value hops => handleForward env p sender value hops

def handleMessage (env : Env) (p : RaftProtocol V) (sender : NodeId) (msg : RaftMessage V) :
    Option (Reply V) :=
  dispatch env (p.bumpTerm env msg) sender msg

def onTick (env : Env) (p : RaftProtocol V) : Option (Reply V) :=
  match p.role with
  | .leader => some (p.onTick env)
  | _ => if p.electionDeadline ≤ env.now then startElection env p else some (p,[])

def handle (env : Env) (p : RaftProtocol V) : Input V → Option (Reply V)
  | .propose value => propose env p value
  | .message sender msg => handleMessage env p sender msg
  | .tick => onTick env p

/-- `flush_persist`: what is left in memory and what is appended to the log on disk. -/
def flushPersist (p : RaftProtocol V) : Option (RaftProtocol V × List (LogEntry V)) :=
  let drained := p.drainPersistIntent
  match drained.2.appendFrom with
  | some idx => (sliceFrom drained.2.logSnapshot idx).map fun es => (drained.1,es)
  | none => some (drained.1,[])

def restoreState (env : Env) (p : RaftProtocol V) (term : ℕ) (votedFor : Option NodeId)
    (log : List (LogEntry V)) (decisions : List (ℕ × V)) (persistedCommitIndex : Option ℕ) :
    Option (RaftProtocol V) :=
  let maxDecided := (decisions.map Prod.fst).max?
  let commitIndex := capIndex log (maxIndex persistedCommitIndex maxDecided)
  let resumeLeader := p.totalNodes = 1 ∧ 0 < term ∧ votedFor = some p.nodeId
  let p := { p with
    currentTerm := term
    votedFor := votedFor
    log := log
    commitIndex := commitIndex
    lastApplied := maxDecided
    electionDeadline := nextDeadline env p.config
    pendingPersistTerm := false
    pendingPersistVotedFor := false
    pendingPersistLogFrom := none
    pendingTruncateFrom := none
    pendingPersistCommitIndex := false
    pendingDecisions := []
    pendingProposals := []
    lostProposals := []
    votesReceived := ∅
    nextIndex := ∅
    matchIndex := ∅ }
  let p := if resumeLeader then
    { p with role := .leader, leader := some p.nodeId }.seedOwnMatch
    else { p with role := .follower, leader := none }
  applyCommittedEntries p

/-- One call with the `flush_persist` that follows it. -/
def step (p : RaftProtocol V) (l : Env × Input V) : Option (RaftProtocol V) := do
  let reply ← handle l.1 p l.2
  let flushed ← flushPersist reply.1
  return flushed.1

/-! Every checked function returns what the unchecked one returns, up to the queue of
decisions, where a wrapped `last_applied` can show. An election is compared on the log
only, since its term can wrap. -/

def bare (p : RaftProtocol V) : RaftProtocol V :=
  { p with pendingDecisions := [], lastApplied := none }

theorem bare_frame {p q : RaftProtocol V} (h : bare p = bare q) :
    p = { q with pendingDecisions := p.pendingDecisions, lastApplied := p.lastApplied } := by
  cases p
  cases q
  simp only [bare,RaftProtocol.mk.injEq] at h ⊢
  simp [h]

theorem bare_emptied {p q : RaftProtocol V} (h : bare p = bare q) :
    bare { p with pendingProposals := [] } = bare { q with pendingProposals := [] } :=
  congrArg (fun r => { r with pendingProposals := [] }) h

/-- The checked reply is there and differs from `r` in the decision queue only. -/
def Safe (c : Option (Reply V)) (r : Reply V) : Prop := ∃ q, c = some (q,r.2) ∧ bare q = bare r.1

theorem Safe.refl (r : Reply V) : Safe (some r) r := ⟨r.1,rfl,rfl⟩

theorem termAt_eq {log : List (LogEntry V)} {i : ℕ} (h : i < log.length) :
    termAt log i = some (RaftProtocol.termAt log i) := by
  simp [termAt,RaftProtocol.termAt,List.getElem?_eq_getElem h]

theorem decisionsBetween_isSome {log : List (LogEntry V)} {start target : ℕ}
    (h : target < log.length) : ∃ ds, decisionsBetween log start target = some ds := by
  have hall : ∀ l : List ℕ, (∀ i ∈ l, i < log.length) → ∃ ds : List (Decision V),
      (l.mapM fun idx => log[idx]?.map fun e => (⟨idx,e.value⟩ : Decision V)) = some ds := by
    intro l
    induction l with
    | nil => exact fun _ => ⟨[],rfl⟩
    | cons i l ih =>
      intro hl
      obtain ⟨ds,hds⟩ := ih fun j hj => hl j (List.mem_cons_of_mem _ hj)
      have hi := hl i List.mem_cons_self
      exact ⟨⟨i,log[i].value⟩ :: ds,by simp [List.mapM_cons,List.getElem?_eq_getElem hi,hds]⟩
  refine hall _ fun i hi => ?_
  rw [List.mem_range'_1] at hi
  omega

theorem applyCommittedEntries_safe {p : RaftProtocol V}
    (h : ∀ c, p.commitIndex = some c → c < p.log.length) :
    ∃ q, applyCommittedEntries p = some q ∧ bare q = bare p.applyCommittedEntries := by
  obtain ⟨ds,la,heq,_⟩ := p.applyCommittedEntries_frame
  have hbare : bare p.applyCommittedEntries = bare p := by
    rw [heq]
    rfl
  rw [hbare]
  unfold applyCommittedEntries
  cases hc : p.commitIndex with
  | none => exact ⟨p,rfl,rfl⟩
  | some target =>
    simp only
    split
    · exact ⟨p,rfl,rfl⟩
    · obtain ⟨ds',hds⟩ : ∃ ds', decisionsBetween p.log (appliedEnd p) target = some ds' :=
        decisionsBetween_isSome (h target hc)
      rw [hds]
      refine ⟨_,rfl,?_⟩
      simp only [bare,hc]

theorem tryAdvanceCommit_safe (p : RaftProtocol V) :
    ∃ q, tryAdvanceCommit p = some q ∧ bare q = bare p.tryAdvanceCommit := by
  unfold tryAdvanceCommit RaftProtocol.tryAdvanceCommit
  simp only
  have hpos : 0 < p.quorum := Nat.succ_pos _
  generalize (p.matchIndex.entries.map Sigma.snd).insertionSort (fun a b => descending a b) =
    indexes
  by_cases hlen : indexes.length < p.quorum
  · have hnone : indexes[p.quorum - 1]? = none := List.getElem?_eq_none (by omega)
    rw [if_pos hlen,hnone]
    exact ⟨p,rfl,rfl⟩
  · obtain ⟨candidate,hget⟩ : ∃ o, indexes[p.quorum - 1]? = some o :=
      ⟨_,List.getElem?_eq_getElem (by omega)⟩
    rw [if_neg hlen,hget]
    cases candidate with
    | none => exact ⟨p,rfl,rfl⟩
    | some c =>
      simp only [Option.bind_eq_bind,Option.bind_some]
      cases he : p.log[c]? with
      | none => exact ⟨p,rfl,rfl⟩
      | some entry =>
        simp only
        split
        · refine applyCommittedEntries_safe fun n hn => ?_
          obtain rfl := Option.some.inj hn
          exact (List.getElem?_eq_some_iff.mp he).1
        · exact ⟨p,rfl,rfl⟩

theorem broadcastWithEntries_safe (env : Env) {p q : RaftProtocol V} (h : bare q = bare p)
    (es : List (LogEntry V)) :
    Safe (broadcastWithEntries env q es) (p.broadcastWithEntries env es) := by
  rw [bare_frame h]
  unfold broadcastWithEntries RaftProtocol.broadcastWithEntries
  by_cases hlt : es.length < p.log.length
  · simp only [hlt,if_true]
    rw [termAt_eq (by omega)]
    exact ⟨_,rfl,rfl⟩
  · simp only [hlt,if_false]
    exact ⟨_,rfl,rfl⟩

theorem becomeLeader_safe (env : Env) (p : RaftProtocol V) :
    Safe (becomeLeader env p) (p.becomeLeader env) := by
  unfold becomeLeader RaftProtocol.becomeLeader
  simp only
  split
  · exact .refl _
  · obtain ⟨q,hq,hbare⟩ := tryAdvanceCommit_safe _
    rw [hq]
    exact broadcastWithEntries_safe env hbare _

/-- A call on `p` returns, and the log it leaves is written as the intents say. -/
def Returns (p : RaftProtocol V) (c : Option (Reply V)) : Prop :=
  ∃ q outs, c = some (q,outs) ∧
    LogChange p.log q.log q.pendingTruncateFrom q.pendingPersistLogFrom

theorem Safe.returns {p : RaftProtocol V} {c : Option (Reply V)} {r : Reply V} (h : Safe c r)
    (hlog : LogChange p.log r.1.log r.1.pendingTruncateFrom r.1.pendingPersistLogFrom) :
    Returns p c := by
  obtain ⟨q,hq,hbare⟩ := h
  refine ⟨q,r.2,hq,?_⟩
  rw [bare_frame hbare]
  exact hlog

/-- Taking office writes at the end of the log. -/
theorem becomeLeader_log (env : Env) {p : RaftProtocol V} {l : List (LogEntry V)} (hl : p.log = l)
    (ht : p.pendingTruncateFrom = none) (ha : p.pendingPersistLogFrom = none) :
    LogChange l (p.becomeLeader env).1.log (p.becomeLeader env).1.pendingTruncateFrom
      (p.becomeLeader env).1.pendingPersistLogFrom := by
  subst hl
  by_cases hp : p.pendingProposals = []
  · rw [p.becomeLeader_of_empty env hp]
    change LogChange p.log p.log p.pendingTruncateFrom p.pendingPersistLogFrom
    rw [ht,ha]
    exact .same
  · rw [p.becomeLeader_of_batch env hp ha]
    obtain ⟨ci,ds,la,b,heq,_⟩ := (p.takeOffice.appendOwn p.batch).tryAdvanceCommit_advanced.frame
    rw [heq]
    change LogChange p.log (p.log ++ p.batch) p.pendingTruncateFrom (some p.log.length)
    rw [ht]
    exact .extended _

theorem startElection_returns (env : Env) {p : RaftProtocol V} (h : Clean p) :
    Returns p (startElection env p) := by
  unfold startElection
  simp only
  split
  · refine (becomeLeader_safe env _).returns ?_
    exact becomeLeader_log env rfl h.truncate h.append
  · refine ⟨_,_,rfl,?_⟩
    split
    · simp only [h.truncate,h.append]
      exact .same
    · simp only [h.truncate,h.append]
      exact .same

theorem handleRequestVoteResponse_safe (env : Env) (p : RaftProtocol V) (sender : NodeId) (term : ℕ)
    (granted : Bool) : Safe (handleRequestVoteResponse env p sender term granted)
      (p.handleRequestVoteResponse env sender term granted) := by
  unfold handleRequestVoteResponse RaftProtocol.handleRequestVoteResponse
  split
  · exact .refl _
  · split
    · simp only
      split
      · exact becomeLeader_safe env _
      · exact .refl _
    · exact .refl _

theorem prevOk_eq (log : List (LogEntry V)) (prev : Option ℕ) (prevTerm : ℕ) :
    prevOk log prev prevTerm = some (RaftProtocol.prevOk log prev prevTerm) := by
  cases prev with
  | none => rfl
  | some i =>
    by_cases h : i < log.length
    · simp [prevOk,RaftProtocol.prevOk,h,termAt_eq h]
    · simp [prevOk,RaftProtocol.prevOk,h]

theorem findTerm_eq {log : List (LogEntry V)} {term : ℕ} {l : List ℕ}
    (h : ∀ i ∈ l, i < log.length) :
    findTerm log term l = some (l.find? fun i => RaftProtocol.termAt log i = term) := by
  induction l with
  | nil => rfl
  | cons i l ih =>
    rw [findTerm,termAt_eq (h i List.mem_cons_self),List.find?_cons,
      ih fun j hj => h j (List.mem_cons_of_mem _ hj)]
    by_cases ht : RaftProtocol.termAt log i = term <;> simp [ht]

theorem conflictHint_eq (log : List (LogEntry V)) (prev : Option ℕ) :
    conflictHint log prev = some (RaftProtocol.conflictHint log prev) := by
  cases prev with
  | none => rfl
  | some idx =>
    by_cases h : log.length ≤ idx
    · simp [conflictHint,RaftProtocol.conflictHint,h]
    · have hfind : findTerm log (RaftProtocol.termAt log idx) (List.range (idx + 1)) = _ :=
        findTerm_eq fun i hi => by
          have := List.mem_range.mp hi
          omega
      simp [conflictHint,RaftProtocol.conflictHint,h,termAt_eq (Nat.not_le.mp h),hfind]

theorem insertEntry_eq (p : RaftProtocol V) (k : ℕ) (e : LogEntry V) :
    insertEntry p k e = some (p.insertEntry k e) := by
  unfold insertEntry RaftProtocol.insertEntry
  split
  · rename_i h
    rw [termAt_eq h]
    simp only [Option.bind_eq_bind,Option.bind_some]
    split <;> rfl
  · rfl

theorem insertEntries_eq (p : RaftProtocol V) (k : ℕ) (es : List (LogEntry V)) :
    insertEntries p k es = some (p.insertEntries k es) := by
  induction es generalizing p k with
  | nil => rfl
  | cons e es ih =>
    rw [insertEntries,insertEntry_eq,RaftProtocol.insertEntries]
    exact ih _ _

theorem followCommit_safe {p : RaftProtocol V} {lc last : Option ℕ}
    (h : ∀ n, last = some n → n < p.log.length) :
    ∃ q, followCommit p lc last = some q ∧ bare q = bare (p.followCommit lc last) := by
  unfold followCommit RaftProtocol.followCommit
  cases lc with
  | none => exact ⟨p,rfl,rfl⟩
  | some c =>
    cases last with
    | none => exact ⟨p,rfl,rfl⟩
    | some n =>
      simp only
      split
      · refine applyCommittedEntries_safe fun k hk => ?_
        obtain rfl := Option.some.inj hk
        exact (Nat.min_le_right _ _).trans_lt (h n rfl)
      · exact ⟨p,rfl,rfl⟩

theorem verified_lt (p : RaftProtocol V) {prev : Option ℕ} (es : List (LogEntry V))
    (hs : startAt prev ≤ p.log.length) {n : ℕ} (hn : verifiedIndex prev es.length = some n) :
    n < ((p.insertEntries (startAt prev) es).truncateUnverified
      (verifiedIndex prev es.length)).log.length := by
  have hlen := p.insertEntries_length es hs
  rw [hn,truncateUnverified_log,List.length_take]
  rw [verifiedIndex_eq] at hn
  split at hn
  · cases hn
  · obtain rfl := Option.some.inj hn
    omega

theorem handleAppendEntries_safe (env : Env) (p : RaftProtocol V) (term : ℕ) (leader : NodeId)
    (prev : Option ℕ) (prevTerm : ℕ) (es : List (LogEntry V)) (lc : Option ℕ) :
    Safe (handleAppendEntries env p term leader prev prevTerm es lc)
      (p.handleAppendEntries env term leader prev prevTerm es lc) := by
  unfold handleAppendEntries RaftProtocol.handleAppendEntries
  split
  · exact .refl _
  split
  · exact .refl _
  simp only [prevOk_eq,Option.bind_eq_bind,Option.bind_some]
  split
  · rw [conflictHint_eq]
    exact .refl _
  · rename_i hok
    have hs : startAt prev ≤ p.log.length := startAt_le_of_prevOk (by simpa using hok)
    rw [insertEntries_eq]
    obtain ⟨q,hq,hbare⟩ : ∃ q, followCommit _ lc (verifiedIndex prev es.length) = some q ∧ _ :=
      followCommit_safe fun n hn => verified_lt
        { p with
          role := .follower
          leader := some leader
          electionDeadline := nextDeadline env p.config } es hs hn
    simp only [Option.bind_some,hq]
    have hterm := congrArg RaftProtocol.currentTerm hbare
    have hbuffer := congrArg RaftProtocol.pendingProposals hbare
    simp only [bare] at hterm hbuffer
    refine ⟨{ q with pendingProposals := [] },?_,bare_emptied hbare⟩
    rw [hterm,hbuffer]
    rfl

theorem handleAppendEntriesResponse_safe (p : RaftProtocol V) (sender : NodeId) (term : ℕ)
    (success : Bool) (mi ct ci : Option ℕ) :
    Safe (handleAppendEntriesResponse p sender term success mi ct ci)
      (p.handleAppendEntriesResponse sender term success mi ct ci) := by
  unfold handleAppendEntriesResponse RaftProtocol.handleAppendEntriesResponse
  split
  · exact .refl _
  split
  · cases mi with
    | none => exact .refl _
    | some m =>
      simp only
      split
      · exact .refl _
      · obtain ⟨q,hq,hbare⟩ := tryAdvanceCommit_safe
          { p with
            matchIndex := p.matchIndex.insert sender (some m)
            nextIndex := p.nextIndex.insert sender (m + 1) }
        rw [hq]
        exact ⟨q,rfl,hbare⟩
  · have hle := p.rewindIndex_le sender ct ci
    simp only [sliceFrom,if_pos hle]
    by_cases h0 : p.rewindIndex sender ct ci = 0
    · simp only [if_pos h0]
      exact .refl _
    · simp only [if_neg h0]
      rw [termAt_eq (by omega)]
      exact .refl _

theorem propose_safe (env : Env) (p : RaftProtocol V) (value : V) :
    Safe (propose env p value) (p.propose env value) := by
  unfold propose
  split
  · rename_i hrole
    unfold RaftProtocol.propose
    simp only [if_pos hrole]
    obtain ⟨q,hq,hbare⟩ := tryAdvanceCommit_safe _
    rw [hq]
    exact broadcastWithEntries_safe env hbare _
  · exact .refl _

theorem handleForward_safe (env : Env) (p : RaftProtocol V) (sender : NodeId) (value : V)
    (hops : ℕ) : Safe (handleForward env p sender value hops)
      (p.handleForward env sender value hops) := by
  unfold handleForward
  split
  · rename_i hrole
    unfold RaftProtocol.handleForward
    simp only [if_pos hrole]
    exact propose_safe env p value
  · exact .refl _

theorem handleMessage_safe (env : Env) (p : RaftProtocol V) (sender : NodeId) (msg : RaftMessage V) :
    Safe (handleMessage env p sender msg) (p.handleMessage env sender msg) := by
  cases msg with
  | requestVote => exact .refl _
  | requestVoteResponse term granted =>
    exact handleRequestVoteResponse_safe env _ sender term granted
  | appendEntries term leader prev prevTerm es lc =>
    exact handleAppendEntries_safe env _ term leader prev prevTerm es lc
  | appendEntriesResponse term success mi ct ci =>
    exact handleAppendEntriesResponse_safe _ sender term success mi ct ci
  | forward value hops => exact handleForward_safe env _ sender value hops

theorem handle_returns (env : Env) {p : RaftProtocol V} (h : Clean p) (input : Input V) :
    Returns p (handle env p input) := by
  cases input with
  | propose value => exact (propose_safe env p value).returns (h.handle env (.propose value)).log
  | message sender msg =>
    exact (handleMessage_safe env p sender msg).returns (h.handle env (.message sender msg)).log
  | tick =>
    change Returns p (onTick env p)
    cases hrole : p.role with
    | leader =>
      simp only [onTick,hrole]
      exact (Safe.refl _).returns (h.handle env .tick).log
    | follower | candidate =>
      simp only [onTick,hrole]
      split
      · exact startElection_returns env h
      · exact (Safe.refl (p,[])).returns h.unlogged.footprint.log

/-- What is still to be written lies inside the log. -/
theorem flushPersist_isSome {p q : RaftProtocol V} (h : LogChange p.log q.log
    q.pendingTruncateFrom q.pendingPersistLogFrom) :
    ∃ es, flushPersist q = some (q.drainPersistIntent.1,es) := by
  have hdrained : q.drainPersistIntent.2.appendFrom = q.pendingPersistLogFrom := rfl
  unfold flushPersist
  cases hidx : q.pendingPersistLogFrom with
  | none =>
    rw [hidx] at hdrained
    simp only [hdrained]
    exact ⟨[],rfl⟩
  | some idx =>
    have hle : idx ≤ q.log.length := by
      rw [hidx] at h
      generalize q.log = l' at h
      generalize q.pendingTruncateFrom = cut at h
      cases h with
      | extended es => simp
      | replaced es hn => simp [Nat.min_eq_left hn]
    have hsnapshot : q.drainPersistIntent.2.logSnapshot = q.log := by
      simp [RaftProtocol.drainPersistIntent,hidx]
    rw [hidx] at hdrained
    simp only [hdrained,hsnapshot,sliceFrom,if_pos hle]
    exact ⟨_,rfl⟩

/-- A call on a state with nothing left to write returns, and leaves such a state. -/
theorem step_isSome {p : RaftProtocol V} (h : Clean p) (l : Env × Input V) :
    ∃ q, step p l = some q ∧ Clean q := by
  obtain ⟨q,outs,hq,hlog⟩ := handle_returns l.1 h l.2
  obtain ⟨es,hes⟩ := flushPersist_isSome hlog
  refine ⟨q.drainPersistIntent.1,?_,⟨rfl,rfl,rfl,rfl,rfl⟩⟩
  simp only [step,hq,hes,Option.bind_eq_bind,Option.bind_some]
  rfl

theorem capIndex_lt {log : List (LogEntry V)} {c : Option ℕ} {n : ℕ}
    (h : capIndex log c = some n) : n < log.length := by
  cases c with
  | none => simp [capIndex] at h
  | some k =>
    simp only [capIndex,lastIndexOf] at h
    split at h
    · cases h
    · simp only [Option.map_some,Option.some.injEq] at h
      omega

/-- Whatever is restored, the entries to apply are in the log. -/
theorem restoreState_isSome (env : Env) (p : RaftProtocol V) (t : ℕ) (v : Option NodeId)
    (l : List (LogEntry V)) (ds : List (ℕ × V)) (ci : Option ℕ) :
    ∃ q, restoreState env p t v l ds ci = some q ∧ Clean q := by
  have heq : restoreState env p t v l ds ci = applyCommittedEntries (restored env p t v l ds ci) := by
    unfold restoreState restored
    simp only
    by_cases hs : p.totalNodes = 1 ∧ 0 < t ∧ v = some p.nodeId
    · have hs' : resumes p t v := hs
      rw [if_pos hs,RaftProtocol.seedOwnMatch_eq _ rfl]
      simp only [hs',if_true]
    · have hs' : ¬ resumes p t v := hs
      rw [if_neg hs]
      simp only [hs',if_false]
  obtain ⟨q,hq,hbare⟩ := applyCommittedEntries_safe (p := restored env p t v l ds ci)
    fun _ hc => capIndex_lt hc
  have hclean : Clean (restored env p t v l ds ci).applyCommittedEntries :=
    Clean.applied ⟨rfl,rfl,rfl,rfl,rfl⟩
  refine ⟨q,heq.trans hq,?_⟩
  rw [bare_frame hbare]
  exact ⟨hclean.term,hclean.votedFor,hclean.truncate,hclean.append,hclean.commitIndex⟩

inductive Started : RaftProtocol V → Prop
  | new (env : Env) (id : NodeId) (total : ℕ) (cfg : RaftConfig) :
      Started (.new env id total cfg)
  | restored {p q : RaftProtocol V} (env : Env) (t : ℕ) (v : Option NodeId)
      (l : List (LogEntry V)) (ds : List (ℕ × V)) (ci : Option ℕ)
      (h : restoreState env p t v l ds ci = some q) : Started q

theorem Started.clean {p : RaftProtocol V} (h : Started p) : Clean p := by
  cases h with
  | new => exact ⟨rfl,rfl,rfl,rfl,rfl⟩
  | restored env t v l ds ci h =>
    obtain ⟨q,hq,hclean⟩ := restoreState_isSome env _ t v l ds ci
    exact Option.some.inj (h.symm.trans hq) ▸ hclean

/-- No access is out of bounds: restoring any state returns, and from a fresh or
restored state every sequence of calls, whatever the messages carry, returns. -/
theorem accesses_in_bounds {start p : RaftProtocol V} (hstart : Started start)
    (hrun : Runs.Reaches step (fun _ _ => True) start p) :
    (∀ env input, (step p (env,input)).isSome) ∧
      ∀ env t v l ds ci, (restoreState env p t v l ds ci).isSome := by
  have hclean : Clean p := hrun.invariant Clean hstart.clean fun s l s' _ h _ hs => by
    obtain ⟨q,hq,hq'⟩ := step_isSome h l
    exact Option.some.inj (hq.symm.trans hs) ▸ hq'
  constructor
  · intro env input
    obtain ⟨q,hq,-⟩ := step_isSome hclean (env,input)
    rw [hq]
    rfl
  · intro env t v l ds ci
    obtain ⟨q,hq,-⟩ := restoreState_isSome env p t v l ds ci
    rw [hq]
    rfl

/-- A node restored with a commit index far past its log is sent a message whose
every index is out of range. -/
theorem accesses_in_bounds_hostile :
    ∃ p : RaftProtocol ℕ,
      restoreState ⟨0,0⟩ (.new ⟨0,0⟩ ⟨"a",0⟩ 3 ⟨50,150,300⟩) 4 none [⟨1,5⟩] [(2 ^ 64 - 1,5)]
        (some 90) = some p ∧
      (step p (⟨1,0⟩,.message ⟨"x",7⟩
        (.appendEntries 9 ⟨"x",7⟩ (some 70) 80 [⟨8,6⟩] (some (2 ^ 64 - 1))))).isSome := by
  obtain ⟨p,hp,-⟩ := restoreState_isSome ⟨0,0⟩ (.new ⟨0,0⟩ ⟨"a",0⟩ 3 ⟨50,150,300⟩) 4 none [⟨1,5⟩]
    [(2 ^ 64 - 1,5)] (some 90)
  exact ⟨p,hp,(accesses_in_bounds (.restored _ _ _ _ _ _ hp) .start).1 _ _⟩

end Checked
end RaftProtocol
end Raft
end Daccord
