import Daccord.PaxosCounters
import Daccord.RaftHandlers
import Daccord.RaftNode

/-! Counters as `u64`s. None of them overflows or goes back in a run for which there
is room: one too short to get from the numbers in its messages to the end of the
range. A single message with a number at the end of the range is enough otherwise. -/
namespace Daccord

namespace Raft

variable {V : Type}

namespace RaftProtocol

@[simp] theorem currentTerm_tryAdvanceCommit (p : RaftProtocol V) :
    p.tryAdvanceCommit.currentTerm = p.currentTerm := by
  obtain ⟨_,_,_,_,heq,_⟩ := p.tryAdvanceCommit_advanced.frame
  rw [heq]

@[simp] theorem currentTerm_markPersistFrom (p : RaftProtocol V) (idx : ℕ) :
    (p.markPersistFrom idx).currentTerm = p.currentTerm := by
  unfold markPersistFrom
  split <;> rfl

@[simp] theorem currentTerm_becomeLeader (env : Env) (p : RaftProtocol V) :
    (p.becomeLeader env).1.currentTerm = p.currentTerm := by
  have hseed : ∀ q : RaftProtocol V, q.seedOwnMatch.currentTerm = q.currentTerm := by
    intro q
    unfold seedOwnMatch
    split <;> rfl
  unfold becomeLeader
  simp only
  split
  · simp only [broadcastHeartbeat,hseed]
  · simp only [broadcastWithEntries,currentTerm_tryAdvanceCommit,currentTerm_markPersistFrom,hseed]

@[simp] theorem currentTerm_insertEntries (p : RaftProtocol V) (insertAt : ℕ)
    (entries : List (LogEntry V)) :
    (p.insertEntries insertAt entries).currentTerm = p.currentTerm := by
  induction entries generalizing p insertAt with
  | nil => rfl
  | cons entry rest ih =>
    rw [insertEntries,ih]
    unfold insertEntry
    split
    · split <;> rfl
    · rw [currentTerm_markPersistFrom]

@[simp] theorem currentTerm_truncateUnverified (p : RaftProtocol V) (matchIdx : Option ℕ) :
    (p.truncateUnverified matchIdx).currentTerm = p.currentTerm := by
  unfold truncateUnverified
  split
  · rfl
  · split <;> rfl

@[simp] theorem currentTerm_followCommit (p : RaftProtocol V) (leaderCommit matchIdx : Option ℕ) :
    (p.followCommit leaderCommit matchIdx).currentTerm = p.currentTerm := by
  obtain ⟨_,_,_,_,heq,_⟩ := (p.followCommit_advanced leaderCommit matchIdx).frame
  rw [heq]

@[simp] theorem currentTerm_propose (env : Env) (p : RaftProtocol V) (value : V) :
    (p.propose env value).1.currentTerm = p.currentTerm := by
  unfold propose
  split
  · simp only [broadcastWithEntries,currentTerm_tryAdvanceCommit,currentTerm_markPersistFrom]
  · split <;> rfl

/-- Only a step-down changes the term of a node that is sent a message. -/
@[simp] theorem currentTerm_dispatch (env : Env) (p : RaftProtocol V) (sender : NodeId)
    (msg : RaftMessage V) : (p.dispatch env sender msg).1.currentTerm = p.currentTerm := by
  unfold dispatch
  cases msg with
  | requestVote term candidate lastLogIndex lastLogTerm =>
    simp only
    rcases handleRequestVote_cases env p term candidate lastLogIndex lastLogTerm with
      heq | ⟨_,_,_,heq⟩
    · rw [heq]
    · rw [heq]
  | requestVoteResponse term granted =>
    simp only [handleRequestVoteResponse]
    split
    · rfl
    · split
      · split
        · rw [currentTerm_becomeLeader]
        · rfl
      · rfl
  | appendEntries term leader prev prevTerm entries leaderCommit =>
    simp only [handleAppendEntries]
    split
    · rfl
    · split
      · rfl
      · split
        · rfl
        · simp only [currentTerm_followCommit,currentTerm_truncateUnverified,
            currentTerm_insertEntries]
  | appendEntriesResponse term success matchIndex conflictTerm conflictIndex =>
    simp only [handleAppendEntriesResponse]
    split
    · rfl
    · split
      · split
        · rfl
        · split
          · rfl
          · rw [currentTerm_tryAdvanceCommit]
      · rfl
  | forward value hops =>
    simp only [handleForward]
    split
    · rw [currentTerm_propose]
    · split
      · split
        · split <;> rfl
        · rfl
      · rfl

end RaftProtocol

namespace Machine

variable (k : Profile)

/-- `start_election` in `u64` arithmetic; `none` is a panic. -/
def startElection (env : Env) (p : RaftProtocol V) : Option (Reply V) := do
  let wasCandidate := p.role = .candidate
  let term ← k.succ p.currentTerm
  let p := { p with
    currentTerm := term
    role := .candidate
    votedFor := some p.nodeId
    votesReceived := {p.nodeId}
    leader := none
    electionDeadline := nextDeadline env p.config
    pendingPersistTerm := true
    pendingPersistVotedFor := true }
  if p.quorum ≤ p.votesReceived.card then return p.becomeLeader env
  else
    let p := if wasCandidate then
      { p with lostProposals := p.lostProposals ++ p.pendingProposals, pendingProposals := [] }
      else p
    return (p,[⟨.broadcast,.requestVote p.currentTerm p.nodeId p.lastLogIndex p.lastLogTerm⟩])

def onTick (env : Env) (p : RaftProtocol V) : Option (Reply V) :=
  match p.role with
  | .leader => some (p.onTick env)
  | _ => if p.electionDeadline ≤ env.now then startElection k env p else some (p,[])

/-- Nothing else adds to the term. -/
def handle (env : Env) (p : RaftProtocol V) : Input V → Option (Reply V)
  | .tick => onTick k env p
  | input => some (p.handle env input)

def step (p : RaftProtocol V) (call : Env × Input V) : Option (RaftProtocol V) :=
  (handle k call.1 p call.2).map Prod.fst

end Machine

def BoundedCall (B : ℕ) (_ : RaftProtocol V) (call : Env × Input V) : Prop :=
  match call.2 with
  | .message _ msg => ∀ t ∈ RaftProtocol.incomingTerm msg, t ≤ B
  | _ => True

instance (B : ℕ) (p : RaftProtocol V) (call : Env × Input V) : Decidable (BoundedCall B p call) :=
  match call with
  | (_,.message _ msg) =>
    inferInstanceAs (Decidable (∀ t ∈ RaftProtocol.incomingTerm msg, t ≤ B))
  | (_,.propose _) | (_,.tick) => .isTrue trivial

section
variable {k : Profile} {B n : ℕ} {p q : RaftProtocol V} {env : Env}

theorem Machine.handle_eq (h : p.currentTerm + 1 < 2 ^ 64) (env : Env) (input : Input V) :
    Machine.handle k env p input = some (p.handle env input) := by
  cases input with
  | propose value => rfl
  | message sender msg => rfl
  | tick =>
    have hstart : Machine.startElection k env p = some (p.startElection env) := by
      unfold Machine.startElection RaftProtocol.startElection
      simp only [k.succ_of_lt h,Option.bind_eq_bind,Option.bind_some]
      split <;> rfl
    change Machine.onTick k env p = some (p.onTick env)
    unfold Machine.onTick RaftProtocol.onTick
    cases p.role with
    | leader => rfl
    | follower =>
      simp only
      split
      · exact hstart
      · rfl
    | candidate =>
      simp only
      split
      · exact hstart
      · rfl

theorem RaftProtocol.startElection_term (env : Env) (p : RaftProtocol V) :
    (p.startElection env).1.currentTerm = p.currentTerm + 1 := by
  rcases p.startElection_cases env with ⟨_,heq⟩ | ⟨_,_,_,heq⟩
  · rw [heq,RaftProtocol.currentTerm_becomeLeader]
    rfl
  · rw [heq]
    rfl

/-- A call raises the term by one or to the one of its message. -/
theorem RaftProtocol.handle_term (input : Input V) (hb : BoundedCall B p (env,input)) :
    p.currentTerm ≤ (p.handle env input).1.currentTerm ∧
      (p.handle env input).1.currentTerm ≤ max (p.currentTerm + 1) B := by
  cases input with
  | propose value =>
    have heq : (p.handle env (.propose value)).1.currentTerm = p.currentTerm :=
      p.currentTerm_propose env value
    omega
  | message sender msg =>
    have heq : (p.handle env (.message sender msg)).1.currentTerm =
        (p.bumpTerm env msg).currentTerm := currentTerm_dispatch env _ sender msg
    rcases p.bumpTerm_cases env msg with ⟨hsame,_⟩ | ⟨t,ht,hlt,hbump⟩
    · rw [hsame] at heq
      omega
    · have hle : t ≤ B := hb t ht
      have hterm : (p.bumpTerm env msg).currentTerm = t := by rw [hbump]
      omega
  | tick =>
    rcases p.onTick_cases env with heq | ⟨_,heq⟩ | ⟨_,heq⟩
    · have hsame : (p.handle env .tick).1.currentTerm = p.currentTerm :=
        congrArg (fun r : Reply V => r.1.currentTerm) heq
      omega
    · have hsame : (p.handle env .tick).1.currentTerm = p.currentTerm :=
        congrArg (fun r : Reply V => r.1.currentTerm) heq
      omega
    · have hnext : (p.handle env .tick).1.currentTerm = p.currentTerm + 1 :=
        (congrArg (fun r : Reply V => r.1.currentTerm) heq).trans (p.startElection_term env)
      omega

/-- A run of `ls` that there is room for: the term fits and has not gone back. -/
theorem Machine.run_term {ls : List (Env × Input V)} (h : p.currentTerm ≤ B + n)
    (hrun : Runs.Trace (Machine.step k) (BoundedCall B) p ls q)
    (hroom : B + (n + ls.length) < 2 ^ 64) :
    p.currentTerm ≤ q.currentTerm ∧ q.currentTerm ≤ B + (n + ls.length) := by
  refine hrun.counted (fun i q => B + (n + i) < 2 ^ 64 →
    p.currentTerm ≤ q.currentTerm ∧ q.currentTerm ≤ B + (n + i)) ?_ ?_ hroom
  · exact fun _ => ⟨le_rfl,h⟩
  · intro i x call y hx hb hstep hroom
    obtain ⟨hle,hfits⟩ := hx (by omega)
    unfold Machine.step at hstep
    rw [Machine.handle_eq (by omega)] at hstep
    cases hstep
    obtain ⟨hraised,hbound⟩ := RaftProtocol.handle_term call.2 hb
    refine ⟨hle.trans hraised,hbound.trans (max_le ?_ ?_)⟩
    · omega
    · omega

end

end Raft

def Room (B n : ℕ) : Prop := B + n + 2 < 2 ^ 64

/-- In a run for which there is room, in either build, the next call computes what it
would without a bound on its counters, and no counter has gone back between any two
of the states. -/
theorem counters_never_wrap {V : Type} [DecidableEq V] (k : Profile) (B : ℕ) :
    (∀ env nodeId totalNodes config ls ls' (p q : Raft.RaftProtocol V),
      Runs.Trace (Raft.Machine.step k) (Raft.BoundedCall B) (.new env nodeId totalNodes config) ls p →
      Runs.Trace (Raft.Machine.step k) (Raft.BoundedCall B) p ls' q →
      Room B (ls.length + ls'.length) →
        p.currentTerm ≤ q.currentTerm ∧
        ∀ now input, Raft.Machine.handle k now q input = some (q.handle now input)) ∧
    (∀ multi env nodeId totalNodes config ls ls' (p q : Paxos.PaxosProtocol V),
      Runs.Trace (Paxos.Machine.step k) (Paxos.BoundedCall B)
        (.new multi env nodeId totalNodes config) ls p →
      Runs.Trace (Paxos.Machine.step k) (Paxos.BoundedCall B) p ls' q →
      Room B (ls.length + ls'.length) →
        p.nextSlot ≤ q.nextSlot ∧ p.highestSeenRound ≤ q.highestSeenRound ∧
        (∀ slot, (p.instanceAt slot).isProposer = true → slot ∉ q.decidedSlots →
          (p.instanceAt slot).proposalNumber.round ≤ (q.instanceAt slot).proposalNumber.round) ∧
        (∀ e ∈ p.election, ∀ e' ∈ q.election,
          e.proposalNumber.round ≤ e'.proposalNumber.round) ∧
        ∀ now input, Paxos.BoundedCall B q (now,input) →
          Paxos.Machine.handle k now q input = some (q.handle now input)) := by
  refine ⟨fun env nodeId totalNodes config ls ls' p q hp hq hroom => ?_,
    fun multi env nodeId totalNodes config ls ls' p q hp hq hroom => ?_⟩
  · unfold Room at hroom
    obtain ⟨_,hfits⟩ := Raft.Machine.run_term (Nat.zero_le (B + 0)) hp (by omega)
    obtain ⟨hle,hfits⟩ := Raft.Machine.run_term hfits hq (by omega)
    exact ⟨hle,Raft.Machine.handle_eq (by omega)⟩
  · unfold Room at hroom
    have htidy := Paxos.Tidy.new (V := V) multi env nodeId totalNodes config
    obtain ⟨hfits,hkeeps,_⟩ := Paxos.Machine.run_fits
      (.new (by omega) multi env nodeId totalNodes config) htidy hp (by omega)
    obtain ⟨hfits,hkept,hraises⟩ := Paxos.Machine.run_fits hfits hkeeps.tidy hq (by omega)
    refine ⟨hraises.nextSlot,hraises.seen,fun slot hp hd => (hraises.rounds trivial hd hp).2,
      fun e he e' he' => hkept.election_le hkeeps.tidy he he',fun now input hb => ?_⟩
    exact (hfits.handle hkept.tidy (by omega) input hb).1

section Example

def voter : Raft.RaftProtocol ℕ := .new ⟨0,0⟩ ⟨"a",1⟩ 3 ⟨50,150,300⟩

def asked : Raft.RaftProtocol ℕ :=
  Runs.after (Raft.Machine.step .dev) (Raft.BoundedCall 5) voter
    [(⟨1,0⟩,.message ⟨"c",1⟩ (.requestVote 5 ⟨"c",1⟩ none 0))] (by decide +kernel)

def asking : Raft.RaftProtocol ℕ :=
  Runs.after (Raft.Machine.step .dev) (Raft.BoundedCall 5) asked [(⟨1000,0⟩,.tick)]
    (by decide +kernel)

def retrying : Paxos.PaxosProtocol ℕ :=
  Runs.after (Paxos.Machine.step .dev) (Paxos.BoundedCall 5) Paxos.follower
    [(.steady 1,.propose 7),
      (.steady 2,.message ⟨"c",1⟩ (.nackPrepare 0 (.mk 1 ⟨"b",1⟩) (.mk 5 ⟨"c",1⟩))),
      (.steady 600,.tick)] (by decide +kernel)

def elected : Paxos.PaxosProtocol ℕ :=
  Runs.after (Paxos.Machine.step .dev) (Paxos.BoundedCall 5) retrying
    [(.steady 601,.message ⟨"c",1⟩ (.decide 5 8)),(.steady 602,.propose 9)] (by decide +kernel)

theorem counters_never_wrap_elected :
    asked.currentTerm = 5 ∧ asking.currentTerm = 6 ∧ asked.currentTerm ≤ asking.currentTerm ∧
      (retrying.instanceAt 0).proposalNumber.round = 6 ∧ elected.nextSlot = 7 ∧
      retrying.nextSlot ≤ elected.nextSlot := by
  obtain ⟨hraft,hpaxos⟩ := counters_never_wrap (V := ℕ) .dev 5
  refine ⟨by decide +kernel,by decide +kernel,?_,by decide +kernel,by decide +kernel,?_⟩
  · exact (hraft _ _ _ _ _ _ asked asking (Runs.after_trace (by decide +kernel))
      (Runs.after_trace (by decide +kernel)) (by unfold Room; decide)).1
  · exact (hpaxos _ _ _ _ _ _ _ retrying elected (Runs.after_trace (by decide +kernel))
      (Runs.after_trace (by decide +kernel)) (by unfold Room; decide)).1

def maxWord : ℕ := 2 ^ 64 - 1

def Raft.Machine.calls (k : Profile) (ls : List (Env × Raft.Input ℕ)) :
    Option (Raft.RaftProtocol ℕ) :=
  Runs.exec (Raft.Machine.step k) (fun _ _ => True) voter ls

def Paxos.Machine.calls (k : Profile) (ls : List (Paxos.PaxosEnv × Paxos.Input ℕ)) :
    Option (Paxos.PaxosProtocol ℕ) :=
  Runs.exec (Paxos.Machine.step k) (fun _ _ => True) Paxos.follower ls

def hears (now : ℕ) (msg : PaxosMessage ℕ) : Paxos.PaxosEnv × Paxos.Input ℕ :=
  (.steady now,.message ⟨"c",1⟩ msg)

def wakes (now : ℕ) : Paxos.PaxosEnv × Paxos.Input ℕ := (.steady now,.tick)

def courted : List (Env × Raft.Input ℕ) :=
  [(⟨1,0⟩,.message ⟨"c",1⟩ (.requestVote maxWord ⟨"c",1⟩ none 0))]

def canvassing : Env × Raft.Input ℕ := (⟨1000,0⟩,.tick)

def informed : List (Paxos.PaxosEnv × Paxos.Input ℕ) := [hears 1 (.decide 0 7)]

def refused : List (Paxos.PaxosEnv × Paxos.Input ℕ) :=
  [(.steady 1,.propose 7),hears 2 (.nackPrepare 0 (.mk 1 ⟨"b",1⟩) (.mk maxWord ⟨"c",1⟩))]

/-- Two retries, the second of them in the tick that starts an election. -/
def unheard : List (Paxos.PaxosEnv × Paxos.Input ℕ) := [(.steady 1,.propose 7),wakes 300,wakes 600]

def outranked : List (Paxos.PaxosEnv × Paxos.Input ℕ) :=
  unheard ++ [hears 601 (.nackLeader (.mk 1 ⟨"b",1⟩) (.mk maxWord ⟨"c",1⟩))]

/-- The promise that completes the election, with a value accepted in `slot`. -/
def supports (slot : ℕ) : Paxos.PaxosEnv × Paxos.Input ℕ :=
  hears 601 (.promiseLeader (.mk 1 ⟨"b",1⟩) [(slot,.mk 1 ⟨"c",1⟩,9)])

def firstRound (p : Paxos.PaxosProtocol ℕ) : ℕ := (p.instanceAt 0).proposalNumber.round

def electionRound (p : Paxos.PaxosProtocol ℕ) : Option ℕ :=
  p.election.map fun e => e.proposalNumber.round

/-- A message with a number at the end of the range makes the next sum overflow: a
`dev` build panics, in a `release` build the counter starts over. A recovered value
is replayed under a round below the last retry, with no overflow at all. -/
theorem counters_overflow :
    -- `current_term += 1`
    ((Raft.Machine.calls .dev courted).map Raft.RaftProtocol.currentTerm = some maxWord ∧
      (Raft.Machine.calls .dev (courted ++ [canvassing])).isNone = true ∧
      (Raft.Machine.calls .release (courted ++ [canvassing])).map
        Raft.RaftProtocol.currentTerm = some 0) ∧
    -- `slot + 1`
    ((Paxos.Machine.calls .dev informed).map Paxos.PaxosProtocol.nextSlot = some 1 ∧
      (Paxos.Machine.calls .dev (informed ++ [hears 2 (.decide maxWord 8)])).isNone = true ∧
      (Paxos.Machine.calls .release (informed ++ [hears 2 (.decide maxWord 8)])).map
        Paxos.PaxosProtocol.nextSlot = some 0) ∧
    -- `max(..) + 1`
    ((Paxos.Machine.calls .dev refused).map firstRound = some 1 ∧
      (Paxos.Machine.calls .dev (refused ++ [wakes 300])).isNone = true ∧
      (Paxos.Machine.calls .release (refused ++ [wakes 300])).map firstRound = some 0) ∧
    -- `highest_seen_round + 1`
    ((Paxos.Machine.calls .dev unheard).map electionRound = some (some 1) ∧
      (Paxos.Machine.calls .dev outranked).isSome = true ∧
      (Paxos.Machine.calls .dev (outranked ++ [wakes 1200])).isNone = true ∧
      (Paxos.Machine.calls .release (outranked ++ [wakes 1200])).map electionRound =
        some (some 0)) ∧
    -- `m + 1`
    (Paxos.Machine.calls .dev (unheard ++ [supports maxWord])).isNone = true ∧
    -- the replay
    ((Paxos.Machine.calls .dev unheard).map firstRound = some 3 ∧
      (Paxos.Machine.calls .dev (unheard ++ [supports 0])).map firstRound = some 1) := by
  refine ⟨⟨?_,?_,?_⟩,⟨?_,?_,?_⟩,⟨?_,?_,?_⟩,⟨?_,?_,?_,?_⟩,?_,?_,?_⟩ <;> decide +kernel

end Example

end Daccord
