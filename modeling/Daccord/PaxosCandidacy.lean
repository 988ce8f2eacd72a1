import Daccord.PaxosFencing

/-! The office of a node: its role, its election and when that began. What a node
does in single slots leaves it alone. A candidate loses its election, but not its
role, to a `PrepareLeader` above its own number. -/
namespace Daccord
namespace Paxos

variable {V : Type}

structure Office (V : Type) where
  leaderState : LeaderState
  election : Option (ElectionState V)
  electionStartedAt : Option ℕ
  highestSeenRound : ℕ

def Office.Campaigning (o : Office V) : Prop :=
  o.leaderState = .candidate → o.election.isSome = true ∧ o.electionStartedAt.isSome = true

namespace PaxosProtocol

def office (p : PaxosProtocol V) : Office V :=
  ⟨p.leaderState,p.election,p.electionStartedAt,p.highestSeenRound⟩

@[simp] theorem office_putInstance (p : PaxosProtocol V) (slot : ℕ) (inst : PaxosInstance V) :
    (p.putInstance slot inst).office = p.office := rfl

@[simp] theorem office_handlePrepare (p : PaxosProtocol V) (sender : NodeId) (slot : ℕ)
    (pn : ProposalNumber) : (p.handlePrepare sender slot pn).1.office = p.office := by
  unfold handlePrepare
  split
  · rfl
  · simp only
    split
    · rfl
    · split <;> rfl

@[simp] theorem office_handleAccept (p : PaxosProtocol V) (sender : NodeId) (slot : ℕ)
    (pn : ProposalNumber) (value : V) :
    (p.handleAccept sender slot pn value).1.office = p.office := by
  unfold handleAccept
  split
  · rfl
  · simp only
    split
    · rfl
    · split <;> rfl

theorem office_runAll {A : Type} {f : A → PaxosProtocol V → Reply V}
    (hf : ∀ a p, (f a p).1.office = p.office) (p : PaxosProtocol V) (l : List A) :
    (runAll f p l).1.office = p.office :=
  runAll_invariant (fun q => q.office = p.office) (fun a q hq => (hf a q).trans hq) rfl l

section
variable [DecidableEq V]

@[simp] theorem office_conclude (p : PaxosProtocol V) (env : PaxosEnv) (slot : ℕ) (value : V) :
    (p.conclude env slot value).1.office = p.office := by
  obtain ⟨_,_,heq⟩ := p.conclude_frame env slot value
  rw [heq]
  rfl

@[simp] theorem office_selfAccept (p : PaxosProtocol V) (env : PaxosEnv) (slot : ℕ)
    (inst : PaxosInstance V) (pn : ProposalNumber) (value : V) :
    (p.selfAccept env slot inst pn value).1.office = p.office := by
  unfold selfAccept
  simp only
  split
  · rw [office_conclude]
    rfl
  · rfl

@[simp] theorem office_startPhase2 (p : PaxosProtocol V) (env : PaxosEnv) (slot : ℕ) :
    (p.startPhase2 env slot).1.office = p.office := by
  unfold startPhase2
  split
  · rfl
  · split
    · rfl
    · simp only
      split
      · rw [office_selfAccept]
      · split
        · rw [office_conclude]
        · rfl

@[simp] theorem office_handlePromise (p : PaxosProtocol V) (env : PaxosEnv) (sender : NodeId)
    (slot : ℕ) (pn : ProposalNumber) (accepted : Option (ProposalNumber × V)) :
    (p.handlePromise env sender slot pn accepted).1.office = p.office := by
  unfold handlePromise
  split
  · rfl
  · split
    · rfl
    · split
      · simp only
        split
        · rw [office_startPhase2,office_putInstance]
        · rfl
      · rfl

@[simp] theorem office_handleAccepted (p : PaxosProtocol V) (env : PaxosEnv) (sender : NodeId)
    (slot : ℕ) (pn : ProposalNumber) (value : V) :
    (p.handleAccepted env sender slot pn value).1.office = p.office := by
  unfold handleAccepted
  split
  · rfl
  · split
    · rfl
    · split
      · simp only
        split
        · split
          · rfl
          · rw [office_conclude,office_putInstance]
        · rfl
      · rfl

@[simp] theorem office_innerPropose (p : PaxosProtocol V) (env : PaxosEnv) (value : V) :
    (p.innerPropose env value).1.office = p.office := by
  have hfull : (p.proposeFullPaxos env value).1.office = p.office := by
    unfold proposeFullPaxos
    simp only
    split
    · rw [office_startPhase2,office_putInstance]
      rfl
    · rfl
  have hfast : ∀ term, (p.proposeFastPath env value term).1.office = p.office := by
    intro term
    unfold proposeFastPath
    rw [office_selfAccept]
    rfl
  unfold innerPropose
  split
  · split
    · exact hfast _
    · exact hfull
  · exact hfull

@[simp] theorem office_retryProposal (p : PaxosProtocol V) (env : PaxosEnv) (slot : ℕ) :
    (p.retryProposal env slot).1.office = p.office := by
  unfold retryProposal
  split
  · rfl
  · split
    · simp only
      split
      · rw [office_startPhase2,office_putInstance]
      · rfl
    · rfl

@[simp] theorem office_replayAccept (p : PaxosProtocol V) (env : PaxosEnv) (pn : ProposalNumber)
    (recovered : ℕ × V) : (p.replayAccept env pn recovered).1.office = p.office := by
  unfold replayAccept
  simp only
  split
  · rfl
  · rw [office_selfAccept]

@[simp] theorem office_propose (p : PaxosProtocol V) (env : PaxosEnv) (value : V) :
    (p.propose env value).1.office = p.office := by
  unfold propose proposeOrForward
  split
  · split
    · split
      · rfl
      · rw [office_innerPropose]
    · rw [office_innerPropose]
  · rw [office_innerPropose]

@[simp] theorem office_handleForward (p : PaxosProtocol V) (env : PaxosEnv) (value : V) :
    (p.handleForward env value).1.office = p.office := by
  unfold handleForward
  split
  · rw [office_innerPropose]
  · rfl

@[simp] theorem office_handleForwardedProposalTimeouts (p : PaxosProtocol V) (env : PaxosEnv) :
    (p.handleForwardedProposalTimeouts env).1.office = p.office := by
  unfold handleForwardedProposalTimeouts
  rw [office_runAll fun value q => q.office_innerPropose env value]
  rfl

/-- A node that takes office has no election left. -/
theorem office_completeLeaderElection (p : PaxosProtocol V) (env : PaxosEnv) {e : ElectionState V}
    (he : p.election = some e) : (p.completeLeaderElection env).1.office =
      ⟨.leader e.proposalNumber.round,none,none,max p.highestSeenRound e.proposalNumber.round⟩ := by
  unfold completeLeaderElection
  rw [he]
  simp only
  rw [office_runAll fun r q => q.office_replayAccept env e.proposalNumber r]
  rfl

end

end PaxosProtocol

namespace Office.Campaigning

variable {p : PaxosProtocol V} {env : PaxosEnv}

theorem of_ne {o : Office V} (h : o.leaderState ≠ .candidate) : o.Campaigning :=
  fun hc => absurd hc h

theorem handleNack (h : p.office.Campaigning) (slot : ℕ) (pn : ProposalNumber) :
    (p.handleNack env slot pn).office.Campaigning := by
  -- what is noted in the slot leaves the office alone
  have hnote : ∀ q : PaxosProtocol V, q.office = p.office → (if q.multi then
      if (q.updateHighestSeenRound pn.round).isLeader then
        (q.updateHighestSeenRound pn.round).stepDown env none
      else q.updateHighestSeenRound pn.round
      else q).office.Campaigning := by
    intro q hq
    have hq' : q.office.Campaigning := hq ▸ h
    split
    · split
      · exact of_ne nofun
      · exact hq'
    · exact hq'
  unfold PaxosProtocol.handleNack
  refine hnote _ ?_
  split <;> rfl

theorem handleHeartbeat (h : p.office.Campaigning) (sender : NodeId) (term : ℕ) :
    (p.handleHeartbeat env sender term).office.Campaigning := by
  unfold PaxosProtocol.handleHeartbeat PaxosProtocol.updateLeaderContact
  split
  · simp only
    split
    · split
      · exact of_ne nofun
      · exact h
    · exact of_ne nofun
  · exact h

theorem handleNackLeader (p : PaxosProtocol V) (env : PaxosEnv) (pn : ProposalNumber) :
    (p.handleNackLeader env pn).office.Campaigning := by
  unfold PaxosProtocol.handleNackLeader
  simp only
  split
  · exact of_ne nofun
  · rename_i hne
    exact of_ne hne

theorem checkElectionTimeout (h : p.office.Campaigning) :
    (p.checkElectionTimeout env).office.Campaigning := by
  unfold PaxosProtocol.checkElectionTimeout
  split
  · exact h
  · split
    · exact of_ne nofun
    · exact h

/-- A node that grants a leader promise is a candidate only if it was one before. -/
theorem submit (sender : NodeId) {pn : ProposalNumber} (hp : p.leaderState ≠ .candidate) :
    (p.submit env sender pn).office.Campaigning := by
  have hyield : ∀ q : PaxosProtocol V, q.leaderState ≠ .candidate →
      (q.yieldElection pn).office.Campaigning := by
    intro q hq
    unfold PaxosProtocol.yieldElection
    split
    · split <;> exact of_ne hq
    · exact of_ne hq
  unfold PaxosProtocol.submit
  refine hyield _ ?_
  split
  · exact nofun
  · exact hp

variable [DecidableEq V]

theorem handleDecide (h : p.office.Campaigning) (sender : NodeId) (slot : ℕ) (value : V) :
    (p.handleDecide env sender slot value).office.Campaigning := by
  have htouch : (p.touchLeader env sender).office.Campaigning := by
    unfold PaxosProtocol.touchLeader
    split
    · split
      · exact of_ne nofun
      · exact h
    · exact h
  have hp : (if p.multi then p.touchLeader env sender else p).office.Campaigning := by
    split
    · exact htouch
    · exact h
  unfold PaxosProtocol.handleDecide
  simp only
  generalize (if p.multi then p.touchLeader env sender else p) = q at hp
  split
  · exact hp
  · have hsame := (q.lose (q.outvoted slot value)).office_conclude env slot value
    exact hsame ▸ hp

omit [DecidableEq V] in
theorem handlePrepareLeader (h : p.office.Campaigning) (sender : NodeId) (pn : ProposalNumber)
    (since : ℕ) (hlow : p.leaderState = .candidate → ∃ l ∈ p.leaderPromise, pn ≤ l) :
    (p.handlePrepareLeader env sender pn since).1.office.Campaigning := by
  unfold PaxosProtocol.handlePrepareLeader
  split
  · rename_i hnone
    refine submit sender fun hc => ?_
    obtain ⟨l,hl,_⟩ := hlow hc
    rw [hnone] at hl
    cases hl
  · rename_i l hl
    split
    · rename_i hlt
      refine submit sender fun hc => ?_
      obtain ⟨l',hl',hle⟩ := hlow hc
      cases hl.symm.trans hl'
      exact absurd hlt hle.not_gt
    · exact h

theorem completeLeaderElection {e : ElectionState V} (he : p.election = some e) :
    (p.completeLeaderElection env).1.office.Campaigning := by
  rw [p.office_completeLeaderElection env he]
  exact of_ne nofun

theorem handlePromiseLeader (h : p.office.Campaigning) (sender : NodeId) (pn : ProposalNumber)
    (accepted : List (ℕ × ProposalNumber × V)) :
    (p.handlePromiseLeader env sender pn accepted).1.office.Campaigning := by
  unfold PaxosProtocol.handlePromiseLeader
  split
  · exact h
  · split
    · simp only
      split
      · exact completeLeaderElection rfl
      · exact fun hc => ⟨rfl,(h hc).2⟩
    · exact h

theorem startElection (p : PaxosProtocol V) (env : PaxosEnv) :
    (p.startElection env).1.office.Campaigning := by
  unfold PaxosProtocol.startElection
  simp only
  split
  · exact completeLeaderElection rfl
  · exact fun _ => ⟨rfl,rfl⟩

theorem onTick (h : p.office.Campaigning) : (p.onTick env).1.office.Campaigning := by
  have hretries := PaxosProtocol.office_runAll (fun slot q => q.office_retryProposal env slot) p
    (p.getRetryableProposals env)
  have hmulti : ∀ q : PaxosProtocol V, q.office.Campaigning →
      (q.onTickMulti env).1.office.Campaigning := by
    intro q hq
    have hbeat : (if q.shouldSendHeartbeat env then q.makeHeartbeat env
        else (q,[])).1.office = q.office := by
      split
      · unfold PaxosProtocol.makeHeartbeat
        split <;> rfl
      · rfl
    unfold PaxosProtocol.onTickMulti
    simp only [Reply.andThen]
    rw [PaxosProtocol.office_handleForwardedProposalTimeouts]
    generalize (if q.shouldSendHeartbeat env then q.makeHeartbeat env else (q,[])) = r at hbeat
    have hr : r.1.office.Campaigning := hbeat ▸ hq
    split
    · exact startElection _ env
    · exact hr.checkElectionTimeout
  unfold PaxosProtocol.onTick
  simp only
  generalize runAll (PaxosProtocol.retryProposal env) p (p.getRetryableProposals env) = r at hretries
  have hr : (r.1.getDecisionRebroadcasts env).1.office.Campaigning := by
    change r.1.office.Campaigning
    exact hretries ▸ h
  split
  · exact hmulti _ hr
  · exact hr

end Office.Campaigning

def UncontestedCall (p : PaxosProtocol V) (call : PaxosEnv × Input V) : Prop :=
  match call.2 with
  | .message _ (.prepareLeader pn _) =>
    p.leaderState = .candidate → ∃ l ∈ p.leaderPromise, pn ≤ l
  | _ => True

section
variable [DecidableEq V] {p : PaxosProtocol V} {env : PaxosEnv}

theorem Office.Campaigning.handle (h : p.office.Campaigning) (input : Input V)
    (hu : UncontestedCall p (env,input)) : (p.handle env input).1.office.Campaigning := by
  have hsame : ∀ {q : PaxosProtocol V}, q.office = p.office → q.office.Campaigning :=
    fun hq => hq ▸ h
  cases input with
  | propose value => exact hsame (p.office_propose env value)
  | tick => exact h.onTick
  | message sender msg =>
    unfold PaxosProtocol.handle PaxosProtocol.handleMessage
    cases msg with
    | prepare slot pn => exact hsame (p.office_handlePrepare sender slot pn)
    | promise slot pn accepted => exact hsame (p.office_handlePromise env sender slot pn accepted)
    | accept slot pn value => exact hsame (p.office_handleAccept sender slot pn value)
    | accepted slot pn value => exact hsame (p.office_handleAccepted env sender slot pn value)
    | decide slot value => exact h.handleDecide sender slot value
    | nackPrepare slot pn hp => exact h.handleNack slot hp
    | nackAccept slot pn hp => exact h.handleNack slot hp
    | forward value =>
      simp only
      split
      · exact hsame (p.office_handleForward env value)
      · exact h
    | heartbeat term =>
      simp only
      split
      · exact h.handleHeartbeat sender term
      · exact h
    | prepareLeader pn since =>
      simp only
      split
      · exact h.handlePrepareLeader sender pn since hu
      · exact h
    | promiseLeader pn accepted =>
      simp only
      split
      · exact h.handlePromiseLeader sender pn accepted
      · exact h
    | nackLeader pn hp =>
      simp only
      split
      · exact .handleNackLeader p env hp
      · exact h

omit [DecidableEq V] in
/-- An election that has gone on for half a second is given up. -/
theorem PaxosProtocol.checkElectionTimeout_due {e : ElectionState V} {t : ℕ}
    (he : p.election = some e) (ht : p.electionStartedAt = some t) (hnow : t + 500 ≤ env.now) :
    p.checkElectionTimeout env = { p with
      election := none
      electionStartedAt := none
      leaderState := .follower none env.now } := by
  unfold PaxosProtocol.checkElectionTimeout
  rw [ht]
  have hdue : 500 ≤ env.now - t ∧ p.election.isSome = true := ⟨by omega,by rw [he]; rfl⟩
  simp only [hdue,and_self,if_true]

/-- No tick, however late, takes a candidate without an election out of its role. -/
theorem PaxosProtocol.onTick_candidate (hp : p.leaderState = .candidate)
    (ht : p.electionStartedAt = none) (env : PaxosEnv) : (p.onTick env).1.office = p.office := by
  have hretries := PaxosProtocol.office_runAll (fun slot q => q.office_retryProposal env slot) p
    (p.getRetryableProposals env)
  have hmulti : ∀ q : PaxosProtocol V, q.office = p.office →
      (q.onTickMulti env).1.office = q.office := by
    intro q hq
    have hcand : q.leaderState = .candidate := (congrArg Office.leaderState hq).trans hp
    have hnone : q.electionStartedAt = none := (congrArg Office.electionStartedAt hq).trans ht
    have hidle : q.shouldSendHeartbeat env = false := by
      simp [PaxosProtocol.shouldSendHeartbeat,hcand]
    have hkept : q.checkElectionTimeout env = q := by
      simp [PaxosProtocol.checkElectionTimeout,hnone]
    have hwait : q.checkLeaderTimeout env = false := by
      simp [PaxosProtocol.checkLeaderTimeout,hcand]
    unfold PaxosProtocol.onTickMulti
    simp only [Reply.andThen]
    rw [PaxosProtocol.office_handleForwardedProposalTimeouts]
    simp [hidle,hkept,hwait]
  unfold PaxosProtocol.onTick
  simp only
  generalize runAll (PaxosProtocol.retryProposal env) p (p.getRetryableProposals env) = r at hretries
  have hr : (r.1.getDecisionRebroadcasts env).1.office = p.office := hretries
  split
  · exact (hmulti _ hr).trans hr
  · exact hr

end

/-- As long as no candidate grants another one its promise, a candidate has an
election with a starting time; half a second later it is a follower again, and
half a second after that it stands again if there is anything to do. -/
theorem candidate_campaigns [DecidableEq V] {env : PaxosEnv} {nodeId : NodeId} {totalNodes : ℕ}
    {config : PaxosConfig} {p : PaxosProtocol V}
    (hrun : Runs.Reaches PaxosProtocol.step UncontestedCall
      (PaxosProtocol.new true env nodeId totalNodes config : PaxosProtocol V) p)
    (hp : p.leaderState = .candidate) :
    ∃ e t, p.election = some e ∧ p.electionStartedAt = some t ∧
      ∀ now : PaxosEnv, t + 500 ≤ now.now →
        (p.checkElectionTimeout now).leaderState = .follower none now.now ∧
        ∀ later : PaxosEnv, now.now + 500 ≤ later.now → p.instances.keys ≠ [] →
          (p.checkElectionTimeout now).checkLeaderTimeout later = true := by
  have hall : p.office.Campaigning := by
    refine hrun.invariant (fun q => q.office.Campaigning) (.of_ne nofun) ?_
    rintro q ⟨env',input⟩ q' _ hq hu hs
    cases hs
    exact hq.handle input hu
  obtain ⟨he,ht⟩ := hall hp
  obtain ⟨e,he⟩ := Option.isSome_iff_exists.mp he
  obtain ⟨t,ht⟩ := Option.isSome_iff_exists.mp ht
  refine ⟨e,t,he,ht,fun now hnow => ?_⟩
  rw [PaxosProtocol.checkElectionTimeout_due he ht hnow]
  refine ⟨rfl,fun later hlater hwork => ?_⟩
  have hwait : 500 ≤ later.now - now.now := by omega
  simp [PaxosProtocol.checkLeaderTimeout,hwait,hwork]

section Example

instance (p : PaxosProtocol V) (call : PaxosEnv × Input V) : Decidable (UncontestedCall p call) :=
  match call with
  | (_,.message _ (.prepareLeader pn _)) => inferInstanceAs (Decidable
    (p.leaderState = .candidate → ∃ l ∈ p.leaderPromise, pn ≤ l))
  | (_,.propose _) | (_,.tick) | (_,.message _ (.prepare ..)) | (_,.message _ (.promise ..))
  | (_,.message _ (.accept ..)) | (_,.message _ (.accepted ..)) | (_,.message _ (.decide ..))
  | (_,.message _ (.nackPrepare ..)) | (_,.message _ (.nackAccept ..))
  | (_,.message _ (.forward ..)) | (_,.message _ (.heartbeat ..))
  | (_,.message _ (.promiseLeader ..)) | (_,.message _ (.nackLeader ..)) => .isTrue trivial

/-- A node with a proposal of its own and no leader stands for election. -/
def standing : PaxosProtocol ℕ :=
  Runs.after PaxosProtocol.step UncontestedCall follower
    [(.steady 1,.propose 7),(.steady 600,.tick)] (by decide +kernel)

theorem candidate_campaigns_standing : standing.leaderState = .candidate ∧
    ∃ e t, standing.election = some e ∧ standing.electionStartedAt = some t ∧
      ∀ now : PaxosEnv, t + 500 ≤ now.now →
        (standing.checkElectionTimeout now).leaderState = .follower none now.now ∧
        ∀ later : PaxosEnv, now.now + 500 ≤ later.now → standing.instances.keys ≠ [] →
          (standing.checkElectionTimeout now).checkLeaderTimeout later = true :=
  ⟨by decide +kernel,candidate_campaigns (Runs.after_reaches .start (by decide +kernel))
    (by decide +kernel)⟩

/-- Then another node asks for its promise under a higher number. -/
def wedged : PaxosProtocol ℕ :=
  Runs.after PaxosProtocol.step AnyCall follower
    [(.steady 1,.propose 7),(.steady 600,.tick),
      (.steady 601,.message ⟨"c",1⟩ (.prepareLeader (.mk 1 ⟨"c",1⟩) 0))] (by decide +kernel)

/-- It stays a candidate, without an election that could time out, whenever it is
woken. -/
theorem candidate_without_election :
    Runs.Reaches PaxosProtocol.step AnyCall follower wedged ∧ wedged.leaderState = .candidate ∧
      wedged.election.isNone = true ∧ wedged.electionStartedAt = none ∧
      ∀ env, (wedged.handle env .tick).1.leaderState = .candidate := by
  have hcand : wedged.leaderState = .candidate := by decide +kernel
  have hnone : wedged.electionStartedAt = none := by decide +kernel
  refine ⟨Runs.after_reaches .start (by decide +kernel),hcand,by decide +kernel,hnone,?_⟩
  intro env
  exact (congrArg Office.leaderState (PaxosProtocol.onTick_candidate hcand hnone env)).trans hcand

end Example

end Paxos
end Daccord
