import Daccord.PaxosRestart

/-! Which proposals are retried. `get_retryable_proposals` takes the votes it has
counted for the phase it is in; this is right as long as a proposer that starts
phase 2 votes for its own proposal. -/
namespace Daccord
namespace Paxos

variable {V : Type} {N : ℕ}

/-- An instance that waits: no quorum has accepted, and a proposal has a time for
its next retry and a reason to make one. -/
structure PaxosInstance.Waiting (quorumSize : ℕ) (inst : PaxosInstance V) : Prop where
  short : inst.acceptsReceived.card < quorumSize
  timed : inst.isProposer = true → inst.nextRetryAt.isSome = true
  reason : inst.isProposer = true → inst.nacked = true ∨ inst.acceptsReceived ≠ ∅ ∨
    inst.promisesReceived.card < quorumSize

section
variable {quorumSize : ℕ} {inst : PaxosInstance V}

theorem PaxosInstance.Waiting.new (h : 0 < quorumSize) :
    (PaxosInstance.new : PaxosInstance V).Waiting quorumSize :=
  ⟨h,nofun,nofun⟩

/-- Once its time has come, a waiting proposal is retried. -/
theorem PaxosInstance.Waiting.retryable (h : inst.Waiting quorumSize)
    (hp : inst.isProposer = true) (hd : inst.decided = false) {t : ℕ}
    (ht : inst.nextRetryAt = some t) {env : PaxosEnv} (hnow : t ≤ env.now) :
    PaxosProtocol.retryable env quorumSize inst = true := by
  unfold PaxosProtocol.retryable
  simp only [hp,hd,ht,hnow.not_gt,Bool.not_true,Bool.or_false,Bool.false_eq_true,if_false]
  split
  · rfl
  · rename_i hn
    have hshort := h.short
    rcases h.reason hp with hn' | ha | hlow
    · exact absurd hn' hn
    · simp [ha,hshort]
    · by_cases ha : inst.acceptsReceived = ∅
      · simp [ha,hlow]
      · simp [ha,hshort]

/-- With a quorum of promises and no vote an instance is taken for one whose phase 1
is complete, at any time. -/
theorem PaxosInstance.retryable_stuck (hn : inst.nacked = false)
    (ha : inst.acceptsReceived = ∅) (hq : quorumSize ≤ inst.promisesReceived.card)
    (env : PaxosEnv) : PaxosProtocol.retryable env quorumSize inst = false := by
  unfold PaxosProtocol.retryable
  split
  · rfl
  · split
    · rfl
    · split
      · rfl
      · simp [hn,ha,hq]

end

namespace PaxosProtocol

/-- Unless the node has panicked, every instance in a slot with `S` waits. -/
def WaitingIn (p : PaxosProtocol V) (S : ℕ → Prop) : Prop :=
  p.record.panicked = false → 0 < p.quorumSize ∧
    ∀ slot inst, S slot → p.instances.lookup slot = some inst → inst.Waiting p.quorumSize

def Waiting (p : PaxosProtocol V) : Prop := p.WaitingIn fun _ => True

variable {p q : PaxosProtocol V} {slot : ℕ} {inst : PaxosInstance V} {env : PaxosEnv}

theorem Waiting.elsewhere (h : p.Waiting) (slot : ℕ) : p.WaitingIn (· ≠ slot) := by
  intro hlive
  exact ⟨(h hlive).1,fun s inst _ => (h hlive).2 s inst trivial⟩

theorem Waiting.panicked (h : p.record.panicked = true) : p.Waiting := by
  intro hlive
  rw [h] at hlive
  cases hlive

theorem Waiting.idle (hq : 0 < p.quorumSize) (hi : p.instances = ∅) : p.Waiting := by
  intro _
  refine ⟨hq,fun slot inst _ hl => ?_⟩
  rw [hi,AList.lookup_empty] at hl
  cases hl

theorem Waiting.same (h : p.Waiting) (hi : q.instances = p.instances)
    (hq : q.quorumSize = p.quorumSize) (hr : q.record.panicked = p.record.panicked) : q.Waiting := by
  unfold Waiting WaitingIn
  rw [hi,hq,hr]
  exact h

theorem WaitingIn.put (h : p.WaitingIn (· ≠ slot))
    (hi : p.record.panicked = false → inst.Waiting p.quorumSize) :
    (p.putInstance slot inst).Waiting := by
  intro hlive
  obtain ⟨hpos,hall⟩ := h hlive
  refine ⟨hpos,fun s x _ hx => ?_⟩
  change (p.instances.insert slot inst).lookup s = some x at hx
  by_cases hs : s = slot
  · subst hs
    rw [AList.lookup_insert] at hx
    cases hx
    exact hi hlive
  · rw [AList.lookup_insert_ne hs] at hx
    exact hall s x hs hx

theorem WaitingIn.putElsewhere (h : p.WaitingIn (· ≠ slot)) (inst : PaxosInstance V) :
    (p.putInstance slot inst).WaitingIn (· ≠ slot) := by
  intro hlive
  obtain ⟨hpos,hall⟩ := h hlive
  refine ⟨hpos,fun s x hs hx => hall s x hs ?_⟩
  rwa [putInstance,AList.lookup_insert_ne hs] at hx

theorem Waiting.instanceAt (h : p.Waiting) (hlive : p.record.panicked = false) (slot : ℕ) :
    (p.instanceAt slot).Waiting p.quorumSize := by
  obtain ⟨hpos,hall⟩ := h hlive
  unfold PaxosProtocol.instanceAt
  cases hl : p.instances.lookup slot with
  | none => exact .new hpos
  | some inst => exact hall slot inst trivial hl

/-- An instance is changed without regard to proposals. -/
theorem Waiting.tend (h : p.Waiting) (hi : (p.instanceAt slot).Waiting p.quorumSize →
    inst.Waiting p.quorumSize) : (p.putInstance slot inst).Waiting :=
  (h.elsewhere slot).put fun hlive => hi (h.instanceAt hlive slot)

theorem Waiting.handlePrepare (h : p.Waiting) (sender : NodeId) (pn : ProposalNumber) :
    (p.handlePrepare sender slot pn).1.Waiting := by
  have hput : ∀ promised, (p.putInstance slot
      { p.instanceAt slot with highestPromised := promised }).Waiting :=
    fun _ => h.tend fun hi => ⟨hi.short,hi.timed,hi.reason⟩
  unfold PaxosProtocol.handlePrepare
  split
  · exact h
  · simp only
    split
    · exact hput _
    · split
      · exact hput _
      · exact h.tend id

theorem Waiting.handleAccept (h : p.Waiting) (sender : NodeId) (pn : ProposalNumber) (value : V) :
    (p.handleAccept sender slot pn value).1.Waiting := by
  have hvote : ((p.putInstance slot ((p.instanceAt slot).vote pn value)).noteVote slot pn
      value).Waiting := by
    have hput : (p.putInstance slot ((p.instanceAt slot).vote pn value)).Waiting :=
      h.tend fun hi => ⟨hi.short,hi.timed,hi.reason⟩
    exact hput.same rfl rfl rfl
  unfold PaxosProtocol.handleAccept
  split
  · exact h
  · simp only
    split
    · exact hvote
    · split
      · exact hvote
      · exact h.tend id

section
variable [DecidableEq V]

theorem WaitingIn.conclude (h : p.WaitingIn (· ≠ slot)) (value : V) :
    (p.conclude env slot value).1.Waiting := by
  obtain ⟨_,_,heq⟩ := p.conclude_frame env slot value
  rw [heq]
  intro hlive
  obtain ⟨hpos,hall⟩ := h hlive
  refine ⟨hpos,fun s x _ hx => ?_⟩
  change (p.instances.erase slot).lookup s = some x at hx
  by_cases hs : s = slot
  · subst hs
    rw [AList.lookup_erase] at hx
    cases hx
  · rw [AList.lookup_erase_ne hs] at hx
    exact hall s x hs hx

/-- A proposer that votes for its own proposal waits for more votes or decides. -/
theorem WaitingIn.selfAccept (h : p.WaitingIn (· ≠ slot))
    (ht : p.record.panicked = false → inst.isProposer = true → inst.nextRetryAt.isSome = true)
    (pn : ProposalNumber) (value : V) : (p.selfAccept env slot inst pn value).1.Waiting := by
  have hvoted : ((p.putInstance slot (inst.selfVote p.nodeId pn value)).noteVote slot pn
      value).WaitingIn (· ≠ slot) := h.putElsewhere _
  unfold PaxosProtocol.selfAccept
  simp only
  split
  · exact hvoted.conclude value
  · rename_i hlow
    refine h.put fun hlive => ⟨Nat.lt_of_not_le hlow,ht hlive,fun _ => Or.inr (Or.inl ?_)⟩
    exact Finset.insert_ne_empty _ _

theorem WaitingIn.startPhase2 (h : p.WaitingIn (· ≠ slot))
    (hl : p.instances.lookup slot = some inst)
    (ht : p.record.panicked = false → inst.isProposer = true → inst.nextRetryAt.isSome = true)
    (hp : ∀ x ∈ inst.highestPromised, x ≤ inst.proposalNumber) :
    (p.startPhase2 env slot).1.Waiting := by
  have hpermits : PaxosInstance.permits inst.highestPromised inst.proposalNumber = true :=
    PaxosInstance.permits_iff.mpr hp
  unfold PaxosProtocol.startPhase2
  rw [hl]
  simp only
  split
  · exact .panicked rfl
  · simp only [hpermits,if_true]
    exact h.selfAccept ht _ _

theorem Waiting.handlePromise (h : p.Waiting) (sender : NodeId) {pn : ProposalNumber}
    (accepted : Option (ProposalNumber × V)) (hfirm : p.FirmPromise sender slot pn) :
    (p.handlePromise env sender slot pn accepted).1.Waiting := by
  unfold PaxosProtocol.handlePromise
  split
  · exact h
  · split
    · exact h
    · rename_i inst hl
      split
      · rename_i hown
        simp only
        split
        · rename_i hq
          refine ((h.elsewhere slot).putElsewhere _).startPhase2 (AList.lookup_insert _)
            (fun hlive => ((h hlive).2 slot inst trivial hl).timed) ?_
          change ∀ x ∈ inst.highestPromised, x ≤ inst.proposalNumber
          rw [hown.1]
          exact hfirm inst hl hown.1 hq
        · rename_i hlow
          refine h.tend fun hi => ?_
          rw [instanceAt_of_lookup hl] at hi
          exact ⟨hi.short,hi.timed,fun _ => Or.inr (Or.inr (Nat.lt_of_not_le hlow))⟩
      · exact h

theorem Waiting.handleAccepted (h : p.Waiting) (sender : NodeId) (pn : ProposalNumber) (value : V) :
    (p.handleAccepted env sender slot pn value).1.Waiting := by
  unfold PaxosProtocol.handleAccepted
  split
  · exact h
  · split
    · exact h
    · rename_i inst hl
      split
      · simp only
        split
        · split
          · exact .panicked rfl
          · exact ((h.elsewhere slot).putElsewhere _).conclude _
        · rename_i hlow
          refine h.tend fun hi => ?_
          rw [instanceAt_of_lookup hl] at hi
          refine ⟨Nat.lt_of_not_le hlow,hi.timed,fun _ => Or.inr (Or.inl ?_)⟩
          exact Finset.insert_ne_empty _ _
      · exact h

theorem Waiting.handleDecide (h : p.Waiting) (sender : NodeId) (value : V) :
    (p.handleDecide env sender slot value).Waiting := by
  have hp : (if p.multi then p.touchLeader env sender else p).Waiting := by
    unfold PaxosProtocol.touchLeader
    split_ifs
    · split
      · split
        · exact h.same rfl rfl rfl
        · exact h
      · exact h
    · exact h
  unfold PaxosProtocol.handleDecide
  simp only
  generalize (if p.multi then p.touchLeader env sender else p) = q at hp
  split
  · exact hp
  · have hlost : (q.lose (q.outvoted slot value)).Waiting := hp.same rfl rfl rfl
    exact (hlost.elsewhere slot).conclude value

omit [DecidableEq V] in
theorem Waiting.handleNack (h : p.Waiting) (pn : ProposalNumber) :
    (p.handleNack env slot pn).Waiting := by
  have hoffice : ∀ q : PaxosProtocol V, q.Waiting → (if q.multi then
      if (q.updateHighestSeenRound pn.round).isLeader then
        (q.updateHighestSeenRound pn.round).stepDown env none
      else q.updateHighestSeenRound pn.round
      else q).Waiting := by
    intro q hq
    split_ifs
    · exact hq.same rfl rfl rfl
    · exact hq.same rfl rfl rfl
    · exact hq
  unfold PaxosProtocol.handleNack
  refine hoffice _ ?_
  split
  · exact h
  · rename_i inst hl
    refine h.tend fun hi => ?_
    rw [instanceAt_of_lookup hl] at hi
    exact ⟨hi.short,fun _ => rfl,fun _ => Or.inl rfl⟩

theorem Waiting.innerPropose (h : p.Waiting) (value : V) : (p.innerPropose env value).1.Waiting := by
  have halloc : PaxosProtocol.Waiting { p with nextSlot := p.nextSlot + 1 } := h.same rfl rfl rfl
  have hfull : (p.proposeFullPaxos env value).1.Waiting := by
    unfold PaxosProtocol.proposeFullPaxos
    simp only
    split
    · refine ((halloc.elsewhere p.nextSlot).putElsewhere _).startPhase2 (AList.lookup_insert _)
        (fun _ _ => rfl) ?_
      rintro x ⟨⟩
      exact le_rfl
    · rename_i hlow
      refine halloc.tend fun hi => ?_
      exact ⟨hi.short,fun _ => rfl,fun _ => Or.inr (Or.inr (Nat.lt_of_not_le hlow))⟩
  have hfast : ∀ term, (p.proposeFastPath env value term).1.Waiting :=
    fun _ => (halloc.elsewhere p.nextSlot).selfAccept (fun _ _ => rfl) _ _
  unfold PaxosProtocol.innerPropose
  split
  · split
    · exact hfast _
    · exact hfull
  · exact hfull

theorem Waiting.retryProposal (h : p.Waiting) : (p.retryProposal env slot).1.Waiting := by
  unfold PaxosProtocol.retryProposal
  split
  · exact h
  · rename_i inst hl
    split
    · simp only
      split
      · refine ((h.elsewhere slot).putElsewhere _).startPhase2 (AList.lookup_insert _)
          (fun _ _ => rfl) ?_
        rintro x ⟨⟩
        exact le_rfl
      · rename_i hlow
        refine (h.elsewhere slot).put fun hlive => ⟨(h hlive).1,fun _ => rfl,fun _ => ?_⟩
        exact Or.inr (Or.inr (Nat.lt_of_not_le hlow))
    · exact h

theorem Waiting.replayAccept (h : p.Waiting) (pn : ProposalNumber) (recovered : ℕ × V) :
    (p.replayAccept env pn recovered).1.Waiting := by
  unfold PaxosProtocol.replayAccept
  simp only
  split
  · exact h
  · exact (h.elsewhere recovered.1).selfAccept (fun _ _ => rfl) _ _

theorem Waiting.completeLeaderElection (h : p.Waiting) :
    (p.completeLeaderElection env).1.Waiting := by
  unfold PaxosProtocol.completeLeaderElection
  split
  · exact h
  · refine runAll_invariant Waiting (fun r q hq => hq.replayAccept _ r) ?_ _
    exact h.same rfl rfl rfl

theorem Waiting.startElection (h : p.Waiting) : (p.startElection env).1.Waiting := by
  have hcampaign : (p.campaign env).Waiting := h.same rfl rfl rfl
  unfold PaxosProtocol.startElection
  simp only
  split
  · exact hcampaign.completeLeaderElection
  · exact hcampaign

theorem Waiting.propose (h : p.Waiting) (value : V) : (p.propose env value).1.Waiting := by
  unfold PaxosProtocol.propose PaxosProtocol.proposeOrForward
  split
  · split
    · split
      · exact h.same rfl rfl rfl
      · exact h.innerPropose value
    · exact h.innerPropose value
  · exact h.innerPropose value

theorem Waiting.onTickMulti (h : p.Waiting) : (p.onTickMulti env).1.Waiting := by
  have hbeat : (if p.shouldSendHeartbeat env then p.makeHeartbeat env else (p,[])).1.Waiting := by
    unfold PaxosProtocol.makeHeartbeat
    split
    · split
      · exact h.same rfl rfl rfl
      · exact h
    · exact h
  unfold PaxosProtocol.onTickMulti
  simp only [Reply.andThen]
  generalize (if p.shouldSendHeartbeat env then p.makeHeartbeat env else (p,[])) = r at hbeat
  have hover : (r.1.checkElectionTimeout env).Waiting := by
    unfold PaxosProtocol.checkElectionTimeout
    split
    · exact hbeat
    · split
      · exact hbeat.same rfl rfl rfl
      · exact hbeat
  generalize r.1.checkElectionTimeout env = q at hover
  have helect : (if q.checkLeaderTimeout env then q.startElection env else (q,[])).1.Waiting := by
    split
    · exact hover.startElection
    · exact hover
  refine runAll_invariant Waiting (fun value x hx => hx.innerPropose value) ?_ _
  exact helect.same rfl rfl rfl

theorem Waiting.onTick (h : p.Waiting) : (p.onTick env).1.Waiting := by
  have hretries : (runAll (PaxosProtocol.retryProposal env) p
      (p.getRetryableProposals env)).1.Waiting :=
    runAll_invariant Waiting (fun slot q hq => hq.retryProposal) h _
  unfold PaxosProtocol.onTick
  simp only
  generalize runAll (PaxosProtocol.retryProposal env) p (p.getRetryableProposals env) = r
    at hretries
  have hsent : (r.1.getDecisionRebroadcasts env).1.Waiting := hretries.same rfl rfl rfl
  split
  · exact hsent.onTickMulti
  · exact hsent

theorem Waiting.handlePromiseLeader (h : p.Waiting) (sender : NodeId) (pn : ProposalNumber)
    (accepted : List (ℕ × ProposalNumber × V)) :
    (p.handlePromiseLeader env sender pn accepted).1.Waiting := by
  unfold PaxosProtocol.handlePromiseLeader
  split
  · exact h
  · rename_i e he
    split
    · have hpolled : ∀ e' : ElectionState V, PaxosProtocol.Waiting { p with election := some e' } :=
        fun _ => h.same rfl rfl rfl
      simp only
      split
      · exact (hpolled _).completeLeaderElection
      · exact hpolled _
    · exact h

omit [DecidableEq V] in
theorem Waiting.handlePrepareLeader (h : p.Waiting) (sender : NodeId) (pn : ProposalNumber)
    (since : ℕ) : (p.handlePrepareLeader env sender pn since).1.Waiting := by
  have hsubmit : (p.submit env sender pn).Waiting := by
    unfold PaxosProtocol.submit yieldElection
    simp only
    split_ifs
    all_goals
      split
      · split_ifs <;> exact h.same rfl rfl rfl
      · exact h.same rfl rfl rfl
  unfold PaxosProtocol.handlePrepareLeader
  split
  · exact hsubmit
  · split
    · exact hsubmit
    · exact h

omit [DecidableEq V] in
theorem Waiting.handleHeartbeat (h : p.Waiting) (sender : NodeId) (term : ℕ) :
    (p.handleHeartbeat env sender term).Waiting := by
  unfold PaxosProtocol.handleHeartbeat updateLeaderContact
  split
  · simp only
    split
    · split <;> exact h.same rfl rfl rfl
    · exact h.same rfl rfl rfl
  · exact h

omit [DecidableEq V] in
theorem Waiting.handleNackLeader (h : p.Waiting) (pn : ProposalNumber) :
    (p.handleNackLeader env pn).Waiting := by
  unfold PaxosProtocol.handleNackLeader
  simp only
  split <;> exact h.same rfl rfl rfl

end

end PaxosProtocol

/-- A `Promise` that starts phase 2 finds the node free to vote for its proposal. -/
def SelfBacked (p : PaxosProtocol V) : Input V → Prop
  | .message sender (.promise slot pn _) => p.FirmPromise sender slot pn
  | _ => True

instance (p : PaxosProtocol V) : (input : Input V) → Decidable (SelfBacked p input)
  | .message sender (.promise slot pn _) =>
    inferInstanceAs (Decidable (p.FirmPromise sender slot pn))
  | .propose _ | .tick | .message _ (.prepare ..) | .message _ (.accept ..)
  | .message _ (.accepted ..) | .message _ (.decide ..) | .message _ (.nackPrepare ..)
  | .message _ (.nackAccept ..) | .message _ (.forward ..) | .message _ (.heartbeat ..)
  | .message _ (.prepareLeader ..) | .message _ (.promiseLeader ..)
  | .message _ (.nackLeader ..) => .isTrue trivial

def Cluster.SelfBacked (s : Cluster N V) (l : Label V N) : Prop :=
  ∀ t ∈ s.turn l, Paxos.SelfBacked (s.nodes t.1).protocol t.2.2

instance (s : Cluster N V) (l : Label V N) : Decidable (s.SelfBacked l) :=
  inferInstanceAs (Decidable (∀ t ∈ s.turn l, Paxos.SelfBacked (s.nodes t.1).protocol t.2.2))

section
variable [DecidableEq V] {M : Membership N} {s s' : Cluster N V} {l : Label V N}

theorem PaxosProtocol.Waiting.handle {p : PaxosProtocol V} (h : p.Waiting) (env : PaxosEnv)
    (input : Input V) (hb : SelfBacked p input) : (p.handle env input).1.Waiting := by
  cases input with
  | propose value => exact h.propose value
  | tick => exact h.onTick
  | message sender msg =>
    unfold PaxosProtocol.handle PaxosProtocol.handleMessage
    cases msg with
    | prepare slot pn => exact h.handlePrepare sender pn
    | promise slot pn accepted => exact h.handlePromise sender accepted hb
    | accept slot pn value => exact h.handleAccept sender pn value
    | accepted slot pn value => exact h.handleAccepted sender pn value
    | decide slot value => exact h.handleDecide sender value
    | nackPrepare slot pn hp => exact h.handleNack hp
    | nackAccept slot pn hp => exact h.handleNack hp
    | forward value =>
      simp only [PaxosProtocol.handleForward]
      split_ifs
      · exact h.innerPropose value
      · exact h
      · exact h
    | heartbeat term =>
      simp only
      split
      · exact h.handleHeartbeat sender term
      · exact h
    | prepareLeader pn since =>
      simp only
      split
      · exact h.handlePrepareLeader sender pn since
      · exact h
    | promiseLeader pn accepted =>
      simp only
      split
      · exact h.handlePromiseLeader sender pn accepted
      · exact h
    | nackLeader pn hp =>
      simp only
      split
      · exact h.handleNackLeader hp
      · exact h

theorem Cluster.waiting_step (h : ∀ i, (s.nodes i).protocol.Waiting) (hb : s.SelfBacked l)
    (hs : s.step M l = some s') : ∀ i, (s'.nodes i).protocol.Waiting := by
  have hupdate : ∀ i (n : Process V), n.protocol.Waiting →
      ∀ j, (Function.update s.nodes i n j).protocol.Waiting := by
    intro i n hn
    exact (Function.forall_update_iff s.nodes fun _ x => x.protocol.Waiting).mpr
      ⟨hn,fun j _ => h j⟩
  rcases Cluster.step_cases hs with ⟨i,env,input,ht,rfl⟩ | ⟨i,_,rfl⟩ | ⟨i,env,incarnation,_,_,rfl⟩
  · exact hupdate i _ ((h i).handle env input (hb _ ht))
  · exact hupdate i _ ((h i).same rfl rfl rfl)
  · refine hupdate i _ ?_
    obtain ⟨_,_,heq,_⟩ := PaxosProtocol.initializeFromDecisions_frame
      ((s.nodes i).storage.entries.map fun d => (d.1,d.2))
      (PaxosProtocol.new M.multi env ⟨(s.nodes i).protocol.nodeId.name,incarnation⟩ N M.config)
    simp only [Process.reboot,heq]
    exact .idle (Nat.succ_pos _) rfl

end

/-- As long as no node starts phase 2 after it has promised a higher number, every
proposal that is not decided has a time for its retry, and is retried from then
on. -/
theorem proposals_retried [DecidableEq V] (M : Membership N) (env : PaxosEnv) (s : Cluster N V)
    (hrun : Runs.Reaches (Cluster.step M) Cluster.SelfBacked (.init M env) s) (i : Fin N)
    (hlive : (s.nodes i).protocol.record.panicked = false) (slot : ℕ) (inst : PaxosInstance V)
    (hl : (s.nodes i).protocol.instances.lookup slot = some inst)
    (hp : inst.isProposer = true) (hd : inst.decided = false) :
    ∃ t, inst.nextRetryAt = some t ∧
      ∀ now : PaxosEnv, t ≤ now.now → slot ∈ (s.nodes i).protocol.getRetryableProposals now := by
  have hall : ∀ j, (s.nodes j).protocol.Waiting := by
    refine hrun.invariant (fun x => ∀ j, (x.nodes j).protocol.Waiting) ?_ ?_
    · exact fun _ => .idle (Nat.succ_pos _) rfl
    · exact fun x l x' _ hx hb hs => Cluster.waiting_step hx hb hs
  have hwait := (hall i hlive).2 slot inst trivial hl
  obtain ⟨t,ht⟩ := Option.isSome_iff_exists.mp (hwait.timed hp)
  refine ⟨t,ht,fun now hnow => ?_⟩
  refine List.mem_filter.mpr ⟨?_,?_⟩
  · refine (List.mem_insertionSort _).mpr ?_
    exact AList.mem_keys.mp (mem_of_lookup hl)
  · rw [PaxosProtocol.instanceAt_of_lookup hl]
    exact hwait.retryable hp hd ht hnow

/-- Two nodes propose in slot 0; one of them hears the other before it gets its
quorum. -/
def racing : List (Label ℕ 3) :=
  [.act 0 (.steady 1) (some 7),.act 1 (.steady 1) (some 8),.deliver 1 (.steady 2),
    .deliver 2 (.steady 3)]

def racingEnd : Cluster 3 ℕ :=
  Runs.after (Cluster.step (trio false)) Cluster.SelfBacked (.init (trio false) (.steady 0)) racing
    (by decide +kernel)

theorem proposals_retried_racing : ∃ inst, (racingEnd.nodes 0).protocol.instances.lookup 0 = some inst ∧
    ∃ t, inst.nextRetryAt = some t ∧
      ∀ now : PaxosEnv, t ≤ now.now → 0 ∈ (racingEnd.nodes 0).protocol.getRetryableProposals now := by
  have hsome : ((racingEnd.nodes 0).protocol.instances.lookup 0).isSome = true := by decide +kernel
  obtain ⟨inst,hl⟩ := Option.isSome_iff_exists.mp hsome
  have hat := PaxosProtocol.instanceAt_of_lookup hl
  refine ⟨inst,hl,proposals_retried (trio false) (.steady 0) racingEnd
    (Runs.after_reaches .start (by decide +kernel)) 0 (by decide +kernel) 0 inst hl ?_ ?_⟩
  · rw [← hat]
    decide +kernel
  · rw [← hat]
    decide +kernel

/-- Then the promise of the third node arrives. -/
def outpromised : Cluster 3 ℕ :=
  Runs.after (Cluster.step (trio false)) (fun _ _ => True) (.init (trio false) (.steady 0))
    (racing ++ [.deliver 4 (.steady 4)]) (by decide +kernel)

/-- The proposer asks for votes it does not give itself; if they get lost it never
tries again. -/
theorem proposal_never_retried :
    Runs.Reaches (Cluster.step (trio false)) (fun _ _ => True) (.init (trio false) (.steady 0))
        outpromised ∧
      (outpromised.nodes 0).protocol.record.panicked = false ∧
      0 ∈ (outpromised.nodes 0).protocol.instances ∧
      ((outpromised.nodes 0).protocol.instanceAt 0).isProposer = true ∧
      ((outpromised.nodes 0).protocol.instanceAt 0).decided = false ∧
      ((outpromised.nodes 0).protocol.instanceAt 0).nextRetryAt = some 101 ∧
      ∀ now : PaxosEnv, 0 ∉ (outpromised.nodes 0).protocol.getRetryableProposals now := by
  refine ⟨Runs.after_reaches .start (by decide +kernel),by decide +kernel,by decide +kernel,
    by decide +kernel,by decide +kernel,by decide +kernel,fun now hmem => ?_⟩
  have hstuck : PaxosProtocol.retryable now (outpromised.nodes 0).protocol.quorumSize
      ((outpromised.nodes 0).protocol.instanceAt 0) = false :=
    PaxosInstance.retryable_stuck (by decide +kernel) (by decide +kernel) (by decide +kernel) now
  rw [(List.mem_filter.mp hmem).2] at hstuck
  cases hstuck

end Paxos
end Daccord
