import Daccord.PaxosMoves

/-! Every method of `PaxosProtocol` as a sequence of moves. -/
namespace Daccord
namespace Paxos

variable {V : Type} [DecidableEq V]
variable {R : Rules V} {env : PaxosEnv} {input : Input V} {p q r : PaxosProtocol V}
  {out out' : List (Outgoing (PaxosMessage V))}

theorem Moves.one (h : Move R env input p q out) :
    Moves R env input p q out := .snoc .nil h

theorem Moves.trans (h : Moves R env input p q out)
    (h' : Moves R env input q r out') :
    Moves R env input p r (out ++ out') := by
  induction h' with
  | nil => simpa using h
  | snoc _ hm ih =>
    rw [← List.append_assoc]
    exact .snoc ih hm

theorem Moves.keeps (h : Tidy p) (hm : Moves R env input p q out) : Keeps p q := by
  induction hm with
  | nil => exact .refl h
  | snoc _ hm ih => exact ih.trans (hm.keeps ih.tidy)

theorem Moves.cons (hm : Move R env input p q [])
    (h : Moves R env input q r out) : Moves R env input p r out := by
  simpa using (Moves.one hm).trans h

theorem Moves.tidy (h : Tidy p) (hm : Moves R env input p q out) : Tidy q :=
  (hm.keeps h).tidy

omit [DecidableEq V] in
theorem Frame.refl (p : PaxosProtocol V) : Frame p p :=
  ⟨rfl,rfl,rfl,rfl,rfl,rfl,rfl,fun _ hd => hd,Or.inl rfl,le_rfl,rfl,Or.inl rfl,rfl,rfl,rfl,
    fun _ hf => hf,rfl⟩

omit [DecidableEq V] in
theorem SameBallot.refl (inst : PaxosInstance V) : SameBallot inst inst :=
  ⟨rfl,rfl,rfl,rfl,rfl,rfl,rfl,rfl⟩

theorem Moves.frame (h : Frame p q) : Moves R env input p q [] :=
  .one (.aside h nofun)

theorem Moves.say {o : Outgoing (PaxosMessage V)} (ho : Aside p o.message) :
    Moves R env input p p [o] :=
  .one (.aside (.refl p) fun o' ho' => by rwa [List.mem_singleton.mp ho'])

theorem Moves.handlePrepare {sender : NodeId} {slot : ℕ} {pn : ProposalNumber}
    (hin : input = .message sender (.prepare slot pn)) :
    Moves R env input p (p.handlePrepare sender slot pn).1
      (p.handlePrepare sender slot pn).2 := by
  unfold PaxosProtocol.handlePrepare
  cases hd : p.decidedSlots.lookup slot with
  | some v => exact .say hd
  | none =>
    have hs : slot ∉ p.decidedSlots := AList.lookup_eq_none.mp hd
    simp only
    split
    · rename_i hp
      exact .one (.promise hin hs fun h hh => by cases hp ▸ hh)
    · rename_i hp hhp
      split
      · rename_i hlt
        refine .one (.promise hin hs fun h hh => ?_)
        cases hhp.symm.trans hh
        exact hlt
      · exact .one (.tend hs (.refl _) (by simp [Aside]))

theorem Moves.handleAccept {sender : NodeId} {slot : ℕ} {pn : ProposalNumber} {value : V}
    (hin : input = .message sender (.accept slot pn value))
    (hfirm : R.firm → p.FirmAccept slot pn value) :
    Moves R env input p (p.handleAccept sender slot pn value).1
      (p.handleAccept sender slot pn value).2 := by
  unfold PaxosProtocol.handleAccept
  cases hd : p.decidedSlots.lookup slot with
  | some v => exact .say hd
  | none =>
    have hs : slot ∉ p.decidedSlots := AList.lookup_eq_none.mp hd
    have hgrant : (∀ f, p.effectiveFloor slot = some f → f ≤ pn) → Moves R env input p
        ((p.putInstance slot ((p.instanceAt slot).vote pn value)).noteVote slot pn value)
        [⟨.peer sender,.accepted slot pn value⟩] := fun hfloor =>
      .one (.accept hin hs hfloor fun hr => hfirm hr hfloor)
    simp only
    split
    · rename_i hf
      exact hgrant fun f hf' => by rw [hf] at hf'; cases hf'
    · rename_i f hf
      split
      · rename_i hle
        refine hgrant fun f' hf' => ?_
        rw [hf] at hf'
        cases hf'
        exact hle
      · exact .one (.tend hs (.refl _) (by simp [Aside]))

theorem Moves.panic : Moves R env input p p.panic.1 p.panic.2 :=
  .frame { Frame.refl p with }

omit [DecidableEq V] in
theorem PaxosInstance.permits_iff {promised : Option ProposalNumber} {pn : ProposalNumber} :
    PaxosInstance.permits promised pn = true ↔ ∀ h, promised = some h → h ≤ pn := by
  cases promised with
  | none => simp [PaxosInstance.permits]
  | some hp => simp [PaxosInstance.permits]

/-- Without an own vote, phase 2 starts from a `Promise` that came too late for it. -/
theorem Moves.startPhase2 {slot : ℕ} {inst : PaxosInstance V}
    (hl : p.instances.lookup slot = some inst)
    (hq : p.quorumSize ≤ inst.promisesReceived.card)
    (hin : (∀ h, inst.highestPromised = some h → h ≤ inst.proposalNumber) ∨ ∃ sender accepted,
      input = .message sender (.promise slot inst.proposalNumber accepted))
    (hf : R.fenced → (∀ h, inst.highestPromised = some h → h ≤ inst.proposalNumber) →
      ∀ l, p.leaderPromise = some l → l ≤ inst.proposalNumber)
    (hfirm : R.firm → ∀ h, inst.highestPromised = some h → h ≤ inst.proposalNumber) :
    Moves R env input p (p.startPhase2 env slot).1 (p.startPhase2 env slot).2 := by
  unfold PaxosProtocol.startPhase2
  simp only [hl]
  cases hv : inst.phase2Value with
  | none => exact .one (.missing hl hv hq)
  | some value =>
    simp only
    split
    · rename_i hp
      have hp := PaxosInstance.permits_iff.mp hp
      exact .one (.phase2 hl hv hq hp fun hfe => hf hfe hp)
    · rename_i hp
      split
      · rename_i hacc
        rcases hin with hp' | ⟨sender,accepted,hin⟩
        · exact absurd (PaxosInstance.permits_iff.mpr hp') hp
        · exact .one (.belated hin hl hv hacc)
      · exact .one (.offer hl hv hq fun hr => hp (PaxosInstance.permits_iff.mpr (hfirm hr)))

theorem Moves.handlePromise {sender : NodeId} {slot : ℕ} {pn : ProposalNumber}
    {accepted : Option (ProposalNumber × V)}
    (hin : input = .message sender (.promise slot pn accepted))
    (hf : R.fenced → p.FencedPromise sender slot pn)
    (hc : R.careful → p.MindfulPromise sender slot pn accepted)
    (ho : R.orderly → p.SteadyPromise slot pn accepted)
    (hfirm : R.firm → p.FirmPromise sender slot pn) :
    Moves R env input p (p.handlePromise env sender slot pn accepted).1
      (p.handlePromise env sender slot pn accepted).2 := by
  unfold PaxosProtocol.handlePromise
  split
  · exact .nil
  · split
    · exact .nil
    · rename_i inst hl
      split
      · rename_i hpn
        obtain ⟨rfl,_⟩ := hpn
        have hsteady : R.careful ∨ R.orderly → p.quorumSize ≤ inst.promisesReceived.card →
            ∀ r ∈ accepted, inst.Tops r → inst.phase2Value = some r.2 := fun h =>
          h.elim (fun hca => (hc hca inst hl rfl).1) fun hor => ho hor inst hl rfl
        have hcount : Move R env input p
            (p.putInstance slot (inst.recordPromise sender accepted)) [] := by
          refine .count hin hl (fun h hq => ?_) fun hca hfew hq => ?_
          · exact PaxosInstance.recordPromise_phase2Value sender (hsteady h hq)
          · obtain ⟨hnew,hold⟩ := (hc hca inst hl rfl).2 hfew hq
            exact PaxosInstance.recordPromise_mindful sender hnew hold
        simp only
        split
        · rename_i hq
          refine .cons hcount (.startPhase2 (AList.lookup_insert _) hq
            (Or.inr ⟨sender,accepted,hin⟩) (fun hfe hp => ?_) fun hr => ?_)
          · exact hf hfe inst hl rfl hq hp
          · exact hfirm hr inst hl rfl hq
        · exact .one hcount
      · exact .nil

theorem Moves.handleAccepted {sender : NodeId} {slot : ℕ} {pn : ProposalNumber} {value : V}
    (hin : input = .message sender (.accepted slot pn value))
    (hc : R.careful → p.MindfulAccepted sender slot pn value) :
    Moves R env input p (p.handleAccepted env sender slot pn value).1
      (p.handleAccepted env sender slot pn value).2 := by
  unfold PaxosProtocol.handleAccepted
  split
  · exact .nil
  · split
    · exact .nil
    · rename_i inst hl
      split
      · rename_i hpn
        obtain ⟨rfl,_⟩ := hpn
        simp only
        split
        · rename_i hq
          split
          · exact .cons (.tally hin hl) .panic
          · rename_i m own ha
            rw [PaxosProtocol.conclude_putInstance]
            refine .one (.settle hin hl hq ha fun hca => ?_)
            obtain ⟨a,ha',hv⟩ := hc hca inst hl rfl hq
            cases ha.symm.trans ha'
            exact hv
        · exact .one (.tally hin hl)
      · exact .nil

omit [DecidableEq V] in
theorem Frame.demoted (p : PaxosProtocol V) (leader : Option NodeId) (lastContact : ℕ) :
    Frame p { p with leaderState := .follower leader lastContact } :=
  { Frame.refl p with leaderState := Or.inr nofun }

omit [DecidableEq V] in
theorem Frame.seen (p : PaxosProtocol V) (round : ℕ) : Frame p (p.updateHighestSeenRound round) :=
  { Frame.refl p with highestSeenRound := le_max_left _ _ }

omit [DecidableEq V] in
theorem Frame.touchLeader (p : PaxosProtocol V) (env : PaxosEnv) (sender : NodeId) :
    Frame p (p.touchLeader env sender) := by
  unfold PaxosProtocol.touchLeader
  split
  · split
    · exact .demoted p _ _
    · exact .refl p
  · exact .refl p

theorem Moves.handleDecide {sender : NodeId} {slot : ℕ} {value : V}
    (hin : input = .message sender (.decide slot value)) :
    Moves R env input p (p.handleDecide env sender slot value) [] := by
  have htouch : Frame p (if p.multi then p.touchLeader env sender else p) := by
    split
    · exact .touchLeader p env sender
    · exact .refl p
  unfold PaxosProtocol.handleDecide
  generalize (if p.multi then p.touchLeader env sender else p) = q at htouch ⊢
  simp only
  split
  · exact .frame htouch
  · rename_i hs
    exact .cons (.aside htouch nofun) (.one (.learn hin hs))

theorem Moves.handleNack {slot : ℕ} (h : Tidy p) (hp : ProposalNumber) :
    Moves R env input p (p.handleNack env slot hp) [] := by
  have hrest : ∀ q : PaxosProtocol V, Moves R env input q
      (if q.multi then
        (if (q.updateHighestSeenRound hp.round).isLeader then
          (q.updateHighestSeenRound hp.round).stepDown env none
        else q.updateHighestSeenRound hp.round) else q) [] := by
    intro q
    split
    · split
      · exact .cons (.aside (.seen q _) nofun) (.frame (.demoted _ _ _))
      · exact .frame (.seen q _)
    · exact .nil
  unfold PaxosProtocol.handleNack
  simp only
  cases hl : p.instances.lookup slot with
  | none => exact hrest p
  | some inst =>
    refine .cons (.tend (h.not_decided hl) ?_ nofun) (hrest _)
    rw [PaxosProtocol.instanceAt_of_lookup hl]
    exact { SameBallot.refl inst with }

/-- Later slots are as before, and so is the office; `n` slots were taken. -/
structure Beyond (n : ℕ) (p q : PaxosProtocol V) : Prop where
  nextSlot : q.nextSlot = p.nextSlot + n
  instanceAt : ∀ slot, q.nextSlot ≤ slot → q.instanceAt slot = p.instanceAt slot
  leaderState : q.leaderState = p.leaderState
  leaderPromise : q.leaderPromise = p.leaderPromise
  election : q.election = p.election
  nodeId : q.nodeId = p.nodeId
  quorumSize : q.quorumSize = p.quorumSize
  highestSeenRound : q.highestSeenRound = p.highestSeenRound
  elections : q.record.elections = p.record.elections
  multi : q.multi = p.multi
  forwardedProposals : q.forwardedProposals.Sublist p.forwardedProposals

omit [DecidableEq V] in
theorem Beyond.refl (p : PaxosProtocol V) : Beyond 0 p p :=
  ⟨rfl,fun _ _ => rfl,rfl,rfl,rfl,rfl,rfl,rfl,rfl,rfl,.refl _⟩

omit [DecidableEq V] in
theorem Beyond.trans {m n : ℕ} (h : Beyond m p q) (h' : Beyond n q r) : Beyond (m + n) p r := by
  refine ⟨by rw [h'.nextSlot,h.nextSlot,Nat.add_assoc],fun slot hs => ?_,
    h'.leaderState.trans h.leaderState,h'.leaderPromise.trans h.leaderPromise,
    h'.election.trans h.election,h'.nodeId.trans h.nodeId,h'.quorumSize.trans h.quorumSize,
    h'.highestSeenRound.trans h.highestSeenRound,h'.elections.trans h.elections,
    h'.multi.trans h.multi,
    h'.forwardedProposals.trans h.forwardedProposals⟩
  rw [h'.instanceAt slot hs,h.instanceAt slot (by rw [h'.nextSlot] at hs; omega)]

omit [DecidableEq V] in
theorem Beyond.putInstance {slot : ℕ} (hlt : slot < p.nextSlot) (inst : PaxosInstance V) :
    Beyond 0 p (p.putInstance slot inst) :=
  { Beyond.refl p with
    instanceAt := fun slot' hs => PaxosProtocol.instanceAt_putInstance_ne p
      (by change p.nextSlot ≤ slot' at hs; omega) inst }

theorem Beyond.conclude {slot : ℕ} (hlt : slot < p.nextSlot) (env : PaxosEnv) (value : V) :
    Beyond 0 p (p.conclude env slot value).1 := by
  obtain ⟨forwarded,hsub,heq⟩ := p.conclude_frame env slot value
  rw [heq]
  have hn : (if p.nextSlot ≤ slot then slot + 1 else p.nextSlot) = p.nextSlot :=
    if_neg (by omega)
  refine ⟨hn,fun slot' hs => ?_,rfl,rfl,rfl,rfl,rfl,rfl,rfl,rfl,hsub⟩
  exact PaxosProtocol.instanceAt_removeInstance_ne p (by simp only [hn] at hs; omega)

theorem Beyond.selfAccept {slot : ℕ} (hlt : slot < p.nextSlot) (env : PaxosEnv)
    (inst : PaxosInstance V) (pn : ProposalNumber) (value : V) :
    Beyond 0 p (p.selfAccept env slot inst pn value).1 := by
  have hvote : Beyond 0 p ((p.putInstance slot (inst.selfVote p.nodeId pn value)).noteVote slot
      pn value) := { Beyond.putInstance hlt _ with }
  unfold PaxosProtocol.selfAccept
  simp only
  split
  · refine hvote.trans (.conclude ?_ env value)
    exact hlt
  · exact hvote

theorem Beyond.startPhase2 {slot : ℕ} (hlt : slot < p.nextSlot) (env : PaxosEnv) :
    Beyond 0 p (p.startPhase2 env slot).1 := by
  have hpanic : Beyond 0 p p.panic.1 := { Beyond.refl p with }
  have hmiss : Beyond 0 p p.missValue.1 := { Beyond.refl p with }
  unfold PaxosProtocol.startPhase2
  split
  · exact hpanic
  · split
    · exact hmiss
    · simp only
      split
      · exact .selfAccept hlt env _ _ _
      · split
        · exact .conclude hlt env _
        · exact .refl p

omit [DecidableEq V] in
theorem Beyond.allocate (h : Beyond 0 { p with nextSlot := p.nextSlot + 1 } q) : Beyond 1 p q :=
  { h with }

theorem Beyond.proposeFullPaxos (p : PaxosProtocol V) (env : PaxosEnv) (value : V) :
    Beyond 1 p (p.proposeFullPaxos env value).1 := by
  have hput := Beyond.putInstance (p := { p with nextSlot := p.nextSlot + 1 }) (Nat.lt_succ_self _)
    (p.prepared env p.nextSlot (.mk 1 p.nodeId) value)
  unfold PaxosProtocol.proposeFullPaxos
  simp only
  split
  · refine .allocate (hput.trans (.startPhase2 ?_ env))
    exact Nat.lt_succ_self _
  · exact .allocate hput

theorem Beyond.innerPropose (p : PaxosProtocol V) (env : PaxosEnv) (value : V) :
    Beyond 1 p (p.innerPropose env value).1 := by
  unfold PaxosProtocol.innerPropose
  split
  · split
    · exact .allocate (.selfAccept (Nat.lt_succ_self _) env _ _ _)
    · exact .proposeFullPaxos p env value
  · exact .proposeFullPaxos p env value

theorem Beyond.retryProposal (h : Tidy p) (env : PaxosEnv) (slot : ℕ) :
    Beyond 0 p (p.retryProposal env slot).1 := by
  unfold PaxosProtocol.retryProposal
  split
  · exact .refl p
  · rename_i inst hl
    split
    · rename_i hp
      have hlt := h.proposer_of_lookup hl hp.2
      have hput := Beyond.putInstance hlt (p.retried env slot inst)
      simp only
      split
      · refine hput.trans (.startPhase2 ?_ env)
        exact hlt
      · exact hput
    · exact .refl p

/-- Proposals go the short way. -/
def PaxosProtocol.leads (p : PaxosProtocol V) : Prop := p.multi = true ∧ p.isLeader = true

/-- Phase 2 does not start at once below the leader promise: nobody has answered
yet in a slot still to be taken; a node with nobody to ask is the only leader. -/
def PaxosProtocol.Clear (p : PaxosProtocol V) : Prop :=
  if 2 ≤ p.quorumSize then p.leads ∨ ∀ slot ∈ p.instances.keys, p.nextSlot ≤ slot →
    (p.instanceAt slot).promisesReceived = ∅
  else ∀ l ∈ p.leaderPromise, l ≤ .mk 1 p.nodeId

instance (p : PaxosProtocol V) : Decidable p.leads :=
  inferInstanceAs (Decidable (p.multi = true ∧ p.isLeader = true))

instance (p : PaxosProtocol V) : Decidable p.Clear :=
  inferInstanceAs (Decidable (if 2 ≤ p.quorumSize then p.leads ∨ ∀ slot ∈ p.instances.keys,
    p.nextSlot ≤ slot → (p.instanceAt slot).promisesReceived = ∅
    else ∀ l ∈ p.leaderPromise, l ≤ .mk 1 p.nodeId))

omit [DecidableEq V] in
theorem PaxosProtocol.clear_iff : p.Clear ↔
    (2 ≤ p.quorumSize → p.leads ∨ ∀ slot, p.nextSlot ≤ slot →
      (p.instanceAt slot).promisesReceived = ∅) ∧
    (p.quorumSize ≤ 1 → ∀ l ∈ p.leaderPromise, l ≤ .mk 1 p.nodeId) := by
  have hall : (∀ slot ∈ p.instances.keys, p.nextSlot ≤ slot →
      (p.instanceAt slot).promisesReceived = ∅) ↔
      ∀ slot, p.nextSlot ≤ slot → (p.instanceAt slot).promisesReceived = ∅ := by
    refine ⟨fun h slot hs => ?_,fun h slot _ hs => h slot hs⟩
    by_cases hk : slot ∈ p.instances
    · exact h slot (AList.mem_keys.mp hk) hs
    · rw [PaxosProtocol.instanceAt,AList.lookup_eq_none.mpr hk]
      rfl
  unfold PaxosProtocol.Clear
  rw [hall]
  split
  · rename_i hq
    exact ⟨fun h => ⟨fun _ => h,fun hq' => by omega⟩,fun h => h.1 hq⟩
  · rename_i hq
    exact ⟨fun h => ⟨fun hq' => absurd hq' hq,fun _ => h⟩,fun h => h.2 (by omega)⟩

omit [DecidableEq V] in
theorem Beyond.leads_iff {n : ℕ} (h : Beyond n p q) : q.leads ↔ p.leads := by
  unfold PaxosProtocol.leads PaxosProtocol.isLeader
  rw [h.multi,h.leaderState]

omit [DecidableEq V] in
theorem PaxosProtocol.Clear.beyond {n : ℕ} (hc : p.Clear) (h : Beyond n p q) : q.Clear := by
  rw [PaxosProtocol.clear_iff] at hc ⊢
  rw [h.quorumSize,h.leads_iff,h.leaderPromise,h.nodeId]
  refine hc.imp_left (fun hc hq => (hc hq).imp_right fun hp slot hs => ?_)
  rw [h.instanceAt slot hs]
  exact hp slot (by rw [h.nextSlot] at hs; omega)

theorem Moves.proposeFullPaxos {value : V} (hs : R.source p.nextSlot value)
    (hc : R.free → (p.instanceAt p.nextSlot).Free (.mk 1 p.nodeId)) (hn : ¬ p.leads)
    (hf : R.fenced → p.Clear) :
    Moves R env input p (p.proposeFullPaxos env value).1
      (p.proposeFullPaxos env value).2 := by
  unfold PaxosProtocol.proposeFullPaxos
  simp only
  split
  · rename_i hq
    have hown : ∀ h, (p.prepared env p.nextSlot (.mk 1 p.nodeId) value).highestPromised = some h →
        h ≤ .mk 1 p.nodeId := by
      rintro h hh
      cases hh
      exact le_rfl
    refine .cons (.claim hs hc nofun) (.startPhase2 (AList.lookup_insert _) hq (Or.inl hown) ?_
      fun _ => hown)
    · intro hfe _ l hl
      obtain ⟨hmany,hone⟩ := PaxosProtocol.clear_iff.mp (hf hfe)
      rcases Nat.lt_or_ge 1 p.quorumSize with h2 | h1
      · have hempty := (hmany h2).resolve_left hn p.nextSlot le_rfl
        have hcard : (p.prepared env p.nextSlot (.mk 1 p.nodeId) value).promisesReceived.card = 1 := by
          simp [PaxosProtocol.prepared,PaxosProtocol.claim,hempty]
        have hq : p.quorumSize ≤ 1 := hcard ▸ hq
        omega
      · exact hone h1 l hl
  · exact .one (.claim hs hc fun o ho => List.mem_singleton.mp ho)

def PaxosProtocol.nextNumber (p : PaxosProtocol V) : ProposalNumber :=
  match p.multi, p.leaderState with
  | true, .leader term => .mk term p.nodeId
  | _, _ => .mk 1 p.nodeId

theorem Moves.innerPropose {value : V} (hs : R.source p.nextSlot value)
    (hc : R.free → (p.instanceAt p.nextSlot).Free p.nextNumber)
    (hf : R.fenced → p.leads ∨ p.Clear) :
    Moves R env input p (p.innerPropose env value).1 (p.innerPropose env value).2 := by
  have hfull : p.nextNumber = .mk 1 p.nodeId → ¬ p.leads →
      Moves R env input p (p.proposeFullPaxos env value).1
        (p.proposeFullPaxos env value).2 := fun hn hl =>
    .proposeFullPaxos hs (by rw [← hn]; exact hc) hl fun hfe => (hf hfe).resolve_left hl
  unfold PaxosProtocol.innerPropose
  split
  · rename_i hm
    cases hl : p.leaderState with
    | leader term =>
      refine .one (.lead hs hm hl ?_)
      simpa only [PaxosProtocol.nextNumber,hm,hl] using hc
    | follower l t =>
      exact hfull (by simp [PaxosProtocol.nextNumber,hl])
        (by simp [PaxosProtocol.leads,PaxosProtocol.isLeader,hl])
    | candidate =>
      exact hfull (by simp [PaxosProtocol.nextNumber,hl])
        (by simp [PaxosProtocol.leads,PaxosProtocol.isLeader,hl])
  · rename_i hm
    exact hfull (by simp [PaxosProtocol.nextNumber,hm]) fun hl => hm hl.1

theorem Moves.retryProposal (slot : ℕ) (hf : R.fenced → p.Clear) :
    Moves R env input p (p.retryProposal env slot).1 (p.retryProposal env slot).2 := by
  unfold PaxosProtocol.retryProposal
  split
  · exact .nil
  · rename_i inst hl
    split
    · rename_i hp
      simp only
      split
      · rename_i hq
        have hown : ∀ h, (p.retried env slot inst).highestPromised = some h →
            h ≤ p.retryNumber inst := by
          rintro h hh
          cases hh
          exact le_rfl
        refine .cons (.retry hl hp.2 nofun) (.startPhase2 (AList.lookup_insert _) hq
          (Or.inl hown) ?_ fun _ => hown)
        · intro hfe _ l hl
          have hq : p.quorumSize ≤ ({p.nodeId} : Finset NodeId).card := hq
          rw [Finset.card_singleton] at hq
          exact ((PaxosProtocol.clear_iff.mp (hf hfe)).2 hq l hl).trans
            (ProposalNumber.mk_le (by simp))
      · exact .one (.retry hl hp.2 fun o ho => List.mem_singleton.mp ho)
    · exact .nil

omit [DecidableEq V] in
theorem runAll_rest {A : Type} {f : A → PaxosProtocol V → Reply V}
    (inv : List A → PaxosProtocol V → Prop)
    (hstep : ∀ a rest q, inv (a :: rest) q → inv rest (f a q).1) {l : List A}
    {p : PaxosProtocol V} (h : inv l p) : inv [] (runAll f p l).1 := by
  induction l generalizing p with
  | nil => exact h
  | cons a rest ih => exact ih (hstep a rest p h)

omit [DecidableEq V] in
theorem runAll_invariant {A : Type} {f : A → PaxosProtocol V → Reply V}
    (I : PaxosProtocol V → Prop) (hf : ∀ a q, I q → I (f a q).1) {p : PaxosProtocol V} (h : I p)
    (l : List A) : I (runAll f p l).1 :=
  runAll_rest (fun _ q => I q) (fun a _ q hq => hf a q hq) h

theorem Moves.runAll {A : Type} {f : A → PaxosProtocol V → Reply V}
    (inv : List A → PaxosProtocol V → Prop)
    (hstep : ∀ a rest p, inv (a :: rest) p →
      Moves R env input p (f a p).1 (f a p).2 ∧ inv rest (f a p).1)
    {l : List A} (h : inv l p) :
    Moves R env input p (runAll f p l).1 (runAll f p l).2 ∧
      inv [] (runAll f p l).1 := by
  induction l generalizing p with
  | nil => exact ⟨.nil,h⟩
  | cons a rest ih =>
    obtain ⟨hm,hrest⟩ := hstep a rest p h
    obtain ⟨hms,hend⟩ := ih hrest
    exact ⟨hm.trans hms,hend⟩

section Election

omit [DecidableEq V] in
theorem PaxosProtocol.mem_recoveredSlots {highest : AList fun _ : ℕ => ProposalNumber × V}
    {slot : ℕ} {v : V} : (slot,v) ∈ PaxosProtocol.recoveredSlots env highest ↔
      ∃ b, highest.lookup slot = some (b,v) := by
  simp only [PaxosProtocol.recoveredSlots,List.mem_filterMap,Option.map_eq_some_iff,Prod.mk.injEq]
  constructor
  · rintro ⟨slot',_,r,hr,rfl,rfl⟩
    exact ⟨r.1,hr⟩
  · rintro ⟨b,hb⟩
    refine ⟨slot,?_,(b,v),hb,rfl,rfl⟩
    rw [PaxosEnv.arrange,List.mem_insertionSort]
    exact AList.mem_keys.mp (mem_of_lookup hb)

omit [DecidableEq V] in
theorem PaxosProtocol.recoveredSlots_nodup (highest : AList fun _ : ℕ => ProposalNumber × V) :
    ((PaxosProtocol.recoveredSlots env highest).map Prod.fst).Nodup := by
  refine List.Nodup.map_on ?_ (List.Nodup.filterMap ?_ ?_)
  · rintro ⟨slot,v⟩ hx ⟨slot',w⟩ hy (rfl : slot = slot')
    obtain ⟨b,hb⟩ := mem_recoveredSlots.mp hx
    obtain ⟨c,hc⟩ := mem_recoveredSlots.mp hy
    rw [hb] at hc
    cases hc
    rfl
  · intro a b x ha hb
    simp only [Option.mem_def,Option.map_eq_some_iff] at ha hb
    obtain ⟨_,_,rfl⟩ := ha
    obtain ⟨_,_,heq⟩ := hb
    exact (Prod.mk.inj heq).1.symm
  · exact (List.perm_insertionSort _ _).nodup_iff.mpr highest.keys_nodup

omit [DecidableEq V] in
theorem PaxosProtocol.lt_advancePast {n k : ℕ} {l : List ℕ} (hk : k ∈ l) :
    k < PaxosProtocol.advancePast n l.max? := by
  cases hm : l.max? with
  | none =>
    rw [List.max?_eq_none_iff.mp hm] at hk
    cases hk
  | some last =>
    have hle := (List.max?_eq_some_iff.mp hm).2 k hk
    simp only [PaxosProtocol.advancePast]
    split <;> omega

structure Highest (p : PaxosProtocol V) (reports : List (ℕ × ProposalNumber × V))
    (m : AList fun _ : ℕ => ProposalNumber × V) : Prop where
  reported : ∀ {slot r}, m.lookup slot = some r → slot ∉ p.decidedSlots ∧ (slot,r) ∈ reports
  highest : ∀ {slot r}, (slot,r) ∈ reports → slot ∉ p.decidedSlots →
    ∃ r', m.lookup slot = some r' ∧ r.1 ≤ r'.1

section
variable {reports : List (ℕ × ProposalNumber × V)} {m : AList fun _ : ℕ => ProposalNumber × V}
  {slot : ℕ} {x : ProposalNumber × V}

omit [DecidableEq V] in
theorem Highest.skip (h : Highest p reports m)
    (hx : slot ∉ p.decidedSlots → ∃ r', m.lookup slot = some r' ∧ x.1 ≤ r'.1) :
    Highest p (reports ++ [(slot,x)]) m := by
  refine ⟨fun hr => ⟨(h.reported hr).1,List.mem_append_left _ (h.reported hr).2⟩,fun hr hs => ?_⟩
  rcases List.mem_append.mp hr with hr | hr
  · exact h.highest hr hs
  · cases List.mem_singleton.mp hr
    exact hx hs

omit [DecidableEq V] in
theorem Highest.insert (h : Highest p reports m) (hs : slot ∉ p.decidedSlots)
    (hx : ∀ r', m.lookup slot = some r' → r'.1 ≤ x.1) :
    Highest p (reports ++ [(slot,x)]) (m.insert slot x) := by
  refine ⟨fun {slot' r} hr => ?_,fun {slot' r} hr hs' => ?_⟩
  · by_cases hne : slot' = slot
    · subst hne
      rw [AList.lookup_insert] at hr
      cases hr
      exact ⟨hs,List.mem_append_right _ (List.mem_singleton.mpr rfl)⟩
    · rw [AList.lookup_insert_ne hne] at hr
      exact ⟨(h.reported hr).1,List.mem_append_left _ (h.reported hr).2⟩
  · by_cases hne : slot' = slot
    · subst hne
      refine ⟨x,AList.lookup_insert _,?_⟩
      rcases List.mem_append.mp hr with hr | hr
      · obtain ⟨r',hr',hle⟩ := h.highest hr hs'
        exact hle.trans (hx r' hr')
      · cases List.mem_singleton.mp hr
        exact le_rfl
    · rw [AList.lookup_insert_ne hne]
      rcases List.mem_append.mp hr with hr | hr
      · exact h.highest hr hs'
      · cases List.mem_singleton.mp hr
        exact absurd rfl hne

omit [DecidableEq V] in
theorem Highest.keepHighest (h : Highest p reports m) :
    Highest p (reports ++ [(slot,x)]) (p.keepHighest m (slot,x)) := by
  unfold PaxosProtocol.keepHighest
  split
  · rename_i hd
    exact h.skip fun hs => absurd hd hs
  · rename_i hs
    split
    · rename_i existing hl
      split
      · rename_i hle
        exact h.skip fun _ => ⟨existing,hl,hle⟩
      · rename_i hle
        refine h.insert hs fun r' hr' => ?_
        cases hl.symm.trans hr'
        exact le_of_not_ge hle
    · rename_i hl
      exact h.insert hs fun r' hr' => by cases hl.symm.trans hr'

end

omit [DecidableEq V] in
theorem PaxosProtocol.highestPerSlot_highest (p : PaxosProtocol V)
    (reports : List (ℕ × ProposalNumber × V)) : Highest p reports (p.highestPerSlot reports) := by
  induction reports using List.reverseRecOn with
  | nil => exact ⟨nofun,nofun⟩
  | append_singleton reports x ih =>
    rw [PaxosProtocol.highestPerSlot,List.foldl_concat]
    exact ih.keepHighest

theorem PaxosProtocol.conclude_elsewhere (p : PaxosProtocol V) (env : PaxosEnv) (slot : ℕ)
    (value : V) {slot' : ℕ} (hne : slot' ≠ slot) :
    (p.conclude env slot value).1.instanceAt slot' = p.instanceAt slot' ∧
      (p.conclude env slot value).1.record = p.record := by
  obtain ⟨forwarded,_,heq⟩ := p.conclude_frame env slot value
  rw [heq]
  exact ⟨instanceAt_removeInstance_ne p hne,rfl⟩

theorem PaxosProtocol.selfAccept_elsewhere (p : PaxosProtocol V) (env : PaxosEnv) (slot : ℕ)
    (inst : PaxosInstance V) (pn : ProposalNumber) (value : V) {slot' : ℕ} (hne : slot' ≠ slot) :
    (p.selfAccept env slot inst pn value).1.instanceAt slot' = p.instanceAt slot' ∧
      (p.selfAccept env slot inst pn value).1.record.elections = p.record.elections := by
  have hput := instanceAt_putInstance_ne p hne (inst.selfVote p.nodeId pn value)
  unfold PaxosProtocol.selfAccept
  simp only
  split
  · obtain ⟨hat,hrec⟩ := ((p.putInstance slot (inst.selfVote p.nodeId pn value)).noteVote slot pn
      value).conclude_elsewhere env slot value hne
    exact ⟨hat.trans hput,by rw [hrec]; rfl⟩
  · exact ⟨hput,rfl⟩

theorem PaxosProtocol.selfAccept_cases (p : PaxosProtocol V) (env : PaxosEnv)
    (slot : ℕ) (inst : PaxosInstance V) (n : ProposalNumber) (v : V) :
    (p.selfAccept env slot inst n v).1.record.votes = p.record.votes ++ [⟨slot,n,v⟩] ∧
    ((slot ∈ (p.selfAccept env slot inst n v).1.decidedSlots ∧
        (p.selfAccept env slot inst n v).2 = [⟨.broadcast,.decide slot v⟩]) ∨
      ((p.selfAccept env slot inst n v).1.instanceAt slot = inst.selfVote p.nodeId n v ∧
        (p.selfAccept env slot inst n v).2 = [⟨.broadcast,.accept slot n v⟩])) := by
  unfold PaxosProtocol.selfAccept
  simp only
  split
  · exact ⟨conclude_votes ..,Or.inl ⟨mem_of_lookup (lookup_conclude ..),rfl⟩⟩
  · exact ⟨rfl,Or.inr ⟨instanceAt_putInstance_self ..,rfl⟩⟩

/-- What holds before the rest of the recovered slots are replayed. -/
structure Replaying (R : Rules V) (r : Election V) (rest : List (ℕ × V))
    (p : PaxosProtocol V) : Prop where
  tidy : Tidy p
  recorded : r ∈ p.record.elections.drop R.elections
  leader : p.leaderState = .leader r.number.round
  own : r.number.node = p.nodeId
  nodup : (rest.map Prod.fst).Nodup
  replayed : ∀ x ∈ rest, x ∈ r.replayed ∧ x.1 < p.nextSlot ∧
    (R.free → (p.instanceAt x.1).Free r.number) ∧
    (R.orderly → (p.instanceAt x.1).isProposer = true →
      (p.instanceAt x.1).proposalNumber < r.number)

theorem Replaying.replayAccept {el : Election V} {x : ℕ × V} {rest : List (ℕ × V)}
    (h : Replaying R el (x :: rest) p) :
    Moves R env input p (p.replayAccept env el.number x).1
      (p.replayAccept env el.number x).2 ∧
    Replaying R el rest (p.replayAccept env el.number x).1 := by
  obtain ⟨slot,value⟩ := x
  obtain ⟨hmem,hlt,hfree,horder⟩ := h.replayed (slot,value) List.mem_cons_self
  obtain ⟨hnotin,hnodup⟩ := List.nodup_cons.mp h.nodup
  by_cases hs : slot ∈ p.decidedSlots
  · have heq : p.replayAccept env el.number (slot,value) = (p,[]) := if_pos hs
    rw [heq]
    exact ⟨.nil,{ h with nodup := hnodup, replayed := fun x hx => h.replayed x (.tail _ hx) }⟩
  · have hm : Move R env input p (p.replayAccept env el.number (slot,value)).1
        (p.replayAccept env el.number (slot,value)).2 :=
      .replay h.recorded hmem h.leader h.own hs hlt hfree horder
    have htidy := (hm.keeps h.tidy).tidy
    refine ⟨.one hm,?_⟩
    have heq : p.replayAccept env el.number (slot,value) =
        p.selfAccept env slot (p.replayed env slot el.number value) el.number value := if_neg hs
    rw [heq] at htidy ⊢
    have hb := Beyond.selfAccept hlt env (p.replayed env slot el.number value) el.number value
    have helse : ∀ slot', slot' ≠ slot → _ := fun slot' =>
      p.selfAccept_elsewhere env slot (p.replayed env slot el.number value) el.number value
    refine ⟨htidy,?_,hb.leaderState.trans h.leader,h.own.trans hb.nodeId.symm,hnodup,?_⟩
    · rw [(helse (slot + 1) (by omega)).2]
      exact h.recorded
    · intro y hy
      have hne : y.1 ≠ slot := by
        rintro rfl
        exact hnotin (List.mem_map.mpr ⟨y,hy,rfl⟩)
      rw [(helse y.1 hne).1,hb.nextSlot]
      exact h.replayed y (.tail _ hy)

theorem Moves.completeLeaderElection {e : ElectionState V} (h : Tidy p)
    (hn : R.elections ≤ p.record.elections.length) (he : p.election = some e)
    (hq : p.quorumSize ≤ e.promisesReceived.card)
    (hc : R.free → ∀ r ∈ e.accepted, r.1 ∉ p.decidedSlots →
      (p.instanceAt r.1).Free e.proposalNumber)
    (ho : R.orderly → ∀ r ∈ e.accepted, r.1 ∉ p.decidedSlots →
      (p.instanceAt r.1).isProposer = true →
      (p.instanceAt r.1).proposalNumber < e.proposalNumber) :
    Moves R env input p (p.completeLeaderElection env).1
      (p.completeLeaderElection env).2 ∧
    (p.completeLeaderElection env).1.leaderState = .leader e.proposalNumber.round := by
  have helect : Move R env input p (p.takeOffice env e) [] := .elect he hq
  have hhigh := p.highestPerSlot_highest e.accepted
  let el : Election V := ⟨e.proposalNumber,e.sinceSlot,
    PaxosProtocol.recoveredSlots env (p.highestPerSlot e.accepted)⟩
  have hstart : Replaying R el el.replayed (p.takeOffice env e) := by
    have hlast : el ∈ (p.record.elections ++ [el]).drop R.elections := by
      rw [List.drop_append_of_le_length hn]
      exact List.mem_append_right _ (List.mem_singleton.mpr rfl)
    refine ⟨(helect.keeps h).tidy,hlast,rfl,(h.election he).2,
      PaxosProtocol.recoveredSlots_nodup _,?_⟩
    rintro ⟨slot,v⟩ hx
    obtain ⟨b,hb⟩ := PaxosProtocol.mem_recoveredSlots.mp hx
    obtain ⟨hs,hmem⟩ := hhigh.reported hb
    refine ⟨hx,?_,fun hca => hc hca _ hmem hs,fun hor => ho hor _ hmem hs⟩
    have hkey : slot ∈ (p.highestPerSlot e.accepted).keys :=
      AList.mem_keys.mp (mem_of_lookup hb)
    exact (PaxosProtocol.lt_advancePast hkey).trans_le (PaxosProtocol.le_advancePast _ _)
  have heq : p.completeLeaderElection env = Paxos.runAll
      (PaxosProtocol.replayAccept env e.proposalNumber) (p.takeOffice env e) el.replayed := by
    unfold PaxosProtocol.completeLeaderElection
    rw [he]
  rw [heq]
  refine (Moves.runAll (Replaying R el) (fun _ _ _ hr => hr.replayAccept) hstart).imp
    (fun hm => .cons helect hm) fun hend => hend.leader

/-- Alone, a candidate is elected at once; otherwise it has to ask. -/
theorem Moves.startElection (h : Tidy p) (hn : R.elections ≤ p.record.elections.length)
    (hm : p.multi = true) (hc : R.free ∨ R.orderly → 2 ≤ p.quorumSize) :
    Moves R env input p (p.startElection env).1 (p.startElection env).2 ∧
      if 2 ≤ p.quorumSize then (p.startElection env).1 = p.campaign env
      else (p.startElection env).1.isLeader = true := by
  have hone : (p.candidacy env).promisesReceived.card = 1 := Finset.card_singleton _
  have hquorum : (p.campaign env).quorumSize = p.quorumSize := rfl
  unfold PaxosProtocol.startElection
  simp only [hone,hquorum]
  by_cases h2 : 2 ≤ p.quorumSize
  · simp only [if_pos h2,if_neg (show ¬ p.quorumSize ≤ 1 by omega)]
    exact ⟨.one (.campaign hm fun o ho => List.mem_singleton.mp ho),trivial⟩
  · simp only [if_neg h2,if_pos (show p.quorumSize ≤ 1 by omega)]
    have hcamp : Move R env input p (p.campaign env) [] := .campaign hm nofun
    obtain ⟨hmoves,hleader⟩ := Moves.completeLeaderElection (hcamp.keeps h).tidy hn rfl
      (show p.quorumSize ≤ (p.candidacy env).promisesReceived.card by omega)
      (fun hca => absurd (hc (Or.inl hca)) h2) (fun hor => absurd (hc (Or.inr hor)) h2)
    exact ⟨.cons hcamp hmoves,by simp [PaxosProtocol.isLeader,hleader]⟩

theorem Moves.handlePrepareLeader {sender : NodeId} {pn : ProposalNumber} {since : ℕ}
    (hin : input = .message sender (.prepareLeader pn since)) (hm : p.multi = true)
    (hc : R.careful → p.UndecidedSince pn since) :
    Moves R env input p (p.handlePrepareLeader env sender pn since).1
      (p.handlePrepareLeader env sender pn since).2 := by
  have hgrant : (∀ l ∈ p.leaderPromise, l < pn) → Moves R env input p
      (p.submit env sender pn) [⟨.peer sender,.promiseLeader pn
        ((p.submit env sender pn).collectAcceptedForPromise env since)⟩] := fun hfree =>
    .one (.submit hin hm hfree fun hca slot hs => hc hca hfree slot (AList.mem_keys.mp hs))
  unfold PaxosProtocol.handlePrepareLeader
  simp only
  split
  · rename_i hl
    exact hgrant fun l hl' => by cases hl.symm.trans hl'
  · rename_i hp hl
    split
    · rename_i hlt
      refine hgrant fun l hl' => ?_
      cases hl.symm.trans hl'
      exact hlt
    · exact .say trivial

theorem Moves.handlePromiseLeader {sender : NodeId} {pn : ProposalNumber}
    {accepted : List (ℕ × ProposalNumber × V)} (h : Tidy p)
    (hn : R.elections ≤ p.record.elections.length)
    (hin : input = .message sender (.promiseLeader pn accepted))
    (hc : R.free → p.FreeToReplay sender pn accepted)
    (ho : R.orderly → p.FreshReplay sender pn accepted) :
    Moves R env input p (p.handlePromiseLeader env sender pn accepted).1
      (p.handlePromiseLeader env sender pn accepted).2 := by
  unfold PaxosProtocol.handlePromiseLeader
  split
  · exact .nil
  · rename_i e he
    split
    · rename_i hpn
      subst hpn
      have hpoll : Move R env input p { p with election := some { e with
          promisesReceived := insert sender e.promisesReceived
          accepted := e.accepted ++ accepted } } [] := .poll hin he
      simp only
      split
      · rename_i hq
        exact .cons hpoll (Moves.completeLeaderElection (hpoll.keeps h).tidy hn rfl hq
          (fun hca => hc hca e he rfl hq) fun hor => ho hor e he rfl hq).1
      · exact .one hpoll
    · exact .nil

end Election

omit [DecidableEq V] in
theorem Frame.electionOver (p : PaxosProtocol V) (started : Option ℕ) :
    Frame p { p with election := none, electionStartedAt := started } :=
  { Frame.refl p with election := Or.inr rfl }

omit [DecidableEq V] in
theorem Frame.checkElectionTimeout (p : PaxosProtocol V) (env : PaxosEnv) :
    Frame p (p.checkElectionTimeout env) := by
  unfold PaxosProtocol.checkElectionTimeout
  split
  · exact .refl p
  · split
    · exact { Frame.refl p with election := Or.inr rfl, leaderState := Or.inr nofun }
    · exact .refl p

theorem Moves.handleNackLeader (hp : ProposalNumber) :
    Moves R env input p (p.handleNackLeader env hp) [] := by
  unfold PaxosProtocol.handleNackLeader
  refine .cons (.aside (.seen p hp.round) nofun) (.cons (.aside (.electionOver _ none) nofun) ?_)
  simp only
  split
  · exact .frame (.demoted _ _ _)
  · exact .nil

theorem Moves.handleHeartbeat (sender : NodeId) (term : ℕ) :
    Moves R env input p (p.handleHeartbeat env sender term) [] := by
  unfold PaxosProtocol.handleHeartbeat
  split
  · unfold PaxosProtocol.updateLeaderContact
    refine .cons (.aside (.seen p term) nofun) ?_
    simp only
    split
    · split
      · exact .frame (.demoted _ _ _)
      · exact .nil
    · exact .frame (.demoted _ _ _)
  · exact .nil

theorem PaxosProtocol.nextSlot_le_conclude (p : PaxosProtocol V) (env : PaxosEnv) (slot : ℕ)
    (value : V) : p.nextSlot ≤ (p.conclude env slot value).1.nextSlot := by
  obtain ⟨forwarded,_,heq⟩ := p.conclude_frame env slot value
  rw [heq]
  simp only
  split <;> omega

theorem PaxosProtocol.nextSlot_le_selfAccept (p : PaxosProtocol V) (env : PaxosEnv) (slot : ℕ)
    (inst : PaxosInstance V) (pn : ProposalNumber) (value : V) :
    p.nextSlot ≤ (p.selfAccept env slot inst pn value).1.nextSlot := by
  unfold PaxosProtocol.selfAccept
  simp only
  split
  · exact PaxosProtocol.nextSlot_le_conclude ((p.putInstance slot _).noteVote slot pn value) env _ _
  · exact le_rfl

theorem Move.nextSlot_le (h : Tidy p) (hm : Move R env input p q out) : p.nextSlot ≤ q.nextSlot := by
  cases hm with
  | aside hq => exact hq.nextSlot.ge
  | phase2 => exact p.nextSlot_le_selfAccept env _ _ _ _
  | belated => exact p.nextSlot_le_conclude env _ _
  | settle => exact p.nextSlot_le_conclude env _ _
  | learn => exact (p.lose _).nextSlot_le_conclude env _ _
  | claim => exact Nat.le_succ _
  | lead =>
    exact (Nat.le_succ _).trans (PaxosProtocol.nextSlot_le_selfAccept
      { p with nextSlot := p.nextSlot + 1 } env _ _ _ _)
  | submit _ _ hfree =>
    obtain ⟨_,_,_,heq⟩ := PaxosProtocol.submit_frame h env _ hfree
    rw [heq]
  | elect => exact p.nextSlot_le_takeOffice env _
  | replay hr hv hl ho hs =>
    unfold PaxosProtocol.replayAccept
    rw [if_neg hs]
    exact p.nextSlot_le_selfAccept env _ _ _ _
  | _ => exact le_rfl

theorem Moves.nextSlot_le (h : Tidy p) (hm : Moves R env input p q out) :
    p.nextSlot ≤ q.nextSlot := by
  induction hm with
  | nil => exact le_rfl
  | snoc hm hlast ih => exact ih.trans (hlast.nextSlot_le (hm.tidy h))

theorem PaxosProtocol.selfAccept_elections (p : PaxosProtocol V) (env : PaxosEnv) (slot : ℕ)
    (inst : PaxosInstance V) (pn : ProposalNumber) (value : V) :
    (p.selfAccept env slot inst pn value).1.record.elections = p.record.elections :=
  (p.selfAccept_elsewhere env slot inst pn value (Nat.succ_ne_self slot)).2

theorem PaxosProtocol.conclude_record (p : PaxosProtocol V) (env : PaxosEnv) (slot : ℕ) (value : V) :
    (p.conclude env slot value).1.record = p.record :=
  (p.conclude_elsewhere env slot value (Nat.succ_ne_self slot)).2

theorem Move.elections_grow (h : Tidy p) (hm : Move R env input p q out) :
    p.record.elections <+: q.record.elections := by
  cases hm with
  | aside hq => rw [hq.elections]
  | phase2 => rw [p.selfAccept_elections]
  | belated => rw [p.conclude_record]
  | settle => rw [p.conclude_record]
  | learn =>
    rw [PaxosProtocol.conclude_record]
    exact List.prefix_rfl
  | lead =>
    unfold PaxosProtocol.proposeFastPath
    rw [PaxosProtocol.selfAccept_elections]
  | submit _ _ hfree =>
    obtain ⟨_,_,_,heq⟩ := PaxosProtocol.submit_frame h env _ hfree
    rw [heq]
  | elect => exact List.prefix_append _ _
  | replay hr hv hl ho hs =>
    unfold PaxosProtocol.replayAccept
    rw [if_neg hs,p.selfAccept_elections]
  | _ => exact List.prefix_rfl

theorem Moves.elections_grow (h : Tidy p) (hm : Moves R env input p q out) :
    p.record.elections <+: q.record.elections := by
  induction hm with
  | nil => exact List.prefix_rfl
  | snoc hm hlast ih => exact ih.trans (hlast.elections_grow (hm.tidy h))

theorem PaxosProtocol.conclude_forwarded (p : PaxosProtocol V) (env : PaxosEnv) (slot : ℕ)
    (value : V) {f : ForwardedProposal V}
    (h : f ∈ (p.conclude env slot value).1.forwardedProposals) : f ∈ p.forwardedProposals := by
  obtain ⟨forwarded,hsub,heq⟩ := p.conclude_frame env slot value
  rw [heq] at h
  exact hsub.mem h

theorem PaxosProtocol.selfAccept_forwarded (p : PaxosProtocol V) (env : PaxosEnv) (slot : ℕ)
    (inst : PaxosInstance V) (pn : ProposalNumber) (value : V) {f : ForwardedProposal V}
    (h : f ∈ (p.selfAccept env slot inst pn value).1.forwardedProposals) :
    f ∈ p.forwardedProposals := by
  unfold PaxosProtocol.selfAccept at h
  simp only at h
  split at h
  · exact PaxosProtocol.conclude_forwarded ((p.putInstance slot _).noteVote slot pn value) env slot
      value h
  · exact h

theorem Move.forwarded (ht : Tidy p) (hm : Move R env input p q out) {f : ForwardedProposal V}
    (h : f ∈ q.forwardedProposals) : f ∈ p.forwardedProposals ∨ input = .propose f.value := by
  cases hm with
  | aside hq => exact Or.inl (hq.forwardedProposals f h)
  | phase2 => exact Or.inl (p.selfAccept_forwarded env _ _ _ _ h)
  | belated => exact Or.inl (p.conclude_forwarded env _ _ h)
  | settle => exact Or.inl (p.conclude_forwarded env _ _ h)
  | learn => exact Or.inl ((p.lose _).conclude_forwarded env _ _ h)
  | forward hin =>
    rcases List.mem_append.mp h with h | h
    · exact Or.inl h
    · rw [List.mem_singleton.mp h]
      exact Or.inr hin
  | lead =>
    exact Or.inl (PaxosProtocol.selfAccept_forwarded { p with nextSlot := p.nextSlot + 1 } env _ _ _ _ h)
  | submit _ _ hfree =>
    obtain ⟨_,_,_,heq⟩ := PaxosProtocol.submit_frame ht env _ hfree
    rw [heq] at h
    exact Or.inl h
  | replay hr hv hl ho hs =>
    unfold PaxosProtocol.replayAccept at h
    rw [if_neg hs] at h
    exact Or.inl (p.selfAccept_forwarded env _ _ _ _ h)
  | _ => exact Or.inl h

theorem Moves.forwarded (ht : Tidy p) (hm : Moves R env input p q out) {f : ForwardedProposal V}
    (h : f ∈ q.forwardedProposals) : f ∈ p.forwardedProposals ∨ input = .propose f.value := by
  induction hm with
  | nil => exact Or.inl h
  | snoc hm hlast ih =>
    rcases hlast.forwarded (hm.tidy ht) h with h | h
    · exact ih h
    · exact Or.inr h

omit [DecidableEq V] in
theorem PaxosProtocol.mem_timedOut {v : V} (hv : v ∈ q.timedOut env)
    (h : ∀ f ∈ q.forwardedProposals, f ∈ p.forwardedProposals) : v ∈ p.timedOut env := by
  obtain ⟨f,hf,rfl⟩ := List.mem_map.mp hv
  obtain ⟨hf,ht⟩ := List.mem_filter.mp hf
  exact List.mem_map.mpr ⟨f,List.mem_filter.mpr ⟨h f hf,ht⟩,rfl⟩

/-- Any slot not yet taken may get a forwarded proposal that has timed out. -/
def Sourced (R : Rules V) (env : PaxosEnv) (p : PaxosProtocol V) : Prop :=
  ∀ slot v, p.nextSlot ≤ slot → v ∈ p.timedOut env → R.source slot v

theorem Sourced.moves (hs : Sourced R env p) (h : Tidy p) (hin : input = .tick)
    (hm : Moves R env input p q out) : Sourced R env q := by
  refine fun slot v hle hv => hs slot v ((hm.nextSlot_le h).trans hle)
    (PaxosProtocol.mem_timedOut hv fun f hf => (hm.forwarded h hf).resolve_right ?_)
  rw [hin]
  exact nofun

structure Poised (R : Rules V) (n : ℕ) (p : PaxosProtocol V) : Prop where
  tidy : Tidy p
  fence : R.fenced → p.leads ∨ p.Clear
  free : R.free → ∀ k < n, (p.instanceAt (p.nextSlot + k)).Free p.nextNumber
  elections : R.elections ≤ p.record.elections.length

omit [DecidableEq V] in
theorem Beyond.nextNumber {n : ℕ} (h : Beyond n p q) : q.nextNumber = p.nextNumber := by
  unfold PaxosProtocol.nextNumber
  rw [h.multi,h.leaderState,h.nodeId]

omit [DecidableEq V] in
theorem Poised.beyond {m n : ℕ} (h : Poised R (m + n) p) (hb : Beyond m p q)
    (ht : Tidy q) : Poised R n q := by
  refine ⟨ht,fun hfe => (h.fence hfe).imp hb.leads_iff.mpr fun hc => hc.beyond hb,
    fun hca k hk => ?_,hb.elections ▸ h.elections⟩
  rw [hb.nextNumber,hb.instanceAt _ (Nat.le_add_right _ _),hb.nextSlot,Nat.add_assoc]
  exact h.free hca (m + k) (by omega)

omit [DecidableEq V] in
theorem Poised.still {n : ℕ} (h : Poised R n p) (hb : Beyond 0 p q) (ht : Tidy q) :
    Poised R n q :=
  Poised.beyond (by rwa [Nat.zero_add]) hb ht

theorem Poised.innerPropose {n : ℕ} (h : Poised R (1 + n) p) {value : V}
    (hs : R.source p.nextSlot value) :
    Moves R env input p (p.innerPropose env value).1 (p.innerPropose env value).2 ∧
      Poised R n (p.innerPropose env value).1 := by
  have hm : Moves R env input p (p.innerPropose env value).1
      (p.innerPropose env value).2 :=
    .innerPropose hs (fun hca => h.free hca 0 (by omega)) h.fence
  exact ⟨hm,h.beyond (.innerPropose p env value) (hm.tidy h.tidy)⟩

omit [DecidableEq V] in
theorem PaxosProtocol.timedOut_length_le (h : q.forwardedProposals.Sublist p.forwardedProposals)
    (env : PaxosEnv) : (q.timedOut env).length ≤ (p.timedOut env).length := by
  simp only [PaxosProtocol.timedOut,List.length_map]
  exact (h.filter _).length_le

omit [DecidableEq V] in
theorem Poised.fewer {m n : ℕ} (h : Poised R n p) (hle : m ≤ n) :
    Poised R m p :=
  { h with free := fun hca k hk => h.free hca k (hk.trans_le hle) }

theorem Moves.handleForwardedProposalTimeouts
    (h : Poised R (p.timedOut env).length p) (hs : Sourced R env p) :
    Moves R env input p (p.handleForwardedProposalTimeouts env).1
      (p.handleForwardedProposalTimeouts env).2 := by
  have hdrop : Frame p { p with
      forwardedProposals := p.forwardedProposals.filter fun f => env.now - f.sentAt < 1000 } :=
    { Frame.refl p with forwardedProposals := fun f => List.mem_of_mem_filter }
  have hb : Beyond 0 p { p with
      forwardedProposals := p.forwardedProposals.filter fun f => env.now - f.sentAt < 1000 } :=
    { Beyond.refl p with forwardedProposals := List.filter_sublist }
  have hstart := h.still hb (Keeps.frame h.tidy hdrop).tidy
  refine .cons (.aside hdrop nofun) (Moves.runAll
    (fun rest q => Poised R rest.length q ∧ p.nextSlot ≤ q.nextSlot ∧
      ∀ v ∈ rest, v ∈ p.timedOut env) (fun value rest q hq => ?_)
    ⟨hstart,le_rfl,fun v hv => hv⟩).1
  obtain ⟨hq,hnext,hrest⟩ := hq
  obtain ⟨hm,hq'⟩ := Poised.innerPropose (by simpa [Nat.add_comm] using hq)
    (hs q.nextSlot value hnext (hrest value List.mem_cons_self))
  exact ⟨hm,hq',hnext.trans (hm.nextSlot_le hq.tidy),fun v hv => hrest v (.tail _ hv)⟩

omit [DecidableEq V] in
theorem PaxosProtocol.checkElectionTimeout_leader (h : Tidy p) (hl : p.isLeader = true) :
    p.checkElectionTimeout env = p := by
  have hnone : p.election = none := by
    unfold PaxosProtocol.isLeader at hl
    split at hl
    · rename_i t ht
      exact (h.leader ht).2
    · cases hl
  unfold PaxosProtocol.checkElectionTimeout
  split
  · rfl
  · rw [if_neg]
    simp [hnone]

omit [DecidableEq V] in
theorem PaxosProtocol.nextNumber_of_not_leads (h : ¬ p.leads) : p.nextNumber = .mk 1 p.nodeId := by
  unfold PaxosProtocol.nextNumber
  split
  · rename_i hm hs
    exact absurd ⟨hm,by simp [PaxosProtocol.isLeader,hs]⟩ h
  · rfl

omit [DecidableEq V] in
/-- Giving up an office, or a campaign, leaves the slots to be taken as they are. -/
theorem Poised.demoted {n : ℕ} (h : Poised R n p) (hn : ¬ p.leads) (hn' : ¬ q.leads)
    (ht : Tidy q) (hnext : q.nextSlot = p.nextSlot) (hinst : q.instances = p.instances)
    (hid : q.nodeId = p.nodeId) (hq : q.quorumSize = p.quorumSize)
    (he : q.record.elections = p.record.elections)
    (hl : q.leaderPromise = p.leaderPromise ∨ 2 ≤ p.quorumSize) : Poised R n q := by
  have hat : ∀ slot, q.instanceAt slot = p.instanceAt slot := fun slot => by
    rw [PaxosProtocol.instanceAt,hinst]
    rfl
  refine ⟨ht,fun hfe => Or.inr ?_,fun hca k hk => ?_,he ▸ h.elections⟩
  · have hc := PaxosProtocol.clear_iff.mp ((h.fence hfe).resolve_left hn)
    refine PaxosProtocol.clear_iff.mpr ?_
    rw [hq,hnext,hid]
    simp only [hat]
    refine ⟨fun h2 => Or.inr ((hc.1 h2).resolve_left hn),fun h1 => ?_⟩
    rcases hl with hl | h2
    · rw [hl]
      exact hc.2 h1
    · omega
  · rw [PaxosProtocol.nextNumber_of_not_leads hn',hid,hat,hnext,
      ← PaxosProtocol.nextNumber_of_not_leads hn]
    exact h.free hca k hk

omit [DecidableEq V] in
theorem PaxosProtocol.checkElectionTimeout_forwarded (p : PaxosProtocol V) (env : PaxosEnv) :
    (p.checkElectionTimeout env).forwardedProposals = p.forwardedProposals := by
  unfold PaxosProtocol.checkElectionTimeout
  split
  · rfl
  · split <;> rfl

/-- `check_election_timeout`, and an election of its own if the leader is silent. -/
theorem Moves.electionDue (h : Poised R (p.timedOut env).length p)
    (hm : p.multi = true) (hq : R.free ∨ R.orderly → 2 ≤ p.quorumSize)
    {reply : Reply V} (hr : reply = if (p.checkElectionTimeout env).checkLeaderTimeout env then
      (p.checkElectionTimeout env).startElection env else (p.checkElectionTimeout env,[])) :
    Moves R env input p reply.1 reply.2 ∧
      Poised R (reply.1.timedOut env).length reply.1 := by
  by_cases hl : p.leads
  · have hno : p.checkLeaderTimeout env = false := by
      have hl := hl.2
      unfold PaxosProtocol.isLeader at hl
      unfold PaxosProtocol.checkLeaderTimeout
      split at hl
      · rename_i hs
        rw [hs]
      · cases hl
    rw [PaxosProtocol.checkElectionTimeout_leader h.tidy hl.2,hno] at hr
    subst hr
    exact ⟨.nil,h⟩
  · have hframe := Frame.checkElectionTimeout p env
    have hforwarded := p.checkElectionTimeout_forwarded env
    generalize p.checkElectionTimeout env = q at hr hframe hforwarded
    have ht := (Keeps.frame h.tidy hframe).tidy
    have hnq : ¬ q.leads := by
      rintro ⟨hm',hl'⟩
      rcases hframe.leaderState with heq | hne
      · exact hl ⟨hm,by rwa [PaxosProtocol.isLeader,heq] at hl'⟩
      · unfold PaxosProtocol.isLeader at hl'
        split at hl'
        · rename_i hs
          exact hne _ hs
        · cases hl'
    have htimed : (q.timedOut env).length = (p.timedOut env).length := by
      simp only [PaxosProtocol.timedOut,hforwarded]
    have hq' : Poised R (p.timedOut env).length q :=
      h.demoted hl hnq ht hframe.nextSlot hframe.instances hframe.nodeId hframe.quorumSize
        hframe.elections (Or.inl hframe.leaderPromise)
    split at hr
    · have hstart : Moves R env input q _ _ ∧
          if 2 ≤ q.quorumSize then _ = _ else _ = true :=
        Moves.startElection ht hq'.elections (hframe.multi.trans hm)
          fun hca => by rw [hframe.quorumSize]; exact hq hca
      obtain ⟨hmoves,hend⟩ := hstart
      subst hr
      refine ⟨.cons (.aside hframe (List.forall_mem_nil _)) hmoves,?_⟩
      have ht' := hmoves.keeps ht
      split at hend
      · rename_i h2
        rw [hend] at ht' ⊢
        refine (hq'.demoted hnq ?_ ht'.tidy rfl rfl rfl rfl rfl (Or.inr h2)).fewer ?_
        · rintro ⟨_,hl'⟩
          cases hl'
        · exact htimed.le
      · rename_i h2
        exact ⟨ht'.tidy,fun _ => Or.inl ⟨by rw [ht'.multi,hframe.multi,hm],hend⟩,
          fun hca => absurd (hq (Or.inl hca)) (by rw [hframe.quorumSize] at h2; exact h2),
          hq'.elections.trans (hmoves.elections_grow ht).length_le⟩
    · subst hr
      exact ⟨.frame hframe,by rw [htimed]; exact hq'⟩

theorem Moves.getDecisionRebroadcasts (h : Tidy p) :
    Moves R env input p (p.getDecisionRebroadcasts env).1
      (p.getDecisionRebroadcasts env).2 := by
  refine .one (.aside { Frame.refl p with recentDecisions := fun d => List.mem_of_mem_filter } ?_)
  intro o ho
  obtain ⟨d,hd,rfl⟩ := List.mem_map.mp ho
  exact h.recent d (List.mem_of_mem_filter hd)

theorem Moves.heartbeatDue (p : PaxosProtocol V) (env : PaxosEnv) :
    Moves R env input p (if p.shouldSendHeartbeat env then p.makeHeartbeat env else (p,[])).1
      (if p.shouldSendHeartbeat env then p.makeHeartbeat env else (p,[])).2 ∧
    Beyond 0 p (if p.shouldSendHeartbeat env then p.makeHeartbeat env else (p,[])).1 := by
  split
  · unfold PaxosProtocol.makeHeartbeat
    split
    · refine ⟨.one (.aside { Frame.refl p with } ?_),{ Beyond.refl p with }⟩
      intro o ho
      rw [List.mem_singleton.mp ho]
      trivial
    · exact ⟨.nil,.refl p⟩
  · exact ⟨.nil,.refl p⟩

theorem Moves.onTickMulti (h : Poised R (p.timedOut env).length p) (hin : input = .tick)
    (hm : p.multi = true) (hq : R.free ∨ R.orderly → 2 ≤ p.quorumSize)
    (hs : Sourced R env p) :
    Moves R env input p (p.onTickMulti env).1 (p.onTickMulti env).2 := by
  have hbeat := @Moves.heartbeatDue _ _ R input p env
  unfold PaxosProtocol.onTickMulti
  generalize (if p.shouldSendHeartbeat env then p.makeHeartbeat env else (p,[])) = beat at hbeat ⊢
  obtain ⟨hmoves,hb⟩ := hbeat
  have hbeat' := (h.still hb (hmoves.tidy h.tidy)).fewer
    (PaxosProtocol.timedOut_length_le hb.forwardedProposals env)
  have hdue : Moves R env input beat.1 _ _ ∧ Poised R _ _ :=
    Moves.electionDue hbeat' (hb.multi.trans hm)
      (fun hca => by rw [hb.quorumSize]; exact hq hca) rfl
  have hboth := hmoves.trans hdue.1
  exact hboth.trans (.handleForwardedProposalTimeouts hdue.2 (hs.moves h.tidy hin hboth))

theorem Moves.onTick (h : Tidy p) (hn : R.elections ≤ p.record.elections.length)
    (hin : input = .tick) (hf : R.fenced → p.Clear)
    (hq : R.free ∨ R.orderly → 2 ≤ p.quorumSize) (hs : Sourced R env p)
    (hc : R.free → ∀ k < (p.timedOut env).length,
      (p.instanceAt (p.nextSlot + k)).Free p.nextNumber) :
    Moves R env input p (p.onTick env).1 (p.onTick env).2 := by
  have hretry : ∀ slot q, Tidy q ∧ Beyond 0 p q →
      Moves R env input q (q.retryProposal env slot).1 (q.retryProposal env slot).2 ∧
        Tidy (q.retryProposal env slot).1 ∧ Beyond 0 p (q.retryProposal env slot).1 := by
    rintro slot q ⟨ht,hb⟩
    have hm : Moves R env input q (q.retryProposal env slot).1
        (q.retryProposal env slot).2 := .retryProposal slot fun hfe => (hf hfe).beyond hb
    exact ⟨hm,hm.tidy ht,hb.trans (.retryProposal ht env slot)⟩
  obtain ⟨hretries,ht,hb⟩ := Moves.runAll (fun _ q => Tidy q ∧ Beyond 0 p q)
    (fun slot _ q => hretry slot q) (l := p.getRetryableProposals env) ⟨h,.refl p⟩
  unfold PaxosProtocol.onTick
  generalize Paxos.runAll (PaxosProtocol.retryProposal env) p (p.getRetryableProposals env) = retries
    at hretries ht hb
  have hresend : Moves R env input retries.1 _ _ := .getDecisionRebroadcasts ht
  have hboth := hretries.trans hresend
  simp only
  split
  · rename_i hm
    have hresent : Beyond 0 retries.1 (retries.1.getDecisionRebroadcasts env).1 :=
      { Beyond.refl retries.1 with }
    have hb' := hb.trans hresent
    have hpoised : Poised R (p.timedOut env).length p := ⟨h,fun hfe => Or.inr (hf hfe),hc,hn⟩
    exact hboth.trans (.onTickMulti ((hpoised.still hb' (hresend.tidy ht)).fewer
      (PaxosProtocol.timedOut_length_le hb'.forwardedProposals env))
      hin (hb'.multi.trans hm) (fun hca => by rw [hb'.quorumSize]; exact hq hca)
      (hs.moves h hin hboth))
  · exact hboth

/-- A proposal made here goes to the leader. -/
def PaxosProtocol.forwards (p : PaxosProtocol V) : Prop :=
  p.multi = true ∧ ∃ leader ∈ p.getLeader, leader ≠ p.nodeId

/-- What the code relies on when it votes for its own proposals, so that votes
respect the leader promise. -/
def Fences (p : PaxosProtocol V) : Input V → Prop
  | .message sender (.promise slot pn _) => p.FencedPromise sender slot pn
  | .propose _ => ¬ p.forwards → p.Clear
  | .tick => p.Clear
  | _ => True

instance (p : PaxosProtocol V) : Decidable p.forwards :=
  inferInstanceAs (Decidable (p.multi = true ∧ ∃ leader ∈ p.getLeader, leader ≠ p.nodeId))

instance (p : PaxosProtocol V) : (input : Input V) → Decidable (Fences p input)
  | .propose _ => inferInstanceAs (Decidable (¬ p.forwards → p.Clear))
  | .tick => inferInstanceAs (Decidable p.Clear)
  | .message sender (.promise slot pn _) =>
    inferInstanceAs (Decidable (p.FencedPromise sender slot pn))
  | .message _ (.prepare ..) | .message _ (.accept ..) | .message _ (.accepted ..)
  | .message _ (.decide ..) | .message _ (.nackPrepare ..) | .message _ (.nackAccept ..)
  | .message _ (.forward ..) | .message _ (.heartbeat ..) | .message _ (.prepareLeader ..)
  | .message _ (.promiseLeader ..) | .message _ (.nackLeader ..) => .isTrue trivial

/-- The next `n` slots to be taken are free for the node's proposals. -/
def PaxosProtocol.FreeToPropose (p : PaxosProtocol V) (n : ℕ) : Prop :=
  ∀ k < n, (p.instanceAt (p.nextSlot + k)).Free p.nextNumber

instance (p : PaxosProtocol V) (n : ℕ) : Decidable (p.FreeToPropose n) :=
  inferInstanceAs (Decidable (∀ k < n, (p.instanceAt (p.nextSlot + k)).Free p.nextNumber))

/-- What the code relies on beyond that, so that a slot has one value. -/
def Mindful (env : PaxosEnv) (p : PaxosProtocol V) : Input V → Prop
  | .propose _ => ¬ p.forwards → p.FreeToPropose 1
  | .tick => p.FreeToPropose (p.timedOut env).length
  | .message _ (.forward _) => p.isLeader = true → p.FreeToPropose 1
  | .message sender (.promise slot pn accepted) =>
    p.MindfulPromise sender slot pn accepted ∧ p.FencedPromise sender slot pn
  | .message sender (.accepted slot pn value) => p.MindfulAccepted sender slot pn value
  | .message _ (.prepareLeader pn since) => p.UndecidedSince pn since
  | .message sender (.promiseLeader pn accepted) => p.FreeToReplay sender pn accepted
  | _ => True

instance (env : PaxosEnv) (p : PaxosProtocol V) : (input : Input V) → Decidable (Mindful env p input)
  | .propose _ => inferInstanceAs (Decidable (¬ p.forwards → p.FreeToPropose 1))
  | .tick => inferInstanceAs (Decidable (p.FreeToPropose (p.timedOut env).length))
  | .message _ (.forward _) => inferInstanceAs (Decidable (p.isLeader = true → p.FreeToPropose 1))
  | .message sender (.promise slot pn accepted) => inferInstanceAs (Decidable
    (p.MindfulPromise sender slot pn accepted ∧ p.FencedPromise sender slot pn))
  | .message sender (.accepted slot pn value) =>
    inferInstanceAs (Decidable (p.MindfulAccepted sender slot pn value))
  | .message _ (.prepareLeader pn since) => inferInstanceAs (Decidable (p.UndecidedSince pn since))
  | .message sender (.promiseLeader pn accepted) =>
    inferInstanceAs (Decidable (p.FreeToReplay sender pn accepted))
  | .message _ (.prepare ..) | .message _ (.accept ..) | .message _ (.decide ..)
  | .message _ (.nackPrepare ..) | .message _ (.nackAccept ..) | .message _ (.heartbeat ..)
  | .message _ (.nackLeader ..) => .isTrue trivial

/-- What the code relies on so that a number has one value. -/
def Orderly (p : PaxosProtocol V) : Input V → Prop
  | .message _ (.promise slot pn accepted) => p.SteadyPromise slot pn accepted
  | .message sender (.promiseLeader pn accepted) => p.FreshReplay sender pn accepted
  | _ => True

instance (p : PaxosProtocol V) : (input : Input V) → Decidable (Orderly p input)
  | .message _ (.promise slot pn accepted) =>
    inferInstanceAs (Decidable (p.SteadyPromise slot pn accepted))
  | .message sender (.promiseLeader pn accepted) =>
    inferInstanceAs (Decidable (p.FreshReplay sender pn accepted))
  | .propose _ | .tick | .message _ (.prepare ..) | .message _ (.accept ..)
  | .message _ (.accepted ..) | .message _ (.decide ..) | .message _ (.nackPrepare ..)
  | .message _ (.nackAccept ..) | .message _ (.forward ..) | .message _ (.heartbeat ..)
  | .message _ (.prepareLeader ..) | .message _ (.nackLeader ..) => .isTrue trivial

/-- What the code relies on so that an acceptor does not go back. -/
def Unpledged (env : PaxosEnv) (p : PaxosProtocol V) : Input V → Prop
  | .propose _ => ¬ p.forwards → p.FreeToPropose 1
  | .tick => p.FreeToPropose (p.timedOut env).length
  | .message _ (.forward _) => p.isLeader = true → p.FreeToPropose 1
  | .message sender (.promiseLeader pn accepted) => p.FreeToReplay sender pn accepted
  | _ => True

instance (env : PaxosEnv) (p : PaxosProtocol V) :
    (input : Input V) → Decidable (Unpledged env p input)
  | .propose _ => inferInstanceAs (Decidable (¬ p.forwards → p.FreeToPropose 1))
  | .tick => inferInstanceAs (Decidable (p.FreeToPropose (p.timedOut env).length))
  | .message _ (.forward _) => inferInstanceAs (Decidable (p.isLeader = true → p.FreeToPropose 1))
  | .message sender (.promiseLeader pn accepted) =>
    inferInstanceAs (Decidable (p.FreeToReplay sender pn accepted))
  | .message _ (.prepare ..) | .message _ (.promise ..) | .message _ (.accept ..)
  | .message _ (.accepted ..) | .message _ (.decide ..) | .message _ (.nackPrepare ..)
  | .message _ (.nackAccept ..) | .message _ (.heartbeat ..) | .message _ (.prepareLeader ..)
  | .message _ (.nackLeader ..) => .isTrue trivial

omit [DecidableEq V] in
theorem Mindful.unpledged (h : Mindful env p input) : Unpledged env p input := by
  cases input with
  | propose value => exact h
  | tick => exact h
  | message sender msg => cases msg <;> first | exact h | trivial

/-- What the code relies on so that a proposer keeps the vote it counts. -/
def Firm (p : PaxosProtocol V) : Input V → Prop
  | .message sender (.promise slot pn _) => p.FirmPromise sender slot pn
  | .message _ (.accept slot pn value) => p.FirmAccept slot pn value
  | _ => True

instance (p : PaxosProtocol V) : (input : Input V) → Decidable (Firm p input)
  | .message sender (.promise slot pn _) =>
    inferInstanceAs (Decidable (p.FirmPromise sender slot pn))
  | .message _ (.accept slot pn value) => inferInstanceAs (Decidable (p.FirmAccept slot pn value))
  | .propose _ | .tick | .message _ (.prepare ..) | .message _ (.accepted ..)
  | .message _ (.decide ..) | .message _ (.nackPrepare ..) | .message _ (.nackAccept ..)
  | .message _ (.forward ..) | .message _ (.heartbeat ..) | .message _ (.prepareLeader ..)
  | .message _ (.promiseLeader ..) | .message _ (.nackLeader ..) => .isTrue trivial

/-- The values a call may propose, and where. -/
def Requested (env : PaxosEnv) (p : PaxosProtocol V) : Input V → ℕ → V → Prop
  | .propose value, slot, v | .message _ (.forward value), slot, v => slot = p.nextSlot ∧ v = value
  | .tick, slot, v => p.nextSlot ≤ slot ∧ v ∈ p.timedOut env
  | _, _, _ => False

theorem Moves.innerPropose_once {value : V} (hs : R.source p.nextSlot value) (hf : R.fenced → p.leads ∨ p.Clear)
    (hc : R.free → p.FreeToPropose 1) :
    Moves R env input p (p.innerPropose env value).1 (p.innerPropose env value).2 :=
  .innerPropose hs (fun hca => hc hca 0 Nat.one_pos) hf

theorem Moves.propose {value : V} (hin : input = .propose value) (hs : R.source p.nextSlot value)
    (hf : R.fenced → ¬ p.forwards → p.Clear)
    (hc : R.free → ¬ p.forwards → p.FreeToPropose 1) :
    Moves R env input p (p.propose env value).1 (p.propose env value).2 := by
  have hinner : ¬ p.forwards → Moves R env input p (p.innerPropose env value).1
      (p.innerPropose env value).2 := fun hn =>
    .innerPropose_once hs (fun hfe => Or.inr (hf hfe hn)) fun hca => hc hca hn
  unfold PaxosProtocol.propose PaxosProtocol.proposeOrForward
  split
  · rename_i hm
    split
    · rename_i leader hl
      split
      · exact .one (.forward hin hm)
      · rename_i heq
        refine hinner fun hfw => ?_
        obtain ⟨_,leader',hl',hne⟩ := hfw
        cases hl.symm.trans hl'
        exact heq hne
    · rename_i hl
      refine hinner fun hfw => ?_
      obtain ⟨_,leader',hl',_⟩ := hfw
      cases hl.symm.trans hl'
  · rename_i hm
    exact hinner fun hfw => hm hfw.1

structure Rules.Met (R : Rules V) (env : PaxosEnv) (p : PaxosProtocol V) (input : Input V) :
    Prop where
  fenced : R.fenced → Fences p input
  careful : R.careful → Mindful env p input
  orderly : R.orderly → Orderly p input
  free : R.free → Unpledged env p input
  firm : R.firm → Firm p input
  quorum : R.free ∨ R.orderly → 2 ≤ p.quorumSize
  source : ∀ slot v, Requested env p input slot v → R.source slot v
  elections : R.elections ≤ p.record.elections.length

/-- A call is a sequence of moves. -/
theorem handle_moves (R : Rules V) (env : PaxosEnv) (input : Input V) (h : Tidy p)
    (hr : R.Met env p input) :
    Moves R env input p (p.handle env input).1 (p.handle env input).2 := by
  obtain ⟨hf,hc,ho,hfree,hfirm,hq,hs,hn⟩ := hr
  cases input with
  | propose value => exact .propose rfl (hs _ _ ⟨rfl,rfl⟩) hf hfree
  | tick => exact .onTick h hn rfl hf hq (fun slot v hle hv => hs slot v ⟨hle,hv⟩) hfree
  | message sender msg =>
    unfold PaxosProtocol.handle PaxosProtocol.handleMessage
    have hnil : Moves R env (.message sender msg) p p [] := .nil
    cases msg with
    | prepare slot pn => exact .handlePrepare rfl
    | promise slot pn accepted => exact .handlePromise rfl hf (fun hca => (hc hca).1) ho hfirm
    | accept slot pn value => exact .handleAccept rfl hfirm
    | accepted slot pn value => exact .handleAccepted rfl hc
    | decide slot value => exact .handleDecide rfl
    | nackPrepare slot pn hp => exact .handleNack h hp
    | nackAccept slot pn hp => exact .handleNack h hp
    | forward value =>
      simp only
      split
      · rename_i hm
        unfold PaxosProtocol.handleForward
        split
        · rename_i hl
          exact .innerPropose_once (hs _ _ ⟨rfl,rfl⟩) (fun _ => Or.inl ⟨hm,hl⟩) fun hr => hfree hr hl
        · exact hnil
      · exact hnil
    | heartbeat term =>
      simp only
      split
      · exact .handleHeartbeat sender term
      · exact hnil
    | prepareLeader pn since =>
      simp only
      split
      · rename_i hm
        exact .handlePrepareLeader rfl hm hc
      · exact hnil
    | promiseLeader pn accepted =>
      simp only
      split
      · exact .handlePromiseLeader h hn rfl hfree ho
      · exact hnil
    | nackLeader pn hp =>
      simp only
      split
      · exact .handleNackLeader hp
      · exact hnil

theorem handle_source (env : PaxosEnv) (input : Input V) (h : Tidy p) {source : ℕ → V → Prop}
    (hs : ∀ slot v, Requested env p input slot v → source slot v) :
    Moves (.only source) env input p (p.handle env input).1 (p.handle env input).2 :=
  handle_moves (.only source) env input h
    ⟨False.elim,False.elim,False.elim,False.elim,False.elim,fun h => h.elim False.elim False.elim,hs,
      Nat.zero_le _⟩

theorem handle_lax (env : PaxosEnv) (input : Input V) (h : Tidy p) :
    Moves .lax env input p (p.handle env input).1 (p.handle env input).2 :=
  handle_source env input h fun _ _ _ => trivial

/-- What is replayed in a call was recovered in it. -/
theorem handle_since (env : PaxosEnv) (input : Input V) (h : Tidy p) :
    Moves (.since p.record.elections.length) env input p (p.handle env input).1
      (p.handle env input).2 :=
  handle_moves (.since p.record.elections.length) env input h
    ⟨False.elim,False.elim,False.elim,False.elim,False.elim,fun h => h.elim False.elim False.elim,
      fun _ _ _ => trivial,le_rfl⟩

end Paxos
end Daccord
