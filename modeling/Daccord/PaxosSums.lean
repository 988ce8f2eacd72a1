import Daccord.PaxosHandlers
import Daccord.PaxosMachine

/-! Sums of a Paxos node that fit in a `u64`. With room for the sums that a call may
make, counted in the state before it, the build computes what the call does on natural
numbers. -/
namespace Daccord
namespace Paxos

variable {V : Type}

section
variable {b : ℕ} {p q : PaxosProtocol V} {slot : ℕ} {inst : PaxosInstance V}
  {env : PaxosEnv}

structure Touches (slot : ℕ) (p q : PaxosProtocol V) : Prop where
  next : q.nextSlot ≤ max p.nextSlot (slot + 1)
  slots : ∀ {s}, s ∈ q.instances → s = slot ∨ s ∈ p.instances
  elsewhere : ∀ {s}, s ≠ slot → q.instanceAt s = p.instanceAt s
  election : q.election = p.election
  quorumSize : q.quorumSize = p.quorumSize
  forwarded : q.forwardedProposals.Sublist p.forwardedProposals

theorem Touches.refl (slot : ℕ) (p : PaxosProtocol V) : Touches slot p p :=
  ⟨le_max_left _ _,Or.inr,fun _ => rfl,rfl,rfl,.refl _⟩

theorem Touches.trans {r : PaxosProtocol V} (h : Touches slot p q) (h' : Touches slot q r) :
    Touches slot p r :=
  ⟨h'.next.trans (max_le h.next (le_max_right _ _)),fun hs => (h'.slots hs).elim Or.inl h.slots,
    fun hne => (h'.elsewhere hne).trans (h.elsewhere hne),h'.election.trans h.election,
    h'.quorumSize.trans h.quorumSize,h'.forwarded.trans h.forwarded⟩

theorem Touches.putInstance (p : PaxosProtocol V) (slot : ℕ) (inst : PaxosInstance V) :
    Touches slot p (p.putInstance slot inst) :=
  ⟨le_max_left _ _,(AList.mem_insert _).mp,fun hne => p.instanceAt_putInstance_ne hne inst,rfl,rfl,
    .refl _⟩

theorem Touches.handlePrepare (p : PaxosProtocol V) (sender : NodeId) (slot : ℕ)
    (pn : ProposalNumber) : Touches slot p (p.handlePrepare sender slot pn).1 := by
  unfold PaxosProtocol.handlePrepare
  split
  · exact .refl slot p
  · simp only
    split
    · exact .putInstance p slot _
    · split
      · exact .putInstance p slot _
      · exact .putInstance p slot _

theorem Touches.handleAccept (p : PaxosProtocol V) (sender : NodeId) (slot : ℕ)
    (pn : ProposalNumber) (value : V) :
    Touches slot p (p.handleAccept sender slot pn value).1 := by
  have hvote : Touches slot p
      ((p.putInstance slot ((p.instanceAt slot).vote pn value)).noteVote slot pn value) :=
    { Touches.putInstance p slot ((p.instanceAt slot).vote pn value) with }
  unfold PaxosProtocol.handleAccept
  split
  · exact .refl slot p
  · simp only
    split
    · exact hvote
    · split
      · exact hvote
      · exact .putInstance p slot _

theorem Touches.handleNack (p : PaxosProtocol V) (env : PaxosEnv) (slot : ℕ)
    (hp : ProposalNumber) : Touches slot p (p.handleNack env slot hp) := by
  have hrest : ∀ q : PaxosProtocol V, Touches slot p q → Touches slot p
      (if q.multi then
        if (q.updateHighestSeenRound hp.round).isLeader then
          (q.updateHighestSeenRound hp.round).stepDown env none
        else q.updateHighestSeenRound hp.round
      else q) := by
    intro q hq
    split_ifs
    · exact { hq with }
    · exact { hq with }
    · exact hq
  unfold PaxosProtocol.handleNack
  refine hrest _ ?_
  split
  · exact .refl slot p
  · exact .putInstance p slot _

section
variable [DecidableEq V]

theorem Touches.conclude (p : PaxosProtocol V) (env : PaxosEnv) (slot : ℕ) (value : V) :
    Touches slot p (p.conclude env slot value).1 := by
  obtain ⟨_,hsub,heq⟩ := p.conclude_frame env slot value
  rw [heq]
  refine ⟨?_,fun hs => Or.inr (AList.mem_erase.mp hs).2,
    fun hne => p.instanceAt_removeInstance_ne hne,rfl,rfl,hsub⟩
  simp only
  split
  · exact le_max_right _ _
  · exact le_max_left _ _

theorem Touches.selfAccept (p : PaxosProtocol V) (env : PaxosEnv) (slot : ℕ)
    (inst : PaxosInstance V) (pn : ProposalNumber) (value : V) :
    Touches slot p (p.selfAccept env slot inst pn value).1 := by
  have hvote : Touches slot p
      ((p.putInstance slot (inst.selfVote p.nodeId pn value)).noteVote slot pn value) :=
    { Touches.putInstance p slot (inst.selfVote p.nodeId pn value) with }
  unfold PaxosProtocol.selfAccept
  simp only
  split
  · exact hvote.trans (.conclude _ env slot value)
  · exact hvote

theorem Touches.startPhase2 (p : PaxosProtocol V) (env : PaxosEnv) (slot : ℕ) :
    Touches slot p (p.startPhase2 env slot).1 := by
  have hsame := Touches.refl slot p
  unfold PaxosProtocol.startPhase2
  split
  · exact { hsame with }
  · split
    · exact { hsame with }
    · simp only
      split
      · exact .selfAccept p env slot _ _ _
      · split
        · exact .conclude p env slot _
        · exact hsame

theorem Touches.handlePromise (p : PaxosProtocol V) (env : PaxosEnv) (sender : NodeId) (slot : ℕ)
    (pn : ProposalNumber) (accepted : Option (ProposalNumber × V)) :
    Touches slot p (p.handlePromise env sender slot pn accepted).1 := by
  unfold PaxosProtocol.handlePromise
  split
  · exact .refl slot p
  · split
    · exact .refl slot p
    · rename_i inst _
      have hput := Touches.putInstance p slot (inst.recordPromise sender accepted)
      split
      · simp only
        split
        · exact hput.trans (.startPhase2 _ env slot)
        · exact hput
      · exact .refl slot p

theorem Touches.handleAccepted (p : PaxosProtocol V) (env : PaxosEnv) (sender : NodeId)
    (slot : ℕ) (pn : ProposalNumber) (value : V) :
    Touches slot p (p.handleAccepted env sender slot pn value).1 := by
  unfold PaxosProtocol.handleAccepted
  split
  · exact .refl slot p
  · split
    · exact .refl slot p
    · have hput : ∀ inst, Touches slot p (p.putInstance slot inst) := .putInstance p slot
      split
      · simp only
        split
        · split
          · exact { hput _ with }
          · exact (hput _).trans (.conclude _ env slot _)
        · exact hput _
      · exact .refl slot p

theorem Touches.handleDecide (p : PaxosProtocol V) (env : PaxosEnv) (sender : NodeId) (slot : ℕ)
    (value : V) : Touches slot p (p.handleDecide env sender slot value) := by
  have htouch : Touches slot p (if p.multi then p.touchLeader env sender else p) := by
    have hsame := Touches.refl slot p
    unfold PaxosProtocol.touchLeader
    split_ifs
    · split
      · split
        · exact { hsame with }
        · exact hsame
      · exact hsame
    · exact hsame
  unfold PaxosProtocol.handleDecide
  generalize (if p.multi then p.touchLeader env sender else p) = q at htouch
  simp only
  split
  · exact htouch
  · have hlost : Touches slot p (q.lose (q.outvoted slot value)) := { htouch with }
    exact hlost.trans (.conclude _ env slot value)

theorem Touches.replayAccept (p : PaxosProtocol V) (env : PaxosEnv) (pn : ProposalNumber)
    (r : ℕ × V) : Touches r.1 p (p.replayAccept env pn r).1 := by
  unfold PaxosProtocol.replayAccept
  simp only
  split
  · exact .refl r.1 p
  · exact .selfAccept p env r.1 _ _ _

theorem Touches.retryProposal (p : PaxosProtocol V) (env : PaxosEnv) (slot : ℕ) :
    Touches slot p (p.retryProposal env slot).1 := by
  unfold PaxosProtocol.retryProposal
  split
  · exact .refl slot p
  · rename_i inst _
    have hput := Touches.putInstance p slot (p.retried env slot inst)
    split
    · simp only
      split
      · exact hput.trans (.startPhase2 _ env slot)
      · exact hput
    · exact .refl slot p

theorem Touches.innerPropose (p : PaxosProtocol V) (env : PaxosEnv) (value : V) :
    Touches p.nextSlot p (p.innerPropose env value).1 := by
  have htake : Touches p.nextSlot p { p with nextSlot := p.nextSlot + 1 } :=
    ⟨le_max_right _ _,Or.inr,fun _ => rfl,rfl,rfl,.refl _⟩
  have hfull : Touches p.nextSlot p (p.proposeFullPaxos env value).1 := by
    have hput := htake.trans (.putInstance _ p.nextSlot
      (p.prepared env p.nextSlot (.mk 1 p.nodeId) value))
    unfold PaxosProtocol.proposeFullPaxos
    simp only
    split
    · exact hput.trans (.startPhase2 _ env p.nextSlot)
    · exact hput
  unfold PaxosProtocol.innerPropose
  split
  · split
    · exact htake.trans (.selfAccept _ env p.nextSlot _ _ _)
    · exact hfull
  · exact hfull

namespace Machine
variable {k : Profile}

theorem decide_eq (h : slot + 1 < 2 ^ 64) (value : V) :
    decide k env p slot value = some (p.decide env slot value) := by
  have hnext : (p.decide env slot value).nextSlot =
      if p.nextSlot ≤ slot then slot + 1 else p.nextSlot := by
    unfold PaxosProtocol.decide
    simp only
    split <;> rfl
  have hsum : (if p.nextSlot ≤ slot then k.succ slot else some p.nextSlot) =
      some (p.decide env slot value).nextSlot := by
    rw [hnext]
    split
    · exact k.succ_of_lt h
    · rfl
  unfold decide
  rw [hsum]
  rfl

theorem conclude_eq (h : slot + 1 < 2 ^ 64) (value : V) :
    conclude k env p slot value = some (p.conclude env slot value) := by
  unfold conclude
  rw [decide_eq h]
  rfl

theorem selfAccept_eq (h : slot + 1 < 2 ^ 64) (inst : PaxosInstance V) (pn : ProposalNumber)
    (value : V) : selfAccept k env p slot inst pn value =
      some (p.selfAccept env slot inst pn value) := by
  unfold selfAccept PaxosProtocol.selfAccept
  simp only [conclude_eq h]
  split <;> rfl

theorem startPhase2_eq (h : slot + 1 < 2 ^ 64) :
    startPhase2 k env p slot = some (p.startPhase2 env slot) := by
  unfold startPhase2 PaxosProtocol.startPhase2
  cases p.instances.lookup slot with
  | none => rfl
  | some inst =>
    simp only
    cases inst.phase2Value with
    | none => rfl
    | some value =>
      simp only [selfAccept_eq h,conclude_eq h]
      split
      · rfl
      · split <;> rfl

theorem handlePromise_eq (h : slot + 1 < 2 ^ 64) (sender : NodeId) (pn : ProposalNumber)
    (accepted : Option (ProposalNumber × V)) : handlePromise k env p sender slot pn accepted =
      some (p.handlePromise env sender slot pn accepted) := by
  unfold handlePromise PaxosProtocol.handlePromise
  simp only [startPhase2_eq h]
  split
  · rfl
  · cases p.instances.lookup slot with
    | none => rfl
    | some inst =>
      simp only
      split
      · split <;> rfl
      · rfl

theorem handleAccepted_eq (h : slot + 1 < 2 ^ 64) (sender : NodeId) (pn : ProposalNumber)
    (value : V) : handleAccepted k env p sender slot pn value =
      some (p.handleAccepted env sender slot pn value) := by
  unfold handleAccepted PaxosProtocol.handleAccepted
  simp only [conclude_eq h]
  split
  · rfl
  · cases p.instances.lookup slot with
    | none => rfl
    | some inst =>
      simp only
      split
      · split
        · cases inst.accepted <;> rfl
        · rfl
      · rfl

theorem handleDecide_eq (h : slot + 1 < 2 ^ 64) (sender : NodeId) (value : V) :
    handleDecide k env p sender slot value = some (p.handleDecide env sender slot value,[]) := by
  unfold handleDecide PaxosProtocol.handleDecide
  generalize (if p.multi then p.touchLeader env sender else p) = q
  simp only [decide_eq h]
  split <;> rfl

theorem innerPropose_eq (h : p.nextSlot + 1 < 2 ^ 64) (value : V) :
    innerPropose k env p value = some (p.innerPropose env value) := by
  have hfull : proposeFullPaxos k env p value = some (p.proposeFullPaxos env value) := by
    unfold proposeFullPaxos PaxosProtocol.proposeFullPaxos
    simp only [k.succ_of_lt h,startPhase2_eq h,Option.bind_eq_bind,Option.bind_some]
    split <;> rfl
  have hfast : ∀ term, proposeFastPath k env p value term =
      some (p.proposeFastPath env value term) := by
    intro term
    unfold proposeFastPath PaxosProtocol.proposeFastPath
    simp only [k.succ_of_lt h,selfAccept_eq h,Option.bind_eq_bind,Option.bind_some]
  unfold innerPropose PaxosProtocol.innerPropose
  split
  · cases p.leaderState with
    | leader term => exact hfast term
    | follower => exact hfull
    | candidate => exact hfull
  · exact hfull

/-- With room for the new round the build makes the retry. -/
theorem retryProposal_eq (h : slot + 1 < 2 ^ 64)
    (hround : (p.retryNumber (p.instanceAt slot)).round < 2 ^ 64) :
    retryProposal k env slot p = some (p.retryProposal env slot) := by
  unfold retryProposal PaxosProtocol.retryProposal
  cases hl : p.instances.lookup slot with
  | none => rfl
  | some inst =>
    rw [PaxosProtocol.instanceAt_of_lookup hl] at hround
    have hsucc := k.succ_of_lt hround
    simp only [hsucc]
    change (if inst.decided = false ∧ inst.isProposer then
      let q := p.putInstance slot (p.retried env slot inst)
      if q.quorumSize ≤ (p.retried env slot inst).promisesReceived.card then
        startPhase2 k env q slot
      else some (q,[⟨.broadcast,.prepare slot (p.retried env slot inst).proposalNumber⟩])
      else some (p,[])) = _
    simp only [startPhase2_eq h]
    split
    · split <;> rfl
    · rfl

omit [DecidableEq V] in
theorem andThen_eq {r : Reply V} {f : PaxosProtocol V → Option (Reply V)}
    {g : PaxosProtocol V → Reply V} (h : f r.1 = some (g r.1)) :
    andThen r f = some (r.andThen g) := by
  unfold andThen
  rw [h]
  rfl

omit [DecidableEq V] in
theorem runAll_eq {A : Type} {f : A → PaxosProtocol V → Option (Reply V)}
    {g : A → PaxosProtocol V → Reply V} (inv : List A → PaxosProtocol V → Prop)
    (hstep : ∀ a rest q, inv (a :: rest) q → f a q = some (g a q) ∧ inv rest (g a q).1)
    {l : List A} (h : inv l p) : runAll f p l = some (Paxos.runAll g p l) := by
  induction l generalizing p with
  | nil => rfl
  | cons a rest ih =>
    obtain ⟨hfirst,hinv⟩ := hstep a rest p h
    unfold runAll
    simp only [hfirst,Option.bind_eq_bind,Option.bind_some]
    exact andThen_eq (f := fun q => runAll f q rest) (g := fun q => Paxos.runAll g q rest) (ih hinv)

omit [DecidableEq V] in
theorem advancePast_eq {next : ℕ} {last : Option ℕ} (h : ∀ l ∈ last, l + 1 < 2 ^ 64) :
    advancePast k next last = some (PaxosProtocol.advancePast next last) := by
  cases last with
  | none => rfl
  | some l =>
    simp only [advancePast,k.succ_of_lt (h l rfl)]
    rfl

end Machine

omit [DecidableEq V] in
/-- The slots that an election recovers were reported to it. -/
theorem PaxosProtocol.reported_of_recovered {reports : List (ℕ × ProposalNumber × V)}
    (hs : slot ∈ (p.highestPerSlot reports).keys) :
    slot ∉ p.decidedSlots ∧ ∃ r, (slot,r) ∈ reports := by
  obtain ⟨r,hr⟩ := Option.isSome_iff_exists.mp (AList.lookup_isSome.mpr (AList.mem_keys.mpr hs))
  obtain ⟨hd,hmem⟩ := (p.highestPerSlot_highest reports).reported hr
  exact ⟨hd,r,hmem⟩

omit [DecidableEq V] in
theorem PaxosProtocol.reported_of_mem {reports : List (ℕ × ProposalNumber × V)} {r : ℕ × V}
    (hr : r ∈ PaxosProtocol.recoveredSlots env (p.highestPerSlot reports)) :
    r.1 ∈ (p.highestPerSlot reports).keys := by
  obtain ⟨_,hb⟩ := PaxosProtocol.mem_recoveredSlots.mp hr
  exact AList.mem_keys.mp (mem_of_lookup hb)

omit [DecidableEq V] in
theorem PaxosProtocol.mem_instances_of_collected {since : ℕ} {r : ℕ × ProposalNumber × V}
    (h : r ∈ p.collectAcceptedForPromise env since) : r.1 ∈ p.instances := by
  obtain ⟨slot,hslot,hr⟩ := List.mem_filterMap.mp h
  have hmem : slot ∈ p.instances := AList.mem_keys.mpr ((List.mem_insertionSort _).mp hslot)
  split at hr
  · cases hr
  · split at hr
    · cases hr
    · obtain ⟨_,_,rfl⟩ := Option.map_eq_some_iff.mp hr
      exact hmem

/-- The slots that the node may step over, `next_slot` among them, are below `b`. -/
structure Spans (b : ℕ) (p : PaxosProtocol V) : Prop where
  next : p.nextSlot ≤ b
  slots : ∀ {slot}, slot ∈ p.instances → slot < b
  reports : ∀ {e}, p.election = some e → ∀ r ∈ e.accepted, r.1 < b

omit [DecidableEq V] in
theorem Spans.new (b : ℕ) (multi : Bool) (env : PaxosEnv) (id : NodeId) (n : ℕ)
    (config : PaxosConfig) : Spans b (PaxosProtocol.new multi env id n config : PaxosProtocol V) :=
  ⟨Nat.zero_le _,nofun,nofun⟩

omit [DecidableEq V] in
theorem Spans.touches (h : Spans b p) (ht : Touches slot p q) (hs : slot < b) : Spans b q :=
  ⟨ht.next.trans (max_le h.next hs),fun hmem => (ht.slots hmem).elim (fun heq => heq ▸ hs) h.slots,
    fun he => h.reports (ht.election.symm.trans he)⟩

omit [DecidableEq V] in
theorem PaxosProtocol.advancePast_le {next : ℕ} {last : Option ℕ} (hn : next ≤ b)
    (h : ∀ l ∈ last, l < b) : advancePast next last ≤ b := by
  cases last with
  | none => exact hn
  | some l =>
    have hl := h l rfl
    simp only [advancePast]
    split <;> omega

omit [DecidableEq V] in
theorem Spans.takeOffice (h : Spans b p) {e : ElectionState V} (he : p.election = some e) :
    Spans b (p.takeOffice env e) := by
  refine ⟨?_,h.slots,nofun⟩
  refine PaxosProtocol.advancePast_le (PaxosProtocol.advancePast_le h.next fun l hl => ?_)
    fun l hl => h.slots (AList.mem_keys.mpr (List.max?_mem hl))
  obtain ⟨_,r,hr⟩ := PaxosProtocol.reported_of_recovered (List.max?_mem hl)
  exact h.reports he _ hr

/-- A finished election steps over the slots it knows of and works on those it has
recovered. -/
theorem Spans.completeLeaderElection (h : Spans b p) (env : PaxosEnv) :
    Spans b (p.completeLeaderElection env).1 ∧
      (p.completeLeaderElection env).1.forwardedProposals.Sublist p.forwardedProposals := by
  unfold PaxosProtocol.completeLeaderElection
  split
  · exact ⟨h,.refl _⟩
  · rename_i e he
    obtain ⟨hspans,hsub,_⟩ := runAll_rest
      (f := PaxosProtocol.replayAccept env e.proposalNumber)
      (fun (rest : List (ℕ × V)) q => Spans b q ∧
        q.forwardedProposals.Sublist p.forwardedProposals ∧
        ∀ r ∈ rest, r ∈ PaxosProtocol.recoveredSlots env (p.highestPerSlot e.accepted))
      (fun r rest q hq => by
        obtain ⟨hq,hsub,hrest⟩ := hq
        obtain ⟨_,x,hx⟩ := PaxosProtocol.reported_of_recovered
          (PaxosProtocol.reported_of_mem (hrest r (.head _)))
        have ht := Touches.replayAccept q env e.proposalNumber r
        exact ⟨hq.touches ht (h.reports he _ hx),ht.forwarded.trans hsub,
          fun r hr => hrest r (.tail _ hr)⟩)
      ⟨h.takeOffice he,.refl _,fun _ hr => hr⟩
    exact ⟨hspans,hsub⟩

namespace Machine
variable {k : Profile}

omit [DecidableEq V] in
theorem takeOffice_eq {e : ElectionState V} (hs : ∀ slot ∈ p.instances, slot + 1 < 2 ^ 64)
    (hr : ∀ r ∈ e.accepted, r.1 + 1 < 2 ^ 64) :
    takeOffice k env p e = some (p.takeOffice env e) := by
  have hrecovered : ∀ l ∈ (p.highestPerSlot e.accepted).keys.max?, l + 1 < 2 ^ 64 := by
    intro l hl
    obtain ⟨_,r,hmem⟩ := PaxosProtocol.reported_of_recovered (List.max?_mem hl)
    exact hr _ hmem
  have hlocal : ∀ l ∈ p.instances.keys.max?, l + 1 < 2 ^ 64 :=
    fun l hl => hs l (AList.mem_keys.mpr (List.max?_mem hl))
  unfold takeOffice
  simp only [advancePast_eq hrecovered,advancePast_eq hlocal,Option.bind_eq_bind,Option.bind_some]
  rfl

theorem completeLeaderElection_eq (hs : ∀ slot ∈ p.instances, slot + 1 < 2 ^ 64)
    (hr : ∀ e, p.election = some e → ∀ r ∈ e.accepted, r.1 + 1 < 2 ^ 64) :
    completeLeaderElection k env p = some (p.completeLeaderElection env) := by
  unfold completeLeaderElection PaxosProtocol.completeLeaderElection
  cases he : p.election with
  | none => rfl
  | some e =>
    simp only [takeOffice_eq hs (hr e he),Option.bind_eq_bind,Option.bind_some]
    refine runAll_eq (fun rest _ => ∀ r ∈ rest, r ∈ PaxosProtocol.recoveredSlots env
      (p.highestPerSlot e.accepted)) (fun r rest q hrest => ?_) fun _ hmem => hmem
    obtain ⟨_,x,hx⟩ := PaxosProtocol.reported_of_recovered
      (PaxosProtocol.reported_of_mem (hrest r (.head _)))
    refine ⟨?_,fun r hmem => hrest r (.tail _ hmem)⟩
    unfold replayAccept PaxosProtocol.replayAccept
    simp only [selfAccept_eq (hr e he _ hx)]
    split <;> rfl

theorem handlePromiseLeader_eq {accepted : List (ℕ × ProposalNumber × V)}
    (h : ∀ e ∈ p.election, (∀ slot ∈ p.instances.keys, slot + 1 < 2 ^ 64) ∧
      ∀ r ∈ e.accepted ++ accepted, r.1 + 1 < 2 ^ 64) (sender : NodeId) (pn : ProposalNumber) :
    handlePromiseLeader k env p sender pn accepted =
      some (p.handlePromiseLeader env sender pn accepted) := by
  unfold handlePromiseLeader PaxosProtocol.handlePromiseLeader
  cases he : p.election with
  | none => rfl
  | some e =>
    obtain ⟨hs,hr⟩ := h e he
    simp only
    split
    · split
      · refine completeLeaderElection_eq (fun slot hmem => hs slot (AList.mem_keys.mp hmem)) ?_
        rintro e' ⟨⟩
        exact hr
      · rfl
    · rfl

end Machine

omit [DecidableEq V] in
theorem Spans.campaign (hn : p.nextSlot ≤ b) (hs : ∀ {slot}, slot ∈ p.instances → slot < b) :
    Spans b (p.campaign env) := by
  refine ⟨hn,hs,?_⟩
  rintro e ⟨⟩ r hr
  exact hs (PaxosProtocol.mem_instances_of_collected hr)

/-- The node has room for a tick: for the slots of the forwarded proposals that have
timed out, also behind an election that a node without others wins at once. -/
def PaxosProtocol.RoomToTick (env : PaxosEnv) (p : PaxosProtocol V) : Prop :=
  p.nextSlot + (p.timedOut env).length < 2 ^ 64 ∧
    (p.quorumSize ≤ 1 → ∀ slot ∈ p.instances.keys, slot + 1 + (p.timedOut env).length < 2 ^ 64)

instance (env : PaxosEnv) (p : PaxosProtocol V) : Decidable (p.RoomToTick env) :=
  inferInstanceAs (Decidable (_ ∧ (_ → _)))

omit [DecidableEq V] in
theorem PaxosProtocol.RoomToTick.of (h : p.RoomToTick env) (hn : q.nextSlot = p.nextSlot)
    (hs : ∀ {slot}, slot ∈ q.instances → slot ∈ p.instances) (hq : q.quorumSize = p.quorumSize)
    (hf : q.forwardedProposals.Sublist p.forwardedProposals) : q.RoomToTick env := by
  have hle := PaxosProtocol.timedOut_length_le hf env
  refine ⟨by rw [hn]; exact (Nat.add_le_add_left hle _).trans_lt h.1,fun h1 slot hmem => ?_⟩
  have hlt := h.2 (hq ▸ h1) slot (AList.mem_keys.mp (hs (AList.mem_keys.mpr hmem)))
  omega

theorem PaxosProtocol.RoomToTick.startElection (h : p.RoomToTick env) :
    (p.startElection env).1.RoomToTick env := by
  unfold PaxosProtocol.startElection
  simp only
  split
  · rename_i hone
    have hcard : p.quorumSize ≤ 1 := hone
    have hnext := h.1
    have hspans : Spans (2 ^ 64 - 1 - (p.timedOut env).length) (p.campaign env) := by
      refine .campaign (by omega) fun {slot} hs => ?_
      have hlt := h.2 hcard slot (AList.mem_keys.mp hs)
      omega
    obtain ⟨hafter,hsub⟩ := hspans.completeLeaderElection env
    have hle := PaxosProtocol.timedOut_length_le (p := p) hsub env
    have hend := hafter.next
    refine ⟨by omega,fun _ slot hs => ?_⟩
    have hlt := hafter.slots (AList.mem_keys.mpr hs)
    omega
  · exact h.of rfl (fun hs => hs) rfl (.refl _)

omit [DecidableEq V] in
theorem PaxosProtocol.RoomToTick.checkElectionTimeout (h : p.RoomToTick env) :
    (p.checkElectionTimeout env).RoomToTick env ∧
      (p.checkElectionTimeout env).highestSeenRound = p.highestSeenRound := by
  unfold PaxosProtocol.checkElectionTimeout
  split
  · exact ⟨h,rfl⟩
  · split
    · exact ⟨h.of rfl (fun hs => hs) rfl (.refl _),rfl⟩
    · exact ⟨h,rfl⟩

theorem PaxosProtocol.RoomToTick.electionDue (h : p.RoomToTick env) :
    (if (p.checkElectionTimeout env).checkLeaderTimeout env then
      (p.checkElectionTimeout env).startElection env
      else (p.checkElectionTimeout env,[])).1.RoomToTick env := by
  have hover := h.checkElectionTimeout.1
  generalize p.checkElectionTimeout env = q at hover
  split
  · exact hover.startElection
  · exact hover

theorem PaxosProtocol.RoomToTick.retryProposal (h : p.RoomToTick env) (ht : Tidy p) (slot : ℕ) :
    (p.retryProposal env slot).1.RoomToTick env := by
  have hb := Beyond.retryProposal ht env slot
  by_cases hmem : slot ∈ p.instances
  · refine h.of hb.nextSlot (fun hs => ?_) hb.quorumSize hb.forwardedProposals
    rcases (Touches.retryProposal p env slot).slots hs with rfl | hs
    · exact hmem
    · exact hs
  · unfold PaxosProtocol.retryProposal
    rw [AList.lookup_eq_none.mpr hmem]
    exact h

theorem PaxosProtocol.RoomToTick.retries (h : p.RoomToTick env) (ht : Tidy p) (l : List ℕ) :
    (runAll (PaxosProtocol.retryProposal env) p l).1.RoomToTick env ∧
      Beyond 0 p (runAll (PaxosProtocol.retryProposal env) p l).1 := by
  refine (runAll_invariant (fun q => Tidy q ∧ q.RoomToTick env ∧ Beyond 0 p q) ?_
    ⟨ht,h,.refl p⟩ l).2
  rintro slot q ⟨ht,hroom,hb⟩
  have hm : Moves .lax env .tick q (q.retryProposal env slot).1 (q.retryProposal env slot).2 :=
    .retryProposal slot nofun
  exact ⟨hm.tidy ht,hroom.retryProposal ht slot,hb.trans (.retryProposal ht env slot)⟩

omit [DecidableEq V] in
theorem PaxosProtocol.RoomToTick.heartbeatDue (h : p.RoomToTick env) :
    (if p.shouldSendHeartbeat env then p.makeHeartbeat env else (p,[])).1.RoomToTick env ∧
      (if p.shouldSendHeartbeat env then p.makeHeartbeat env else (p,[])).1.highestSeenRound =
        p.highestSeenRound := by
  unfold PaxosProtocol.makeHeartbeat
  split
  · split
    · exact ⟨h.of rfl (fun hs => hs) rfl (.refl _),rfl⟩
    · exact ⟨h,rfl⟩
  · exact ⟨h,rfl⟩

omit [DecidableEq V] in
theorem PaxosProtocol.isProposer_of_retryable {n : ℕ}
    (h : PaxosProtocol.retryable env n inst = true) : inst.isProposer = true := by
  unfold PaxosProtocol.retryable at h
  split at h
  · cases h
  · rename_i hno
    rw [Bool.or_eq_true,Bool.not_eq_true',not_or,Bool.not_eq_false] at hno
    exact hno.2

namespace Machine
variable {k : Profile}

/-- No slot is retried twice, so every retry finds the rounds from before the tick; the
slots are the node's own and need no step of `next_slot`. -/
theorem retries_eq (ht : Tidy p) (hn : p.nextSlot < 2 ^ 64)
    (hr : ∀ slot ∈ p.instances.keys, (p.retryNumber (p.instanceAt slot)).round < 2 ^ 64) :
    runAll (retryProposal k env) p (p.getRetryableProposals env) =
      some (Paxos.runAll (PaxosProtocol.retryProposal env) p (p.getRetryableProposals env)) := by
  have hnodup : (p.getRetryableProposals env).Nodup :=
    ((List.perm_insertionSort _ _).nodup_iff.mpr p.instances.keys_nodup).filter _
  have hown : ∀ slot ∈ p.getRetryableProposals env, slot + 1 < 2 ^ 64 ∧
      (p.retryNumber (p.instanceAt slot)).round < 2 ^ 64 := by
    intro slot hs
    obtain ⟨hkey,hdue⟩ := List.mem_filter.mp hs
    have hlt := ht.proposer (PaxosProtocol.isProposer_of_retryable hdue)
    exact ⟨by omega,hr slot ((List.mem_insertionSort _).mp hkey)⟩
  refine runAll_eq (fun rest q => rest.Nodup ∧ ∀ slot ∈ rest, (slot + 1 < 2 ^ 64 ∧
    (p.retryNumber (p.instanceAt slot)).round < 2 ^ 64) ∧ q.instanceAt slot = p.instanceAt slot)
    ?_ ⟨hnodup,fun slot hs => ⟨hown slot hs,rfl⟩⟩
  rintro slot rest q ⟨hnd,hrest⟩
  obtain ⟨hnotin,hnd⟩ := List.nodup_cons.mp hnd
  obtain ⟨⟨hslot,hround⟩,hsame⟩ := hrest slot (.head _)
  refine ⟨retryProposal_eq hslot (hsame ▸ hround),hnd,fun slot' hmem => ?_⟩
  have hne : slot' ≠ slot := fun heq => hnotin (heq ▸ hmem)
  obtain ⟨hfits,hsame'⟩ := hrest slot' (.tail _ hmem)
  exact ⟨hfits,((Touches.retryProposal q env slot).elsewhere hne).trans hsame'⟩

theorem startElection_eq (hseen : p.highestSeenRound + 1 < 2 ^ 64) (h : p.RoomToTick env) :
    startElection k env p = some (p.startElection env) := by
  have heq : startElection k env p =
      if (p.campaign env).quorumSize ≤ (p.candidacy env).promisesReceived.card then
        completeLeaderElection k env (p.campaign env)
      else some (p.campaign env,[⟨.broadcast,.prepareLeader (p.candidacy env).proposalNumber
        (p.candidacy env).sinceSlot⟩]) := by
    unfold startElection
    rw [k.succ_of_lt hseen]
    rfl
  rw [heq]
  unfold PaxosProtocol.startElection
  simp only
  split
  · rename_i hone
    have hs : ∀ slot ∈ p.instances, slot + 1 < 2 ^ 64 := by
      intro slot hmem
      have hlt := h.2 hone slot (AList.mem_keys.mp hmem)
      omega
    refine completeLeaderElection_eq hs ?_
    rintro e ⟨⟩ r hmem
    exact hs _ (PaxosProtocol.mem_instances_of_collected hmem)
  · rfl

theorem handleForwardedProposalTimeouts_eq
    (h : p.nextSlot + (p.timedOut env).length < 2 ^ 64) :
    handleForwardedProposalTimeouts k env p =
      some (p.handleForwardedProposalTimeouts env) := by
  refine runAll_eq (fun (rest : List V) q => q.nextSlot + rest.length < 2 ^ 64)
    (fun value rest q hq => ?_) h
  rw [List.length_cons] at hq
  refine ⟨innerPropose_eq (by omega) value,?_⟩
  rw [(Beyond.innerPropose q env value).nextSlot]
  omega

theorem onTickMulti_eq (h : p.RoomToTick env) (hseen : p.highestSeenRound + 1 < 2 ^ 64) :
    onTickMulti k env p = some (p.onTickMulti env) := by
  have hbeat := h.heartbeatDue
  unfold onTickMulti PaxosProtocol.onTickMulti
  generalize (if p.shouldSendHeartbeat env then p.makeHeartbeat env else (p,[])) = r at hbeat
  obtain ⟨hover,hsame⟩ := hbeat.1.checkElectionTimeout
  rw [hbeat.2] at hsame
  have helect : andThen r (fun p =>
        let p := p.checkElectionTimeout env
        if p.checkLeaderTimeout env then startElection k env p else some (p,[])) =
      some (r.andThen fun p =>
        let p := p.checkElectionTimeout env
        if p.checkLeaderTimeout env then p.startElection env else (p,[])) := by
    refine andThen_eq ?_
    simp only
    split
    · exact startElection_eq (hsame ▸ hseen) hover
    · rfl
  have hroom : (r.andThen fun p =>
        let p := p.checkElectionTimeout env
        if p.checkLeaderTimeout env then p.startElection env else (p,[])).1.RoomToTick env :=
    hbeat.1.electionDue
  simp only [helect,Option.bind_eq_bind,Option.bind_some]
  exact andThen_eq (handleForwardedProposalTimeouts_eq hroom.1)

theorem onTick_eq (ht : Tidy p) (h : p.RoomToTick env)
    (hseen : p.highestSeenRound + 1 < 2 ^ 64)
    (hr : ∀ slot ∈ p.instances.keys, (p.retryNumber (p.instanceAt slot)).round < 2 ^ 64) :
    onTick k env p = some (p.onTick env) := by
  have hn : p.nextSlot < 2 ^ 64 := (Nat.le_add_right _ _).trans_lt h.1
  obtain ⟨hroom,hb⟩ := h.retries ht (p.getRetryableProposals env)
  unfold onTick PaxosProtocol.onTick
  simp only [retries_eq ht hn hr,Option.bind_eq_bind,Option.bind_some]
  generalize Paxos.runAll (PaxosProtocol.retryProposal env) p (p.getRetryableProposals env) = r
    at hroom hb
  have hsent : (r.1.getDecisionRebroadcasts env).1.RoomToTick env :=
    hroom.of rfl (fun hs => hs) rfl (.refl _)
  have hround : (r.1.getDecisionRebroadcasts env).1.highestSeenRound + 1 < 2 ^ 64 := by
    change r.1.highestSeenRound + 1 < 2 ^ 64
    rw [hb.highestSeenRound]
    exact hseen
  split
  · exact andThen_eq (onTickMulti_eq hsent hround)
  · rfl

end Machine

/-- The sums of a call fit in a `u64`, as far as can be told before it. -/
def Roomy (env : PaxosEnv) (p : PaxosProtocol V) : Input V → Prop
  | .propose _ => ¬ p.forwards → p.nextSlot + 1 < 2 ^ 64
  | .message _ (.forward _) => p.leads → p.nextSlot + 1 < 2 ^ 64
  | .message _ (.promise slot _ _) | .message _ (.accepted slot _ _)
  | .message _ (.decide slot _) => slot + 1 < 2 ^ 64
  | .message _ (.promiseLeader _ accepted) => ∀ e ∈ p.election,
      (∀ slot ∈ p.instances.keys, slot + 1 < 2 ^ 64) ∧
        ∀ r ∈ e.accepted ++ accepted, r.1 + 1 < 2 ^ 64
  | .message .. => True
  | .tick => p.RoomToTick env ∧ p.highestSeenRound + 1 < 2 ^ 64 ∧
      ∀ slot ∈ p.instances.keys, (p.retryNumber (p.instanceAt slot)).round < 2 ^ 64

instance (env : PaxosEnv) (p : PaxosProtocol V) : (input : Input V) → Decidable (Roomy env p input)
  | .propose _ => inferInstanceAs (Decidable (¬ p.forwards → _))
  | .message _ (.forward _) => inferInstanceAs (Decidable (p.leads → _))
  | .message _ (.promise slot ..) | .message _ (.accepted slot ..) | .message _ (.decide slot _) =>
    inferInstanceAs (Decidable (slot + 1 < 2 ^ 64))
  | .message _ (.promiseLeader ..) =>
    inferInstanceAs (Decidable (∀ e ∈ p.election, (∀ slot ∈ p.instances.keys, _) ∧ ∀ r ∈ _, _))
  | .message _ (.prepare ..) | .message _ (.accept ..) | .message _ (.nackPrepare ..)
  | .message _ (.nackAccept ..) | .message _ (.heartbeat ..) | .message _ (.prepareLeader ..)
  | .message _ (.nackLeader ..) => .isTrue trivial
  | .tick => inferInstanceAs (Decidable (p.RoomToTick env ∧ _ ∧ ∀ slot ∈ p.instances.keys, _))

theorem PaxosProtocol.propose_of_not_forwards (h : ¬ p.forwards) (env : PaxosEnv) (value : V) :
    p.propose env value = p.innerPropose env value := by
  unfold PaxosProtocol.propose PaxosProtocol.proposeOrForward
  split
  · rename_i hm
    split
    · rename_i leader hl
      exact if_neg fun hne => h ⟨hm,leader,hl,hne⟩
    · rfl
  · rfl

/-- With room for its sums a build makes the call as it would on natural numbers. -/
theorem Machine.handle_eq {k : Profile} (ht : Tidy p) {input : Input V} (h : Roomy env p input) :
    Machine.handle k env p input = some (p.handle env input) := by
  cases input with
  | propose value =>
    change Machine.propose k env p value = some (p.propose env value)
    unfold Machine.propose PaxosProtocol.propose
    split
    · rename_i hm
      unfold Machine.proposeOrForward PaxosProtocol.proposeOrForward
      cases hl : p.getLeader with
      | none => exact innerPropose_eq (h fun hf => by simp [PaxosProtocol.forwards,hl] at hf) value
      | some leader =>
        simp only
        split
        · rfl
        · rename_i hself
          refine innerPropose_eq (h ?_) value
          rintro ⟨_,x,hx,hne⟩
          cases hl.symm.trans hx
          exact hself hne
    · rename_i hm
      exact innerPropose_eq (h fun hf => hm hf.1) value
  | message sender msg =>
    change Machine.handleMessage k env p sender msg = some (p.handleMessage env sender msg)
    cases msg with
    | promise slot pn accepted => exact handlePromise_eq h sender pn accepted
    | accepted slot pn value => exact handleAccepted_eq h sender pn value
    | decide slot value => exact handleDecide_eq h sender value
    | forward value =>
      unfold Machine.handleMessage PaxosProtocol.handleMessage Machine.handleForward
        PaxosProtocol.handleForward
      simp only
      split
      · rename_i hm
        split
        · rename_i hl
          exact innerPropose_eq (h ⟨hm,hl⟩) value
        · rfl
      · rfl
    | promiseLeader pn accepted =>
      unfold Machine.handleMessage PaxosProtocol.handleMessage
      simp only
      split
      · exact handlePromiseLeader_eq h sender pn
      · rfl
    | _ => rfl
  | tick => exact onTick_eq ht h.1 h.2.1 h.2.2

end

end

end Paxos
end Daccord
