import Daccord.PaxosAgreement
import Daccord.PaxosValues

/-! What becomes of a value that a node is asked to propose, in the build without
`multi-paxos`. Only a `Decide` puts the value of a proposer that has lost its slot
among the lost proposals: a slot the node decides itself, for a value it has
adopted, takes the own value with it. -/
namespace Daccord
namespace Paxos

variable {V : Type} {N : ℕ}

def PaxosProtocol.Proposing (p : PaxosProtocol V) (v : V) : Prop :=
  ∃ slot ∈ p.instances.keys, slot ∉ p.decidedSlots ∧ (p.instanceAt slot).isProposer = true ∧
    (p.instanceAt slot).proposedValue = some v

def PaxosProtocol.Retains (p : PaxosProtocol V) (v : V) : Prop :=
  (∃ slot ∈ p.decidedSlots.keys, p.decidedSlots.lookup slot = some v) ∨ p.Proposing v ∨
    v ∈ p.lostProposals

/-- A quorum of the node's own decides for its own value. -/
def Undisputed (p : PaxosProtocol V) : Input V → Prop
  | .message sender (.promise slot pn accepted) =>
    ∀ inst ∈ p.instances.lookup slot, inst.proposalNumber = pn → inst.isProposer = true →
      p.quorumSize ≤ (insert sender inst.promisesReceived).card →
      p.quorumSize ≤ (insert p.nodeId inst.acceptsReceived).card →
      (inst.recordPromise sender accepted).phase2Value = inst.proposedValue
  | .message sender (.accepted slot pn _) =>
    ∀ inst ∈ p.instances.lookup slot, inst.proposalNumber = pn → inst.isProposer = true →
      p.quorumSize ≤ (insert sender inst.acceptsReceived).card →
      ∀ own ∈ inst.accepted, inst.proposedValue = some own.2
  | _ => True

section
variable {p q : PaxosProtocol V} {slot : ℕ} {v w : V} {inst : PaxosInstance V} {env : PaxosEnv}

theorem PaxosProtocol.Retains.decided (h : p.decidedSlots.lookup slot = some v) : p.Retains v :=
  Or.inl ⟨slot,AList.mem_keys.mp (mem_of_lookup h),h⟩

theorem PaxosProtocol.Retains.proposing (hs : slot ∉ p.decidedSlots)
    (hl : p.instances.lookup slot = some inst) (hp : inst.isProposer = true)
    (hv : inst.proposedValue = some v) : p.Retains v := by
  refine Or.inr (Or.inl ⟨slot,AList.mem_keys.mp (mem_of_lookup hl),hs,?_,?_⟩)
  · rw [instanceAt_of_lookup hl]
    exact hp
  · rw [instanceAt_of_lookup hl]
    exact hv

theorem PaxosProtocol.Retains.put (h : p.Retains v)
    (hi : (p.instanceAt slot).isProposer = true →
      inst.isProposer = true ∧ inst.proposedValue = (p.instanceAt slot).proposedValue) :
    (p.putInstance slot inst).Retains v := by
  rcases h with hd | ⟨s,hs,hd,hp,hv⟩ | hl
  · exact Or.inl hd
  · refine Or.inr (Or.inl ⟨s,AList.mem_keys.mp ((AList.mem_insert _).mpr (Or.inr hs)),hd,?_⟩)
    by_cases hne : s = slot
    · subst hne
      rw [instanceAt_putInstance_self]
      exact (hi hp).imp_right fun heq => heq.trans hv
    · rw [instanceAt_putInstance_ne _ hne]
      exact ⟨hp,hv⟩
  · exact Or.inr (Or.inr hl)

variable [DecidableEq V]

/-- A slot is decided, for the value that is proposed in it if there is one. -/
theorem PaxosProtocol.Retains.conclude (h : p.Retains v) (hs : slot ∉ p.decidedSlots)
    (hw : (p.instanceAt slot).isProposer = true → (p.instanceAt slot).proposedValue = some v →
      w = v ∨ v ∈ p.lostProposals) : (p.conclude env slot w).1.Retains v := by
  have hnew := p.lookup_conclude env slot w
  obtain ⟨forwarded,_,heq⟩ := p.conclude_frame env slot w
  rw [heq] at hnew ⊢
  rcases h with ⟨s,_,hd⟩ | ⟨s,hmem,hd,hp,hv⟩ | hl
  · exact .decided (lookup_insert_of_notMem hs hd)
  · by_cases hne : s = slot
    · subst hne
      rcases hw hp hv with rfl | hl
      · exact .decided hnew
      · exact Or.inr (Or.inr hl)
    · refine Or.inr (Or.inl ⟨s,AList.mem_keys.mp (AList.mem_erase.mpr ⟨hne,hmem⟩),?_,?_⟩)
      · exact fun hd' => hd (((AList.mem_insert _).mp hd').resolve_left hne)
      · have hat := p.instanceAt_removeInstance_ne hne
        unfold PaxosProtocol.instanceAt at hat hp hv ⊢
        rw [show (AList.lookup s (p.instances.erase slot)).getD .new = _ from hat]
        exact ⟨hp,hv⟩
  · exact Or.inr (Or.inr hl)

/-- Phase 2 decides at once only if the accepts suffice. -/
theorem PaxosProtocol.Retains.startPhase2 (h : p.Retains v) (ht : Tidy p)
    (hv : ∀ inst ∈ p.instances.lookup slot, inst.isProposer = true →
      p.quorumSize ≤ (insert p.nodeId inst.acceptsReceived).card →
      inst.phase2Value = inst.proposedValue) : (p.startPhase2 env slot).1.Retains v := by
  unfold PaxosProtocol.startPhase2
  split
  · exact h
  · rename_i inst hl
    have hat := instanceAt_of_lookup hl
    split
    · exact h
    · rename_i value hvalue
      -- what is decided is the value of phase 2
      have hown : p.quorumSize ≤ (insert p.nodeId inst.acceptsReceived).card →
          inst.isProposer = true → inst.proposedValue = some v → value = v := by
        intro hq hp hprop
        have heq := hv inst hl hp hq
        rw [hvalue,hprop] at heq
        exact Option.some.inj heq
      simp only
      split
      · unfold PaxosProtocol.selfAccept
        have hput : (p.putInstance slot (inst.selfVote p.nodeId inst.proposalNumber value)).Retains v :=
          h.put fun hp => ⟨hat ▸ hp,by rw [hat]; rfl⟩
        simp only
        split
        · rename_i hq
          refine PaxosProtocol.Retains.conclude (p := (p.putInstance slot _).noteVote slot _ value)
            hput (ht.not_decided hl) fun hp hprop => ?_
          rw [instanceAt_noteVote,instanceAt_putInstance_self] at hp hprop
          exact Or.inl (hown hq hp hprop)
        · exact hput
      · split
        · rename_i hq
          refine h.conclude (ht.not_decided hl) fun hp hprop => ?_
          rw [hat] at hp hprop
          exact Or.inl (hown (hq.trans (Finset.card_le_card (Finset.subset_insert _ _))) hp hprop)
        · exact h

theorem PaxosProtocol.Retains.handlePromise {sender : NodeId} {pn : ProposalNumber}
    {accepted : Option (ProposalNumber × V)} (h : p.Retains v) (ht : Tidy p)
    (hu : Undisputed p (.message sender (.promise slot pn accepted))) :
    (p.handlePromise env sender slot pn accepted).1.Retains v := by
  unfold PaxosProtocol.handlePromise
  split
  · exact h
  · rename_i hs
    split
    · exact h
    · rename_i inst hl
      have hat := instanceAt_of_lookup hl
      split
      · rename_i hpn
        have hput : (p.putInstance slot (inst.recordPromise sender accepted)).Retains v :=
          h.put fun hp => ⟨hat ▸ hp,by rw [hat]; rfl⟩
        simp only
        split
        · rename_i hq
          refine hput.startPhase2 (ht.putInstance hs fun hp => ht.proposer_of_lookup hl hp) ?_
          intro inst' hl' hp hacc
          cases (AList.lookup_insert _).symm.trans hl'
          exact hu inst hl hpn.1 hp hq hacc
        · exact hput
      · exact h

theorem PaxosProtocol.Retains.handleAccepted {sender : NodeId} {pn : ProposalNumber} {value : V}
    (h : p.Retains v) (hu : Undisputed p (.message sender (.accepted slot pn value))) :
    (p.handleAccepted env sender slot pn value).1.Retains v := by
  unfold PaxosProtocol.handleAccepted
  split
  · exact h
  · rename_i hs
    split
    · exact h
    · rename_i inst hl
      have hat := instanceAt_of_lookup hl
      split
      · rename_i hpn
        have hput : (p.putInstance slot
            { inst with acceptsReceived := insert sender inst.acceptsReceived }).Retains v :=
          h.put fun hp => ⟨hat ▸ hp,by rw [hat]⟩
        simp only
        split
        · rename_i hq
          split
          · exact hput
          · rename_i own value hacc
            rw [conclude_putInstance]
            refine h.conclude hs fun hp hprop => ?_
            rw [hat] at hp hprop
            have heq := hu inst hl hpn.1 hp hq _ hacc
            exact Or.inl (Option.some.inj (heq.symm.trans hprop))
        · exact hput
      · exact h

/-- A proposer that loses its slot to a `Decide` gets its value back. -/
theorem PaxosProtocol.Retains.handleDecide {sender : NodeId} {value : V} (h : p.Retains v)
    (hm : p.multi = false) : (p.handleDecide env sender slot value).Retains v := by
  have hsame : (if p.multi then p.touchLeader env sender else p) = p := if_neg (by simp [hm])
  unfold PaxosProtocol.handleDecide
  simp only [hsame]
  split
  · exact h
  · rename_i hs
    change ((p.lose (p.outvoted slot value)).conclude env slot value).1.Retains v
    have hlose : (p.lose (p.outvoted slot value)).Retains v :=
      h.imp_right (Or.imp_right (List.mem_append_left _))
    refine hlose.conclude hs fun hp hprop => ?_
    by_cases hne : v = value
    · exact Or.inl hne.symm
    · refine Or.inr (List.mem_append_right _ ?_)
      have hl : p.instances.lookup slot = some (p.instanceAt slot) := by
        cases hl : p.instances.lookup slot with
        | none =>
          change (p.instanceAt slot).isProposer = true at hp
          rw [PaxosProtocol.instanceAt,hl] at hp
          cases hp
        | some inst => rw [instanceAt_of_lookup hl]
      unfold PaxosProtocol.outvoted
      rw [hl]
      simp only [show (p.instanceAt slot).proposedValue = some v from hprop]
      rw [if_pos ⟨hp,hne⟩]
      exact List.mem_singleton.mpr rfl

omit [DecidableEq V] in
theorem PaxosProtocol.Retains.handleNack {hp : ProposalNumber} (h : p.Retains v)
    (hm : p.multi = false) : (p.handleNack env slot hp).Retains v := by
  unfold PaxosProtocol.handleNack
  cases hl : p.instances.lookup slot with
  | none =>
    simp only [hm,Bool.false_eq_true,if_false]
    exact h
  | some inst =>
    have hmulti : ∀ inst, (p.putInstance slot inst).multi = false := fun _ => hm
    simp only [hmulti,Bool.false_eq_true,if_false]
    refine h.put fun hp => ?_
    rw [instanceAt_of_lookup hl] at hp ⊢
    exact ⟨hp,rfl⟩

theorem PaxosProtocol.Retains.retryProposal (h : p.Retains v) (ht : Tidy p) :
    (p.retryProposal env slot).1.Retains v := by
  unfold PaxosProtocol.retryProposal
  split
  · exact h
  · rename_i inst hl
    split
    · have hput : (p.putInstance slot (p.retried env slot inst)).Retains v := by
        refine h.put fun hp => ?_
        rw [instanceAt_of_lookup hl] at hp ⊢
        exact ⟨hp,rfl⟩
      simp only
      split
      · refine hput.startPhase2 (ht.putInstance (ht.not_decided hl) ?_) fun inst' hl' _ _ => ?_
        · exact fun hp => ht.proposer_of_lookup hl hp
        · cases (AList.lookup_insert _).symm.trans hl'
          rfl
      · exact hput
    · exact h

theorem PaxosProtocol.Retains.onTick (h : p.Retains v) (ht : Tidy p) (hm : p.multi = false) :
    (p.onTick env).1.Retains v := by
  have hall : ∀ (slots : List ℕ) (q : PaxosProtocol V), Tidy q → q.Retains v →
      (runAll (PaxosProtocol.retryProposal env) q slots).1.Retains v := by
    intro slots
    induction slots with
    | nil => exact fun q _ hq => hq
    | cons slot rest ih =>
      intro q hq hr
      have hmoves : Moves .lax env .tick q (q.retryProposal env slot).1 (q.retryProposal env slot).2 :=
        .retryProposal slot nofun
      exact ih _ (hmoves.tidy hq) (hr.retryProposal hq)
  unfold PaxosProtocol.onTick
  simp only [hm,Bool.false_eq_true,if_false]
  exact hall _ p ht h

def PaxosProtocol.opened (env : PaxosEnv) (p : PaxosProtocol V) (value : V) : PaxosProtocol V :=
  { p with nextSlot := p.nextSlot + 1 }.putInstance p.nextSlot
    (p.prepared env p.nextSlot (.mk 1 p.nodeId) value)

omit [DecidableEq V] in
theorem Tidy.opened (ht : Tidy p) (env : PaxosEnv) (w : V) : Tidy (p.opened env w) :=
  ht.allocate.putInstance ht.next_not_decided fun _ => Nat.lt_succ_self _

omit [DecidableEq V] in
theorem PaxosProtocol.Retains.opened (ht : Tidy p) (env : PaxosEnv) (w : V) :
    (p.opened env w).Retains w ∧ (p.Retains v → (p.opened env w).Retains v) := by
  refine ⟨.proposing ht.next_not_decided (AList.lookup_insert _) rfl rfl,fun hv => ?_⟩
  refine PaxosProtocol.Retains.put (p := { p with nextSlot := p.nextSlot + 1 }) hv fun hp => ?_
  exact absurd (ht.proposer hp) (lt_irrefl _)

/-- What is proposed is decided at once, or proposed in a slot. -/
theorem PaxosProtocol.Retains.propose (ht : Tidy p) (hm : p.multi = false)
    (hidle : (p.instanceAt p.nextSlot).promisesReceived = ∅)
    (hfresh : p.quorumSize ≤ 1 → (p.instanceAt p.nextSlot).highestAccepted = none) :
    (p.propose env w).1.Retains w ∧ (p.Retains v → (p.propose env w).1.Retains v) := by
  obtain ⟨hw,hv⟩ := PaxosProtocol.Retains.opened (v := v) ht env w
  unfold PaxosProtocol.propose PaxosProtocol.innerPropose
  simp only [hm,Bool.false_eq_true,if_false]
  unfold PaxosProtocol.proposeFullPaxos
  simp only
  split
  · rename_i hq
    have hone : p.quorumSize ≤ (insert p.nodeId (p.instanceAt p.nextSlot).promisesReceived).card := hq
    rw [hidle] at hone
    have hvalue : ∀ inst ∈ (p.opened env w).instances.lookup p.nextSlot,
        inst.phase2Value = inst.proposedValue := by
      intro inst hl
      cases (AList.lookup_insert _).symm.trans hl
      unfold PaxosInstance.phase2Value
      rw [show (p.prepared env p.nextSlot (.mk 1 p.nodeId) w).highestAccepted = none from
        hfresh hone]
    exact ⟨hw.startPhase2 (ht.opened env w) fun inst hl _ _ => hvalue inst hl,
      fun h => (hv h).startPhase2 (ht.opened env w) fun inst hl _ _ => hvalue inst hl⟩
  · exact ⟨hw,hv⟩

theorem PaxosProtocol.Retains.handle {input : Input V} (h : p.Retains v) (ht : Tidy p)
    (hm : p.multi = false) (hu : Undisputed p input)
    (hidle : (p.instanceAt p.nextSlot).promisesReceived = ∅)
    (hfresh : p.quorumSize ≤ 1 → (p.instanceAt p.nextSlot).highestAccepted = none) :
    (p.handle env input).1.Retains v := by
  have hsame : ∀ {slot inst}, inst.isProposer = (p.instanceAt slot).isProposer →
      inst.proposedValue = (p.instanceAt slot).proposedValue →
      (p.putInstance slot inst).Retains v :=
    fun hp hv => h.put fun hprop => ⟨hp.trans hprop,hv⟩
  cases input with
  | propose value => exact (PaxosProtocol.Retains.propose ht hm hidle hfresh).2 h
  | tick => exact h.onTick ht hm
  | message sender msg =>
    unfold PaxosProtocol.handle PaxosProtocol.handleMessage
    cases msg with
    | prepare slot pn =>
      simp only [PaxosProtocol.handlePrepare]
      split
      · exact h
      · split
        · exact hsame rfl rfl
        · split
          · exact hsame rfl rfl
          · exact hsame rfl rfl
    | promise slot pn accepted => exact h.handlePromise ht hu
    | accept slot pn value =>
      simp only [PaxosProtocol.handleAccept]
      have hvote : (p.putInstance slot ((p.instanceAt slot).vote pn value)).Retains v :=
        hsame rfl rfl
      split
      · exact h
      · split
        · exact hvote
        · split
          · exact hvote
          · exact hsame rfl rfl
    | accepted slot pn value => exact h.handleAccepted hu
    | decide slot value => exact h.handleDecide hm
    | nackPrepare slot pn hp => exact h.handleNack hm
    | nackAccept slot pn hp => exact h.handleNack hm
    | _ =>
      simp only [hm,Bool.false_eq_true,if_false]
      exact h

def Unreported (p : PaxosProtocol V) : Prop := ∀ slot, (p.instanceAt slot).highestAccepted = none

omit [DecidableEq V] in
theorem Unreported.put (h : Unreported p) (hi : inst.highestAccepted = none) :
    Unreported (p.putInstance slot inst) := by
  intro s
  by_cases hne : s = slot
  · subst hne
    rw [PaxosProtocol.instanceAt_putInstance_self]
    exact hi
  · rw [PaxosProtocol.instanceAt_putInstance_ne _ hne]
    exact h s

theorem Unreported.selfAccept (h : Unreported p) (hi : inst.highestAccepted = none)
    (pn : ProposalNumber) : Unreported (p.selfAccept env slot inst pn v).1 := by
  have hput : Unreported ((p.putInstance slot (inst.selfVote p.nodeId pn v)).noteVote slot pn v) :=
    h.put hi
  unfold PaxosProtocol.selfAccept
  simp only
  split
  · intro s
    by_cases hne : s = slot
    · subst hne
      obtain ⟨_,_,heq⟩ := ((p.putInstance s (inst.selfVote p.nodeId pn v)).noteVote s pn
        v).conclude_frame env s v
      rw [heq]
      simp [PaxosProtocol.instanceAt,AList.lookup_erase,PaxosInstance.new]
    · rw [(PaxosProtocol.conclude_elsewhere _ env slot v hne).1]
      exact hput s
  · exact hput

theorem Move.unreported {R : Rules V} {input : Input V} {out : List (Outgoing (PaxosMessage V))}
    (h : Unreported p) (hin : ∀ sender msg, input ≠ .message sender msg)
    (hm : Move R env input p q out) : Unreported q := by
  cases hm with
  | aside hq =>
    intro s
    rw [PaxosProtocol.instanceAt,hq.instances]
    exact h s
  | tend hs hi => exact h.put (hi.highestAccepted.trans (h _))
  | promise he => exact absurd he (hin _ _)
  | accept he => exact absurd he (hin _ _)
  | count he => exact absurd he (hin _ _)
  | phase2 hl =>
    refine h.selfAccept ?_ _
    rw [← PaxosProtocol.instanceAt_of_lookup hl]
    exact h _
  | belated he => exact absurd he (hin _ _)
  | tally he => exact absurd he (hin _ _)
  | settle he => exact absurd he (hin _ _)
  | learn he => exact absurd he (hin _ _)
  | claim => exact Unreported.put (p := { p with nextSlot := p.nextSlot + 1 }) h (h p.nextSlot)
  | lead =>
    have hnext : Unreported { p with nextSlot := p.nextSlot + 1 } := h
    unfold PaxosProtocol.proposeFastPath
    refine hnext.selfAccept ?_ _
    exact h p.nextSlot
  | retry => exact h.put rfl
  | submit he => exact absurd he (hin _ _)
  | @replay r slot value hr hv hl ho hs =>
    unfold PaxosProtocol.replayAccept
    rw [if_neg hs]
    refine h.selfAccept ?_ _
    exact h slot
  | _ => exact h

theorem Moves.unreported {R : Rules V} {input : Input V} {out : List (Outgoing (PaxosMessage V))}
    (h : Unreported p) (hin : ∀ sender msg, input ≠ .message sender msg)
    (hm : Moves R env input p q out) : Unreported q := by
  induction hm with
  | nil => exact h
  | snoc _ hlast ih => exact hlast.unreported ih hin

end

section
variable [DecidableEq V] {M : Membership N} {s s' : Cluster N V} {l : Label V N} {i : Fin N}
  {env : PaxosEnv}

theorem unreported_of_reaches {ok : Cluster N V → Label V N → Prop} (hN : N < 2)
    (hok : ∀ s l, ok s l → CrashFree s l)
    (h : Runs.Reaches (Cluster.step M) ok (Cluster.init M env) s) (i : Fin N) :
    Unreported (s.nodes i).protocol := by
  have hall : ∀ i, Unreported (s.nodes i).protocol := by
    refine h.invariant (fun s => ∀ i, Unreported (s.nodes i).protocol) (fun _ _ => rfl) ?_
    intro s l s' hr ih hl hs i
    have halone := alone_of_reaches hN hok hr
    rcases Cluster.step_cases hs with ⟨j,env,input,ht,rfl⟩ | ⟨j,_,rfl⟩ | ⟨j,_,_,rfl,_⟩
    · have hin : ∀ sender msg, input ≠ .message sender msg := by
        rintro sender msg rfl
        obtain ⟨src,hsrc⟩ := Cluster.turn_message ht
        rw [halone.sent] at hsrc
        cases hsrc
      have hij : i = j := Fin.ext (by omega)
      subst hij
      have htidy := (halone.nodes i).1
      simp only [Cluster.take,Function.update_self]
      exact (handle_lax env input htidy).unreported (ih i) hin
    · have hij : i = j := Fin.ext (by omega)
      subst hij
      simp only [Function.update_self]
      exact ih i
    · exact (hok _ _ hl).elim
  exact hall i

end

/-- A cluster, with the values each node was asked to propose and those that
`take_lost_proposals` has returned. -/
structure Journal (N : ℕ) (V : Type) where
  cluster : Cluster N V
  proposed : Fin N → List V
  returned : Fin N → List V

def Journal.init (M : Membership N) (env : PaxosEnv) : Journal N V :=
  ⟨.init M env,fun _ => [],fun _ => []⟩

def Label.proposal (i : Fin N) : Label V N → List V
  | .act j _ (some v) => if j = i then [v] else []
  | _ => []

theorem Label.mem_proposal {i : Fin N} {l : Label V N} {v : V} (h : v ∈ l.proposal i) :
    ∃ env, l = .act i env (some v) := by
  cases l with
  | act j env value =>
    cases value with
    | none => cases h
    | some w =>
      simp only [Label.proposal] at h
      split at h
      · rename_i heq
        rw [heq,List.mem_singleton.mp h]
        exact ⟨env,rfl⟩
      · cases h
  | _ => cases h

def Label.returned (s : Cluster N V) (i : Fin N) : Label V N → List V
  | .drain j => if j = i then (s.nodes i).protocol.takeLostProposals.2 else []
  | _ => []

section
variable [DecidableEq V]

def Journal.step (M : Membership N) (j : Journal N V) (l : Label V N) : Option (Journal N V) :=
  (Cluster.step M j.cluster l).map fun s =>
    { cluster := s
      proposed := fun i => j.proposed i ++ l.proposal i
      returned := fun i => j.returned i ++ l.returned j.cluster i }

def UndisputedStep (j : Journal N V) (l : Label V N) : Prop :=
  CrashFree j.cluster l ∧
    ∀ t ∈ j.cluster.turn l, Undisputed (j.cluster.nodes t.1).protocol t.2.2

def Journal.Accounted (j : Journal N V) : Prop :=
  ∀ i, ∀ v ∈ j.proposed i, (j.cluster.nodes i).protocol.Retains v ∨ v ∈ j.returned i

variable {M : Membership N} {j j' : Journal N V} {l : Label V N} {env : PaxosEnv}

theorem Journal.cluster_reaches {ok : Journal N V → Label V N → Prop}
    (hok : ∀ j l, ok j l → CrashFree j.cluster l)
    (h : Runs.Reaches (Journal.step M) ok (.init M env) j) :
    Runs.Reaches (Cluster.step M) CrashFree (.init M env) j.cluster := by
  refine h.map Journal.cluster fun j l j' hl hs => ?_
  obtain ⟨s,hs',rfl⟩ := Option.map_eq_some_iff.mp hs
  exact .next .start (hok j l hl) hs'

/-- What a call can rely on in such a run. -/
structure Settling (p : PaxosProtocol V) : Prop where
  tidy : Tidy p
  multi : p.multi = false
  idle : (p.instanceAt p.nextSlot).promisesReceived = ∅
  fresh : p.quorumSize ≤ 1 → (p.instanceAt p.nextSlot).highestAccepted = none

theorem settling_of_reaches {s : Cluster N V} (hm : M.multi = false)
    (h : Runs.Reaches (Cluster.step M) CrashFree (.init M env) s) (i : Fin N) :
    Settling (s.nodes i).protocol := by
  have hk := Cluster.reaches_keeps (fun _ _ => id) (Cluster.init_tidy M env) h i
  have hvalid : s.Valid fun _ => True := Cluster.valid_reaches (fun _ _ _ _ _ _ _ => trivial) h
  refine ⟨hk.tidy,hk.multi.trans hm,?_,fun hq => ?_⟩
  · exact (((hvalid.nodes i).instances _).2.idle (hk.tidy.idle le_rfl)).2
  · have hN : N / 2 + 1 ≤ 1 := hk.quorumSize.symm.trans_le hq
    exact unreported_of_reaches (by omega) (fun _ _ => id) h i _

theorem Journal.Accounted.step (h : j.Accounted)
    (hset : ∀ i, Settling (j.cluster.nodes i).protocol) (hl : UndisputedStep j l)
    (hs : Journal.step M j l = some j') : j'.Accounted := by
  obtain ⟨s,hs',rfl⟩ := Option.map_eq_some_iff.mp hs
  rcases Cluster.step_cases hs' with ⟨i,env,input,ht,rfl⟩ | ⟨i,rfl,rfl⟩ | ⟨_,_,_,rfl,_⟩
  · have hu : Undisputed (j.cluster.nodes i).protocol input := hl.2 _ ht
    have hseti := hset i
    intro k v hv
    by_cases hki : k = i
    · subst hki
      simp only [Cluster.take,Function.update_self]
      rcases List.mem_append.mp hv with hv | hv
      · refine (h k v hv).imp (fun hr => ?_) (List.mem_append_left _)
        exact hr.handle hseti.tidy hseti.multi hu hseti.idle hseti.fresh
      · obtain ⟨env',rfl⟩ := Label.mem_proposal hv
        cases ht
        exact Or.inl (PaxosProtocol.Retains.propose (v := v) hseti.tidy hseti.multi hseti.idle
          hseti.fresh).1
    · simp only [Cluster.take,Function.update_of_ne hki]
      rcases List.mem_append.mp hv with hv | hv
      · exact (h k v hv).imp_right (List.mem_append_left _)
      · obtain ⟨env',rfl⟩ := Label.mem_proposal hv
        cases ht
        exact absurd rfl hki
  · intro k v hv
    have hold : v ∈ j.proposed k := by simpa [Label.proposal] using hv
    by_cases hki : k = i
    · subst hki
      simp only [Function.update_self]
      rcases h k v hold with (hd | hp | hlost) | hr
      · exact Or.inl (Or.inl hd)
      · exact Or.inl (Or.inr (Or.inl hp))
      · refine Or.inr (List.mem_append_right _ ?_)
        simpa only [Label.returned,if_true,PaxosProtocol.takeLostProposals] using hlost
      · exact Or.inr (List.mem_append_left _ hr)
    · simp only [Function.update_of_ne hki]
      exact (h k v hold).imp_right (List.mem_append_left _)
  · exact hl.1.elim

/-- In undisputed runs without restarts, in the build without `multi-paxos`,
a value passed to `propose` is decided, still proposed, or given back. -/
theorem proposals_retained (hm : M.multi = false)
    (h : Runs.Reaches (Journal.step M) UndisputedStep (.init M env) j) {i : Fin N} {v : V}
    (hv : v ∈ j.proposed i) :
    (j.cluster.nodes i).protocol.Retains v ∨ v ∈ j.returned i := by
  have hall : j.Accounted := by
    refine h.invariant Journal.Accounted (fun _ _ hv => absurd hv List.not_mem_nil)
      fun j l j' hr ih hl hs => ?_
    have hcluster := Journal.cluster_reaches (fun _ _ hl => hl.1) hr
    exact ih.step (settling_of_reaches hm hcluster) hl hs
  exact hall i v hv

instance (p : PaxosProtocol V) : (input : Input V) → Decidable (Undisputed p input)
  | .message sender (.promise slot pn accepted) =>
    inferInstanceAs (Decidable (∀ inst ∈ p.instances.lookup slot, inst.proposalNumber = pn →
      inst.isProposer = true → p.quorumSize ≤ (insert sender inst.promisesReceived).card →
      p.quorumSize ≤ (insert p.nodeId inst.acceptsReceived).card →
      (inst.recordPromise sender accepted).phase2Value = inst.proposedValue))
  | .message sender (.accepted slot pn _) =>
    inferInstanceAs (Decidable (∀ inst ∈ p.instances.lookup slot, inst.proposalNumber = pn →
      inst.isProposer = true → p.quorumSize ≤ (insert sender inst.acceptsReceived).card →
      ∀ own ∈ inst.accepted, inst.proposedValue = some own.2))
  | .propose _ | .tick | .message _ (.prepare ..) | .message _ (.accept ..)
  | .message _ (.decide ..) | .message _ (.nackPrepare ..) | .message _ (.nackAccept ..)
  | .message _ (.forward ..) | .message _ (.heartbeat ..) | .message _ (.prepareLeader ..)
  | .message _ (.promiseLeader ..) | .message _ (.nackLeader ..) => .isTrue trivial

instance (j : Journal N V) (l : Label V N) : Decidable (UndisputedStep j l) :=
  inferInstanceAs (Decidable (CrashFree j.cluster l ∧
    ∀ t ∈ j.cluster.turn l, Undisputed (j.cluster.nodes t.1).protocol t.2.2))

instance (p : PaxosProtocol V) (v : V) : Decidable (p.Retains v) :=
  inferInstanceAs (Decidable ((∃ slot ∈ p.decidedSlots.keys, p.decidedSlots.lookup slot = some v) ∨
    (∃ slot ∈ p.instances.keys, slot ∉ p.decidedSlots ∧ (p.instanceAt slot).isProposer = true ∧
      (p.instanceAt slot).proposedValue = some v) ∨ v ∈ p.lostProposals))

end

/-- Nodes 0 and 2 propose 1 and 5 in slot 0. Node 1 accepts 1 at `(1,a)` before
it answers node 2. -/
def rivals : List (Label ℕ 3) :=
  [.act 0 (.steady 1) (some 1),.act 2 (.steady 2) (some 5),.deliver 0 (.steady 3),
    .deliver 4 (.steady 4),.deliver 5 (.steady 5),.deliver 3 (.steady 6)]

/-- Node 0 decides for its value and tells node 2, which gives 5 back. -/
def outvotedEnd : Journal 3 ℕ :=
  Runs.after (Journal.step (trio false)) UndisputedStep (.init (trio false) (.steady 0))
    (rivals ++ [.deliver 7 (.steady 7),.deliver 10 (.steady 8),.drain 2]) (by decide +kernel)

theorem proposals_retained_outvoted :
    (5 ∈ outvotedEnd.proposed 2 ∧ ¬ (outvotedEnd.cluster.nodes 2).protocol.Retains 5) ∧
      ((outvotedEnd.cluster.nodes 2).protocol.Retains 5 ∨ 5 ∈ outvotedEnd.returned 2) :=
  ⟨by decide +kernel,proposals_retained (M := trio false) rfl
    (Runs.after_reaches .start (by decide +kernel)) (by decide +kernel)⟩

/-- Node 2 adopts 1 and decides it itself, with the vote of node 1. -/
def adoptedEnd : Journal 3 ℕ :=
  Runs.after (Journal.step (trio false)) (fun j l => CrashFree j.cluster l)
    (.init (trio false) (.steady 0))
    (rivals ++ [.deliver 8 (.steady 7),.deliver 10 (.steady 8),.deliver 11 (.steady 9)])
    (by decide +kernel)

theorem proposal_lost_when_adopting :
    Runs.Reaches (Journal.step (trio false)) (fun j l => CrashFree j.cluster l)
        (.init (trio false) (.steady 0)) adoptedEnd ∧
      (adoptedEnd.proposed 0 = [1] ∧ adoptedEnd.proposed 1 = [] ∧ adoptedEnd.proposed 2 = [5]) ∧
      (adoptedEnd.cluster.nodes 2).protocol.decidedSlots.lookup 0 = some 1 ∧
      ¬ (adoptedEnd.cluster.nodes 2).protocol.Retains 5 ∧ 5 ∉ adoptedEnd.returned 2 :=
  ⟨Runs.after_reaches .start (by decide +kernel),by decide +kernel,by decide +kernel,
    by decide +kernel,by decide +kernel⟩

end Paxos
end Daccord
