import Daccord.PaxosRefinement

/-! Every move of a node in a mindful run is a step of the voting in its slots. -/
namespace Daccord
namespace Paxos

open Voting

variable {V : Type} {N : ℕ}

structure Local (slot : ℕ) (p q : PaxosProtocol V) : Prop where
  keeps : Keeps p q
  leaderState : q.leaderState = p.leaderState
  leaderPromise : q.leaderPromise = p.leaderPromise
  election : q.election = p.election
  highestSeenRound : q.highestSeenRound = p.highestSeenRound
  elections : q.record.elections = p.record.elections
  nextSlot : p.nextSlot ≤ q.nextSlot
  instanceAt : ∀ {s}, s ≠ slot → q.instanceAt s = p.instanceAt s
  mem : ∀ {s}, s ∈ p.instances → s ∈ q.instances ∨ s < q.nextSlot
  decided : ∀ {s}, s ≠ slot → q.decidedSlots.lookup s = p.decidedSlots.lookup s

section Local
variable {slot : ℕ} {p q r : PaxosProtocol V}

theorem Local.refl (h : Tidy p) : Local slot p p :=
  ⟨.refl h,rfl,rfl,rfl,rfl,rfl,le_rfl,fun _ => rfl,Or.inl,fun _ => rfl⟩

theorem Local.trans (h : Local slot p q) (h' : Local slot q r) : Local slot p r := by
  refine ⟨h.keeps.trans h'.keeps,h'.leaderState.trans h.leaderState,
    h'.leaderPromise.trans h.leaderPromise,h'.election.trans h.election,
    h'.highestSeenRound.trans h.highestSeenRound,h'.elections.trans h.elections,
    h.nextSlot.trans h'.nextSlot,fun hs => (h'.instanceAt hs).trans (h.instanceAt hs),fun hs => ?_,
    fun hs => (h'.decided hs).trans (h.decided hs)⟩
  rcases h.mem hs with hs | hs
  · exact h'.mem hs
  · exact Or.inr (hs.trans_le h'.nextSlot)

theorem Local.putInstance (h : Tidy p) (hs : slot ∉ p.decidedSlots) {inst : PaxosInstance V}
    (hp : inst.isProposer = true → slot < p.nextSlot) : Local slot p (p.putInstance slot inst) :=
  { Local.refl h with
    keeps := .putInstance h hs hp
    instanceAt := fun hs => PaxosProtocol.instanceAt_putInstance_ne p hs inst
    mem := fun hs => Or.inl ((AList.mem_insert _).mpr (Or.inr hs)) }

theorem Local.noteVote (h : Tidy p) (pn : ProposalNumber) (value : V) :
    Local slot p (p.noteVote slot pn value) :=
  { Local.refl h with keeps := { Keeps.refl h with tidy := { h with } } }

theorem Local.allocate (h : Tidy p) : Local slot p { p with nextSlot := p.nextSlot + 1 } :=
  { Local.refl h with
    keeps := { Keeps.refl h with tidy := h.allocate }
    nextSlot := Nat.le_succ _
    mem := Or.inl }

variable [DecidableEq V]

theorem Local.conclude (h : Tidy p) (env : PaxosEnv) (hs : slot ∉ p.decidedSlots) (value : V) :
    Local slot p (p.conclude env slot value).1 := by
  have hk := Keeps.conclude h env hs value
  obtain ⟨forwarded,_,heq⟩ := p.conclude_frame env slot value
  rw [heq] at hk ⊢
  refine ⟨hk,rfl,rfl,rfl,rfl,rfl,?_,fun hs => PaxosProtocol.instanceAt_removeInstance_ne p hs,
    fun {s} hm => ?_,fun hs => AList.lookup_insert_ne hs⟩
  · simp only
    split <;> omega
  · by_cases hne : s = slot
    · right
      subst hne
      simp only
      split <;> omega
    · exact Or.inl (AList.mem_erase.mpr ⟨hne,hm⟩)

end Local

def Abstract.set (a : Abstract N V) (slot : ℕ) (st : Slot N V) : Abstract N V :=
  { a with slots := Function.update a.slots slot st }

section Slot
variable {M : Membership N} {a : Abstract N V} {i : Fin N} {p q : PaxosProtocol V} {slot : ℕ}
  {st : Slot N V}

@[simp] theorem Abstract.set_self (a : Abstract N V) (slot : ℕ) (st : Slot N V) :
    (a.set slot st).slots slot = st := Function.update_self ..

theorem Abstract.set_ne (a : Abstract N V) {slot s : ℕ} (h : s ≠ slot) (st : Slot N V) :
    (a.set slot st).slots s = a.slots s := Function.update_of_ne h ..

theorem Abstract.set_same (a : Abstract N V) (slot : ℕ) : a.set slot (a.slots slot) = a := by
  simp [Abstract.set]

theorem Grows.set (h : Steps (Own M) i (a.slots slot) st) : Grows M i a (a.set slot st) := by
  refine ⟨fun s => ?_,id,fun _ => id⟩
  by_cases hs : s = slot
  · subst hs
    rw [Abstract.set_self]
    exact h
  · rw [a.set_ne hs]
    exact .refl

theorem ElectionOk.local {e : ElectionState V} (h : ElectionOk M a p e) (hl : Local slot p q) :
    ElectionOk M a q e := by
  refine { h with since := ?_, promises := fun id hid => ?_ }
  · rcases h.since with hs | hs
    · exact Or.inl (hs.trans hl.nextSlot)
    · exact (hl.mem hs).symm.imp_left Nat.le_of_lt
  · obtain ⟨j,hj,hc⟩ := h.promises id hid
    exact ⟨j,hj,fun s hs => (hc s hs).imp_left hl.keeps.mem_decided⟩

theorem NodeOk.local (h : NodeOk M a i p) (hst : Steps (Own M) i (a.slots slot) st)
    (hl : Local slot p q)
    (hslot : slot ∉ q.decidedSlots →
      SlotOk M st i slot p.leaderPromise q.nextSlot (q.instanceAt slot))
    (hdec : ∀ v, q.decidedSlots.lookup slot = some v →
      p.decidedSlots.lookup slot = some v ∨ ∃ b, Chosen st b v)
    (hvotes : ∀ x ∈ q.record.votes, x ∈ p.record.votes ∨
      x.slot = slot ∧ st.vote i x.number x.value) : NodeOk M (a.set slot st) i q := by
  have hg : Grows M i a (a.set slot st) := .set hst
  refine ⟨hl.keeps.tidy,hl.keeps.nodeId.trans h.ident,hl.keeps.quorumSize.trans h.quorum,
    ?_,?_,?_,?_,?_,?_,?_,?_,?_⟩
  · rw [hl.leaderPromise,hl.keeps.multi]
    exact h.single
  · intro s hs
    rw [hl.leaderPromise]
    by_cases hne : s = slot
    · subst hne
      rw [Abstract.set_self]
      exact hslot hs
    · have hs' : s ∉ p.decidedSlots := fun hd => hs (hl.keeps.mem_decided hd)
      obtain ⟨hacc,hprop⟩ := h.slots hs'
      rw [a.set_ne hne,hl.instanceAt hne]
      exact ⟨hacc,hprop.same (.refl _) (fun _ => id) (fun _ => id) hl.nextSlot
        ⟨rfl,rfl,rfl,rfl,rfl,rfl⟩ id⟩
  · intro s v hv
    by_cases hne : s = slot
    · subst hne
      rw [Abstract.set_self]
      rcases hdec v hv with hv | hv
      · obtain ⟨b,hb⟩ := h.decided hv
        exact ⟨b,hb.mono hst.extends⟩
      · exact hv
    · rw [a.set_ne hne]
      exact h.decided ((hl.decided hne).symm.trans hv)
  · rw [hl.leaderPromise]
    exact fun l hl s => (hg.extends s).pledge (h.lead l hl s)
  · rw [hl.highestSeenRound]
    exact h.campaigns
  · rw [hl.election]
    exact fun e he => ((h.election e he).grows hg).local hl
  · intro t ht
    rw [hl.leaderState] at ht
    obtain ⟨ht,hu⟩ := h.leader ht
    exact ⟨ht,fun s hs => (hu s (hl.nextSlot.trans hs)).mono (hg.extends s)⟩
  · intro x hx
    rcases hvotes x hx with hx | ⟨hxs,hx⟩
    · exact (hg.extends x.slot).vote (h.votes x hx)
    · rw [hxs,Abstract.set_self]
      exact hx
  · rw [hl.elections]
    exact fun r hr => ((h.elections r hr).grows hg).later fun _ => hl.keeps.mem_decided

end Slot

/-- An election asks from one slot on. -/
def Floors (a : Abstract N V) : Prop :=
  ∀ pn since since', a.campaign pn since → a.campaign pn since' → since = since'

/-- The voting can follow node `i` to the state `q` with these messages. -/
def Sim (M : Membership N) (i : Fin N) (a : Abstract N V) (q : PaxosProtocol V)
    (out : List (Outgoing (PaxosMessage V))) : Prop :=
  ∃ a', Grows M i a a' ∧ Floors a' ∧ NodeOk M a' i q ∧ ∀ o ∈ out, SentOk a' i o.message

def InputOk (M : Membership N) (a : Abstract N V) (i : Fin N) (input : Input V) : Prop :=
  ∀ sender msg, input = .message sender msg → ∃ src, src ≠ i ∧ sender = M.ids src ∧ SentOk a src msg

section Sim
variable {M : Membership N} {a : Abstract N V} {i : Fin N} {p q : PaxosProtocol V} {slot : ℕ}
  {st : Slot N V} {out : List (Outgoing (PaxosMessage V))} {inst : PaxosInstance V}

theorem Sim.local (h : NodeOk M a i p) (hfl : Floors a) (hst : Steps (Own M) i (a.slots slot) st)
    (hl : Local slot p q)
    (hslot : slot ∉ q.decidedSlots →
      SlotOk M st i slot p.leaderPromise q.nextSlot (q.instanceAt slot))
    (hdec : ∀ v, q.decidedSlots.lookup slot = some v →
      p.decidedSlots.lookup slot = some v ∨ ∃ b, Chosen st b v)
    (hvotes : ∀ x ∈ q.record.votes, x ∈ p.record.votes ∨
      x.slot = slot ∧ st.vote i x.number x.value)
    (hout : ∀ o ∈ out, SentOk (a.set slot st) i o.message) : Sim M i a q out :=
  ⟨a.set slot st,.set hst,hfl,h.local hst hl hslot hdec hvotes,hout⟩

theorem Sim.putInstance (h : NodeOk M a i p) (hfl : Floors a)
    (hst : Steps (Own M) i (a.slots slot) st) (hl : Local slot p q)
    (hs : slot ∉ q.decidedSlots) (hp : inst.isProposer = true → slot < q.nextSlot)
    (hv : q.record.votes = p.record.votes)
    (hok : SlotOk M st i slot p.leaderPromise q.nextSlot inst)
    (hout : ∀ o ∈ out, SentOk (a.set slot st) i o.message) :
    Sim M i a (q.putInstance slot inst) out := by
  refine .local h hfl hst (hl.trans (.putInstance hl.keeps.tidy hs hp)) (fun _ => ?_)
    (fun v hv => ?_) (fun x hx => Or.inl ?_) hout
  · rw [PaxosProtocol.instanceAt_putInstance_self]
    exact hok
  · exact absurd (mem_of_lookup hv) hs
  · rw [← hv]
    exact hx

theorem NodeOk.vote (h : NodeOk M a i p) (hst : Steps (Own M) i (a.slots slot) st)
    (hl : Local slot p q) (hs : slot ∉ q.decidedSlots)
    (hp : inst.isProposer = true → slot < q.nextSlot)
    (hv : q.record.votes = p.record.votes) {pn : ProposalNumber} {v : V} (hvote : st.vote i pn v)
    (hok : SlotOk M st i slot p.leaderPromise q.nextSlot inst) :
    NodeOk M (a.set slot st) i ((q.putInstance slot inst).noteVote slot pn v) := by
  have hput := hl.trans (.putInstance hl.keeps.tidy hs hp)
  refine h.local hst (hput.trans (.noteVote hput.keeps.tidy pn v)) (fun _ => ?_)
    (fun w hw => absurd (mem_of_lookup hw) hs) (fun x hx => ?_)
  · rw [PaxosProtocol.instanceAt_noteVote,PaxosProtocol.instanceAt_putInstance_self]
    exact hok
  · rcases List.mem_append.mp hx with hx | hx
    · exact Or.inl (hv ▸ hx)
    · rw [List.mem_singleton.mp hx]
      exact Or.inr ⟨rfl,hvote⟩

theorem Sim.after {a' : Abstract N V} (hg : Grows M i a a') (h : Sim M i a' q out) :
    Sim M i a q out := by
  obtain ⟨a'',hg',hfl,hn,hout⟩ := h
  exact ⟨a'',hg.trans hg',hfl,hn,hout⟩

variable [DecidableEq V]

theorem Sim.conclude (h : NodeOk M a i p) (hfl : Floors a) (env : PaxosEnv)
    (hs : slot ∉ p.decidedSlots) {v : V} (hch : ∃ b, Chosen (a.slots slot) b v)
    (hout : ∀ o ∈ out, o = ⟨.broadcast,.decide slot v⟩) :
    Sim M i a (p.conclude env slot v).1 out := by
  refine .local h hfl .refl (.conclude h.tidy env hs v) (fun hs' => ?_) (fun w hw => Or.inr ?_)
    (fun x hx => Or.inl ?_) fun o ho => ?_
  · exact absurd (mem_of_lookup (p.lookup_conclude env slot v)) hs'
  · rw [p.lookup_conclude env slot v] at hw
    cases hw
    exact hch
  · obtain ⟨forwarded,_,heq⟩ := p.conclude_frame env slot v
    rw [heq] at hx
    exact hx
  · rw [hout o ho]
    change ∃ b, Chosen ((a.set slot (a.slots slot)).slots slot) b v
    rw [Abstract.set_self]
    exact hch

/-- A vote for an own proposal, and the decision it may bring. -/
theorem Sim.selfAccept (h : NodeOk M a i p) (hfl : Floors a)
    (hst : Steps (Own M) i (a.slots slot) st) (hsound : Sound st) (hl : Local slot p q)
    (hv : q.record.votes = p.record.votes) (env : PaxosEnv) (hs : slot ∉ q.decidedSlots)
    (hp : inst.isProposer = true → slot < q.nextSlot) {pn : ProposalNumber} {v : V}
    (hnum : inst.proposalNumber = pn) (hround : 1 ≤ pn.round) (hoffer : st.offer pn v)
    (hvote : st.vote i pn v)
    (hok : SlotOk M st i slot p.leaderPromise q.nextSlot (inst.selfVote (M.ids i) pn v)) :
    Sim M i a (q.selfAccept env slot inst pn v).1 (q.selfAccept env slot inst pn v).2 := by
  have hid : q.nodeId = M.ids i := hl.keeps.nodeId.trans h.ident
  have hnode := h.vote hst hl hs (show (inst.selfVote (M.ids i) pn v).isProposer = true → _ from hp)
    hv hvote hok
  unfold PaxosProtocol.selfAccept
  rw [hid]
  simp only
  split
  · rename_i hq
    have hquorum : N / 2 + 1 ≤ (inst.selfVote (M.ids i) pn v).acceptsReceived.card := by
      rw [← h.quorum,← hl.keeps.quorumSize]
      exact hq
    have hch : Chosen st pn v := by
      subst hnum
      exact hok.proposer.chosen hsound hoffer hquorum
    refine .after (.set hst) (.conclude hnode hfl env hs ⟨pn,?_⟩ fun o => List.mem_singleton.mp)
    rw [Abstract.set_self]
    exact hch
  · refine ⟨a.set slot st,.set hst,hfl,hnode,fun o ho => ?_⟩
    rw [List.mem_singleton.mp ho]
    change 1 ≤ pn.round ∧ ((a.set slot st).slots slot).offer pn v
    rw [Abstract.set_self]
    exact ⟨hround,hoffer⟩

end Sim

section Moves
variable {M : Membership N} {a : Abstract N V} {i : Fin N} {p q : PaxosProtocol V} {slot : ℕ}
  {out : List (Outgoing (PaxosMessage V))} {inst : PaxosInstance V} {pn : ProposalNumber} {v : V}

theorem NodeOk.frame (h : NodeOk M a i p) (hq : Frame p q) : NodeOk M a i q := by
  have hat : ∀ s, q.instanceAt s = p.instanceAt s := fun s => by
    rw [PaxosProtocol.instanceAt,hq.instances]
    rfl
  refine ⟨(Keeps.frame h.tidy hq).tidy,hq.nodeId.trans h.ident,hq.quorumSize.trans h.quorum,
    ?_,?_,?_,?_,?_,?_,?_,?_,?_⟩
  · rw [hq.multi,hq.leaderPromise]
    exact h.single
  · intro s
    rw [hq.decidedSlots,hq.leaderPromise,hq.nextSlot,hat]
    exact h.slots
  · rw [hq.decidedSlots]
    exact h.decided
  · rw [hq.leaderPromise]
    exact h.lead
  · exact fun ho hc => (h.campaigns ho hc).trans hq.highestSeenRound
  · intro e he
    rcases hq.election with heq | hnone
    · obtain ⟨hc,hr,hsi,hpr,hac⟩ := h.election e (heq ▸ he)
      exact ⟨hc,hr,by rw [hq.nextSlot,hq.instances]; exact hsi,by rw [hq.decidedSlots]; exact hpr,hac⟩
    · rw [hnone] at he
      cases he
  · intro t ht
    rcases hq.leaderState with heq | hne
    · rw [hq.nextSlot]
      exact h.leader (heq ▸ ht)
    · exact absurd ht (hne t)
  · rw [hq.votes]
    exact h.votes
  · rw [hq.elections]
    exact fun r hr => (h.elections r hr).later fun _ => (Keeps.frame h.tidy hq).mem_decided

/-- Buffers of proposals and failed calls have no part in the voting. -/
theorem NodeOk.elsewhere (h : NodeOk M a i p) (lost : List V)
    (forwarded : List (ForwardedProposal V)) (panicked missing : Bool) :
    NodeOk M a i { p with
      lostProposals := lost
      forwardedProposals := forwarded
      record := { p.record with panicked := panicked, valueMissing := missing } } :=
  { h with
    tidy := { h.tidy with }
    election := fun e he => { h.election e he with }
    elections := fun r hr => (h.elections r hr).later fun _ => id }

theorem SentOk.aside (h : NodeOk M a i p) {msg : PaxosMessage V} (hm : Aside p msg) :
    SentOk a i msg := by
  cases msg with
  | decide slot v => exact h.decided hm
  | nackPrepare => trivial
  | nackAccept => trivial
  | nackLeader => trivial
  | heartbeat => trivial
  | _ => exact hm.elim

theorem Sim.tend (h : NodeOk M a i p) (hfl : Floors a) (hs : slot ∉ p.decidedSlots)
    (hi : SameBallot (p.instanceAt slot) inst) (hout : ∀ o ∈ out, Aside p o.message) :
    Sim M i a (p.putInstance slot inst) out := by
  obtain ⟨hacc,hprop⟩ := h.slots hs
  refine .putInstance h hfl .refl (.refl h.tidy) hs (fun hp => h.tidy.proposer (hi.isProposer ▸ hp))
    rfl ⟨hacc.same (.refl _) id id hi.highestPromised hi.accepted,hprop.same (.refl _) (fun _ => id)
      (fun _ => id) le_rfl hi.sameProposal (by rw [hi.highestPromised]; exact id)⟩ ?_
  rw [a.set_same]
  exact fun o ho => .aside h (hout o ho)

theorem Sim.promise (h : NodeOk M a i p) (hfl : Floors a) {sender : NodeId}
    (hop : 1 ≤ pn.round ∧ (a.slots slot).opened pn) (hs : slot ∉ p.decidedSlots)
    (hfree : (p.instanceAt slot).Free pn) :
    Sim M i a (p.putInstance slot { p.instanceAt slot with highestPromised := some pn })
      [⟨.peer sender,.promise slot pn (p.instanceAt slot).accepted⟩] := by
  obtain ⟨hacc,hprop⟩ := h.slots hs
  have hx := Extends.promise (a.slots slot) i pn
  have hle : ∀ x ∈ (p.instanceAt slot).highestPromised, x ≤ pn := fun x hx => (hfree x hx).le
  have hacc' : Acceptor ((a.slots slot).promise i pn) i p.leaderPromise
      { p.instanceAt slot with highestPromised := some pn } := hacc.promise hle rfl rfl
  refine .putInstance h hfl (.single (.promise pn)) (.refl h.tidy) hs h.tidy.proposer rfl
    ⟨hacc',hprop.same hx (fun _ => id) (fun _ => id) le_rfl ⟨rfl,rfl,rfl,rfl,rfl,rfl⟩
      fun hb => .to_some (hb.le hle)⟩ fun o ho => ?_
  rw [List.mem_singleton.mp ho]
  simp only [SentOk,Abstract.set_self]
  exact ⟨hop.1,hop.2,hacc'.covered (Or.inr ⟨rfl,rfl⟩),fun m u ha => (hacc.accepted ha).1⟩

theorem NodeOk.floor_le (h : NodeOk M a i p)
    (hfloor : ∀ f, p.effectiveFloor slot = some f → f ≤ pn) :
    (∀ x ∈ (p.instanceAt slot).highestPromised, x ≤ pn) ∧ ∀ l ∈ p.leaderPromise, l ≤ pn := by
  refine ⟨fun x hx => ?_,fun l hl => ?_⟩
  · obtain ⟨f,hf,hle⟩ := PaxosProtocol.effectiveFloor_slot hx
    exact hle.trans (hfloor f hf)
  · cases hm : p.multi with
    | false =>
      rw [h.single hm] at hl
      cases hl
    | true =>
      obtain ⟨f,hf,hle⟩ := PaxosProtocol.effectiveFloor_ge hm hl
      exact hle.trans (hfloor f hf)

theorem Sim.accept (h : NodeOk M a i p) (hfl : Floors a) {sender : NodeId}
    (hoff : 1 ≤ pn.round ∧ (a.slots slot).offer pn v) (hs : slot ∉ p.decidedSlots)
    (hfloor : ∀ f, p.effectiveFloor slot = some f → f ≤ pn) :
    Sim M i a ((p.putInstance slot ((p.instanceAt slot).vote pn v)).noteVote slot pn v)
      [⟨.peer sender,.accepted slot pn v⟩] := by
  obtain ⟨hacc,hprop⟩ := h.slots hs
  obtain ⟨hle,hlead⟩ := h.floor_le hfloor
  have hstep : Step (Own M) i (a.slots slot) ((a.slots slot).accept i pn v) :=
    .accept pn v hoff.2 fun c hc => hacc.pledge_le hc hle hlead
  have hnode := h.vote (.single hstep) (.refl h.tidy) hs
    (show ((p.instanceAt slot).vote pn v).isProposer = true → _ from h.tidy.proposer) rfl
    (Or.inr ⟨rfl,rfl,rfl⟩) ⟨hacc.vote hle rfl rfl,hprop.same hstep.extends (fun _ => id)
      (fun _ => id) le_rfl ⟨rfl,rfl,rfl,rfl,rfl,rfl⟩ fun hb => .to_some (hb.le hle)⟩
  refine ⟨_,.set (.single hstep),hfl,hnode,fun o ho => ?_⟩
  rw [List.mem_singleton.mp ho]
  simp only [SentOk,Abstract.set_self]
  exact ⟨hoff.1,Or.inr ⟨rfl,rfl,rfl⟩⟩

theorem SlotOk.quorum_active {st : Slot N V} {lead : Option ProposalNumber} {next : ℕ}
    (h : SlotOk M st i slot lead next inst) (hq : N / 2 + 1 ≤ inst.promisesReceived.card) :
    inst.isProposer = true := by
  by_contra hi
  rw [(h.proposer.idle (by simpa using hi)).2.1,Finset.card_empty] at hq
  omega

theorem NodeOk.slotOk (h : NodeOk M a i p) (hl : p.instances.lookup slot = some inst) :
    SlotOk M (a.slots slot) i slot p.leaderPromise p.nextSlot inst := by
  have hok := h.slots (h.tidy.not_decided hl)
  rwa [PaxosProtocol.instanceAt_of_lookup hl] at hok

theorem Sim.count (h : NodeOk M a i p) (hs : Sound (a.slots slot)) (hfl : Floors a) {src : Fin N}
    {accepted : Option (ProposalNumber × V)}
    (hmsg : SentOk a src (.promise slot inst.proposalNumber accepted))
    (hl : p.instances.lookup slot = some inst)
    (hlate : p.quorumSize ≤ inst.promisesReceived.card →
      (inst.recordPromise (M.ids src) accepted).phase2Value = inst.phase2Value)
    (hfirst : ¬ p.quorumSize ≤ inst.promisesReceived.card →
      p.quorumSize ≤ (inst.recordPromise (M.ids src) accepted).promisesReceived.card →
      (inst.recordPromise (M.ids src) accepted).Mindful) :
    Sim M i a (p.putInstance slot (inst.recordPromise (M.ids src) accepted)) [] := by
  rw [h.quorum] at hlate hfirst
  obtain ⟨hround,hop,hcov,hvote⟩ := hmsg
  obtain ⟨hacc,hprop⟩ := h.slotOk hl
  exact .putInstance h hfl .refl (.refl h.tidy) (h.tidy.not_decided hl)
    (fun hp => h.tidy.proposer_of_lookup hl hp) rfl
    ⟨hacc.same (.refl _) id id rfl rfl,hprop.count hs hacc hround hop hcov
      (fun m u hm => ⟨src,hvote m u hm⟩) hlate hfirst⟩ nofun

/-- The offer that phase 2 makes. -/
theorem SlotOk.propose_step {st : Slot N V} {lead : Option ProposalNumber} {next : ℕ}
    (h : SlotOk M st i slot lead next inst) (hN : 2 ≤ N)
    (hq : N / 2 + 1 ≤ inst.promisesReceived.card) (hv : inst.phase2Value = some v) :
    Step (Own M) i st (st.propose inst.proposalNumber v) := by
  have hpos := h.quorum_active hq
  refine .propose _ v (h.proposer.active hpos).1 (h.proposer.ready hq v hv) fun w hw => ?_
  have hsettled := (h.proposer.settled hpos (h.proposer.asked (by omega)) w hw).2
  exact Option.some.inj (hsettled.symm.trans hv)

theorem Sim.offer (h : NodeOk M a i p) (hN : 2 ≤ N) (hfl : Floors a)
    (hl : p.instances.lookup slot = some inst) (hv : inst.phase2Value = some v)
    (hq : p.quorumSize ≤ inst.promisesReceived.card) :
    Sim M i a p [⟨.broadcast,.accept slot inst.proposalNumber v⟩] := by
  rw [h.quorum] at hq
  have hok := h.slotOk hl
  have hpos := hok.quorum_active hq
  refine .local h hfl (.single (hok.propose_step hN hq hv)) (.refl h.tidy) (fun _ => ?_)
    (fun w hw => Or.inl hw) (fun x hx => Or.inl hx) fun o ho => ?_
  · rw [PaxosProtocol.instanceAt_of_lookup hl]
    exact ⟨hok.acceptor.same (.propose ..) id id rfl rfl,
      hok.proposer.propose hpos (h.tidy.proposer_of_lookup hl hpos) hq hv⟩
  · rw [List.mem_singleton.mp ho]
    simp only [SentOk,Abstract.set_self]
    exact ⟨(hok.proposer.active hpos).2.1,Or.inr ⟨rfl,rfl⟩⟩

variable [DecidableEq V]

theorem Sim.phase2 (h : NodeOk M a i p) (hN : 2 ≤ N) (hs : Sound (a.slots slot)) (hfl : Floors a)
    (env : PaxosEnv) (hl : p.instances.lookup slot = some inst) (hv : inst.phase2Value = some v)
    (hq : p.quorumSize ≤ inst.promisesReceived.card)
    (hp : ∀ x ∈ inst.highestPromised, x ≤ inst.proposalNumber)
    (hf : ∀ l ∈ p.leaderPromise, l ≤ inst.proposalNumber) :
    Sim M i a (p.selfAccept env slot inst inst.proposalNumber v).1
      (p.selfAccept env slot inst inst.proposalNumber v).2 := by
  rw [h.quorum] at hq
  have hok := h.slotOk hl
  have hpos := hok.quorum_active hq
  have hlt := h.tidy.proposer_of_lookup hl hpos
  have hoffer := hok.propose_step hN hq hv
  have hvote : Step (Own M) i ((a.slots slot).propose inst.proposalNumber v)
      (((a.slots slot).propose inst.proposalNumber v).accept i inst.proposalNumber v) :=
    .accept _ v (Or.inr ⟨rfl,rfl⟩) fun c hc => hok.acceptor.pledge_le hc hp hf
  have hsteps : Steps (Own M) i (a.slots slot) _ := .tail (.single hoffer) hvote
  have hprop : Proposer M (((a.slots slot).propose inst.proposalNumber v).accept i
      inst.proposalNumber v) i slot p.nextSlot (inst.vote inst.proposalNumber v) :=
    (hok.proposer.propose hpos hlt hq hv).same hvote.extends (fun _ => id) (fun _ => id) le_rfl
      ⟨rfl,rfl,rfl,rfl,rfl,rfl⟩ fun hb => .to_some (hb.le hp)
  refine .selfAccept h hfl hsteps (hs.steps hsteps) (.refl h.tidy) rfl env (h.tidy.not_decided hl)
    (fun _ => hlt) rfl (hok.proposer.active hpos).2.1 (Or.inr ⟨rfl,rfl⟩) (Or.inr ⟨rfl,rfl,rfl⟩)
    ⟨?_,hprop.tally hpos (Or.inr ⟨rfl,rfl,rfl⟩)⟩
  exact (hok.acceptor.same (.propose ..) id id rfl rfl).vote hp rfl rfl

theorem Sim.belated (h : NodeOk M a i p) (hs : Sound (a.slots slot)) (hfl : Floors a)
    (env : PaxosEnv) {src : Fin N} {accepted : Option (ProposalNumber × V)}
    (hmsg : SentOk a src (.promise slot inst.proposalNumber accepted))
    (hl : p.instances.lookup slot = some inst) (hv : inst.phase2Value = some v)
    (hq : p.quorumSize ≤ inst.acceptsReceived.card) :
    Sim M i a (p.conclude env slot v).1 (p.conclude env slot v).2 := by
  rw [h.quorum] at hq
  obtain ⟨hround,hop,_⟩ := hmsg
  have hprop := (h.slotOk hl).proposer
  obtain ⟨id,hid⟩ := Finset.card_pos.mp (show 0 < inst.acceptsReceived.card by omega)
  obtain ⟨j,_,w,hw⟩ := hprop.accepts id hid
  have hoffer := hs.offered hw
  have hsettled := (hprop.settled (hprop.isProposer hround) hop w hoffer).2
  cases hsettled.symm.trans hv
  exact .conclude h hfl env (h.tidy.not_decided hl) ⟨_,hprop.chosen hs hoffer hq⟩
    fun o => List.mem_singleton.mp

omit [DecidableEq V] in
theorem Sim.tally (h : NodeOk M a i p) (hfl : Floors a) {src : Fin N}
    (hmsg : SentOk a src (.accepted slot inst.proposalNumber v))
    (hl : p.instances.lookup slot = some inst) :
    Sim M i a (p.putInstance slot { inst with
      acceptsReceived := insert (M.ids src) inst.acceptsReceived }) [] := by
  obtain ⟨hacc,hprop⟩ := h.slotOk hl
  exact .putInstance h hfl .refl (.refl h.tidy) (h.tidy.not_decided hl)
    (fun hp => h.tidy.proposer_of_lookup hl hp) rfl
    ⟨hacc.same (.refl _) id id rfl rfl,hprop.tally (hprop.isProposer hmsg.1) hmsg.2⟩ nofun

theorem Sim.settle (h : NodeOk M a i p) (hs : Sound (a.slots slot)) (hfl : Floors a)
    (env : PaxosEnv) {src : Fin N} (hmsg : SentOk a src (.accepted slot inst.proposalNumber v))
    (hl : p.instances.lookup slot = some inst)
    (hq : p.quorumSize ≤ (insert (M.ids src) inst.acceptsReceived).card) :
    Sim M i a (p.conclude env slot v).1 (p.conclude env slot v).2 := by
  rw [h.quorum] at hq
  have hprop := (h.slotOk hl).proposer
  have htally := hprop.tally (hprop.isProposer hmsg.1) hmsg.2
  exact .conclude h hfl env (h.tidy.not_decided hl)
    ⟨_,htally.chosen hs (hs.offered hmsg.2) hq⟩ fun o => List.mem_singleton.mp

omit [DecidableEq V] in
theorem NodeOk.vacant (h : NodeOk M a i p) :
    SlotOk M (a.slots p.nextSlot) i p.nextSlot p.leaderPromise p.nextSlot (p.instanceAt p.nextSlot) ∧
      (p.instanceAt p.nextSlot).promisesReceived = ∅ ∧
      (p.instanceAt p.nextSlot).acceptsReceived = ∅ ∧
      (p.instanceAt p.nextSlot).highestAccepted = none := by
  have hok := h.slots h.tidy.next_not_decided
  exact ⟨hok,(hok.proposer.idle (h.tidy.idle le_rfl)).2⟩

omit [DecidableEq V] in
theorem Sim.launch (h : NodeOk M a i p) (hN : 2 ≤ N) (hfl : Floors a) (hl : Local slot p q)
    (hv : q.record.votes = p.record.votes) (hs : slot ∉ q.decidedSlots) (hlt : slot < q.nextSlot)
    (hfree : (p.instanceAt slot).Free pn) (hown : Own M i pn) (hround : 1 ≤ pn.round)
    (hnum : inst.proposalNumber = pn) (hpr : inst.promisesReceived = {M.ids i})
    (hac : inst.acceptsReceived = ∅) (hrep : inst.highestAccepted = none)
    (hpos : inst.isProposer = true) (hhp : inst.highestPromised = some pn)
    (ha : inst.accepted = (p.instanceAt slot).accepted)
    (hout : ∀ o ∈ out, o = ⟨.broadcast,.prepare slot pn⟩) :
    Sim M i a (q.putInstance slot inst) out := by
  obtain ⟨hacc,hprop⟩ := h.slots fun hd => hs (hl.keeps.mem_decided hd)
  have hsteps : Steps (Own M) i (a.slots slot) (((a.slots slot).launch pn).promise i pn) :=
    .tail (.single (.launch pn hown)) (.promise pn)
  have hacc' : Acceptor ((a.slots slot).launch pn) i p.leaderPromise (p.instanceAt slot) :=
    hacc.same (.launch ..) id id rfl rfl
  refine .putInstance h hfl hsteps hl hs (fun _ => hlt) hv
    ⟨hacc'.promise (fun x hx => (hfree x hx).le) hhp ha,
      hprop.launch hN hfree hown hround hlt hnum hpr hac hrep hpos hhp⟩ fun o ho => ?_
  rw [hout o ho]
  simp only [SentOk,Abstract.set_self]
  exact ⟨hround,Or.inr rfl⟩

omit [DecidableEq V] in
theorem Sim.claim (h : NodeOk M a i p) (hN : 2 ≤ N) (hfl : Floors a) (env : PaxosEnv)
    (hfree : (p.instanceAt p.nextSlot).Free (.mk 1 p.nodeId))
    (hout : ∀ o ∈ out, o = ⟨.broadcast,.prepare p.nextSlot (.mk 1 p.nodeId)⟩) :
    Sim M i a ({ p with nextSlot := p.nextSlot + 1 }.putInstance p.nextSlot
      (p.prepared env p.nextSlot (.mk 1 p.nodeId) v)) out := by
  obtain ⟨_,hpr,hac,hrep⟩ := h.vacant
  refine .launch h hN hfl (.allocate h.tidy) rfl h.tidy.next_not_decided (Nat.lt_succ_self _) hfree
    h.ident le_rfl rfl ?_ hac hrep rfl rfl rfl hout
  simp [PaxosProtocol.prepared,PaxosProtocol.claim,hpr,h.ident]

omit [DecidableEq V] in
theorem Sim.retry (h : NodeOk M a i p) (hN : 2 ≤ N) (hfl : Floors a) (env : PaxosEnv)
    (hl : p.instances.lookup slot = some inst) (hp : inst.isProposer = true)
    (hout : ∀ o ∈ out, o = ⟨.broadcast,.prepare slot (p.retryNumber inst)⟩) :
    Sim M i a (p.putInstance slot (p.retried env slot inst)) out := by
  have hat := PaxosProtocol.instanceAt_of_lookup hl
  refine .launch h hN hfl (.refl h.tidy) rfl (h.tidy.not_decided hl)
    (h.tidy.proposer_of_lookup hl hp) ?_ (show Own M i (p.retryNumber inst) from h.ident)
    (Nat.le_add_left _ _) rfl ?_ rfl rfl hp rfl ?_ hout
  · rw [hat]
    intro x hx
    refine ProposalNumber.lt_of_round (Nat.lt_succ_of_le ?_)
    rw [hx]
    exact (le_max_left _ _).trans (le_max_left _ _)
  · rw [← h.ident]
    rfl
  · rw [hat]
    rfl

/-- A leader offers a value that is safe, and votes for it. -/
theorem Sim.assume (h : NodeOk M a i p) (hN : 2 ≤ N) (hs : Sound (a.slots slot)) (hfl : Floors a)
    (env : PaxosEnv) (hl : Local slot p q) (hv : q.record.votes = p.record.votes)
    (hd : slot ∉ q.decidedSlots) (hlt : slot < q.nextSlot) (hfree : (p.instanceAt slot).Free pn)
    (hown : Own M i pn) (hround : 1 ≤ pn.round) (hlead : p.leaderPromise = some pn)
    (hsafe : SafeAt (a.slots slot) pn v) (hnum : inst.proposalNumber = pn)
    (hpr : inst.promisesReceived = {M.ids i})
    (hac : insert (M.ids i) inst.acceptsReceived = {M.ids i})
    (hrep : inst.highestAccepted = (p.instanceAt slot).highestAccepted)
    (hpos : inst.isProposer = true) :
    Sim M i a (q.selfAccept env slot inst pn v).1 (q.selfAccept env slot inst pn v).2 := by
  obtain ⟨hacc,hprop⟩ := h.slots fun hd' => hd (hl.keeps.mem_decided hd')
  have hle : ∀ x ∈ (p.instanceAt slot).highestPromised, x ≤ pn := fun x hx => (hfree x hx).le
  have hle' : ∀ l ∈ p.leaderPromise, l ≤ pn := fun l hl => by
    cases hlead.symm.trans hl
    exact le_rfl
  have hoffer : Step (Own M) i (a.slots slot) ((a.slots slot).propose pn v) := by
    refine .propose pn v hown hsafe fun w hw => ?_
    obtain ⟨x,hx,hxle⟩ := (hprop.offered hown hw).2
    exact absurd (hfree x hx) (not_lt.mpr hxle)
  have hsteps : Steps (Own M) i (a.slots slot) (((a.slots slot).propose pn v).accept i pn v) :=
    .tail (.single hoffer) (.accept pn v (Or.inr ⟨rfl,rfl⟩) fun c hc => hacc.pledge_le hc hle hle')
  have hacc' : Acceptor ((a.slots slot).propose pn v) i p.leaderPromise (p.instanceAt slot) :=
    hacc.same (.propose ..) id id rfl rfl
  exact .selfAccept h hfl hsteps (hs.steps hsteps) hl hv env hd (fun _ => hlt) hnum hround
    (Or.inr ⟨rfl,rfl⟩) (Or.inr ⟨rfl,rfl,rfl⟩) ⟨hacc'.vote hle rfl rfl,hprop.assume hN hfree hown
      hround (h.lead pn hlead slot) hlt hnum hpr hac hrep hpos rfl⟩

theorem Sim.lead (h : NodeOk M a i p) (hN : 2 ≤ N) (hs : ∀ slot, Sound (a.slots slot))
    (hfl : Floors a) (env : PaxosEnv) {term : ℕ} (hl : p.leaderState = .leader term)
    (hfree : (p.instanceAt p.nextSlot).Free (.mk term p.nodeId)) :
    Sim M i a (p.proposeFastPath env v term).1 (p.proposeFastPath env v term).2 := by
  obtain ⟨_,hpr,hac,hrep⟩ := h.vacant
  obtain ⟨hterm,huntouched⟩ := h.leader hl
  refine .assume h hN (hs p.nextSlot) hfl env (.allocate h.tidy) rfl h.tidy.next_not_decided
    (Nat.lt_succ_self _) hfree h.ident hterm (h.tidy.leader hl).1 ?_ rfl ?_ ?_ rfl rfl
  · rw [h.ident]
    exact (huntouched _ le_rfl).safeAt (hs _) v
  · change insert p.nodeId (p.instanceAt p.nextSlot).promisesReceived = _
    rw [hpr,h.ident]
    rfl
  · change insert _ (p.instanceAt p.nextSlot).acceptsReceived = _
    rw [hac]
    rfl

theorem Sim.replay (h : NodeOk M a i p) (hN : 2 ≤ N) (hs : Sound (a.slots slot)) (hfl : Floors a)
    (env : PaxosEnv) {r : Election V} (hr : r ∈ p.record.elections) (hv : (slot,v) ∈ r.replayed)
    (hl : p.leaderState = .leader r.number.round) (ho : r.number.node = p.nodeId)
    (hd : slot ∉ p.decidedSlots) (hlt : slot < p.nextSlot)
    (hfree : (p.instanceAt slot).Free r.number) :
    Sim M i a (p.replayAccept env r.number (slot,v)).1 (p.replayAccept env r.number (slot,v)).2 := by
  unfold PaxosProtocol.replayAccept
  rw [if_neg hd]
  refine .assume h hN hs hfl env (.refl h.tidy) rfl hd hlt hfree (ho.trans h.ident)
    (h.leader hl).1 ((h.tidy.leader hl).1.trans ?_) ((h.elections r hr).replayed _ hv) rfl ?_ rfl
    rfl rfl
  · rw [← ho]
    rfl
  · rw [← h.ident]
    rfl

end Moves

section Elections
variable {M : Membership N} {a : Abstract N V} {i : Fin N} {p q : PaxosProtocol V} {slot : ℕ}
  {out : List (Outgoing (PaxosMessage V))} {pn : ProposalNumber} {e : ElectionState V}

theorem PaxosProtocol.mem_collectAccepted {env : PaxosEnv} {since : ℕ} {m : ProposalNumber} {u : V} :
    (slot,m,u) ∈ p.collectAcceptedForPromise env since ↔
      since ≤ slot ∧ slot ∉ p.decidedSlots ∧ (p.instanceAt slot).accepted = some (m,u) := by
  simp only [PaxosProtocol.collectAcceptedForPromise,List.mem_filterMap,PaxosEnv.arrange,
    List.mem_insertionSort]
  constructor
  · rintro ⟨s,_,hs⟩
    split at hs
    · cases hs
    split at hs
    · cases hs
    obtain ⟨x,hx,heq⟩ := Option.map_eq_some_iff.mp hs
    cases heq
    exact ⟨by omega,by assumption,hx⟩
  · rintro ⟨hle,hd,ha⟩
    refine ⟨slot,?_,?_⟩
    · cases hl : p.instances.lookup slot with
      | none => simp [PaxosProtocol.instanceAt,hl,PaxosInstance.new] at ha
      | some inst => exact AList.mem_keys.mp (mem_of_lookup hl)
    · rw [if_neg (not_lt.mpr hle),if_neg hd,ha]
      rfl

/-- What a node reports reaches up to its votes in the slots it has not decided. -/
theorem NodeOk.reports (h : NodeOk M a i p) (env : PaxosEnv) {since : ℕ} (hs : since ≤ slot)
    (hd : slot ∉ p.decidedSlots) {b : ProposalNumber} {w : V} (hv : (a.slots slot).vote i b w) :
    ∃ m u, (slot,m,u) ∈ p.collectAcceptedForPromise env since ∧ b ≤ m := by
  obtain ⟨m,u,ha,hle⟩ := (h.slots hd).acceptor.voted hv
  exact ⟨m,u,PaxosProtocol.mem_collectAccepted.mpr ⟨hs,hd,ha⟩,hle⟩

theorem NodeOk.reported (h : NodeOk M a i p) {env : PaxosEnv} {since : ℕ}
    {x : ℕ × ProposalNumber × V} (hx : x ∈ p.collectAcceptedForPromise env since) :
    since ≤ x.1 ∧ (a.slots x.1).vote i x.2.1 x.2.2 := by
  obtain ⟨hle,hd,ha⟩ := PaxosProtocol.mem_collectAccepted.mp hx
  exact ⟨hle,((h.slots hd).acceptor.accepted ha).1⟩

/-- A promise of the leader is given, and no office is held. -/
structure Yields (pn : ProposalNumber) (p q : PaxosProtocol V) : Prop where
  keeps : Keeps p q
  instances : q.instances = p.instances
  nextSlot : q.nextSlot = p.nextSlot
  decidedSlots : q.decidedSlots = p.decidedSlots
  leaderPromise : q.leaderPromise = some pn
  leaderState : ∀ t, q.leaderState ≠ .leader t
  record : q.record = p.record

/-- The pledge that a leader promise is, in every slot. -/
def Abstract.pledge (a : Abstract N V) (i : Fin N) (pn : ProposalNumber)
    (campaign : ProposalNumber → ℕ → Prop) : Abstract N V where
  slots slot := (a.slots slot).promise i pn
  campaign := campaign

def Abstract.announced (a : Abstract N V) (pn : ProposalNumber) (since : ℕ) (b : ProposalNumber)
    (s : ℕ) : Prop := a.campaign b s ∨ b = pn ∧ s = since

theorem Grows.pledge (M : Membership N) (a : Abstract N V) (i : Fin N) (pn : ProposalNumber) :
    Grows M i a (a.pledge i pn a.campaign) :=
  ⟨fun _ => .single (.promise pn),id,fun _ => id⟩

theorem Grows.announce (hown : Own M i pn) (since : ℕ) :
    Grows M i a (a.pledge i pn (a.announced pn since)) := by
  refine ⟨fun _ => .single (.promise pn),Or.inl,fun hn hc => ?_⟩
  rcases hc with hc | ⟨rfl,_⟩
  · exact hc
  · exact absurd hown hn

/-- A number above all rounds seen was not announced before. -/
theorem Floors.announce (h : NodeOk M a i p) (hfl : Floors a) (hown : Own M i pn)
    (hround : p.highestSeenRound < pn.round) (since : ℕ) :
    Floors (a.pledge i pn (a.announced pn since)) := by
  have hnew : ∀ s, ¬ a.campaign pn s := fun s hc => (h.campaigns hown hc).not_gt hround
  rintro b s s' (hc | ⟨rfl,rfl⟩) (hc' | ⟨hb,rfl⟩)
  · exact hfl b s s' hc hc'
  · exact absurd hc (hb ▸ hnew s)
  · exact absurd hc' (hnew s')
  · rfl

theorem NodeOk.yields (h : NodeOk M a i p) (hy : Yields pn p q) (hm : p.multi = true)
    (hle : ∀ l ∈ p.leaderPromise, l ≤ pn) {campaign : ProposalNumber → ℕ → Prop}
    (hg : Grows M i a (a.pledge i pn campaign))
    (hcamp : ∀ {b since}, Own M i b → campaign b since → b.round ≤ q.highestSeenRound)
    (he : ∀ e ∈ q.election, ElectionOk M (a.pledge i pn campaign) q e) :
    NodeOk M (a.pledge i pn campaign) i q := by
  have hat : ∀ s, q.instanceAt s = p.instanceAt s := fun s => by
    rw [PaxosProtocol.instanceAt,hy.instances]
    rfl
  refine ⟨hy.keeps.tidy,hy.keeps.nodeId.trans h.ident,hy.keeps.quorumSize.trans h.quorum,
    ?_,?_,?_,?_,hcamp,he,fun ht => absurd ht (hy.leaderState _),?_,?_⟩
  · rw [hy.keeps.multi,hm]
    intro heq
    cases heq
  · intro s hs
    rw [hy.decidedSlots] at hs
    rw [hy.leaderPromise,hy.nextSlot,hat]
    obtain ⟨hacc,hprop⟩ := h.slots hs
    exact ⟨hacc.submit hle,hprop.same (.promise ..) (fun _ => id) (fun _ => id) le_rfl
      ⟨rfl,rfl,rfl,rfl,rfl,rfl⟩ id⟩
  · intro s v
    rw [hy.decidedSlots]
    exact h.decided
  · rw [hy.leaderPromise]
    rintro l hl s
    cases hl
    exact Or.inr ⟨rfl,rfl⟩
  · rw [hy.record]
    exact h.votes
  · rw [hy.record]
    exact fun r hr => ((h.elections r hr).grows hg).later fun _ => hy.keeps.mem_decided

theorem Sim.submit (h : NodeOk M a i p) (hfl : Floors a) (env : PaxosEnv) {sender : NodeId}
    {since : ℕ} (hc : a.campaign pn since) (hm : p.multi = true)
    (hfree : ∀ l, p.leaderPromise = some l → l < pn) (hd : ∀ slot ∈ p.decidedSlots, slot < since) :
    Sim M i a (p.submit env sender pn) [⟨.peer sender,.promiseLeader pn
      ((p.submit env sender pn).collectAcceptedForPromise env since)⟩] := by
  have hk := Keeps.submit h.tidy env sender hfree
  obtain ⟨state,started,hstate,heq⟩ := PaxosProtocol.submit_frame h.tidy env sender hfree
  rw [heq] at hk ⊢
  have hg := Grows.pledge M a i pn
  have hnode := h.yields ⟨hk,rfl,rfl,rfl,rfl,hstate,rfl⟩ hm (fun l hl => (hfree l hl).le) hg
    (fun ho hc => (h.campaigns ho hc).trans (le_max_left _ _)) nofun
  refine ⟨_,hg,hfl,hnode,fun o ho => ?_⟩
  rw [List.mem_singleton.mp ho]
  refine ⟨since,hc,fun s hs => ⟨Or.inr ⟨rfl,rfl⟩,fun b w hv _ => ?_⟩,fun x hx => hnode.reported hx⟩
  exact hnode.reports env hs (fun hs' => (hd s hs').not_ge hs) hv

theorem PaxosProtocol.candidacy_since (p : PaxosProtocol V) (env : PaxosEnv) :
    (p.candidacy env).sinceSlot ≤ p.nextSlot ∨ (p.candidacy env).sinceSlot ∈ p.instances := by
  unfold PaxosProtocol.candidacy
  cases hk : p.instances.keys.min? with
  | none => exact Or.inl le_rfl
  | some s => exact Or.inr (AList.mem_keys.mpr (List.min?_mem hk))

theorem NodeOk.candidacy (h : NodeOk M a i p) (env : PaxosEnv)
    {campaign : ProposalNumber → ℕ → Prop}
    (hc : campaign (p.candidacy env).proposalNumber (p.candidacy env).sinceSlot) :
    ElectionOk M (a.pledge i (p.candidacy env).proposalNumber campaign) (p.campaign env)
      (p.candidacy env) := by
  refine ⟨hc,Nat.le_add_left _ _,p.candidacy_since env,fun id hid => ⟨i,?_,fun s hs => ?_⟩,
    fun x hx => (h.reported hx).imp_right fun hv => ⟨i,hv⟩⟩
  · rw [Finset.mem_singleton.mp hid,h.ident]
  · by_cases hd : s ∈ p.decidedSlots
    · exact Or.inl hd
    · exact Or.inr ⟨Or.inr ⟨rfl,rfl⟩,fun b w hv _ => h.reports env hs hd hv⟩

theorem Sim.campaign (h : NodeOk M a i p) (hfl : Floors a) (env : PaxosEnv) (hm : p.multi = true)
    (hout : ∀ o ∈ out, o =
      ⟨.broadcast,.prepareLeader (p.candidacy env).proposalNumber (p.candidacy env).sinceSlot⟩) :
    Sim M i a (p.campaign env) out := by
  have hown : Own M i (p.candidacy env).proposalNumber := h.ident
  have hg := Grows.announce (a := a) hown (p.candidacy env).sinceSlot
  have hann : a.announced (p.candidacy env).proposalNumber (p.candidacy env).sinceSlot
      (p.candidacy env).proposalNumber (p.candidacy env).sinceSlot := Or.inr ⟨rfl,rfl⟩
  refine ⟨_,hg,.announce h hfl hown (Nat.lt_succ_self _) _,h.yields ⟨.campaign h.tidy env,rfl,rfl,rfl,
    PaxosProtocol.campaign_leaderPromise h.tidy env,nofun,rfl⟩ hm (fun l hl => ?_) hg ?_ ?_,
    fun o ho => ?_⟩
  · exact (ProposalNumber.lt_of_round (Nat.lt_succ_of_le (h.tidy.round hl))).le
  · rintro b s ho (hc | ⟨rfl,_⟩)
    · exact (h.campaigns ho hc).trans (le_max_left _ _)
    · exact le_max_right _ _
  · rintro e he
    cases he
    exact h.candidacy env hann
  · rw [hout o ho]
    exact hann

theorem Sim.poll (h : NodeOk M a i p) (hfl : Floors a) {src : Fin N}
    {accepted : List (ℕ × ProposalNumber × V)} {e' : ElectionState V}
    (hmsg : SentOk a src (.promiseLeader e.proposalNumber accepted)) (he : p.election = some e)
    (he' : e' = { e with
      promisesReceived := insert (M.ids src) e.promisesReceived
      accepted := e.accepted ++ accepted })
    (ht : Tidy { p with election := some e' }) : Sim M i a { p with election := some e' } [] := by
  obtain ⟨hcamp,hround,hsince,hprom,hacc⟩ := h.election e he
  obtain ⟨since,hc,hcov,hvote⟩ := hmsg
  cases hfl _ _ _ hc hcamp
  refine ⟨a,.refl M i a,hfl,{ h with
    tidy := ht
    election := fun x hx => ?_
    elections := fun r hr => (h.elections r hr).later fun _ => id },nofun⟩
  cases hx
  subst he'
  refine ⟨hcamp,hround,hsince,fun id hid => ?_,fun x hx => ?_⟩
  · rcases Finset.mem_insert.mp hid with rfl | hid
    · exact ⟨src,rfl,fun s hs => Or.inr ((hcov s hs).mono (.refl _) fun m u hm =>
        ⟨m,u,List.mem_append_right _ hm,le_rfl⟩)⟩
    · obtain ⟨j,hj,hcj⟩ := hprom id hid
      exact ⟨j,hj,fun s hs => (hcj s hs).imp_right fun hcj => hcj.mono (.refl _) fun m u hm =>
        ⟨m,u,List.mem_append_left _ hm,le_rfl⟩⟩
  · rcases List.mem_append.mp hx with hx | hx
    · exact hacc x hx
    · exact (hvote x hx).imp_right fun hv => ⟨src,hv⟩

/-- The votes of a majority are covered by what the election was told. -/
theorem ElectionOk.covered (h : ElectionOk M a p e) (hq : N / 2 + 1 ≤ e.promisesReceived.card) :
    ∃ Q : Finset (Fin N), Majority Q ∧ ∀ j ∈ Q, ∀ slot, e.sinceSlot ≤ slot → slot ∉ p.decidedSlots →
      Covered (a.slots slot) j e.proposalNumber fun m u => (slot,m,u) ∈ e.accepted := by
  obtain ⟨Q,hQ,hcov⟩ := M.majority hq h.promises
  exact ⟨Q,hQ,fun j hj slot hs hd => (hcov j hj slot hs).resolve_left hd⟩

theorem ElectionOk.untouched (h : ElectionOk M a p e) (hq : N / 2 + 1 ≤ e.promisesReceived.card)
    (hs : e.sinceSlot ≤ slot) (hd : slot ∉ p.decidedSlots)
    (hno : ∀ m u, (slot,m,u) ∉ e.accepted) : Untouched (a.slots slot) e.proposalNumber := by
  obtain ⟨Q,hQ,hcov⟩ := h.covered hq
  exact ⟨Q,hQ,fun j hj => (hcov j hj slot hs hd).mono (.refl _) fun m u hm => absurd hm (hno m u)⟩

/-- The highest report of a slot is safe. -/
theorem ElectionOk.safeAt (h : ElectionOk M a p e) (hs : ∀ slot, Sound (a.slots slot))
    (hq : N / 2 + 1 ≤ e.promisesReceived.card) {b : ProposalNumber} {v : V}
    (hl : (p.highestPerSlot e.accepted).lookup slot = some (b,v)) :
    SafeAt (a.slots slot) e.proposalNumber v := by
  have hhigh := p.highestPerSlot_highest e.accepted
  obtain ⟨hd,hmem⟩ := hhigh.reported hl
  obtain ⟨Q,hQ,hcov⟩ := h.covered hq
  refine (hs slot).safeAt_of_covered hQ (fun j hj => hcov j hj slot (h.accepted _ hmem).1 hd)
    (fun m u hm => (h.accepted _ hm).2) (Or.inr ⟨b,hmem,fun m u hm => ?_⟩)
  obtain ⟨r,hr,hle⟩ := hhigh.highest hm hd
  cases hl.symm.trans hr
  exact hle

/-- The slots a new leader has not taken are beyond everything it was told of. -/
theorem ElectionOk.beyond [DecidableEq V] (h : ElectionOk M a p e) (ht : Tidy p)
    (hq : N / 2 + 1 ≤ e.promisesReceived.card) (env : PaxosEnv)
    (hs : (p.takeOffice env e).nextSlot ≤ slot) : Untouched (a.slots slot) e.proposalNumber := by
  have hnext : p.nextSlot ≤ slot := (p.nextSlot_le_takeOffice env e).trans hs
  have hd : slot ∉ p.decidedSlots := fun hd => (ht.decided_lt hd).not_ge hnext
  refine h.untouched hq ?_ hd fun m u hm => ?_
  · rcases h.since with hle | hmem
    · exact hle.trans hnext
    · exact ((PaxosProtocol.lt_advancePast (AList.mem_keys.mp hmem)).trans_le hs).le
  · obtain ⟨r,hr,_⟩ := (p.highestPerSlot_highest e.accepted).highest hm hd
    have hlt := PaxosProtocol.lt_advancePast (n := p.nextSlot) (AList.mem_keys.mp (mem_of_lookup hr))
    exact ((hlt.trans_le (PaxosProtocol.le_advancePast ..)).trans_le hs).false

theorem ElectionOk.elected [DecidableEq V] (h : ElectionOk M a p e)
    (hs : ∀ slot, Sound (a.slots slot)) (hq : N / 2 + 1 ≤ e.promisesReceived.card) (env : PaxosEnv) :
    ElectedOk a p ⟨e.proposalNumber,e.sinceSlot,
      PaxosProtocol.recoveredSlots env (p.highestPerSlot e.accepted)⟩ := by
  refine ⟨fun x hx => ?_,fun slot hslot => ?_⟩
  · obtain ⟨b,hb⟩ := PaxosProtocol.mem_recoveredSlots.mp hx
    exact h.safeAt hs hq hb
  · by_cases hd : slot ∈ p.decidedSlots
    · exact Or.inl hd
    · by_cases hno : ∀ m u, (slot,m,u) ∉ e.accepted
      · exact Or.inr (Or.inr (h.untouched hq hslot hd hno))
      · push Not at hno
        obtain ⟨m,u,hm⟩ := hno
        obtain ⟨r,hr,_⟩ := (p.highestPerSlot_highest e.accepted).highest hm hd
        exact Or.inr (Or.inl ⟨r.2,PaxosProtocol.mem_recoveredSlots.mpr ⟨r.1,hr⟩⟩)

theorem Sim.elect [DecidableEq V] (h : NodeOk M a i p) (hs : ∀ slot, Sound (a.slots slot))
    (hfl : Floors a) (env : PaxosEnv) (he : p.election = some e)
    (hq : p.quorumSize ≤ e.promisesReceived.card) : Sim M i a (p.takeOffice env e) [] := by
  rw [h.quorum] at hq
  have hel := h.election e he
  have hk := Keeps.takeOffice h.tidy env he
  have hnext := p.nextSlot_le_takeOffice env e
  refine ⟨a,.refl M i a,hfl,{ h with
    tidy := hk.tidy
    slots := fun {s} hs => ?_
    campaigns := fun ho hc => (h.campaigns ho hc).trans (le_max_left _ _)
    election := nofun
    leader := fun {t} ht => ?_
    elections := fun r hr => ?_ },nofun⟩
  · obtain ⟨hacc,hprop⟩ := h.slots hs
    exact ⟨hacc,hprop.same (.refl _) (fun _ => id) (fun _ => id) hnext ⟨rfl,rfl,rfl,rfl,rfl,rfl⟩ id⟩
  · cases ht
    have hnum : ProposalNumber.mk e.proposalNumber.round (M.ids i) = e.proposalNumber := by
      rw [← h.ident,← (h.tidy.election he).2]
      rfl
    rw [hnum]
    exact ⟨hel.round,fun slot hslot => hel.beyond h.tidy hq env hslot⟩
  · rcases List.mem_append.mp hr with hr | hr
    · exact (h.elections r hr).later fun _ => id
    · rw [List.mem_singleton.mp hr]
      exact (hel.elected hs hq env).later fun _ => id

end Elections

section Run
variable [DecidableEq V] {M : Membership N} {a : Abstract N V} {i : Fin N} {p q : PaxosProtocol V}
  {R : Rules V} {env : PaxosEnv} {input : Input V} {out : List (Outgoing (PaxosMessage V))}

/-- The voting follows every move that is made with the care the code leaves out. -/
theorem Move.simulates (hN : 2 ≤ N) (hs : ∀ slot, Sound (a.slots slot)) (hfl : Floors a)
    (h : NodeOk M a i p) (hin : InputOk M a i input) (hf : R.fenced) (hc : R.careful)
    (hr : R.free) (hm : Move R env input p q out) : Sim M i a q out := by
  have hk := hm.keeps h.tidy
  cases hm with
  | aside hq hout => exact ⟨a,.refl M i a,hfl,h.frame hq,fun o ho => .aside h (hout o ho)⟩
  | tend hd hi hout => exact .tend h hfl hd hi hout
  | promise he hd hfree =>
    obtain ⟨src,_,_,hmsg⟩ := hin _ _ he
    exact .promise h hfl hmsg hd hfree
  | accept he hd hfloor =>
    obtain ⟨src,_,_,hmsg⟩ := hin _ _ he
    exact .accept h hfl hmsg hd hfloor
  | count he hl hlate hfirst =>
    obtain ⟨src,_,rfl,hmsg⟩ := hin _ _ he
    exact .count h (hs _) hfl hmsg hl (hlate (Or.inl hc)) (hfirst hc)
  | phase2 hl hv hq hp hfence => exact .phase2 h hN (hs _) hfl env hl hv hq hp (hfence hf)
  | offer hl hv hq => exact .offer h hN hfl hl hv hq
  | belated he hl hv hq =>
    obtain ⟨src,_,_,hmsg⟩ := hin _ _ he
    exact .belated h (hs _) hfl env hmsg hl hv hq
  | tally he hl =>
    obtain ⟨src,_,rfl,hmsg⟩ := hin _ _ he
    exact .tally h hfl hmsg hl
  | settle he hl hq ha hsame =>
    obtain ⟨src,_,rfl,hmsg⟩ := hin _ _ he
    cases hsame hc
    exact .settle h (hs _) hfl env hmsg hl hq
  | learn he hd =>
    obtain ⟨src,_,_,hmsg⟩ := hin _ _ he
    have hlose : ∀ values, NodeOk M a i (p.lose values) := fun values =>
      h.elsewhere _ p.forwardedProposals p.record.panicked p.record.valueMissing
    exact .conclude (hlose _) hfl env hd hmsg nofun
  | missing => exact ⟨a,.refl M i a,hfl,h.elsewhere _ _ true true,nofun⟩
  | forward =>
    refine ⟨a,.refl M i a,hfl,h.elsewhere _ _ _ _,fun o ho => ?_⟩
    rw [List.mem_singleton.mp ho]
    trivial
  | claim _ hfree hout => exact .claim h hN hfl env (hfree hr) hout
  | lead _ _ hl hfree => exact .lead h hN hs hfl env hl (hfree hr)
  | retry hl hp hout => exact .retry h hN hfl env hl hp hout
  | campaign hm hout => exact .campaign h hfl env hm hout
  | submit he hm hfree hsince =>
    obtain ⟨src,_,_,hmsg⟩ := hin _ _ he
    exact .submit h hfl env hmsg hm hfree (hsince hc)
  | poll he hel =>
    obtain ⟨src,_,rfl,hmsg⟩ := hin _ _ he
    exact .poll h hfl hmsg hel rfl hk.tidy
  | elect hel hq => exact .elect h hs hfl env hel hq
  | replay hrec hv hl ho hd hlt hfree =>
    exact .replay h hN (hs _) hfl env (List.mem_of_mem_drop hrec) hv hl ho hd hlt (hfree hr)

theorem Moves.simulates (hN : 2 ≤ N) (hs : ∀ slot, Sound (a.slots slot)) (hfl : Floors a)
    (h : NodeOk M a i p) (hin : InputOk M a i input) (hf : R.fenced) (hc : R.careful)
    (hr : R.free) (hm : Moves R env input p q out) : Sim M i a q out := by
  induction hm with
  | nil => exact ⟨a,.refl M i a,hfl,h,nofun⟩
  | snoc _ hmove ih =>
    obtain ⟨a',hg,hfl',hn,hout⟩ := ih
    have hin' : InputOk M a' i input := fun sender msg he => by
      obtain ⟨src,hne,hid,hmsg⟩ := hin sender msg he
      exact ⟨src,hne,hid,hmsg.grows hg⟩
    obtain ⟨a'',hg',hfl'',hn',hout'⟩ :=
      hmove.simulates hN (fun slot => (hs slot).steps (hg.slots slot)) hfl' hn hin' hf hc hr
    refine ⟨a'',hg.trans hg',hfl'',hn',fun o ho => ?_⟩
    rcases List.mem_append.mp ho with ho | ho
    · exact (hout o ho).grows hg'
    · exact hout' o ho

structure ClusterOk (M : Membership N) (a : Abstract N V) (s : Cluster N V) : Prop where
  sound : ∀ slot, Sound (a.slots slot)
  floors : Floors a
  nodes : ∀ i, NodeOk M a i (s.nodes i).protocol
  packets : ∀ pkt ∈ s.sent, pkt.src ≠ pkt.dst ∧ pkt.msg.sender = M.ids pkt.src ∧
    SentOk a pkt.src pkt.msg.variant

def Abstract.start : Abstract N V := ⟨fun _ => .start,fun _ _ => False⟩

omit [DecidableEq V] in
theorem ClusterOk.init (M : Membership N) (env : PaxosEnv) :
    ClusterOk M .start (Cluster.init M env : Cluster N V) := by
  refine ⟨fun _ => .start,nofun,fun i => ⟨.new ..,rfl,rfl,fun _ => rfl,?_,nofun,nofun,nofun,nofun,
    nofun,nofun,nofun⟩,nofun⟩
  intro slot _
  exact ⟨⟨nofun,nofun,nofun⟩,⟨nofun,nofun,nofun,fun _ => ⟨rfl,rfl,rfl,rfl⟩,nofun,nofun,nofun,nofun,
    nofun,nofun⟩⟩

omit [DecidableEq V] in
/-- One node and what it sends change; the others keep up. -/
theorem ClusterOk.update {s : Cluster N V} (h : ClusterOk M a s) {a' : Abstract N V}
    (hg : Grows M i a a') (hfl : Floors a') {n : Process V} (hn : NodeOk M a' i n.protocol)
    {pkts : List (Packet N V)}
    (hp : ∀ pkt ∈ pkts, pkt.src ≠ pkt.dst ∧ pkt.msg.sender = M.ids pkt.src ∧
      SentOk a' pkt.src pkt.msg.variant) :
    ClusterOk M a' ⟨Function.update s.nodes i n,s.sent ++ pkts⟩ := by
  refine ⟨fun slot => (h.sound slot).steps (hg.slots slot),hfl,fun j => ?_,fun pkt hpkt => ?_⟩
  · by_cases hj : j = i
    · subst hj
      simp only [Function.update_self]
      exact hn
    · simp only [Function.update_of_ne hj]
      exact (h.nodes j).grows hg hj
  · rcases List.mem_append.mp hpkt with hpkt | hpkt
    · obtain ⟨hne,hsrc,hmsg⟩ := h.packets pkt hpkt
      exact ⟨hne,hsrc,hmsg.grows hg⟩
    · exact hp pkt hpkt

end Run

end Paxos
end Daccord
