import Daccord.PaxosAgreement
import Daccord.PaxosRestart

/-! One value for each proposal number. A proposer moves on to a higher number
before it offers another value; this fails when a late promise changes the value
of phase 2, or when a leader replays a slot under a number the slot has seen. -/
namespace Daccord
namespace Paxos

variable {V : Type} {N : ℕ}

/-- The proposer's side of an instance, without the answers to its offers. -/
def PaxosInstance.side (inst : PaxosInstance V) :=
  (inst.isProposer,inst.proposalNumber,inst.promisesReceived,inst.phase2Value,inst.proposedValue)

/-- One slot of the node `id`: the numbers it has asked promises for, the values
it has offered under its numbers, and where its instance stands. -/
structure Ballot (offered : ProposalNumber → V → Prop) (asked : ProposalNumber → Prop)
    (quorum : ℕ) (id : NodeId) (inst : PaxosInstance V) : Prop where
  idle : inst.isProposer = false → inst.promisesReceived = ∅ ∧ inst.proposalNumber.round = 0 ∧
    (∀ b v, ¬ offered b v) ∧ ∀ b, ¬ asked b
  owner : inst.isProposer = true → inst.proposalNumber.node = id
  asked_le : ∀ b, asked b → b ≤ inst.proposalNumber
  offered_le : ∀ b v, offered b v → b ≤ inst.proposalNumber
  current : ∀ v, offered inst.proposalNumber v →
    (quorum ≤ inst.promisesReceived.card ∧ inst.phase2Value = some v) ∨
    (inst.promisesReceived.card < quorum ∧ inst.proposedValue = some v ∧
      ¬ asked inst.proposalNumber)

section
variable {offered offered' : ProposalNumber → V → Prop} {asked asked' : ProposalNumber → Prop}
  {quorum : ℕ} {id : NodeId} {inst inst' : PaxosInstance V} {n : ProposalNumber} {v : V}

theorem Ballot.new : Ballot (fun _ _ => False) (fun _ => False) quorum id
    (PaxosInstance.new : PaxosInstance V) :=
  ⟨fun _ => ⟨rfl,rfl,fun _ _ => not_false,fun _ => not_false⟩,nofun,nofun,nofun,nofun⟩

theorem Ballot.mono (h : Ballot offered asked quorum id inst)
    (ho : ∀ b v, offered' b v → offered b v) (ha : ∀ b, asked' b → asked b) :
    Ballot offered' asked' quorum id inst := by
  refine ⟨fun hp => ?_,h.owner,fun b hb => h.asked_le b (ha b hb),
    fun b v hv => h.offered_le b v (ho b v hv),fun v hv => ?_⟩
  · obtain ⟨hprom,hround,hoff,hask⟩ := h.idle hp
    exact ⟨hprom,hround,fun b v hv => hoff b v (ho b v hv),fun b hb => hask b (ha b hb)⟩
  · refine (h.current v (ho _ v hv)).imp_right fun hled => ⟨hled.1,hled.2.1,fun hb => ?_⟩
    exact hled.2.2 (ha _ hb)

theorem Ballot.same (h : Ballot offered asked quorum id inst) (hs : inst'.side = inst.side) :
    Ballot offered asked quorum id inst' := by
  simp only [PaxosInstance.side,Prod.mk.injEq] at hs
  obtain ⟨hp,hn,hprom,hval,hown⟩ := hs
  refine ⟨?_,?_,?_,?_,?_⟩
  · rw [hp,hprom,hn]
    exact h.idle
  · rw [hp,hn]
    exact h.owner
  · rw [hn]
    exact h.asked_le
  · rw [hn]
    exact h.offered_le
  · rw [hn,hprom,hval,hown]
    exact h.current

/-- A number above the present one is new to the slot. -/
theorem Ballot.above (h : Ballot offered asked quorum id inst)
    (hn : inst.isProposer = true → inst.proposalNumber < n) :
    (∀ b v, offered b v → b < n) ∧ ∀ b, asked b → b < n := by
  cases hp : inst.isProposer with
  | false =>
    obtain ⟨_,_,hoff,hask⟩ := h.idle hp
    exact ⟨fun b v hv => absurd hv (hoff b v),fun b hb => absurd hb (hask b)⟩
  | true =>
    exact ⟨fun b v hv => (h.offered_le b v hv).trans_lt (hn hp),
      fun b hb => (h.asked_le b hb).trans_lt (hn hp)⟩

theorem Ballot.prepare (h : Ballot offered asked quorum id inst)
    (hn : inst.isProposer = true → inst.proposalNumber < n) (hid : n.node = id)
    (hp : inst'.isProposer = true) (hn' : inst'.proposalNumber = n) :
    Ballot offered (fun b => asked b ∨ b = n) quorum id inst' := by
  obtain ⟨hoff,hask⟩ := h.above hn
  refine ⟨fun hp' => ?_,fun _ => hn' ▸ hid,fun b hb => ?_,fun b v hv => ?_,fun v hv => ?_⟩
  · rw [hp] at hp'
    cases hp'
  · rw [hn']
    exact hb.elim (fun hb => (hask b hb).le) fun hb => hb.le
  · rw [hn']
    exact (hoff b v hv).le
  · rw [hn'] at hv
    exact absurd (hoff n v hv) (lt_irrefl n)

theorem Ballot.lead (h : Ballot offered asked quorum id inst)
    (hn : inst.isProposer = true → inst.proposalNumber < n) (hid : n.node = id)
    (hp : inst'.isProposer = true) (hn' : inst'.proposalNumber = n)
    (hv : inst'.proposedValue = some v) (hq : inst'.promisesReceived.card < quorum) :
    Ballot (fun b w => offered b w ∨ (b = n ∧ w = v)) asked quorum id inst' := by
  obtain ⟨hoff,hask⟩ := h.above hn
  refine ⟨fun hp' => ?_,fun _ => hn' ▸ hid,fun b hb => ?_,fun b w hw => ?_,fun w hw => ?_⟩
  · rw [hp] at hp'
    cases hp'
  · rw [hn']
    exact (hask b hb).le
  · rw [hn']
    exact hw.elim (fun hw => (hoff b w hw).le) fun hw => hw.1.le
  · rw [hn'] at hw
    rcases hw with hw | ⟨_,rfl⟩
    · exact absurd (hoff n w hw) (lt_irrefl n)
    · refine Or.inr ⟨hq,hv,?_⟩
      rw [hn']
      exact fun hb => lt_irrefl n (hask n hb)

theorem Ballot.offer (h : Ballot offered asked quorum id inst) (hp : inst.isProposer = true)
    (hv : inst.phase2Value = some v) (hq : quorum ≤ inst.promisesReceived.card) :
    Ballot (fun b w => offered b w ∨ (b = inst.proposalNumber ∧ w = v)) asked quorum id inst := by
  refine ⟨fun hp' => ?_,h.owner,h.asked_le,fun b w hw => ?_,fun w hw => ?_⟩
  · rw [hp] at hp'
    cases hp'
  · exact hw.elim (h.offered_le b w) fun hw => hw.1.le
  · rcases hw with hw | ⟨_,rfl⟩
    · exact h.current w hw
    · exact Or.inl ⟨hq,hv⟩

/-- What was offered under the present number is the value of phase 2. -/
theorem Ballot.offered_eq (h : Ballot offered asked quorum id inst)
    (hv : inst.phase2Value = some v) (hq : quorum ≤ inst.promisesReceived.card) {w : V}
    (hw : offered inst.proposalNumber w) : w = v := by
  rcases h.current w hw with ⟨_,hval⟩ | ⟨hlt,_⟩
  · exact Option.some.inj (hval.symm.trans hv)
  · exact absurd hq hlt.not_ge

theorem Ballot.isProposer (h : Ballot offered asked quorum id inst) (h0 : 1 ≤ quorum)
    (hq : quorum ≤ inst.promisesReceived.card) : inst.isProposer = true := by
  by_contra hp
  rw [((h.idle (by simpa using hp)).1),Finset.card_empty] at hq
  omega

theorem Ballot.count (h : Ballot offered asked quorum id inst) (hround : 1 ≤ inst.proposalNumber.round)
    (hasked : inst.proposalNumber.node = id → asked inst.proposalNumber) {sender : NodeId}
    {accepted : Option (ProposalNumber × V)}
    (hlate : quorum ≤ inst.promisesReceived.card →
      (inst.recordPromise sender accepted).phase2Value = inst.phase2Value) :
    Ballot offered asked quorum id (inst.recordPromise sender accepted) := by
  have hp : inst.isProposer = true := by
    by_contra hp
    have := (h.idle (by simpa using hp)).2.1
    omega
  refine ⟨fun hp' => ?_,h.owner,h.asked_le,h.offered_le,fun v hv => ?_⟩
  · change inst.isProposer = false at hp'
    rw [hp] at hp'
    cases hp'
  · rcases h.current v hv with ⟨hq,hval⟩ | ⟨_,_,hno⟩
    · refine Or.inl ⟨hq.trans (Finset.card_le_card (Finset.subset_insert _ _)),?_⟩
      rw [hlate hq]
      exact hval
    · exact absurd (hasked (h.owner hp)) hno

end

/-- What `p` has offered in a slot, in a message of `mine` or to itself. -/
def Offers (mine : PaxosMessage V → Prop) (p : PaxosProtocol V) (slot : ℕ) (b : ProposalNumber)
    (v : V) : Prop :=
  mine (.accept slot b v) ∨ (b.node = p.nodeId ∧ ⟨slot,b,v⟩ ∈ p.record.votes)

/-- A node that has sent `mine`, where `world` has been sent by anybody. -/
structure Ballots (world mine : PaxosMessage V → Prop) (p : PaxosProtocol V) : Prop where
  owned : ∀ {slot b v}, Offers mine p slot b v → b.node = p.nodeId
  asked : ∀ {slot b}, mine (.prepare slot b) → b.node = p.nodeId ∧ 1 ≤ b.round
  unique : ∀ {slot b v w}, Offers mine p slot b v → Offers mine p slot b w → v = w
  heard : ∀ x ∈ p.record.votes, x.number.node = p.nodeId ∨ world (.accept x.slot x.number x.value)
  slots : ∀ {slot}, slot ∉ p.decidedSlots → Ballot (Offers mine p slot)
    (fun b => mine (.prepare slot b)) p.quorumSize p.nodeId (p.instanceAt slot)

def Sent (mine : PaxosMessage V → Prop) (out : List (Outgoing (PaxosMessage V)))
    (msg : PaxosMessage V) : Prop :=
  mine msg ∨ ∃ o ∈ out, o.message = msg

theorem Sent.append {mine : PaxosMessage V → Prop} {out out' : List (Outgoing (PaxosMessage V))}
    {msg : PaxosMessage V} (h : Sent mine (out ++ out') msg) : Sent (Sent mine out) out' msg := by
  rcases h with hm | ⟨o,ho,heq⟩
  · exact Or.inl (Or.inl hm)
  · rcases List.mem_append.mp ho with ho | ho
    · exact Or.inl (Or.inr ⟨o,ho,heq⟩)
    · exact Or.inr ⟨o,ho,heq⟩

/-- Neither a request for promises nor an offer. -/
def Idle : PaxosMessage V → Prop
  | .prepare .. | .accept .. => False
  | _ => True

theorem Idle.not_accept {msg : PaxosMessage V} (h : Idle msg) (s : ℕ) (b : ProposalNumber) (v : V) :
    msg ≠ .accept s b v := by
  rintro rfl
  exact h.elim

theorem Idle.single {target : SendTarget} {msg : PaxosMessage V} (h : Idle msg) :
    ∀ o ∈ [(⟨target,msg⟩ : Outgoing (PaxosMessage V))], Idle o.message :=
  List.forall_mem_singleton.mpr h

theorem Aside.idle {p : PaxosProtocol V} {msg : PaxosMessage V} (h : Aside p msg) : Idle msg := by
  cases msg <;> first | exact h.elim | exact trivial

section
variable {world mine mine' : PaxosMessage V → Prop} {p q : PaxosProtocol V} {slot : ℕ}
  {n : ProposalNumber} {v : V} {env : PaxosEnv} {input : Input V}
  {out : List (Outgoing (PaxosMessage V))}

/-- What is offered after something has happened in one slot. -/
theorem Offers.sent {s : ℕ} {b : ProposalNumber} (h : Offers (Sent mine out) q s b v) (slot : ℕ)
    (O : ProposalNumber → V → Prop) (hid : q.nodeId = p.nodeId)
    (hout : ∀ o ∈ out, ∀ s b v, o.message = .accept s b v → s = slot ∧ O b v)
    (hvotes : ∀ x ∈ q.record.votes, x ∈ p.record.votes ∨ (x.slot = slot ∧ O x.number x.value) ∨
      x.number.node ≠ p.nodeId) : Offers mine p s b v ∨ (s = slot ∧ O b v) := by
  rcases h with (hm | ⟨o,ho,heq⟩) | ⟨hb,hx⟩
  · exact Or.inl (Or.inl hm)
  · exact Or.inr (hout o ho s b v heq)
  · rw [hid] at hb
    rcases hvotes _ hx with hx | hx | hx
    · exact Or.inl (Or.inr ⟨hb,hx⟩)
    · exact Or.inr hx
    · exact absurd hb hx

theorem Offers.quiet {s : ℕ} {b : ProposalNumber} (h : Offers (Sent mine out) q s b v)
    (hid : q.nodeId = p.nodeId) (hout : ∀ o ∈ out, ∀ s b v, o.message ≠ .accept s b v)
    (hvotes : ∀ x ∈ q.record.votes, x ∈ p.record.votes ∨ x.number.node ≠ p.nodeId) :
    Offers mine p s b v := by
  refine (h.sent 0 (fun _ _ => False) hid (fun o ho s b v heq => ?_)
    fun x hx => (hvotes x hx).imp_right Or.inr).resolve_right And.right
  exact absurd heq (hout o ho s b v)

theorem Ballots.mono {world' : PaxosMessage V → Prop} (h : Ballots world mine p)
    (hw : ∀ m, world m → world' m) (hm : ∀ m, mine' m → mine m) : Ballots world' mine' p := by
  have hoff : ∀ {slot b v}, Offers mine' p slot b v → Offers mine p slot b v :=
    fun ho => ho.imp_left (hm _)
  refine ⟨fun ho => h.owned (hoff ho),fun ha => h.asked (hm _ ha),
    fun hv hw => h.unique (hoff hv) (hoff hw),fun x hx => (h.heard x hx).imp_right (hw _),
    fun hs => ?_⟩
  exact (h.slots hs).mono (fun _ _ => hoff) fun _ => hm _

/-- Something happens in one slot: what is offered there, and what is asked. -/
theorem Ballots.update (h : Ballots world mine p) (hk : Keeps p q) (slot : ℕ)
    {O : ProposalNumber → V → Prop} {A : ProposalNumber → Prop}
    (hside : ∀ {s}, s ≠ slot → s ∉ q.decidedSlots → (q.instanceAt s).side = (p.instanceAt s).side)
    (hout : ∀ o ∈ out, ∀ s b, (o.message = .prepare s b → s = slot ∧ A b) ∧
      ∀ v, o.message = .accept s b v → s = slot ∧ O b v)
    (hvotes : ∀ x ∈ q.record.votes, x ∈ p.record.votes ∨ (x.slot = slot ∧ O x.number x.value) ∨
      (x.number.node ≠ p.nodeId ∧ world (.accept x.slot x.number x.value)))
    (hnew : ∀ {b v}, O b v → b.node = p.nodeId ∧
      ∀ w, Offers mine p slot b w ∨ O b w → w = v)
    (hasks : ∀ {b}, A b → b.node = p.nodeId ∧ 1 ≤ b.round)
    (hslot : slot ∉ q.decidedSlots → Ballot (fun b v => Offers mine p slot b v ∨ O b v)
      (fun b => mine (.prepare slot b) ∨ A b) p.quorumSize p.nodeId (q.instanceAt slot)) :
    Ballots world (Sent mine out) q := by
  have hoff : ∀ {s b v}, Offers (Sent mine out) q s b v →
      Offers mine p s b v ∨ (s = slot ∧ O b v) := fun ho =>
    ho.sent slot O hk.nodeId (fun o ho s b => (hout o ho s b).2) fun x hx =>
      (hvotes x hx).imp_right fun hx => hx.imp_right And.left
  have hask : ∀ {s b}, Sent mine out (.prepare s b) → mine (.prepare s b) ∨ (s = slot ∧ A b) := by
    rintro s b (hm | ⟨o,ho,heq⟩)
    · exact Or.inl hm
    · exact Or.inr ((hout o ho s b).1 heq)
  refine ⟨fun ho => ?_,fun ha => ?_,fun {s b v w} hv hw => ?_,fun x hx => ?_,fun {s} hs => ?_⟩
  · rw [hk.nodeId]
    exact (hoff ho).elim h.owned fun ho => (hnew ho.2).1
  · rw [hk.nodeId]
    exact (hask ha).elim h.asked fun ha => hasks ha.2
  · rcases hoff hv with hv | ⟨rfl,hv⟩
    · rcases hoff hw with hw | ⟨rfl,hw⟩
      · exact h.unique hv hw
      · exact (hnew hw).2 v (Or.inl hv)
    · exact ((hnew hv).2 w ((hoff hw).imp_right And.right)).symm
  · rw [hk.nodeId]
    rcases hvotes x hx with hx | ⟨_,hx⟩ | ⟨_,hx⟩
    · exact h.heard x hx
    · exact Or.inl (hnew hx).1
    · exact Or.inr hx
  · rw [hk.quorumSize,hk.nodeId]
    by_cases hne : s = slot
    · subst hne
      exact (hslot hs).mono (fun b v ho => (hoff ho).imp_right And.right)
        fun b ha => (hask ha).imp_right And.right
    · refine ((h.slots fun hd => hs (hk.mem_decided hd)).same (hside hne hs)).mono ?_ ?_
      · exact fun b v ho => (hoff ho).resolve_right fun ho => hne ho.1
      · exact fun b ha => (hask ha).resolve_right fun ha => hne ha.1

theorem Ballots.quiet (h : Ballots world mine p) (hk : Keeps p q)
    (hside : ∀ {s}, s ∉ q.decidedSlots → (q.instanceAt s).side = (p.instanceAt s).side)
    (hout : ∀ o ∈ out, Idle o.message)
    (hvotes : ∀ x ∈ q.record.votes, x ∈ p.record.votes ∨
      (x.number.node ≠ p.nodeId ∧ world (.accept x.slot x.number x.value))) :
    Ballots world (Sent mine out) q := by
  refine h.update hk 0 (O := fun _ _ => False) (A := fun _ => False) (fun _ => hside)
    (fun o ho s b => ?_) (fun x hx => (hvotes x hx).imp_right Or.inr) False.elim False.elim
    fun hs => ?_
  · have hidle := hout o ho
    refine ⟨fun heq => ?_,fun v heq => ?_⟩
    · rw [heq] at hidle
      exact hidle.elim
    · rw [heq] at hidle
      exact hidle.elim
  · refine ((h.slots fun hd => hs (hk.mem_decided hd)).same (hside hs)).mono ?_ ?_
    · exact fun _ _ ho => ho.resolve_right id
    · exact fun _ ha => ha.resolve_right id

theorem Ballots.put (h : Ballots world mine p) (ht : Tidy p) (hs : slot ∉ p.decidedSlots)
    {inst : PaxosInstance V} (hside : inst.side = (p.instanceAt slot).side)
    (hout : ∀ o ∈ out, Idle o.message) :
    Ballots world (Sent mine out) (p.putInstance slot inst) := by
  have hp : inst.isProposer = true → slot < p.nextSlot := by
    rw [show inst.isProposer = (p.instanceAt slot).isProposer from congrArg Prod.fst hside]
    exact ht.proposer
  refine h.quiet (.putInstance ht hs hp) (fun {s} _ => ?_) hout fun x hx => Or.inl hx
  by_cases hne : s = slot
  · subst hne
    rw [PaxosProtocol.instanceAt_putInstance_self]
    exact hside
  · rw [PaxosProtocol.instanceAt_putInstance_ne _ hne]

theorem Ballots.prepare (h : Ballots world mine p) (hk : Keeps p q) {inst : PaxosInstance V}
    (hs : slot ∉ p.decidedSlots) (hq : q.instances = p.instances.insert slot inst)
    (hvotes : q.record.votes = p.record.votes)
    (hn : (p.instanceAt slot).isProposer = true → (p.instanceAt slot).proposalNumber < n)
    (hid : n.node = p.nodeId) (hround : 1 ≤ n.round) (hp : inst.isProposer = true)
    (hn' : inst.proposalNumber = n) (hout : ∀ o ∈ out, o = ⟨.broadcast,.prepare slot n⟩) :
    Ballots world (Sent mine out) q := by
  have hat : ∀ s, q.instanceAt s = (p.putInstance slot inst).instanceAt s := fun s => by
    rw [PaxosProtocol.instanceAt,hq]
    rfl
  refine h.update hk slot (O := fun _ _ => False) (A := fun b => b = n) (fun hne _ => ?_)
    (fun o ho s b => ?_) (fun x hx => Or.inl (hvotes ▸ hx)) False.elim ?_ fun _ => ?_
  · rw [hat,PaxosProtocol.instanceAt_putInstance_ne _ hne]
  · rw [hout o ho]
    refine ⟨fun heq => ?_,fun w heq => ?_⟩
    · cases heq
      exact ⟨rfl,rfl⟩
    · cases heq
  · rintro b rfl
    exact ⟨hid,hround⟩
  · rw [hat,PaxosProtocol.instanceAt_putInstance_self]
    exact ((h.slots hs).prepare hn hid hp hn').mono (fun _ _ ho => ho.resolve_right id) fun _ => id

variable [DecidableEq V]

/-- A slot is decided; its proposals do not matter any more. -/
theorem Ballots.conclude (h : Ballots world mine p) (ht : Tidy p) (hs : slot ∉ p.decidedSlots)
    (hout : ∀ o ∈ out, Idle o.message) :
    Ballots world (Sent mine out) (p.conclude env slot v).1 := by
  have hd := mem_of_lookup (p.lookup_conclude env slot v)
  refine h.quiet (.conclude ht env hs v) (fun {s} hs' => ?_) hout fun x hx => ?_
  · have hne : s ≠ slot := by
      rintro rfl
      exact hs' hd
    rw [(p.conclude_elsewhere env slot v hne).1]
  · rw [p.conclude_votes] at hx
    exact Or.inl hx

theorem PaxosProtocol.selfAccept_out {inst : PaxosInstance V} {o : Outgoing (PaxosMessage V)}
    (ho : o ∈ (p.selfAccept env slot inst n v).2) (s : ℕ) (b : ProposalNumber) :
    o.message ≠ .prepare s b ∧ ∀ w, o.message = .accept s b w → s = slot ∧ b = n ∧ w = v := by
  rcases (p.selfAccept_cases env slot inst n v).2 with ⟨_,heq⟩ | ⟨_,heq⟩
  · rw [heq] at ho
    rw [List.mem_singleton.mp ho]
    exact ⟨nofun,nofun⟩
  · rw [heq] at ho
    rw [List.mem_singleton.mp ho]
    refine ⟨nofun,fun w hw => ?_⟩
    cases hw
    exact ⟨rfl,rfl,rfl⟩

theorem PaxosProtocol.selfAccept_votes {inst : PaxosInstance V} {x : Vote V}
    (hx : x ∈ (p.selfAccept env slot inst n v).1.record.votes) :
    x ∈ p.record.votes ∨ (x.slot = slot ∧ x.number = n ∧ x.value = v) := by
  rw [(p.selfAccept_cases env slot inst n v).1] at hx
  rcases List.mem_append.mp hx with hx | hx
  · exact Or.inl hx
  · rw [List.mem_singleton.mp hx]
    exact Or.inr ⟨rfl,rfl,rfl⟩

/-- An own proposal is voted for under a number that has no other value. -/
theorem Ballots.selfAccept (h : Ballots world mine p) {inst : PaxosInstance V}
    (hk : Keeps p (p.selfAccept env slot inst n v).1) (hid : n.node = p.nodeId)
    (hv : ∀ w, Offers mine p slot n w → w = v)
    (hb : Ballot (fun b w => Offers mine p slot b w ∨ (b = n ∧ w = v))
      (fun b => mine (.prepare slot b)) p.quorumSize p.nodeId inst) :
    Ballots world (Sent mine (p.selfAccept env slot inst n v).2)
      (p.selfAccept env slot inst n v).1 := by
  refine h.update hk slot (O := fun b w => b = n ∧ w = v) (A := fun _ => False)
    (fun hne _ => ?_) (fun o ho s b => ?_) (fun x hx => ?_) ?_ False.elim fun hs => ?_
  · rw [(p.selfAccept_elsewhere env slot inst n v hne).1]
  · obtain ⟨hprep,hacc⟩ := PaxosProtocol.selfAccept_out ho s b
    exact ⟨fun heq => absurd heq hprep,hacc⟩
  · exact (PaxosProtocol.selfAccept_votes hx).imp_right Or.inl
  · rintro b w ⟨rfl,rfl⟩
    exact ⟨hid,fun u hu => hu.elim (hv u) And.right⟩
  · rcases (p.selfAccept_cases env slot inst n v).2 with ⟨hd,_⟩ | ⟨hat,_⟩
    · exact absurd hd hs
    · rw [hat]
      refine Ballot.same (hb.mono (fun _ _ => id) fun _ ha => ha.resolve_right id) ?_
      rfl

structure Heard (world mine : PaxosMessage V → Prop) (id : NodeId) (input : Input V) : Prop where
  promise : ∀ {sender slot b accepted}, input = .message sender (.promise slot b accepted) →
    1 ≤ b.round ∧ (b.node = id → mine (.prepare slot b))
  accept : ∀ {sender slot b v}, input = .message sender (.accept slot b v) →
    b.node ≠ id ∧ world (.accept slot b v)

omit [DecidableEq V] in
theorem Heard.later (h : Heard world mine p.nodeId input) (out : List (Outgoing (PaxosMessage V))) :
    Heard world (Sent mine out) p.nodeId input :=
  ⟨fun hin => ⟨(h.promise hin).1,fun hb => Or.inl ((h.promise hin).2 hb)⟩,h.accept⟩

/-- The slot that is taken next has not been proposed in. -/
theorem Ballots.lead (h : Ballots world mine p) (ht : Tidy p) (h2 : 2 ≤ p.quorumSize) (term : ℕ) :
    Ballots world (Sent mine (p.proposeFastPath env v term).2) (p.proposeFastPath env v term).1 := by
  have hidle := ht.idle (le_refl p.nextSlot)
  have hb := h.slots ht.next_not_decided
  obtain ⟨hprom,_,hoff,_⟩ := hb.idle hidle
  have hp : (p.instanceAt p.nextSlot).isProposer = true →
      (p.instanceAt p.nextSlot).proposalNumber < .mk term p.nodeId := by
    rw [hidle]
    exact nofun
  have halloc : Ballots world mine { p with nextSlot := p.nextSlot + 1 } :=
    ⟨h.owned,h.asked,h.unique,h.heard,h.slots⟩
  refine halloc.selfAccept (.selfAccept ht.allocate env ht.next_not_decided ?_ _ _) rfl ?_ ?_
  · exact fun _ => Nat.lt_succ_self _
  · exact fun w hw => absurd hw (hoff _ w)
  · refine hb.lead hp rfl rfl rfl rfl ?_
    change (insert p.nodeId (p.instanceAt p.nextSlot).promisesReceived).card < p.quorumSize
    rw [hprom]
    exact h2

theorem Ballots.replay (h : Ballots world mine p) (ht : Tidy p) (h2 : 2 ≤ p.quorumSize)
    (hs : slot ∉ p.decidedSlots) (hlt : slot < p.nextSlot) (hid : n.node = p.nodeId)
    (hn : (p.instanceAt slot).isProposer = true → (p.instanceAt slot).proposalNumber < n) :
    Ballots world (Sent mine (p.replayAccept env n (slot,v)).2) (p.replayAccept env n (slot,v)).1 := by
  have hb := h.slots hs
  unfold PaxosProtocol.replayAccept
  rw [if_neg hs]
  refine h.selfAccept (.selfAccept ht env hs (fun _ => hlt) _ _) hid ?_ ?_
  · exact fun w hw => absurd ((hb.above hn).1 _ w hw) (lt_irrefl _)
  · refine hb.lead hn hid rfl rfl rfl ?_
    change ({p.nodeId} : Finset NodeId).card < p.quorumSize
    rw [Finset.card_singleton]
    exact h2

omit [DecidableEq V] in
theorem PaxosProtocol.lt_retryNumber (p : PaxosProtocol V) (inst : PaxosInstance V) :
    inst.proposalNumber < p.retryNumber inst :=
  ProposalNumber.lt_of_round (Nat.lt_succ_of_le (le_max_right _ _))

theorem Move.ballots {R : Rules V} (hR : R.orderly) (h2 : 2 ≤ p.quorumSize) (ht : Tidy p)
    (h : Ballots world mine p) (hin : Heard world mine p.nodeId input)
    (hm : Move R env input p q out) : Ballots world (Sent mine out) q := by
  have hk := hm.keeps ht
  cases hm with
  | aside hq hout =>
    refine h.quiet hk (fun {s} _ => ?_) (fun o ho => (hout o ho).idle) fun x hx => ?_
    · rw [PaxosProtocol.instanceAt,hq.instances]
      rfl
    · exact Or.inl (hq.votes ▸ hx)
  | tend hs hi hout =>
    refine h.put ht hs ?_ fun o ho => (hout o ho).idle
    unfold PaxosInstance.side
    rw [hi.isProposer,hi.proposalNumber,hi.promisesReceived,hi.sameProposal.phase2Value,
      hi.proposedValue]
  | promise _ hs => exact h.put ht hs rfl (Idle.single trivial)
  | @accept sender slot pn value he hs =>
    obtain ⟨hforeign,hw⟩ := hin.accept he
    refine h.quiet hk (fun {s} _ => ?_) (Idle.single trivial) fun x hx => ?_
    · by_cases hne : s = slot
      · subst hne
        rw [PaxosProtocol.instanceAt_noteVote,PaxosProtocol.instanceAt_putInstance_self]
        rfl
      · rw [PaxosProtocol.instanceAt_noteVote,PaxosProtocol.instanceAt_putInstance_ne _ hne]
    · rcases List.mem_append.mp hx with hx | hx
      · exact Or.inl hx
      · rw [List.mem_singleton.mp hx]
        exact Or.inr ⟨hforeign,hw⟩
  | @count sender slot accepted inst he hl hlate =>
    obtain ⟨hround,hasked⟩ := hin.promise he
    have hs := ht.not_decided hl
    have hb := h.slots hs
    rw [PaxosProtocol.instanceAt_of_lookup hl] at hb
    refine h.update hk slot (O := fun _ _ => False) (A := fun _ => False) (fun hne _ => ?_)
      (List.forall_mem_nil _)
      (fun x hx => Or.inl hx) False.elim False.elim fun _ => ?_
    · rw [PaxosProtocol.instanceAt_putInstance_ne _ hne]
    · rw [PaxosProtocol.instanceAt_putInstance_self]
      refine (hb.count hround hasked (hlate (Or.inr hR))).mono ?_ ?_
      · exact fun _ _ ho => ho.resolve_right id
      · exact fun _ ha => ha.resolve_right id
  | phase2 hl hv hq =>
    have hb := h.slots (ht.not_decided hl)
    rw [PaxosProtocol.instanceAt_of_lookup hl] at hb
    have hp := hb.isProposer (by omega) hq
    exact h.selfAccept hk (hb.owner hp) (fun w hw => hb.offered_eq hv hq hw) (hb.offer hp hv hq)
  | @offer slot inst value hl hv hq =>
    have hb := h.slots (ht.not_decided hl)
    rw [PaxosProtocol.instanceAt_of_lookup hl] at hb
    have hp := hb.isProposer (by omega) hq
    refine h.update hk slot (O := fun b w => b = inst.proposalNumber ∧ w = value)
      (A := fun _ => False) (fun _ _ => rfl) (fun o ho s b => ?_) (fun x hx => Or.inl hx) ?_ False.elim
      fun _ => ?_
    · rw [List.mem_singleton.mp ho]
      refine ⟨fun heq => ?_,fun w heq => ?_⟩
      · cases heq
      · cases heq
        exact ⟨rfl,rfl,rfl⟩
    · rintro b w ⟨rfl,rfl⟩
      exact ⟨hb.owner hp,fun u hu => hu.elim (fun hu => hb.offered_eq hv hq hu) And.right⟩
    · rw [PaxosProtocol.instanceAt_of_lookup hl]
      exact (hb.offer hp hv hq).mono (fun _ _ => id) fun _ ha => ha.resolve_right id
  | belated _ hl => exact h.conclude ht (ht.not_decided hl) (Idle.single trivial)
  | tally _ hl =>
    refine h.put ht (ht.not_decided hl) ?_ (List.forall_mem_nil _)
    rw [PaxosProtocol.instanceAt_of_lookup hl]
    rfl
  | settle _ hl => exact h.conclude ht (ht.not_decided hl) (Idle.single trivial)
  | learn _ hs =>
    have hlose : ∀ values, Ballots world mine (p.lose values) :=
      fun _ => ⟨h.owned,h.asked,h.unique,h.heard,h.slots⟩
    exact (hlose _).conclude (Keeps.lose ht _).tidy hs (List.forall_mem_nil _)
  | missing => exact h.quiet hk (fun _ => rfl) (List.forall_mem_nil _) fun x hx => Or.inl hx
  | forward => exact h.quiet hk (fun _ => rfl) (Idle.single trivial) fun x hx => Or.inl hx
  | claim _ _ hout =>
    refine h.prepare hk ht.next_not_decided rfl rfl (fun hp => ?_) rfl le_rfl rfl rfl hout
    exact absurd (ht.proposer hp) (lt_irrefl _)
  | lead => exact h.lead ht h2 _
  | retry hl hp hout =>
    refine h.prepare hk (ht.not_decided hl) rfl rfl (fun _ => ?_) rfl (Nat.le_add_left 1 _) hp rfl hout
    rw [PaxosProtocol.instanceAt_of_lookup hl]
    exact p.lt_retryNumber _
  | campaign _ hout =>
    refine h.quiet hk (fun _ => rfl) (fun o ho => ?_) fun x hx => Or.inl hx
    rw [hout o ho]
    trivial
  | submit _ _ hfree =>
    obtain ⟨_,_,_,heq⟩ := PaxosProtocol.submit_frame ht env _ hfree
    rw [heq] at hk ⊢
    exact h.quiet hk (fun _ => rfl) (Idle.single trivial) fun x hx => Or.inl hx
  | poll => exact h.quiet hk (fun _ => rfl) (List.forall_mem_nil _) fun x hx => Or.inl hx
  | elect => exact h.quiet hk (fun _ => rfl) (List.forall_mem_nil _) fun x hx => Or.inl hx
  | replay hr hv hl ho hs hlt _ horder => exact h.replay ht h2 hs hlt ho (horder hR)

theorem Moves.ballots {R : Rules V} (hR : R.orderly) (h2 : 2 ≤ p.quorumSize) (ht : Tidy p)
    (h : Ballots world mine p) (hin : Heard world mine p.nodeId input)
    (hm : Moves R env input p q out) : Ballots world (Sent mine out) q := by
  induction hm with
  | nil => exact h.mono (fun _ => id) fun _ hm => hm.resolve_right nofun
  | @snoc r r' out out' hm hlast ih =>
    have hk := hm.keeps ht
    have hr := hin.later out
    rw [← hk.nodeId] at hr
    exact (hlast.ballots hR (by rw [hk.quorumSize]; exact h2) hk.tidy ih hr).mono (fun _ => id)
      fun _ => Sent.append

end

def Cluster.Says (s : Cluster N V) (i : Fin N) (msg : PaxosMessage V) : Prop :=
  ∃ pkt ∈ s.sent, pkt.src = i ∧ pkt.msg.variant = msg

def Cluster.Said (s : Cluster N V) (msg : PaxosMessage V) : Prop :=
  ∃ pkt ∈ s.sent, pkt.msg.variant = msg

def Cluster.Offered (s : Cluster N V) (slot : ℕ) (b : ProposalNumber) (v : V) : Prop :=
  s.Said (.accept slot b v) ∨ ∃ i, ⟨slot,b,v⟩ ∈ (s.nodes i).protocol.record.votes

section
variable [DecidableEq V] {M : Membership N} {s s' : Cluster N V} {l : Label V N} {i : Fin N}
  {env : PaxosEnv} {input : Input V}

def OrderlyStep (s : Cluster N V) (l : Label V N) : Prop :=
  CrashFree s l ∧ ∀ t ∈ s.turn l, Orderly (s.nodes t.1).protocol t.2.2

/-- Every node keeps to its ballots, and promises are given on request. -/
structure Balloted (M : Membership N) (s : Cluster N V) : Prop where
  nodes : ∀ i, Tidy (s.nodes i).protocol ∧ (s.nodes i).protocol.nodeId = M.ids i ∧
    (s.nodes i).protocol.quorumSize = N / 2 + 1
  ballots : ∀ i, Ballots s.Said (s.Says i) (s.nodes i).protocol
  away : ∀ pkt ∈ s.sent, pkt.dst ≠ pkt.src
  promises : ∀ {slot b accepted}, s.Said (.promise slot b accepted) → s.Said (.prepare slot b)

omit [DecidableEq V] in
theorem Balloted.init (M : Membership N) (env : PaxosEnv) :
    Balloted M (Cluster.init M env : Cluster N V) := by
  have hnone : ∀ msg, ¬ (Cluster.init M env : Cluster N V).Said msg := by
    rintro msg ⟨pkt,hpkt,_⟩
    cases hpkt
  have hmute : ∀ i msg, ¬ (Cluster.init M env : Cluster N V).Says i msg := by
    rintro i msg ⟨pkt,hpkt,_⟩
    cases hpkt
  refine ⟨fun i => ⟨Cluster.init_tidy M env i,rfl,rfl⟩,fun i => ?_,nofun,
    fun hp => absurd hp (hnone _)⟩
  have hoff : ∀ {slot b v}, ¬ Offers ((Cluster.init M env : Cluster N V).Says i)
      ((Cluster.init M env : Cluster N V).nodes i).protocol slot b v := by
    rintro slot b v (hm | ⟨_,hx⟩)
    · exact hmute i _ hm
    · cases hx
  refine ⟨fun ho => absurd ho hoff,fun ha => absurd ha (hmute i _),fun ho => absurd ho hoff,nofun,
    fun _ => ?_⟩
  exact Ballot.new.mono (fun _ _ => hoff) fun _ => hmute i _

omit [DecidableEq V] in
/-- The sender of a request or of an offer is known from its number. -/
theorem Balloted.asked (h : Balloted M s) {slot : ℕ} {b : ProposalNumber}
    (hp : s.Said (.prepare slot b)) : 1 ≤ b.round ∧ ∃ j, b.node = M.ids j ∧ s.Says j (.prepare slot b) := by
  obtain ⟨pkt,hpkt,heq⟩ := hp
  have hsent : s.Says pkt.src (.prepare slot b) := ⟨pkt,hpkt,rfl,heq⟩
  obtain ⟨hnode,hround⟩ := (h.ballots pkt.src).asked hsent
  exact ⟨hround,pkt.src,hnode.trans (h.nodes pkt.src).2.1,hsent⟩

omit [DecidableEq V] in
theorem Balloted.offered (h : Balloted M s) {slot : ℕ} {b : ProposalNumber} {v : V}
    (ho : s.Offered slot b v) :
    ∃ j, b.node = M.ids j ∧ Offers (s.Says j) (s.nodes j).protocol slot b v := by
  have hsaid : s.Said (.accept slot b v) →
      ∃ j, b.node = M.ids j ∧ Offers (s.Says j) (s.nodes j).protocol slot b v := by
    rintro ⟨pkt,hpkt,heq⟩
    have hoff : Offers (s.Says pkt.src) (s.nodes pkt.src).protocol slot b v :=
      Or.inl ⟨pkt,hpkt,rfl,heq⟩
    exact ⟨pkt.src,((h.ballots pkt.src).owned hoff).trans (h.nodes pkt.src).2.1,hoff⟩
  rcases ho with ho | ⟨i,hi⟩
  · exact hsaid ho
  · rcases (h.ballots i).heard _ hi with hown | hw
    · exact ⟨i,hown.trans (h.nodes i).2.1,Or.inr ⟨hown,hi⟩⟩
    · exact hsaid hw

omit [DecidableEq V] in
theorem Balloted.heard (h : Balloted M s) (ht : s.turn l = some (i,env,input)) :
    Heard s.Said (s.Says i) (s.nodes i).protocol.nodeId input := by
  rw [(h.nodes i).2.1]
  refine ⟨?_,?_⟩
  · rintro sender slot b accepted rfl
    obtain ⟨src,hsrc⟩ := Cluster.turn_message ht
    obtain ⟨hround,j,hj,hsent⟩ := h.asked (h.promises ⟨_,hsrc,rfl⟩)
    refine ⟨hround,fun hb => ?_⟩
    have hji : j = i := M.distinct (hj.symm.trans hb)
    exact hji ▸ hsent
  · rintro sender slot b v rfl
    obtain ⟨src,hsrc⟩ := Cluster.turn_message ht
    have hsaid : s.Said (.accept slot b v) := ⟨_,hsrc,rfl⟩
    refine ⟨fun hb => ?_,hsaid⟩
    have hown := (h.ballots src).owned (Or.inl ⟨_,hsrc,rfl,rfl⟩)
    rw [(h.nodes src).2.1,hb] at hown
    exact h.away _ hsrc (M.distinct hown)

omit [DecidableEq V] in
theorem Cluster.Says.said {msg : PaxosMessage V} (h : s.Says i msg) : s.Said msg := by
  obtain ⟨pkt,hpkt,_,heq⟩ := h
  exact ⟨pkt,hpkt,heq⟩

theorem Cluster.Says.take {msg : PaxosMessage V} {j : Fin N}
    (h : (s.take M i env input).Says j msg) : s.Says j msg ∨
      (j = i ∧ ∃ o ∈ ((s.nodes i).protocol.handle env input).2, o.message = msg) := by
  obtain ⟨pkt,hpkt,hsrc,heq⟩ := h
  rcases List.mem_append.mp hpkt with hpkt | hpkt
  · exact Or.inl ⟨pkt,hpkt,hsrc,heq⟩
  · obtain ⟨o,ho,hi,_,hmsg⟩ := mem_packets hpkt
    refine Or.inr ⟨hsrc.symm.trans hi,o,ho,?_⟩
    rw [← heq,hmsg]

theorem Balloted.take (h : Balloted M s) (hN : 2 ≤ N) (ht : s.turn l = some (i,env,input))
    (ho : Orderly (s.nodes i).protocol input) : Balloted M (s.take M i env input) := by
  obtain ⟨htidy,hident,hquorum⟩ := h.nodes i
  have h2 : 2 ≤ (s.nodes i).protocol.quorumSize := by omega
  have hmoves := handle_moves ⟨False,False,True,False,False,fun _ _ => True,0⟩ env input htidy
    ⟨False.elim,False.elim,fun _ => ho,False.elim,False.elim,fun _ => h2,fun _ _ _ => trivial,Nat.zero_le _⟩
  have hk := hmoves.keeps htidy
  have hsaid : ∀ msg, s.Said msg → (s.take M i env input).Said msg := by
    rintro msg ⟨pkt,hpkt,heq⟩
    exact ⟨pkt,List.mem_append_left _ hpkt,heq⟩
  refine ⟨fun j => ?_,fun j => ?_,fun pkt hpkt => ?_,fun {slot b accepted} hp => ?_⟩
  · by_cases hji : j = i
    · subst hji
      simp only [Cluster.take,Function.update_self]
      exact ⟨hk.tidy,hk.nodeId.trans hident,hk.quorumSize.trans hquorum⟩
    · simp only [Cluster.take,Function.update_of_ne hji]
      exact h.nodes j
  · by_cases hji : j = i
    · subst hji
      have hb := hmoves.ballots trivial h2 htidy (h.ballots j) (h.heard ht)
      rw [show ((s.take M j env input).nodes j).protocol =
        ((s.nodes j).protocol.handle env input).1 by simp [Cluster.take]]
      exact hb.mono hsaid fun msg hm => hm.take.imp_right And.right
    · rw [show (s.take M i env input).nodes j = s.nodes j from Function.update_of_ne hji _ _]
      exact (h.ballots j).mono hsaid fun msg hm => hm.take.resolve_right fun hm => hji hm.1
  · rcases List.mem_append.mp hpkt with hpkt | hpkt
    · exact h.away pkt hpkt
    · obtain ⟨_,_,hsrc,hdst,_⟩ := mem_packets hpkt
      rw [hsrc]
      exact hdst
  · obtain ⟨pkt,hpkt,heq⟩ := hp
    have hsent : (s.take M i env input).Says pkt.src (.promise slot b accepted) :=
      ⟨pkt,hpkt,rfl,heq⟩
    rcases hsent.take with hold | ⟨_,o,ho',hmsg⟩
    · exact hsaid _ (h.promises hold.said)
    · have hreq : OnRequest input o.message := hmoves.onRequest o ho'
      rw [hmsg] at hreq
      obtain ⟨sender,rfl⟩ := hreq
      obtain ⟨src,hsrc⟩ := Cluster.turn_message ht
      exact hsaid _ ⟨_,hsrc,rfl⟩

theorem Balloted.step (hN : 2 ≤ N) (h : Balloted M s) (hok : OrderlyStep s l)
    (hs : Cluster.step M s l = some s') : Balloted M s' := by
  rcases Cluster.step_cases hs with ⟨j,env,input,ht,rfl⟩ | ⟨j,_,rfl⟩ | ⟨j,env,incarnation,rfl,_⟩
  · exact h.take hN ht (hok.2 _ ht)
  · refine ⟨fun i => ?_,fun i => ?_,h.away,h.promises⟩
    · by_cases hij : i = j
      · subst hij
        simp only [Function.update_self]
        exact (h.nodes i).imp_left fun htidy => (Keeps.drain htidy (s.nodes i).storage).tidy
      · simp only [Function.update_of_ne hij]
        exact h.nodes i
    · by_cases hij : i = j
      · subst hij
        have hb := h.ballots i
        simp only [Function.update_self]
        exact ⟨hb.owned,hb.asked,hb.unique,hb.heard,hb.slots⟩
      · simp only [Function.update_of_ne hij]
        exact h.ballots i
  · exact hok.1.elim

/-- In orderly runs without restarts a proposal number stands for one value in
each slot: in every `Accept` sent so far and in everything accepted so far. -/
theorem one_value_per_number
    (h : Runs.Reaches (Cluster.step M) OrderlyStep (Cluster.init M env) s) {slot : ℕ}
    {b : ProposalNumber} {v w : V} (hv : s.Offered slot b v) (hw : s.Offered slot b w) : v = w := by
  rcases Nat.lt_or_ge N 2 with hN | hN
  · have halone := alone_of_reaches hN (fun _ _ hl => hl.1) h
    have hsettled : ∀ {u}, s.Offered slot b u → ∃ i,
        (s.nodes i).protocol.decidedSlots.lookup slot = some u := by
      rintro u (⟨pkt,hpkt,_⟩ | ⟨i,hi⟩)
      · rw [halone.sent] at hpkt
        cases hpkt
      · exact ⟨i,(halone.nodes i).2.2 _ hi⟩
    obtain ⟨i,hi⟩ := hsettled hv
    obtain ⟨j,hj⟩ := hsettled hw
    have hij : i = j := Fin.ext (by omega)
    subst hij
    exact Option.some.inj (hi.symm.trans hj)
  · have hb : Balloted M s :=
      h.invariant (Balloted M) (.init M env) fun _ _ _ _ ih hok hs => ih.step hN hok hs
    obtain ⟨i,hi,hiv⟩ := hb.offered hv
    obtain ⟨j,hj,hjw⟩ := hb.offered hw
    have hij : i = j := M.distinct (hi.symm.trans hj)
    subst hij
    exact (hb.ballots i).unique hiv hjw

instance (s : Cluster N V) (l : Label V N) : Decidable (OrderlyStep s l) :=
  inferInstanceAs (Decidable
    (CrashFree s l ∧ ∀ t ∈ s.turn l, Orderly (s.nodes t.1).protocol t.2.2))

instance (s : Cluster N V) (msg : PaxosMessage V) : Decidable (s.Said msg) :=
  inferInstanceAs (Decidable (∃ pkt ∈ s.sent, pkt.msg.variant = msg))

end

/-- Node 2 has asked both others for promises in slot 0 at `(1,c)`. Node 1 has
accepted the proposal of node 0 at `(1,a)` before it answers. -/
def competing : List (Label ℕ 3) :=
  [.act 0 (.steady 1) (some 1),.act 2 (.steady 2) (some 5),.deliver 2 (.steady 3),
    .deliver 0 (.steady 4),.deliver 5 (.steady 5),.deliver 6 (.steady 6),.deliver 3 (.steady 7)]

/-- Node 2 hears of the other value before it makes its offer. -/
def informed : Cluster 3 ℕ :=
  Runs.after (Cluster.step (trio false)) OrderlyStep (Cluster.init (trio false) (.steady 0))
    (competing ++ [.deliver 9 (.steady 8),.deliver 4 (.steady 9)]) (by decide +kernel)

theorem one_value_per_number_informed :
    (informed.Said (.accept 0 (.mk 1 ⟨"c",1⟩) 1) ∧ ¬ informed.Said (.accept 0 (.mk 1 ⟨"c",1⟩) 5)) ∧
      ∀ w, informed.Offered 0 (.mk 1 ⟨"c",1⟩) w → 1 = w :=
  ⟨by decide +kernel,fun _ hw => one_value_per_number (M := trio false)
    (Runs.after_reaches .start (by decide +kernel)) (Or.inl (by decide +kernel)) hw⟩

/-- Node 2 makes its offer with the promise of node 0; that of node 1 is late. -/
def misinformed : Cluster 3 ℕ :=
  Runs.after (Cluster.step (trio false)) CrashFree (Cluster.init (trio false) (.steady 0))
    (competing ++ [.deliver 4 (.steady 8),.deliver 9 (.steady 9)]) (by decide +kernel)

theorem number_has_two_values :
    Runs.Reaches (Cluster.step (trio false)) CrashFree (Cluster.init (trio false) (.steady 0))
        misinformed ∧
      (misinformed.Said (.accept 0 (.mk 1 ⟨"c",1⟩) 5) ∧
        misinformed.Said (.accept 0 (.mk 1 ⟨"c",1⟩) 1)) ∧
      ⟨0,.mk 1 ⟨"c",1⟩,5⟩ ∈ (misinformed.nodes 2).protocol.record.votes ∧
      ⟨0,.mk 1 ⟨"c",1⟩,1⟩ ∈ (misinformed.nodes 2).protocol.record.votes :=
  ⟨Runs.after_reaches .start (by decide +kernel),by decide +kernel,by decide +kernel,
    by decide +kernel⟩

end Paxos
end Daccord
