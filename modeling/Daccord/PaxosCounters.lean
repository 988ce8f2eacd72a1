import Daccord.PaxosCandidacy
import Daccord.PaxosSlots

/-! Room for the counters of a Paxos node. A counter is raised by one, or taken over
from a message; after `n` calls with messages that name nothing above `B` no counter
is above `B + n + 1`. -/
namespace Daccord
namespace Paxos

variable {V : Type}

/-- No round that the instance holds is above `n`. -/
structure PaxosInstance.Below (n : ℕ) (inst : PaxosInstance V) : Prop where
  proposal : inst.proposalNumber.round ≤ n
  promised : ∀ x ∈ inst.highestPromised, x.round ≤ n
  nack : ∀ r ∈ inst.highestSeenNack, r ≤ n

structure Office.Below (n : ℕ) (o : Office V) : Prop where
  seen : o.highestSeenRound ≤ n
  term : ∀ {t}, o.leaderState = .leader t → t ≤ n
  election : ∀ {e}, o.election = some e → e.proposalNumber.round ≤ n

/-- A slot that was named in a message or given out. -/
def PaxosProtocol.Known (B : ℕ) (p : PaxosProtocol V) (slot : ℕ) : Prop :=
  slot ≤ B ∨ slot < p.nextSlot

/-- The counters in the `n`th call, which has `m` slots left to give out. -/
structure Fits (B n m : ℕ) (p : PaxosProtocol V) : Prop where
  room : B + 1 + n < 2 ^ 64
  rounds : ∀ slot, (p.instanceAt slot).Below (B + n)
  office : p.office.Below (B + n)
  forwarded : p.forwardedProposals.length + m ≤ n
  next : p.nextSlot + p.forwardedProposals.length + m ≤ B + 1 + n
  slots : ∀ {slot}, slot ∈ p.instances → p.Known B slot
  reports : ∀ {e}, p.election = some e → ∀ r ∈ e.accepted, p.Known B r.1

/-- No counter has gone back. A proposal keeps its round or takes a higher one until
its slot is decided; slots without `S` are left out. -/
structure Raises (S : ℕ → Prop) (p q : PaxosProtocol V) : Prop where
  nextSlot : p.nextSlot ≤ q.nextSlot
  seen : p.highestSeenRound ≤ q.highestSeenRound
  quorum : q.quorumSize = p.quorumSize
  decided : ∀ {slot}, slot ∈ p.decidedSlots → slot ∈ q.decidedSlots
  rounds : ∀ {slot}, S slot → slot ∉ q.decidedSlots → (p.instanceAt slot).isProposer = true →
    (q.instanceAt slot).isProposer = true ∧
      (p.instanceAt slot).proposalNumber.round ≤ (q.instanceAt slot).proposalNumber.round

def Everywhere (_ : ℕ) : Prop := True

/-- A state `p` on the way of a call that began in `p₀`. -/
structure Tracked (B n m : ℕ) (S : ℕ → Prop) (p₀ p : PaxosProtocol V) : Prop where
  fits : Fits B n m p
  raises : Raises S p₀ p

theorem ProposalNumber.round_le {a b : ProposalNumber} (h : a ≤ b) : a.round ≤ b.round := by
  by_contra hlt
  exact absurd (ProposalNumber.lt_of_round (Nat.lt_of_not_le hlt)) h.not_gt

theorem PaxosInstance.Below.new (n : ℕ) : (PaxosInstance.new : PaxosInstance V).Below n :=
  ⟨Nat.zero_le _,nofun,nofun⟩

theorem PaxosInstance.Below.mono {n n' : ℕ} {inst : PaxosInstance V} (h : inst.Below n)
    (hle : n ≤ n') : inst.Below n' :=
  ⟨h.proposal.trans hle,fun x hx => (h.promised x hx).trans hle,
    fun r hr => (h.nack r hr).trans hle⟩

theorem Office.Below.mono {n n' : ℕ} {o : Office V} (h : o.Below n) (hle : n ≤ n') : o.Below n' :=
  ⟨h.seen.trans hle,fun ht => (h.term ht).trans hle,fun he => (h.election he).trans hle⟩

section
variable {B n m : ℕ} {S : ℕ → Prop} {p₀ p q : PaxosProtocol V} {slot : ℕ}
  {inst : PaxosInstance V} {env : PaxosEnv}

theorem PaxosProtocol.Known.mono (h : p.Known B slot) (hle : p.nextSlot ≤ q.nextSlot) :
    q.Known B slot :=
  h.imp_right fun hlt => hlt.trans_le hle

theorem Fits.succ_lt (h : Fits B n m p) (hs : p.Known B slot) : slot + 1 < 2 ^ 64 := by
  have hroom := h.room
  have hnext := h.next
  rcases hs with hs | hs
  · omega
  · omega

theorem Raises.refl (S : ℕ → Prop) (p : PaxosProtocol V) : Raises S p p :=
  ⟨le_rfl,le_rfl,rfl,id,fun _ _ hp => ⟨hp,le_rfl⟩⟩

theorem Raises.trans {r : PaxosProtocol V} (h : Raises S p q) (h' : Raises S q r) :
    Raises S p r := by
  refine ⟨h.nextSlot.trans h'.nextSlot,h.seen.trans h'.seen,h'.quorum.trans h.quorum,
    fun hd => h'.decided (h.decided hd),fun hs hd hp => ?_⟩
  obtain ⟨hq,hle⟩ := h.rounds hs (fun hd' => hd (h'.decided hd')) hp
  obtain ⟨hr,hle'⟩ := h'.rounds hs hd hq
  exact ⟨hr,hle.trans hle'⟩

theorem Tracked.start (h : Fits B n m p) : Tracked B n m Everywhere p p := ⟨h,.refl _ p⟩

theorem Tracked.elsewhere (h : Tracked B n m Everywhere p₀ p) (slot : ℕ) :
    Tracked B n m (· ≠ slot) p₀ p :=
  ⟨h.fits,{ h.raises with rounds := fun _ => h.raises.rounds trivial }⟩

/-- A call may have slots left to give out. -/
theorem Tracked.spare {m' : ℕ} (h : Tracked B n m S p₀ p) (hle : m' ≤ m) :
    Tracked B n m' S p₀ p := by
  have hf := h.fits.forwarded
  have hn := h.fits.next
  exact ⟨{ h.fits with forwarded := by omega, next := by omega },h.raises⟩

theorem Tracked.officed (h : Tracked B n m S p₀ p) (hi : q.instances = p.instances)
    (hn : q.nextSlot = p.nextSlot) (hd : q.decidedSlots = p.decidedSlots)
    (hf : q.forwardedProposals = p.forwardedProposals) (hq : q.quorumSize = p.quorumSize)
    (ho : q.office.Below (B + n)) (hseen : p.highestSeenRound ≤ q.highestSeenRound)
    (hr : ∀ {e}, q.election = some e → ∀ r ∈ e.accepted, p.Known B r.1) :
    Tracked B n m S p₀ q := by
  have hat : ∀ slot, q.instanceAt slot = p.instanceAt slot := by
    intro slot
    rw [PaxosProtocol.instanceAt,hi]
    rfl
  constructor
  · refine ⟨h.fits.room,fun slot => hat slot ▸ h.fits.rounds slot,ho,by rw [hf]; exact h.fits.forwarded,
      by rw [hf,hn]; exact h.fits.next,fun hs => ?_,fun he r hmem => (hr he r hmem).mono hn.ge⟩
    rw [hi] at hs
    exact (h.fits.slots hs).mono hn.ge
  · refine ⟨h.raises.nextSlot.trans hn.ge,h.raises.seen.trans hseen,hq.trans h.raises.quorum,
      fun hs => hd ▸ h.raises.decided hs,fun hs hnot hp => ?_⟩
    rw [hat]
    exact h.raises.rounds hs (hd ▸ hnot) hp

theorem Tracked.aside (h : Tracked B n m S p₀ p) (hi : q.instances = p.instances)
    (hn : q.nextSlot = p.nextSlot) (hd : q.decidedSlots = p.decidedSlots)
    (hf : q.forwardedProposals = p.forwardedProposals) (hq : q.quorumSize = p.quorumSize)
    (ho : q.office = p.office) : Tracked B n m S p₀ q :=
  h.officed hi hn hd hf hq (ho ▸ h.fits.office) (congrArg Office.highestSeenRound ho).ge
    fun he => h.fits.reports ((congrArg Office.election ho).symm.trans he)

/-- The node hears of a round; it may give up its office and its election. -/
theorem Tracked.heard (h : Tracked B n m S p₀ p) {r : ℕ} (hr : r ≤ B)
    (hi : q.instances = p.instances) (hn : q.nextSlot = p.nextSlot)
    (hd : q.decidedSlots = p.decidedSlots) (hf : q.forwardedProposals = p.forwardedProposals)
    (hq : q.quorumSize = p.quorumSize) (hseen : q.highestSeenRound = max p.highestSeenRound r)
    (hl : ∀ {t}, q.leaderState = .leader t → p.leaderState = .leader t)
    (he : ∀ {e}, q.election = some e → p.election = some e) : Tracked B n m S p₀ q := by
  have hle : q.highestSeenRound ≤ B + n := by
    rw [hseen]
    exact max_le h.fits.office.seen (hr.trans (Nat.le_add_right B n))
  have hoffice : q.office.Below (B + n) :=
    ⟨hle,fun ht => h.fits.office.term (hl ht),fun he' => h.fits.office.election (he he')⟩
  exact h.officed hi hn hd hf hq hoffice (hseen ▸ le_max_left _ _)
    fun he' => h.fits.reports (he he')

theorem Tracked.noteVote (h : Tracked B n m S p₀ p) (slot : ℕ) (pn : ProposalNumber) (value : V) :
    Tracked B n m S p₀ (p.noteVote slot pn value) :=
  h.aside rfl rfl rfl rfl rfl rfl

theorem Tracked.panic (h : Tracked B n m S p₀ p) : Tracked B n m S p₀ p.panic.1 :=
  h.aside rfl rfl rfl rfl rfl rfl

theorem Tracked.missValue (h : Tracked B n m S p₀ p) : Tracked B n m S p₀ p.missValue.1 :=
  h.aside rfl rfl rfl rfl rfl rfl

theorem Fits.found (h : Fits B n m p) (hl : p.instances.lookup slot = some inst) :
    inst.Below (B + n) ∧ p.Known B slot :=
  ⟨PaxosProtocol.instanceAt_of_lookup hl ▸ h.rounds slot,h.slots (mem_of_lookup hl)⟩

theorem Fits.put (h : Fits B n m p) (hs : p.Known B slot) (hi : inst.Below (B + n)) :
    Fits B n m (p.putInstance slot inst) := by
  refine { h with rounds := fun s => ?_, slots := fun {s} hmem => ?_ }
  · by_cases hne : s = slot
    · rw [hne,PaxosProtocol.instanceAt_putInstance_self]
      exact hi
    · rw [PaxosProtocol.instanceAt_putInstance_ne p hne]
      exact h.rounds s
  · rcases (AList.mem_insert _).mp hmem with rfl | hmem
    · exact hs
    · exact h.slots hmem

/-- For a while the instance of a slot may be anything. -/
theorem Tracked.putElsewhere (h : Tracked B n m (· ≠ slot) p₀ p) (hs : p.Known B slot)
    (hi : inst.Below (B + n)) : Tracked B n m (· ≠ slot) p₀ (p.putInstance slot inst) := by
  refine ⟨h.fits.put hs hi,{ h.raises with rounds := fun {s} hne hnot hp => ?_ }⟩
  rw [PaxosProtocol.instanceAt_putInstance_ne p hne]
  exact h.raises.rounds hne hnot hp

theorem Tracked.put (h : Tracked B n m (· ≠ slot) p₀ p) (hs : p.Known B slot)
    (hi : inst.Below (B + n)) (hrise : slot ∉ p.decidedSlots →
      (p₀.instanceAt slot).isProposer = true → inst.isProposer = true ∧
        (p₀.instanceAt slot).proposalNumber.round ≤ inst.proposalNumber.round) :
    Tracked B n m Everywhere p₀ (p.putInstance slot inst) := by
  refine ⟨h.fits.put hs hi,{ h.raises with rounds := fun {s} _ hnot hp => ?_ }⟩
  by_cases hne : s = slot
  · subst hne
    rw [PaxosProtocol.instanceAt_putInstance_self]
    exact hrise hnot hp
  · rw [PaxosProtocol.instanceAt_putInstance_ne p hne]
    exact h.raises.rounds hne hnot hp

/-- An instance is changed; it stays a proposal and its round does not fall. -/
theorem Tracked.tend (h : Tracked B n m Everywhere p₀ p) (hs : p.Known B slot)
    (hi : inst.Below (B + n)) (hrise : (p.instanceAt slot).isProposer = true →
      inst.isProposer = true ∧
        (p.instanceAt slot).proposalNumber.round ≤ inst.proposalNumber.round) :
    Tracked B n m Everywhere p₀ (p.putInstance slot inst) := by
  refine (h.elsewhere slot).put hs hi fun hnot hp => ?_
  obtain ⟨hq,hle⟩ := h.raises.rounds trivial hnot hp
  obtain ⟨hi,hle'⟩ := hrise hq
  exact ⟨hi,hle.trans hle'⟩

theorem Tracked.amend {inst' : PaxosInstance V} (h : Tracked B n m Everywhere p₀ p)
    (hl : p.instances.lookup slot = some inst) (hown : inst'.isProposer = inst.isProposer)
    (hnumber : inst'.proposalNumber = inst.proposalNumber)
    (hpromised : inst'.highestPromised = inst.highestPromised)
    (hnack : inst'.highestSeenNack = inst.highestSeenNack) :
    Tracked B n m Everywhere p₀ (p.putInstance slot inst') := by
  obtain ⟨hi,hs⟩ := h.fits.found hl
  refine h.tend hs ⟨hnumber ▸ hi.proposal,hpromised ▸ hi.promised,hnack ▸ hi.nack⟩ fun hp => ?_
  rw [PaxosProtocol.instanceAt_of_lookup hl] at hp ⊢
  exact ⟨hown.trans hp,(congrArg ProposalNumber.round hnumber).ge⟩

theorem Tracked.handlePrepare (h : Tracked B n m Everywhere p₀ p) (sender : NodeId)
    {pn : ProposalNumber} (hs : slot ≤ B) (hpn : pn.round ≤ B) :
    Tracked B n m Everywhere p₀ (p.handlePrepare sender slot pn).1 := by
  have hi := h.fits.rounds slot
  have hput : Tracked B n m Everywhere p₀ (p.putInstance slot
      { p.instanceAt slot with highestPromised := some pn }) := by
    refine h.tend (Or.inl hs) ⟨hi.proposal,?_,hi.nack⟩ fun hp => ⟨hp,le_rfl⟩
    rintro x ⟨⟩
    exact hpn.trans (Nat.le_add_right B n)
  unfold PaxosProtocol.handlePrepare
  split
  · exact h
  · simp only
    split
    · exact hput
    · split
      · exact hput
      · exact h.tend (Or.inl hs) hi fun hp => ⟨hp,le_rfl⟩

theorem Tracked.handleAccept (h : Tracked B n m Everywhere p₀ p) (sender : NodeId)
    {pn : ProposalNumber} (value : V) (hs : slot ≤ B) (hpn : pn.round ≤ B) :
    Tracked B n m Everywhere p₀ (p.handleAccept sender slot pn value).1 := by
  have hi := h.fits.rounds slot
  have hvote : Tracked B n m Everywhere p₀
      ((p.putInstance slot ((p.instanceAt slot).vote pn value)).noteVote slot pn value) := by
    have hput : Tracked B n m Everywhere p₀
        (p.putInstance slot ((p.instanceAt slot).vote pn value)) := by
      refine h.tend (Or.inl hs) ⟨hi.proposal,?_,hi.nack⟩ fun hp => ⟨hp,le_rfl⟩
      rintro x ⟨⟩
      exact hpn.trans (Nat.le_add_right B n)
    exact hput.aside rfl rfl rfl rfl rfl rfl
  unfold PaxosProtocol.handleAccept
  split
  · exact h
  · simp only
    split
    · exact hvote
    · split
      · exact hvote
      · exact h.tend (Or.inl hs) hi fun hp => ⟨hp,le_rfl⟩

theorem Tracked.handleNack (h : Tracked B n m Everywhere p₀ p) {pn : ProposalNumber}
    (hpn : pn.round ≤ B) : Tracked B n m Everywhere p₀ (p.handleNack env slot pn) := by
  have hle : pn.round ≤ B + n := hpn.trans (Nat.le_add_right B n)
  have hoffice : ∀ q : PaxosProtocol V, Tracked B n m Everywhere p₀ q → Tracked B n m Everywhere p₀
      (if q.multi then
        if (q.updateHighestSeenRound pn.round).isLeader then
          (q.updateHighestSeenRound pn.round).stepDown env none
        else q.updateHighestSeenRound pn.round
      else q) := by
    intro q hq
    split_ifs
    · exact hq.heard hpn rfl rfl rfl rfl rfl rfl nofun fun he => he
    · exact hq.heard hpn rfl rfl rfl rfl rfl rfl (fun ht => ht) fun he => he
    · exact hq
  unfold PaxosProtocol.handleNack
  refine hoffice _ ?_
  split
  · exact h
  · rename_i inst hl
    obtain ⟨hi,hs⟩ := h.fits.found hl
    refine h.tend hs ⟨hi.proposal,hi.promised,?_⟩ ?_
    · intro r hr
      cases hn : inst.highestSeenNack with
      | none =>
        simp only [hn] at hr
        cases hr
        exact hle
      | some seen =>
        simp only [hn] at hr
        split at hr
        · cases hr
          exact hle
        · cases hr
          exact hi.nack _ hn
    · rw [PaxosProtocol.instanceAt_of_lookup hl]
      exact fun hp => ⟨hp,le_rfl⟩

section
variable [DecidableEq V]

/-- A decision moves `next_slot` past a slot that is known. -/
theorem Tracked.conclude (h : Tracked B n m (· ≠ slot) p₀ p) (hs : p.Known B slot) (value : V) :
    Tracked B n m Everywhere p₀ (p.conclude env slot value).1 := by
  obtain ⟨forwarded,hsub,heq⟩ := p.conclude_frame env slot value
  have hlen := hsub.length_le
  have hnext := h.fits.next
  have hfew := h.fits.forwarded
  have hmoved : p.nextSlot ≤ (p.conclude env slot value).1.nextSlot := by
    rw [heq]
    change p.nextSlot ≤ if p.nextSlot ≤ slot then slot + 1 else p.nextSlot
    split <;> omega
  constructor
  · refine ⟨h.fits.room,fun s => ?_,?_,?_,?_,fun {s} hmem => ?_,fun he r hmem => ?_⟩
    · by_cases hne : s = slot
      · rw [hne,heq]
        simp only [PaxosProtocol.instanceAt,AList.lookup_erase]
        exact .new _
      · rw [(p.conclude_elsewhere env slot value hne).1]
        exact h.fits.rounds s
    · rw [p.office_conclude]
      exact h.fits.office
    · rw [heq]
      change forwarded.length + m ≤ n
      omega
    · rw [heq]
      change (if p.nextSlot ≤ slot then slot + 1 else p.nextSlot) + forwarded.length + m ≤ B + 1 + n
      rcases hs with hs | hs
      · split <;> omega
      · rw [if_neg (by omega)]
        omega
    · rw [heq] at hmem
      exact (h.fits.slots (AList.mem_erase.mp hmem).2).mono hmoved
    · have hoffice := p.office_conclude env slot value
      exact (h.fits.reports ((congrArg Office.election hoffice).symm.trans he) r hmem).mono hmoved
  · refine ⟨h.raises.nextSlot.trans hmoved,?_,?_,fun {s} hd => ?_,fun {s} _ hnot hp => ?_⟩
    · have hoffice := p.office_conclude env slot value
      exact h.raises.seen.trans (congrArg Office.highestSeenRound hoffice).ge
    · rw [heq]
      exact h.raises.quorum
    · rw [heq]
      exact (AList.mem_insert _).mpr (Or.inr (h.raises.decided hd))
    · have hne : s ≠ slot := by
        rintro rfl
        refine hnot ?_
        rw [heq]
        exact (AList.mem_insert _).mpr (Or.inl rfl)
      rw [(p.conclude_elsewhere env slot value hne).1]
      refine h.raises.rounds hne (fun hd => hnot ?_) hp
      rw [heq]
      exact (AList.mem_insert _).mpr (Or.inr hd)

theorem Tracked.selfAccept (h : Tracked B n m Everywhere p₀ p) (hs : p.Known B slot)
    (hi : inst.Below (B + n)) {pn : ProposalNumber} (hpn : pn.round ≤ B + n) (value : V)
    (hrise : 1 < p.quorumSize → slot ∉ p.decidedSlots → (p₀.instanceAt slot).isProposer = true →
      inst.isProposer = true ∧
        (p₀.instanceAt slot).proposalNumber.round ≤ inst.proposalNumber.round) :
    Tracked B n m Everywhere p₀ (p.selfAccept env slot inst pn value).1 := by
  have hvote : (inst.selfVote p.nodeId pn value).Below (B + n) := by
    refine ⟨hi.proposal,?_,hi.nack⟩
    rintro x ⟨⟩
    exact hpn
  unfold PaxosProtocol.selfAccept
  simp only
  split
  · have hput := (h.elsewhere slot).putElsewhere hs hvote
    exact (hput.noteVote slot pn value).conclude hs value
  · rename_i hlow
    have hmany : 1 < p.quorumSize := by
      have hself : (insert p.nodeId inst.acceptsReceived).card ≠ 0 :=
        Finset.card_ne_zero.mpr (Finset.insert_nonempty _ _)
      change ¬ p.quorumSize ≤ (insert p.nodeId inst.acceptsReceived).card at hlow
      omega
    have hput := (h.elsewhere slot).put hs hvote (hrise hmany)
    exact hput.noteVote slot pn value

theorem Tracked.startPhase2 (h : Tracked B n m Everywhere p₀ p) (slot : ℕ) :
    Tracked B n m Everywhere p₀ (p.startPhase2 env slot).1 := by
  unfold PaxosProtocol.startPhase2
  cases hl : p.instances.lookup slot with
  | none => exact h.panic
  | some inst =>
    have hat := PaxosProtocol.instanceAt_of_lookup hl
    obtain ⟨hi,hs⟩ := h.fits.found hl
    simp only
    cases inst.phase2Value with
    | none => exact h.missValue
    | some value =>
      simp only
      split
      · refine h.selfAccept hs hi hi.proposal value fun _ hnot hp => ?_
        rw [← hat]
        exact h.raises.rounds trivial hnot hp
      · split
        · exact (h.elsewhere slot).conclude hs value
        · exact h

theorem Tracked.handlePromise (h : Tracked B n m Everywhere p₀ p) (sender : NodeId)
    (pn : ProposalNumber) (accepted : Option (ProposalNumber × V)) :
    Tracked B n m Everywhere p₀ (p.handlePromise env sender slot pn accepted).1 := by
  unfold PaxosProtocol.handlePromise
  split
  · exact h
  · cases hl : p.instances.lookup slot with
    | none => exact h
    | some inst =>
      have hput : Tracked B n m Everywhere p₀
          (p.putInstance slot (inst.recordPromise sender accepted)) := h.amend hl rfl rfl rfl rfl
      simp only
      split
      · split
        · exact hput.startPhase2 slot
        · exact hput
      · exact h

theorem Tracked.handleAccepted (h : Tracked B n m Everywhere p₀ p) (sender : NodeId)
    (pn : ProposalNumber) (value : V) :
    Tracked B n m Everywhere p₀ (p.handleAccepted env sender slot pn value).1 := by
  unfold PaxosProtocol.handleAccepted
  split
  · exact h
  · cases hl : p.instances.lookup slot with
    | none => exact h
    | some inst =>
      obtain ⟨hi,hs⟩ := h.fits.found hl
      have hput : ∀ accepted, Tracked B n m Everywhere p₀ (p.putInstance slot { inst with
          acceptsReceived := insert sender inst.acceptsReceived
          accepted := accepted }) := fun accepted => h.amend hl rfl rfl rfl rfl
      simp only
      split
      · split
        · cases inst.accepted with
          | none => exact (hput none).panic
          | some a =>
            refine Tracked.conclude ((h.elsewhere slot).putElsewhere hs ?_) hs a.2
            exact ⟨hi.proposal,hi.promised,hi.nack⟩
        · exact hput _
      · exact h

theorem Tracked.handleDecide (h : Tracked B n m Everywhere p₀ p) (sender : NodeId) (value : V)
    (hs : slot ≤ B) : Tracked B n m Everywhere p₀ (p.handleDecide env sender slot value) := by
  have hp : Tracked B n m Everywhere p₀ (if p.multi then p.touchLeader env sender else p) := by
    unfold PaxosProtocol.touchLeader
    split_ifs
    · split
      · split
        · exact h.officed rfl rfl rfl rfl rfl
            ⟨h.fits.office.seen,nofun,h.fits.office.election⟩ le_rfl h.fits.reports
        · exact h
      · exact h
    · exact h
  unfold PaxosProtocol.handleDecide
  simp only
  generalize (if p.multi then p.touchLeader env sender else p) = q at hp
  split
  · exact hp
  · have hlost : Tracked B n m Everywhere p₀ (q.lose (q.outvoted slot value)) :=
      hp.aside rfl rfl rfl rfl rfl rfl
    exact (hlost.elsewhere slot).conclude (Or.inl hs) value

omit [DecidableEq V] in
theorem Tracked.allocate (h : Tracked B n (m + 1) S p₀ p) :
    Tracked B n m S p₀ { p with nextSlot := p.nextSlot + 1 } := by
  have hmoved : p.nextSlot ≤ p.nextSlot + 1 := Nat.le_succ _
  have hfew := h.fits.forwarded
  have hnext := h.fits.next
  constructor
  · refine ⟨h.fits.room,h.fits.rounds,h.fits.office,?_,?_,fun hs => (h.fits.slots hs).mono hmoved,
      fun he r hr => (h.fits.reports he r hr).mono hmoved⟩
    · change p.forwardedProposals.length + m ≤ n
      omega
    · change p.nextSlot + 1 + p.forwardedProposals.length + m ≤ B + 1 + n
      omega
  · exact { h.raises with nextSlot := h.raises.nextSlot.trans hmoved }

omit [DecidableEq V] in
theorem Tracked.unclaimed (h : Tracked B n m S p₀ p)
    (hown : ∀ {slot}, (p₀.instanceAt slot).isProposer = true → slot < p₀.nextSlot) :
    ¬ (p₀.instanceAt p.nextSlot).isProposer = true :=
  fun hp => absurd (hown hp) h.raises.nextSlot.not_gt

theorem Tracked.proposeFullPaxos (h : Tracked B n (m + 1) Everywhere p₀ p)
    (hown : ∀ {slot}, (p₀.instanceAt slot).isProposer = true → slot < p₀.nextSlot) (value : V) :
    Tracked B n m Everywhere p₀ (p.proposeFullPaxos env value).1 := by
  have hfirst : 1 ≤ B + n := by
    have hfew := h.fits.forwarded
    omega
  have hi := h.fits.rounds p.nextSlot
  have hput : Tracked B n m Everywhere p₀ (PaxosProtocol.putInstance
      { p with nextSlot := p.nextSlot + 1 } p.nextSlot
      (PaxosProtocol.prepared env { p with nextSlot := p.nextSlot + 1 } p.nextSlot
        (.mk 1 p.nodeId) value)) := by
    refine (h.allocate.elsewhere p.nextSlot).put (Or.inr (Nat.lt_succ_self _))
      ⟨hfirst,?_,hi.nack⟩ fun _ hp => absurd hp (h.unclaimed hown)
    rintro x ⟨⟩
    exact hfirst
  unfold PaxosProtocol.proposeFullPaxos
  simp only
  split
  · exact hput.startPhase2 p.nextSlot
  · exact hput

theorem Tracked.proposeFastPath (h : Tracked B n (m + 1) Everywhere p₀ p)
    (hown : ∀ {slot}, (p₀.instanceAt slot).isProposer = true → slot < p₀.nextSlot) (value : V)
    {term : ℕ} (hl : p.leaderState = .leader term) :
    Tracked B n m Everywhere p₀ (p.proposeFastPath env value term).1 := by
  have hterm : term ≤ B + n := h.fits.office.term hl
  have hi := h.fits.rounds p.nextSlot
  have hclaim : (PaxosProtocol.fastTracked env { p with nextSlot := p.nextSlot + 1 } p.nextSlot
      (.mk term p.nodeId) value).Below (B + n) := ⟨hterm,hi.promised,hi.nack⟩
  unfold PaxosProtocol.proposeFastPath
  refine h.allocate.selfAccept (Or.inr (Nat.lt_succ_self _)) hclaim ?_ value
    fun _ _ hp => absurd hp (h.unclaimed hown)
  exact hterm

theorem Tracked.innerPropose (h : Tracked B n (m + 1) Everywhere p₀ p)
    (hown : ∀ {slot}, (p₀.instanceAt slot).isProposer = true → slot < p₀.nextSlot) (value : V) :
    Tracked B n m Everywhere p₀ (p.innerPropose env value).1 := by
  unfold PaxosProtocol.innerPropose
  split
  · cases hl : p.leaderState with
    | leader term => exact h.proposeFastPath hown value hl
    | follower => exact h.proposeFullPaxos hown value
    | candidate => exact h.proposeFullPaxos hown value
  · exact h.proposeFullPaxos hown value

omit [DecidableEq V] in
/-- The round of a retry is one above a round that the instance holds. -/
theorem PaxosInstance.Below.retryNumber {inst : PaxosInstance V} (h : inst.Below n) :
    max (max ((inst.highestPromised.map ProposalNumber.round).getD 0)
      (inst.highestSeenNack.getD 0)) inst.proposalNumber.round ≤ n := by
  refine max_le (max_le ?_ ?_) h.proposal
  · cases hp : inst.highestPromised with
    | none => exact Nat.zero_le _
    | some x => exact h.promised x hp
  · cases hp : inst.highestSeenNack with
    | none => exact Nat.zero_le _
    | some r => exact h.nack r hp

theorem Tracked.retryProposal (h : Tracked B (n + 1) m Everywhere p₀ p) (slot : ℕ)
    (hlow : (p.instanceAt slot).Below (B + n)) :
    Tracked B (n + 1) m Everywhere p₀ (p.retryProposal env slot).1 := by
  unfold PaxosProtocol.retryProposal
  cases hl : p.instances.lookup slot with
  | none => exact h
  | some inst =>
    have hat := PaxosProtocol.instanceAt_of_lookup hl
    rw [hat] at hlow
    have hround : (p.retryNumber inst).round ≤ B + (n + 1) := Nat.succ_le_succ hlow.retryNumber
    have hput : Tracked B (n + 1) m Everywhere p₀
        (p.putInstance slot (p.retried env slot inst)) := by
      refine h.tend (h.fits.slots (mem_of_lookup hl)) ⟨hround,?_,nofun⟩ fun hp => ?_
      · rintro x ⟨⟩
        exact hround
      · rw [hat] at hp ⊢
        exact ⟨hp,(le_max_right _ _).trans (Nat.le_succ _)⟩
    simp only
    split
    · split
      · exact hput.startPhase2 slot
      · exact hput
    · exact h

/-- The rounds of a tick are one above rounds from before it: no slot is retried
twice. -/
theorem Tracked.retries (h : Tracked B (n + 1) m Everywhere p p)
    (hlow : ∀ slot, (p.instanceAt slot).Below (B + n)) :
    Tracked B (n + 1) m Everywhere p
      (runAll (PaxosProtocol.retryProposal env) p (p.getRetryableProposals env)).1 := by
  have hnodup : (p.getRetryableProposals env).Nodup :=
    ((List.perm_insertionSort _ _).nodup_iff.mpr p.instances.keys_nodup).filter _
  refine (runAll_rest (fun rest q => rest.Nodup ∧ Tracked B (n + 1) m Everywhere p q ∧
    ∀ slot' ∈ rest, q.instanceAt slot' = p.instanceAt slot') ?_ ⟨hnodup,h,fun _ _ => rfl⟩).2.1
  rintro slot rest q ⟨hnd,hq,hsame⟩
  obtain ⟨hnotin,hnd⟩ := List.nodup_cons.mp hnd
  refine ⟨hnd,hq.retryProposal slot (hsame slot (.head _) ▸ hlow slot),fun slot' hmem => ?_⟩
  have hne : slot' ≠ slot := fun heq => hnotin (heq ▸ hmem)
  exact ((Touches.retryProposal q env slot).elsewhere hne).trans (hsame slot' (.tail _ hmem))

omit [DecidableEq V] in
/-- All slots that the node may step over are known. -/
theorem Fits.spans (h : Fits B n m p) : Spans (max p.nextSlot (B + 1)) p := by
  have hknown : ∀ {slot}, p.Known B slot → slot < max p.nextSlot (B + 1) :=
    fun hs => hs.elim (fun hle => (Nat.lt_succ_of_le hle).trans_le (le_max_right _ _))
      fun hlt => hlt.trans_le (le_max_left _ _)
  exact ⟨le_max_left _ _,fun hs => hknown (h.slots hs),fun he r hr => hknown (h.reports he r hr)⟩

omit [DecidableEq V] in
/-- The winner's `next_slot` and its term stay within bounds. -/
theorem Tracked.takeOffice (h : Tracked B n m Everywhere p₀ p) {e : ElectionState V}
    (he : p.election = some e) : Tracked B n m Everywhere p₀ (p.takeOffice env e) := by
  have hbound : (p.takeOffice env e).nextSlot ≤ max p.nextSlot (B + 1) :=
    (h.fits.spans.takeOffice he).next
  have hmoved := p.nextSlot_le_takeOffice env e
  have hnext := h.fits.next
  have hfew := h.fits.forwarded
  have hround := h.fits.office.election he
  refine ⟨⟨h.fits.room,h.fits.rounds,⟨?_,?_,nofun⟩,hfew,?_,
    fun hs => (h.fits.slots hs).mono hmoved,nofun⟩,
    h.raises.nextSlot.trans hmoved,h.raises.seen.trans (le_max_left _ _),h.raises.quorum,
    h.raises.decided,h.raises.rounds⟩
  · exact max_le h.fits.office.seen hround
  · rintro t ⟨⟩
    exact hround
  · change (p.takeOffice env e).nextSlot + p.forwardedProposals.length + m ≤ B + 1 + n
    rcases max_choice p.nextSlot (B + 1) with hm | hm
    · omega
    · omega

/-- The recovered slots are replayed under the number of the election. With others
to ask, no proposal of the node's own is above it. -/
theorem Tracked.completeLeaderElection (h : Tracked B n m Everywhere p₀ p) {e : ElectionState V}
    (he : p.election = some e) (hfresh : 1 < p.quorumSize → ∀ r ∈ e.accepted,
      r.1 ∉ p.decidedSlots → (p.instanceAt r.1).isProposer = true →
        (p.instanceAt r.1).proposalNumber.round ≤ e.proposalNumber.round) :
    Tracked B n m Everywhere p₀ (p.completeLeaderElection env).1 := by
  have htaken : Tracked B n m Everywhere p₀ (p.takeOffice env e) := h.takeOffice he
  have hround : e.proposalNumber.round ≤ B + n := h.fits.office.election he
  have hstep : ∀ r rest q, Tracked B n m Everywhere (p.takeOffice env e) q ∧
      (∀ x ∈ r :: rest, x ∈ PaxosProtocol.recoveredSlots env (p.highestPerSlot e.accepted)) →
      Tracked B n m Everywhere (p.takeOffice env e) (q.replayAccept env e.proposalNumber r).1 ∧
        ∀ x ∈ rest, x ∈ PaxosProtocol.recoveredSlots env (p.highestPerSlot e.accepted) := by
    rintro ⟨slot,value⟩ rest q ⟨hq,hmem⟩
    obtain ⟨hd,r,hr⟩ := PaxosProtocol.reported_of_recovered
      (PaxosProtocol.reported_of_mem (hmem _ (.head _)))
    have hslot : q.Known B slot := (h.fits.reports he _ hr).mono
      ((p.nextSlot_le_takeOffice env e).trans hq.raises.nextSlot)
    have hi := hq.fits.rounds slot
    have hclaim : (q.replayed env slot e.proposalNumber value).Below (B + n) :=
      ⟨hround,hi.promised,hi.nack⟩
    refine ⟨?_,fun x hx => hmem x (.tail _ hx)⟩
    unfold PaxosProtocol.replayAccept
    simp only
    split
    · exact hq
    · refine hq.selfAccept hslot hclaim hround value fun hmany _ hp => ⟨rfl,?_⟩
      exact hfresh (hq.raises.quorum ▸ hmany) _ hr hd hp
  have hreplayed : Tracked B n m Everywhere (p.takeOffice env e) (p.completeLeaderElection env).1 := by
    unfold PaxosProtocol.completeLeaderElection
    rw [he]
    exact (runAll_rest (fun rest q => Tracked B n m Everywhere (p.takeOffice env e) q ∧
      ∀ x ∈ rest, x ∈ PaxosProtocol.recoveredSlots env (p.highestPerSlot e.accepted)) hstep
      ⟨.start htaken.fits,fun _ hx => hx⟩).1
  exact ⟨hreplayed.fits,htaken.raises.trans hreplayed.raises⟩

/-- The round of an election is one above a round that the node has seen. -/
theorem Tracked.startElection (h : Tracked B n m Everywhere p₀ p)
    (hseen : p.highestSeenRound < B + n) :
    Tracked B n m Everywhere p₀ (p.startElection env).1 := by
  have hcampaign : Tracked B n m Everywhere p₀ (p.campaign env) := by
    refine h.officed rfl rfl rfl rfl rfl ⟨max_le h.fits.office.seen hseen,nofun,?_⟩
      (le_max_left _ _) ?_
    · rintro e ⟨⟩
      exact hseen
    · rintro e ⟨⟩ r hr
      exact h.fits.slots (PaxosProtocol.mem_instances_of_collected hr)
  unfold PaxosProtocol.startElection
  simp only
  split
  · rename_i hone
    refine hcampaign.completeLeaderElection rfl fun hmany => ?_
    exact absurd hmany (Nat.not_lt.mpr hone)
  · exact hcampaign

theorem Tracked.handlePromiseLeader (h : Tracked B n m Everywhere p p) (sender : NodeId)
    {pn : ProposalNumber} {accepted : List (ℕ × ProposalNumber × V)}
    (hslots : ∀ r ∈ accepted, r.1 ≤ B) (hfresh : p.FreshReplay sender pn accepted) :
    Tracked B n m Everywhere p (p.handlePromiseLeader env sender pn accepted).1 := by
  unfold PaxosProtocol.handlePromiseLeader
  cases he : p.election with
  | none => exact h
  | some e =>
    simp only
    split
    · rename_i hpn
      have hround := h.fits.office.election he
      have hpolled : Tracked B n m Everywhere p { p with election := some { e with
          promisesReceived := insert sender e.promisesReceived
          accepted := e.accepted ++ accepted } } := by
        refine h.officed rfl rfl rfl rfl rfl ⟨h.fits.office.seen,h.fits.office.term,?_⟩ le_rfl ?_
        · rintro e' ⟨⟩
          exact hround
        · rintro e' ⟨⟩ r hr
          rcases List.mem_append.mp hr with hr | hr
          · exact h.fits.reports he r hr
          · exact Or.inl (hslots r hr)
      split
      · rename_i hquorum
        refine hpolled.completeLeaderElection rfl fun _ r hr hd hp => ?_
        have hlt := hfresh e he hpn hquorum r hr hd hp
        rw [← hpn] at hlt
        exact ProposalNumber.round_le hlt.le
      · exact hpolled
    · exact h

omit [DecidableEq V] in
theorem Tracked.handleHeartbeat (h : Tracked B n m S p₀ p) (sender : NodeId) {term : ℕ}
    (ht : term ≤ B) : Tracked B n m S p₀ (p.handleHeartbeat env sender term) := by
  unfold PaxosProtocol.handleHeartbeat PaxosProtocol.updateLeaderContact
  split
  · simp only
    split
    · rename_i mine hl
      split
      · exact h.heard ht rfl rfl rfl rfl rfl rfl nofun fun he => he
      · exact h.heard ht rfl rfl rfl rfl rfl rfl (fun hl => hl) fun he => he
    · exact h.heard ht rfl rfl rfl rfl rfl rfl nofun fun he => he
  · exact h

omit [DecidableEq V] in
theorem Tracked.handleNackLeader (h : Tracked B n m S p₀ p) {pn : ProposalNumber}
    (hpn : pn.round ≤ B) : Tracked B n m S p₀ (p.handleNackLeader env pn) := by
  unfold PaxosProtocol.handleNackLeader
  simp only
  split
  · exact h.heard hpn rfl rfl rfl rfl rfl rfl nofun nofun
  · exact h.heard hpn rfl rfl rfl rfl rfl rfl (fun ht => ht) nofun

omit [DecidableEq V] in
theorem Tracked.handlePrepareLeader (h : Tracked B n m S p₀ p) (sender : NodeId)
    {pn : ProposalNumber} (since : ℕ) (hpn : pn.round ≤ B) :
    Tracked B n m S p₀ (p.handlePrepareLeader env sender pn since).1 := by
  have hyield : ∀ q : PaxosProtocol V, Tracked B n m S p₀ q →
      Tracked B n m S p₀ (q.yieldElection pn) := by
    intro q hq
    unfold PaxosProtocol.yieldElection
    split
    · split
      · exact hq.officed rfl rfl rfl rfl rfl ⟨hq.fits.office.seen,hq.fits.office.term,nofun⟩
          le_rfl nofun
      · exact hq
    · exact hq
  have hsubmit : Tracked B n m S p₀ (p.submit env sender pn) := by
    unfold PaxosProtocol.submit
    refine hyield _ ?_
    split
    · exact h.heard hpn rfl rfl rfl rfl rfl rfl nofun fun he => he
    · exact h.heard hpn rfl rfl rfl rfl rfl rfl (fun ht => ht) fun he => he
  unfold PaxosProtocol.handlePrepareLeader
  split
  · exact hsubmit
  · split
    · exact hsubmit
    · exact h

theorem Tracked.propose (h : Tracked B n 1 Everywhere p₀ p)
    (hown : ∀ {slot}, (p₀.instanceAt slot).isProposer = true → slot < p₀.nextSlot) (value : V) :
    Tracked B n 0 Everywhere p₀ (p.propose env value).1 := by
  have hforward : Tracked B n 0 Everywhere p₀ { p with
      forwardedProposals := p.forwardedProposals ++ [⟨env.now,value⟩] } := by
    have hfew := h.fits.forwarded
    have hnext := h.fits.next
    have hlen : (p.forwardedProposals ++ [(⟨env.now,value⟩ : ForwardedProposal V)]).length =
        p.forwardedProposals.length + 1 := List.length_append
    refine ⟨{ h.fits with forwarded := ?_, next := ?_ },
      { h.raises with rounds := h.raises.rounds }⟩
    · change (p.forwardedProposals ++ [_]).length + 0 ≤ n
      omega
    · change p.nextSlot + (p.forwardedProposals ++ [_]).length + 0 ≤ B + 1 + n
      omega
  unfold PaxosProtocol.propose
  split
  · unfold PaxosProtocol.proposeOrForward
    cases p.getLeader with
    | none => exact h.innerPropose hown value
    | some leader =>
      simp only
      split
      · exact hforward
      · exact h.innerPropose hown value
  · exact h.innerPropose hown value

/-- Each forwarded proposal that is taken back makes room for one slot. -/
theorem Tracked.handleForwardedProposalTimeouts (h : Tracked B n m Everywhere p₀ p)
    (hown : ∀ {slot}, (p₀.instanceAt slot).isProposer = true → slot < p₀.nextSlot) :
    Tracked B n 0 Everywhere p₀ (p.handleForwardedProposalTimeouts env).1 := by
  have htaken : Tracked B n (p.timedOut env).length Everywhere p₀ (p.taken env) := by
    have hfew := h.fits.forwarded
    have hnext := h.fits.next
    have hsplit : (p.taken env).forwardedProposals.length + (p.timedOut env).length =
        p.forwardedProposals.length := by
      have hrest : p.forwardedProposals.filter
          (fun f => !Decidable.decide (env.now - f.sentAt < 1000)) =
          p.forwardedProposals.filter fun f => 1000 ≤ env.now - f.sentAt := by
        refine List.filter_congr fun f _ => ?_
        rw [← decide_not]
        exact decide_eq_decide.mpr Nat.not_lt
      rw [PaxosProtocol.timedOut,List.length_map,← hrest]
      exact (List.length_eq_length_filter_add _).symm
    refine ⟨{ h.fits with forwarded := ?_, next := ?_ },
      { h.raises with rounds := h.raises.rounds }⟩
    · omega
    · change p.nextSlot + _ + _ ≤ _
      omega
  exact runAll_rest (f := fun value q => q.innerPropose env value)
    (fun (rest : List V) q => Tracked B n rest.length Everywhere p₀ q)
    (fun value rest q hq => hq.innerPropose hown value) htaken

theorem Tracked.onTickMulti (h : Tracked B n m Everywhere p₀ p)
    (hown : ∀ {slot}, (p₀.instanceAt slot).isProposer = true → slot < p₀.nextSlot)
    (hseen : p.highestSeenRound < B + n) :
    Tracked B n 0 Everywhere p₀ (p.onTickMulti env).1 := by
  have hbeat : Tracked B n m Everywhere p₀
      (if p.shouldSendHeartbeat env then p.makeHeartbeat env else (p,[])).1 ∧
      (if p.shouldSendHeartbeat env then p.makeHeartbeat env else (p,[])).1.highestSeenRound =
        p.highestSeenRound := by
    unfold PaxosProtocol.makeHeartbeat
    split
    · split
      · exact ⟨h.aside rfl rfl rfl rfl rfl rfl,rfl⟩
      · exact ⟨h,rfl⟩
    · exact ⟨h,rfl⟩
  unfold PaxosProtocol.onTickMulti
  generalize (if p.shouldSendHeartbeat env then p.makeHeartbeat env else (p,[])) = r at hbeat
  obtain ⟨hr,hsame⟩ := hbeat
  have hover : Tracked B n m Everywhere p₀ (r.1.checkElectionTimeout env) ∧
      (r.1.checkElectionTimeout env).highestSeenRound = r.1.highestSeenRound := by
    unfold PaxosProtocol.checkElectionTimeout
    split
    · exact ⟨hr,rfl⟩
    · split
      · exact ⟨hr.officed rfl rfl rfl rfl rfl ⟨hr.fits.office.seen,nofun,nofun⟩ le_rfl nofun,rfl⟩
      · exact ⟨hr,rfl⟩
  have helect : Tracked B n m Everywhere p₀ (r.andThen fun p =>
        let p := p.checkElectionTimeout env
        if p.checkLeaderTimeout env then p.startElection env else (p,[])).1 := by
    simp only [Reply.andThen]
    split
    · exact hover.1.startElection (by rw [hover.2,hsame]; exact hseen)
    · exact hover.1
  exact helect.handleForwardedProposalTimeouts hown

theorem Tracked.onTick (h : Tracked B (n + 1) m Everywhere p p)
    (hown : ∀ {slot}, (p.instanceAt slot).isProposer = true → slot < p.nextSlot)
    (hlow : ∀ slot, (p.instanceAt slot).Below (B + n)) (hseen : p.highestSeenRound ≤ B + n) :
    Tracked B (n + 1) 0 Everywhere p (p.onTick env).1 := by
  have hretried : Tracked B (n + 1) m Everywhere p
    (runAll (PaxosProtocol.retryProposal env) p (p.getRetryableProposals env)).1 := h.retries hlow
  have hoffice := PaxosProtocol.office_runAll (fun slot q => q.office_retryProposal env slot) p
    (p.getRetryableProposals env)
  unfold PaxosProtocol.onTick
  simp only
  generalize runAll (PaxosProtocol.retryProposal env) p (p.getRetryableProposals env) = r
    at hretried hoffice
  have hsent : Tracked B (n + 1) m Everywhere p
      (r.andThen (PaxosProtocol.getDecisionRebroadcasts env)).1 :=
    hretried.aside rfl rfl rfl rfl rfl rfl
  have hround : (r.andThen (PaxosProtocol.getDecisionRebroadcasts env)).1.highestSeenRound <
      B + (n + 1) := by
    have hsame : r.1.highestSeenRound = p.highestSeenRound := congrArg Office.highestSeenRound hoffice
    change r.1.highestSeenRound < B + (n + 1)
    omega
  split
  · exact hsent.onTickMulti hown hround
  · exact hsent.spare (Nat.zero_le m)

end

end

def PaxosMessage.rounds : PaxosMessage V → List ℕ
  | .prepare _ pn | .accept _ pn _ | .accepted _ pn _ | .prepareLeader pn _ => [pn.round]
  | .promise _ pn accepted => pn.round :: accepted.toList.map fun a => a.1.round
  | .nackPrepare _ pn hp | .nackAccept _ pn hp | .nackLeader pn hp => [pn.round,hp.round]
  | .promiseLeader pn accepted => pn.round :: accepted.map fun r => r.2.1.round
  | .heartbeat term => [term]
  | .decide _ _ | .forward _ => []

/-- An election that the message completes replays no proposal of the node's own under
a lower number. -/
def ReplaysFresh (p : PaxosProtocol V) (sender : NodeId) : PaxosMessage V → Prop
  | .promiseLeader pn accepted => p.FreshReplay sender pn accepted
  | _ => True

/-- A message speaks of nothing above `B`, and replays nothing under a lower number. -/
def BoundedCall (B : ℕ) (p : PaxosProtocol V) (call : PaxosEnv × Input V) : Prop :=
  match call.2 with
  | .message sender msg =>
    (∀ slot ∈ PaxosMessage.slots msg, slot ≤ B) ∧ (∀ round ∈ PaxosMessage.rounds msg, round ≤ B) ∧
      ReplaysFresh p sender msg
  | _ => True

instance (p : PaxosProtocol V) (sender : NodeId) :
    (msg : PaxosMessage V) → Decidable (ReplaysFresh p sender msg)
  | .promiseLeader pn accepted => inferInstanceAs (Decidable (p.FreshReplay sender pn accepted))
  | .prepare .. | .promise .. | .accept .. | .accepted .. | .decide .. | .nackPrepare ..
  | .nackAccept .. | .forward .. | .heartbeat .. | .prepareLeader .. | .nackLeader .. =>
    .isTrue trivial

instance (B : ℕ) (p : PaxosProtocol V) (call : PaxosEnv × Input V) :
    Decidable (BoundedCall B p call) :=
  match call with
  | (_,.message sender msg) => inferInstanceAs (Decidable (
    (∀ slot ∈ PaxosMessage.slots msg, slot ≤ B) ∧ (∀ round ∈ PaxosMessage.rounds msg, round ≤ B) ∧
      ReplaysFresh p sender msg))
  | (_,.propose _) | (_,.tick) => .isTrue trivial

section
variable [DecidableEq V] {k : Profile} {B n : ℕ} {p q : PaxosProtocol V} {env : PaxosEnv}

theorem Tracked.handleMessage (h : Tracked B n 1 Everywhere p p)
    (hown : ∀ {slot}, (p.instanceAt slot).isProposer = true → slot < p.nextSlot) (sender : NodeId)
    (msg : PaxosMessage V) (hb : BoundedCall B p (env,.message sender msg)) :
    Tracked B n 0 Everywhere p (p.handleMessage env sender msg).1 := by
  obtain ⟨hslots,hrounds,hfresh⟩ := hb
  have hidle := h.spare (Nat.zero_le 1)
  cases msg with
  | prepare slot pn =>
    exact hidle.handlePrepare sender (hslots slot (.head _)) (hrounds _ (.head _))
  | promise slot pn accepted => exact hidle.handlePromise sender pn accepted
  | accept slot pn value =>
    exact hidle.handleAccept sender value (hslots slot (.head _)) (hrounds _ (.head _))
  | accepted slot pn value => exact hidle.handleAccepted sender pn value
  | decide slot value => exact hidle.handleDecide sender value (hslots slot (.head _))
  | nackPrepare slot pn hp => exact hidle.handleNack (hrounds _ (.tail _ (.head _)))
  | nackAccept slot pn hp => exact hidle.handleNack (hrounds _ (.tail _ (.head _)))
  | forward value =>
    simp only [PaxosProtocol.handleMessage,PaxosProtocol.handleForward]
    split
    · split
      · exact h.innerPropose hown value
      · exact hidle
    · exact hidle
  | heartbeat term =>
    simp only [PaxosProtocol.handleMessage]
    split
    · exact hidle.handleHeartbeat sender (hrounds _ (.head _))
    · exact hidle
  | prepareLeader pn since =>
    simp only [PaxosProtocol.handleMessage]
    split
    · exact hidle.handlePrepareLeader sender since (hrounds _ (.head _))
    · exact hidle
  | promiseLeader pn accepted =>
    simp only [PaxosProtocol.handleMessage]
    split
    · exact hidle.handlePromiseLeader sender (fun r hr => hslots _ (List.mem_map_of_mem hr)) hfresh
    · exact hidle
  | nackLeader pn hp =>
    simp only [PaxosProtocol.handleMessage]
    split
    · exact hidle.handleNackLeader (hrounds _ (.tail _ (.head _)))
    · exact hidle

omit [DecidableEq V] in
theorem PaxosProtocol.timedOut_le_forwarded (p : PaxosProtocol V) (env : PaxosEnv) :
    (p.timedOut env).length ≤ p.forwardedProposals.length := by
  rw [PaxosProtocol.timedOut,List.length_map]
  exact List.length_filter_le _ _

omit [DecidableEq V] in
/-- Counters that fit leave room for the sums of the next call. -/
theorem Fits.roomy (h : Fits B n 0 p) (hroom : B + 1 + (n + 1) < 2 ^ 64) (input : Input V)
    (hb : BoundedCall B p (env,input)) : Roomy env p input := by
  have hnext := h.next
  have hfew := h.forwarded
  cases input with
  | propose value => exact fun _ => by omega
  | message sender msg =>
    obtain ⟨hslots,_,_⟩ := hb
    have hfirst : ∀ slot ∈ PaxosMessage.slots msg, slot + 1 < 2 ^ 64 := by
      intro slot hs
      have hle := hslots slot hs
      omega
    cases msg with
    | forward value => exact fun _ => by omega
    | promise slot pn accepted => exact hfirst slot (.head _)
    | accepted slot pn value => exact hfirst slot (.head _)
    | decide slot value => exact hfirst slot (.head _)
    | promiseLeader pn accepted =>
      refine fun e he => ⟨fun slot hs => h.succ_lt (h.slots (AList.mem_keys.mpr hs)),fun r hr => ?_⟩
      rcases List.mem_append.mp hr with hr | hr
      · exact h.succ_lt (h.reports he r hr)
      · exact hfirst r.1 (List.mem_map_of_mem hr)
    | _ => trivial
  | tick =>
    have htimed := p.timedOut_le_forwarded env
    have hseen := h.office.seen
    change p.highestSeenRound ≤ B + n at hseen
    refine ⟨⟨by omega,fun _ slot hs => ?_⟩,by omega,fun slot _ => ?_⟩
    · rcases h.slots (AList.mem_keys.mpr hs) with hle | hlt
      · omega
      · omega
    · have hround := (h.rounds slot).retryNumber
      change max _ _ + 1 < 2 ^ 64
      omega

omit [DecidableEq V] in
/-- The next call has room for one slot more and for rounds one higher. -/
theorem Fits.lift (h : Fits B n 0 p) (hroom : B + 1 + (n + 1) < 2 ^ 64) : Fits B (n + 1) 1 p := by
  have hle : B + n ≤ B + (n + 1) := Nat.le_succ _
  have hfew := h.forwarded
  have hnext := h.next
  exact ⟨hroom,fun slot => (h.rounds slot).mono hle,h.office.mono hle,by omega,by omega,h.slots,
    h.reports⟩

theorem Fits.handle (h : Fits B n 0 p) (ht : Tidy p) (hroom : B + 1 + (n + 1) < 2 ^ 64)
    (input : Input V) (hb : BoundedCall B p (env,input)) :
    Machine.handle k env p input = some (p.handle env input) ∧
      Tracked B (n + 1) 0 Everywhere p (p.handle env input).1 := by
  have hlifted := Tracked.start (h.lift hroom)
  refine ⟨Machine.handle_eq ht (h.roomy hroom input hb),?_⟩
  cases input with
  | propose value => exact hlifted.propose ht.proposer value
  | message sender msg => exact hlifted.handleMessage ht.proposer sender msg hb
  | tick => exact hlifted.onTick ht.proposer h.rounds h.office.seen

omit [DecidableEq V] in
theorem Fits.new (hroom : B + 1 < 2 ^ 64) (multi : Bool) (env : PaxosEnv) (nodeId : NodeId)
    (totalNodes : ℕ) (config : PaxosConfig) :
    Fits B 0 0 (PaxosProtocol.new multi env nodeId totalNodes config : PaxosProtocol V) :=
  ⟨hroom,fun _ => .new _,⟨Nat.zero_le _,nofun,nofun⟩,le_rfl,Nat.zero_le _,nofun,nofun⟩

/-- A run of `ls` that there is room for: the counters fit and none has gone back. -/
theorem Machine.run_fits {ls : List (PaxosEnv × Input V)} (h : Fits B n 0 p) (ht : Tidy p)
    (hrun : Runs.Trace (Machine.step k) (BoundedCall B) p ls q)
    (hroom : B + 1 + (n + ls.length) < 2 ^ 64) :
    Fits B (n + ls.length) 0 q ∧ Keeps p q ∧ Raises Everywhere p q := by
  refine hrun.counted (fun i q => B + 1 + (n + i) < 2 ^ 64 →
    Fits B (n + i) 0 q ∧ Keeps p q ∧ Raises Everywhere p q) ?_ ?_ hroom
  · exact fun _ => ⟨h,.refl ht,.refl _ p⟩
  · intro i x call y hx hb hstep hroom
    obtain ⟨hfits,hkeeps,hraises⟩ := hx (by omega)
    obtain ⟨hvalue,htracked⟩ := hfits.handle (k := k) hkeeps.tidy hroom call.2 hb
    unfold Machine.step at hstep
    rw [hvalue] at hstep
    cases hstep
    exact ⟨htracked.fits,hkeeps.trans ((handle_lax call.1 call.2 hkeeps.tidy).keeps hkeeps.tidy),
      hraises.trans htracked.raises⟩

omit [DecidableEq V] in
theorem Keeps.election_le (h : Keeps p q) (ht : Tidy p) {e e' : ElectionState V}
    (he : p.election = some e) (he' : q.election = some e') :
    e.proposalNumber.round ≤ e'.proposalNumber.round := by
  obtain ⟨l,hl,hle⟩ := h.promise (ht.election he).1
  cases hl.symm.trans (h.tidy.election he').1
  exact ProposalNumber.round_le hle

end

end Paxos
end Daccord
