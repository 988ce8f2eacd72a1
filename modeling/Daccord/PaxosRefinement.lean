import Daccord.PaxosHandlers
import Daccord.PaxosCluster
import Daccord.Voting

/-! What the state of a Paxos node says about the voting that goes on in every
slot. Promises of a slot and of a leader are pledges, entries of `accepted` are
votes, and an `Accept` is an offer. -/
namespace Daccord
namespace Paxos

open Voting

variable {V : Type} {N : ℕ}

abbrev Slot (N : ℕ) (V : Type) := Voting.State (Fin N) ProposalNumber V

/-- The voting in every slot, and the elections that were started, each with the
slot from which it asks. -/
structure Abstract (N : ℕ) (V : Type) where
  slots : ℕ → Slot N V
  campaign : ProposalNumber → ℕ → Prop

/-- Proposal numbers belong to the node they name. -/
def Own (M : Membership N) (i : Fin N) (b : ProposalNumber) : Prop := b.node = M.ids i

theorem Own.unique {M : Membership N} {i j : Fin N} {b : ProposalNumber} (h : Own M i b)
    (hj : j ≠ i) : ¬ Own M j b := fun h' => hj (M.distinct (h'.symm.trans h))

def Below (b : ProposalNumber) (promised : Option ProposalNumber) : Prop :=
  ∃ h ∈ promised, b ≤ h

theorem Below.le {b c : ProposalNumber} {promised : Option ProposalNumber}
    (h : Below b promised) (hle : ∀ x ∈ promised, x ≤ c) : b ≤ c := by
  obtain ⟨x,hx,hb⟩ := h
  exact hb.trans (hle x hx)

theorem Below.to_some {b c : ProposalNumber} (h : b ≤ c) : Below b (some c) := ⟨c,rfl,h⟩

structure Acceptor (st : Slot N V) (i : Fin N) (lead : Option ProposalNumber)
    (inst : PaxosInstance V) : Prop where
  pledged : ∀ {b}, st.pledge i b → Below b inst.highestPromised ∨ Below b lead
  accepted : ∀ {m v}, inst.accepted = some (m,v) → st.vote i m v ∧ Below m inst.highestPromised
  voted : ∀ {b w}, st.vote i b w → ∃ m v, inst.accepted = some (m,v) ∧ b ≤ m

def Reported (inst : PaxosInstance V) (m : ProposalNumber) (u : V) : Prop :=
  inst.highestAccepted = some (m,u)

structure Proposer (M : Membership N) (st : Slot N V) (i : Fin N) (slot next : ℕ)
    (inst : PaxosInstance V) : Prop where
  opened : ∀ {b}, Own M i b → st.opened b → slot < next ∧ Below b inst.highestPromised
  offered : ∀ {b v}, Own M i b → st.offer b v → slot < next ∧ Below b inst.highestPromised
  active : inst.isProposer = true → Own M i inst.proposalNumber ∧
    1 ≤ inst.proposalNumber.round ∧ Below inst.proposalNumber inst.highestPromised
  idle : inst.isProposer = false → inst.proposalNumber.round = 0 ∧ inst.promisesReceived = ∅ ∧
    inst.acceptsReceived = ∅ ∧ inst.highestAccepted = none
  promises : ∀ id ∈ inst.promisesReceived, ∃ j, M.ids j = id ∧ st.pledge j inst.proposalNumber ∧
    (j ≠ i → Covered st j inst.proposalNumber (Reported inst))
  adopted : ∀ {m u}, Reported inst m u → ∃ j, st.vote j m u
  accepts : ∀ id ∈ inst.acceptsReceived, ∃ j, M.ids j = id ∧ ∃ v, st.vote j inst.proposalNumber v
  asked : 2 ≤ inst.promisesReceived.card → st.opened inst.proposalNumber
  ready : N / 2 + 1 ≤ inst.promisesReceived.card → ∀ v, inst.phase2Value = some v →
    SafeAt st inst.proposalNumber v
  settled : inst.isProposer = true → st.opened inst.proposalNumber →
    ∀ w, st.offer inst.proposalNumber w →
    N / 2 + 1 ≤ inst.promisesReceived.card ∧ inst.phase2Value = some w

section Acceptor
variable {st st' : Slot N V} {i : Fin N} {lead lead' : Option ProposalNumber}
  {inst inst' : PaxosInstance V} {pn : ProposalNumber} {v : V}

theorem Acceptor.same (h : Acceptor st i lead inst) (hx : Extends st st')
    (hp : ∀ {b}, st'.pledge i b → st.pledge i b) (hv : ∀ {b w}, st'.vote i b w → st.vote i b w)
    (hhp : inst'.highestPromised = inst.highestPromised) (ha : inst'.accepted = inst.accepted) :
    Acceptor st' i lead inst' := by
  refine ⟨?_,?_,?_⟩ <;> intro b
  · rw [hhp]
    exact fun hb => h.pledged (hp hb)
  · intro w hw
    rw [ha] at hw
    rw [hhp]
    exact ⟨hx.vote (h.accepted hw).1,(h.accepted hw).2⟩
  · intro w hw
    rw [ha]
    exact h.voted (hv hw)

theorem Acceptor.pledge_le (h : Acceptor st i lead inst) {b : ProposalNumber}
    (hb : st.pledge i b) (hp : ∀ x ∈ inst.highestPromised, x ≤ pn) (hl : ∀ l ∈ lead, l ≤ pn) :
    b ≤ pn :=
  (h.pledged hb).elim (fun hb => hb.le hp) fun hb => hb.le hl

theorem Acceptor.promise (h : Acceptor st i lead inst)
    (hp : ∀ x ∈ inst.highestPromised, x ≤ pn) (hhp : inst'.highestPromised = some pn)
    (ha : inst'.accepted = inst.accepted) : Acceptor (st.promise i pn) i lead inst' := by
  refine ⟨?_,?_,?_⟩ <;> intro b
  · rw [hhp]
    rintro (hb | ⟨_,rfl⟩)
    · exact (h.pledged hb).imp_left fun hb => .to_some (hb.le hp)
    · exact Or.inl (.to_some le_rfl)
  · intro w hw
    rw [ha] at hw
    rw [hhp]
    exact ⟨(h.accepted hw).1,.to_some ((h.accepted hw).2.le hp)⟩
  · rw [ha]
    exact h.voted

theorem Acceptor.vote (h : Acceptor st i lead inst) (hp : ∀ x ∈ inst.highestPromised, x ≤ pn)
    (hhp : inst'.highestPromised = some pn) (ha : inst'.accepted = some (pn,v)) :
    Acceptor (st.accept i pn v) i lead inst' := by
  refine ⟨?_,?_,?_⟩ <;> intro b
  · rw [hhp]
    exact fun hb => (h.pledged hb).imp_left fun hb => .to_some (hb.le hp)
  · intro w hw
    rw [ha] at hw
    cases hw
    rw [hhp]
    exact ⟨Or.inr ⟨rfl,rfl,rfl⟩,.to_some le_rfl⟩
  · rintro w (hw | ⟨_,rfl,rfl⟩)
    · obtain ⟨m,u,hm,hb⟩ := h.voted hw
      exact ⟨pn,v,ha,hb.trans ((h.accepted hm).2.le hp)⟩
    · exact ⟨b,w,ha,le_rfl⟩

/-- A leader promise is a pledge in every slot. -/
theorem Acceptor.submit (h : Acceptor st i lead inst) (hl : ∀ l ∈ lead, l ≤ pn) :
    Acceptor (st.promise i pn) i (some pn) inst := by
  refine ⟨?_,h.accepted,h.voted⟩
  rintro b (hb | ⟨_,rfl⟩)
  · exact (h.pledged hb).imp_right fun hb => .to_some (hb.le hl)
  · exact Or.inr (.to_some le_rfl)

/-- What the acceptor reports covers its votes. -/
theorem Acceptor.covered (h : Acceptor st i lead inst) {b : ProposalNumber} (hb : st.pledge i b) :
    Covered st i b fun m u => inst.accepted = some (m,u) :=
  ⟨hb,fun _ _ hw _ => h.voted hw⟩

end Acceptor

structure SameProposal (inst inst' : PaxosInstance V) : Prop where
  proposalNumber : inst'.proposalNumber = inst.proposalNumber
  promisesReceived : inst'.promisesReceived = inst.promisesReceived
  acceptsReceived : inst'.acceptsReceived = inst.acceptsReceived
  highestAccepted : inst'.highestAccepted = inst.highestAccepted
  proposedValue : inst'.proposedValue = inst.proposedValue
  isProposer : inst'.isProposer = inst.isProposer

theorem SameProposal.phase2Value {inst inst' : PaxosInstance V} (h : SameProposal inst inst') :
    inst'.phase2Value = inst.phase2Value := by
  unfold PaxosInstance.phase2Value
  rw [h.highestAccepted,h.proposedValue]

theorem SameBallot.sameProposal {inst inst' : PaxosInstance V} (h : SameBallot inst inst') :
    SameProposal inst inst' :=
  ⟨h.proposalNumber,h.promisesReceived,h.acceptsReceived,h.highestAccepted,h.proposedValue,
    h.isProposer⟩

section Proposer
variable {M : Membership N} {st st' : Slot N V} {i : Fin N} {slot next next' : ℕ}
  {lead : Option ProposalNumber} {inst inst' : PaxosInstance V} {n : ProposalNumber} {v : V}

theorem Proposer.same (h : Proposer M st i slot next inst) (hx : Extends st st')
    (ho : ∀ {b}, Own M i b → st'.opened b → st.opened b)
    (hf : ∀ {b w}, Own M i b → st'.offer b w → st.offer b w) (hn : next ≤ next')
    (hi : SameProposal inst inst')
    (hp : ∀ {b}, Below b inst.highestPromised → Below b inst'.highestPromised) :
    Proposer M st' i slot next' inst' := by
  have hrep : Reported inst' = Reported inst := by
    unfold Reported
    rw [hi.highestAccepted]
  constructor <;> try simp only [hi.proposalNumber,hi.promisesReceived,hi.acceptsReceived,
    hi.isProposer,hi.phase2Value,hi.highestAccepted,hrep]
  · exact fun hb hob => (h.opened hb (ho hb hob)).imp (fun hlt => hlt.trans_le hn) hp
  · exact fun hb hob => (h.offered hb (hf hb hob)).imp (fun hlt => hlt.trans_le hn) hp
  · exact fun ha => (h.active ha).imp_right (And.imp_right hp)
  · exact h.idle
  · intro id hid
    obtain ⟨j,hj,hpl,hc⟩ := h.promises id hid
    exact ⟨j,hj,hx.pledge hpl,fun hne => (hc hne).mono hx fun m u hm => ⟨m,u,hm,le_rfl⟩⟩
  · intro m u hm
    obtain ⟨j,hj⟩ := h.adopted hm
    exact ⟨j,hx.vote hj⟩
  · intro id hid
    obtain ⟨j,hj,w,hw⟩ := h.accepts id hid
    exact ⟨j,hj,w,hx.vote hw⟩
  · exact fun hc => hx.opened (h.asked hc)
  · exact fun hq w hw => (h.ready hq w hw).mono hx
  · exact fun ha hob w hw => h.settled ha (ho (h.active ha).1 hob) w (hf (h.active ha).1 hw)

theorem Proposer.isProposer (h : Proposer M st i slot next inst)
    (hn : 1 ≤ inst.proposalNumber.round) : inst.isProposer = true := by
  by_contra hi
  have := (h.idle (by simpa using hi)).1
  omega

/-- A new round, or a first one: the proposer has only its own promise. -/
theorem Proposer.launch (h : Proposer M st i slot next inst) (hN : 2 ≤ N)
    (hfree : inst.Free n) (hown : Own M i n) (hround : 1 ≤ n.round)
    (hlt : slot < next') (hnum : inst'.proposalNumber = n)
    (hpr : inst'.promisesReceived = {M.ids i}) (hac : inst'.acceptsReceived = ∅)
    (hrep : inst'.highestAccepted = none) (hpos : inst'.isProposer = true)
    (hhp : inst'.highestPromised = some n) :
    Proposer M ((st.launch n).promise i n) i slot next' inst' := by
  constructor <;> try simp only [hnum,hpr,hac,hpos,hhp,Finset.card_singleton,Finset.notMem_empty]
  · rintro b hb (hob | rfl)
    · exact ⟨hlt,.to_some ((h.opened hb hob).2.le fun x hx => (hfree x hx).le)⟩
    · exact ⟨hlt,.to_some le_rfl⟩
  · exact fun hb hob => ⟨hlt,.to_some ((h.offered hb hob).2.le fun x hx => (hfree x hx).le)⟩
  · exact fun _ => ⟨hown,hround,.to_some le_rfl⟩
  · exact nofun
  · intro id hid
    exact ⟨i,(Finset.mem_singleton.mp hid).symm,Or.inr ⟨rfl,rfl⟩,fun hne => absurd rfl hne⟩
  · intro m u hm
    rw [Reported,hrep] at hm
    cases hm
  · exact fun _ hid => hid.elim
  · omega
  · omega
  · intro _ _ w hw
    obtain ⟨x,hx,hle⟩ := (h.offered hown hw).2
    exact absurd (hfree x hx) (not_lt.mpr hle)

/-- A leader offers without asking. -/
theorem Proposer.assume (h : Proposer M st i slot next inst) (hN : 2 ≤ N)
    (hfree : inst.Free n) (hown : Own M i n) (hround : 1 ≤ n.round) (hpl : st.pledge i n)
    (hlt : slot < next') (hnum : inst'.proposalNumber = n)
    (hpr : inst'.promisesReceived = {M.ids i}) (hac : inst'.acceptsReceived = {M.ids i})
    (hrep : inst'.highestAccepted = inst.highestAccepted) (hpos : inst'.isProposer = true)
    (hhp : inst'.highestPromised = some n) :
    Proposer M ((st.propose n v).accept i n v) i slot next' inst' := by
  constructor <;> try simp only [hnum,hpr,hac,hpos,hhp,Finset.card_singleton]
  · exact fun hb hob => ⟨hlt,.to_some ((h.opened hb hob).2.le fun x hx => (hfree x hx).le)⟩
  · rintro b w hb (hob | ⟨rfl,rfl⟩)
    · exact ⟨hlt,.to_some ((h.offered hb hob).2.le fun x hx => (hfree x hx).le)⟩
    · exact ⟨hlt,.to_some le_rfl⟩
  · exact fun _ => ⟨hown,hround,.to_some le_rfl⟩
  · exact nofun
  · intro id hid
    exact ⟨i,(Finset.mem_singleton.mp hid).symm,hpl,fun hne => absurd rfl hne⟩
  · intro m u hm
    rw [Reported,hrep] at hm
    obtain ⟨j,hj⟩ := h.adopted hm
    exact ⟨j,Or.inl hj⟩
  · intro id hid
    exact ⟨i,(Finset.mem_singleton.mp hid).symm,v,Or.inr ⟨rfl,rfl,rfl⟩⟩
  · omega
  · omega
  · intro _ hop
    obtain ⟨x,hx,hle⟩ := (h.opened hown hop).2
    exact absurd (hfree x hx) (not_lt.mpr hle)

theorem Proposer.propose (h : Proposer M st i slot next inst) (hpos : inst.isProposer = true)
    (hlt : slot < next) (hq : N / 2 + 1 ≤ inst.promisesReceived.card)
    (hv : inst.phase2Value = some v) :
    Proposer M (st.propose inst.proposalNumber v) i slot next inst := by
  have hx := Extends.propose st inst.proposalNumber v
  refine { h with
    offered := ?_
    promises := fun id hid => ?_
    ready := fun hq w hw => (h.ready hq w hw).mono hx
    settled := ?_ }
  · rintro b w hb (hob | ⟨rfl,rfl⟩)
    · exact h.offered hb hob
    · exact ⟨hlt,(h.active hpos).2.2⟩
  · obtain ⟨j,hj,hpl,hc⟩ := h.promises id hid
    exact ⟨j,hj,hpl,fun hne => (hc hne).mono hx fun m u hm => ⟨m,u,hm,le_rfl⟩⟩
  · rintro _ hop w (hw | ⟨_,rfl⟩)
    · exact h.settled hpos hop w hw
    · exact ⟨hq,hv⟩

theorem Proposer.tally (h : Proposer M st i slot next inst) (hpos : inst.isProposer = true)
    {j : Fin N} (hj : st.vote j inst.proposalNumber v) :
    Proposer M st i slot next
      { inst with acceptsReceived := insert (M.ids j) inst.acceptsReceived } := by
  refine { h with idle := fun hidle => ?_, accepts := fun id hid => ?_ }
  · rw [hpos] at hidle
    cases hidle
  · rcases Finset.mem_insert.mp hid with rfl | hid
    · exact ⟨j,rfl,v,hj⟩
    · exact h.accepts id hid

/-- A report of the others, or the proposer's own vote. -/
def Known (inst : PaxosInstance V) (m : ProposalNumber) (u : V) : Prop :=
  Reported inst m u ∨ inst.accepted = some (m,u)

/-- A mindful proposer takes the value of the highest number it knows of. -/
theorem PaxosInstance.Mindful.highest (hm : inst.Mindful) (hv : inst.phase2Value = some v) :
    (∀ m u, ¬ Known inst m u) ∨ ∃ m, Known inst m v ∧ ∀ m' u, Known inst m' u → m' ≤ m := by
  cases ha : inst.accepted with
  | none =>
    cases hr : inst.highestAccepted with
    | none =>
      refine Or.inl fun m u hk => ?_
      simp [Known,Reported,ha,hr] at hk
    | some r =>
      have hrv : r.2 = v := by simpa [PaxosInstance.phase2Value,hr] using hv
      refine Or.inr ⟨r.1,Or.inl (by rw [Reported,hr,← hrv]),fun m u hk => ?_⟩
      simp only [Known,Reported,ha,hr,Option.some.injEq,reduceCtorEq,or_false] at hk
      rw [hk]
  | some own =>
    rcases hm own ha with hw | ⟨r,hr,hle⟩
    · have hwv : own.2 = v := Option.some.inj (hw.symm.trans hv)
      cases hr : inst.highestAccepted with
      | none =>
        refine Or.inr ⟨own.1,Or.inr (by rw [ha,← hwv]),fun m u hk => ?_⟩
        simp only [Known,Reported,ha,hr,Option.some.injEq,reduceCtorEq,false_or] at hk
        rw [hk]
      | some r =>
        have hrv : r.2 = v := by simpa [PaxosInstance.phase2Value,hr] using hv
        have hk : ∀ m u, Known inst m u → r = (m,u) ∨ own = (m,u) := by
          simp [Known,Reported,ha,hr]
        rcases le_total r.1 own.1 with hle | hle
        · refine Or.inr ⟨own.1,Or.inr (by rw [ha,← hwv]),fun m u hmu => ?_⟩
          rcases hk m u hmu with rfl | rfl
          · exact hle
          · exact le_rfl
        · refine Or.inr ⟨r.1,Or.inl (by rw [Reported,hr,← hrv]),fun m u hmu => ?_⟩
          rcases hk m u hmu with rfl | rfl
          · exact le_rfl
          · exact hle
    · have hrv : r.2 = v := by
        rw [PaxosInstance.phase2Value,hr] at hv
        exact Option.some.inj hv
      refine Or.inr ⟨r.1,Or.inl (by rw [Reported,hr,← hrv]),fun m u hmu => ?_⟩
      rcases hmu with h' | h'
      · cases hr.symm.trans h'
        exact le_rfl
      · cases ha.symm.trans h'
        exact hle

/-- With a quorum of promises, the value of a mindful phase 2 is safe. -/
theorem Proposer.safeAt (hs : Sound st) (hacc : Acceptor st i lead inst)
    (hpr : ∀ id ∈ inst.promisesReceived, ∃ j, M.ids j = id ∧ st.pledge j inst.proposalNumber ∧
      (j ≠ i → Covered st j inst.proposalNumber (Reported inst)))
    (had : ∀ {m u}, Reported inst m u → ∃ j, st.vote j m u)
    (hq : N / 2 + 1 ≤ inst.promisesReceived.card) (hm : inst.Mindful)
    (hv : inst.phase2Value = some v) : SafeAt st inst.proposalNumber v := by
  obtain ⟨Q,hQ,hcov⟩ := M.majority hq hpr
  refine hs.safeAt_of_covered hQ (fun j hj => ?_) ?_ (hm.highest hv)
  · obtain ⟨hpl,hc⟩ := hcov j hj
    refine ⟨hpl,fun c w hw hlt => ?_⟩
    by_cases hji : j = i
    · subst hji
      obtain ⟨m,u,ha,hle⟩ := hacc.voted hw
      exact ⟨m,u,Or.inr ha,hle⟩
    · obtain ⟨m,u,hr,hle⟩ := (hc hji).2 c w hw hlt
      exact ⟨m,u,Or.inl hr,hle⟩
  · rintro m u (hr | ha)
    · exact had hr
    · exact ⟨i,(hacc.accepted ha).1⟩

theorem PaxosInstance.adopt_mono {accepted : Option (ProposalNumber × V)} {m : ProposalNumber}
    {u : V} (h : Reported inst m u ∨ accepted = some (m,u)) :
    ∃ m' u', inst.adopt accepted = some (m',u') ∧ m ≤ m' := by
  unfold Reported at h
  unfold PaxosInstance.adopt
  cases accepted with
  | none => exact ⟨m,u,by simpa using h,le_rfl⟩
  | some r =>
    cases hr : inst.highestAccepted with
    | none =>
      rw [hr] at h
      cases h with
      | inl h => cases h
      | inr h =>
        cases h
        exact ⟨m,u,rfl,le_rfl⟩
    | some existing =>
      rw [hr] at h
      simp only
      split
      · rename_i hlt
        rcases h with h | h
        · cases h
          exact ⟨r.1,r.2,rfl,hlt.le⟩
        · cases h
          exact ⟨m,u,rfl,le_rfl⟩
      · rename_i hlt
        rcases h with h | h
        · exact ⟨m,u,h,le_rfl⟩
        · cases h
          exact ⟨existing.1,existing.2,rfl,le_of_not_gt hlt⟩

theorem PaxosInstance.adopt_from {accepted : Option (ProposalNumber × V)} {m : ProposalNumber}
    {u : V} (h : inst.adopt accepted = some (m,u)) :
    Reported inst m u ∨ accepted = some (m,u) := by
  unfold PaxosInstance.adopt at h
  split at h
  · exact Or.inl h
  · split at h
    · exact Or.inr h
    · split at h
      · exact Or.inr h
      · exact Or.inl h

theorem Proposer.count (h : Proposer M st i slot next inst) (hs : Sound st)
    (hacc : Acceptor st i lead inst) {j : Fin N} {accepted : Option (ProposalNumber × V)} (hround : 1 ≤ inst.proposalNumber.round)
    (hop : st.opened inst.proposalNumber)
    (hcov : Covered st j inst.proposalNumber fun m u => accepted = some (m,u))
    (hvote : ∀ m u, accepted = some (m,u) → ∃ k, st.vote k m u)
    (hlate : N / 2 + 1 ≤ inst.promisesReceived.card →
      (inst.recordPromise (M.ids j) accepted).phase2Value = inst.phase2Value)
    (hfirst : ¬ N / 2 + 1 ≤ inst.promisesReceived.card →
      N / 2 + 1 ≤ (inst.recordPromise (M.ids j) accepted).promisesReceived.card →
      (inst.recordPromise (M.ids j) accepted).Mindful) :
    Proposer M st i slot next (inst.recordPromise (M.ids j) accepted) := by
  have hpos := h.isProposer hround
  have hpr : ∀ id ∈ (inst.recordPromise (M.ids j) accepted).promisesReceived, ∃ k, M.ids k = id ∧
      st.pledge k inst.proposalNumber ∧ (k ≠ i → Covered st k inst.proposalNumber
        (Reported (inst.recordPromise (M.ids j) accepted))) := by
    intro id hid
    rcases Finset.mem_insert.mp hid with rfl | hid
    · exact ⟨j,rfl,hcov.1,fun _ => hcov.mono (.refl st) fun m u hm =>
        PaxosInstance.adopt_mono (Or.inr hm)⟩
    · obtain ⟨k,hk,hpl,hc⟩ := h.promises id hid
      exact ⟨k,hk,hpl,fun hne => (hc hne).mono (.refl st) fun m u hm =>
        PaxosInstance.adopt_mono (Or.inl hm)⟩
  have had : ∀ {m u}, Reported (inst.recordPromise (M.ids j) accepted) m u →
      ∃ k, st.vote k m u := fun hr =>
    (PaxosInstance.adopt_from hr).elim h.adopted (hvote _ _)
  refine { h with
    idle := fun hidle => ?_
    promises := hpr
    adopted := had
    asked := fun _ => hop
    ready := fun hq w hw => ?_
    settled := fun _ _ w hw => ?_ }
  · change inst.isProposer = false at hidle
    rw [hpos] at hidle
    cases hidle
  · by_cases hold : N / 2 + 1 ≤ inst.promisesReceived.card
    · exact h.ready hold w ((hlate hold).symm.trans hw)
    · have hacc' : Acceptor st i lead (inst.recordPromise (M.ids j) accepted) :=
        hacc.same (.refl st) id id rfl rfl
      exact Proposer.safeAt hs hacc' hpr had hq (hfirst hold hq) hw
  · obtain ⟨hq,hv⟩ := h.settled hpos hop w hw
    exact ⟨hq.trans (Finset.card_le_card (Finset.subset_insert _ _)),(hlate hq).trans hv⟩

/-- The votes a proposer has counted are for one value. -/
theorem Proposer.chosen (h : Proposer M st i slot next inst) (hs : Sound st)
    (ho : st.offer inst.proposalNumber v) (hq : N / 2 + 1 ≤ inst.acceptsReceived.card) :
    Chosen st inst.proposalNumber v := by
  obtain ⟨Q,hQ,hv⟩ := M.majority hq h.accepts
  refine ⟨Q,hQ,fun j hj => ?_⟩
  obtain ⟨w,hw⟩ := hv j hj
  rw [hs.unique ho (hs.offered hw)]
  exact hw

end Proposer

structure SlotOk (M : Membership N) (st : Slot N V) (i : Fin N) (slot : ℕ)
    (lead : Option ProposalNumber) (next : ℕ) (inst : PaxosInstance V) : Prop where
  acceptor : Acceptor st i lead inst
  proposer : Proposer M st i slot next inst

/-- An election in progress: who has answered, and what was reported. -/
structure ElectionOk (M : Membership N) (a : Abstract N V) (p : PaxosProtocol V)
    (e : ElectionState V) : Prop where
  campaign : a.campaign e.proposalNumber e.sinceSlot
  round : 1 ≤ e.proposalNumber.round
  since : e.sinceSlot ≤ p.nextSlot ∨ e.sinceSlot ∈ p.instances
  promises : ∀ id ∈ e.promisesReceived, ∃ j, M.ids j = id ∧ ∀ slot, e.sinceSlot ≤ slot →
    slot ∈ p.decidedSlots ∨
      Covered (a.slots slot) j e.proposalNumber fun m u => (slot,m,u) ∈ e.accepted
  accepted : ∀ x ∈ e.accepted, e.sinceSlot ≤ x.1 ∧ ∃ j, (a.slots x.1).vote j x.2.1 x.2.2

structure ElectedOk (a : Abstract N V) (p : PaxosProtocol V) (r : Election V) : Prop where
  replayed : ∀ x ∈ r.replayed, SafeAt (a.slots x.1) r.number x.2
  recovered : ∀ slot, r.sinceSlot ≤ slot → slot ∈ p.decidedSlots ∨
    (∃ v, (slot,v) ∈ r.replayed) ∨ Untouched (a.slots slot) r.number

structure NodeOk (M : Membership N) (a : Abstract N V) (i : Fin N) (p : PaxosProtocol V) :
    Prop where
  tidy : Tidy p
  ident : p.nodeId = M.ids i
  quorum : p.quorumSize = N / 2 + 1
  single : p.multi = false → p.leaderPromise = none
  slots : ∀ {slot}, slot ∉ p.decidedSlots →
    SlotOk M (a.slots slot) i slot p.leaderPromise p.nextSlot (p.instanceAt slot)
  decided : ∀ {slot v}, p.decidedSlots.lookup slot = some v → ∃ b, Chosen (a.slots slot) b v
  lead : ∀ l ∈ p.leaderPromise, ∀ slot, (a.slots slot).pledge i l
  campaigns : ∀ {pn since}, Own M i pn → a.campaign pn since → pn.round ≤ p.highestSeenRound
  election : ∀ e ∈ p.election, ElectionOk M a p e
  leader : ∀ {t}, p.leaderState = .leader t → 1 ≤ t ∧ ∀ slot, p.nextSlot ≤ slot →
    Untouched (a.slots slot) (.mk t (M.ids i))
  votes : ∀ x ∈ p.record.votes, (a.slots x.slot).vote i x.number x.value
  elections : ∀ r ∈ p.record.elections, ElectedOk a p r

def SentOk (a : Abstract N V) (src : Fin N) : PaxosMessage V → Prop
  | .prepare slot pn => 1 ≤ pn.round ∧ (a.slots slot).opened pn
  | .promise slot pn accepted => 1 ≤ pn.round ∧ (a.slots slot).opened pn ∧
    Covered (a.slots slot) src pn (fun m u => accepted = some (m,u)) ∧
    ∀ m u, accepted = some (m,u) → (a.slots slot).vote src m u
  | .accept slot pn v => 1 ≤ pn.round ∧ (a.slots slot).offer pn v
  | .accepted slot pn v => 1 ≤ pn.round ∧ (a.slots slot).vote src pn v
  | .decide slot v => ∃ b, Chosen (a.slots slot) b v
  | .prepareLeader pn since => a.campaign pn since
  | .promiseLeader pn accepted => ∃ since, a.campaign pn since ∧
    (∀ slot, since ≤ slot →
      Covered (a.slots slot) src pn fun m u => (slot,m,u) ∈ accepted) ∧
    ∀ x ∈ accepted, since ≤ x.1 ∧ (a.slots x.1).vote src x.2.1 x.2.2
  | _ => True

/-- What node `i` can do to the voting and the elections. -/
structure Grows (M : Membership N) (i : Fin N) (a a' : Abstract N V) : Prop where
  slots : ∀ slot, Steps (Own M) i (a.slots slot) (a'.slots slot)
  campaign : ∀ {pn since}, a.campaign pn since → a'.campaign pn since
  fresh : ∀ {pn since}, ¬ Own M i pn → a'.campaign pn since → a.campaign pn since

section Grows
variable {M : Membership N} {i j : Fin N} {a a' a'' : Abstract N V} {p : PaxosProtocol V}

theorem Grows.refl (M : Membership N) (i : Fin N) (a : Abstract N V) : Grows M i a a :=
  ⟨fun _ => .refl,id,fun _ => id⟩

theorem Grows.trans (h : Grows M i a a') (h' : Grows M i a' a'') : Grows M i a a'' :=
  ⟨fun slot => (h.slots slot).trans (h'.slots slot),fun hc => h'.campaign (h.campaign hc),
    fun hn hc => h.fresh hn (h'.fresh hn hc)⟩

theorem Grows.extends (h : Grows M i a a') (slot : ℕ) : Extends (a.slots slot) (a'.slots slot) :=
  (h.slots slot).extends

theorem SentOk.grows (h : Grows M i a a') {src : Fin N} {msg : PaxosMessage V}
    (hm : SentOk a src msg) : SentOk a' src msg := by
  cases msg with
  | prepare slot pn => exact hm.imp_right (h.extends slot).opened
  | promise slot pn accepted =>
    obtain ⟨hr,ho,hc,hv⟩ := hm
    exact ⟨hr,(h.extends slot).opened ho,hc.mono (h.extends slot) fun m u hm => ⟨m,u,hm,le_rfl⟩,
      fun m u ha => (h.extends slot).vote (hv m u ha)⟩
  | accept slot pn v => exact hm.imp_right (h.extends slot).offer
  | accepted slot pn v => exact hm.imp_right (h.extends slot).vote
  | decide slot v =>
    obtain ⟨b,hb⟩ := hm
    exact ⟨b,hb.mono (h.extends slot)⟩
  | prepareLeader pn since => exact h.campaign hm
  | promiseLeader pn accepted =>
    obtain ⟨since,hc,hcov,hv⟩ := hm
    refine ⟨since,h.campaign hc,fun slot hs => (hcov slot hs).mono (h.extends slot)
      fun m u hm => ⟨m,u,hm,le_rfl⟩,fun x hx => (hv x hx).imp_right (h.extends x.1).vote⟩
  | _ => trivial

theorem ElectionOk.grows (h : Grows M j a a') {e : ElectionState V} (he : ElectionOk M a p e) :
    ElectionOk M a' p e := by
  refine { he with
    campaign := h.campaign he.campaign
    promises := fun id hid => ?_
    accepted := fun x hx => ?_ }
  · obtain ⟨k,hk,hc⟩ := he.promises id hid
    exact ⟨k,hk,fun slot hs => (hc slot hs).imp_right fun hc =>
      hc.mono (h.extends slot) fun m u hm => ⟨m,u,hm,le_rfl⟩⟩
  · obtain ⟨hs,k,hk⟩ := he.accepted x hx
    exact ⟨hs,k,(h.extends x.1).vote hk⟩

theorem ElectedOk.grows (h : Grows M j a a') {r : Election V} (hr : ElectedOk a p r) :
    ElectedOk a' p r :=
  ⟨fun x hx => (hr.replayed x hx).mono (h.extends x.1),fun slot hs =>
    (hr.recovered slot hs).imp_right (Or.imp_right fun hu => hu.mono (h.extends slot))⟩

theorem ElectedOk.later {q : PaxosProtocol V} {r : Election V} (h : ElectedOk a p r)
    (hd : ∀ slot ∈ p.decidedSlots, slot ∈ q.decidedSlots) : ElectedOk a q r :=
  ⟨h.replayed,fun slot hs => (h.recovered slot hs).imp_left (hd slot)⟩

theorem NodeOk.grows (h : Grows M j a a') (hij : i ≠ j) (hn : NodeOk M a i p) :
    NodeOk M a' i p := by
  refine { hn with
    slots := fun {slot} hs => ?_
    decided := fun {slot v} hd => ?_
    lead := fun l hl slot => (h.extends slot).pledge (hn.lead l hl slot)
    campaigns := fun ho hc => hn.campaigns ho (h.fresh (ho.unique hij.symm) hc)
    election := fun e he => (hn.election e he).grows h
    leader := fun ht => (hn.leader ht).imp_right fun hu slot hs => (hu slot hs).mono (h.extends slot)
    votes := fun x hx => (h.extends x.slot).vote (hn.votes x hx)
    elections := fun r hr => (hn.elections r hr).grows h }
  · have hap := (h.slots slot).apart
    obtain ⟨hacc,hprop⟩ := hn.slots hs
    exact ⟨hacc.same (h.extends slot) (hap.pledge hij) (hap.vote hij) rfl rfl,
      hprop.same (h.extends slot) (fun ho => hap.opened (ho.unique hij.symm))
        (fun ho => hap.offer (ho.unique hij.symm)) le_rfl ⟨rfl,rfl,rfl,rfl,rfl,rfl⟩ id⟩
  · obtain ⟨b,hb⟩ := hn.decided hd
    exact ⟨b,hb.mono (h.extends slot)⟩

end Grows

end Paxos
end Daccord
