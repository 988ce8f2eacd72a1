import Daccord.PaxosRestart

/-! Where the values of a Paxos node come from. A value stays in its slot: it is
proposed there, and then only copied between votes, reports and decisions. -/
namespace Daccord
namespace Paxos

variable {V : Type}

/-- What the proposer's side of an instance holds: a proposer has a value, and
the others have neither a number nor promises. -/
structure PaxosInstance.Sponsored (inst : PaxosInstance V) : Prop where
  value : inst.isProposer = true → ∃ v, inst.proposedValue = some v
  idle : inst.isProposer = false → inst.proposalNumber.round = 0 ∧ inst.promisesReceived = ∅

structure PaxosInstance.Within (P : V → Prop) (inst : PaxosInstance V) : Prop where
  accepted : ∀ x ∈ inst.accepted, P x.2
  highestAccepted : ∀ x ∈ inst.highestAccepted, P x.2
  proposedValue : ∀ v ∈ inst.proposedValue, P v

/-- The values of slot `n` satisfy `S n`, those on their way to a slot satisfy `F`. -/
structure Within (S : ℕ → V → Prop) (F : V → Prop) (p : PaxosProtocol V) : Prop where
  instances : ∀ slot, (p.instanceAt slot).Within (S slot) ∧ (p.instanceAt slot).Sponsored
  decided : ∀ {slot v}, p.decidedSlots.lookup slot = some v → S slot v
  election : ∀ e ∈ p.election, ∀ x ∈ e.accepted, S x.1 x.2.2
  elections : ∀ r ∈ p.record.elections, ∀ x ∈ r.replayed, S x.1 x.2
  forwarded : ∀ f ∈ p.forwardedProposals, F f.value
  quorum : 1 ≤ p.quorumSize

/-- The same for a message; numbers that were prepared have a round. -/
def Carries (S : ℕ → V → Prop) (F : V → Prop) : PaxosMessage V → Prop
  | .prepare _ pn => 1 ≤ pn.round
  | .promise slot pn accepted => 1 ≤ pn.round ∧ ∀ x ∈ accepted, S slot x.2
  | .accept slot _ v | .accepted slot _ v | .decide slot v => S slot v
  | .promiseLeader _ accepted => ∀ x ∈ accepted, S x.1 x.2.2
  | .forward v => F v
  | _ => True

section
variable {S : ℕ → V → Prop} {F P : V → Prop} {p q : PaxosProtocol V} {inst : PaxosInstance V}
  {slot : ℕ}

theorem PaxosInstance.Sponsored.new : (PaxosInstance.new : PaxosInstance V).Sponsored :=
  ⟨nofun,fun _ => ⟨rfl,rfl⟩⟩

theorem PaxosInstance.Within.new : (PaxosInstance.new : PaxosInstance V).Within P :=
  ⟨nofun,nofun,nofun⟩

theorem PaxosInstance.Within.mono {Q : V → Prop} (h : inst.Within P) (hPQ : ∀ v, P v → Q v) :
    inst.Within Q :=
  ⟨fun x hx => hPQ _ (h.accepted x hx),fun x hx => hPQ _ (h.highestAccepted x hx),
    fun v hv => hPQ _ (h.proposedValue v hv)⟩

theorem Within.mono {T : ℕ → V → Prop} (h : Within S F p) (hST : ∀ slot v, S slot v → T slot v) :
    Within T F p where
  instances slot := ⟨(h.instances slot).1.mono (hST slot),(h.instances slot).2⟩
  decided hv := hST _ _ (h.decided hv)
  election e he x hx := hST _ _ (h.election e he x hx)
  elections r hr x hx := hST _ _ (h.elections r hr x hx)
  forwarded := h.forwarded
  quorum := h.quorum

theorem Carries.mono {T : ℕ → V → Prop} {msg : PaxosMessage V} (h : Carries S F msg)
    (hST : ∀ slot v, S slot v → T slot v) : Carries T F msg := by
  cases msg with
  | promise slot pn accepted => exact ⟨h.1,fun x hx => hST _ _ (h.2 x hx)⟩
  | accept slot pn v => exact hST _ _ h
  | accepted slot pn v => exact hST _ _ h
  | decide slot v => exact hST _ _ h
  | promiseLeader pn accepted => exact fun x hx => hST _ _ (h x hx)
  | _ => exact h

theorem PaxosInstance.Within.phase2Value (h : inst.Within P) {v : V}
    (hv : inst.phase2Value = some v) : P v := by
  unfold PaxosInstance.phase2Value at hv
  split at hv
  · rename_i n w hw
    cases hv
    exact h.highestAccepted _ hw
  · exact h.proposedValue v hv

theorem PaxosInstance.Within.recordPromise (h : inst.Within P) (sender : NodeId)
    {accepted : Option (ProposalNumber × V)} (ha : ∀ x ∈ accepted, P x.2) :
    (inst.recordPromise sender accepted).Within P := by
  refine ⟨h.accepted,fun x hx => ?_,h.proposedValue⟩
  simp only [PaxosInstance.recordPromise,PaxosInstance.adopt] at hx
  split at hx
  · exact h.highestAccepted x hx
  · rename_i n w
    have hw : P w := ha (n,w) rfl
    split at hx
    · cases hx
      exact hw
    · split at hx
      · cases hx
        exact hw
      · exact h.highestAccepted x hx

/-- A quorum of promises is one that somebody proposed for. -/
theorem PaxosInstance.Sponsored.phase2Value (h : inst.Sponsored)
    (hq : 1 ≤ inst.promisesReceived.card) : inst.phase2Value ≠ none := by
  have hp : inst.isProposer = true := by
    by_contra hp
    rw [(h.idle (by simpa using hp)).2] at hq
    simp at hq
  obtain ⟨v,hv⟩ := h.value hp
  unfold PaxosInstance.phase2Value
  split
  · exact nofun
  · rw [hv]
    exact nofun

theorem Within.putInstance (h : Within S F p) (hi : inst.Within (S slot) ∧ inst.Sponsored) :
    Within S F (p.putInstance slot inst) :=
  { h with
    instances := fun slot' => by
      by_cases hne : slot' = slot
      · subst hne
        rw [PaxosProtocol.instanceAt_putInstance_self]
        exact hi
      · rw [PaxosProtocol.instanceAt_putInstance_ne _ hne]
        exact h.instances slot' }

theorem PaxosInstance.Within.vote (h : inst.Within P) (pn : ProposalNumber) {v : V} (hv : P v) :
    (inst.vote pn v).Within P := by
  refine ⟨fun x hx => ?_,h.highestAccepted,h.proposedValue⟩
  cases hx
  exact hv

theorem Within.voted (h : Within S F p) (hi : inst.Within (S slot) ∧ inst.Sponsored)
    (pn : ProposalNumber) (v : V) : Within S F ((p.putInstance slot inst).noteVote slot pn v) :=
  { h.putInstance hi with }

theorem Within.of_lookup (h : Within S F p) (hl : p.instances.lookup slot = some inst) :
    inst.Within (S slot) ∧ inst.Sponsored := by
  rw [← PaxosProtocol.instanceAt_of_lookup hl]
  exact h.instances slot

theorem Within.frame (h : Within S F p) (hq : Frame p q) : Within S F q := by
  refine ⟨fun slot => ?_,?_,?_,?_,fun f hf => h.forwarded f (hq.forwardedProposals f hf),
    hq.quorumSize ▸ h.quorum⟩
  · rw [PaxosProtocol.instanceAt,hq.instances]
    exact h.instances slot
  · rw [hq.decidedSlots]
    exact h.decided
  · intro e he
    rcases hq.election with heq | hnone
    · exact h.election e (heq ▸ he)
    · rw [hnone] at he
      cases he
  · rw [hq.elections]
    exact h.elections

theorem Carries.aside (h : Within S F p) {msg : PaxosMessage V} (hm : Aside p msg) :
    Carries S F msg := by
  cases msg with
  | decide slot v => exact h.decided hm
  | nackPrepare => trivial
  | nackAccept => trivial
  | nackLeader => trivial
  | heartbeat => trivial
  | _ => exact hm.elim

/-- A claim has a value, and its number has a round. -/
theorem PaxosInstance.Within.claim (h : inst.Within P) (env : PaxosEnv) (slot : ℕ)
    (pn : ProposalNumber) {v : V} (hv : P v) :
    (PaxosProtocol.claim env inst slot pn v).Within P ∧
      (PaxosProtocol.claim env inst slot pn v).Sponsored := by
  refine ⟨⟨h.accepted,h.highestAccepted,fun w hw => ?_⟩,fun _ => ⟨v,rfl⟩,nofun⟩
  cases hw
  exact hv

variable [DecidableEq V] {env : PaxosEnv}

theorem Within.conclude (h : Within S F p) (env : PaxosEnv) {v : V} (hv : S slot v) :
    Within S F (p.conclude env slot v).1 := by
  obtain ⟨forwarded,hsub,heq⟩ := p.conclude_frame env slot v
  rw [heq]
  refine { h with
    instances := fun slot' => ?_
    decided := fun {slot' w} hw => ?_
    forwarded := fun f hf => h.forwarded f (hsub.mem hf) }
  · by_cases hne : slot' = slot
    · subst hne
      simp only [PaxosProtocol.instanceAt,AList.lookup_erase,Option.getD_none]
      exact ⟨.new,.new⟩
    · have hat := p.instanceAt_removeInstance_ne hne
      simp only [PaxosProtocol.removeInstance,PaxosProtocol.instanceAt] at hat
      simp only [PaxosProtocol.instanceAt]
      rw [hat]
      exact h.instances slot'
  · by_cases hne : slot' = slot
    · subst hne
      rw [AList.lookup_insert] at hw
      cases hw
      exact hv
    · rw [AList.lookup_insert_ne hne] at hw
      exact h.decided hw

theorem Within.selfAccept (h : Within S F p) (env : PaxosEnv)
    (hi : inst.Within (S slot) ∧ inst.Sponsored) (pn : ProposalNumber) {v : V} (hv : S slot v) :
    Within S F (p.selfAccept env slot inst pn v).1 ∧
      ∀ o ∈ (p.selfAccept env slot inst pn v).2, Carries S F o.message := by
  have hvote : Within S F
      ((p.putInstance slot (inst.selfVote p.nodeId pn v)).noteVote slot pn v) := by
    have hw := hi.1.vote pn hv
    have hself : (inst.selfVote p.nodeId pn v).Within (S slot) ∧
        (inst.selfVote p.nodeId pn v).Sponsored :=
      ⟨⟨hw.accepted,hw.highestAccepted,hw.proposedValue⟩,hi.2.value,hi.2.idle⟩
    exact h.voted hself pn v
  unfold PaxosProtocol.selfAccept
  simp only
  split
  · refine ⟨hvote.conclude env hv,fun o ho => ?_⟩
    rw [List.mem_singleton.mp ho]
    exact hv
  · refine ⟨hvote,fun o ho => ?_⟩
    rw [List.mem_singleton.mp ho]
    exact hv

theorem PaxosProtocol.conclude_missing (p : PaxosProtocol V) (env : PaxosEnv) (slot : ℕ) (v : V) :
    (p.conclude env slot v).1.record.valueMissing = p.record.valueMissing := by
  obtain ⟨_,_,heq⟩ := p.conclude_frame env slot v
  rw [heq]

theorem PaxosProtocol.selfAccept_missing (p : PaxosProtocol V) (env : PaxosEnv) (slot : ℕ)
    (inst : PaxosInstance V) (pn : ProposalNumber) (v : V) :
    (p.selfAccept env slot inst pn v).1.record.valueMissing = p.record.valueMissing := by
  unfold PaxosProtocol.selfAccept
  simp only
  split
  · exact PaxosProtocol.conclude_missing ((p.putInstance slot _).noteVote slot pn v) env slot v
  · rfl

omit [DecidableEq V] in
theorem Within.reports (h : Within S F p) (env : PaxosEnv) (since : ℕ) :
    ∀ x ∈ p.collectAcceptedForPromise env since, S x.1 x.2.2 := by
  intro x hx
  simp only [PaxosProtocol.collectAcceptedForPromise,List.mem_filterMap] at hx
  obtain ⟨slot,_,hx⟩ := hx
  split at hx
  · cases hx
  · split at hx
    · cases hx
    · obtain ⟨a,ha,rfl⟩ := Option.map_eq_some_iff.mp hx
      exact (h.instances slot).1.accepted a ha

omit [DecidableEq V] in
theorem Within.takeOffice (h : Within S F p) (env : PaxosEnv) {e : ElectionState V}
    (he : p.election = some e) : Within S F (p.takeOffice env e) := by
  refine { h with election := nofun, elections := fun r hr => ?_ }
  rcases List.mem_append.mp hr with hr | hr
  · exact h.elections r hr
  · rw [List.mem_singleton.mp hr]
    rintro ⟨slot,v⟩ hx
    obtain ⟨b,hb⟩ := PaxosProtocol.mem_recoveredSlots.mp hx
    exact h.election e he _ ((p.highestPerSlot_highest e.accepted).reported hb).2

variable {R : Rules V} {input : Input V} {out : List (Outgoing (PaxosMessage V))}

structure Given (S : ℕ → V → Prop) (F : V → Prop) (R : Rules V) (input : Input V) : Prop where
  source : ∀ {slot v}, R.source slot v → S slot v
  message : ∀ {sender msg}, input = .message sender msg → Carries S F msg
  proposal : ∀ {v}, input = .propose v → F v

theorem Move.within (ht : Tidy p) (h : Within S F p) (hg : Given S F R input)
    (hm : Move R env input p q out) :
    Within S F q ∧ (∀ o ∈ out, Carries S F o.message) ∧
      q.record.valueMissing = p.record.valueMissing := by
  have hnil : ∀ o ∈ ([] : List (Outgoing (PaxosMessage V))), Carries S F o.message := nofun
  cases hm with
  | aside hq hout => exact ⟨h.frame hq,fun o ho => .aside h (hout o ho),hq.valueMissing⟩
  | tend hs hi hout =>
    obtain ⟨hw,hsp⟩ := h.instances _
    refine ⟨h.putInstance ⟨⟨?_,?_,?_⟩,?_,?_⟩,fun o ho => .aside h (hout o ho),rfl⟩
    · rw [hi.accepted]
      exact hw.accepted
    · rw [hi.highestAccepted]
      exact hw.highestAccepted
    · rw [hi.proposedValue]
      exact hw.proposedValue
    · rw [hi.isProposer,hi.proposedValue]
      exact hsp.value
    · rw [hi.isProposer,hi.proposalNumber,hi.promisesReceived]
      exact hsp.idle
  | promise hin hs =>
    obtain ⟨hw,hsp⟩ := h.instances _
    refine ⟨h.putInstance ⟨⟨hw.accepted,hw.highestAccepted,hw.proposedValue⟩,hsp.value,hsp.idle⟩,
      fun o ho => ?_,rfl⟩
    rw [List.mem_singleton.mp ho]
    exact ⟨hg.message hin,hw.accepted⟩
  | accept hin hs =>
    obtain ⟨hw,hsp⟩ := h.instances _
    have hv := hg.message hin
    refine ⟨h.voted ⟨hw.vote _ hv,hsp.value,hsp.idle⟩ _ _,fun o ho => ?_,rfl⟩
    rw [List.mem_singleton.mp ho]
    exact hv
  | count hin hl =>
    obtain ⟨hw,hsp⟩ := h.of_lookup hl
    obtain ⟨hround,hacc⟩ := hg.message hin
    refine ⟨h.putInstance ⟨hw.recordPromise _ hacc,hsp.value,fun hp => ?_⟩,hnil,rfl⟩
    have := (hsp.idle hp).1
    omega
  | phase2 hl hv =>
    obtain ⟨hw,hsp⟩ := h.of_lookup hl
    obtain ⟨hq,hout⟩ := h.selfAccept env ⟨hw,hsp⟩ _ (hw.phase2Value hv)
    exact ⟨hq,hout,p.selfAccept_missing env _ _ _ _⟩
  | offer hl hv =>
    refine ⟨h,fun o ho => ?_,rfl⟩
    rw [List.mem_singleton.mp ho]
    exact (h.of_lookup hl).1.phase2Value hv
  | belated _ hl hv =>
    have hS := (h.of_lookup hl).1.phase2Value hv
    refine ⟨h.conclude env hS,fun o ho => ?_,p.conclude_missing env _ _⟩
    rw [List.mem_singleton.mp ho]
    exact hS
  | tally hin hl =>
    obtain ⟨hw,hsp⟩ := h.of_lookup hl
    exact ⟨h.putInstance ⟨⟨hw.accepted,hw.highestAccepted,hw.proposedValue⟩,hsp.value,hsp.idle⟩,
      hnil,rfl⟩
  | settle _ hl _ ha =>
    have hS := (h.of_lookup hl).1.accepted _ ha
    refine ⟨h.conclude env hS,fun o ho => ?_,p.conclude_missing env _ _⟩
    rw [List.mem_singleton.mp ho]
    exact hS
  | learn hin hs =>
    have hlose : ∀ values, Within S F (p.lose values) := fun values => { h with }
    exact ⟨(hlose _).conclude env (hg.message hin),hnil,(p.lose _).conclude_missing env _ _⟩
  | missing hl hv hq =>
    exact absurd hv ((h.of_lookup hl).2.phase2Value (h.quorum.trans hq))
  | forward hin =>
    refine ⟨{ h with forwarded := fun f hf => ?_ },fun o ho => ?_,rfl⟩
    · rcases List.mem_append.mp hf with hf | hf
      · exact h.forwarded f hf
      · rw [List.mem_singleton.mp hf]
        exact hg.proposal hin
    · rw [List.mem_singleton.mp ho]
      exact hg.proposal hin
  | claim hsource _ hout =>
    obtain ⟨hw,hsp⟩ := (h.instances p.nextSlot).1.claim env p.nextSlot (.mk 1 p.nodeId)
      (hg.source hsource)
    have hnext : Within S F { p with nextSlot := p.nextSlot + 1 } := { h with }
    refine ⟨hnext.putInstance ⟨⟨hw.accepted,hw.highestAccepted,hw.proposedValue⟩,hsp.value,
      nofun⟩,fun o ho => ?_,rfl⟩
    rw [hout o ho]
    exact le_rfl
  | @lead value term hsource =>
    obtain ⟨hw,hsp⟩ := (h.instances p.nextSlot).1.claim env p.nextSlot (.mk term p.nodeId)
      (hg.source hsource)
    have hnext : Within S F { p with nextSlot := p.nextSlot + 1 } := { h with }
    have hi : (p.fastTracked env p.nextSlot (.mk term p.nodeId) value).Within (S p.nextSlot) ∧
        (p.fastTracked env p.nextSlot (.mk term p.nodeId) value).Sponsored :=
      ⟨⟨hw.accepted,hw.highestAccepted,hw.proposedValue⟩,hsp.value,nofun⟩
    obtain ⟨hq,hout⟩ := hnext.selfAccept env hi (.mk term p.nodeId) (hg.source hsource)
    exact ⟨hq,hout,PaxosProtocol.selfAccept_missing { p with nextSlot := p.nextSlot + 1 } env _ _ _ _⟩
  | retry hl hp hout =>
    obtain ⟨hw,hsp⟩ := h.of_lookup hl
    refine ⟨h.putInstance ⟨⟨hw.accepted,nofun,hw.proposedValue⟩,hsp.value,fun hp' => ?_⟩,
      fun o ho => ?_,rfl⟩
    · rw [show (PaxosProtocol.retried env p _ _).isProposer = true from hp] at hp'
      cases hp'
    · rw [hout o ho]
      exact Nat.le_add_left _ _
  | campaign _ hout =>
    refine ⟨{ h with election := fun e he => ?_ },fun o ho => ?_,rfl⟩
    · cases he
      exact h.reports env _
    · rw [hout o ho]
      trivial
  | @submit sender pn since hin _ hfree =>
    have hq : Within S F (p.submit env sender pn) := by
      obtain ⟨_,_,_,heq⟩ := PaxosProtocol.submit_frame ht env _ hfree
      rw [heq]
      exact { h with election := nofun }
    refine ⟨hq,fun o ho => ?_,?_⟩
    · rw [List.mem_singleton.mp ho]
      exact hq.reports env _
    · obtain ⟨_,_,_,heq⟩ := PaxosProtocol.submit_frame ht env _ hfree
      rw [heq]
  | poll hin he =>
    refine ⟨{ h with election := fun e he' => ?_ },hnil,rfl⟩
    cases he'
    intro x hx
    rcases List.mem_append.mp hx with hx | hx
    · exact h.election _ he x hx
    · exact hg.message hin x hx
  | elect he => exact ⟨h.takeOffice env he,hnil,rfl⟩
  | @replay r slot value hr hv hl ho hs =>
    have hS := h.elections r (List.mem_of_mem_drop hr) _ hv
    obtain ⟨hw,hsp⟩ := (h.instances slot).1.claim env slot r.number hS
    have hi : (p.replayed env slot r.number value).Within (S slot) ∧
        (p.replayed env slot r.number value).Sponsored :=
      ⟨⟨hw.accepted,hw.highestAccepted,hw.proposedValue⟩,hsp.value,nofun⟩
    obtain ⟨hq,hout⟩ := h.selfAccept env hi r.number hS
    unfold PaxosProtocol.replayAccept
    rw [if_neg hs]
    exact ⟨hq,hout,p.selfAccept_missing env _ _ _ _⟩

theorem Moves.within (ht : Tidy p) (h : Within S F p) (hg : Given S F R input)
    (hm : Moves R env input p q out) :
    Within S F q ∧ (∀ o ∈ out, Carries S F o.message) ∧
      q.record.valueMissing = p.record.valueMissing := by
  induction hm with
  | nil => exact ⟨h,nofun,rfl⟩
  | snoc hm hlast ih =>
    obtain ⟨hq,hout,hmiss⟩ := ih
    obtain ⟨hq',hout',hmiss'⟩ := hlast.within (hm.tidy ht) hq hg
    refine ⟨hq',fun o ho => ?_,hmiss'.trans hmiss⟩
    exact (List.mem_append.mp ho).elim (hout o) (hout' o)

end

section Validity
variable {N : ℕ} {M : Membership N} {P : V → Prop} {s s' : Cluster N V} {l : Label V N} {i : Fin N}

structure Cluster.Valid (P : V → Prop) (s : Cluster N V) : Prop where
  nodes : ∀ i, Within (fun _ => P) P (s.nodes i).protocol
  packets : ∀ pkt ∈ s.sent, Carries (fun _ => P) P pkt.msg.variant
  present : ∀ i, (s.nodes i).protocol.record.valueMissing = false

theorem Within.new (multi : Bool) (env : PaxosEnv) (id : NodeId) (total : ℕ) (cfg : PaxosConfig) :
    Within (fun _ => P) P (PaxosProtocol.new multi env id total cfg) :=
  ⟨fun _ => ⟨.new,.new⟩,nofun,nofun,nofun,nofun,Nat.le_add_left _ _⟩

theorem PaxosProtocol.initializeFromDecisions_decided {p : PaxosProtocol V} {ds : List (ℕ × V)}
    (hp : p.decidedSlots = ∅) (hnd : (ds.map Prod.fst).Nodup) {slot : ℕ} {v : V}
    (h : (p.initializeFromDecisions ds).decidedSlots.lookup slot = some v) : (slot,v) ∈ ds := by
  obtain ⟨decided,next,heq,_,hother,hlast⟩ := PaxosProtocol.initializeFromDecisions_frame ds p
  rw [heq] at h
  by_cases hs : slot ∈ ds.map Prod.fst
  · obtain ⟨⟨slot',w⟩,hd,rfl⟩ := List.mem_map.mp hs
    cases (hlast hnd _ hd).symm.trans h
    exact hd
  · have hnone := (hother slot hs).symm.trans h
    rw [hp] at hnone
    cases hnone

theorem Process.reboot_decided (M : Membership N) (env : PaxosEnv) (n : Process V)
    (incarnation : ℕ) {slot : ℕ} {v : V}
    (h : (n.reboot M env incarnation).protocol.decidedSlots.lookup slot = some v) :
    n.storage.lookup slot = some v := by
  have hnd : ((n.storage.entries.map fun d => (d.1,d.2)).map Prod.fst).Nodup := by
    rw [List.map_map]
    exact n.storage.nodupKeys
  obtain ⟨⟨slot',w⟩,hmem,heq⟩ :=
    List.mem_map.mp (PaxosProtocol.initializeFromDecisions_decided rfl hnd h)
  cases heq
  exact (List.mem_dlookup_iff n.storage.nodupKeys).mpr hmem

theorem Within.reboot (M : Membership N) (env : PaxosEnv) {n : Process V} (incarnation : ℕ)
    (h : ∀ slot v, n.storage.lookup slot = some v → P v) :
    Within (fun _ => P) P (n.reboot M env incarnation).protocol ∧
      (n.reboot M env incarnation).protocol.record.valueMissing = false := by
  have hd : ∀ slot v, (n.reboot M env incarnation).protocol.decidedSlots.lookup slot = some v → P v :=
    fun slot v hv => h slot v (n.reboot_decided M env incarnation hv)
  obtain ⟨decided,next,heq,_⟩ := PaxosProtocol.initializeFromDecisions_frame
    (n.storage.entries.map fun d => (d.1,d.2))
    (PaxosProtocol.new M.multi env ⟨n.protocol.nodeId.name,incarnation⟩ N M.config)
  simp only [Process.reboot,heq] at hd ⊢
  refine ⟨⟨fun _ => ⟨.new,.new⟩,fun hv => hd _ _ hv,fun e he => ?_,List.forall_mem_nil _,
    List.forall_mem_nil _,Nat.le_add_left _ _⟩,rfl⟩
  cases he

theorem Cluster.Valid.init (M : Membership N) (env : PaxosEnv) :
    Cluster.Valid P (Cluster.init M env) :=
  ⟨fun _ => .new ..,nofun,fun _ => rfl⟩

variable [DecidableEq V]

theorem Within.handle {p : PaxosProtocol V} {input : Input V} (ht : Tidy p)
    (h : Within (fun _ => P) P p)
    (hmsg : ∀ {sender msg}, input = .message sender msg → Carries (fun _ => P) P msg)
    (hprop : ∀ {v}, input = .propose v → P v) (env : PaxosEnv) :
    Within (fun _ => P) P (p.handle env input).1 ∧
      (∀ o ∈ (p.handle env input).2, Carries (fun _ => P) P o.message) ∧
      (p.handle env input).1.record.valueMissing = p.record.valueMissing := by
  refine (handle_source env input ht fun _ _ hr => hr).within ht h
    ⟨fun {slot v} hr => ?_,hmsg,hprop⟩
  cases input with
  | propose value =>
    obtain ⟨_,rfl⟩ := hr
    exact hprop rfl
  | tick =>
    obtain ⟨f,hf,rfl⟩ := List.mem_map.mp hr.2
    exact h.forwarded f (List.mem_filter.mp hf).1
  | message sender msg =>
    cases msg with
    | forward value =>
      obtain ⟨_,rfl⟩ := hr
      exact hmsg rfl
    | _ => exact hr.elim

theorem Cluster.Valid.step (hk : ∀ i, Kept s i) (h : s.Valid P)
    (hl : ∀ i env v, l = .act i env (some v) → P v) (hs : Cluster.step M s l = some s') :
    s'.Valid P := by
  rcases Cluster.step_cases hs with ⟨j,env,input,ht,rfl⟩ | ⟨j,_,rfl⟩ | ⟨j,env,incarnation,_,_,rfl⟩
  · have hmsg : ∀ {sender msg}, input = .message sender msg → Carries (fun _ => P) P msg := by
      rintro sender msg rfl
      obtain ⟨src,hsrc⟩ := Cluster.turn_message ht
      exact h.packets _ hsrc
    have hprop : ∀ {v}, input = .propose v → P v := by
      rintro v rfl
      exact hl j env v (Cluster.turn_propose ht)
    obtain ⟨hq,hout,hmiss⟩ := (h.nodes j).handle (hk j).tidy hmsg hprop env
    refine ⟨fun i => ?_,fun pkt hpkt => ?_,fun i => ?_⟩
    · by_cases hij : i = j
      · subst hij
        simpa only [Cluster.take,Function.update_self] using hq
      · simpa only [Cluster.take,Function.update_of_ne hij] using h.nodes i
    · rcases List.mem_append.mp hpkt with hpkt | hpkt
      · exact h.packets pkt hpkt
      · obtain ⟨o,ho,_,_,hm⟩ := mem_packets hpkt
        rw [hm]
        exact hout o ho
    · by_cases hij : i = j
      · subst hij
        simpa only [Cluster.take,Function.update_self] using hmiss.trans (h.present i)
      · simpa only [Cluster.take,Function.update_of_ne hij] using h.present i
  · refine ⟨fun i => ?_,h.packets,fun i => ?_⟩
    · by_cases hij : i = j
      · subst hij
        simp only [Function.update_self]
        exact { h.nodes i with }
      · simpa only [Function.update_of_ne hij] using h.nodes i
    · by_cases hij : i = j
      · subst hij
        simp only [Function.update_self]
        exact h.present i
      · simpa only [Function.update_of_ne hij] using h.present i
  · have hnew := Within.reboot M env incarnation (P := P) (n := s.nodes j)
      fun slot v hv => (h.nodes j).decided ((hk j).saved slot v hv)
    refine ⟨fun i => ?_,h.packets,fun i => ?_⟩
    · by_cases hij : i = j
      · subst hij
        simpa only [Function.update_self] using hnew.1
      · simpa only [Function.update_of_ne hij] using h.nodes i
    · by_cases hij : i = j
      · subst hij
        simpa only [Function.update_self] using hnew.2
      · simpa only [Function.update_of_ne hij] using h.present i

theorem Cluster.valid_reaches {ok : Cluster N V → Label V N → Prop} {env : PaxosEnv}
    (hok : ∀ s l, ok s l → ∀ i env v, l = .act i env (some v) → P v)
    (h : Runs.Reaches (Cluster.step M) ok (Cluster.init M env) s) : s.Valid P := by
  have hboth : (∀ i, Kept s i) ∧ s.Valid P :=
    h.invariant (fun s => (∀ i, Kept s i) ∧ s.Valid P) ⟨.init M env,.init M env⟩
      fun s l s' _ ih hl hs => ⟨fun i => ((ih.1 i).step hs).1,ih.2.step ih.1 (hok s l hl) hs⟩
  exact hboth.2

end Validity

end Paxos
end Daccord
