import Daccord.PaxosBallots

/-! What a proposer decides when a quorum has answered. It decides the value of
its own accepted pair; this is what the quorum has accepted as long as the
proposer has voted for its offer and has not voted for another value since. -/
namespace Daccord
namespace Paxos

variable {V : Type} {N : ℕ}

/-- Terms start at one. -/
structure Termed (p : PaxosProtocol V) : Prop where
  leader : ∀ {t}, p.leaderState = .leader t → 1 ≤ t
  election : ∀ {e}, p.election = some e → 1 ≤ e.proposalNumber.round

/-- The proposer's side of an instance, without the promises, and its vote. -/
def PaxosInstance.tally (inst : PaxosInstance V) :=
  (inst.isProposer,inst.proposalNumber,inst.acceptsReceived,inst.accepted)

/-- One slot of the node `id`: whose votes it has counted, and its own vote for
what it offers. -/
structure Tally (offered : ProposalNumber → V → Prop) (heard : NodeId → ProposalNumber → Prop)
    (id : NodeId) (inst : PaxosInstance V) : Prop where
  idle : inst.isProposer = false → inst.acceptsReceived = ∅
  round : inst.isProposer = true → 1 ≤ inst.proposalNumber.round
  counted : ∀ u ∈ inst.acceptsReceived, u = id ∨ heard u inst.proposalNumber
  backed : ∀ v, offered inst.proposalNumber v →
    id ∈ inst.acceptsReceived ∧ ∃ own ∈ inst.accepted, own.2 = v

/-- A node that has sent `mine`; `heard` tells who has accepted what. -/
structure Tallies (mine : PaxosMessage V → Prop) (heard : ℕ → NodeId → ProposalNumber → Prop)
    (p : PaxosProtocol V) : Prop where
  termed : Termed p
  offers : ∀ {slot b v}, Offers mine p slot b v → 1 ≤ b.round ∧ ⟨slot,b,v⟩ ∈ p.record.votes
  slots : ∀ {slot}, slot ∉ p.decidedSlots →
    Tally (Offers mine p slot) (heard slot) p.nodeId (p.instanceAt slot)

section
variable {offered offered' : ProposalNumber → V → Prop} {heard heard' : NodeId → ProposalNumber → Prop}
  {id : NodeId} {inst inst' : PaxosInstance V}

theorem Tally.mono (h : Tally offered heard id inst) (ho : ∀ b v, offered' b v → offered b v)
    (hh : ∀ u b, heard u b → heard' u b) : Tally offered' heard' id inst :=
  ⟨h.idle,h.round,fun u hu => (h.counted u hu).imp_right (hh u _),
    fun v hv => h.backed v (ho _ v hv)⟩

theorem Tally.same (h : Tally offered heard id inst) (hs : inst'.tally = inst.tally) :
    Tally offered heard id inst' := by
  simp only [PaxosInstance.tally,Prod.mk.injEq] at hs
  obtain ⟨hp,hn,hacc,hown⟩ := hs
  refine ⟨?_,?_,?_,?_⟩
  · rw [hp,hacc]
    exact h.idle
  · rw [hp,hn]
    exact h.round
  · rw [hn,hacc]
    exact h.counted
  · rw [hn,hacc,hown]
    exact h.backed

end

section
variable {mine mine' : PaxosMessage V → Prop} {heard heard' : ℕ → NodeId → ProposalNumber → Prop}
  {p q : PaxosProtocol V} {slot : ℕ} {n : ProposalNumber} {v : V} {env : PaxosEnv} {input : Input V}
  {inst : PaxosInstance V} {out : List (Outgoing (PaxosMessage V))}

theorem Tallies.mono (h : Tallies mine heard p) (hm : ∀ m, mine' m → mine m)
    (hh : ∀ slot u b, heard slot u b → heard' slot u b) : Tallies mine' heard' p := by
  have hoff : ∀ {slot b v}, Offers mine' p slot b v → Offers mine p slot b v :=
    fun ho => ho.imp_left (hm _)
  exact ⟨h.termed,fun ho => h.offers (hoff ho),
    fun hs => (h.slots hs).mono (fun _ _ => hoff) (hh _)⟩

theorem Tallies.update (h : Tallies mine heard p) (hk : Keeps p q) (hterm : Termed q) (slot : ℕ)
    {O : ProposalNumber → V → Prop}
    (htally : ∀ {s}, s ≠ slot → s ∉ q.decidedSlots → (q.instanceAt s).tally = (p.instanceAt s).tally)
    (hoff : ∀ {s b v}, Offers (Sent mine out) q s b v → Offers mine p s b v ∨ (s = slot ∧ O b v))
    (hvotes : ∀ x ∈ p.record.votes, x ∈ q.record.votes)
    (hnew : ∀ {b v}, O b v → 1 ≤ b.round ∧ ⟨slot,b,v⟩ ∈ q.record.votes)
    (hslot : slot ∉ q.decidedSlots → Tally (fun b v => Offers mine p slot b v ∨ O b v)
      (heard slot) p.nodeId (q.instanceAt slot)) :
    Tallies (Sent mine out) heard q := by
  refine ⟨hterm,fun ho => ?_,fun {s} hs => ?_⟩
  · rcases hoff ho with ho | ⟨rfl,ho⟩
    · exact (h.offers ho).imp_right (hvotes _)
    · exact hnew ho
  · rw [hk.nodeId]
    by_cases hne : s = slot
    · subst hne
      exact (hslot hs).mono (fun b v ho => (hoff ho).imp_right And.right) fun _ _ => id
    · refine ((h.slots fun hd => hs (hk.mem_decided hd)).same (htally hne hs)).mono ?_ fun _ _ => id
      exact fun b v ho => (hoff ho).resolve_right fun ho => hne ho.1

theorem Tallies.quiet (h : Tallies mine heard p) (hk : Keeps p q) (hterm : Termed q)
    (htally : ∀ {s}, s ∉ q.decidedSlots → (q.instanceAt s).tally = (p.instanceAt s).tally)
    (hout : ∀ o ∈ out, Idle o.message) (hvotes : q.record.votes = p.record.votes) :
    Tallies (Sent mine out) heard q := by
  refine h.update hk hterm 0 (O := fun _ _ => False) (fun _ => htally) (fun ho => ?_)
    (fun x hx => hvotes ▸ hx) False.elim fun hs => ?_
  · exact Or.inl (ho.quiet hk.nodeId (fun o ho => (hout o ho).not_accept)
      fun x hx => Or.inl (hvotes ▸ hx))
  · refine ((h.slots fun hd => hs (hk.mem_decided hd)).same (htally hs)).mono ?_ fun _ _ => id
    exact fun _ _ ho => ho.resolve_right id

theorem Tallies.put (h : Tallies mine heard p) (hk : Keeps p (p.putInstance slot inst))
    (hterm : Termed (p.putInstance slot inst))
    (hi : Tally (Offers mine p slot) (heard slot) p.nodeId inst)
    (hout : ∀ o ∈ out, Idle o.message) :
    Tallies (Sent mine out) heard (p.putInstance slot inst) := by
  refine h.update hk hterm slot (O := fun _ _ => False) (fun hne _ => ?_) (fun ho => ?_)
    (fun x hx => hx) False.elim fun _ => ?_
  · rw [PaxosProtocol.instanceAt_putInstance_ne _ hne]
  · exact Or.inl (ho.quiet rfl (fun o ho => (hout o ho).not_accept) fun x hx => Or.inl hx)
  · rw [PaxosProtocol.instanceAt_putInstance_self]
    exact hi.mono (fun _ _ ho => ho.resolve_right False.elim) fun _ _ => id

theorem Tallies.prepare (h : Tallies mine heard p) (hk : Keeps p q) (hterm : Termed q)
    (hq : q.instances = p.instances.insert slot inst) (hvotes : q.record.votes = p.record.votes)
    (hround : 1 ≤ inst.proposalNumber.round)
    (hnew : ∀ w, ¬ Offers mine p slot inst.proposalNumber w) (hacc : inst.acceptsReceived = ∅)
    (hout : ∀ o ∈ out, ∃ b, o = ⟨.broadcast,.prepare slot b⟩) :
    Tallies (Sent mine out) heard q := by
  have hat : ∀ s, q.instanceAt s = (p.putInstance slot inst).instanceAt s := fun s => by
    rw [PaxosProtocol.instanceAt,hq]
    rfl
  refine h.update hk hterm slot (O := fun _ _ => False) (fun hne _ => ?_) (fun ho => ?_)
    (fun x hx => hvotes ▸ hx) False.elim fun _ => ?_
  · rw [hat,PaxosProtocol.instanceAt_putInstance_ne _ hne]
  · refine Or.inl (ho.quiet hk.nodeId (fun o ho s b v heq => ?_) fun x hx => Or.inl (hvotes ▸ hx))
    obtain ⟨b,rfl⟩ := hout o ho
    cases heq
  · rw [hat,PaxosProtocol.instanceAt_putInstance_self]
    refine ⟨fun _ => hacc,fun _ => hround,?_,fun w hw => ?_⟩
    · rw [hacc]
      exact fun u hu => absurd hu (Finset.notMem_empty u)
    · exact absurd (hw.resolve_right id) (hnew w)

variable [DecidableEq V]

/-- A slot is decided; its votes do not matter any more. -/
theorem Tallies.conclude (h : Tallies mine heard p) (hk : Keeps p (p.conclude env slot v).1)
    (hterm : Termed (p.conclude env slot v).1) (hout : ∀ o ∈ out, Idle o.message) :
    Tallies (Sent mine out) heard (p.conclude env slot v).1 := by
  have hd := mem_of_lookup (p.lookup_conclude env slot v)
  refine h.quiet hk hterm (fun {s} hs => ?_) hout (p.conclude_votes ..)
  have hne : s ≠ slot := by
    rintro rfl
    exact hs hd
  rw [(p.conclude_elsewhere env slot v hne).1]

theorem Tallies.selfAccept (h : Tallies mine heard p)
    (hk : Keeps p (p.selfAccept env slot inst n v).1)
    (hterm : Termed (p.selfAccept env slot inst n v).1) (hround : 1 ≤ n.round)
    (hp : inst.isProposer = true) (hn : inst.proposalNumber = n)
    (hv : ∀ w, Offers mine p slot n w → w = v)
    (hcounted : ∀ u ∈ inst.acceptsReceived, u = p.nodeId ∨ heard slot u n) :
    Tallies (Sent mine (p.selfAccept env slot inst n v).2) heard
      (p.selfAccept env slot inst n v).1 := by
  obtain ⟨hvotes,hcases⟩ := p.selfAccept_cases env slot inst n v
  refine h.update hk hterm slot (O := fun b w => b = n ∧ w = v) (fun hne _ => ?_) (fun ho => ?_)
    (fun x hx => ?_) ?_ fun hs => ?_
  · rw [(p.selfAccept_elsewhere env slot inst n v hne).1]
  · exact ho.sent slot _ hk.nodeId (fun o ho s b => (PaxosProtocol.selfAccept_out ho s b).2)
      fun x hx => (PaxosProtocol.selfAccept_votes hx).imp_right Or.inl
  · rw [hvotes]
    exact List.mem_append_left _ hx
  · rintro b w ⟨rfl,rfl⟩
    rw [hvotes]
    exact ⟨hround,List.mem_append_right _ (List.mem_singleton.mpr rfl)⟩
  · rcases hcases with ⟨hd,_⟩ | ⟨hat,_⟩
    · exact absurd hd hs
    · rw [hat]
      refine ⟨fun hp' => ?_,fun _ => hn ▸ hround,fun u hu => ?_,fun w hw => ?_⟩
      · change inst.isProposer = false at hp'
        rw [hp] at hp'
        cases hp'
      · change u = p.nodeId ∨ heard slot u inst.proposalNumber
        rw [hn]
        rcases Finset.mem_insert.mp hu with rfl | hu
        · exact Or.inl rfl
        · exact hcounted u hu
      · change Offers mine p slot inst.proposalNumber w ∨ (inst.proposalNumber = n ∧ w = v) at hw
        rw [hn] at hw
        refine ⟨Finset.mem_insert_self _ _,(n,v),rfl,?_⟩
        exact (hw.elim (hv w) And.right).symm

theorem Termed.conclude (h : Termed p) : Termed (p.conclude env slot v).1 := by
  obtain ⟨_,_,heq⟩ := p.conclude_frame env slot v
  rw [heq]
  exact ⟨h.leader,h.election⟩

theorem Termed.selfAccept (h : Termed p) : Termed (p.selfAccept env slot inst n v).1 := by
  have hput : Termed ((p.putInstance slot (inst.selfVote p.nodeId n v)).noteVote slot n v) :=
    ⟨h.leader,h.election⟩
  unfold PaxosProtocol.selfAccept
  simp only
  split
  · exact hput.conclude
  · exact hput

theorem Move.termed {R : Rules V} (ht : Tidy p) (h : Termed p) (hm : Move R env input p q out) :
    Termed q := by
  have hsame : Termed { p with nextSlot := p.nextSlot + 1 } := ⟨h.leader,h.election⟩
  cases hm with
  | aside hq =>
    refine ⟨fun {t} hl => ?_,fun he => ?_⟩
    · rcases hq.leaderState with heq | hne
      · exact h.leader (heq ▸ hl)
      · exact absurd hl (hne t)
    · rcases hq.election with heq | heq
      · exact h.election (heq ▸ he)
      · rw [heq] at he
        cases he
  | phase2 => exact h.selfAccept
  | belated => exact h.conclude
  | settle => exact h.conclude
  | learn => exact Termed.conclude (p := p.lose _) ⟨h.leader,h.election⟩
  | lead => exact hsame.selfAccept
  | campaign =>
    refine ⟨nofun,fun he => ?_⟩
    cases he
    exact Nat.le_add_left 1 _
  | submit _ _ hfree =>
    obtain ⟨state,_,hstate,heq⟩ := PaxosProtocol.submit_frame ht env _ hfree
    rw [heq]
    exact ⟨fun {t} hl => absurd hl (hstate t),nofun⟩
  | poll _ he =>
    have hround := h.election he
    refine ⟨h.leader,fun he' => ?_⟩
    cases he'
    exact hround
  | elect he =>
    refine ⟨fun hl => ?_,nofun⟩
    cases hl
    exact h.election he
  | replay hr hv hl ho hs =>
    unfold PaxosProtocol.replayAccept
    rw [if_neg hs]
    exact h.selfAccept
  | _ => exact ⟨h.leader,h.election⟩

def Answered (heard : ℕ → NodeId → ProposalNumber → Prop) (input : Input V) : Prop :=
  ∀ {sender slot b v}, input = .message sender (.accepted slot b v) →
    1 ≤ b.round ∧ heard slot sender b

theorem Move.tallies {world : PaxosMessage V → Prop} {R : Rules V} (hf : R.firm) (hR : R.orderly)
    (h2 : 2 ≤ p.quorumSize) (ht : Tidy p) (hb : Ballots world mine p) (h : Tallies mine heard p)
    (hin : Heard world mine p.nodeId input) (hans : Answered heard input)
    (hm : Move R env input p q out) : Tallies (Sent mine out) heard q := by
  have hk := hm.keeps ht
  have hterm := hm.termed ht h.termed
  cases hm with
  | aside hq hout =>
    refine h.quiet hk hterm (fun {s} _ => ?_) (fun o ho => (hout o ho).idle) hq.votes
    rw [PaxosProtocol.instanceAt,hq.instances]
    rfl
  | tend hs hi hout =>
    refine h.put hk hterm ((h.slots hs).same ?_) fun o ho => (hout o ho).idle
    unfold PaxosInstance.tally
    rw [hi.isProposer,hi.proposalNumber,hi.acceptsReceived,hi.accepted]
  | promise _ hs => exact h.put hk hterm ((h.slots hs).same rfl) (Idle.single trivial)
  | @accept sender slot pn value he hs _ hown =>
    obtain ⟨hforeign,_⟩ := hin.accept he
    refine h.update hk hterm slot (O := fun _ _ => False) (fun hne _ => ?_) (fun ho => Or.inl ?_)
      (fun x hx => List.mem_append_left _ hx) False.elim fun _ => ?_
    · rw [PaxosProtocol.instanceAt_noteVote,PaxosProtocol.instanceAt_putInstance_ne _ hne]
    · refine ho.quiet rfl (by simp) fun x hx => ?_
      rcases List.mem_append.mp hx with hx | hx
      · exact Or.inl hx
      · rw [List.mem_singleton.mp hx]
        exact Or.inr hforeign
    · rw [PaxosProtocol.instanceAt_noteVote,PaxosProtocol.instanceAt_putInstance_self]
      have hi := h.slots hs
      refine ⟨hi.idle,hi.round,hi.counted,fun v hv => ?_⟩
      obtain ⟨hmem,own,hacc,rfl⟩ := hi.backed v (hv.resolve_right id)
      exact ⟨hmem,(pn,value),rfl,(hown hf hmem own hacc).symm⟩
  | count _ hl =>
    refine h.put hk hterm ((h.slots (ht.not_decided hl)).same ?_)
      (List.forall_mem_nil _)
    rw [PaxosProtocol.instanceAt_of_lookup hl]
    rfl
  | phase2 hl hv hq =>
    have hbal := hb.slots (ht.not_decided hl)
    have hi := h.slots (ht.not_decided hl)
    rw [PaxosProtocol.instanceAt_of_lookup hl] at hbal hi
    have hp := hbal.isProposer (by omega) hq
    exact h.selfAccept hk hterm (hi.round hp) hp rfl (fun w hw => hbal.offered_eq hv hq hw) hi.counted
  | offer _ _ _ hwaver => exact absurd hf hwaver
  | belated => exact h.conclude hk hterm (Idle.single trivial)
  | @tally sender slot value inst he hl =>
    obtain ⟨hround,hheard⟩ := hans he
    have hbal := hb.slots (ht.not_decided hl)
    have hi := h.slots (ht.not_decided hl)
    rw [PaxosProtocol.instanceAt_of_lookup hl] at hbal hi
    refine h.put hk hterm ⟨fun hp => ?_,hi.round,fun u hu => ?_,fun v hv => ?_⟩
      (List.forall_mem_nil _)
    · have hzero := (hbal.idle hp).2.1
      omega
    · rcases Finset.mem_insert.mp hu with rfl | hu
      · exact Or.inr hheard
      · exact hi.counted u hu
    · exact (hi.backed v hv).imp_left (Finset.mem_insert_of_mem ·)
  | settle => exact h.conclude hk hterm (Idle.single trivial)
  | learn =>
    have hlose : ∀ values, Tallies mine heard (p.lose values) :=
      fun _ => ⟨⟨h.termed.leader,h.termed.election⟩,h.offers,h.slots⟩
    refine (hlose _).conclude ?_ hterm (List.forall_mem_nil _)
    exact { hk with }
  | missing => exact h.quiet hk hterm (fun _ => rfl) (List.forall_mem_nil _) rfl
  | forward => exact h.quiet hk hterm (fun _ => rfl) (Idle.single trivial) rfl
  | claim _ _ hout =>
    have hidle := ht.idle (le_refl p.nextSlot)
    refine h.prepare hk hterm rfl rfl le_rfl (fun w => ?_) ?_ fun o ho => ⟨_,hout o ho⟩
    · exact ((hb.slots ht.next_not_decided).idle hidle).2.2.1 _ w
    · exact (h.slots ht.next_not_decided).idle hidle
  | @lead value term _ _ hl =>
    have hidle := ht.idle (le_refl p.nextSlot)
    have halloc : Tallies mine heard { p with nextSlot := p.nextSlot + 1 } :=
      ⟨⟨h.termed.leader,h.termed.election⟩,h.offers,h.slots⟩
    refine halloc.selfAccept (.selfAccept ht.allocate env ht.next_not_decided ?_ _ _) hterm
      (h.termed.leader hl) rfl rfl (fun w hw => ?_) ?_
    · exact fun _ => Nat.lt_succ_self _
    · exact absurd hw (((hb.slots ht.next_not_decided).idle hidle).2.2.1 _ w)
    · intro u hu
      change u ∈ (p.instanceAt p.nextSlot).acceptsReceived at hu
      rw [(h.slots ht.next_not_decided).idle hidle] at hu
      cases hu
  | @retry slot inst _ hl hp hout =>
    have hbal := hb.slots (ht.not_decided hl)
    rw [PaxosProtocol.instanceAt_of_lookup hl] at hbal
    refine h.prepare hk hterm rfl rfl (Nat.le_add_left 1 _) (fun w hw => ?_) rfl
      fun o ho => ⟨_,hout o ho⟩
    exact absurd (hbal.offered_le _ w hw) (p.lt_retryNumber inst).not_ge
  | campaign _ hout =>
    refine h.quiet hk hterm (fun _ => rfl) (fun o ho => ?_) rfl
    rw [hout o ho]
    trivial
  | submit _ _ hfree =>
    obtain ⟨_,_,_,heq⟩ := PaxosProtocol.submit_frame ht env _ hfree
    rw [heq] at hk hterm ⊢
    exact h.quiet hk hterm (fun _ => rfl) (Idle.single trivial) rfl
  | poll => exact h.quiet hk hterm (fun _ => rfl) (List.forall_mem_nil _) rfl
  | elect => exact h.quiet hk hterm (fun _ => rfl) (List.forall_mem_nil _) rfl
  | replay hr hv hl ho hs hlt _ horder =>
    have habove := ((hb.slots hs).above (horder hR)).1
    unfold PaxosProtocol.replayAccept at hk hterm ⊢
    rw [if_neg hs] at hk hterm ⊢
    refine h.selfAccept hk hterm (h.termed.leader hl) rfl rfl (fun w hw => ?_) fun u hu => ?_
    · exact absurd (habove _ w hw) (lt_irrefl _)
    · exact absurd hu (Finset.notMem_empty u)

theorem Moves.tallies {world : PaxosMessage V → Prop} {R : Rules V} (hf : R.firm) (hR : R.orderly)
    (h2 : 2 ≤ p.quorumSize) (ht : Tidy p) (hb : Ballots world mine p) (h : Tallies mine heard p)
    (hin : Heard world mine p.nodeId input) (hans : Answered heard input)
    (hm : Moves R env input p q out) : Tallies (Sent mine out) heard q := by
  induction hm with
  | nil => exact h.mono (fun _ hm => hm.resolve_right nofun) fun _ _ _ => id
  | @snoc r r' out out' hm hlast ih =>
    have hk := hm.keeps ht
    have hr := hin.later out
    rw [← hk.nodeId] at hr
    exact (hlast.tallies hf hR (by rw [hk.quorumSize]; exact h2) hk.tidy
      (hm.ballots hR h2 ht hb hin) ih hr hans).mono (fun _ => Sent.append) fun _ _ _ => id

end

def Cluster.Acked (M : Membership N) (s : Cluster N V) (slot : ℕ) (id : NodeId)
    (b : ProposalNumber) : Prop :=
  ∃ k v, M.ids k = id ∧ s.Says k (.accepted slot b v)

section
variable [DecidableEq V] {M : Membership N} {s s' : Cluster N V} {l : Label V N} {i : Fin N}
  {env now : PaxosEnv} {input : Input V}

/-- A step in which a call, if there is one, is orderly and firm. -/
def FirmStep (s : Cluster N V) (l : Label V N) : Prop :=
  CrashFree s l ∧ ∀ t ∈ s.turn l, Orderly (s.nodes t.1).protocol t.2.2 ∧ Firm (s.nodes t.1).protocol t.2.2

omit [DecidableEq V] in
theorem FirmStep.orderlyStep (h : FirmStep s l) : OrderlyStep s l :=
  ⟨h.1,fun t ht => (h.2 t ht).1⟩

/-- Every node counts votes that were cast, and `Accepted` is sent on request. -/
structure Cluster.Counted (M : Membership N) (s : Cluster N V) : Prop where
  balloted : Balloted M s
  tallies : ∀ i, Tallies (s.Says i) (s.Acked M) (s.nodes i).protocol
  senders : ∀ pkt ∈ s.sent, pkt.msg.sender = M.ids pkt.src
  answers : ∀ {slot b v}, s.Said (.accepted slot b v) → s.Said (.accept slot b v)

omit [DecidableEq V] in
theorem Cluster.Counted.init (M : Membership N) (env : PaxosEnv) :
    (Cluster.init M env : Cluster N V).Counted M := by
  have hmute : ∀ i msg, ¬ (Cluster.init M env : Cluster N V).Says i msg := by
    rintro i msg ⟨pkt,hpkt,_⟩
    cases hpkt
  have hoff : ∀ {i slot b v}, ¬ Offers ((Cluster.init M env : Cluster N V).Says i)
      ((Cluster.init M env : Cluster N V).nodes i).protocol slot b v := by
    rintro i slot b v (hm | ⟨_,hx⟩)
    · exact hmute i _ hm
    · cases hx
  refine ⟨.init M env,fun i => ⟨⟨nofun,nofun⟩,fun ho => absurd ho hoff,fun _ => ?_⟩,nofun,?_⟩
  · exact ⟨fun _ => rfl,nofun,nofun,fun v hv => absurd hv hoff⟩
  · rintro slot b v ⟨pkt,hpkt,_⟩
    cases hpkt

omit [DecidableEq V] in
/-- A vote that arrives is one for an offer of its owner. -/
theorem Cluster.Counted.offered (h : s.Counted M) {slot : ℕ} {b : ProposalNumber} {v : V}
    (ha : s.Said (.accepted slot b v)) :
    ∃ j, b.node = M.ids j ∧ Offers (s.Says j) (s.nodes j).protocol slot b v :=
  h.balloted.offered (Or.inl (h.answers ha))

omit [DecidableEq V] in
theorem Cluster.Counted.answered (h : s.Counted M) (ht : s.turn l = some (i,now,input)) :
    Answered (s.Acked M) input := by
  rintro sender slot b v rfl
  obtain ⟨src,hsrc⟩ := Cluster.turn_message ht
  obtain ⟨j,_,hj⟩ := h.offered ⟨_,hsrc,rfl⟩
  exact ⟨((h.tallies j).offers hj).1,src,v,(h.senders _ hsrc).symm,_,hsrc,rfl,rfl⟩

theorem Cluster.Counted.take (h : s.Counted M) (hN : 2 ≤ N) (ht : s.turn l = some (i,now,input))
    (ho : Orderly (s.nodes i).protocol input) (hf : Firm (s.nodes i).protocol input) :
    (s.take M i now input).Counted M := by
  obtain ⟨htidy,hident,hquorum⟩ := h.balloted.nodes i
  have h2 : 2 ≤ (s.nodes i).protocol.quorumSize := by omega
  have hmoves := handle_moves ⟨False,False,True,False,True,fun _ _ => True,0⟩ now input htidy
    ⟨False.elim,False.elim,fun _ => ho,False.elim,fun _ => hf,fun _ => h2,fun _ _ _ => trivial,Nat.zero_le _⟩
  have hsaid : ∀ msg, s.Said msg → (s.take M i now input).Said msg := by
    rintro msg ⟨pkt,hpkt,heq⟩
    exact ⟨pkt,List.mem_append_left _ hpkt,heq⟩
  have hacked : ∀ slot u b, s.Acked M slot u b → (s.take M i now input).Acked M slot u b := by
    rintro slot u b ⟨k,v,hk,pkt,hpkt,hsrc,heq⟩
    exact ⟨k,v,hk,pkt,List.mem_append_left _ hpkt,hsrc,heq⟩
  refine ⟨h.balloted.take hN ht ho,fun j => ?_,fun pkt hpkt => ?_,fun {slot b v} ha => ?_⟩
  · by_cases hji : j = i
    · subst hji
      have htal := hmoves.tallies trivial trivial h2 htidy (h.balloted.ballots j) (h.tallies j)
        (h.balloted.heard ht) (h.answered ht)
      rw [show ((s.take M j now input).nodes j).protocol =
        ((s.nodes j).protocol.handle now input).1 by simp [Cluster.take]]
      exact htal.mono (fun msg hm => hm.take.imp_right And.right) hacked
    · rw [show (s.take M i now input).nodes j = s.nodes j from Function.update_of_ne hji _ _]
      exact (h.tallies j).mono (fun msg hm => hm.take.resolve_right fun hm => hji hm.1) hacked
  · rcases List.mem_append.mp hpkt with hpkt | hpkt
    · exact h.senders pkt hpkt
    · obtain ⟨_,_,hsrc,_,hmsg⟩ := mem_packets hpkt
      rw [hmsg,hsrc]
      exact hident
  · obtain ⟨pkt,hpkt,heq⟩ := ha
    have hsent : (s.take M i now input).Says pkt.src (.accepted slot b v) := ⟨pkt,hpkt,rfl,heq⟩
    rcases hsent.take with hold | ⟨_,o,ho',hmsg⟩
    · exact hsaid _ (h.answers hold.said)
    · have hreq : OnRequest input o.message := hmoves.onRequest o ho'
      rw [hmsg] at hreq
      obtain ⟨sender,rfl⟩ := hreq
      obtain ⟨src,hsrc⟩ := Cluster.turn_message ht
      exact hsaid _ ⟨_,hsrc,rfl⟩

theorem Cluster.Counted.step (hN : 2 ≤ N) (h : s.Counted M) (hok : FirmStep s l)
    (hs : Cluster.step M s l = some s') : s'.Counted M := by
  have hbal := h.balloted.step hN hok.orderlyStep hs
  rcases Cluster.step_cases hs with ⟨j,now,input,ht,rfl⟩ | ⟨j,_,rfl⟩ | ⟨j,now,incarnation,rfl,_⟩
  · exact h.take hN ht (hok.2 _ ht).1 (hok.2 _ ht).2
  · refine ⟨hbal,?_,h.senders,h.answers⟩
    refine (Function.forall_update_iff s.nodes
      fun i n => Tallies (s.Says i) (s.Acked M) n.protocol).mpr ⟨?_,fun i _ => h.tallies i⟩
    have hj := h.tallies j
    exact ⟨⟨hj.termed.leader,hj.termed.election⟩,hj.offers,hj.slots⟩
  · exact hok.1.elim

theorem counted_of_reaches (hN : 2 ≤ N)
    (h : Runs.Reaches (Cluster.step M) FirmStep (Cluster.init M env) s) : s.Counted M :=
  h.invariant (Cluster.Counted M) (.init M env) fun _ _ _ _ ih hok hs => ih.step hN hok hs

/-- The quorum is complete and the own vote is there: it is decided. -/
theorem PaxosProtocol.handleAccepted_decides {p : PaxosProtocol V} {sender : NodeId} {slot : ℕ}
    {inst : PaxosInstance V} {v : V} {own : ProposalNumber × V} (hs : slot ∉ p.decidedSlots)
    (hl : p.instances.lookup slot = some inst) (hopen : inst.decided = false)
    (hq : p.quorumSize ≤ (insert sender inst.acceptsReceived).card) (hown : own ∈ inst.accepted) :
    p.handleAccepted now sender slot inst.proposalNumber v = p.conclude now slot own.2 := by
  have hown' : inst.accepted = some own := hown
  unfold PaxosProtocol.handleAccepted
  simp only [if_neg hs,hl,hopen,and_self,if_true,if_pos hq,hown']
  exact PaxosProtocol.conclude_putInstance ..

/-- In orderly and firm runs without restarts, an `Accepted` that completes the
quorum of a slot finds the proposer's own vote there, and what is decided is the
value that every node counted has accepted under the number. -/
theorem decides_accepted_value
    (h : Runs.Reaches (Cluster.step M) FirmStep (Cluster.init M env) s) {sender : NodeId}
    {slot : ℕ} {v : V} {inst : PaxosInstance V}
    (ht : s.turn l = some (i,now,.message sender (.accepted slot inst.proposalNumber v)))
    (hl : (s.nodes i).protocol.instances.lookup slot = some inst) (hopen : inst.decided = false)
    (hq : (s.nodes i).protocol.quorumSize ≤ (insert sender inst.acceptsReceived).card) :
    ∃ own ∈ inst.accepted,
      ((s.nodes i).protocol.handle now
        (.message sender (.accepted slot inst.proposalNumber v))).1.decidedSlots.lookup slot =
          some own.2 ∧
      ∀ u ∈ insert sender inst.acceptsReceived,
        (u = M.ids i ∧ ⟨slot,inst.proposalNumber,own.2⟩ ∈ (s.nodes i).protocol.record.votes) ∨
        ∃ k, M.ids k = u ∧ s.Says k (.accepted slot inst.proposalNumber own.2) ∧
          ∀ w, s.Says k (.accepted slot inst.proposalNumber w) → w = own.2 := by
  obtain ⟨src,hsrc⟩ := Cluster.turn_message ht
  rcases Nat.lt_or_ge N 2 with hN | hN
  · rw [(alone_of_reaches hN (fun _ _ hl => hl.1) h).sent] at hsrc
    cases hsrc
  have hc := counted_of_reaches hN h
  obtain ⟨htidy,hident,_⟩ := hc.balloted.nodes i
  have hs := htidy.not_decided hl
  have htal := (hc.tallies i).slots hs
  have hbal := (hc.balloted.ballots i).slots hs
  rw [PaxosProtocol.instanceAt_of_lookup hl] at htal hbal
  obtain ⟨hround,hheard⟩ := hc.answered ht rfl
  -- the offer is the proposer's own, so its vote for it is counted
  have hp : inst.isProposer = true := by
    by_contra hp
    have hzero := (hbal.idle (by simpa using hp)).2.1
    omega
  have hmine : ∀ {w}, s.Said (.accepted slot inst.proposalNumber w) →
      Offers (s.Says i) (s.nodes i).protocol slot inst.proposalNumber w := fun ha => by
    obtain ⟨j,hj,hoff⟩ := hc.offered ha
    have hij : i = j := M.distinct (hident.symm.trans ((hbal.owner hp).symm.trans hj))
    exact hij ▸ hoff
  obtain ⟨_,own,hown,rfl⟩ := htal.backed v (hmine ⟨_,hsrc,rfl⟩)
  have hunique : ∀ {w}, s.Said (.accepted slot inst.proposalNumber w) → w = own.2 := fun ha =>
    (hc.balloted.ballots i).unique (hmine ha) (hmine ⟨_,hsrc,rfl⟩)
  refine ⟨own,hown,?_,fun u hu => ?_⟩
  · change (PaxosProtocol.handleAccepted now (s.nodes i).protocol sender slot inst.proposalNumber
      own.2).1.decidedSlots.lookup slot = _
    rw [PaxosProtocol.handleAccepted_decides hs hl hopen hq hown]
    exact PaxosProtocol.lookup_conclude ..
  · have hacked : u = (s.nodes i).protocol.nodeId ∨ s.Acked M slot u inst.proposalNumber := by
      rcases Finset.mem_insert.mp hu with rfl | hu
      · exact Or.inr hheard
      · exact htal.counted u hu
    rcases hacked with rfl | ⟨k,w,hk,hspoke⟩
    · exact Or.inl ⟨hident,((hc.tallies i).offers (hmine ⟨_,hsrc,rfl⟩)).2⟩
    · cases hunique hspoke.said
      exact Or.inr ⟨k,hk,hspoke,fun w hw => hunique hw.said⟩

instance (s : Cluster N V) (l : Label V N) : Decidable (FirmStep s l) :=
  inferInstanceAs (Decidable (CrashFree s l ∧ ∀ t ∈ s.turn l,
    Orderly (s.nodes t.1).protocol t.2.2 ∧ Firm (s.nodes t.1).protocol t.2.2))

end

/-- Node 2 has offered 5 in slot 0 and node 0 has accepted it. -/
def seconded : Cluster 3 ℕ :=
  Runs.after (Cluster.step (trio false)) FirmStep (Cluster.init (trio false) (.steady 0))
    [.act 2 (.steady 1) (some 5),.deliver 0 (.steady 2),.deliver 2 (.steady 3),
      .deliver 3 (.steady 4)] (by decide +kernel)

theorem decides_accepted_value_seconded :
    ∃ inst, (seconded.nodes 2).protocol.instances.lookup 0 = some inst ∧
      ∃ own ∈ inst.accepted,
        ((seconded.nodes 2).protocol.handle (.steady 5)
          (.message ⟨"a",1⟩ (.accepted 0 inst.proposalNumber 5))).1.decidedSlots.lookup 0 =
            some own.2 := by
  have hsome : ((seconded.nodes 2).protocol.instances.lookup 0).isSome = true := by decide +kernel
  obtain ⟨inst,hl⟩ := Option.isSome_iff_exists.mp hsome
  have hfacts : ∀ inst ∈ (seconded.nodes 2).protocol.instances.lookup 0,
      inst.proposalNumber = .mk 1 ⟨"c",1⟩ ∧ inst.decided = false ∧
        (seconded.nodes 2).protocol.quorumSize ≤ (insert ⟨"a",1⟩ inst.acceptsReceived).card := by
    decide +kernel
  obtain ⟨hpn,hopen,hq⟩ := hfacts inst hl
  have hreach : Runs.Reaches (Cluster.step (trio false)) FirmStep
      (Cluster.init (trio false) (.steady 0)) seconded :=
    Runs.after_reaches .start (by decide +kernel)
  obtain ⟨own,hown,hd,_⟩ := decides_accepted_value hreach (l := .deliver 5 (.steady 5))
    (by rw [hpn]; rfl) hl hopen hq
  exact ⟨inst,hl,own,hown,hd⟩

def quintet (multi : Bool) : Membership 5 where
  ids := ![⟨"a",1⟩,⟨"b",1⟩,⟨"c",1⟩,⟨"d",1⟩,⟨"e",1⟩]
  distinct := by decide
  config := ⟨100⟩
  multi := multi

/-- Node 0 promises the number of node 4 before it has a quorum for its own, so
that it does not vote for its offer; nodes 1, 2 and 3 do. The votes of nodes 1
and 2 have been counted. -/
def abstained : Cluster 5 ℕ :=
  Runs.after (Cluster.step (quintet false)) CrashFree (Cluster.init (quintet false) (.steady 0))
    [.act 0 (.steady 1) (some 1),.act 4 (.steady 2) (some 2),.deliver 4 (.steady 3),
      .deliver 0 (.steady 4),.deliver 1 (.steady 5),.deliver 9 (.steady 6),.deliver 10 (.steady 7),
      .deliver 11 (.steady 8),.deliver 12 (.steady 9),.deliver 13 (.steady 10),
      .deliver 15 (.steady 11),.deliver 16 (.steady 12)] (by decide +kernel)

/-- The vote of node 3 completes the quorum. -/
theorem own_vote_missing :
    Runs.Reaches (Cluster.step (quintet false)) CrashFree
        (Cluster.init (quintet false) (.steady 0)) abstained ∧
      abstained.turn (.deliver 17 (.steady 13)) =
        some (0,.steady 13,.message ⟨"d",1⟩ (.accepted 0 (.mk 1 ⟨"a",1⟩) 1)) ∧
      ((abstained.nodes 0).protocol.instanceAt 0).proposalNumber = .mk 1 ⟨"a",1⟩ ∧
      ((abstained.nodes 0).protocol.instanceAt 0).acceptsReceived = {⟨"b",1⟩,⟨"c",1⟩} ∧
      (abstained.nodes 0).protocol.quorumSize = 3 ∧
      ((abstained.nodes 0).protocol.instanceAt 0).accepted = none ∧
      (abstained.nodes 0).protocol.record.panicked = false ∧
      ((abstained.nodes 0).protocol.handle (.steady 13)
        (.message ⟨"d",1⟩ (.accepted 0 (.mk 1 ⟨"a",1⟩) 1))).1.record.panicked = true :=
  ⟨Runs.after_reaches .start (by decide +kernel),rfl,by decide +kernel,by decide +kernel,
    by decide +kernel,by decide +kernel,by decide +kernel,by decide +kernel⟩

end Paxos
end Daccord
