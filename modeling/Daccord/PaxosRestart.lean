import Daccord.PaxosHandlers
import Daccord.PaxosCluster

/-! What a Paxos node owes to the promises and votes it has sent. Within one
incarnation it keeps them until it takes up the slot itself; over a restart it keeps the
decisions it has saved. -/
namespace Daccord
namespace Paxos

variable {V : Type}

/-- The acceptor has not fallen behind `pn`, in what it promised and, when it has
voted there, in what it accepted. -/
def PaxosInstance.Stands (inst : PaxosInstance V) (pn : ProposalNumber) (voted : Bool) : Prop :=
  (∃ h ∈ inst.highestPromised, pn ≤ h) ∧ (voted = true → ∃ a ∈ inst.accepted, pn ≤ a.1)

/-- The acceptor stands by a message that it has sent. -/
def Honours (p : PaxosProtocol V) : PaxosMessage V → Prop
  | .promise slot pn _ => (p.instanceAt slot).Stands pn false
  | .accepted slot pn _ => (p.instanceAt slot).Stands pn true
  | _ => True

/-- Since `p₁` the node has taken the slot up itself: with a proposal of its own, or
with a replay after an election. -/
def Overrules (p₁ p : PaxosProtocol V) (slot : ℕ) : Prop :=
  (p.instanceAt slot).isProposer = true ∧ ((p₁.instanceAt slot).isProposer = false ∨
    ∃ e ∈ p.record.elections.drop p₁.record.elections.length, slot ∈ e.replayed.map Prod.fst)

structure PaxosInstance.Upholds (inst inst' : PaxosInstance V) : Prop where
  proposer : inst.isProposer = true → inst'.isProposer = true
  stands : ∀ {pn voted}, inst.Stands pn voted → inst'.Stands pn voted

def Upholds (p q : PaxosProtocol V) (slot : ℕ) : Prop :=
  slot ∈ q.decidedSlots ∨ (p.instanceAt slot).Upholds (q.instanceAt slot)

section
variable {p q : PaxosProtocol V} {slot slot' : ℕ} {pn : ProposalNumber} {voted : Bool}
  {inst : PaxosInstance V}

theorem PaxosInstance.Upholds.same {inst' : PaxosInstance V}
    (hp : inst'.highestPromised = inst.highestPromised) (ha : inst'.accepted = inst.accepted)
    (hi : inst'.isProposer = inst.isProposer) : inst.Upholds inst' := by
  refine ⟨hi.trans,fun hst => ?_⟩
  unfold PaxosInstance.Stands
  rw [hp,ha]
  exact hst

/-- An acceptor that goes on to `pn'`. -/
theorem PaxosInstance.Upholds.vote {pn' : ProposalNumber}
    (hle : ∀ h ∈ inst.highestPromised, h ≤ pn') (value : V) :
    inst.Upholds (inst.vote pn' value) := by
  refine ⟨id,fun {pn _} hst => ?_⟩
  obtain ⟨⟨hp,hhp,hpn⟩,_⟩ := hst
  have hpn' : pn ≤ pn' := hpn.trans (hle hp hhp)
  exact ⟨⟨pn',rfl,hpn'⟩,fun _ => ⟨(pn',value),rfl,hpn'⟩⟩

theorem Upholds.of_instanceAt (h : q.instanceAt slot = p.instanceAt slot) : Upholds p q slot :=
  Or.inr (.same (by rw [h]) (by rw [h]) (by rw [h]))

theorem Upholds.putInstance (h : (p.instanceAt slot').Upholds inst) (slot : ℕ) :
    Upholds p (p.putInstance slot' inst) slot := by
  by_cases hne : slot = slot'
  · subst hne
    refine Or.inr ?_
    rw [PaxosProtocol.instanceAt_putInstance_self]
    exact h
  · exact .of_instanceAt (PaxosProtocol.instanceAt_putInstance_ne p hne inst)

variable [DecidableEq V]

theorem Upholds.conclude (p : PaxosProtocol V) (env : PaxosEnv) (slot' : ℕ) (value : V)
    (slot : ℕ) : Upholds p (p.conclude env slot' value).1 slot := by
  by_cases hne : slot = slot'
  · subst hne
    exact Or.inl (mem_of_lookup (PaxosProtocol.lookup_conclude ..))
  · exact .of_instanceAt (p.conclude_elsewhere env slot' value hne).1

theorem Upholds.selfAccept {value : V} (env : PaxosEnv)
    (h : (p.instanceAt slot').Upholds (inst.selfVote p.nodeId pn value)) (slot : ℕ) :
    Upholds p (p.selfAccept env slot' inst pn value).1 slot := by
  by_cases hne : slot = slot'
  · subst hne
    rcases (p.selfAccept_cases env slot inst pn value).2 with ⟨hd,_⟩ | ⟨hat,_⟩
    · exact Or.inl hd
    · exact Or.inr (hat ▸ h)
  · exact .of_instanceAt (p.selfAccept_elsewhere env slot' inst pn value hne).1

/-- A vote for a proposal that takes up the slot. -/
theorem Upholds.takeUp (env : PaxosEnv) (hi : inst.isProposer = true) (value : V) (slot : ℕ) :
    Upholds p (p.selfAccept env slot' inst pn value).1 slot ∨
      ((p.selfAccept env slot' inst pn value).1.instanceAt slot).isProposer = true ∧
        slot = slot' := by
  by_cases hne : slot = slot'
  · subst hne
    rcases (p.selfAccept_cases env slot inst pn value).2 with ⟨hd,_⟩ | ⟨hat,_⟩
    · exact Or.inl (Or.inl hd)
    · refine Or.inr ⟨?_,rfl⟩
      rw [hat]
      exact hi
  · exact Or.inl (.of_instanceAt (p.selfAccept_elsewhere env slot' inst pn value hne).1)

/-- Only a proposal of its own, in a slot just taken, and a replay in the call make a
node go back on what it stands by. -/
theorem Move.upholds {R : Rules V} {env : PaxosEnv} {input : Input V}
    {out : List (Outgoing (PaxosMessage V))} (ht : Tidy p) (hm : Move R env input p q out)
    (slot : ℕ) : Upholds p q slot ∨ (q.instanceAt slot).isProposer = true ∧
      (slot = p.nextSlot ∨
        ∃ e ∈ q.record.elections.drop R.elections, slot ∈ e.replayed.map Prod.fst) := by
  cases hm with
  | aside hq =>
    refine Or.inl (.of_instanceAt ?_)
    unfold PaxosProtocol.instanceAt
    rw [hq.instances]
  | tend hs hi =>
    exact Or.inl (.putInstance (.same hi.highestPromised hi.accepted hi.isProposer) slot)
  | promise hin hs hfree =>
    refine Or.inl (.putInstance ?_ slot)
    refine ⟨id,fun ⟨⟨hp,hhp,hpn⟩,ha⟩ => ?_⟩
    exact ⟨⟨_,rfl,hpn.trans (hfree hp hhp).le⟩,ha⟩
  | @accept _ slot' pn value hin hs hfloor =>
    have hvote : (p.instanceAt slot').Upholds ((p.instanceAt slot').vote pn value) := by
      refine .vote (fun hp hhp => ?_) value
      obtain ⟨f,hf,hle⟩ := PaxosProtocol.effectiveFloor_slot hhp
      exact hle.trans (hfloor f hf)
    exact Or.inl (Upholds.putInstance hvote slot)
  | count hin hl =>
    rw [← PaxosProtocol.instanceAt_of_lookup hl]
    refine Or.inl (.putInstance ?_ slot)
    exact .same rfl rfl rfl
  | @phase2 _ _ value hl hv hq hp =>
    rw [← PaxosProtocol.instanceAt_of_lookup hl] at hp ⊢
    refine Or.inl (.selfAccept env ?_ slot)
    have hvote := PaxosInstance.Upholds.vote hp value
    exact ⟨hvote.proposer,hvote.stands⟩
  | belated => exact Or.inl (.conclude p env _ _ slot)
  | tally hin hl =>
    rw [← PaxosProtocol.instanceAt_of_lookup hl]
    refine Or.inl (.putInstance ?_ slot)
    exact .same rfl rfl rfl
  | settle => exact Or.inl (.conclude p env _ _ slot)
  | learn => exact Or.inl (.conclude (p.lose _) env _ _ slot)
  | @claim value _ =>
    by_cases hne : slot = p.nextSlot
    · subst hne
      refine Or.inr ⟨?_,Or.inl rfl⟩
      rw [PaxosProtocol.instanceAt_putInstance_self]
      rfl
    · exact Or.inl (.of_instanceAt (PaxosProtocol.instanceAt_putInstance_ne
        { p with nextSlot := p.nextSlot + 1 } hne _))
  | @lead value term =>
    exact (Upholds.takeUp (p := { p with nextSlot := p.nextSlot + 1 }) env rfl value slot).imp_right
      (And.imp_right Or.inl)
  | retry hl hp =>
    rw [← PaxosProtocol.instanceAt_of_lookup hl] at hp ⊢
    refine Or.inl (.putInstance ?_ slot)
    refine ⟨fun _ => hp,fun ⟨⟨h,hh,hpn⟩,ha⟩ => ?_⟩
    exact ⟨⟨_,rfl,hpn.trans (p.promised_lt_retryNumber hh).le⟩,ha⟩
  | submit _ _ hfree =>
    obtain ⟨_,_,_,heq⟩ := PaxosProtocol.submit_frame ht env _ hfree
    rw [heq]
    exact Or.inl (.of_instanceAt rfl)
  | @replay r slot' value hr hv hl ho hs =>
    unfold PaxosProtocol.replayAccept
    rw [if_neg hs,p.selfAccept_elections]
    refine (Upholds.takeUp env rfl value slot).imp_right fun ⟨hp,heq⟩ => ⟨hp,Or.inr ⟨r,hr,?_⟩⟩
    exact List.mem_map.mpr ⟨_,hv,heq.symm⟩
  | _ => exact Or.inl (.of_instanceAt rfl)

/-- What has become of `p₁` within its incarnation. -/
structure Since (p₁ p : PaxosProtocol V) : Prop where
  next : p₁.nextSlot ≤ p.nextSlot
  elections : p₁.record.elections <+: p.record.elections
  stands : ∀ {slot pn voted}, (p₁.instanceAt slot).Stands pn voted →
    slot ∈ p.decidedSlots ∨ Overrules p₁ p slot ∨ (p.instanceAt slot).Stands pn voted

omit [DecidableEq V] in
theorem Since.refl (p : PaxosProtocol V) : Since p p :=
  ⟨le_rfl,List.prefix_rfl,fun hst => Or.inr (Or.inr hst)⟩

theorem Since.move {R : Rules V} {env : PaxosEnv} {input : Input V} {p₁ : PaxosProtocol V}
    {out : List (Outgoing (PaxosMessage V))} (h : Since p₁ p) (h₁ : Tidy p₁) (ht : Tidy p)
    (hR : p₁.record.elections.length ≤ R.elections) (hm : Move R env input p q out) :
    Since p₁ q := by
  have hgrow := hm.elections_grow ht
  refine ⟨h.next.trans (hm.nextSlot_le ht),h.elections.trans hgrow,fun {slot pn voted} hst => ?_⟩
  rcases hm.upholds ht slot with (hd | hup) | ⟨hp,htaken⟩
  · exact Or.inl hd
  · rcases h.stands hst with hd | ⟨hp,hnew⟩ | hst
    · exact Or.inl ((hm.keeps ht).mem_decided hd)
    · refine Or.inr (Or.inl ⟨hup.proposer hp,hnew.imp_right fun ⟨e,he,hs⟩ => ⟨e,?_,hs⟩⟩)
      exact (hgrow.drop _).subset he
    · exact Or.inr (Or.inr (hup.stands hst))
  · refine Or.inr (Or.inl ⟨hp,htaken.imp (fun heq => ?_) fun ⟨e,he,hs⟩ => ⟨e,?_,hs⟩⟩)
    · rw [Bool.eq_false_iff]
      intro hold
      have hlt := h₁.proposer hold
      have hle := h.next
      omega
    · exact (List.drop_suffix_drop_left _ hR).subset he

theorem Since.moves {R : Rules V} {env : PaxosEnv} {input : Input V} {p₁ : PaxosProtocol V}
    {out : List (Outgoing (PaxosMessage V))} (h : Since p₁ p) (h₁ : Tidy p₁) (ht : Tidy p)
    (hR : p₁.record.elections.length ≤ R.elections) (hm : Moves R env input p q out) :
    Since p₁ q := by
  induction hm with
  | nil => exact h
  | snoc hm hlast ih => exact ih.move h₁ (hm.tidy ht) hR hlast

theorem Since.handle {p₁ : PaxosProtocol V} (h : Since p₁ p) (h₁ : Tidy p₁) (ht : Tidy p)
    (env : PaxosEnv) (input : Input V) : Since p₁ (p.handle env input).1 :=
  h.moves h₁ ht h.elections.length_le (handle_since env input ht)

def OnRequest (input : Input V) : PaxosMessage V → Prop
  | .promise slot pn _ => ∃ sender, input = .message sender (.prepare slot pn)
  | .accepted slot pn value => ∃ sender, input = .message sender (.accept slot pn value)
  | _ => True

omit [DecidableEq V] in
theorem OnRequest.aside {input : Input V} {msg : PaxosMessage V} (h : Aside p msg) :
    OnRequest input msg := by
  cases msg <;> trivial

theorem onRequest_conclude {input : Input V} {env : PaxosEnv} {value : V}
    {o : Outgoing (PaxosMessage V)} (h : o ∈ (p.conclude env slot value).2) :
    OnRequest input o.message := by
  rw [List.mem_singleton.mp h]
  trivial

theorem onRequest_selfAccept {input : Input V} {env : PaxosEnv} {value : V}
    {o : Outgoing (PaxosMessage V)} (h : o ∈ (p.selfAccept env slot inst pn value).2) :
    OnRequest input o.message := by
  unfold PaxosProtocol.selfAccept at h
  simp only at h
  split at h
  · exact onRequest_conclude h
  · rw [List.mem_singleton.mp h]
    trivial

theorem Move.onRequest {R : Rules V} {env : PaxosEnv} {input : Input V}
    {out : List (Outgoing (PaxosMessage V))} (hm : Move R env input p q out) :
    ∀ o ∈ out, OnRequest input o.message := by
  intro o ho
  cases hm with
  | aside _ hout => exact .aside (hout o ho)
  | tend _ _ hout => exact .aside (hout o ho)
  | promise hin =>
    rw [List.mem_singleton.mp ho]
    exact ⟨_,hin⟩
  | accept hin =>
    rw [List.mem_singleton.mp ho]
    exact ⟨_,hin⟩
  | phase2 => exact onRequest_selfAccept ho
  | belated => exact onRequest_conclude ho
  | settle => exact onRequest_conclude ho
  | forward => rw [List.mem_singleton.mp ho]; trivial
  | claim _ _ hout => rw [hout o ho]; trivial
  | lead => exact onRequest_selfAccept ho
  | retry _ _ hout => rw [hout o ho]; trivial
  | campaign _ hout => rw [hout o ho]; trivial
  | replay hr hv hl ho' hs =>
    unfold PaxosProtocol.replayAccept at ho
    rw [if_neg hs] at ho
    exact onRequest_selfAccept ho
  | offer => rw [List.mem_singleton.mp ho]; trivial
  | submit => rw [List.mem_singleton.mp ho]; trivial
  | _ => cases ho

theorem Moves.onRequest {R : Rules V} {env : PaxosEnv} {input : Input V}
    {out : List (Outgoing (PaxosMessage V))} (hm : Moves R env input p q out) :
    ∀ o ∈ out, OnRequest input o.message := by
  induction hm with
  | nil => exact nofun
  | snoc hm hlast ih =>
    intro o ho
    exact (List.mem_append.mp ho).elim (ih o) (hlast.onRequest o)

/-- What a call sends: `Accepted` at or above the promise of the slot, `Promise`
with the accepted pair, neither of them for a slot that is decided. -/
def Answers (p : PaxosProtocol V) : PaxosMessage V → Prop
  | .promise slot _ accepted => slot ∉ p.decidedSlots ∧ accepted = (p.instanceAt slot).accepted
  | .accepted slot pn _ =>
    slot ∉ p.decidedSlots ∧ ∀ h ∈ (p.instanceAt slot).highestPromised, h ≤ pn
  | _ => True

omit [DecidableEq V] in
theorem answers_handlePrepare {sender : NodeId} {o : Outgoing (PaxosMessage V)}
    (ho : o ∈ (p.handlePrepare sender slot pn).2) :
    Answers p o.message ∧ Honours (p.handlePrepare sender slot pn).1 o.message := by
  unfold PaxosProtocol.handlePrepare at ho ⊢
  cases hd : p.decidedSlots.lookup slot with
  | some v =>
    simp only [hd,List.mem_singleton] at ho
    rw [ho]
    exact ⟨trivial,trivial⟩
  | none =>
    have hs : slot ∉ p.decidedSlots := AList.lookup_eq_none.mp hd
    have hstands : ((p.putInstance slot { p.instanceAt slot with
        highestPromised := some pn }).instanceAt slot).Stands pn false := by
      rw [PaxosProtocol.instanceAt_putInstance_self]
      exact ⟨⟨pn,rfl,le_rfl⟩,nofun⟩
    simp only [hd] at ho ⊢
    split at ho
    · rename_i hn
      rw [List.mem_singleton.mp ho]
      exact ⟨⟨hs,rfl⟩,hstands⟩
    · split at ho
      · rename_i hlt
        rw [List.mem_singleton.mp ho,if_pos hlt]
        exact ⟨⟨hs,rfl⟩,hstands⟩
      · rw [List.mem_singleton.mp ho]
        exact ⟨trivial,trivial⟩

omit [DecidableEq V] in
theorem answers_handleAccept {sender : NodeId} {value : V} {o : Outgoing (PaxosMessage V)}
    (ho : o ∈ (p.handleAccept sender slot pn value).2) :
    Answers p o.message ∧ Honours (p.handleAccept sender slot pn value).1 o.message := by
  unfold PaxosProtocol.handleAccept at ho ⊢
  cases hd : p.decidedSlots.lookup slot with
  | some v =>
    simp only [hd,List.mem_singleton] at ho
    rw [ho]
    exact ⟨trivial,trivial⟩
  | none =>
    have hs : slot ∉ p.decidedSlots := AList.lookup_eq_none.mp hd
    have hstands : (((p.putInstance slot ((p.instanceAt slot).vote pn value)).noteVote slot pn
        value).instanceAt slot).Stands pn true := by
      rw [PaxosProtocol.instanceAt_noteVote,PaxosProtocol.instanceAt_putInstance_self]
      exact ⟨⟨pn,rfl,le_rfl⟩,fun _ => ⟨(pn,value),rfl,le_rfl⟩⟩
    simp only [hd] at ho ⊢
    split at ho
    · rename_i hf
      rw [List.mem_singleton.mp ho]
      refine ⟨⟨hs,fun h hh => ?_⟩,hstands⟩
      obtain ⟨f,hf',_⟩ := PaxosProtocol.effectiveFloor_slot hh
      cases hf.symm.trans hf'
    · rename_i f hf
      split at ho
      · rename_i hle
        rw [List.mem_singleton.mp ho,if_pos hle]
        refine ⟨⟨hs,fun h hh => ?_⟩,hstands⟩
        obtain ⟨f',hf',hhf⟩ := PaxosProtocol.effectiveFloor_slot hh
        cases hf.symm.trans hf'
        exact hhf.trans hle
      · rw [List.mem_singleton.mp ho]
        exact ⟨trivial,trivial⟩

theorem handle_answers (ht : Tidy p) (env : PaxosEnv) (input : Input V) :
    ∀ o ∈ (p.handle env input).2,
      Answers p o.message ∧ Honours (p.handle env input).1 o.message := by
  intro o ho
  have hrequest := (handle_lax env input ht).onRequest o ho
  obtain ⟨target,msg⟩ := o
  cases msg with
  | promise slot pn accepted =>
    obtain ⟨sender,rfl⟩ := hrequest
    exact answers_handlePrepare ho
  | accepted slot pn value =>
    obtain ⟨sender,rfl⟩ := hrequest
    exact answers_handleAccept ho
  | _ => exact ⟨trivial,trivial⟩

end

section Recovery
variable {p : PaxosProtocol V}

theorem PaxosProtocol.initializeFromDecisions_frame (ds : List (ℕ × V)) (p : PaxosProtocol V) :
    ∃ decided next, p.initializeFromDecisions ds =
        { p with decidedSlots := decided, nextSlot := next } ∧
      ((∀ slot ∈ p.decidedSlots, slot < p.nextSlot) → ∀ slot ∈ decided, slot < next) ∧
      (∀ slot, slot ∉ ds.map Prod.fst → decided.lookup slot = p.decidedSlots.lookup slot) ∧
      ((ds.map Prod.fst).Nodup → ∀ d ∈ ds, decided.lookup d.1 = some d.2) := by
  induction ds generalizing p with
  | nil => exact ⟨p.decidedSlots,p.nextSlot,rfl,id,fun _ _ => rfl,fun _ => nofun⟩
  | cons d ds ih =>
    obtain ⟨decided,next,heq,hlt,hother,hlast⟩ := ih { p with
      decidedSlots := p.decidedSlots.insert d.1 d.2
      nextSlot := if p.nextSlot ≤ d.1 then d.1 + 1 else p.nextSlot }
    refine ⟨decided,next,heq,fun h => hlt fun slot hs => ?_,fun slot hs => ?_,fun hnd => ?_⟩
    · simp only
      rcases (AList.mem_insert _).mp hs with rfl | hs
      · split <;> omega
      · have := h slot hs
        split <;> omega
    · simp only [List.map_cons,List.mem_cons,not_or] at hs
      rw [hother slot hs.2]
      exact AList.lookup_insert_ne hs.1
    · obtain ⟨hd,hnd⟩ := List.nodup_cons.mp hnd
      intro d' hd'
      rcases List.mem_cons.mp hd' with rfl | hd'
      · rw [hother _ hd]
        exact AList.lookup_insert _
      · exact hlast hnd d' hd'

theorem mem_saved {ds : List (Decision V)} {m : AList fun _ : ℕ => V} {slot : ℕ} {v : V}
    (h : (ds.foldl (fun m d => m.insert d.slot d.value) m).lookup slot = some v) :
    m.lookup slot = some v ∨ ⟨slot,v⟩ ∈ ds := by
  induction ds generalizing m with
  | nil => exact Or.inl h
  | cons d ds ih =>
    rcases ih h with h | h
    · by_cases hne : slot = d.slot
      · subst hne
        rw [AList.lookup_insert] at h
        cases h
        exact Or.inr List.mem_cons_self
      · rw [AList.lookup_insert_ne hne] at h
        exact Or.inl h
    · exact Or.inr (.tail _ h)

theorem saved_lookup {ds : List (Decision V)} {m : AList fun _ : ℕ => V} {slot : ℕ} {v : V}
    (hds : ∀ d ∈ ds, d.slot = slot → d.value = v) (h : m.lookup slot = some v) :
    (ds.foldl (fun m d => m.insert d.slot d.value) m).lookup slot = some v := by
  induction ds generalizing m with
  | nil => exact h
  | cons d ds ih =>
    refine ih (fun d' hd' => hds d' (.tail _ hd')) ?_
    by_cases hne : slot = d.slot
    · subst hne
      rw [AList.lookup_insert,hds d List.mem_cons_self rfl]
    · rw [AList.lookup_insert_ne hne]
      exact h

variable {N : ℕ}

theorem Process.reboot_tidy (M : Membership N) (env : PaxosEnv) (n : Process V)
    (incarnation : ℕ) : Tidy (n.reboot M env incarnation).protocol ∧
      (n.reboot M env incarnation).protocol.nodeId.incarnation = incarnation ∧
      ∀ slot v, n.storage.lookup slot = some v →
        (n.reboot M env incarnation).protocol.decidedSlots.lookup slot = some v := by
  obtain ⟨decided,next,heq,hlt,_,hlast⟩ := PaxosProtocol.initializeFromDecisions_frame
    (n.storage.entries.map fun d => (d.1,d.2))
    (PaxosProtocol.new M.multi env ⟨n.protocol.nodeId.name,incarnation⟩ N M.config)
  simp only [Process.reboot,heq]
  refine ⟨⟨fun hd => hlt nofun _ hd,nofun,nofun,nofun,nofun,nofun,nofun,nofun⟩,rfl,
    fun slot v hv => ?_⟩
  refine hlast ?_ (slot,v) ?_
  · rw [List.map_map]
    exact n.storage.nodupKeys
  · refine List.mem_map.mpr ⟨⟨slot,v⟩,?_,rfl⟩
    exact (List.mem_dlookup_iff n.storage.nodupKeys).mp hv

variable {M : Membership N} {s s' : Cluster N V} {l : Label V N} {i : Fin N}

structure Kept (s : Cluster N V) (i : Fin N) : Prop where
  tidy : Tidy (s.nodes i).protocol
  saved : ∀ slot v, (s.nodes i).storage.lookup slot = some v →
    (s.nodes i).protocol.decidedSlots.lookup slot = some v

theorem Kept.init (M : Membership N) (env : PaxosEnv) (i : Fin N) :
    Kept (Cluster.init M env : Cluster N V) i :=
  ⟨.new M.multi env (M.ids i) N M.config,nofun⟩

theorem Kept.drain (h : Kept s i) : Tidy (s.nodes i).drain.protocol ∧
    (∀ slot v, (s.nodes i).drain.storage.lookup slot = some v →
      (s.nodes i).drain.protocol.decidedSlots.lookup slot = some v) ∧
    ∀ slot v, (s.nodes i).storage.lookup slot = some v →
      (s.nodes i).drain.storage.lookup slot = some v := by
  refine ⟨{ h.tidy with pending := nofun },fun slot v hv => ?_,fun slot v hv => ?_⟩
  · rcases mem_saved hv with hv | hv
    · exact h.saved slot v hv
    · exact h.tidy.pending _ hv
  · refine saved_lookup (fun d hd hslot => ?_) hv
    have hdec := h.tidy.pending d hd
    rw [hslot,h.saved slot v hv] at hdec
    exact (Option.some.inj hdec).symm

variable [DecidableEq V]

/-- Every step keeps it, and no saved decision is lost. -/
theorem Kept.step (h : Kept s i) (hs : Cluster.step M s l = some s') :
    Kept s' i ∧ ∀ slot v, (s.nodes i).storage.lookup slot = some v →
      (s'.nodes i).storage.lookup slot = some v := by
  rcases Cluster.step_cases hs with ⟨j,env,input,_,rfl⟩ | ⟨j,_,rfl⟩ | ⟨j,env,incarnation,_,_,rfl⟩
  · by_cases hij : i = j
    · subst hij
      have hk := (handle_lax env input h.tidy).keeps h.tidy
      have hnode : (s.take M i env input).nodes i =
          { s.nodes i with protocol := ((s.nodes i).protocol.handle env input).1 } :=
        Function.update_self ..
      refine ⟨⟨?_,?_⟩,?_⟩ <;> rw [hnode]
      · exact hk.tidy
      · exact fun slot v hv => hk.decided (h.saved slot v hv)
      · exact fun slot v hv => hv
    · have hnode : (s.take M j env input).nodes i = s.nodes i := Function.update_of_ne hij ..
      refine ⟨⟨?_,?_⟩,?_⟩ <;> rw [hnode]
      · exact h.tidy
      · exact h.saved
      · exact fun slot v hv => hv
  · by_cases hij : i = j
    · subst hij
      obtain ⟨htidy,hsaved,hkept⟩ := h.drain
      refine ⟨⟨?_,?_⟩,?_⟩ <;> simp only [Function.update_self]
      · exact htidy
      · exact hsaved
      · exact hkept
    · refine ⟨⟨?_,?_⟩,?_⟩ <;> simp only [Function.update_of_ne hij]
      · exact h.tidy
      · exact h.saved
      · exact fun slot v hv => hv
  · by_cases hij : i = j
    · subst hij
      obtain ⟨htidy,_,hsaved⟩ := (s.nodes i).reboot_tidy M env incarnation
      refine ⟨⟨?_,?_⟩,?_⟩ <;> simp only [Function.update_self]
      · exact htidy
      · exact hsaved
      · exact fun slot v hv => hv
    · refine ⟨⟨?_,?_⟩,?_⟩ <;> simp only [Function.update_of_ne hij]
      · exact h.tidy
      · exact h.saved
      · exact fun slot v hv => hv

/-- Node `i` in its incarnation of `p₁`, or in a later one. -/
structure Onward (p₁ : PaxosProtocol V) (s : Cluster N V) (i : Fin N) : Prop where
  aged : p₁.nodeId.incarnation ≤ (s.nodes i).protocol.nodeId.incarnation
  since : (s.nodes i).protocol.nodeId = p₁.nodeId → Since p₁ (s.nodes i).protocol

theorem Onward.step {p₁ : PaxosProtocol V} (h : Onward p₁ s i) (h₁ : Tidy p₁) (hk : Kept s i)
    (hs : Cluster.step M s l = some s') : Onward p₁ s' i := by
  rcases Cluster.step_cases hs with
    ⟨j,env,input,_,rfl⟩ | ⟨j,_,rfl⟩ | ⟨j,env,incarnation,_,hlt,rfl⟩
  · by_cases hij : i = j
    · subst hij
      have hid := ((handle_lax env input hk.tidy).keeps hk.tidy).nodeId
      have hnode : (s.take M i env input).nodes i =
          { s.nodes i with protocol := ((s.nodes i).protocol.handle env input).1 } :=
        Function.update_self ..
      refine ⟨?_,?_⟩ <;> rw [hnode] <;> simp only [hid]
      · exact h.aged
      · exact fun heq => (h.since heq).handle h₁ hk.tidy env input
    · have hnode : (s.take M j env input).nodes i = s.nodes i := Function.update_of_ne hij ..
      refine ⟨?_,?_⟩ <;> rw [hnode]
      · exact h.aged
      · exact h.since
  · by_cases hij : i = j
    · subst hij
      refine ⟨?_,?_⟩ <;> simp only [Function.update_self]
      · exact h.aged
      · exact fun heq => { h.since heq with }
    · refine ⟨?_,?_⟩ <;> simp only [Function.update_of_ne hij]
      · exact h.aged
      · exact h.since
  · by_cases hij : i = j
    · subst hij
      obtain ⟨_,hinc,_⟩ := (s.nodes i).reboot_tidy M env incarnation
      have haged := h.aged
      refine ⟨?_,?_⟩ <;> simp only [Function.update_self]
      · omega
      · intro heq
        rw [heq] at hinc
        omega
    · refine ⟨?_,?_⟩ <;> simp only [Function.update_of_ne hij]
      · exact h.aged
      · exact h.since

def AnyStep (_ : Cluster N V) (_ : Label V N) : Prop := True

/-- A later message, sent in `p`, does not go back on an earlier one about the same
slot, sent before `p₁`, unless the node has taken up the slot since. -/
def Faithful (p₁ p : PaxosProtocol V) : PaxosMessage V → PaxosMessage V → Prop
  | .promise slot pn _, .accepted slot' pn' _ | .accepted slot pn _, .accepted slot' pn' _ =>
    slot = slot' → pn ≤ pn' ∨ Overrules p₁ p slot
  | .accepted slot pn _, .promise slot' pn' accepted =>
    slot = slot' → pn < pn' → (∃ a ∈ accepted, pn ≤ a.1) ∨ Overrules p₁ p slot
  | _, _ => True

def ActsOn (slot : ℕ) : PaxosMessage V → Prop
  | .promise slot' _ _ | .accepted slot' _ _ => slot' = slot
  | _ => False

theorem Kept.reaches {env : PaxosEnv} {ok : Cluster N V → Label V N → Prop}
    (hs : Runs.Reaches (Cluster.step M) ok (Cluster.init M env) s) (i : Fin N) : Kept s i :=
  hs.invariant (fun s => Kept s i) (.init M env i) fun _ _ _ _ h _ hstep => (h.step hstep).1

theorem saved_lasts {ok : Cluster N V → Label V N → Prop} (h : Kept s i)
    (hs : Runs.Reaches (Cluster.step M) ok s s') {slot : ℕ} {v : V}
    (hv : (s.nodes i).storage.lookup slot = some v) :
    Kept s' i ∧ (s'.nodes i).storage.lookup slot = some v :=
  hs.invariant (fun s' => Kept s' i ∧ (s'.nodes i).storage.lookup slot = some v) ⟨h,hv⟩
    fun _ _ _ _ h _ hstep => ⟨(h.1.step hstep).1,(h.1.step hstep).2 slot v h.2⟩

omit [DecidableEq V] in
theorem Faithful.of_answers {p₁ p : PaxosProtocol V} {early late : PaxosMessage V}
    (hsince : Since p₁ p) (hearly : Honours p₁ early) (hlate : Answers p late) :
    Faithful p₁ p early late := by
  have hvote : ∀ {slot pn pn' voted}, (p₁.instanceAt slot).Stands pn voted →
      slot ∉ p.decidedSlots ∧ (∀ h ∈ (p.instanceAt slot).highestPromised, h ≤ pn') →
      pn ≤ pn' ∨ Overrules p₁ p slot := by
    rintro slot pn pn' voted hst ⟨hs,hle⟩
    rcases (hsince.stands hst).resolve_left hs with hover | ⟨⟨h,hh,hpn⟩,_⟩
    · exact Or.inr hover
    · exact Or.inl (hpn.trans (hle h hh))
  cases early with
  | promise slot pn acc =>
    cases late with
    | accepted slot' pn' value =>
      rintro rfl
      exact hvote hearly hlate
    | _ => trivial
  | accepted slot pn value =>
    cases late with
    | accepted slot' pn' value' =>
      rintro rfl
      exact hvote hearly hlate
    | promise slot' pn' acc =>
      rintro rfl _
      obtain ⟨hs,rfl⟩ := hlate
      rcases (hsince.stands hearly).resolve_left hs with hover | ⟨_,ha⟩
      · exact Or.inr hover
      · exact Or.inl (ha rfl)
    | _ => trivial
  | _ => cases late <;> trivial

/-- A packet that a step adds answers for the node that took the turn. -/
theorem sent_answers (hk : ∀ i, Kept s i) (hs : Cluster.step M s l = some s') {pkt : Packet N V}
    (hpkt : pkt ∈ s'.sent.drop s.sent.length) :
    pkt.msg.sender = (s.nodes pkt.src).protocol.nodeId ∧
      (s'.nodes pkt.src).protocol.nodeId = (s.nodes pkt.src).protocol.nodeId ∧
      Answers (s.nodes pkt.src).protocol pkt.msg.variant ∧
      Honours (s'.nodes pkt.src).protocol pkt.msg.variant := by
  rcases Cluster.step_cases hs with ⟨j,env,input,_,rfl⟩ | ⟨j,_,rfl⟩ | ⟨j,env,incarnation,_,_,rfl⟩
  · rw [Cluster.take,List.drop_left] at hpkt
    obtain ⟨o,ho,rfl,_,hmsg⟩ := mem_packets hpkt
    have hnode : (s.take M pkt.src env input).nodes pkt.src = { s.nodes pkt.src with
        protocol := ((s.nodes pkt.src).protocol.handle env input).1 } := Function.update_self ..
    have htidy := (hk pkt.src).tidy
    rw [hmsg,hnode]
    exact ⟨rfl,((handle_lax env input htidy).keeps htidy).nodeId,
      handle_answers htidy env input o ho⟩
  · simp at hpkt
  · simp at hpkt

/-- Within one incarnation a node keeps what it has promised and accepted until it
takes up the slot itself, and it never again acts on a slot that it has saved as decided,
in this incarnation or a later one. -/
theorem acceptor_keeps_word {env : PaxosEnv} {s₀ s₁ : Cluster N V} {l₀ : Label V N}
    (h₀ : Runs.Reaches (Cluster.step M) AnyStep (Cluster.init M env) s₀)
    (hs₀ : Cluster.step M s₀ l₀ = some s₁) (h : Runs.Reaches (Cluster.step M) AnyStep s₁ s)
    (hs : Cluster.step M s l = some s') {late : Packet N V}
    (hlate : late ∈ s'.sent.drop s.sent.length) :
    (∀ early ∈ s₁.sent.drop s₀.sent.length, early.src = late.src →
      early.msg.sender = late.msg.sender → Faithful (s₁.nodes late.src).protocol
        (s.nodes late.src).protocol early.msg.variant late.msg.variant) ∧
    ∀ slot v, (s₁.nodes late.src).storage.lookup slot = some v → ¬ ActsOn slot late.msg.variant := by
  have hk₀ := fun i => Kept.reaches h₀ i
  have hk₁ : ∀ i, Kept s₁ i := fun i => ((hk₀ i).step hs₀).1
  have hgo : ∀ i, Kept s i ∧ Onward (s₁.nodes i).protocol s i := by
    intro i
    refine h.invariant (fun s => Kept s i ∧ Onward (s₁.nodes i).protocol s i)
      ⟨hk₁ i,le_rfl,fun _ => .refl _⟩ fun _ _ _ _ ih _ hstep => ?_
    exact ⟨(ih.1.step hstep).1,ih.2.step (hk₁ i).tidy ih.1 hstep⟩
  obtain ⟨hid,_,hanswers,_⟩ := sent_answers (fun i => (hgo i).1) hs hlate
  refine ⟨fun early hearly hsrc hsender => ?_,fun slot v hv hacts => ?_⟩
  · obtain ⟨hid₀,hid₁,_,hhonours⟩ := sent_answers hk₀ hs₀ hearly
    rw [hsrc] at hid₀ hid₁ hhonours
    refine .of_answers ((hgo late.src).2.since ?_) hhonours hanswers
    rw [hid₁,← hid₀,hsender,hid]
  · obtain ⟨hk',hv'⟩ := saved_lasts (hk₁ late.src) h hv
    have hd : slot ∈ (s.nodes late.src).protocol.decidedSlots :=
      mem_of_lookup (hk'.saved slot v hv')
    generalize late.msg.variant = msg at hanswers hacts
    cases msg with
    | promise slot' pn acc =>
      cases hacts
      exact hanswers.1 hd
    | accepted slot' pn value =>
      cases hacts
      exact hanswers.1 hd
    | _ => exact hacts

end Recovery

section Example

instance {V : Type} {N : ℕ} (s : Cluster N V) (l : Label V N) : Decidable (AnyStep s l) :=
  .isTrue trivial

def asking : Cluster 3 ℕ :=
  Runs.after (Cluster.step (trio false)) AnyStep (Cluster.init (trio false) (.steady 0))
    [.act 2 (.steady 1) (some 5)] (by decide +kernel)

def granting : Cluster 3 ℕ :=
  (asking.step (trio false) (.deliver 0 (.steady 2))).get (by decide +kernel)

def offering : Cluster 3 ℕ :=
  Runs.after (Cluster.step (trio false)) AnyStep granting [.deliver 2 (.steady 3)]
    (by decide +kernel)

def voting : Cluster 3 ℕ :=
  (offering.step (trio false) (.deliver 3 (.steady 4))).get (by decide +kernel)

/-- The promise and the vote are of one incarnation, and node 0 has not taken up the
slot. -/
theorem acceptor_keeps_word_voting :
    ⟨0,2,⟨⟨"a",1⟩,.promise 0 (.mk 1 ⟨"c",1⟩) none⟩⟩ ∈ granting.sent.drop asking.sent.length ∧
      ⟨0,2,⟨⟨"a",1⟩,.accepted 0 (.mk 1 ⟨"c",1⟩) 5⟩⟩ ∈ voting.sent.drop offering.sent.length ∧
      ¬ Overrules (granting.nodes 0).protocol (offering.nodes 0).protocol 0 ∧
      Faithful (granting.nodes 0).protocol (offering.nodes 0).protocol
        (.promise 0 (.mk 1 ⟨"c",1⟩) none) (.accepted 0 (.mk 1 ⟨"c",1⟩) 5) := by
  have hearly : ⟨0,2,⟨⟨"a",1⟩,.promise 0 (.mk 1 ⟨"c",1⟩) none⟩⟩ ∈
      granting.sent.drop asking.sent.length := by decide +kernel
  have hlate : ⟨0,2,⟨⟨"a",1⟩,.accepted 0 (.mk 1 ⟨"c",1⟩) 5⟩⟩ ∈
      voting.sent.drop offering.sent.length := by decide +kernel
  have hgrant : asking.step (trio false) (.deliver 0 (.steady 2)) = some granting :=
    (Option.some_get _).symm
  have hvote : offering.step (trio false) (.deliver 3 (.steady 4)) = some voting :=
    (Option.some_get _).symm
  have hfree : ((offering.nodes 0).protocol.instanceAt 0).isProposer = false := by decide +kernel
  refine ⟨hearly,hlate,fun hover => Bool.false_ne_true (hfree.symm.trans hover.1),?_⟩
  exact (acceptor_keeps_word (Runs.after_reaches .start (by decide +kernel)) hgrant
    (Runs.after_reaches .start (by decide +kernel)) hvote hlate).1 _ hearly rfl rfl

/-- Node 0 has promised the proposal of node 2, and nothing is decided. -/
def promised : Cluster 3 ℕ :=
  Runs.after (Cluster.step (trio false)) AnyStep (Cluster.init (trio false) (.steady 0))
    [.act 2 (.steady 1) (some 5),.deliver 0 (.steady 2)] (by decide +kernel)

/-- It restarts, and the proposal of node 1 reaches it. -/
def forgotten : Cluster 3 ℕ :=
  Runs.after (Cluster.step (trio false)) AnyStep promised
    [.restart 0 (.steady 3) 2,.act 1 (.steady 4) (some 6),.deliver 3 (.steady 5),
      .deliver 5 (.steady 6),.deliver 6 (.steady 7)] (by decide +kernel)

/-- The promise is not kept over the restart: a lower number is accepted. -/
theorem promise_lost_in_restart :
    Runs.Reaches (Cluster.step (trio false)) AnyStep (Cluster.init (trio false) (.steady 0)) promised ∧
      Runs.Reaches (Cluster.step (trio false)) AnyStep promised forgotten ∧
      ⟨0,2,⟨⟨"a",1⟩,.promise 0 (.mk 1 ⟨"c",1⟩) none⟩⟩ ∈ promised.sent ∧
      (promised.nodes 0).storage.lookup 0 = none ∧
      ⟨0,1,⟨⟨"a",2⟩,.accepted 0 (.mk 1 ⟨"b",1⟩) 6⟩⟩ ∈ forgotten.sent.drop promised.sent.length ∧
      ProposalNumber.mk 1 ⟨"b",1⟩ < .mk 1 ⟨"c",1⟩ :=
  ⟨Runs.after_reaches .start (by decide +kernel),Runs.after_reaches .start (by decide +kernel),
    by decide +kernel,by decide +kernel,by decide +kernel,by decide +kernel⟩

end Example

end Paxos
end Daccord
