import Daccord.PaxosSlots
import Daccord.PaxosValues

/-! Paxos nodes over their storage, in the build without `multi-paxos`: what a
call does to the proposals, the loop that proposes lost values again, and
restarts that forget the nonces. -/
namespace Daccord
namespace Paxos

variable {V : Type} {N : ℕ}

def PaxosProtocol.proposal (p : PaxosProtocol V) (slot : ℕ) : Option V :=
  (p.instanceAt slot).proposedValue

structure Leaderless (p : PaxosProtocol V) : Prop where
  multi : p.multi = false
  election : p.election = none
  elections : p.record.elections = []
  forwarded : p.forwardedProposals = []

/-- From `p` to `q`, proposals are made as `R` allows, and only a `Decide` for
another value makes one lost. -/
structure Sponsors (R : Rules V) (input : Input V) (p q : PaxosProtocol V) : Prop where
  leaderless : Leaderless q
  proposed : ∀ {slot v}, q.proposal slot = some v → p.proposal slot = some v ∨ R.source slot v
  lost : q.lostProposals = p.lostProposals ∨ ∃ sender slot v w,
    input = .message sender (.decide slot w) ∧ q.lostProposals = p.lostProposals ++ [v] ∧ v ≠ w ∧
      p.proposal slot = some v ∧ ⟨slot,w⟩ ∈ q.pendingDecisions

section
variable {R : Rules V} {input : Input V} {env : PaxosEnv} {p q r : PaxosProtocol V} {slot : ℕ}
  {inst : PaxosInstance V} {v : V}

theorem Tidy.proposal_decided (h : Tidy p) (hs : slot ∈ p.decidedSlots) : p.proposal slot = none := by
  have hi : slot ∉ p.instances := fun hi => h.apart hi hs
  unfold PaxosProtocol.proposal PaxosProtocol.instanceAt
  rw [AList.lookup_eq_none.mpr hi]
  rfl

theorem Sponsors.refl (h : Leaderless p) : Sponsors R input p p :=
  ⟨h,fun hv => Or.inl hv,Or.inl rfl⟩

theorem PaxosProtocol.proposal_put (hi : inst.proposedValue = p.proposal slot) (slot' : ℕ) :
    (p.putInstance slot inst).proposal slot' = p.proposal slot' := by
  by_cases hne : slot' = slot
  · subst hne
    rw [← hi,PaxosProtocol.proposal,PaxosProtocol.instanceAt_putInstance_self]
  · rw [PaxosProtocol.proposal,PaxosProtocol.instanceAt_putInstance_ne p hne]
    rfl

theorem Sponsors.put (h : Leaderless p) (hi : inst.proposedValue = p.proposal slot) :
    Sponsors R input p (p.putInstance slot inst) := by
  refine ⟨⟨h.multi,h.election,h.elections,h.forwarded⟩,fun hv => Or.inl ?_,Or.inl rfl⟩
  rwa [PaxosProtocol.proposal_put hi] at hv

variable [DecidableEq V]

theorem PaxosProtocol.proposal_conclude (p : PaxosProtocol V) (env : PaxosEnv) {slot slot' : ℕ}
    {value : V} (h : (p.conclude env slot value).1.proposal slot' = some v) :
    p.proposal slot' = some v := by
  by_cases hne : slot' = slot
  · obtain ⟨_,_,heq⟩ := p.conclude_frame env slot value
    rw [heq] at h
    subst hne
    simp only [PaxosProtocol.proposal,PaxosProtocol.instanceAt,AList.lookup_erase,
      Option.getD_none] at h
    cases h
  · rw [PaxosProtocol.proposal,(p.conclude_elsewhere env slot value hne).1] at h
    exact h

theorem Leaderless.conclude (h : Leaderless p) (env : PaxosEnv) (slot : ℕ) (value : V) :
    Leaderless (p.conclude env slot value).1 := by
  obtain ⟨_,hsub,heq⟩ := p.conclude_frame env slot value
  rw [heq]
  rw [h.forwarded] at hsub
  exact ⟨h.multi,h.election,h.elections,List.sublist_nil.mp hsub⟩

theorem PaxosProtocol.conclude_lost (p : PaxosProtocol V) (env : PaxosEnv) (slot : ℕ) (value : V) :
    (p.conclude env slot value).1.lostProposals = p.lostProposals := by
  obtain ⟨_,_,heq⟩ := p.conclude_frame env slot value
  rw [heq]

theorem Sponsors.conclude (h : Leaderless p) (env : PaxosEnv) (slot : ℕ) (value : V) :
    Sponsors R input p (p.conclude env slot value).1 :=
  ⟨h.conclude env slot value,fun hv => Or.inl (p.proposal_conclude env hv),
    Or.inl (p.conclude_lost env slot value)⟩

theorem Sponsors.selfAccept (h : Leaderless p) (env : PaxosEnv)
    (hi : inst.proposedValue = p.proposal slot) (pn : ProposalNumber) (value : V) :
    Sponsors R input p (p.selfAccept env slot inst pn value).1 := by
  have hput : ∀ slot', ((p.putInstance slot (inst.selfVote p.nodeId pn value)).noteVote slot pn
      value).proposal slot' = p.proposal slot' := by
    have hself : (inst.selfVote p.nodeId pn value).proposedValue = p.proposal slot := hi
    exact PaxosProtocol.proposal_put hself
  have hl : Leaderless ((p.putInstance slot (inst.selfVote p.nodeId pn value)).noteVote slot pn
      value) := ⟨h.multi,h.election,h.elections,h.forwarded⟩
  unfold PaxosProtocol.selfAccept
  simp only
  split
  · refine ⟨hl.conclude env slot value,fun hv => Or.inl ?_,Or.inl (PaxosProtocol.conclude_lost ..)⟩
    exact hput _ ▸ PaxosProtocol.proposal_conclude _ env hv
  · exact ⟨hl,fun hv => Or.inl (hput _ ▸ hv),Or.inl rfl⟩

theorem PaxosProtocol.mem_outvoted {value : V} (h : v ∈ p.outvoted slot value) :
    p.outvoted slot value = [v] ∧ v ≠ value ∧ p.proposal slot = some v := by
  unfold PaxosProtocol.outvoted at h ⊢
  split at h
  · rename_i inst hl
    split at h
    · rename_i proposed hp
      split at h
      · rename_i hne
        cases List.mem_singleton.mp h
        refine ⟨?_,hne.2,?_⟩
        · exact if_pos hne
        · rw [PaxosProtocol.proposal,PaxosProtocol.instanceAt_of_lookup hl,hp]
      · cases h
    · cases h
  · cases h

theorem Sponsors.learn {sender : NodeId} {value : V} (h : Leaderless p)
    (hin : input = .message sender (.decide slot value)) :
    Sponsors R input p ((p.lose (p.outvoted slot value)).conclude env slot value).1 := by
  have hl : Leaderless (p.lose (p.outvoted slot value)) := ⟨h.multi,h.election,h.elections,h.forwarded⟩
  refine ⟨hl.conclude env slot value,
    fun hv => Or.inl (PaxosProtocol.proposal_conclude (p.lose _) env hv),?_⟩
  obtain ⟨_,_,heq⟩ := (p.lose (p.outvoted slot value)).conclude_frame env slot value
  rw [heq]
  cases hout : p.outvoted slot value with
  | nil => exact Or.inl (List.append_nil _)
  | cons v rest =>
    have hmem : v ∈ p.outvoted slot value := hout ▸ List.mem_cons_self
    obtain ⟨hone,hne,hp⟩ := PaxosProtocol.mem_outvoted hmem
    cases hout.symm.trans hone
    exact Or.inr ⟨sender,slot,v,value,hin,rfl,hne,hp,List.mem_append_right _ List.mem_cons_self⟩

theorem Move.sponsors {out : List (Outgoing (PaxosMessage V))} (h : Leaderless p)
    (hm : Move R env input p q out) : Sponsors R input p q := by
  have hno : ¬ p.multi = true := by simp [h.multi]
  cases hm with
  | aside hq =>
    have hat : ∀ slot, q.proposal slot = p.proposal slot := fun slot => by
      rw [PaxosProtocol.proposal,PaxosProtocol.instanceAt,hq.instances]
      rfl
    refine ⟨⟨hq.multi.trans h.multi,?_,hq.elections.trans h.elections,?_⟩,
      fun hv => Or.inl (hat _ ▸ hv),Or.inl hq.lostProposals⟩
    · exact hq.election.elim (fun he => he.trans h.election) id
    · refine List.eq_nil_iff_forall_not_mem.mpr fun f hf => ?_
      have hf' := hq.forwardedProposals f hf
      rw [h.forwarded] at hf'
      cases hf'
  | tend _ hi => exact .put h hi.proposedValue
  | promise => exact .put h rfl
  | @accept sender slot pn value =>
    have hv : Sponsors R input p (p.putInstance slot ((p.instanceAt slot).vote pn value)) :=
      .put h rfl
    exact ⟨⟨h.multi,h.election,h.elections,h.forwarded⟩,hv.proposed,Or.inl rfl⟩
  | count _ hl => exact .put h (by rw [PaxosProtocol.proposal,PaxosProtocol.instanceAt_of_lookup hl]; rfl)
  | phase2 hl =>
    exact .selfAccept h env (by rw [PaxosProtocol.proposal,PaxosProtocol.instanceAt_of_lookup hl]) _ _
  | offer => exact .refl h
  | belated => exact .conclude h env _ _
  | tally _ hl => exact .put h (by rw [PaxosProtocol.proposal,PaxosProtocol.instanceAt_of_lookup hl])
  | settle => exact .conclude h env _ _
  | learn hin => exact .learn h hin
  | missing => exact ⟨⟨h.multi,h.election,h.elections,h.forwarded⟩,fun hv => Or.inl hv,Or.inl rfl⟩
  | claim hsource =>
    refine ⟨⟨h.multi,h.election,h.elections,h.forwarded⟩,fun {slot v} hv => ?_,Or.inl rfl⟩
    by_cases hne : slot = p.nextSlot
    · subst hne
      rw [PaxosProtocol.proposal,PaxosProtocol.instanceAt_putInstance_self] at hv
      cases hv
      exact Or.inr hsource
    · rw [PaxosProtocol.proposal,PaxosProtocol.instanceAt_putInstance_ne _ hne] at hv
      exact Or.inl hv
  | retry hl => exact .put h (by rw [PaxosProtocol.proposal,PaxosProtocol.instanceAt_of_lookup hl]; rfl)
  | forward _ hm => exact absurd hm hno
  | lead _ hm => exact absurd hm hno
  | campaign hm => exact absurd hm hno
  | submit _ hm => exact absurd hm hno
  | poll _ he => cases h.election.symm.trans he
  | elect he => cases h.election.symm.trans he
  | replay hr =>
    rw [h.elections,List.drop_nil] at hr
    cases hr

omit [DecidableEq V] in
/-- A `Decide` proposes nothing, so at most one value is lost to it. -/
theorem Sponsors.trans (ht : Tidy q) (hsource : ∀ {sender slot w}, input = .message sender (.decide slot w) →
      ∀ s v, ¬ R.source s v)
    (h : Sponsors R input p q) (h' : Sponsors R input q r) (hqueue : Queues q r) :
    Sponsors R input p r := by
  refine ⟨h'.leaderless,fun hv => (h'.proposed hv).elim h.proposed Or.inr,?_⟩
  rcases h.lost with heq | ⟨sender,slot,v,w,hin,heq,hne,hp,hd⟩
  · rcases h'.lost with heq' | ⟨sender,slot,v,w,hin,heq',hne,hp,hd⟩
    · exact Or.inl (heq'.trans heq)
    · refine Or.inr ⟨sender,slot,v,w,hin,heq ▸ heq',hne,?_,hd⟩
      exact (h.proposed hp).resolve_right (hsource hin _ _)
  · obtain ⟨ds,hds,_,_⟩ := hqueue
    rcases h'.lost with heq' | ⟨sender',slot',v',w',hin',_,_,hp',_⟩
    · refine Or.inr ⟨sender,slot,v,w,hin,heq'.trans heq,hne,hp,?_⟩
      rw [hds]
      exact List.mem_append_left _ hd
    · cases hin.symm.trans hin'
      rw [ht.proposal_decided (mem_of_lookup (ht.pending _ hd))] at hp'
      cases hp'

theorem Moves.sponsors {out : List (Outgoing (PaxosMessage V))} (ht : Tidy p) (h : Leaderless p)
    (hsource : ∀ {sender slot w}, input = .message sender (.decide slot w) →
      ∀ s v, ¬ R.source s v) (hm : Moves R env input p q out) : Sponsors R input p q := by
  induction hm with
  | nil => exact .refl h
  | snoc hm hlast ih =>
    have ht' := hm.tidy ht
    exact ih.trans ht' hsource (hlast.sponsors ih.leaderless) (hlast.queues ht')

/-- Without `multi-paxos` only `propose` proposes. -/
theorem handle_single (ht : Tidy p) (h : Leaderless p) (env : PaxosEnv) (input : Input V) :
    Moves (.only fun slot v => slot = p.nextSlot ∧ input = .propose v) env input p
      (p.handle env input).1 (p.handle env input).2 := by
  by_cases hfw : ∃ sender value, input = .message sender (.forward value)
  · obtain ⟨sender,value,rfl⟩ := hfw
    have hsame : p.handle env (.message sender (.forward value)) = (p,[]) := by
      simp [PaxosProtocol.handle,PaxosProtocol.handleMessage,h.multi]
    rw [hsame]
    exact .nil
  · refine handle_source env input ht fun slot v hr => ?_
    cases input with
    | propose value =>
      obtain ⟨rfl,rfl⟩ := hr
      exact ⟨rfl,rfl⟩
    | tick =>
      obtain ⟨f,hf,_⟩ := List.mem_map.mp hr.2
      have hf' := (List.mem_filter.mp hf).1
      rw [h.forwarded] at hf'
      cases hf'
    | message sender msg =>
      cases msg with
      | forward value => exact absurd ⟨sender,value,rfl⟩ hfw
      | _ => exact hr.elim

theorem handle_sponsors (ht : Tidy p) (h : Leaderless p) (env : PaxosEnv) (input : Input V) :
    Sponsors (.only fun slot v => slot = p.nextSlot ∧ input = .propose v) input p
      (p.handle env input).1 := by
  refine (handle_single ht h env input).sponsors ht h ?_
  rintro sender slot w rfl s v ⟨_,heq⟩
  cases heq

end

/-- A running node. `backlog` is what the loop over the lost proposals has still
to propose; the storage keeps values without their nonces. -/
structure PaxosNode (V : Type) where
  protocol : PaxosProtocol (Pending V)
  storage : AList fun _ : ℕ => V
  backlog : List (Pending V)

/-- `Node::paxos` over a storage: recovered values have nonce 0. -/
def PaxosNode.start (M : Membership N) (env : PaxosEnv) (id : NodeId)
    (storage : AList fun _ : ℕ => V) : PaxosNode V where
  protocol := (PaxosProtocol.new M.multi env id N M.config).initializeFromDecisions
    (storage.entries.map fun d => (d.1,⟨0,d.2⟩))
  storage := storage
  backlog := []

/-- How a turn ends: the process may die after some calls of `save_decision` and
come back. Packets it does not get to send are never delivered. -/
inductive Ending
  | completes
  | dies (saves : ℕ) (env : PaxosEnv) (incarnation : ℕ)

def saveAll (storage : AList fun _ : ℕ => V) (ds : List (Decision (Pending V))) :
    AList fun _ : ℕ => V :=
  ds.foldl (fun m d => m.insert d.slot d.value.value) storage

/-- What a turn leaves to do. Only `handle_incoming_bytes` takes the lost
proposals, and `rest` of an earlier loop comes first. -/
def PaxosNode.finish (M : Membership N) (n : PaxosNode V) (q : PaxosProtocol (Pending V))
    (input : Input (Pending V)) (rest : List (Pending V)) : Ending → PaxosNode V
  | .completes =>
    let taken := q.takeDecisions
    match input with
    | .message .. =>
      ⟨taken.1.takeLostProposals.1,saveAll n.storage taken.2,rest ++ taken.1.takeLostProposals.2⟩
    | _ => ⟨taken.1,saveAll n.storage taken.2,rest⟩
  | .dies saves env incarnation =>
    .start M env ⟨n.protocol.nodeId.name,incarnation⟩ (saveAll n.storage (q.takeDecisions.2.take saves))

/-- The nodes, with a history of the submissions, of the slots taken for them and
of what was decided. -/
structure Nodes (N : ℕ) (V : Type) where
  nodes : Fin N → PaxosNode V
  sent : List (Packet N (Pending V))
  submitted : List (Pending V)
  claims : List (ℕ × Pending V)
  decided : List (ℕ × V)

def Nodes.init (M : Membership N) (env : PaxosEnv) : Nodes N V where
  nodes i := .start M env (M.ids i) ∅
  sent := []
  submitted := []
  claims := []
  decided := []

/-- `act` is a submission or, without a value, a tick; `repropose` is one round of
the loop over the lost proposals. -/
inductive Nodes.Label (V : Type) (N : ℕ)
  | act (i : Fin N) (env : PaxosEnv) (value : Option (Pending V)) (ending : Ending)
  | repropose (i : Fin N) (env : PaxosEnv) (ending : Ending)
  | deliver (pos : ℕ) (env : PaxosEnv) (ending : Ending)
  | restart (i : Fin N) (env : PaxosEnv) (incarnation : ℕ)

structure Turn (V : Type) (N : ℕ) where
  node : Fin N
  env : PaxosEnv
  input : Input (Pending V)
  rest : List (Pending V)
  ending : Ending

/-- The loop over the lost proposals ends before the next event is handled. -/
def Nodes.turn (s : Nodes N V) : Nodes.Label V N → Option (Turn V N)
  | .act i env value ending =>
    if (s.nodes i).backlog.isEmpty then some ⟨i,env,Label.input value,[],ending⟩ else none
  | .repropose i env ending =>
    match (s.nodes i).backlog with
    | [] => none
    | v :: rest => some ⟨i,env,.propose v,rest,ending⟩
  | .deliver pos env ending =>
    match s.sent[pos]? with
    | none => none
    | some pkt =>
      if (s.nodes pkt.dst).backlog.isEmpty then
        some ⟨pkt.dst,env,.message pkt.msg.sender pkt.msg.variant,[],ending⟩
      else none
  | .restart .. => none

def Nodes.Label.submission : Nodes.Label V N → List (Pending V)
  | .act _ _ (some v) _ => [v]
  | _ => []

def PaxosProtocol.claimed (p : PaxosProtocol V) : Input V → List (ℕ × V)
  | .propose v => [(p.nextSlot,v)]
  | _ => []

section
variable [DecidableEq V]

def Nodes.take (M : Membership N) (s : Nodes N V) (submission : List (Pending V))
    (t : Turn V N) : Nodes N V :=
  let n := s.nodes t.node
  let r := n.protocol.handle t.env t.input
  { nodes := Function.update s.nodes t.node (n.finish M r.1 t.input t.rest t.ending)
    sent := s.sent ++ r.2.flatMap fun out =>
      M.routeByName t.node ⟨out.target,⟨n.protocol.nodeId,out.message⟩⟩
    submitted := s.submitted ++ submission
    claims := s.claims ++ n.protocol.claimed t.input
    decided := s.decided ++ r.1.takeDecisions.2.map fun d => (d.slot,d.value.value) }

def Nodes.restart (M : Membership N) (s : Nodes N V) (i : Fin N) (env : PaxosEnv)
    (incarnation : ℕ) : Nodes N V :=
  let n := s.nodes i
  let fresh := PaxosNode.start M env ⟨n.protocol.nodeId.name,incarnation⟩ n.storage
  { s with nodes := Function.update s.nodes i fresh }

def Nodes.step (M : Membership N) (s : Nodes N V) (l : Nodes.Label V N) : Option (Nodes N V) :=
  match l with
  | .restart i env incarnation => some (s.restart M i env incarnation)
  | l => (s.turn l).map (s.take M l.submission)

end

section
variable {M : Membership N} {s s' : Nodes N V} {l : Nodes.Label V N} {n n' : PaxosNode V}

theorem Nodes.turn_cases {t : Turn V N} (h : s.turn l = some t) :
    (∃ v, t.input = .propose v ∧ (s.nodes t.node).backlog = [] ∧ t.rest = [] ∧ l.submission = [v]) ∨
    (∃ v, t.input = .propose v ∧ (s.nodes t.node).backlog = v :: t.rest ∧ l.submission = []) ∨
    ((∀ v, t.input ≠ .propose v) ∧ (s.nodes t.node).backlog = [] ∧ t.rest = [] ∧ l.submission = [] ∧
      ∀ sender msg, t.input = .message sender msg → ∃ src, ⟨src,t.node,⟨sender,msg⟩⟩ ∈ s.sent) := by
  cases l with
  | act i env value ending =>
    simp only [Nodes.turn,List.isEmpty_iff] at h
    split at h
    · rename_i hb
      cases h
      cases value with
      | none => exact Or.inr (Or.inr ⟨nofun,hb,rfl,rfl,nofun⟩)
      | some v => exact Or.inl ⟨v,rfl,hb,rfl,rfl⟩
    · cases h
  | repropose i env ending =>
    simp only [Nodes.turn] at h
    split at h
    · cases h
    · rename_i v rest hb
      cases h
      exact Or.inr (Or.inl ⟨v,rfl,hb,rfl⟩)
  | deliver pos env ending =>
    simp only [Nodes.turn] at h
    split at h
    · cases h
    · rename_i pkt hpkt
      split at h
      · rename_i hb
        cases h
        refine Or.inr (Or.inr ⟨nofun,List.isEmpty_iff.mp hb,rfl,rfl,fun sender msg heq => ?_⟩)
        cases heq
        exact ⟨pkt.src,List.mem_of_getElem? hpkt⟩
      · cases h
  | restart i env incarnation => cases h

def Backed (claims : List (ℕ × Pending V)) (slot : ℕ) (v : Pending V) : Prop :=
  ∃ c ∈ claims, c.1 = slot ∧ c.2.value = v.value

theorem Backed.mono {claims : List (ℕ × Pending V)} {slot : ℕ} {v : Pending V}
    (h : Backed claims slot v) (more : List (ℕ × Pending V)) : Backed (claims ++ more) slot v := by
  obtain ⟨c,hc,heq⟩ := h
  exact ⟨c,List.mem_append_left _ hc,heq⟩

structure PaxosNode.Ok (claims : List (ℕ × Pending V)) (n : PaxosNode V) : Prop where
  tidy : Tidy n.protocol
  leaderless : Leaderless n.protocol
  within : Within (Backed claims) (fun _ => True) n.protocol
  stored : ∀ {slot v}, n.storage.lookup slot = some v → Backed claims slot ⟨0,v⟩

theorem PaxosNode.Ok.mono {claims : List (ℕ × Pending V)} (h : n.Ok claims)
    (more : List (ℕ × Pending V)) : n.Ok (claims ++ more) :=
  ⟨h.tidy,h.leaderless,h.within.mono fun _ _ hb => hb.mono more,fun hv => (h.stored hv).mono more⟩

theorem lookup_saveAll {ds : List (Decision (Pending V))} {m : AList fun _ : ℕ => V} {slot : ℕ}
    {v : V} (h : (saveAll m ds).lookup slot = some v) :
    m.lookup slot = some v ∨ ∃ d ∈ ds, d.slot = slot ∧ d.value.value = v := by
  induction ds generalizing m with
  | nil => exact Or.inl h
  | cons d ds ih =>
    rcases ih h with hm | ⟨e,he,heq⟩
    · by_cases hne : slot = d.slot
      · subst hne
        rw [AList.lookup_insert] at hm
        cases hm
        exact Or.inr ⟨d,List.mem_cons_self,rfl,rfl⟩
      · rw [AList.lookup_insert_ne hne] at hm
        exact Or.inl hm
    · exact Or.inr ⟨e,List.mem_cons_of_mem _ he,heq⟩

theorem PaxosNode.Ok.start {claims : List (ℕ × Pending V)} (hm : M.multi = false) (env : PaxosEnv)
    (id : NodeId) {storage : AList fun _ : ℕ => V}
    (h : ∀ {slot v}, storage.lookup slot = some v → Backed claims slot ⟨0,v⟩) :
    (PaxosNode.start M env id storage).Ok claims := by
  have hnd : ((storage.entries.map fun d => (d.1,(⟨0,d.2⟩ : Pending V))).map Prod.fst).Nodup := by
    rw [List.map_map]
    exact storage.nodupKeys
  have hd : ∀ {slot v}, (PaxosNode.start M env id storage).protocol.decidedSlots.lookup slot =
      some v → Backed claims slot v := by
    intro slot v hv
    obtain ⟨⟨slot',w⟩,hmem,heq⟩ :=
      List.mem_map.mp (PaxosProtocol.initializeFromDecisions_decided rfl hnd hv)
    cases heq
    exact h ((List.mem_dlookup_iff storage.nodupKeys).mpr hmem)
  obtain ⟨decided,next,heq,hlt,_,_⟩ := PaxosProtocol.initializeFromDecisions_frame
    (storage.entries.map fun d => (d.1,(⟨0,d.2⟩ : Pending V))) (.new M.multi env id N M.config)
  have hp : (PaxosNode.start M env id storage).protocol = _ := heq
  refine ⟨?_,?_,?_,h⟩
  · rw [hp]
    exact ⟨fun hd => hlt nofun _ hd,nofun,nofun,nofun,nofun,nofun,nofun,nofun⟩
  · rw [hp]
    exact ⟨hm,rfl,rfl,rfl⟩
  · rw [hp] at hd ⊢
    exact ⟨fun _ => ⟨.new,.new⟩,hd,nofun,nofun,nofun,Nat.le_add_left _ _⟩

/-- A decision that is saved is in a slot taken for it. -/
theorem PaxosNode.Ok.finish {claims : List (ℕ × Pending V)} {q : PaxosProtocol (Pending V)}
    (hm : M.multi = false) (h : PaxosNode.Ok claims ⟨q,n.storage,n.backlog⟩)
    (input : Input (Pending V)) (rest : List (Pending V)) (ending : Ending) :
    (n.finish M q input rest ending).Ok claims := by
  have hsaved : ∀ ds : List (Decision (Pending V)), (∀ d ∈ ds, d ∈ q.pendingDecisions) →
      ∀ slot v, (saveAll n.storage ds).lookup slot = some v → Backed claims slot ⟨0,v⟩ := by
    intro ds hds slot v hv
    rcases lookup_saveAll hv with hv | ⟨d,hd,rfl,rfl⟩
    · exact h.stored hv
    · have hb : Backed claims d.slot d.value := h.within.decided (h.tidy.pending d (hds d hd))
      exact hb
  have hall := fun {slot v} => hsaved q.pendingDecisions (fun _ => id) slot v
  have hl := h.leaderless
  have htidy : Tidy q.takeDecisions.1 := { h.tidy with pending := nofun }
  have hw : Within (Backed claims) (fun _ => True) q.takeDecisions.1 := { h.within with }
  cases ending with
  | completes =>
    cases input with
    | message sender msg =>
      exact ⟨{ htidy with },⟨hl.multi,hl.election,hl.elections,hl.forwarded⟩,{ hw with },hall⟩
    | propose v => exact ⟨htidy,⟨hl.multi,hl.election,hl.elections,hl.forwarded⟩,hw,hall⟩
    | tick => exact ⟨htidy,⟨hl.multi,hl.election,hl.elections,hl.forwarded⟩,hw,hall⟩
  | dies saves env incarnation =>
    exact .start hm env _ fun {slot v} hv => hsaved _ (fun _ hd => List.mem_of_mem_take hd) slot v hv

variable [DecidableEq V]

structure Nodes.Ok (s : Nodes N V) : Prop where
  nodes : ∀ i, (s.nodes i).Ok s.claims
  carries : ∀ pkt ∈ s.sent, Carries (Backed s.claims) (fun _ => True) pkt.msg.variant
  decided : ∀ d ∈ s.decided, Backed s.claims d.1 ⟨0,d.2⟩

omit [DecidableEq V] in
theorem Nodes.Ok.init (hm : M.multi = false) (env : PaxosEnv) : (Nodes.init M env : Nodes N V).Ok :=
  ⟨fun _ => .start hm env _ nofun,nofun,nofun⟩

theorem Nodes.Ok.take (hm : M.multi = false) (h : s.Ok) {t : Turn V N} (ht : s.turn l = some t) :
    (s.take M l.submission t).Ok := by
  have hn := h.nodes t.node
  have hmoves := handle_single hn.tidy hn.leaderless t.env t.input
  have hclaims := (hn.mono ((s.nodes t.node).protocol.claimed t.input)).within
  have hgiven : Given (Backed (s.claims ++ (s.nodes t.node).protocol.claimed t.input))
      (fun _ => True) (.only fun slot v =>
        slot = (s.nodes t.node).protocol.nextSlot ∧ t.input = .propose v) t.input := by
    refine ⟨fun {slot v} hsource => ?_,fun {sender msg} hin => ?_,fun _ => trivial⟩
    · obtain ⟨rfl,hin⟩ := hsource
      refine ⟨(_,v),List.mem_append_right _ ?_,rfl,rfl⟩
      rw [hin]
      exact List.mem_singleton_self _
    · rcases Nodes.turn_cases ht with ⟨v,hv,_⟩ | ⟨v,hv,_⟩ | ⟨_,_,_,_,hsent⟩
      · cases hv.symm.trans hin
      · cases hv.symm.trans hin
      · obtain ⟨src,hsrc⟩ := hsent sender msg hin
        exact (h.carries _ hsrc).mono fun _ _ hb => hb.mono _
  obtain ⟨hq,hout,_⟩ := hmoves.within hn.tidy hclaims hgiven
  have hok : PaxosNode.Ok (s.claims ++ (s.nodes t.node).protocol.claimed t.input)
      ⟨((s.nodes t.node).protocol.handle t.env t.input).1,(s.nodes t.node).storage,
        (s.nodes t.node).backlog⟩ :=
    ⟨hmoves.tidy hn.tidy,(handle_sponsors hn.tidy hn.leaderless t.env t.input).leaderless,hq,
      fun hv => (hn.stored hv).mono _⟩
  refine ⟨fun j => ?_,fun pkt hpkt => ?_,fun d hd => ?_⟩
  · by_cases hj : j = t.node
    · subst hj
      simp only [Nodes.take,Function.update_self]
      exact hok.finish hm t.input t.rest t.ending
    · simp only [Nodes.take,Function.update_of_ne hj]
      exact (h.nodes j).mono _
  · rcases List.mem_append.mp hpkt with hpkt | hpkt
    · exact (h.carries pkt hpkt).mono fun _ _ hb => hb.mono _
    · obtain ⟨out,hmem,hroute⟩ := List.mem_flatMap.mp hpkt
      rw [(Membership.mem_routeByName hroute).2.2.2]
      exact hout out hmem
  · rcases List.mem_append.mp hd with hd | hd
    · exact (h.decided d hd).mono _
    · obtain ⟨e,he,rfl⟩ := List.mem_map.mp hd
      have hb : Backed _ e.slot e.value := hq.decided (hok.tidy.pending e he)
      exact hb

theorem Nodes.step_cases (h : s.step M l = some s') :
    (∃ t, s.turn l = some t ∧ s' = s.take M l.submission t) ∨
    ∃ i env incarnation, l = .restart i env incarnation ∧ s' = s.restart M i env incarnation := by
  cases l with
  | restart i env incarnation =>
    cases h
    exact Or.inr ⟨i,env,incarnation,rfl,rfl⟩
  | _ =>
    obtain ⟨t,ht,rfl⟩ := Option.map_eq_some_iff.mp h
    exact Or.inl ⟨t,ht,rfl⟩

theorem Nodes.Ok.step (hm : M.multi = false) (h : s.Ok) (hs : s.step M l = some s') : s'.Ok := by
  rcases Nodes.step_cases hs with ⟨t,ht,rfl⟩ | ⟨i,env,incarnation,_,rfl⟩
  · exact h.take hm ht
  · refine ⟨fun j => ?_,h.carries,h.decided⟩
    by_cases hj : j = i
    · subst hj
      simp only [Nodes.restart,Function.update_self]
      exact .start hm env _ (h.nodes j).stored
    · simp only [Nodes.restart,Function.update_of_ne hj]
      exact h.nodes j

end

end Paxos
end Daccord
