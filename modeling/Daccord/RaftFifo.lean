import Daccord.RaftSafety

/-! Links that deliver in order. What successive `AppendEntries` of one leader
vouch for at one follower never shrinks, so the follower never drops an entry of
its leader's own term, and what is committed stays. -/
namespace Daccord
namespace Raft

open RaftProtocol (verifiedEnd startAt Adopted Advanced Announces)
open ReplicatedLog (State Base Sound Steps Moves Settled)

variable {V : Type} {N : ℕ}

/-- The term of an `AppendEntries` and how many entries it vouches for. -/
def vouches : RaftMessage V → Option (ℕ × ℕ)
  | .appendEntries t _ prev _ es _ => some (t,verifiedEnd prev es.length)
  | _ => none

section
variable {p q : RaftProtocol V} {input : Input V} {r : Reply V}

/-- Where the entries of the log come from when a handler has returned, and what
the messages of a leader vouch for. -/
structure Traced (p : RaftProtocol V) (input : Input V) (r : Reply V) : Prop where
  term : p.currentTerm ≤ r.1.currentTerm
  log : ∀ {n e}, r.1.log[n]? = some e → p.log[n]? = some e ∨
    (r.1.role = .leader ∧ e.term = r.1.currentTerm) ∨
    ∃ sender msg k, input = .message sender msg ∧ vouches msg = some (r.1.currentTerm,k) ∧ n < k
  sent : ∀ {out}, out ∈ r.2 → ∀ {t k}, vouches out.message = some (t,k) →
    r.1.role = .leader ∧ t = r.1.currentTerm ∧ k = r.1.log.length

theorem Traced.quiet (ht : p.currentTerm ≤ r.1.currentTerm) (hl : r.1.log = p.log)
    (ho : ∀ out ∈ r.2, vouches out.message = none) : Traced p input r := by
  refine ⟨ht,fun h => Or.inl (hl ▸ h),fun hout t k hv => ?_⟩
  rw [ho _ hout] at hv
  cases hv

theorem Traced.same {outs : List (Outgoing (RaftMessage V))}
    (ho : ∀ out ∈ outs, vouches out.message = none) : Traced p input (p,outs) :=
  .quiet le_rfl rfl ho

theorem Traced.before (h : Traced q input r) (ht : p.currentTerm ≤ q.currentTerm)
    (hl : q.log = p.log) : Traced p input r :=
  ⟨ht.trans h.term,fun hn => hl ▸ h.log hn,h.sent⟩

theorem Announces.vouches {out : Outgoing (RaftMessage V)} (h : Announces p out) :
    Raft.vouches out.message = some (p.currentTerm,p.log.length) := by
  obtain ⟨prev,prevTerm,es,hm,hc⟩ := h
  rw [hm,Raft.vouches,RaftProtocol.verifiedEnd_eq,hc.length]

theorem Traced.announces (hr : r.1.role = .leader) (ht : r.1.currentTerm = p.currentTerm)
    (hl : r.1.log = p.log) (ho : ∀ out ∈ r.2, Announces p out) : Traced p input r := by
  refine ⟨ht.ge,fun h => Or.inl (hl ▸ h),fun hout t k hv => ?_⟩
  rw [Announces.vouches (ho _ hout)] at hv
  cases hv
  exact ⟨hr,ht.symm,by rw [hl]⟩

theorem Traced.broadcastOwn (env : Env) {es : List (LogEntry V)} (hr : p.role = .leader)
    (hes : ∀ e ∈ es, e.term = p.currentTerm) : Traced p input
      ((p.appendOwn es).tryAdvanceCommit.broadcastWithEntries env es) := by
  obtain ⟨ci,ds,la,b,heq,_⟩ := (p.appendOwn es).tryAdvanceCommit_advanced.frame
  have hann := p.appendOwn_announces env es
  refine ⟨?_,?_,?_⟩
  · rw [heq]
    exact le_rfl
  · intro n e hn
    rw [heq] at hn ⊢
    have hn' : (p.log ++ es)[n]? = some e := hn
    rcases Nat.lt_or_ge n p.log.length with hlt | hge
    · left
      rwa [List.getElem?_append_left hlt] at hn'
    · right
      left
      rw [List.getElem?_append_right hge] at hn'
      exact ⟨hr,hes e (List.mem_of_getElem? hn')⟩
  · intro out hout t k hv
    rw [Announces.vouches (hann out hout)] at hv
    cases hv
    rw [heq]
    exact ⟨hr,rfl,rfl⟩

theorem Traced.becomeLeader (env : Env) (hp : p.pendingPersistLogFrom = none) :
    Traced p input (p.becomeLeader env) := by
  by_cases h : p.pendingProposals = []
  · rw [RaftProtocol.becomeLeader_of_empty env p h]
    exact (Traced.announces (p := p.takeOffice) rfl rfl rfl
      (RaftProtocol.broadcastHeartbeat_announces env _)).before le_rfl rfl
  · rw [RaftProtocol.becomeLeader_of_batch env p h hp]
    refine (Traced.broadcastOwn (p := p.takeOffice) env rfl ?_).before le_rfl rfl
    intro e he
    obtain ⟨v,_,rfl⟩ := List.mem_map.mp he
    rfl

theorem Traced.propose (env : Env) (v : V) (hp : p.pendingPersistLogFrom = none) :
    Traced p input (p.propose env v) := by
  by_cases hr : p.role = .leader
  · rw [RaftProtocol.propose_of_leader env p v hr hp]
    exact .broadcastOwn env hr (by simp)
  · obtain ⟨pend,outs,heq,hout⟩ := RaftProtocol.propose_cases env p v hr
    rw [heq]
    refine .quiet le_rfl rfl fun out ho => ?_
    obtain ⟨_,_,hm⟩ := hout out ho
    rw [hm]
    rfl

theorem Traced.handleForward (env : Env) (sender : NodeId) (v : V) (hops : ℕ)
    (hp : p.pendingPersistLogFrom = none) :
    Traced p input (p.handleForward env sender v hops) := by
  rcases RaftProtocol.handleForward_cases env p sender v hops with ⟨_,heq⟩ | ⟨_,pend,outs,heq,hout⟩
  · rw [heq]
    exact .propose env v hp
  · rw [heq]
    refine .quiet le_rfl rfl fun out ho => ?_
    obtain ⟨_,_,hm⟩ := hout out ho
    rw [hm]
    rfl

theorem Traced.onTick (env : Env) (hp : p.pendingPersistLogFrom = none) :
    Traced p input (p.onTick env) := by
  rcases RaftProtocol.onTick_cases env p with heq | ⟨hr,heq⟩ | ⟨_,heq⟩
  · rw [heq]
    exact .same (by simp)
  · rw [heq]
    exact .announces hr rfl rfl (RaftProtocol.broadcastHeartbeat_announces env p)
  · rw [heq]
    rcases RaftProtocol.startElection_cases env p with ⟨_,heq⟩ | ⟨_,lost,pend,heq⟩
    · rw [heq]
      exact Traced.before (.becomeLeader env hp) (Nat.le_succ _) rfl
    · rw [heq]
      exact .quiet (Nat.le_succ _) rfl (by simp [vouches])

theorem Traced.handleRequestVote (env : Env) (term : ℕ) (candidate : NodeId) (li : Option ℕ)
    (lt : ℕ) : Traced p input (p.handleRequestVote env term candidate li lt) := by
  rcases RaftProtocol.handleRequestVote_cases env p term candidate li lt with heq | ⟨_,_,_,heq⟩
  · rw [heq]
    exact .same (by simp [vouches])
  · rw [heq]
    exact .quiet le_rfl rfl (by simp [vouches])

theorem Traced.handleRequestVoteResponse (env : Env) (sender : NodeId) (term : ℕ) (granted : Bool)
    (hp : p.pendingPersistLogFrom = none) :
    Traced p input (p.handleRequestVoteResponse env sender term granted) := by
  rcases RaftProtocol.handleRequestVoteResponse_cases env p sender term granted with
    heq | ⟨_,_,_,heq | ⟨_,heq⟩⟩
  · rw [heq]
    exact .same (by simp)
  · rw [heq]
    exact .quiet le_rfl rfl (by simp)
  · rw [heq]
    exact Traced.before (.becomeLeader env hp) le_rfl rfl

theorem Traced.handleAppendEntriesResponse (sender : NodeId) (term : ℕ) (success : Bool)
    (mi ct ci : Option ℕ) :
    Traced p input (p.handleAppendEntriesResponse sender term success mi ct ci) := by
  rcases RaftProtocol.handleAppendEntriesResponse_cases p sender term success mi ct ci with
    heq | ⟨hr,_,⟨_,k,_,_,heq⟩ | ⟨next,out,hout,heq⟩⟩
  · rw [heq]
    exact .same (by simp)
  · rw [heq]
    obtain ⟨_,_,_,_,hadv,_⟩ := (RaftProtocol.tryAdvanceCommit_advanced { p with
      matchIndex := p.matchIndex.insert sender (some k)
      nextIndex := p.nextIndex.insert sender (k + 1) }).frame
    rw [hadv]
    exact .quiet le_rfl rfl (by simp)
  · rw [heq]
    exact .announces hr rfl rfl (by simpa using hout)

/-- An entry that was not there before is one the message vouches for. -/
theorem Adopted.getElem? {start : ℕ} {es : List (LogEntry V)} (h : Adopted p start es q) {n : ℕ}
    {e : LogEntry V} (hn : q.log[n]? = some e) : p.log[n]? = some e ∨ n < start + es.length := by
  have hlt := (List.getElem?_eq_some_iff.mp hn).1
  cases h with
  | kept => exact Or.inl hn
  | cut h0 hlen =>
    right
    simp only [List.length_take] at hlt
    omega
  | extended m hm hlen =>
    right
    simp only [List.length_append,List.length_drop] at hlt
    omega
  | replaced m x hx hlen =>
    right
    have hm := (List.getElem?_eq_some_iff.mp hx).1
    simp only [List.length_append,List.length_take,List.length_drop] at hlt
    omega

theorem Traced.handleAppendEntries (env : Env) {sender : NodeId} {term : ℕ} {leader : NodeId}
    {prev : Option ℕ} {prevTerm : ℕ} {es : List (LogEntry V)} {lc : Option ℕ}
    (hin : input = .message sender (.appendEntries term leader prev prevTerm es lc))
    (hterm : term ≤ p.currentTerm) (hp : p.pendingPersistLogFrom = none)
    (ht : p.pendingTruncateFrom = none) :
    Traced p input (p.handleAppendEntries env term leader prev prevTerm es lc) := by
  rcases RaftProtocol.handleAppendEntries_cases env p term leader prev prevTerm es lc hp ht with
    ⟨_,heq⟩ | ⟨hle,_,⟨_,ct,ci,heq⟩ | ⟨_,a,f,hadopt,hadv,heq⟩⟩
  · rw [heq]
    exact .same (by simp [vouches])
  · rw [heq]
    exact .quiet le_rfl rfl (by simp [vouches])
  · obtain ⟨_,_,ha⟩ := hadopt.frame
    obtain ⟨_,_,_,_,hf,_⟩ := hadv.frame
    have hflog : f.log = a.log := by rw [hf]
    have hfterm : f.currentTerm = p.currentTerm := by
      rw [hf,ha]
      rfl
    rw [heq]
    refine ⟨hfterm.ge,fun {n e} hn => ?_,?_⟩
    · rw [hflog] at hn
      refine (Adopted.getElem? hadopt hn).imp id fun hlt => Or.inr ⟨_,_,_,hin,?_,hlt⟩
      rw [vouches,RaftProtocol.verifiedEnd_eq,hfterm,Nat.le_antisymm hterm hle]
    · intro out hout t k hv
      have hnone : vouches out.message = none := by
        simp only [List.mem_cons,List.mem_map] at hout
        rcases hout with rfl | ⟨_,_,rfl⟩ <;> rfl
      rw [hnone] at hv
      cases hv

theorem Traced.dispatch (env : Env) {sender : NodeId} {msg : RaftMessage V}
    (hin : input = .message sender msg)
    (hterm : ∀ t, RaftProtocol.incomingTerm msg = some t → t ≤ p.currentTerm)
    (hp : p.pendingPersistLogFrom = none) (ht : p.pendingTruncateFrom = none) :
    Traced p input (p.dispatch env sender msg) := by
  cases msg with
  | requestVote term candidate li lt => exact .handleRequestVote env term candidate li lt
  | requestVoteResponse term granted => exact .handleRequestVoteResponse env sender term granted hp
  | appendEntries => exact .handleAppendEntries env hin (hterm _ rfl) hp ht
  | appendEntriesResponse term success mi ct ci =>
    exact .handleAppendEntriesResponse sender term success mi ct ci
  | forward v hops => exact .handleForward env sender v hops hp

theorem Clean.traced (hc : Clean p) (env : Env) (input : Input V) :
    Traced p input (p.handle env input) := by
  cases input with
  | propose v => exact .propose env v hc.append
  | tick => exact .onTick env hc.append
  | message sender msg =>
    change Traced p _ ((p.bumpTerm env msg).dispatch env sender msg)
    rcases p.bumpTerm_cases env msg with ⟨heq,hle⟩ | ⟨t,ht,hlt,heq⟩
    · rw [heq]
      exact .dispatch env rfl hle hc.append hc.truncate
    · rw [heq]
      refine Traced.before (.dispatch env rfl ?_ rfl hc.truncate) hlt.le rfl
      intro u hu
      rw [ht] at hu
      exact (Option.some.inj hu).ge

/-- What a crash leaves of a log is old, or new and of the new term. -/
theorem Torn.entries {t : ℕ} {v : Option NodeId} {l : List (LogEntry V)} (h : Torn p q t v l)
    (hle : p.currentTerm ≤ q.currentTerm) : p.currentTerm ≤ t ∧ ∀ {n : ℕ} {e}, l[n]? = some e →
      p.log[n]? = some e ∨ (q.log[n]? = some e ∧ t = q.currentTerm) := by
  cases h with
  | before => exact ⟨le_rfl,Or.inl⟩
  | term ht => exact ⟨hle,Or.inl⟩
  | vote => exact ⟨hle,Or.inl⟩
  | cut m k =>
    refine ⟨hle,fun {n e} hn => Or.inl ?_⟩
    rw [List.getElem?_take] at hn
    split at hn
    · exact hn
    · cases hn
  | after => exact ⟨hle,fun hn => Or.inr ⟨hn,rfl⟩⟩

theorem boot_log (env : Env) (id : NodeId) (total : ℕ) (cfg : RaftConfig) (st : RaftStorage V) :
    (RaftNode.boot .exact env id total cfg st).protocol.currentTerm = st.term ∧
      (RaftNode.boot .exact env id total cfg st).protocol.log = st.log := by
  obtain ⟨hterm,_,hlog⟩ := recover_restores Adapter.exact env (.new env id total cfg) st
  rw [Adapter.exact_strip] at hlog
  exact ⟨hterm,hlog⟩

/-- The same for the process at the end of a turn, however the turn ends. -/
theorem Synced.lands {n : RaftNode V V} (h : Synced .exact n) (env : Env) (input : Input V)
    (rest : List V) (fate : Fate) :
    n.protocol.currentTerm ≤
        (n.after .exact env (turn .exact env n.protocol input) rest fate).protocol.currentTerm ∧
      ∀ {k : ℕ} {e}, (n.after .exact env (turn .exact env n.protocol input) rest
          fate).protocol.log[k]? = some e →
        n.protocol.log[k]? = some e ∨
        ((n.protocol.handle env input).1.log[k]? = some e ∧
          (n.after .exact env (turn .exact env n.protocol input) rest
            fate).protocol.currentTerm = (n.protocol.handle env input).1.currentTerm) := by
  have hle := (h.clean.traced env input).term
  cases fate with
  | completes =>
    obtain ⟨lost,hfinal⟩ := turn_final .exact env n.protocol input
    simp only [RaftNode.after]
    rw [hfinal]
    exact ⟨hle,fun hk => Or.inr ⟨hk,rfl⟩⟩
  | dies k =>
    obtain ⟨t,v,l,ci,hstore,htorn,_⟩ := h.cut env input k
    obtain ⟨ht,hl⟩ := boot_log env n.protocol.nodeId n.protocol.totalNodes n.protocol.config
      (n.storage.calls ((((turn .exact env n.protocol input).effects .exact).take k).filterMap
        Effect.stored))
    simp only [RaftNode.after,Fate.cut]
    rw [ht,hl,hstore]
    simp only [Adapter.exact_strip]
    exact htorn.entries hle

end

/-- Every link is a queue: a step hands over the oldest packet of its link, and
no packet comes twice. Any packet may be lost. -/
def Fifo (s : Cluster N V) : Label V N → Prop
  | .deliver pos _ _ => ∀ pkt ∈ s.flight[pos]?, ∀ x ∈ s.flight.take pos,
      ¬ (x.src = pkt.src ∧ x.dst = pkt.dst)
  | .duplicate _ => False
  | _ => True

instance (s : Cluster N V) (l : Label V N) : Decidable (Fifo s l) :=
  match l with
  | .deliver pos _ _ => inferInstanceAs (Decidable (∀ pkt ∈ s.flight[pos]?, _))
  | .duplicate _ => isFalse id
  | .act .. => isTrue trivial
  | .repropose .. => isTrue trivial
  | .restart .. => isTrue trivial
  | .lose .. => isTrue trivial

/-- On each link, what the packets of one leader vouch for does not shrink, and
it covers what the receiver already has of that leader's term. -/
structure Ordered (s : Cluster N V) : Prop where
  links : s.flight.Pairwise fun x y => x.src = y.src → x.dst = y.dst → ∀ {t k k'},
    vouches x.msg = some (t,k) → vouches y.msg = some (t,k') → k ≤ k'
  own : ∀ {pkt}, pkt ∈ s.flight → ∀ {t k}, vouches pkt.msg = some (t,k) →
    (s.nodes pkt.dst).protocol.currentTerm ≤ t →
    ∀ {n e}, (s.nodes pkt.dst).protocol.log[n]? = some e → e.term = t → n < k

section
variable {R : Roster N} {strict : Prop} {a a' : Abstract N V} {s s' : Cluster N V} {i j : Fin N}

theorem Ordered.keeps (h : Ordered s) {pkt : Packet N V} (hmem : pkt ∈ s.flight) :
    KeepsOwn (s.nodes pkt.dst).protocol pkt.msg := by
  cases hm : pkt.msg with
  | appendEntries t leader prev prevTerm es lc =>
    intro hle _ _ _ e he het
    obtain ⟨n,hn⟩ := List.mem_iff_getElem?.mp he
    rw [List.getElem?_drop] at hn
    have hlt := h.own hmem (by rw [hm]; rfl) hle hn het
    omega
  | _ => trivial

theorem Ordered.keepsOwn (h : Ordered s) (l : Label V N) : KeepsOwnOnDeliver s l := by
  cases l with
  | deliver pos env fate =>
    exact fun pkt hpkt => h.keeps (List.mem_of_getElem? (Option.mem_def.mp hpkt))
  | _ => trivial

theorem Backed.vouches {src dst : Fin N} {msg : RaftMessage V} (h : Backed R strict a src dst msg)
    {t k : ℕ} (hv : Raft.vouches msg = some (t,k)) : a.won t src ∧ k ≤ (a.book t).length := by
  cases msg with
  | appendEntries u leader prev prevTerm es lc =>
    obtain ⟨_,hw,⟨m,_,hm,hc⟩,_⟩ := h
    rw [Raft.vouches,RaftProtocol.verifiedEnd_eq,hc.length] at hv
    cases hv
    exact ⟨hw,by rw [List.length_take]; omega⟩
  | _ => cases hv

theorem Ordered.turned (h : ClusterOk R strict a s) (ho : Ordered s) (env : Env) (input : Input V)
    (rest : List V) (fate : Fate) (hin : Welcome R strict a i (s.nodes i).protocol input)
    {packets : List (Packet N V)} (hp : Carried R i (fate.cut ((turn .exact env
      (s.nodes i).protocol input).effects .exact)) packets)
    (hnext : ∀ {sender msg}, input = .message sender msg → ∀ {pkt}, pkt ∈ s.flight →
      pkt.dst = i → ∀ {t k k'}, vouches msg = some (t,k) → vouches pkt.msg = some (t,k') → k ≤ k') :
    Ordered (s.turned i env input rest fate packets) := by
  obtain ⟨a1,hsteps,htr,_⟩ :=
    ((h.nodes i).tracks.handle h.sound (h.nodes i).solo (h.nodes i).synced.clean env hin).full
  have hb1 := (h.sound.steps hsteps).base
  have hx := (h.sound.base.steps hsteps).2
  have htraced := (h.nodes i).synced.clean.traced env input
  obtain ⟨hterm,hlands⟩ := (h.nodes i).synced.lands env input rest fate
  set q := ((s.nodes i).protocol.handle env input).1 with hq
  -- what a packet of this turn vouches for is the whole log of the leader
  have hnew : ∀ {pkt : Packet N V}, pkt ∈ packets → pkt.src = i ∧ pkt.dst ≠ i ∧
      ∀ {t k}, vouches pkt.msg = some (t,k) → k = (a1.book t).length := by
    intro pkt hpkt
    obtain ⟨hsrc,hdst,out,hout,_,hmsg⟩ := hp pkt hpkt
    refine ⟨hsrc,hdst,fun {t k} hv => ?_⟩
    rw [hmsg] at hv
    obtain ⟨hrole,rfl,rfl⟩ := htraced.sent ((Fate.sent_prefix _ fate).subset hout) hv
    rw [htr.log,htr.term,hb1.lead_log (htr.lead.mp hrole)]
  have hold : ∀ {pkt}, pkt ∈ s.flight → ∀ {t k}, vouches pkt.msg = some (t,k) →
      k ≤ (a1.book t).length := fun hpkt t k hv =>
    ((h.packets _ (h.flight _ hpkt)).2.vouches hv).2.trans (hx.book t).length_le
  refine ⟨List.pairwise_append.mpr ⟨ho.links,?_,?_⟩,?_⟩
  · refine List.pairwise_of_forall_mem_list fun x hx y hy _ _ t k k' hv hv' => ?_
    rw [(hnew hx).2.2 hv,(hnew hy).2.2 hv']
  · intro x hx y hy _ _ t k k' hv hv'
    rw [(hnew hy).2.2 hv']
    exact hold hx hv
  · intro pkt hpkt t k hv hle n e hn het
    by_cases hj : pkt.dst = i
    · rcases List.mem_append.mp hpkt with hpkt | hpkt
      · rw [hj] at hle hn
        simp only [Cluster.turned,Function.update_self] at hle hn
        have hown := ho.own hpkt hv
        rw [hj] at hown
        rcases hlands hn with hn | ⟨hn,hte⟩
        · exact hown (hterm.trans hle) hn het
        rcases htraced.log hn with hn | ⟨hrole,hcur⟩ | ⟨sender,msg,k0,hmsg,hv0,hlt⟩
        · exact hown (hterm.trans hle) hn het
        · -- no other node leads this term
          obtain ⟨hne,hbk⟩ := h.packets pkt (h.flight pkt hpkt)
          have hw := hx.won (hbk.vouches hv).1
          have hwi := htr.won hb1 hrole
          rw [← hcur,het] at hwi
          exact absurd ((hb1.won_unique hw hwi).trans hj.symm) hne
        · have hge : e.term ≤ q.currentTerm := by
            rw [htr.term]
            exact hb1.log_le (htr.log ▸ List.mem_of_getElem? hn)
          rw [hte] at hle
          rw [Nat.le_antisymm hle (het ▸ hge)] at hv0
          exact hlt.trans_le (hnext hmsg hpkt hj hv0 hv)
      · exact absurd hj (hnew hpkt).2.1
    · simp only [Cluster.turned,Function.update_of_ne hj] at hle hn
      rcases List.mem_append.mp hpkt with hpkt | hpkt
      · exact ho.own hpkt hv hle hn het
      · rw [(hnew hpkt).2.2 hv]
        rw [(h.nodes pkt.dst).tracks.log] at hn
        have hgrown := congrArg List.length (h.sound.base.log_grown _ n e hn)
        have hlt := (List.getElem?_eq_some_iff.mp hn).1
        rw [het,List.length_take,List.length_take] at hgrown
        have hle' := (hx.book t).length_le
        omega

/-- The packet handed over is older than the rest of its link. -/
theorem Ordered.oldest (h : ClusterOk R strict a s) (ho : Ordered s) {pos : ℕ}
    {pkt x : Packet N V}
    (hl : ∀ y ∈ s.flight.take pos, ¬ (y.src = pkt.src ∧ y.dst = pkt.dst))
    (hpkt : s.flight[pos]? = some pkt) (hx : x ∈ s.flight.eraseIdx pos) (hdst : x.dst = pkt.dst)
    {t k k' : ℕ} (hv : vouches pkt.msg = some (t,k)) (hv' : vouches x.msg = some (t,k')) :
    k ≤ k' := by
  have hback := fun y hy => (h.packets y (h.flight y hy)).2
  have hsrc : x.src = pkt.src := h.sound.base.won_unique
    ((hback x (List.mem_of_mem_eraseIdx hx)).vouches hv').1
    ((hback pkt (List.mem_of_getElem? hpkt)).vouches hv).1
  rw [List.eraseIdx_eq_take_drop_succ] at hx
  rcases List.mem_append.mp hx with hx | hx
  · exact absurd ⟨hsrc,hdst⟩ (hl x hx)
  · obtain ⟨hlt,hget⟩ := List.getElem?_eq_some_iff.mp hpkt
    have hlinks := ho.links
    rw [← List.take_append_drop pos s.flight,← List.getElem_cons_drop hlt,hget] at hlinks
    have hcons := (List.pairwise_append.mp hlinks).2.1
    exact (List.pairwise_cons.mp hcons).1 x hx hsrc.symm hdst.symm hv hv'

theorem Ordered.sublist (ho : Ordered s) {flight : List (Packet N V)}
    (hsub : flight.Sublist s.flight) : Ordered { s with flight := flight } :=
  ⟨ho.links.sublist hsub,fun hpkt => ho.own (hsub.subset hpkt)⟩

theorem Ordered.lessen (ho : Ordered s) (pos : ℕ) :
    Ordered { s with flight := s.flight.eraseIdx pos } := ho.sublist (List.eraseIdx_sublist _ _)

theorem Ordered.reboot (h : ClusterOk R strict a s) (ho : Ordered s) (env : Env) {id : NodeId}
    {total : ℕ} {cfg : RaftConfig} {node : RaftNode V V} {elected : List (ℕ × Fin N)}
    (hnode : node = .boot .exact env id total cfg (s.nodes i).storage) :
    Ordered { s with nodes := Function.update s.nodes i node, elected := elected } := by
  have hholds := (h.nodes i).synced.holds
  obtain ⟨ht,hlog⟩ := boot_log env id total cfg (s.nodes i).storage
  rw [← hnode,hholds.term] at ht
  rw [← hnode,hholds.log,Adapter.exact_strip] at hlog
  refine ⟨ho.links,fun {pkt} hpkt t k hv hle n e hn het => ?_⟩
  have hown := ho.own hpkt hv
  by_cases hj : pkt.dst = i
  · rw [hj] at hown hle hn
    simp only [Function.update_self] at hle hn
    rw [ht] at hle
    rw [hlog] at hn
    exact hown hle hn het
  · simp only [Function.update_of_ne hj] at hle hn
    exact hown hle hn het

variable {M : Membership N}

theorem Ordered.wakes (h : ClusterOk M.roster strict a s) (ho : Ordered s) {l : Label V N} {env : Env}
    {input : Input V} {rest : List V} {fate : Fate} {flight : List (Packet N V)}
    (hw : s.Wakes M l i env input rest fate flight) (hl : Fifo s l) :
    Ordered ({ s with flight := flight }.take M i env input rest fate) := by
  obtain ⟨hok,hin⟩ := h.wakes hw fun _ => ho.keepsOwn l
  cases hw with
  | @act _ _ input =>
    exact ho.turned hok env _ _ fate hin (Membership.carried M _ _)
      fun hm => by cases input <;> cases hm
  | repropose =>
    exact ho.turned hok env _ _ fate hin (Membership.carried M _ _) fun hm => by cases hm
  | deliver hpkt =>
    refine (ho.lessen _).turned hok env _ _ fate hin (Membership.carried M _ _) ?_
    intro sender msg hm x hx hdst t k k' hv hv'
    cases hm
    exact ho.oldest h (hl _ hpkt) hpkt hx hdst hv hv'

theorem Ordered.step (h : ClusterOk M.roster strict a s) (ho : Ordered s) {l : Label V N}
    (hl : Fifo s l) (hs : s.step M l = some s') : Ordered s' := by
  rcases Cluster.step_cases hs with ⟨i,env,input,rest,fate,flight,hw,rfl⟩ | ⟨i,env,rfl,rfl⟩ |
    ⟨pos,rfl,rfl⟩ | ⟨pos,pkt,rfl,_,_⟩
  · exact ho.wakes h hw hl
  · exact ho.reboot h env rfl
  · exact ho.lessen pos
  · exact hl.elim

structure InOrder (M : Membership N) (a : Abstract N V) (s : Cluster N V) : Prop where
  ok : ClusterOk M.roster True a s
  ordered : Ordered s

theorem InOrder.init (M : Membership N) (env : Env) :
    InOrder (V := V) M State.start (.init M env) :=
  ⟨.init M True env,by simp [Cluster.init],by simp [Cluster.init]⟩

theorem InOrder.step (h : InOrder M a s) {l : Label V N} (hl : Fifo s l)
    (hs : s.step M l = some s') : ∃ a', StepOk M True a s l a' s' ∧ InOrder M a' s' := by
  obtain ⟨a',hstep⟩ := h.ok.step (fun _ => h.ordered.keepsOwn l) hs
  exact ⟨a',hstep,hstep.ok,h.ordered.step h.ok hl hs⟩

theorem InOrder.reaches (h : InOrder M a s) (hr : Runs.Reaches (Cluster.step M) Fifo s s') :
    ∃ a', Moves LogEntry.term True a a' ∧ InOrder M a' s' := by
  induction hr with
  | start => exact ⟨a,.refl,h⟩
  | next _ hl hs ih =>
    obtain ⟨a1,hmoves,h1⟩ := ih
    obtain ⟨a2,hstep,h2⟩ := h1.step hl hs
    exact ⟨a2,hmoves.trans hstep.moves,h2⟩

/-- What one node has committed and another leads with, seen from a later state `z`. -/
theorem Tracks.completeness {b z : Abstract N V} {q q' : RaftProtocol V}
    (hz : Sound LogEntry.term True z) (hq : Tracks R True a i q)
    (hx : ReplicatedLog.Extends LogEntry.term a z) {c n : ℕ} (hc : q.commitIndex = some c)
    (hn : n ≤ c) (hb : Base LogEntry.term b) (hq' : Tracks R True b j q')
    (hx' : ReplicatedLog.Extends LogEntry.term b z) (hlead : q'.role = .leader)
    (hlt : q.currentTerm < q'.currentTerm) : q'.log[n]? = q.log[n]? := by
  have hset := (hq.commit trivial c hc).mono hx (le_refl _) (List.take_prefix _ _)
  have hl := hq'.lead.mp hlead
  have hw := hb.lead_won hl
  have hpoll : z.poll (b.term j) j <+: q'.log := by
    rw [hx'.poll (hb.won_ran hw),hq'.log,hb.lead_log hl]
    exact hb.poll_book hw
  rw [hq.term,hq'.term] at hlt
  rw [hq.log]
  exact (hz.durable trivial).settled_won hz.base hset (Nat.lt_succ_of_le hn) (hx'.won hw) hlt hpoll

/-- A step of a run from the start in which all links are queues. -/
structure FifoStep (M : Membership N) (env : Env) (s : Cluster N V) (l : Label V N)
    (s' : Cluster N V) : Prop where
  reached : Runs.Reaches (Cluster.step M) Fifo (.init M env) s
  inOrder : Fifo s l
  step : s.step M l = some s'

/-- Whatever a node counts as committed, a leader that has just advanced its
commit index included, is in the log of every leader of a later term of the same
run, before or after; and no node loses an entry up to its own commit index. -/
theorem leader_completeness (M : Membership N) (env : Env) (s s' : Cluster N V) (l : Label V N)
    (h : FifoStep M env s l s') :
    (∀ i q c n, s.Shows M l s' i q → q.commitIndex = some c → n ≤ c →
      ∃ e, q.log[n]? = some e ∧ ∀ r l' r' j q', FifoStep M env r l' r' →
        (Runs.Reaches (Cluster.step M) Fifo s' r ∨ Runs.Reaches (Cluster.step M) Fifo r' s ∨
          r = s ∧ l' = l) →
        r.Shows M l' r' j q' → q'.role = .leader → q.currentTerm < q'.currentTerm →
        q'.log[n]? = some e) ∧
    ∀ i c n, (s.nodes i).protocol.commitIndex = some c → n ≤ c →
      ∃ e, (s.nodes i).protocol.log[n]? = some e ∧
        ∀ q, s.Shows M l s' i q → q.log[n]? = some e := by
  refine ⟨fun i q c n hq hc hn => ?_,fun i c n hc hn => ?_⟩
  · obtain ⟨a,_,ha⟩ := (InOrder.init M env).reaches h.reached
    obtain ⟨a',hstep,ha'⟩ := ha.step h.inOrder h.step
    obtain ⟨a1,hm1,hm1',ht1⟩ := hstep.shows hq
    have hlen := (ht1.commit trivial c hc).length_le
    rw [← ht1.log] at hlen
    refine ⟨_,List.getElem?_eq_getElem (by omega),fun r l' r' j q' hr hsame hq' hlead hlt => ?_⟩
    rw [← List.getElem?_eq_getElem]
    have hs1 := ha.ok.sound.moves hm1
    rcases hsame with hafter | hbefore | ⟨rfl,rfl⟩
    · obtain ⟨b,hmb,hb⟩ := ha'.reaches hafter
      obtain ⟨b',hstepb,_⟩ := hb.step hr.inOrder hr.step
      obtain ⟨b1,hmb1,_,htb1⟩ := hstepb.shows hq'
      have hsb1 := hb.ok.sound.moves hmb1
      exact ht1.completeness hsb1 (hs1.base.moves ((hm1'.trans hmb).trans hmb1)).2 hc hn hsb1.base
        htb1 (.refl _ _) hlead hlt
    · obtain ⟨b,_,hb⟩ := (InOrder.init M env).reaches hr.reached
      obtain ⟨b',hstepb,hb'⟩ := hb.step hr.inOrder hr.step
      obtain ⟨b1,hmb1,hmb1',htb1⟩ := hstepb.shows hq'
      obtain ⟨z,hmz,hz⟩ := hb'.reaches hbefore
      obtain ⟨z',hstepz,_⟩ := hz.step h.inOrder h.step
      obtain ⟨z1,hmz1,_,htz1⟩ := hstepz.shows hq
      have hsb1 := hb.ok.sound.moves hmb1
      exact htz1.completeness (hz.ok.sound.moves hmz1) (.refl _ _) hc hn hsb1.base htb1
        (hsb1.base.moves ((hmb1'.trans hmz).trans hmz1)).2 hlead hlt
    · obtain rfl := Option.some.inj (hr.step.symm.trans h.step)
      obtain ⟨b1,hmb1,hmb1',htb1⟩ := hstep.shows hq'
      have hsb1 := ha.ok.sound.moves hmb1
      exact ht1.completeness ha'.ok.sound (hs1.base.moves hm1').2 hc hn hsb1.base htb1
        (hsb1.base.moves hmb1').2 hlead hlt
  · obtain ⟨a,_,ha⟩ := (InOrder.init M env).reaches h.reached
    obtain ⟨a',hstep,_⟩ := ha.step h.inOrder h.step
    have htr := (ha.ok.nodes i).tracks
    have hset := htr.commit trivial c hc
    have hlen := hset.length_le
    rw [← htr.log] at hlen
    refine ⟨_,List.getElem?_eq_getElem (by omega),fun q hq => ?_⟩
    rw [← List.getElem?_eq_getElem]
    obtain ⟨a1,hm1,_,ht1⟩ := hstep.shows hq
    have hs1 := ha.ok.sound.moves hm1
    have hold := hset.mono (ha.ok.sound.base.moves hm1).2 (le_refl _) (List.take_prefix _ _)
    rw [htr.log,ht1.log]
    exact (hs1.durable trivial).settled_agree hs1.base
      (ha.ok.sound.settled_moves trivial hm1 hset) hold (by omega) (by omega)

end

/-- Node `a` is elected by `b`, replicates 7 to it, and waits for the answer. -/
def queued : Cluster 3 ℕ :=
  Runs.after (Cluster.step trio) Fifo (.init trio ⟨0,0⟩)
    [tickAt 1000 0,handAt 1001 0,handAt 1002 1,handAt 1003 1,submitAt 1004 0 7,handAt 1005 3,
      handAt 1006 2] (by decide +kernel)

def queuedCommit : Cluster 3 ℕ := (queued.step trio (handAt 1007 3)).get (by decide +kernel)

/-- `b` runs for the next term and has the vote of `c` on its way. -/
def queuedElection : Cluster 3 ℕ :=
  Runs.after (Cluster.step trio) Fifo queuedCommit [tickAt 2000 1,handAt 2001 4]
    (by decide +kernel)

def queuedLeader : Cluster 3 ℕ := (queuedElection.step trio (handAt 2002 4)).get (by decide +kernel)

theorem leader_completeness_queued :
    (queuedCommit.nodes 0).protocol.commitIndex = some 0 ∧
    (queuedLeader.nodes 1).protocol.role = .leader ∧
    (queuedLeader.nodes 1).protocol.log[0]? = (queuedCommit.nodes 0).protocol.log[0]? := by
  have hreach : Runs.Reaches (Cluster.step trio) Fifo (.init trio ⟨0,0⟩) queued :=
    Runs.after_reaches .start (by decide +kernel)
  have hcommit : FifoStep trio ⟨0,0⟩ queued (handAt 1007 3) queuedCommit :=
    ⟨hreach,by decide +kernel,(Option.some_get _).symm⟩
  have hlater : Runs.Reaches (Cluster.step trio) Fifo queuedCommit queuedElection :=
    Runs.after_reaches .start (by decide +kernel)
  have hlead : FifoStep trio ⟨0,0⟩ queuedElection (handAt 2002 4) queuedLeader :=
    ⟨Runs.after_reaches (.next hcommit.reached hcommit.inOrder hcommit.step) (by decide +kernel),
      by decide +kernel,(Option.some_get _).symm⟩
  obtain ⟨e,he,hall⟩ := (leader_completeness trio ⟨0,0⟩ queued queuedCommit _ hcommit).1 0 _ 0 0
    (Or.inl rfl) (by decide +kernel) le_rfl
  refine ⟨by decide +kernel,by decide +kernel,?_⟩
  rw [he]
  exact hall _ _ _ 1 _ hlead (Or.inl hlater) (Or.inl rfl) (by decide +kernel) (by decide +kernel)

end Raft
end Daccord
